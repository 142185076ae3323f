import Mathlib.Data.List.Infix

/-! # A channel to a peer that answers requests

The bytes received and not consumed yet, the bytes the peer has sent and the channel has not received, and what
the network does: how many bytes arrive before a read fails, and in which pieces. `Reads` says which bytes an
action consumes and how it ends, both when they arrive and when they do not; it composes along `bind`.
`Exchange` does the same with requests and their answers in between. -/

structure Channel where
  buffer : List Char := []
  unread : List Char := []
  /-- how many bytes arrive before a read fails -/
  arrives : Nat := 0
  cuts : List Nat := []
  /-- what the peer answers to the next requests; nothing where the request is not written -/
  answers : List (Option (List Char)) := []
  /-- no request was left half written -/
  intact : Bool := true

namespace Channel

def pending (c : Channel) : List Char := c.buffer ++ c.unread

/-- How many bytes can be consumed before a read fails. -/
def budget (c : Channel) : Nat := c.buffer.length + c.arrives

/-- One read of up to `want` bytes, nothing where it fails. -/
def receive (want : Nat) (c : Channel) : Option (List Char × Channel) :=
  let n := min (min want (c.cuts.headD 0 + 1)) (min c.arrives c.unread.length)
  if n = 0 then none
  else some (c.unread.take n, { c with unread := c.unread.drop n, arrives := c.arrives - n, cuts := c.cuts.tail })

/-- `n` bytes were consumed, and nothing else was done. -/
structure Took (c c' : Channel) (n : Nat) : Prop where
  pending : c'.pending = c.pending.drop n
  budget : c'.budget + n = c.budget
  answers : c'.answers = c.answers
  intact : c'.intact = c.intact

theorem Took.refl (c : Channel) : Took c c 0 := ⟨rfl, rfl, rfl, rfl⟩

theorem Took.trans {c₀ c₁ c₂ : Channel} {m n : Nat} (h : Took c₀ c₁ m) (h' : Took c₁ c₂ n) : Took c₀ c₂ (m + n) where
  pending := by rw [h'.pending, h.pending, List.drop_drop]
  budget := by
    have h₁ := h.budget
    have h₂ := h'.budget
    omega
  answers := h'.answers.trans h.answers
  intact := h'.intact.trans h.intact

end Channel

/-- What a client does with a channel: a result or a failure, and the channel after it in both cases. -/
def Session (ε α : Type) : Type := Channel → Except ε α × Channel

namespace Session
variable {ε α β : Type}

def bind (m : Session ε α) (f : α → Session ε β) : Session ε β := fun c =>
  match m c with
  | (.ok a, c') => f a c'
  | (.error e, c') => (.error e, c')

instance : Monad (Session ε) where
  pure a := fun c => (.ok a, c)
  bind := bind

def tryCatch (m : Session ε α) (handle : ε → Session ε α) : Session ε α := fun c =>
  match m c with
  | (.ok a, c') => (.ok a, c')
  | (.error e, c') => handle e c'

instance : MonadExcept ε (Session ε) where
  throw e := fun c => (.error e, c)
  tryCatch := tryCatch

theorem bind_ok {m : Session ε α} {f : α → Session ε β} {c c' : Channel} {a : α} (h : m c = (.ok a, c')) :
    (m >>= f) c = f a c' := by
  show bind m f c = _
  unfold bind
  rw [h]

theorem bind_error {m : Session ε α} {f : α → Session ε β} {c c' : Channel} {e : ε} (h : m c = (.error e, c')) :
    (m >>= f) c = (.error e, c') := by
  show bind m f c = _
  unfold bind
  rw [h]

theorem bind_assoc {γ : Type} (m : Session ε α) (f : α → Session ε β) (g : β → Session ε γ) :
    m >>= f >>= g = m >>= fun a => f a >>= g := by
  funext c
  rcases hm : m c with ⟨e | a, c'⟩
  · rw [bind_error (bind_error hm), bind_error hm]
  · rw [bind_ok hm]
    rcases hf : f a c' with ⟨e | b, c''⟩
    · rw [bind_error ((bind_ok hm).trans hf), bind_error hf]
    · rw [bind_ok ((bind_ok hm).trans hf), bind_ok hf]

/-- A request: the peer gets it and its answer is on the way, or it is not written. -/
def request (failure : ε) : Session ε Unit := fun c =>
  match c.answers with
  | some answer :: more => (.ok (), { c with unread := c.unread ++ answer, answers := more })
  | none :: more => (.error failure, { c with answers := more, intact := false })
  | [] => (.error failure, { c with intact := false })

/-! ## What an action consumes -/

/-- On a channel that has `bytes` to come, the action consumes exactly these and ends as `out` says if they
arrive, and otherwise fails having consumed all that does. -/
structure Reads (m : Session ε α) (bytes : List Char) (out : Except ε α) : Prop where
  full : ∀ c : Channel, bytes <+: c.pending → bytes.length ≤ c.budget →
    ∃ c', m c = (out, c') ∧ c.Took c' bytes.length
  short : ∀ c : Channel, bytes <+: c.pending → c.budget < bytes.length →
    ∃ e c', m c = (.error e, c') ∧ c.Took c' c.budget

namespace Reads
variable {m : Session ε α} {f : α → Session ε β} {a b : List Char} {v : α} {e : ε} {out : Except ε β}

theorem pure (v : α) : Reads (Pure.pure v : Session ε α) [] (.ok v) where
  full c _ _ := ⟨c, rfl, .refl c⟩
  short _ _ h := absurd h (Nat.not_lt_zero _)

theorem throw (e : ε) : Reads (MonadExcept.throw e : Session ε α) [] (.error e) where
  full c _ _ := ⟨c, rfl, .refl c⟩
  short _ _ h := absurd h (Nat.not_lt_zero _)

theorem bind (hm : Reads m a (.ok v)) (hf : Reads (f v) b out) : Reads (m >>= f) (a ++ b) out where
  full c hp hb := by
    rw [List.length_append] at hb
    obtain ⟨c', hc', htook⟩ := hm.full c ((List.prefix_append a b).trans hp) (by omega)
    have hb' := htook.budget
    have hp' : b <+: c'.pending := by
      rw [htook.pending]
      obtain ⟨t, ht⟩ := hp
      rw [← ht, List.append_assoc, List.drop_left]
      exact List.prefix_append b t
    obtain ⟨c'', hc'', htook'⟩ := hf.full c' hp' (by omega)
    rw [List.length_append]
    exact ⟨c'', (bind_ok hc').trans hc'', htook.trans htook'⟩
  short c hp hb := by
    rw [List.length_append] at hb
    by_cases hlt : c.budget < a.length
    · obtain ⟨e, c', hc', htook⟩ := hm.short c ((List.prefix_append a b).trans hp) hlt
      exact ⟨e, c', bind_error hc', htook⟩
    · obtain ⟨c', hc', htook⟩ := hm.full c ((List.prefix_append a b).trans hp) (Nat.not_lt.mp hlt)
      have hb' := htook.budget
      have hp' : b <+: c'.pending := by
        rw [htook.pending]
        obtain ⟨t, ht⟩ := hp
        rw [← ht, List.append_assoc, List.drop_left]
        exact List.prefix_append b t
      obtain ⟨e, c'', hc'', htook'⟩ := hf.short c' hp' (by omega)
      have htrans := htook.trans htook'
      rw [Nat.add_comm, hb'] at htrans
      exact ⟨e, c'', (bind_ok hc').trans hc'', htrans⟩

theorem bind_error (hm : Reads m a (.error e)) : Reads (m >>= f) a (.error e : Except ε β) where
  full c hp hb := by
    obtain ⟨c', hc', htook⟩ := hm.full c hp hb
    exact ⟨c', Session.bind_error hc', htook⟩
  short c hp hb := by
    obtain ⟨e, c', hc', htook⟩ := hm.short c hp hb
    exact ⟨e, c', Session.bind_error hc', htook⟩

theorem map {out : Except ε α} (g : α → β) (hm : Reads m a out) : Reads (g <$> m) a (g <$> out) := by
  rcases out with e | v
  · exact bind_error hm
  · have hbind : Reads (m >>= fun v => Pure.pure (g v)) (a ++ []) (.ok (g v)) := hm.bind (pure (g v))
    rwa [List.append_nil] at hbind

theorem congr {m' : Session ε β} (hm : Reads m' a out) {m : Session ε β} (h : ∀ c, m c = m' c) : Reads m a out := by
  rwa [funext h]

/-- An action that takes some of its bytes and goes on with the others. -/
theorem step {m : Session ε β}
    (next : ∀ c : Channel, a <+: c.pending → 0 < c.budget → ∃ k, ∃ m' : Session ε β, ∃ c', k ≤ a.length ∧
      c.Took c' k ∧ m c = m' c' ∧ Reads m' (a.drop k) out)
    (last : ∀ c : Channel, a <+: c.pending → c.budget = 0 → ∃ e, m c = (.error e, c)) (hne : a ≠ []) :
    Reads m a out where
  full c hp hb := by
    have hlen : 0 < a.length := List.length_pos_iff.mpr hne
    obtain ⟨k, m', c', hk, htook, hstep, hrest⟩ := next c hp (by omega)
    have hb' := htook.budget
    have hp' : a.drop k <+: c'.pending := htook.pending ▸ List.IsPrefix.drop hp k
    have hdrop := List.length_drop (i := k) (l := a)
    obtain ⟨c'', hc'', htook'⟩ := hrest.full c' hp' (by omega)
    refine ⟨c'', hstep.trans hc'', ?_⟩
    have htrans := htook.trans htook'
    rwa [hdrop, Nat.add_sub_cancel' hk] at htrans
  short c hp hb := by
    rcases Nat.eq_zero_or_pos c.budget with hzero | hpos
    · obtain ⟨e, he⟩ := last c hp hzero
      exact ⟨e, c, he, hzero ▸ .refl c⟩
    · obtain ⟨k, m', c', hk, htook, hstep, hrest⟩ := next c hp hpos
      have hb' := htook.budget
      have hp' : a.drop k <+: c'.pending := htook.pending ▸ List.IsPrefix.drop hp k
      have hdrop := List.length_drop (i := k) (l := a)
      obtain ⟨e, c'', hc'', htook'⟩ := hrest.short c' hp' (by omega)
      refine ⟨e, c'', hstep.trans hc'', ?_⟩
      have htrans := htook.trans htook'
      rwa [Nat.add_comm, hb'] at htrans

/-- Only what was read to its end succeeds. -/
theorem of_ok {out : Except ε α} {c c' : Channel} (hm : Reads m a out) (hp : a <+: c.pending)
    (h : m c = (.ok v, c')) : out = .ok v ∧ c.Took c' a.length := by
  by_cases hlt : c.budget < a.length
  · obtain ⟨e, c'', hc'', -⟩ := hm.short c hp hlt
    exact absurd (Prod.mk.inj (hc''.symm.trans h)).1 nofun
  · obtain ⟨c'', hc'', htook⟩ := hm.full c hp (Nat.not_lt.mp hlt)
    obtain ⟨rfl, rfl⟩ := Prod.mk.inj (hc''.symm.trans h)
    exact ⟨rfl, htook⟩

end Reads

/-! ## Requests and their answers -/

/-- On a channel that has just `bytes` to come, the action gets these answers, consumes everything and ends as
`out` says, if everything arrives. -/
def Exchange (m : Session ε α) (bytes : List Char) (answers : List (List Char)) (out : Except ε α) : Prop :=
  ∀ (c : Channel) (more : List (Option (List Char))), c.pending = bytes → c.intact = true →
    c.answers = answers.map some ++ more → bytes.length + answers.flatten.length ≤ c.budget →
    ∃ c', m c = (out, c') ∧ c'.pending = [] ∧ c'.intact = true ∧ c'.answers = more ∧
      c'.budget + (bytes.length + answers.flatten.length) = c.budget

/-- The channel once a request is written and nothing of its answer is received. -/
theorem request_ok {failure : ε} {c : Channel} {answer : List Char} {more : List (Option (List Char))}
    (hp : c.pending = []) (ha : c.answers = some answer :: more) :
    ∃ c', request failure c = (.ok (), c') ∧ c'.pending = answer ∧ c'.budget = c.budget ∧ c'.answers = more ∧
      c'.intact = c.intact := by
  refine ⟨{ c with unread := c.unread ++ answer, answers := more }, ?_, ?_, rfl, rfl, rfl⟩
  · unfold request
    rw [ha]
  · obtain ⟨hbuffer, hunread⟩ := List.append_eq_nil_iff.mp hp
    show c.buffer ++ (c.unread ++ answer) = answer
    rw [hbuffer, hunread]
    rfl

theorem request_error {failure : ε} {c : Channel} (h : ∀ answer more, c.answers ≠ some answer :: more) :
    ∃ c', request failure c = (.error failure, c') := by
  unfold request
  rcases hanswers : c.answers with _ | ⟨_ | answer, more⟩
  · exact ⟨_, rfl⟩
  · exact ⟨_, rfl⟩
  · exact absurd hanswers (h answer more)

namespace Exchange
variable {m : Session ε α} {f : α → Session ε β} {a b : List Char} {as bs : List (List Char)} {v : α} {e failure : ε}
  {out : Except ε β}

theorem pure (v : α) : Exchange (Pure.pure v : Session ε α) [] [] (.ok v) := fun c _ hp hi ha _ =>
  ⟨c, rfl, hp, hi, ha, rfl⟩

theorem throw (e : ε) : Exchange (MonadExcept.throw e : Session ε α) [] [] (.error e) := fun c _ hp hi ha _ =>
  ⟨c, rfl, hp, hi, ha, rfl⟩

theorem read {out : Except ε α} (hm : Reads m a out) : Exchange m a [] out := by
  intro c more hp hi ha hb
  obtain ⟨c', hc', htook⟩ := hm.full c (hp ▸ List.prefix_refl a) hb
  refine ⟨c', hc', ?_, htook.intact.trans hi, htook.answers.trans ha, htook.budget⟩
  rw [htook.pending, hp, List.drop_length]

theorem read_bind (hm : Reads m a (.ok v)) (hf : Exchange (f v) b as out) : Exchange (m >>= f) (a ++ b) as out := by
  intro c more hp hi ha hb
  rw [List.length_append] at hb ⊢
  obtain ⟨c', hc', htook⟩ := hm.full c (hp ▸ List.prefix_append a b) (by omega)
  have hb' := htook.budget
  have hp' : c'.pending = b := by rw [htook.pending, hp, List.drop_left]
  obtain ⟨c'', hc'', hp'', hi'', ha'', hb''⟩ :=
    hf c' more hp' (htook.intact.trans hi) (htook.answers.trans ha) (by omega)
  exact ⟨c'', (bind_ok hc').trans hc'', hp'', hi'', ha'', by omega⟩

theorem request_bind {f : Unit → Session ε β} (hf : Exchange (f ()) a as out) :
    Exchange (Session.request failure >>= f) [] (a :: as) out := by
  intro c more hp hi ha hb
  obtain ⟨c', hc', hp', hb', ha', hi'⟩ := @request_ok ε failure c a _ hp ha
  rw [List.flatten_cons, List.length_append, List.length_nil] at hb ⊢
  obtain ⟨c'', hc'', hp'', hi'', ha'', hb''⟩ := hf c' more hp' (hi'.trans hi) ha' (by omega)
  exact ⟨c'', (bind_ok hc').trans hc'', hp'', hi'', ha'', by omega⟩

theorem bind (hm : Exchange m a as (.ok v)) (hf : Exchange (f v) [] bs out) :
    Exchange (m >>= f) a (as ++ bs) out := by
  intro c more hp hi ha hb
  rw [List.flatten_append, List.length_append] at hb ⊢
  rw [List.map_append, List.append_assoc] at ha
  obtain ⟨c', hc', hp', hi', ha', hb'⟩ := hm c _ hp hi ha (by omega)
  obtain ⟨c'', hc'', hp'', hi'', ha'', hb''⟩ := hf c' more hp' hi' ha' (by rw [List.length_nil]; omega)
  rw [List.length_nil] at hb''
  exact ⟨c'', (bind_ok hc').trans hc'', hp'', hi'', ha'', by omega⟩

theorem bind_error (hm : Exchange m a as (.error e)) : Exchange (m >>= f) a as (.error e : Except ε β) := by
  intro c more hp hi ha hb
  obtain ⟨c', hc', hrest⟩ := hm c more hp hi ha hb
  exact ⟨c', Session.bind_error hc', hrest⟩

theorem tryCatch_ok {handle : ε → Session ε α} (hm : Exchange m a as (.ok v)) :
    Exchange (MonadExcept.tryCatch m handle) a as (.ok v) := by
  intro c more hp hi ha hb
  obtain ⟨c', hc', hrest⟩ := hm c more hp hi ha hb
  refine ⟨c', ?_, hrest⟩
  show Session.tryCatch m handle c = _
  unfold Session.tryCatch
  rw [hc']

end Exchange

/-- A request on a channel with nothing to come leaves nothing of its answer behind exactly when the answer
arrives and the action reads all of it. -/
theorem Reads.leaves_nothing_iff {m : Session ε α} {a b : List Char} {out : Except ε α} {failure : ε}
    (hm : Reads m b out) (hba : b <+: a) {c : Channel} {more : List (Option (List Char))} (hp : c.pending = [])
    (ha : c.answers = some a :: more) :
    ((Session.request failure >>= fun _ => m) c).2.pending = [] ↔ b = a ∧ a.length ≤ c.budget := by
  obtain ⟨c', hc', hp', hb', -, -⟩ := @request_ok ε failure c a more hp ha
  have hpre : b <+: c'.pending := hp' ▸ hba
  rw [bind_ok hc', ← hb']
  by_cases hlt : c'.budget < b.length
  · obtain ⟨e, c'', hc'', htook⟩ := hm.short c' hpre hlt
    have hle := hba.length_le
    rw [hc'']
    refine iff_of_false (fun hnil => ?_) fun h => ?_
    · have hlen := congrArg List.length (htook.pending.symm.trans hnil)
      rw [hp', List.length_drop, List.length_nil] at hlen
      omega
    · have := h.2
      omega
  · obtain ⟨c'', hc'', htook⟩ := hm.full c' hpre (Nat.not_lt.mp hlt)
    rw [hc'']
    show c''.pending = [] ↔ _
    rw [htook.pending, hp', List.drop_eq_nil_iff]
    refine ⟨fun hle => ?_, fun h => ?_⟩
    · have heq : b = a := hba.eq_of_length_le hle
      exact ⟨heq, heq ▸ Nat.not_lt.mp hlt⟩
    · exact h.1 ▸ Nat.le_refl _

end Session
