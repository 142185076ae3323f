import Pineapple.GoManagerInv

/-! # What the Go resource manager owes

Every value is closed once, when its last borrow and the manager's own reference are gone, and `Get` returns
none that is closed. What `Get` does not do in every run is return: a `Start` that fails leaves the values it
closed in their slots, and a `Get` that was past its look at the `loaded` flag reads them again and again. -/

namespace Pineapple.GoResource

/-! ## Values -/

/-- The values whose last reference is gone: closed, or about to be. -/
def ManagerState.over (s : ManagerState) : List Value := s.threads.filterMap Thread.closing? ++ s.shared.closed

/-- The value is the manager's no more. -/
inductive Dropped (m : Manager) (s : ManagerState) (v : Value) : Prop
  | superseded : s.shared.slot v.1 ≠ some v.2 → Dropped m s v
  /-- no `Start` is under way, and none has succeeded -/
  | rolledBack : s.shared.locked = false → s.shared.started = false → Dropped m s v
  /-- the first `Stop` is over -/
  | stopped : s.shared.retired = true → (∀ t ∈ s.threads, t.keeps m = none) → Dropped m s v

/-- A fetched value that its goroutine has not put in the slot yet. -/
def ManagerState.inHand (s : ManagerState) (v : Value) : Prop :=
  (∃ todo loaded, .store v todo loaded ∈ s.threads) ∨ ∃ name, .swap name v ∈ s.threads

/-- Somebody has borrowed the value, or is releasing it. -/
def ManagerState.borrowed (s : ManagerState) (v : Value) : Prop :=
  .handle v ∈ s.threads ∨ ∃ after, .drop v after ∈ s.threads

structure ValuesSafe (m : Manager) (s : ManagerState) : Prop where
  once : s.over.Nodup
  afterBorrows : ∀ v ∈ s.over, ¬ s.borrowed v
  due : ∀ v : Value, v.Fetched s.shared → ¬ s.inHand v → Dropped m s v → ¬ s.borrowed v → v ∈ s.over
  complete : ∀ v ∈ s.over, (∀ after, .close v after ∉ s.threads) → v ∈ s.shared.closed

theorem mem_references {ts : List Thread} {v : Value} : v ∈ ts.filterMap Thread.reference? ↔
    (ManagerState.mk {} ts).inHand v ∨ (ManagerState.mk {} ts).borrowed v := by
  rw [List.mem_filterMap]
  constructor
  · rintro ⟨t, ht, hv⟩
    cases t with
    | store w todo loaded => exact Or.inl (Or.inl ⟨todo, loaded, Option.some.inj hv ▸ ht⟩)
    | swap name w => exact Or.inl (Or.inr ⟨name, Option.some.inj hv ▸ ht⟩)
    | handle w => exact Or.inr (Or.inl (Option.some.inj hv ▸ ht))
    | drop w after => exact Or.inr (Or.inr ⟨after, Option.some.inj hv ▸ ht⟩)
    | _ => cases hv
  · rintro ((⟨todo, loaded, ht⟩ | ⟨name, ht⟩) | ht | ⟨after, ht⟩)
    · exact ⟨_, ht, rfl⟩
    · exact ⟨_, ht, rfl⟩
    · exact ⟨_, ht, rfl⟩
    · exact ⟨_, ht, rfl⟩

namespace ManagerInv
variable {m : Manager} {s : ManagerState}

/-- What is the manager's no more is not counted as its own. -/
theorem not_owned (h : ManagerInv m s.shared s.threads) {v : Value} (hv : Dropped m s v) : v ∉ s.shared.owned := by
  intro hown
  have hlive : v.1 ∈ s.shared.live := List.mem_map_of_mem hown
  cases hv with
  | superseded hslot => exact hslot (h.owned_slot v hown)
  | rolledBack hlocked hstarted =>
    have hcall : ManagerInv m s.shared (.start :: s.threads) := h.spawn rfl rfl rfl rfl rfl trivial
    have hbegun := (hcall.begun hlocked hstarted (List.Perm.refl m.names)).keeps_alone rfl
    exact absurd (hbegun.2.mem_iff.mp hlive) List.not_mem_nil
  | stopped hretired hnone =>
    have hkept := h.kept
    rw [List.filterMap_eq_nil_iff.mpr hnone] at hkept
    have hsettled : s.shared.settled m = [] := by
      rw [Shared.settled, hretired, Bool.not_true, Bool.and_false]
      rfl
    exact absurd (hkept.mem_iff.mp hlive) (by simp [hsettled])

theorem valuesSafe (h : ManagerInv m s.shared s.threads) : ValuesSafe m s := by
  refine ⟨h.ledger.ended_nodup, fun v hv hb => ?_, fun v hv hhand hdropped hb => ?_, fun v hv hc => ?_⟩
  · exact h.ledger.not_held hv (List.mem_append_right _ (mem_references.mpr (Or.inr hb)))
  · refine (h.ledger.mem_ended_iff hv).mpr fun hheld => ?_
    rcases List.mem_append.mp hheld with hown | hrefs
    · exact h.not_owned hdropped hown
    · exact (mem_references.mp hrefs).elim hhand hb
  · rcases List.mem_append.mp hv with hv | hv
    · obtain ⟨t, ht, hclosing⟩ := List.mem_filterMap.mp hv
      cases t with
      | close w after => exact absurd (Option.some.inj hclosing ▸ ht) (hc after)
      | _ => cases hclosing
    · exact hv

/-- `Get` takes its reference where the counter is positive. -/
theorem got (h : ManagerInv m s.shared s.threads) {actor : Option Thread} {v : Value} {s' : ManagerState}
    (hstep : ManagerStep m s actor (some ⟨some v⟩) s') : v ∉ s.over := by
  cases hstep with
  | @run pre t post sh _ sh' ts ht =>
    cases ht with
    | @getSwapped name _ n hn =>
      have hmem : .getSwap name v n ∈ pre ++ .getSwap name v n :: post := List.mem_append_right _ List.mem_cons_self
      have hknown : Thread.Knows m sh (.getSwap name v n) := h.knows _ hmem
      obtain ⟨rfl, hfetched, hpos⟩ := hknown
      intro hover
      exact h.ledger.not_held hover ((h.ledger.pos_iff hfetched).mp (hn ▸ hpos))

end ManagerInv

/-! ## `Get` on its own -/

/-- `Get` is past its look at the flag. -/
def Thread.inGet (name : String) : Thread → Prop
  | getLoad name' | getRefs name' _ | getSwap name' _ _ | getRetired name' => name' = name
  | _ => False

/-- A goroutine takes a step and nobody else does. -/
def Alone (m : Manager) (a b : Shared × Thread) : Prop := ∃ ev, a.2.Step m a.1 ev b.1 [b.2]

/-- On its own the goroutine comes back to where it stands, with everything as it was. -/
def Spins (m : Manager) (sh : Shared) (t : Thread) : Prop := Relation.TransGen (Alone m) (sh, t) (sh, t)

/-- The resource's slot holds a value that is closed. -/
def Shared.Dead (sh : Shared) (name : String) : Prop := ∃ n, sh.slot name = some n ∧ sh.refs (name, n) ≤ 0

/-- The steps a `Get`, or the release after it, has at most ahead of it while it can read a live value. -/
def Thread.ahead (sh : Shared) : Thread → Nat
  | getSwap _ v n => if sh.refs v = n then 4 else 9
  | getRefs _ v => if 0 < sh.refs v then 5 else 8
  | getLoad name => match sh.slot name with
    | none => 4
    | some n => if 0 < sh.refs (name, n) then 6 else 9
  | getRetired _ => 7
  | handle _ => 3
  | drop _ _ => 2
  | close _ _ => 1
  | _ => 0

/-- A `Get`, or what it becomes when it has returned. -/
def Thread.ofGet (name : String) : Thread → Prop
  | handle _ | drop _ .handle | close _ .handle | gone => True
  | t => t.inGet name

theorem Alone.ahead_lt {m : Manager} {a b : Shared × Thread} {name : String} (h : Alone m a b)
    (ht : a.2.ofGet name)
    (hdead : a.2.inGet name → a.1.Dead name → a.1.retired = true ∨ a.1.locked = true) :
    b.2.ahead b.1 < a.2.ahead a.1 ∧ b.2.ofGet name ∧
      (b.2.inGet name → b.1.Dead name → b.1.retired = true ∨ b.1.locked = true) := by
  obtain ⟨sh, t⟩ := a
  obtain ⟨sh', t'⟩ := b
  obtain ⟨ev, hstep⟩ := h
  dsimp only at *
  generalize hnew : [t'] = new at hstep
  cases hstep with
  | getEmpty hn =>
    cases hnew
    refine ⟨?_, trivial, nofun⟩
    show 0 < Thread.ahead sh (.getLoad _)
    rw [Thread.ahead, hn]
    exact Nat.zero_lt_succ _
  | @getLoad other n hn =>
    cases hnew
    obtain rfl : other = name := ht
    refine ⟨?_, rfl, fun _ => hdead rfl⟩
    rw [Thread.ahead, Thread.ahead, hn]
    dsimp only
    split <;> omega
  | @getDead other v hv =>
    cases hnew
    obtain rfl : other = name := ht
    refine ⟨?_, rfl, fun _ => hdead rfl⟩
    rw [Thread.ahead, Thread.ahead, if_neg (by omega)]
    omega
  | @getRefs other v hv =>
    cases hnew
    obtain rfl : other = name := ht
    refine ⟨?_, rfl, fun _ => hdead rfl⟩
    rw [Thread.ahead, Thread.ahead, if_pos hv, if_pos rfl]
    omega
  | @getLost other v n hv =>
    cases hnew
    obtain rfl : other = name := ht
    refine ⟨?_, rfl, fun _ => hdead rfl⟩
    rw [Thread.ahead, Thread.ahead, if_neg hv]
    split <;> omega
  | @getSwapped other v n hv =>
    cases hnew
    refine ⟨?_, trivial, nofun⟩
    rw [Thread.ahead, Thread.ahead, if_pos hv]
    omega
  | getRetired =>
    cases hnew
    exact ⟨Nat.zero_lt_succ _, trivial, nofun⟩
  | @getAgain other hlocked hretired =>
    cases hnew
    obtain rfl : other = name := ht
    refine ⟨?_, rfl, fun _ => hdead rfl⟩
    -- the mutex is free and the manager not retired, so what the slot holds is live
    rw [Thread.ahead, Thread.ahead]
    split
    · omega
    · next n hn =>
      have hlive : 0 < sh.refs (other, n) := by
        by_contra hnot
        have := hdead rfl ⟨n, hn, by omega⟩
        rw [hlocked, hretired] at this
        simp at this
      rw [if_pos hlive]
      omega
  | release =>
    cases hnew
    exact ⟨Nat.lt_succ_self _, trivial, nofun⟩
  | @drop v after hv =>
    cases hnew
    cases after with
    | handle => exact ⟨Nat.zero_lt_succ _, trivial, nofun⟩
    | _ => exact ht.elim
  | @dropLast v after hv =>
    cases hnew
    cases after with
    | handle => exact ⟨Nat.lt_succ_self _, trivial, nofun⟩
    | _ => exact ht.elim
  | @close v after =>
    cases hnew
    cases after with
    | handle => exact ⟨Nat.zero_lt_succ _, trivial, nofun⟩
    | _ => exact ht.elim
  | _ => exact ht.elim

/-- A `Get` returns by itself, unless it can read nothing but a closed value. -/
theorem not_spins {m : Manager} {sh : Shared} {t : Thread} {name : String} (ht : t.inGet name)
    (hdead : sh.Dead name → sh.retired = true ∨ sh.locked = true) : ¬ Spins m sh t := by
  have hof : t.ofGet name := by
    cases t <;> first | exact ht | exact ht.elim
  intro hspins
  have H : ∀ b, Relation.TransGen (Alone m) (sh, t) b → b.2.ahead b.1 < t.ahead sh ∧ b.2.ofGet name ∧
      (b.2.inGet name → b.1.Dead name → b.1.retired = true ∨ b.1.locked = true) := by
    intro b hb
    induction hb with
    | single hstep => exact hstep.ahead_lt hof fun _ => hdead
    | tail _ hstep ih =>
      obtain ⟨hlt, hof', hdead'⟩ := ih
      obtain ⟨hlt', hrest⟩ := hstep.ahead_lt hof' hdead'
      exact ⟨Nat.lt_trans hlt' hlt, hrest⟩
  exact Nat.lt_irrefl _ (H _ hspins).1

/-- With a closed value in the slot, the manager not retired and the mutex free, it comes round. -/
theorem spins_of_dead {m : Manager} {sh : Shared} {name : String} (hdead : sh.Dead name)
    (hretired : sh.retired = false) (hlocked : sh.locked = false) : Spins m sh (.getLoad name) := by
  obtain ⟨n, hn, hv⟩ := hdead
  have h₁ : Alone m (sh, .getLoad name) (sh, .getRefs name (name, n)) := ⟨_, .getLoad hn⟩
  have h₂ : Alone m (sh, .getRefs name (name, n)) (sh, .getRetired name) := ⟨_, .getDead hv⟩
  have h₃ : Alone m (sh, .getRetired name) (sh, .getLoad name) := ⟨_, .getAgain hlocked hretired⟩
  exact ((Relation.TransGen.single h₁).tail h₂).tail h₃

/-! ## Runs that strand no `Get` -/

/-- The goroutine's next step leaves a `Get` with a closed value of a resource that a failed `Start` gave up:
it clears the flag when the value is closed already, or drops the last reference after the flag is cleared. -/
def Strands (s : ManagerState) : Thread → Prop
  | .clear name _ => s.shared.Dead name ∧ ∃ g ∈ s.threads, g.inGet name
  | .drop v _ => s.shared.refs v = 1 ∧ s.shared.slot v.1 = some v.2 ∧ s.shared.loaded v.1 = false ∧
      ∃ g ∈ s.threads, g.inGet v.1
  | _ => False

/-- The states that runs reach whose steps strand no `Get`. -/
def CleanReachable (m : Manager) : ManagerState → Prop :=
  Relation.ReflTransGen (fun s s' => ∃ actor ev, ManagerStep m s actor ev s' ∧ ∀ t ∈ actor, ¬ Strands s t) {}

theorem CleanReachable.reachable {m : Manager} {s : ManagerState} (h : CleanReachable m s) : ManagerReachable m s :=
  Relation.ReflTransGen.mono (fun _ _ ⟨actor, ev, hstep, _⟩ => ⟨actor, ev, hstep⟩) _ _ h

/-- The slot holds a closed value that a failed `Start` left there. -/
structure Shared.GivenUp (sh : Shared) (name : String) : Prop where
  dead : sh.Dead name
  retired : sh.retired = false
  loaded : sh.loaded name = false

/-- Who is in a `Get` was in it before, or has just seen the flag set. -/
theorem Thread.Step.inGet {m : Manager} {sh sh' : Shared} {t g : Thread} {ev : Option Got} {new : List Thread}
    {name : String} (h : t.Step m sh ev sh' new) (hg : g ∈ new) (hin : g.inGet name) :
    t.inGet name ∨ sh' = sh ∧ sh.loaded name = true := by
  cases h with
  | get hname hloaded =>
    obtain rfl := List.mem_singleton.mp hg
    obtain rfl : _ = name := hin
    exact Or.inr ⟨rfl, hloaded⟩
  | getLoad | getDead | getRefs | getLost | getAgain =>
    obtain rfl := List.mem_singleton.mp hg
    exact Or.inl hin
  | launch =>
    rcases List.mem_cons.mp hg with rfl | hg
    · exact hin.elim
    · obtain rfl := List.mem_singleton.mp hg
      exact hin.elim
  | @drop v after | @close v after =>
    obtain rfl := List.mem_singleton.mp hg
    cases after <;> exact hin.elim
  | _ =>
    obtain rfl := List.mem_singleton.mp hg
    exact hin.elim

/-- A resource is given up by the two steps that may strand a `Get`, and by no other. -/
theorem ManagerInv.givenUp_of_step {m : Manager} {sh sh' : Shared} {t : Thread} {ts new : List Thread}
    {ev : Option Got} {name : String} (h : ManagerInv m sh (t :: ts)) (hstep : t.Step m sh ev sh' new)
    (hup : sh'.GivenUp name) : sh.GivenUp name ∨ (∃ rest, t = .clear name rest) ∧ sh.Dead name ∨
      ∃ n after, t = .drop (name, n) after ∧ sh.refs (name, n) = 1 ∧ sh.slot name = some n ∧ sh.loaded name = false := by
  obtain ⟨⟨n, hn, hrefs⟩, hretired, hloaded⟩ := hup
  have hpos : ∀ v, t.reference? = some v → 0 < sh.refs v := by
    intro v hv
    have hheld : v ∈ sh.owned ++ (t.reference?.toList ++ ts.filterMap Thread.reference?) := by
      rw [hv]
      exact List.mem_append_right _ List.mem_cons_self
    exact (h.ledger_cons.pos_iff (h.ledger_cons.held_made v hheld)).mpr hheld
  have put : ∀ (sh₀ : Shared) (v : Value), sh₀.refs = sh.refs → sh₀.slot = sh.slot → 0 < sh.refs v →
      (sh₀.put v).slot name = some n → sh.refs (name, n) ≤ 0 → sh.slot name = some n := by
    intro sh₀ v hr hs hv hput hle
    by_cases hne : name = v.1
    · subst hne
      rw [slot_put_self] at hput
      obtain rfl := Option.some.inj hput
      exact absurd hv (Int.not_lt.mpr hle)
    · rw [slot_put_of_ne sh₀ v hne, hs] at hput
      exact hput
  have fetch : ∀ other, (sh.fetch other).refs (name, n) ≤ 0 → sh.slot name = some n → sh.refs (name, n) ≤ 0 := by
    intro other hle hslot
    have hne : (name, n) ≠ (other, sh.fetched other) := by
      intro heq
      have hlt := h.slot_fetched name n hslot
      rw [(Prod.mk.inj heq).1, (Prod.mk.inj heq).2] at hlt
      exact Nat.lt_irrefl _ hlt
    have : Function.update sh.refs (other, sh.fetched other) 1 (name, n) ≤ 0 := hle
    rwa [Function.update_of_ne hne] at this
  have same : ∀ v k, (sh.setRefs v k).refs (name, n) ≤ 0 → (name, n) ≠ v → sh.refs (name, n) ≤ 0 := by
    intro v k hle hne
    have : Function.update sh.refs v k (name, n) ≤ 0 := hle
    rwa [Function.update_of_ne hne] at this
  have self : ∀ v k, (sh.setRefs v k).refs (name, n) ≤ 0 → (name, n) = v → k ≤ 0 := by
    intro v k hle heq
    have : Function.update sh.refs v k (name, n) ≤ 0 := hle
    rwa [heq, Function.update_self] at this
  cases hstep with
  | fetch => exact Or.inl ⟨⟨n, hn, fetch _ hrefs hn⟩, hretired, hloaded⟩
  | refetch => exact Or.inl ⟨⟨n, hn, fetch _ hrefs hn⟩, hretired, hloaded⟩
  | @store v => exact Or.inl ⟨⟨n, put sh v rfl rfl (hpos v rfl) hn hrefs, hrefs⟩, hretired, hloaded⟩
  | @swap other v k hk =>
    exact Or.inl ⟨⟨n, put (sh.disown (other, k)) v rfl rfl (hpos v rfl) hn hrefs, hrefs⟩, hretired, hloaded⟩
  | @swapEmpty _ v => exact Or.inl ⟨⟨n, put sh v rfl rfl (hpos v rfl) hn hrefs, hrefs⟩, hretired, hloaded⟩
  | @setLoaded other =>
    have hne : name ≠ other := by
      rintro rfl
      have : Function.update sh.loaded name true name = false := hloaded
      rw [Function.update_self] at this
      cases this
    have hloaded : Function.update sh.loaded other true name = false := hloaded
    rw [Function.update_of_ne hne] at hloaded
    exact Or.inl ⟨⟨n, hn, hrefs⟩, hretired, hloaded⟩
  | @clear other rest =>
    by_cases hne : name = other
    · subst hne
      exact Or.inr (Or.inl ⟨⟨rest, rfl⟩, n, hn, hrefs⟩)
    · have hloaded : Function.update sh.loaded other false name = false := hloaded
      rw [Function.update_of_ne hne] at hloaded
      exact Or.inl ⟨⟨n, hn, hrefs⟩, hretired, hloaded⟩
  | stop => cases hretired
  | @getSwapped _ v k hk =>
    by_cases hne : (name, n) = v
    · have := self v _ hrefs hne
      refine Or.inl ⟨⟨n, hn, ?_⟩, hretired, hloaded⟩
      rw [hne]
      omega
    · exact Or.inl ⟨⟨n, hn, same v _ hrefs hne⟩, hretired, hloaded⟩
  | @drop v after hmore =>
    by_cases hne : (name, n) = v
    · have := self v _ hrefs hne
      have := hpos v rfl
      omega
    · exact Or.inl ⟨⟨n, hn, same v _ hrefs hne⟩, hretired, hloaded⟩
  | @dropLast v after hlast =>
    by_cases hne : (name, n) = v
    · subst hne
      exact Or.inr (Or.inr ⟨n, after, rfl, hlast, hn, hloaded⟩)
    · exact Or.inl ⟨⟨n, hn, same v _ hrefs hne⟩, hretired, hloaded⟩
  | _ => exact Or.inl ⟨⟨n, hn, hrefs⟩, hretired, hloaded⟩

/-- In a run that strands none, nobody asks for a resource that was given up. -/
theorem CleanReachable.none_stranded {m : Manager} {s : ManagerState} (h : CleanReachable m s) (name : String)
    (hup : s.shared.GivenUp name) : ∀ g ∈ s.threads, ¬ g.inGet name := by
  induction h with
  | refl => exact fun g hg => absurd hg List.not_mem_nil
  | @tail s s' hs hstep ih =>
    obtain ⟨actor, ev, hstep, hclean⟩ := hstep
    cases hstep with
    | @run pre t post sh _ sh' new ht =>
      have hinv := (ManagerInv.reachable (CleanReachable.reachable hs)).perm List.perm_middle.symm
      intro g hg hin
      -- whoever is in the `Get` now was in it before the step
      have hbefore : ∃ g ∈ pre ++ t :: post, g.inGet name := by
        rcases List.mem_append.mp hg with hg | hg
        · rcases List.mem_append.mp hg with hg | hg
          · exact ⟨g, List.mem_append_left _ hg, hin⟩
          · rcases ht.inGet hg hin with hin | ⟨rfl, hloaded⟩
            · exact ⟨t, List.mem_append_right _ List.mem_cons_self, hin⟩
            · rw [hup.loaded] at hloaded
              cases hloaded
        · exact ⟨g, List.mem_append_right _ (List.mem_cons_of_mem _ hg), hin⟩
      rcases hinv.givenUp_of_step ht hup with hup | ⟨⟨rest, rfl⟩, hdead⟩ | ⟨n, after, rfl, hlast, hslot, hloaded⟩
      · obtain ⟨g, hg, hin⟩ := hbefore
        exact ih hup g hg hin
      · exact hclean _ rfl ⟨hdead, hbefore⟩
      · exact hclean _ rfl ⟨hlast, hslot, hloaded, hbefore⟩
    | start | stop | get =>
      intro g hg
      rcases List.mem_cons.mp hg with rfl | hg
      · exact id
      · exact ih hup g hg
    | expire => exact ih ⟨hup.dead, hup.retired, hup.loaded⟩

/-- Values are closed once, after their last borrow and not before they are due; and in a run that strands no
`Get`, none goes round in circles. -/
theorem manager_values_safe (m : Manager) :
    (∀ s, ManagerReachable m s → ValuesSafe m s ∧
      ∀ actor v s', ManagerStep m s actor (some ⟨some v⟩) s' → v ∉ s.over) ∧
    ∀ s, CleanReachable m s → ∀ name, ∀ t ∈ s.threads, t.inGet name → ¬ Spins m s.shared t := by
  refine ⟨fun s hs => ⟨(ManagerInv.reachable hs).valuesSafe, fun _ _ _ hstep => (ManagerInv.reachable hs).got hstep⟩, ?_⟩
  intro s hs name t ht hin
  have hinv := ManagerInv.reachable hs.reachable
  refine not_spins hin fun hdead => ?_
  cases hretired : s.shared.retired with
  | true => exact Or.inl rfl
  | false =>
    refine Or.inr ?_
    cases hloaded : s.shared.loaded name with
    | false => exact absurd hin (hs.none_stranded name ⟨hdead, hretired, hloaded⟩ t ht)
    | true =>
      -- the flag is still set: the `Start` that closed the value is under way
      obtain ⟨n, hn, hrefs⟩ := hdead
      have hlive : name ∉ s.shared.live := by
        intro hlive
        have hown := List.mem_append_left (s.threads.filterMap Thread.reference?) ((hinv.mem_live_iff hn).mp hlive)
        have hfetched : Value.Fetched s.shared (name, n) := hinv.slot_fetched name n hn
        exact absurd ((hinv.ledger.pos_iff hfetched).mpr hown) (Int.not_lt.mpr hrefs)
      obtain ⟨x, hx, hgives⟩ := hinv.givenUp name n hn hlive hretired hloaded
      by_contra hfree
      have hlocks := hinv.not_locks (Bool.eq_false_iff.mpr hfree) hx
      cases x with
      | clear => cases hlocks
      | drop v after | close v after =>
        cases after with
        | rollback => cases hlocks
        | _ => exact hgives.elim
      | _ => exact hgives.elim

/-- Two resources that are never refreshed. -/
def twoResources : Manager := ⟨["a", "b"], by decide, fun _ => -1⟩

/-- `Start` loads `a`, a `Get` of `a` sees the flag, the fetch of `b` fails and `a` is closed: the `Get` reads
the closed value for ever, and nobody else is left. -/
theorem get_spins_after_failed_start : ∃ s, ManagerReachable twoResources s ∧
    s.threads = [.getLoad "a", .gone] ∧ s.shared.closed = [("a", 0)] ∧ Spins twoResources s.shared (.getLoad "a") := by
  have run : ∀ {sh sh' pre post t new ev}, ManagerReachable twoResources ⟨sh, pre ++ t :: post⟩ →
      t.Step twoResources sh ev sh' new → ManagerReachable twoResources ⟨sh', pre ++ new ++ post⟩ :=
    fun hs ht => hs.tail ⟨_, _, .run ht⟩
  have h₀ : ManagerReachable twoResources ⟨{}, [.start]⟩ := .single ⟨_, _, .start⟩
  have h₁ := @run _ _ [] [] _ _ _ h₀ (.begin rfl rfl (List.Perm.refl _))
  have h₂ := @run _ _ [] [] _ _ _ h₁ .fetch
  have h₃ := @run _ _ [] [] _ _ _ h₂ .store
  have h₄ := @run _ _ [] [] _ _ _ h₃ .setLoaded
  have h₅ : ManagerReachable twoResources _ := h₄.tail ⟨_, _, @ManagerStep.get _ _ _ "a"⟩
  have h₆ := @run _ _ [] _ _ _ _ h₅ (.get (by decide) (by decide))
  have h₇ := @run _ _ [_] [] _ _ _ h₆ .fetchFails
  have h₈ := @run _ _ [_] [] _ _ _ h₇ (.rollback rfl)
  have h₉ := @run _ _ [_] [] _ _ _ h₈ (.dropLast (by decide))
  have h₁₀ := @run _ _ [_] [] _ _ _ h₉ .close
  have h₁₁ := @run _ _ [_] [] _ _ _ h₁₀ .clear
  have h₁₂ := @run _ _ [_] [] _ _ _ h₁₁ .rolledBack
  exact ⟨_, h₁₂, rfl, by decide, spins_of_dead ⟨0, rfl, by decide⟩ rfl rfl⟩

end Pineapple.GoResource
