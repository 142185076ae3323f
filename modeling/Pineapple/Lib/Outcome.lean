/-! # Updates that can fail half way

An update that mutates its state in place and may stop with an error leaves a state either way.
`Outcome` keeps it, so a property of what a failed update leaves behind is a property of its value. -/

universe u v w

/-- How an update of a state `σ` ended: through, or with an error after part of its work. -/
inductive Outcome (ε : Type u) (σ : Type v) where
  | ok (s : σ)
  | fail (e : ε) (s : σ)
deriving DecidableEq

namespace Outcome
variable {ε : Type u} {σ τ : Type v} {α : Type w}

/-- The state the update left, also when it failed. -/
def state : Outcome ε σ → σ
  | ok s => s
  | fail _ s => s

def error? : Outcome ε σ → Option ε
  | ok _ => none
  | fail e _ => some e

def andThen (o : Outcome ε σ) (f : σ → Outcome ε σ) : Outcome ε σ :=
  match o with
  | ok s => f s
  | fail e s => fail e s

/-- One update for each element, in order; the first error ends the loop. -/
def forEach (f : α → σ → Outcome ε σ) : List α → σ → Outcome ε σ
  | [], s => ok s
  | a :: as, s => (f a s).andThen (forEach f as)

def map (g : σ → τ) : Outcome ε σ → Outcome ε τ
  | ok s => ok (g s)
  | fail e s => fail e (g s)

/-- A check and then the mutation it guards. -/
def checked (bad : Option ε) (step : σ → σ) (s : σ) : Outcome ε σ :=
  match bad with
  | some e => fail e s
  | none => ok (step s)

@[simp] theorem state_ok (s : σ) : (ok s : Outcome ε σ).state = s := rfl
@[simp] theorem state_fail (e : ε) (s : σ) : (fail e s).state = s := rfl
@[simp] theorem error?_ok (s : σ) : (ok s : Outcome ε σ).error? = none := rfl
@[simp] theorem error?_fail (e : ε) (s : σ) : (fail e s).error? = some e := rfl
@[simp] theorem ok_andThen (s : σ) (f : σ → Outcome ε σ) : (ok s).andThen f = f s := rfl
@[simp] theorem fail_andThen (e : ε) (s : σ) (f : σ → Outcome ε σ) : (fail e s).andThen f = fail e s := rfl
@[simp] theorem map_ok (g : σ → τ) (s : σ) : (ok s : Outcome ε σ).map g = ok (g s) := rfl
@[simp] theorem map_fail (g : σ → τ) (e : ε) (s : σ) : (fail e s).map g = fail e (g s) := rfl
@[simp] theorem state_map (g : σ → τ) (o : Outcome ε σ) : (o.map g).state = g o.state := by cases o <;> rfl
@[simp] theorem error?_map (g : σ → τ) (o : Outcome ε σ) : (o.map g).error? = o.error? := by cases o <;> rfl
@[simp] theorem checked_none (step : σ → σ) (s : σ) : checked (none : Option ε) step s = ok (step s) := rfl
@[simp] theorem checked_some (e : ε) (step : σ → σ) (s : σ) : checked (some e) step s = fail e s := rfl

theorem eq_ok_of_error? {o : Outcome ε σ} (h : o.error? = none) : o = ok o.state := by
  cases o with
  | ok s => rfl
  | fail e s => exact absurd h (by simp)

theorem eq_fail_of_error? {o : Outcome ε σ} {e : ε} (h : o.error? = some e) : o = fail e o.state := by
  cases o with
  | ok s => exact absurd h (by simp)
  | fail e' s => rw [error?_fail, Option.some.injEq] at h; rw [h]; rfl

theorem andThen_of_error? {o : Outcome ε σ} {f : σ → Outcome ε σ} (h : o.error? = none) :
    o.andThen f = f o.state := by
  rw [eq_ok_of_error? h]
  rfl

theorem error?_of_andThen {o : Outcome ε σ} {f : σ → Outcome ε σ} (h : (o.andThen f).error? = none) :
    o.error? = none := by
  cases o with
  | ok s => rfl
  | fail e s => exact absurd h (by simp)

/-! ## Composing loops -/

theorem andThen_assoc (o : Outcome ε σ) (f g : σ → Outcome ε σ) :
    (o.andThen f).andThen g = o.andThen fun s => (f s).andThen g := by
  cases o <;> rfl

theorem forEach_append (f : α → σ → Outcome ε σ) (l l' : List α) (s : σ) :
    forEach f (l ++ l') s = (forEach f l s).andThen (forEach f l') := by
  induction l generalizing s with
  | nil => rfl
  | cons a l ih =>
    rw [List.cons_append, forEach, forEach, andThen_assoc]
    congr 1
    funext t
    exact ih t

theorem forEach_map {β : Type w} (f : α → σ → Outcome ε σ) (g : β → α) (l : List β) (s : σ) :
    forEach f (l.map g) s = forEach (fun b => f (g b)) l s := by
  induction l generalizing s with
  | nil => rfl
  | cons b l ih =>
    rw [List.map_cons, forEach, forEach]
    congr 1
    funext t
    exact ih t

theorem forEach_flatMap {β : Type w} (f : α → σ → Outcome ε σ) (g : β → List α) (l : List β) (s : σ) :
    forEach f (l.flatMap g) s = forEach (fun b => forEach f (g b)) l s := by
  induction l generalizing s with
  | nil => rfl
  | cons b l ih =>
    rw [List.flatMap_cons, forEach_append, forEach]
    congr 1
    funext t
    exact ih t

/-! ## Invariants -/

/-- What an update keeps, whether it succeeds or fails. -/
def Keeps (P : σ → Prop) (f : σ → Outcome ε σ) : Prop := ∀ s, P s → P (f s).state

theorem Keeps.andThen {P : σ → Prop} {f : σ → Outcome ε σ} {o : Outcome ε σ} (hf : Keeps P f)
    (ho : P o.state) : P (o.andThen f).state := by
  cases o with
  | ok s => exact hf s ho
  | fail e s => exact ho

theorem Keeps.forEach {P : σ → Prop} {f : α → σ → Outcome ε σ} (l : List α)
    (hf : ∀ a ∈ l, Keeps P (f a)) : Keeps P (forEach f l) := by
  induction l with
  | nil => exact fun _ hs => hs
  | cons a l ih =>
    intro s hs
    exact Keeps.andThen (ih fun b hb => hf b (List.mem_cons_of_mem _ hb)) (hf a List.mem_cons_self s hs)

theorem Keeps.checked {P : σ → Prop} (bad : Option ε) {step : σ → σ}
    (h : bad = none → ∀ s, P s → P (step s)) : Keeps P (checked bad step) := by
  intro s hs
  cases bad with
  | none => exact h rfl s hs
  | some e => exact hs

/-! ## Two runs side by side -/

/-- Two updates that end alike, with the same error, in related states. -/
inductive Rel (R : σ → τ → Prop) : Outcome ε σ → Outcome ε τ → Prop where
  | ok {s t} : R s t → Rel R (ok s) (ok t)
  | fail {e s t} : R s t → Rel R (fail e s) (fail e t)

theorem Rel.error? {R : σ → τ → Prop} {o : Outcome ε σ} {p : Outcome ε τ} (h : Rel R o p) :
    o.error? = p.error? := by
  cases h <;> rfl

theorem Rel.state {R : σ → τ → Prop} {o : Outcome ε σ} {p : Outcome ε τ} (h : Rel R o p) :
    R o.state p.state := by
  cases h with
  | ok h => exact h
  | fail h => exact h

theorem Rel.andThen {R : σ → τ → Prop} {o : Outcome ε σ} {p : Outcome ε τ} {f : σ → Outcome ε σ}
    {g : τ → Outcome ε τ} (h : Rel R o p) (hfg : ∀ s t, R s t → Rel R (f s) (g t)) :
    Rel R (o.andThen f) (p.andThen g) := by
  cases h with
  | ok h => exact hfg _ _ h
  | fail h => exact Rel.fail h

theorem Rel.forEach {R : σ → τ → Prop} {f : α → σ → Outcome ε σ} {g : α → τ → Outcome ε τ} (l : List α)
    (hfg : ∀ a ∈ l, ∀ s t, R s t → Rel R (f a s) (g a t)) {s : σ} {t : τ} (h : R s t) :
    Rel R (forEach f l s) (forEach g l t) := by
  induction l generalizing s t with
  | nil => exact Rel.ok h
  | cons a l ih =>
    refine (hfg a List.mem_cons_self s t h).andThen fun s' t' h' => ?_
    exact ih (fun b hb => hfg b (List.mem_cons_of_mem _ hb)) h'

theorem Rel.checked {R : σ → τ → Prop} (bad : Option ε) {step : σ → σ} {step' : τ → τ} {s : σ} {t : τ}
    (h : R s t) (hstep : bad = none → R (step s) (step' t)) :
    Rel R (checked bad step s) (checked bad step' t) := by
  cases bad with
  | none => exact Rel.ok (hstep rfl)
  | some e => exact Rel.fail h

/-- One loop of checked mutations on two states. -/
theorem Rel.forEach_checked {R : σ → σ → Prop} (bad : α → Option ε) (step : α → σ → σ) (l : List α)
    (hstep : ∀ a ∈ l, ∀ s t, R s t → R (step a s) (step a t)) {s t : σ} (h : R s t) :
    Rel R (Outcome.forEach (fun a => Outcome.checked (bad a) (step a)) l s)
      (Outcome.forEach (fun a => Outcome.checked (bad a) (step a)) l t) :=
  Rel.forEach l (fun a ha s t h => Rel.checked (bad a) h fun _ => hstep a ha s t h) h

/-! ## Loops of checked mutations -/

/-- Two loops that agree on every state an invariant allows. -/
theorem forEach_congr {P : σ → Prop} {f g : α → σ → Outcome ε σ} (l : List α)
    (hfg : ∀ a ∈ l, ∀ s, P s → f a s = g a s) (hP : ∀ a ∈ l, Keeps P (g a)) {s : σ} (hs : P s) :
    forEach f l s = forEach g l s := by
  induction l generalizing s with
  | nil => rfl
  | cons a l ih =>
    have ha := hP a List.mem_cons_self s hs
    rw [forEach, forEach, hfg a List.mem_cons_self s hs]
    cases h : g a s with
    | fail e t => rfl
    | ok t =>
      rw [h] at ha
      exact ih (fun b hb => hfg b (List.mem_cons_of_mem _ hb)) (fun b hb => hP b (List.mem_cons_of_mem _ hb)) ha

/-- A loop whose checks do not look at the state does the mutations before the first bad element and
stops with that element's error. -/
theorem forEach_checked (bad : α → Option ε) (step : α → σ → σ) (l : List α) (s : σ) :
    forEach (fun a => checked (bad a) (step a)) l s =
      checked (l.findSome? bad) id ((l.takeWhile fun a => (bad a).isNone).foldl (fun s a => step a s) s) := by
  induction l generalizing s with
  | nil => rfl
  | cons a l ih =>
    rw [forEach]
    cases h : bad a with
    | some e => simp [h]
    | none => simp [h, ih]

end Outcome
