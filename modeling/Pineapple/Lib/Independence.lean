import Mathlib.Data.List.Sort
import Pineapple.Lib.Replay

/-! # Logs whose dependent entries keep one order

A state is looked at place by place. An entry of a log changes some places only, and what it makes of a place depends on
that place alone. So a place holds what the entries that write it made of it, whatever stood between them; and two logs
that have the same writers of a place, in one order, leave the same there. -/

universe u v w
variable {α : Type u} {σ : Type v} {ι : Type w}

/-- The steps of entries work place by place; `Same x` says that two states hold the same at `x`. -/
structure PlaceWise (step : α → σ → σ → Prop) (Writes : α → ι → Prop) (Same : ι → σ → σ → Prop) : Prop where
  refl : ∀ x s, Same x s s
  symm : ∀ x s t, Same x s t → Same x t s
  trans : ∀ x s t u, Same x s t → Same x t u → Same x s u
  keeps : ∀ x a s s', ¬ Writes a x → step a s s' → Same x s s'
  agrees : ∀ x a s s' t t', step a s s' → step a t t' → Same x s t → Same x s' t'

namespace Replay
variable {step : α → σ → σ → Prop} {s₀ s t : σ} {log : List α}

theorem trans (h : Replay step s₀ log s) {log' : List α} (h' : Replay step s log' t) : Replay step s₀ (log ++ log') t := by
  induction h' with
  | nil =>
    rw [List.append_nil]
    exact h
  | snoc _ ha ih =>
    rw [← List.append_assoc]
    exact ih.snoc ha

end Replay

namespace PlaceWise
variable {step : α → σ → σ → Prop} {Writes : α → ι → Prop} {Same : ι → σ → σ → Prop} {x : ι} {s s₀ t t₀ : σ}
  {log log' : List α}

/-- A place that no entry writes. -/
theorem unwritten (hp : PlaceWise step Writes Same) (h : Replay step s₀ log s) (hno : ∀ a ∈ log, ¬ Writes a x) :
    Same x s₀ s := by
  induction h with
  | nil => exact hp.refl x s₀
  | snoc _ ha ih =>
    have hkept := hp.keeps x _ _ _ (hno _ List.mem_concat_self) ha
    exact hp.trans _ _ _ _ (ih fun b hb => hno b (List.mem_append_left _ hb)) hkept

variable [∀ a, Decidable (Writes a x)]

/-- The second log of two, where the first one ends with a writer. -/
theorem agrees_snoc (hp : PlaceWise step Writes Same) {a : α} {s' : σ} (hstep : step a s s') (hw : Writes a x)
    (ih : ∀ log' t, Replay step t₀ log' t →
      log.filter (fun b => Writes b x) = log'.filter (fun b => Writes b x) → Same x s t)
    (h' : Replay step t₀ log' t)
    (hf : (log ++ [a]).filter (fun b => Writes b x) = log'.filter fun b => Writes b x) : Same x s' t := by
  have hlast : ∀ {b l}, Writes b x → (l ++ [b]).filter (fun b => Writes b x) = l.filter (fun b => Writes b x) ++ [b] := by
    intro b l hb
    rw [List.filter_append, List.filter_singleton, decide_eq_true hb, cond_true]
  rw [hlast hw] at hf
  induction h' with
  | nil => exact absurd hf (List.append_ne_nil_of_right_ne_nil _ (List.cons_ne_nil _ _))
  | @snoc log' t t' b hlog' hb ih' =>
    by_cases hwb : Writes b x
    · rw [hlast hwb] at hf
      obtain ⟨hrest, hab⟩ := List.append_inj' hf rfl
      obtain rfl := List.singleton_inj.mp hab
      exact hp.agrees _ _ _ _ _ _ hstep hb (ih _ _ hlog' hrest)
    · rw [List.filter_append, List.filter_cons_of_neg (by simpa using hwb), List.filter_nil, List.append_nil] at hf
      exact hp.trans _ _ _ _ (ih' hf) (hp.keeps _ _ _ _ hwb hb)

/-- Logs with the same writers of a place, in one order, leave the same there. -/
theorem same_of_filter (hp : PlaceWise step Writes Same) (h₀ : Same x s₀ t₀) (h : Replay step s₀ log s)
    (h' : Replay step t₀ log' t) (hf : log.filter (fun a => Writes a x) = log'.filter fun a => Writes a x) :
    Same x s t := by
  induction h generalizing log' t with
  | nil =>
    have hno : ∀ a ∈ log', ¬ Writes a x := by
      intro a ha hw
      have := List.filter_eq_nil_iff.mp hf.symm a ha
      exact this (decide_eq_true hw)
    exact hp.trans _ _ _ _ h₀ (hp.unwritten h' hno)
  | @snoc log s s' a _ ha ih =>
    by_cases hw : Writes a x
    · exact hp.agrees_snoc ha hw (fun log' t h' hf => ih h' hf) h' hf
    · rw [List.filter_append, List.filter_cons_of_neg (by simpa using hw), List.filter_nil, List.append_nil] at hf
      exact hp.trans _ _ _ _ (hp.symm _ _ _ (hp.keeps _ _ _ _ hw ha)) (ih h' hf)

/-- Logs in which the writers of a place are the same and stand in the order of their keys. -/
theorem same_of_ordered (hp : PlaceWise step Writes Same) {k : α → Nat} (h₀ : Same x s₀ t₀) (h : Replay step s₀ log s)
    (h' : Replay step t₀ log' t) (hord : log.Pairwise fun a b => Writes a x → Writes b x → k a < k b)
    (hord' : log'.Pairwise fun a b => Writes a x → Writes b x → k a < k b)
    (hmem : ∀ a, Writes a x → (a ∈ log ↔ a ∈ log')) : Same x s t := by
  have hsorted : ∀ {l : List α}, (l.Pairwise fun a b => Writes a x → Writes b x → k a < k b) →
      (l.filter fun a => Writes a x).Pairwise fun a b => k a < k b := by
    intro l hl
    refine (hl.filter _).imp_of_mem fun ha hb hlt => ?_
    exact hlt (of_decide_eq_true (List.mem_filter.mp ha).2) (of_decide_eq_true (List.mem_filter.mp hb).2)
  have : Std.Irrefl fun a b : α => k a < k b := ⟨fun a => Nat.lt_irrefl _⟩
  have : Std.Antisymm fun a b : α => k a < k b := ⟨fun a b hab hba => absurd hab (Nat.lt_asymm hba)⟩
  refine hp.same_of_filter h₀ h h' ((hsorted hord).eq_of_mem_iff (hsorted hord') fun a => ?_)
  rw [List.mem_filter, List.mem_filter]
  exact and_congr_left fun hw => hmem a (of_decide_eq_true hw)

end PlaceWise
