import Mathlib.Data.List.Count
import Mathlib.Data.List.Range

/-! # Lists made up of parts

A list is cut into parts by a key of its elements. Lists that are put together from parts are counted part by
part. -/

namespace Parts
universe u v
variable {α : Type u} {β : Type v} {ev due : α → List β}

/-- A list is made up of the parts that its elements' keys give. -/
theorem perm (key : α → Nat) (l : List α) (n : Nat) (h : ∀ a ∈ l, key a < n) :
    l.Perm ((List.range n).flatMap fun v => l.filter fun a => key a = v) := by
  induction n generalizing l with
  | zero =>
    rw [List.eq_nil_iff_forall_not_mem.mpr fun a ha => absurd (h a ha) (Nat.not_lt_zero _)]
    rfl
  | succ n ih =>
    have hparts : ∀ v < n, (l.filter fun a => decide (key a < n)).filter (fun a => decide (key a = v)) =
        l.filter fun a => decide (key a = v) := by
      intro v hv
      rw [List.filter_filter]
      refine List.filter_congr fun a _ => ?_
      by_cases ha : key a = v
      · simp [ha, hv]
      · simp [ha]
    have hlast : l.filter (fun a => !decide (key a < n)) = l.filter fun a => decide (key a = n) := by
      refine List.filter_congr fun a ha => ?_
      have := h a ha
      by_cases hlt : key a < n
      · simp [hlt, hlt.ne]
      · simp [show key a = n by omega]
    have hsmall := ih (l.filter fun a => decide (key a < n)) fun a ha => of_decide_eq_true (List.mem_filter.mp ha).2
    rw [List.flatMap_congr fun v hv => hparts v (List.mem_range.mp hv)] at hsmall
    rw [List.range_succ, List.flatMap_append, List.flatMap_singleton, ← hlast]
    exact (List.filter_append_perm _ l).symm.trans (hsmall.append_right _)

/-- Filtered and mapped after a partial map is part by part. -/
theorem map_filter_filterMap {γ : Type v} {f : α → Option γ} {p : γ → Bool} {q : γ → β} {l : List α}
    (h : ∀ a ∈ l, (((f a).filter p).map q).toList = ev a) : ((l.filterMap f).filter p).map q = l.flatMap ev := by
  induction l with
  | nil => rfl
  | cons a rest ih =>
    rw [List.flatMap_cons, ← ih fun b hb => h b (List.mem_cons_of_mem _ hb), ← h a List.mem_cons_self]
    cases hf : f a with
    | none =>
      rw [List.filterMap_cons_none hf]
      rfl
    | some c =>
      rw [List.filterMap_cons_some hf, List.filter_cons, Option.filter_some]
      split <;> rfl

variable [BEq β]

theorem count_le {l : List α} (hle : ∀ a ∈ l, ∀ b, (ev a).count b ≤ (due a).count b) (b : β) :
    (l.flatMap ev).count b ≤ (l.flatMap due).count b := by
  induction l with
  | nil => exact Nat.le_refl _
  | cons a rest ih =>
    rw [List.flatMap_cons, List.flatMap_cons, List.count_append, List.count_append]
    exact Nat.add_le_add (hle a List.mem_cons_self b) (ih fun c hc => hle c (List.mem_cons_of_mem _ hc))

/-- Where no part is over its due, the whole is right only if every part is. -/
theorem count_eq_iff {l : List α} (hle : ∀ a ∈ l, ∀ b, (ev a).count b ≤ (due a).count b) :
    (∀ b, (l.flatMap ev).count b = (l.flatMap due).count b) ↔ ∀ a ∈ l, ∀ b, (ev a).count b = (due a).count b := by
  induction l with
  | nil => exact iff_of_true (fun _ => rfl) fun a ha => absurd ha List.not_mem_nil
  | cons a rest ih =>
    have hrest : ∀ c ∈ rest, ∀ b, (ev c).count b ≤ (due c).count b := fun c hc => hle c (List.mem_cons_of_mem _ hc)
    rw [List.forall_mem_cons, ← ih hrest, ← forall_and]
    refine forall_congr' fun b => ?_
    rw [List.flatMap_cons, List.flatMap_cons, List.count_append, List.count_append]
    have := hle a List.mem_cons_self b
    have := count_le hrest b
    omega

end Parts
