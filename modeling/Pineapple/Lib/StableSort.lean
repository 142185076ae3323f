import Mathlib.Data.List.Perm.Basic
import Mathlib.Data.List.Nodup
import Mathlib.Data.List.Sort

/-! # Stable sorting

What `List.mergeSort` does to elements that the order takes for equal, and when the sorted list does not depend on the
order of the given one. -/

namespace StableSort

variable {α : Type*} {le : α → α → Bool} {r : α → α → Prop} {l : List α} {a b : α}

/-- Two elements of a list are there in one order or the other. -/
theorem pair_sublist_or (ha : a ∈ l) (hb : b ∈ l) (hne : a ≠ b) : [a, b].Sublist l ∨ [b, a].Sublist l := by
  induction l with
  | nil => cases ha
  | cons c l ih =>
    rcases List.mem_cons.mp ha with rfl | hal
    · have hbl := (List.mem_cons.mp hb).resolve_left (Ne.symm hne)
      exact Or.inl ((List.singleton_sublist.mpr hbl).cons_cons a)
    · rcases List.mem_cons.mp hb with rfl | hbl
      · exact Or.inr ((List.singleton_sublist.mpr hal).cons_cons b)
      · exact (ih hal hbl).imp (fun h => h.cons c) fun h => h.cons c

/-- A list without duplicates has them in one order only. -/
theorem not_pair_sublist (hnd : l.Nodup) (h : [a, b].Sublist l) : ¬ [b, a].Sublist l := by
  induction l with
  | nil => cases h
  | cons c l ih =>
    obtain ⟨hc, hnd⟩ := List.nodup_cons.mp hnd
    intro h'
    cases h with
    | cons _ h =>
      cases h' with
      | cons _ h' => exact ih hnd h h'
      | cons_cons _ h' => exact hc (h.subset (List.mem_cons_of_mem _ List.mem_cons_self))
    | cons_cons _ h =>
      cases h' with
      | cons _ h' => exact hc (h'.subset (List.mem_cons_of_mem _ List.mem_cons_self))
      | cons_cons _ h' => exact hc (h.subset List.mem_cons_self)

/-- Sorting puts an element before another one where it is smaller, and where neither is smaller and it was before. -/
theorem pairwise_mergeSort (trans : ∀ a b c, le a b → le b c → le a c) (total : ∀ a b, le a b || le b a)
    (hnd : l.Nodup) (h : l.Pairwise r) : (l.mergeSort le).Pairwise fun a b => le a b ∧ (le b a → r a b) := by
  have hsorted := List.pairwise_mergeSort trans total l
  have hnd' : (l.mergeSort le).Nodup := (List.mergeSort_perm l le).nodup_iff.mpr hnd
  refine List.pairwise_iff_forall_sublist.mpr fun {a b} hab => ⟨List.pairwise_iff_forall_sublist.mp hsorted hab, ?_⟩
  intro hba
  have ha := (List.mergeSort_perm l le).mem_iff.mp (hab.subset List.mem_cons_self)
  have hb := (List.mergeSort_perm l le).mem_iff.mp (hab.subset (List.mem_cons_of_mem _ List.mem_cons_self))
  have hne : a ≠ b := List.pairwise_iff_forall_sublist.mp hnd' hab
  rcases pair_sublist_or ha hb hne with hl | hl
  · exact List.pairwise_iff_forall_sublist.mp h hl
  · exact absurd (List.pair_sublist_mergeSort trans total hba hl) (not_pair_sublist hnd' hab)

end StableSort
