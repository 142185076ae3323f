import Mathlib.Tactic.ByContra

/-! # The first marked cell of a grid, by rows and by columns

Two scans of the same table for the first marked cell. They find the same cell exactly when one marked
cell is first in both directions at once. -/

namespace Grid

/-- Column after column, each from the top. -/
def firstByColumn (n m : Nat) (marked : Nat → Nat → Bool) : Option (Nat × Nat) :=
  (List.range m).findSome? fun c => (List.range n).findSome? fun i => if marked i c then some (i, c) else none

/-- Row after row, each from the left. -/
def firstByRow (n m : Nat) (marked : Nat → Nat → Bool) : Option (Nat × Nat) :=
  (List.range n).findSome? fun i => (List.range m).findSome? fun c => if marked i c then some (i, c) else none

/-- A marked cell is inside the grid and no marked cell lies before it in either direction. -/
structure IsCorner (n m : Nat) (marked : Nat → Nat → Bool) (i c : Nat) : Prop where
  row_lt : i < n
  col_lt : c < m
  isMarked : marked i c = true
  row_le : ∀ i' < n, ∀ c' < m, marked i' c' = true → i ≤ i'
  col_le : ∀ i' < n, ∀ c' < m, marked i' c' = true → c ≤ c'

variable {n m : Nat} {marked : Nat → Nat → Bool}

theorem firstByRow_eq_swap (n m : Nat) (marked : Nat → Nat → Bool) :
    firstByRow n m marked = (firstByColumn m n fun c i => marked i c).map Prod.swap := by
  simp only [firstByRow, firstByColumn, List.map_findSome?]
  congr 1
  funext i
  simp only [Function.comp_apply, List.map_findSome?]
  congr 1
  funext c
  simp only [Function.comp_apply]
  split <;> rfl

theorem findSome?_range_eq_some {α : Type} {k : Nat} {f : Nat → Option α} {a : α}
    (h : (List.range k).findSome? f = some a) : ∃ x < k, f x = some a ∧ ∀ y < x, f y = none := by
  induction k with
  | zero => simp at h
  | succ k ih =>
    rw [List.range_succ, List.findSome?_append, Option.or_eq_some_iff] at h
    rcases h with h | ⟨hnone, h⟩
    · obtain ⟨x, hx, hfx, hmin⟩ := ih h
      exact ⟨x, Nat.lt_succ_of_lt hx, hfx, hmin⟩
    · rw [List.findSome?_eq_none_iff] at hnone
      refine ⟨k, Nat.lt_succ_self k, by simpa using h, fun y hy => hnone y (List.mem_range.mpr hy)⟩

theorem firstByColumn_eq_none :
    firstByColumn n m marked = none ↔ ∀ i < n, ∀ c < m, marked i c = false := by
  simp only [firstByColumn, List.findSome?_eq_none_iff, List.mem_range]
  constructor
  · intro h i hi c hc
    have := h c hc i hi
    simpa using this
  · intro h c hc i hi
    simp [h i hi c hc]

/-- The column scan stops in the first column with a mark, at that column's first mark. -/
theorem firstByColumn_eq_some {i c : Nat} (h : firstByColumn n m marked = some (i, c)) :
    i < n ∧ c < m ∧ marked i c = true ∧ (∀ i' < n, ∀ c' < c, marked i' c' = false) ∧
      ∀ i' < i, marked i' c = false := by
  obtain ⟨x, hx, hfx, hmin⟩ := findSome?_range_eq_some h
  obtain ⟨y, hy, hfy, hymin⟩ := findSome?_range_eq_some hfx
  split at hfy
  · next hmark =>
    obtain ⟨rfl, rfl⟩ := Prod.mk.inj (Option.some.inj hfy)
    refine ⟨hy, hx, hmark, fun i' hi' c' hc' => ?_, fun i' hi' => ?_⟩
    · have := hmin c' hc'
      rw [List.findSome?_eq_none_iff] at this
      simpa using this i' (List.mem_range.mpr hi')
    · simpa using hymin i' hi'
  · exact absurd hfy (by simp)

theorem firstByRow_eq_none : firstByRow n m marked = none ↔ ∀ i < n, ∀ c < m, marked i c = false := by
  rw [firstByRow_eq_swap, Option.map_eq_none_iff, firstByColumn_eq_none]
  exact ⟨fun h i hi c hc => h c hc i hi, fun h c hc i hi => h i hi c hc⟩

theorem firstByRow_eq_some {i c : Nat} (h : firstByRow n m marked = some (i, c)) :
    i < n ∧ c < m ∧ marked i c = true ∧ (∀ i' < i, ∀ c' < m, marked i' c' = false) ∧
      ∀ c' < c, marked i c' = false := by
  rw [firstByRow_eq_swap, Option.map_eq_some_iff] at h
  obtain ⟨⟨c', i'⟩, hp, heq⟩ := h
  obtain ⟨rfl, rfl⟩ := Prod.mk.inj heq
  obtain ⟨hc, hi, hmark, hbefore, hfirst⟩ := firstByColumn_eq_some hp
  exact ⟨hi, hc, hmark, fun i' hi' c' hc' => hbefore c' hc' i' hi', hfirst⟩

/-- Both scans find the same cell, or nothing, exactly when no cell is marked or one is a corner. -/
theorem firstByColumn_eq_firstByRow :
    firstByColumn n m marked = firstByRow n m marked ↔
      (∀ i < n, ∀ c < m, marked i c = false) ∨ ∃ i c, IsCorner n m marked i c := by
  cases hcol : firstByColumn n m marked with
  | none =>
    have hnone := firstByColumn_eq_none.mp hcol
    rw [firstByRow_eq_none.mpr hnone]
    exact iff_of_true rfl (Or.inl hnone)
  | some p =>
    obtain ⟨i, c⟩ := p
    obtain ⟨hi, hc, hmark, hbefore, hfirst⟩ := firstByColumn_eq_some hcol
    constructor
    · intro h
      obtain ⟨-, -, -, habove, -⟩ := firstByRow_eq_some h.symm
      refine Or.inr ⟨i, c, hi, hc, hmark, fun i' hi' c' hc' hm => ?_, fun i' hi' c' hc' hm => ?_⟩
      · by_contra hlt
        rw [habove i' (by omega) c' hc'] at hm
        exact absurd hm (by simp)
      · by_contra hlt
        rw [hbefore i' hi' c' (by omega)] at hm
        exact absurd hm (by simp)
    · rintro (hnone | ⟨i₀, c₀, hcorner⟩)
      · rw [hnone i hi c hc] at hmark
        exact absurd hmark (by simp)
      · cases hrow : firstByRow n m marked with
        | none =>
          rw [firstByRow_eq_none.mp hrow i hi c hc] at hmark
          exact absurd hmark (by simp)
        | some q =>
          obtain ⟨i', c'⟩ := q
          obtain ⟨hi', hc', hmark', habove, hleft⟩ := firstByRow_eq_some hrow
          -- the corner is the first mark of both scans
          have hrow_eq : i₀ = i' := by
            refine Nat.le_antisymm (hcorner.row_le i' hi' c' hc' hmark') ?_
            by_contra hlt
            have := habove i₀ (by omega) c₀ hcorner.col_lt
            rw [hcorner.isMarked] at this
            exact absurd this (by simp)
          have hcol_eq : c₀ = c := by
            refine Nat.le_antisymm (hcorner.col_le i hi c hc hmark) ?_
            by_contra hlt
            have := hbefore i₀ hcorner.row_lt c₀ (by omega)
            rw [hcorner.isMarked] at this
            exact absurd this (by simp)
          have hi_eq : i = i₀ := by
            refine Nat.le_antisymm ?_ (hcorner.row_le i hi c hc hmark)
            by_contra hlt
            have := hfirst i₀ (by omega)
            rw [← hcol_eq, hcorner.isMarked] at this
            exact absurd this (by simp)
          have hc_eq : c' = c₀ := by
            refine Nat.le_antisymm ?_ (hcorner.col_le i' hi' c' hc' hmark')
            by_contra hlt
            have := hleft c₀ (by omega)
            rw [← hrow_eq, hcorner.isMarked] at this
            exact absurd this (by simp)
          rw [hi_eq, hc_eq, hrow_eq, hcol_eq]

end Grid
