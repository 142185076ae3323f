import Mathlib.Data.List.Basic

/-! # Binary search (`std::lower_bound`)

The first element of a list that is not before a key, in a list that has those before the key in front. -/

namespace LowerBound

variable {α : Type*}

/-- The halving loop over `len` elements from `first` on; the fuel is at least `len`. -/
def search (before : α → Bool) (xs : List α) : (fuel first len : Nat) → Nat
  | 0, first, _ => first
  | fuel + 1, first, len =>
    if len = 0 then first
    else
      let half := len / 2
      if xs[first + half]?.any before then search before xs fuel (first + half + 1) (len - half - 1)
      else search before xs fuel first half

def lowerBound (before : α → Bool) (xs : List α) : Nat := search before xs xs.length 0 xs.length

/-- Those before the key stand in front. -/
def Partitioned (before : α → Bool) (xs : List α) : Prop := xs.Pairwise fun x y => before y = true → before x = true

variable {before : α → Bool} {xs : List α}

theorem Partitioned.any_mono (h : Partitioned before xs) {i j : Nat} (hij : i ≤ j) (hj : j < xs.length)
    (hb : xs[j]?.any before = true) : xs[i]?.any before = true := by
  rcases Nat.eq_or_lt_of_le hij with rfl | hlt
  · exact hb
  · have hi : i < xs.length := Nat.lt_trans hlt hj
    rw [List.getElem?_eq_getElem hj] at hb
    rw [List.getElem?_eq_getElem hi]
    exact List.pairwise_iff_getElem.mp h i j hi hj hlt hb

theorem search_spec (h : Partitioned before xs) {fuel first len : Nat} (hfuel : len ≤ fuel)
    (hlen : first + len ≤ xs.length) (hlow : ∀ i < first, xs[i]?.any before = true)
    (hhigh : ∀ i, first + len ≤ i → i < xs.length → xs[i]?.any before = false) :
    (∀ i < search before xs fuel first len, xs[i]?.any before = true) ∧
      ∀ i, search before xs fuel first len ≤ i → i < xs.length → xs[i]?.any before = false := by
  induction fuel generalizing first len with
  | zero =>
    obtain rfl : len = 0 := Nat.le_zero.mp hfuel
    exact ⟨hlow, hhigh⟩
  | succ fuel ih =>
    rw [search]
    split
    · next hzero =>
      subst hzero
      exact ⟨hlow, hhigh⟩
    · next hpos =>
      have hmid : first + len / 2 < xs.length := by omega
      dsimp only
      split
      · next hbefore =>
        refine ih (by omega) (by omega) (fun i hi => ?_) (fun i hi => hhigh i (by omega))
        exact h.any_mono (by omega) hmid hbefore
      · next hafter =>
        refine ih (by omega) (by omega) hlow fun i hi hlt => ?_
        by_contra hbefore
        exact hafter (h.any_mono hi hlt (Bool.not_eq_false _ ▸ hbefore))

theorem search_le {fuel first len : Nat} (hlen : first + len ≤ xs.length) :
    search before xs fuel first len ≤ xs.length := by
  induction fuel generalizing first len with
  | zero =>
    rw [search]
    omega
  | succ fuel ih =>
    rw [search]
    dsimp only
    split
    · omega
    · split
      · exact ih (by omega)
      · exact ih (by omega)

theorem lowerBound_le (before : α → Bool) (xs : List α) : lowerBound before xs ≤ xs.length := search_le (by omega)

/-- The list splits at the lower bound. -/
theorem lowerBound_spec (h : Partitioned before xs) :
    (∀ x ∈ xs.take (lowerBound before xs), before x = true) ∧
      ∀ x ∈ xs.drop (lowerBound before xs), before x = false := by
  obtain ⟨hlow, hhigh⟩ := @search_spec _ before xs h xs.length 0 xs.length (Nat.le_refl _) (by omega)
    (fun i hi => absurd hi (Nat.not_lt_zero i)) (fun i hi hlt => by omega)
  constructor
  · intro x hx
    obtain ⟨i, hi, rfl⟩ := List.mem_take_iff_getElem.mp hx
    have hbefore := hlow i (by unfold lowerBound at hi; omega)
    rw [List.getElem?_eq_getElem (by omega)] at hbefore
    exact hbefore
  · intro x hx
    obtain ⟨i, hi, rfl⟩ := List.mem_drop_iff_getElem.mp hx
    have hlt : lowerBound before xs + i < xs.length := by omega
    have hafter := hhigh (lowerBound before xs + i) (Nat.le_add_right _ _) hlt
    rw [List.getElem?_eq_getElem hlt] at hafter
    exact hafter

end LowerBound
