import Mathlib.Data.List.Basic

/-! # The first occurrence of a pattern

`find` as on a string, and what it does to the two halves of a list: an occurrence found in a prefix is the
first one of the whole list, and a prefix that holds the first occurrence of the whole list finds it. -/

namespace Search

variable {α : Type} [DecidableEq α]

def find (pat : List α) : List α → Option Nat
  | [] => if pat = [] then some 0 else none
  | x :: xs => if pat.isPrefixOf (x :: xs) then some 0 else (find pat xs).map (· + 1)

theorem find_here {pat : List α} {x : α} {xs : List α} (h : pat <+: x :: xs) :
    find pat (x :: xs) = some 0 := by
  rw [find, if_pos (List.isPrefixOf_iff_prefix.mpr h)]

theorem find_later {pat : List α} {x : α} {xs : List α} (h : ¬ pat <+: x :: xs) :
    find pat (x :: xs) = (find pat xs).map (· + 1) := by
  rw [find, if_neg fun hp => h (List.isPrefixOf_iff_prefix.mp hp)]

theorem find_length_le {pat l : List α} {k : Nat} (h : find pat l = some k) : k + pat.length ≤ l.length := by
  induction l generalizing k with
  | nil =>
    rw [find] at h
    split at h
    · next hnil =>
      cases h
      simp [hnil]
    · cases h
  | cons x xs ih =>
    by_cases hp : pat <+: x :: xs
    · rw [find_here hp] at h
      cases h
      simpa using hp.length_le
    · rw [find_later hp] at h
      obtain ⟨j, hj, rfl⟩ := Option.map_eq_some_iff.mp h
      have := ih hj
      rw [List.length_cons]
      omega

/-- What is found in a prefix is found first in the whole list. -/
theorem find_append {pat l : List α} {k : Nat} (h : find pat l = some k) (r : List α) : find pat (l ++ r) = some k := by
  induction l generalizing k with
  | nil =>
    rw [find] at h
    split at h
    · next hnil =>
      cases h
      subst hnil
      cases r with
      | nil => rfl
      | cons x xs => exact find_here List.nil_prefix
    · cases h
  | cons x xs ih =>
    by_cases hp : pat <+: x :: xs
    · rw [find_here hp] at h
      cases h
      exact find_here (hp.trans (List.prefix_append ..))
    · rw [find_later hp] at h
      obtain ⟨j, hj, rfl⟩ := Option.map_eq_some_iff.mp h
      have hlen := find_length_le hj
      have hnot : ¬ pat <+: x :: (xs ++ r) := by
        intro hpre
        rw [← List.cons_append] at hpre
        refine hp (List.prefix_of_prefix_length_le hpre (List.prefix_append ..) ?_)
        rw [List.length_cons]
        omega
      rw [List.cons_append, find_later hnot, ih hj]
      rfl

/-- A prefix finds the first occurrence of the whole list exactly when it holds it. -/
theorem find_of_append {pat l r : List α} {k : Nat} (h : find pat (l ++ r) = some k) :
    find pat l = if k + pat.length ≤ l.length then some k else none := by
  cases hl : find pat l with
  | some j =>
    obtain rfl : j = k := Option.some.inj ((find_append hl r).symm.trans h)
    rw [if_pos (find_length_le hl)]
  | none =>
    split
    · next hle =>
      induction l generalizing k with
      | nil =>
        rw [List.length_nil, Nat.le_zero, Nat.add_eq_zero_iff] at hle
        rw [find, if_pos (List.length_eq_zero_iff.mp hle.2)] at hl
        cases hl
      | cons x xs ih =>
        by_cases hp : pat <+: x :: xs
        · rw [find_here hp] at hl
          cases hl
        · rw [find_later hp] at hl
          have hnot : ¬ pat <+: x :: (xs ++ r) := by
            intro hpre
            rw [List.cons_append, find_here hpre] at h
            cases h
            rw [← List.cons_append] at hpre
            exact hp (List.prefix_of_prefix_length_le hpre (List.prefix_append ..) (by simpa using hle))
          rw [List.cons_append, find_later hnot] at h
          obtain ⟨j, hj, rfl⟩ := Option.map_eq_some_iff.mp h
          have hnone := ih hj (Option.map_eq_none_iff.mp hl) (by rw [List.length_cons] at hle; omega)
          cases hnone
    · rfl

/-- No occurrence begins where the pattern's first element does not occur. -/
theorem find_skip {c : α} {pat l : List α} (h : c ∉ l) (r : List α) :
    find (c :: pat) (l ++ r) = (find (c :: pat) r).map (· + l.length) := by
  induction l with
  | nil => simp
  | cons x xs ih =>
    have hne : ¬ c :: pat <+: x :: (xs ++ r) := by
      intro hp
      obtain ⟨t, ht⟩ := hp
      exact h (List.mem_cons.mpr (.inl (List.cons.inj ht).1))
    rw [List.cons_append, find_later hne, ih fun hx => h (List.mem_cons_of_mem _ hx), Option.map_map]
    congr 1

theorem find_at {c : α} {pat l : List α} (h : c ∉ l) (r : List α) :
    find (c :: pat) (l ++ ((c :: pat) ++ r)) = some l.length := by
  have hp : c :: pat <+: c :: (pat ++ r) := List.prefix_append (c :: pat) r
  rw [find_skip h, List.cons_append, find_here hp, Option.map_some, Nat.zero_add]

theorem find_singleton_eq_none {c : α} {l : List α} (h : c ∉ l) : find [c] l = none := by
  have hskip := @find_skip α _ c [] l h []
  rw [List.append_nil] at hskip
  rw [hskip]
  rfl

end Search
