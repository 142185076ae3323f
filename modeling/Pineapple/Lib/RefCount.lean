import Mathlib.Data.List.Basic
import Mathlib.Data.List.Count
import Mathlib.Data.List.Nodup
import Mathlib.Data.List.Perm.Basic

/-! # Reference counts

`RefLedger`: every counter tells how many references to its cell are out, `held` lists them, and `ended` is
the log of the cells whose last reference went. A cell whose counter has reached zero is in the log once and
nobody holds it. The operations: a cell is made with one reference, a reference is taken where the counter is
positive, and a reference is dropped. -/

universe u
variable {κ : Type u} [DecidableEq κ]

structure RefLedger (made : κ → Prop) (refs : κ → Int) (held ended : List κ) : Prop where
  refs : ∀ k, made k → refs k = held.count k
  held_made : ∀ k ∈ held, made k
  ended_made : ∀ k ∈ ended, made k
  ended : ∀ k, made k → ended.count k = if held.count k = 0 then 1 else 0

namespace RefLedger
variable {made : κ → Prop} {refs : κ → Int} {held held' ended ended' : List κ} {k : κ}

theorem nil (refs : κ → Int) : RefLedger (fun _ => False) refs [] [] :=
  ⟨fun _ h => h.elim, by simp, by simp, fun _ h => h.elim⟩

theorem perm (h : RefLedger made refs held ended) (hh : held'.Perm held) (he : ended'.Perm ended) :
    RefLedger made refs held' ended' where
  refs k hk := by rw [hh.count_eq]; exact h.refs k hk
  held_made k hk := h.held_made k (hh.mem_iff.mp hk)
  ended_made k hk := h.ended_made k (he.mem_iff.mp hk)
  ended k hk := by rw [he.count_eq, hh.count_eq]; exact h.ended k hk

/-! ## What the ledger says -/

theorem pos_iff (h : RefLedger made refs held ended) (hk : made k) : 0 < refs k ↔ k ∈ held := by
  rw [h.refs k hk, ← List.count_pos_iff]
  exact Int.natCast_pos

theorem mem_ended_iff (h : RefLedger made refs held ended) (hk : made k) : k ∈ ended ↔ k ∉ held := by
  rw [← List.count_pos_iff, h.ended k hk, ← List.count_eq_zero]
  split <;> simp_all

theorem not_held (h : RefLedger made refs held ended) (hk : k ∈ ended) : k ∉ held :=
  (h.mem_ended_iff (h.ended_made k hk)).mp hk

theorem ended_nodup (h : RefLedger made refs held ended) : ended.Nodup := by
  rw [List.nodup_iff_count_le_one]
  intro k
  by_cases hk : k ∈ ended
  · rw [h.ended k (h.ended_made k hk)]
    split <;> omega
  · rw [List.count_eq_zero.mpr hk]
    omega

/-! ## The operations -/

section
variable {made' : κ → Prop} {refs' : κ → Int} (h : RefLedger made refs held ended)
  (hne : ∀ j, j ≠ k → refs' j = refs j)
include h hne

/-- A new cell starts with the reference of its maker. -/
theorem create (hfresh : ¬ made k) (hmade : ∀ j, made' j ↔ made j ∨ j = k) (hk : refs' k = 1) :
    RefLedger made' refs' (k :: held) ended := by
  have hheld : held.count k = 0 := List.count_eq_zero.mpr fun hm => hfresh (h.held_made k hm)
  have hended : ended.count k = 0 := List.count_eq_zero.mpr fun hm => hfresh (h.ended_made k hm)
  refine ⟨fun j hj => ?_, fun j hj => ?_, fun j hj => (hmade j).mpr (Or.inl (h.ended_made j hj)), fun j hj => ?_⟩
  · by_cases hjk : j = k
    · rw [hjk, hk, List.count_cons_self, hheld]; rfl
    · rw [hne j hjk, List.count_cons_of_ne (Ne.symm hjk)]
      exact h.refs j (((hmade j).mp hj).resolve_right hjk)
  · rcases List.mem_cons.mp hj with rfl | hj
    · exact (hmade j).mpr (Or.inr rfl)
    · exact (hmade j).mpr (Or.inl (h.held_made j hj))
  · by_cases hjk : j = k
    · rw [hjk, hended, List.count_cons_self, if_neg (Nat.succ_ne_zero _)]
    · rw [List.count_cons_of_ne (Ne.symm hjk)]
      exact h.ended j (((hmade j).mp hj).resolve_right hjk)

/-- A reference is taken to a cell that is still referred to. -/
theorem acquire (hmade : made k) (hpos : 0 < refs k) (hk : refs' k = refs k + 1) :
    RefLedger made refs' (k :: held) ended := by
  have hheld : 0 < held.count k := List.count_pos_iff.mpr ((h.pos_iff hmade).mp hpos)
  refine ⟨fun j hj => ?_, fun j hj => ?_, h.ended_made, fun j hj => ?_⟩
  · by_cases hjk : j = k
    · rw [hjk, hk, List.count_cons_self, h.refs k hmade]; rfl
    · rw [hne j hjk, List.count_cons_of_ne (Ne.symm hjk)]
      exact h.refs j hj
  · rcases List.mem_cons.mp hj with rfl | hj
    · exact hmade
    · exact h.held_made j hj
  · rw [h.ended j hj]
    by_cases hjk : j = k
    · rw [hjk, List.count_cons_self, if_neg (by omega), if_neg (by omega)]
    · rw [List.count_cons_of_ne (Ne.symm hjk)]

end

section
variable {refs' : κ → Int} (h : RefLedger made refs (k :: held) ended) (hne : ∀ j, j ≠ k → refs' j = refs j)
  (hk : refs' k = refs k - 1)
include h hne hk

/-- A reference is dropped and others are left. -/
theorem release (hmore : refs k ≠ 1) : RefLedger made refs' held ended := by
  have hmade : made k := h.held_made k List.mem_cons_self
  have hrefs := h.refs k hmade
  rw [List.count_cons_self] at hrefs
  refine ⟨fun j hj => ?_, fun j hj => h.held_made j (List.mem_cons_of_mem _ hj), h.ended_made, fun j hj => ?_⟩
  · by_cases hjk : j = k
    · rw [hjk, hk, hrefs]; omega
    · rw [hne j hjk, h.refs j hj, List.count_cons_of_ne (Ne.symm hjk)]
  · rw [h.ended j hj]
    by_cases hjk : j = k
    · rw [hjk, List.count_cons_self, if_neg (by omega), if_neg (by omega)]
    · rw [List.count_cons_of_ne (Ne.symm hjk)]

/-- The last reference is dropped, and the cell is logged. -/
theorem releaseLast (hlast : refs k = 1) : RefLedger made refs' held (k :: ended) := by
  have hmade : made k := h.held_made k List.mem_cons_self
  have hrefs := h.refs k hmade
  rw [List.count_cons_self] at hrefs
  refine ⟨fun j hj => ?_, fun j hj => h.held_made j (List.mem_cons_of_mem _ hj), fun j hj => ?_, fun j hj => ?_⟩
  · by_cases hjk : j = k
    · rw [hjk, hk, hrefs]; omega
    · rw [hne j hjk, h.refs j hj, List.count_cons_of_ne (Ne.symm hjk)]
  · rcases List.mem_cons.mp hj with rfl | hj
    · exact hmade
    · exact h.ended_made j hj
  · by_cases hjk : j = k
    · have hended := h.ended k hmade
      rw [List.count_cons_self, if_neg (Nat.succ_ne_zero _)] at hended
      rw [hjk, List.count_cons_self, hended, if_pos (by omega)]
    · rw [List.count_cons_of_ne (Ne.symm hjk), h.ended j hj, List.count_cons_of_ne (Ne.symm hjk)]

end

end RefLedger
