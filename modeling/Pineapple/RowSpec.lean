import Pineapple.ApplyOutput
import Pineapple.RowFrame

/-! # What rows hold

`RowFrame.store` obeys the storage laws exactly: a cell reads what was written to it. -/

namespace Pineapple

theorem validateFrameValue_of_addedFieldError {op : String} {row : Row}
    (h : row.entries.findSome? (addedFieldError op) = none) {f : String} {v : Variant} (hv : row.find? f = some v) :
    validateFrameValue f v = none := by
  have := List.findSome?_eq_none_iff.mp h (f, v) (SortedMap.mem_entries.mpr hv)
  simpa [addedFieldError] using this

@[simp] theorem validateFrameValue_string (f s : String) : validateFrameValue f (.string s) = none := by
  simp [validateFrameValue, Variant.containsNonFinite]

namespace RowFrame

def cell (rows : List Row) (i : Nat) (f : String) : Option Variant := rows[i]?.bind (·.find? f)

theorem find?_addedRow (op : String) (isRecall : Bool) (added : Row) (f : String) :
    (addedRow op isRecall added).find? f =
      if isRecall ∧ f = "_source" then some (.string op) else added.find? f := by
  cases isRecall with
  | false => simp [addedRow]
  | true => simp [addedRow, SortedMap.find?_insert]

/-- The additions push the rows before the first bad one. -/
theorem addItems_eq (op : String) (isRecall : Bool) (added rows : List Row) :
    addItems op isRecall added rows =
      Outcome.checked (added.findSome? fun row => row.entries.findSome? (addedFieldError op)) id
        (rows ++ (added.takeWhile fun row => (row.entries.findSome? (addedFieldError op)).isNone).map
          (addedRow op isRecall)) := by
  rw [addItems, Outcome.forEach_checked]
  congr 1
  generalize added.takeWhile _ = l
  induction l generalizing rows with
  | nil => simp
  | cons row l ih => rw [List.foldl_cons, ih]; simp

theorem state_addItems (op : String) (isRecall : Bool) (added rows : List Row) :
    (addItems op isRecall added rows).state =
      rows ++ (added.takeWhile fun row => (row.entries.findSome? (addedFieldError op)).isNone).map
        (addedRow op isRecall) := by
  rw [addItems_eq]
  cases added.findSome? fun row => row.entries.findSome? (addedFieldError op) <;> rfl

theorem lt_of_mem_keptRows_length {rows : List Row} {removed : List Int} :
    ∀ j ∈ keptRows rows.length removed, j < rows.length := fun _ => lt_of_mem_keptRows

theorem cell_gather {idx : List Nat} {rows : List Row} (h : ∀ j ∈ idx, j < rows.length) (k : Nat) (f : String) :
    cell (InPlace.gather idx rows) k f = idx[k]?.bind fun j => cell rows j f := by
  rw [cell, InPlace.getElem?_gather h, Option.bind_assoc]
  rfl

theorem store_lawful : store.Lawful cell fun _ _ v => v where
  cell_none rows i f h := by
    rw [cell, List.getElem?_eq_none h]
    rfl
  reads_eq _ _ _ := Or.inl rfl
  rowCount_writeField rows i f v _ := List.length_modify ..
  cell_writeField rows i f v hi j g := by
    simp only [cell, store, List.getElem?_modify]
    by_cases hj : i = j
    · subst hj
      have hi : i < rows.length := hi
      by_cases hg : g = f
      · simp [hi, hg]
      · simp [hi, hg, SortedMap.find?_insert_of_ne]
    · simp [hj, Ne.symm hj]
  rowCount_writeColumn rows f vals h := by
    have h : vals.length = rows.length := h
    simp [store, h]
  cell_writeColumn rows f vals h j g := by
    have h : vals.length = rows.length := h
    simp only [cell, store, List.getElem?_zipWith]
    by_cases hj : j < rows.length
    · rw [List.getElem?_eq_getElem hj, List.getElem?_eq_getElem (h ▸ hj)]
      simp [SortedMap.find?_insert]
    · rw [List.getElem?_eq_none (l := rows) (by omega), List.getElem?_eq_none (l := vals) (by omega)]
      simp
  rowCount_removeRows rows removed h := by
    show (dropRows removed rows).length = rows.length - removed.length
    rw [dropRows_eq_gather, InPlace.length_gather lt_of_mem_keptRows_length]
    exact length_keptRows h
  cell_removeRows rows removed _ k f := by
    show cell (dropRows removed rows) k f = _
    rw [dropRows_eq_gather, cell_gather lt_of_mem_keptRows_length]
    rfl
  rowCount_reorderRows rows order h := by
    show (gatherRows order rows).length = rows.length
    have hlen : order.length = rows.length := h.length
    rw [gatherRows_eq_gather, InPlace.length_gather fun j hj => ?_, List.length_map, hlen]
    have := h.isOrder.lt j hj
    rwa [List.length_map, hlen] at this
  cell_reorderRows rows order h k f := by
    show cell (gatherRows order rows) k f = _
    have hlen : order.length = rows.length := h.length
    rw [gatherRows_eq_gather, cell_gather fun j hj => ?_]
    have := h.isOrder.lt j hj
    rwa [List.length_map, hlen] at this
  error_addItems rows op isRecall added := by
    show (addItems op isRecall added rows).error? = _
    rw [addItems_eq]
    cases added.findSome? fun row => row.entries.findSome? (addedFieldError op) <;> rfl
  cell_addItems rows op isRecall added i f hi := by
    show cell (addItems op isRecall added rows).state i f = _
    rw [state_addItems, cell, List.getElem?_append_left hi]
    rfl
  rowCount_addItems rows op isRecall added := by
    show rows.length ≤ (addItems op isRecall added rows).state.length
    rw [state_addItems]
    simp
  valid_addItems rows op isRecall added i f v hi hv := by
    have hv : cell (addItems op isRecall added rows).state i f = some v := hv
    rw [state_addItems, cell, List.getElem?_append_right hi, List.getElem?_map, Option.bind_map] at hv
    obtain ⟨row, hrow, hf⟩ := Option.bind_eq_some_iff.mp hv
    have hok := List.mem_takeWhile_imp (List.mem_of_getElem? hrow)
    rw [Function.comp_apply, find?_addedRow] at hf
    split at hf
    · rw [← Option.some.inj hf]
      exact validateFrameValue_string _ _
    · exact validateFrameValue_of_addedFieldError (by simpa using hok) hf

end RowFrame

end Pineapple
