import Pineapple.GoColumnFrame
import Pineapple.StorageRuns

/-! # Column storage as a list of rows (`column_store.cpp`, `column_frame.go`)

Both engines keep the items by column. Whatever calls of `apply_output` came before, failed ones too, the columns
have the store's row count and their cells are the rows that the operations say. The columns are removed from with
one bitmap and permuted with one buffer of marks. -/

namespace Pineapple

/-! ## One buffer for all columns -/

/-- `reorder_in_place` on the caller's buffer, which it hands back. -/
def Column.reorderInPlace (c : Column) (order : List Int) (visited : List Bool) : Column × List Bool :=
  let walked := InPlace.reorderBoth (order.map Int.toNat) c.col.data c.col.validity visited
  (⟨c.type, walked.1, walked.2.1, by
    have hlen := InPlace.length_reorderBoth (order.map Int.toNat) c.col.data c.col.validity visited
    exact hlen.2.trans (c.col.sizes.trans hlen.1.symm)⟩, walked.2.2)

theorem Column.reorderInPlace_eq {c : Column} {order : List Int} {visited : List Bool} (hlen : order.length = c.size)
    (hvisited : visited.length ≤ order.length) :
    (c.reorderInPlace order visited).1 = c.reorder order ∧ (c.reorderInPlace order visited).2.length ≤ order.length := by
  have hext : ∀ {data data' : List c.type.Elem} {validity validity' : List Bool}
      (hs : validity.length = data.length) (hs' : validity'.length = data'.length), data = data' →
      validity = validity' → (⟨c.type, data, validity, hs⟩ : Column) = ⟨c.type, data', validity', hs'⟩ := by
    rintro _ _ _ _ _ _ rfl rfl
    rfl
  have hdata : c.col.data.length = (order.map Int.toNat).length := by rw [List.length_map, hlen]; rfl
  obtain ⟨hxs, hys, hmarks⟩ := InPlace.reorderBoth_eq hdata (c.col.sizes.trans hdata)
    ((List.length_map Int.toNat).symm ▸ hvisited)
  exact ⟨hext _ _ hxs hys, Nat.le_of_eq (hmarks.trans (List.length_map _))⟩

namespace TypedColumnStore

/-- `reorder_rows`: the columns in the order the map ranges over them, with the one buffer, empty at first. -/
def reorderColumns (s : TypedColumnStore) (fields : List String) (order : List Int) : SortedMap String Column :=
  (s.cols.sweep (fun _ col visited => col.reorderInPlace order visited) fields []).1

/-- The shared buffer makes no difference. -/
theorem reorderColumns_eq (s : TypedColumnStore) {fields : List String} (hfields : fields.Perm s.cols.keys)
    {order : List Int} (hlen : order.length = s.rowCount) : s.reorderColumns fields order = (s.reorderRows order).cols := by
  refine SortedMap.ext_find? fun field => ?_
  have hsweep := @SortedMap.find?_sweep_all String Column _ (List Bool)
    (fun _ col visited => col.reorderInPlace order visited) (fun _ col => col.reorder order)
    (fun visited => visited.length ≤ order.length) fields s.cols [] hfields (Nat.zero_le _)
    (fun k col hcol visited hvisited =>
      Column.reorderInPlace_eq (hlen.trans (s.sized k col hcol).symm) hvisited) field
  exact hsweep.trans (s.column_mapColumns (·.reorder order) s.rowCount (fun _ h => by simpa using h) field).symm

/-- The rows that the cells stand for, nothing being absence. -/
def rows (s : TypedColumnStore) : List (String → Option Variant) :=
  (List.range s.rowCount).map fun i field => s.cell i field

theorem getElem?_rows (s : TypedColumnStore) (i : Nat) :
    s.rows[i]? = if i < s.rowCount then some (s.cell i) else none := by
  unfold rows
  rw [List.getElem?_map]
  split
  · next hi => rw [List.getElem?_range hi]; rfl
  · next hi => rw [List.getElem?_eq_none (by simpa using hi)]; rfl

/-- Rows from those slots of `s` are gathered. -/
theorem rows_eq_gather {s t : TypedColumnStore} {slots : List Nat} (hrows : t.rowCount = slots.length)
    (hslots : ∀ j ∈ slots, j < s.rowCount)
    (hcell : ∀ k f, t.cell k f = slots[k]?.bind fun j => s.cell j f) : t.rows = InPlace.gather slots s.rows := by
  refine List.ext_getElem? fun k => ?_
  have hlt : ∀ j ∈ slots, j < s.rows.length := fun j hj => by
    rw [rows, List.length_map, List.length_range]
    exact hslots j hj
  rw [InPlace.getElem?_gather hlt, getElem?_rows, hrows]
  by_cases hk : k < slots.length
  · rw [if_pos hk, List.getElem?_eq_getElem hk, Option.bind_some, getElem?_rows, if_pos (hslots _ (List.getElem_mem hk))]
    refine congrArg some (funext fun f => ?_)
    rw [hcell, List.getElem?_eq_getElem hk]
    rfl
  · rw [if_neg hk, List.getElem?_eq_none (Nat.le_of_not_lt hk)]
    rfl

/-- What the store's operations do to its rows. -/
structure ActsOnRows (s : TypedColumnStore) : Prop where
  sizes : ∀ field c, s.cols.find? field = some c →
    c.col.data.length = s.rowCount ∧ c.col.validity.length = s.rowCount
  write : ∀ i < s.rowCount, ∀ field v, (s.writeItemField i field v).rows =
    s.rows.modify i fun row => Function.update row field (some (s.readBack field v))
  writeColumn : ∀ field (vals : List Binary64), vals.length = s.rowCount → (s.writeColumn field vals).rows =
    (s.rows.zip vals).map fun p => Function.update p.1 field (some (.number p.2))
  removal : ∀ removed, ValidRemoval s.rowCount removed → (s.removeRows removed).rows = dropRows removed s.rows
  order : ∀ order, ValidOrder s.rowCount order →
    (∀ fields, fields.Perm s.cols.keys → s.reorderColumns fields order = (s.reorderRows order).cols) ∧
      ∀ i : Nat, (s.reorderRows order).rows[i]? = order[i]?.bind fun idx : Int => s.rows[idx.toNat]?
  extension : ∀ n, (s.extendRows n).rows = s.rows ++ List.replicate n fun _ => none
  promotion : ∀ field c, s.cols.find? field = some c → ∀ i, c.toJsonColumn.get i = c.get i ∧
    c.toJsonColumn.isNull i = c.isNull i ∧ c.toJsonColumn.isPresent i = c.isPresent i

theorem actsOnRows (s : TypedColumnStore) : s.ActsOnRows := by
  have hlen : s.rows.length = s.rowCount := by rw [rows, List.length_map, List.length_range]
  refine ⟨fun field c hc => ?_, fun i hi field v => ?_, fun field vals hvals => ?_, fun removed hv => ?_,
    fun order hv => ⟨fun fields hfields => ?_, fun i => ?_⟩, fun n => ?_, fun field c _ i => ?_⟩
  · have hsize : c.col.data.length = s.rowCount := s.sized field c hc
    exact ⟨hsize, c.col.sizes.trans hsize⟩
  · refine List.ext_getElem? fun j => ?_
    rw [getElem?_rows, rowCount_writeItemField, List.getElem?_modify, getElem?_rows]
    by_cases hj : j < s.rowCount
    · rw [if_pos hj, if_pos hj]
      refine congrArg some (funext fun g => ?_)
      rw [cell_writeItemField hi]
      by_cases hji : j = i
      · subst hji
        simp [Function.update_apply]
      · simp [hji, Ne.symm hji]
    · rw [if_neg hj, if_neg hj]
      rfl
  · refine List.ext_getElem? fun j => ?_
    have hrows : (s.writeColumn field vals).rowCount = s.rowCount := rowCount_setColumn ..
    rw [getElem?_rows, hrows, List.getElem?_map, List.zip, List.getElem?_zipWith, getElem?_rows]
    by_cases hj : j < s.rowCount
    · rw [if_pos hj, if_pos hj, List.getElem?_eq_getElem (hvals ▸ hj)]
      refine congrArg some (funext fun g => ?_)
      rw [cell_writeColumn hvals, List.getElem?_eq_getElem (hvals ▸ hj)]
      exact (Function.update_apply ..).symm
    · rw [if_neg hj, if_neg hj]
      rfl
  · rw [dropRows_eq_gather, hlen]
    refine rows_eq_gather ?_ (fun _ => lt_of_mem_keptRows) (cell_removeRows hv)
    rw [length_keptRows hv]
    rfl
  · exact s.reorderColumns_eq hfields hv.length
  · have hslots : ∀ j ∈ order.map Int.toNat, j < s.rowCount := fun j hj => by
      have := hv.isOrder.lt j hj
      rwa [List.length_map, hv.length] at this
    rw [@rows_eq_gather s (s.reorderRows order) _ ((List.length_map Int.toNat).trans hv.length).symm hslots
      (cell_reorderRows hv), InPlace.getElem?_gather (fun j hj => hlen ▸ hslots j hj), List.getElem?_map]
    cases order[i]? <;> rfl
  · refine List.ext_getElem? fun i => ?_
    have hrows : (s.extendRows n).rowCount = s.rowCount + n := rfl
    rw [getElem?_rows, hrows, List.getElem?_append, hlen]
    by_cases hi : i < s.rowCount
    · rw [if_pos (by omega), if_pos hi, getElem?_rows, if_pos hi]
      exact congrArg some (funext fun f => cell_extendRows n i f)
    · rw [if_neg hi, List.getElem?_replicate]
      by_cases hn : i < s.rowCount + n
      · rw [if_pos hn, if_pos (by omega)]
        refine congrArg some (funext fun f => ?_)
        rw [cell_extendRows, cell_of_rowCount_le f (Nat.le_of_not_lt hi)]
      · rw [if_neg hn, if_neg (by omega)]
  · refine ⟨?_, ?_, ?_⟩
    · rw [Column.get_eq, Column.get_eq, Column.cell_toJsonColumn]
    · rw [Column.isNull_eq, Column.isNull_eq, Column.cell_toJsonColumn]
    · rw [Column.isPresent_eq, Column.isPresent_eq, Column.cell_toJsonColumn]

end TypedColumnStore

/-- The frame after some calls of `apply_output`, those after a failed one included. -/
def ColumnFrame.applyAll (f : ColumnFrame) (steps : List OutputStep) : ColumnFrame :=
  steps.foldl (fun f a => (ColumnFrame.applyOutput f a.out a.op a.isRecall).state) f

/-! ## Both engines -/

namespace GoColumns
variable {β : Type}

/-- Go's columns hold these rows. -/
structure StoresRows (f : ColumnFrame β) (rows : List (RowCells β)) : Prop where
  rowCount : f.rowCount = rows.length
  sizes : ∀ field c, f.columns.find? field = some c →
    c.slots.data.length = f.rowCount ∧ c.slots.validity.length = f.rowCount
  absentNil : ∀ field s, f.columns.find? field = some ⟨.json, s⟩ →
    ∀ i : Nat, s.validity[i]? = some false → s.data[i]? = some Value.nil
  cells : ∀ (i : Nat) (field : String), f.item i field = (rows[i]?.bind (· field)).getD .nil ∧
    f.itemPresent i field = (rows[i]?.bind (· field)).isSome
  promotion : ∀ field c, f.columns.find? field = some c → ∀ i, c.toJSON.get i = c.get i ∧
    c.toJSON.isNull i = c.isNull i ∧ c.toJSON.present i = c.present i

theorem Denotes.storesRows {f : ColumnFrame β} {rows : List (RowCells β)} (h : Denotes f rows) : StoresRows f rows := by
  refine ⟨h.rowCount, fun field c hc => ?_, fun field s hc i hi => ?_, fun i field => ⟨h.item_eq i field,
    h.itemPresent_eq i field⟩, fun field c hc i => ?_⟩
  · have hcol := h.column field c hc
    have hlen : (rows.map (· field)).length = f.rowCount := by rw [List.length_map, h.rowCount]
    exact ⟨hcol.length_data.trans hlen, hcol.length_validity.trans hlen⟩
  · obtain ⟨xs, hs, -⟩ := h.column field _ hc
    rw [hs.validity, List.getElem?_map] at hi
    rw [hs.data, List.getElem?_map]
    rcases hx : xs[i]? with _ | _ | x
    · rw [hx] at hi
      exact absurd hi nofun
    · rfl
    · rw [hx] at hi
      exact absurd hi nofun
  · have hcol := h.column field c hc
    obtain ⟨hpresent, hget, hnull⟩ := hcol.reads i
    obtain ⟨hpresent', hget', hnull'⟩ := hcol.toJSON.1.reads i
    exact ⟨hget'.trans hget.symm, hnull'.trans hnull.symm, hpresent'.trans hpresent.symm⟩

end GoColumns

end Pineapple
