import Pineapple.Input
import Pineapple.StoreSpec

/-! # What a reader of a frame sees

Both storages answer every read from the cells of the frame, through the span of a window. They differ
in one place: the column storage's scan of required fields refuses a field without a column before it
looks at the items, so also when there are none. -/

namespace Pineapple

/-- A frame of `count` items from `offset` on, read off the cells of a storage. -/
def Frame.ofCells (common : Row) (offset count : Nat) (cell : Nat → String → Option Variant)
    (validateStrictItems : List String → Option (String × Nat)) : Frame where
  common field := (common.find? field).getD .null
  hasCommon := common.contains
  itemCount := count
  item index field := if index < count then (cell (offset + index) field).getD .null else .null
  itemHas index field := decide (index < count) && (cell (offset + index) field).isSome
  itemColumn field := (List.range count).map fun i => (cell (offset + i) field).getD .null
  validateStrictItems := validateStrictItems

/-- A required field's cell is absent or null. -/
def cellIsNull (cell : Option Variant) : Bool := (cell.map Variant.isNull).getD true

/-- The scan of required fields over the cells of a span. -/
def strictScan (offset count : Nat) (cell : Nat → String → Option Variant) (fields : List String) :
    Option (String × Nat) :=
  fields.findSome? fun field => (List.range count).findSome? fun i =>
    if cellIsNull (cell (offset + i) field) then some (field, i) else none

/-- The offset and the item count of a window, or of a whole frame of `n` items. -/
def windowSpan (window : Option Window) (n : Nat) : Nat × Nat :=
  match window with
  | some w => (w.offset, w.count)
  | none => (0, n)

/-- The window lies inside a frame of `n` items. -/
def WindowFits (window : Option Window) (n : Nat) : Prop :=
  (windowSpan window n).1 + (windowSpan window n).2 ≤ n

theorem List.findSome?_congr_mem {α β : Type} {f g : α → Option β} {l : List α} (h : ∀ a ∈ l, f a = g a) :
    l.findSome? f = l.findSome? g := by
  induction l with
  | nil => rfl
  | cons a l ih =>
    rw [List.findSome?_cons, List.findSome?_cons, h a List.mem_cons_self,
      ih fun b hb => h b (List.mem_cons_of_mem _ hb)]

theorem find?_projectRow (fields : List String) (get : String → Option Variant) (field : String) :
    (projectRow fields get).find? field = if field ∈ fields then get field else none := by
  have H : ∀ row : Row, (fields.foldl (fun row field => (get field).elim row fun v => row.insert field v) row).find? field =
      if field ∈ fields then (get field).or (row.find? field) else row.find? field := by
    induction fields with
    | nil => exact fun row => rfl
    | cons k fields ih =>
      intro row
      rw [List.foldl_cons, ih]
      by_cases hk : field = k
      · subst hk
        cases get field <;> simp
      · cases get k <;> simp [hk, SortedMap.find?_insert_of_ne]
  refine (H ∅).trans ?_
  rw [SortedMap.find?_empty, Option.or_none]

namespace RowFrame
variable {f : RowFrame} {window : Option Window}

theorem rowAt?_eq (f : RowFrame) (window : Option Window) (index : Nat) :
    f.rowAt? window index =
      if index < (windowSpan window f.items.length).2 then
        f.items[(windowSpan window f.items.length).1 + index]? else none := by
  cases window with
  | none =>
    show f.items[index]? = if index < f.items.length then f.items[0 + index]? else none
    rw [Nat.zero_add]
    split
    · rfl
    · exact List.getElem?_eq_none (by omega)
  | some w =>
    show (if w.count ≤ index then none else f.items[w.offset + index]?) =
      if index < w.count then f.items[w.offset + index]? else none
    by_cases h : w.count ≤ index
    · rw [if_pos h, if_neg (by omega)]
    · rw [if_neg h, if_pos (by omega)]

theorem itemCount_eq (f : RowFrame) (window : Option Window) :
    f.itemCount window = (windowSpan window f.items.length).2 := by
  cases window <;> rfl

/-- A row that the span covers exists. -/
theorem rowAt?_of_lt (hfits : WindowFits window f.items.length) {index : Nat}
    (h : index < (windowSpan window f.items.length).2) :
    ∃ row, f.rowAt? window index = some row ∧
      ∀ field, cell f.items ((windowSpan window f.items.length).1 + index) field = row.find? field := by
  have hlt : (windowSpan window f.items.length).1 + index < f.items.length := by
    have : (windowSpan window f.items.length).1 + (windowSpan window f.items.length).2 ≤ f.items.length := hfits
    omega
  refine ⟨f.items[(windowSpan window f.items.length).1 + index], ?_, fun field => ?_⟩
  · rw [rowAt?_eq, if_pos h, List.getElem?_eq_getElem hlt]
  · rw [cell, List.getElem?_eq_getElem hlt]
    rfl

/-- The reads of row storage. -/
theorem view_eq (hfits : WindowFits window f.items.length) :
    f.view window = Frame.ofCells f.common (windowSpan window f.items.length).1 (windowSpan window f.items.length).2
      (cell f.items)
      (strictScan (windowSpan window f.items.length).1 (windowSpan window f.items.length).2 (cell f.items)) := by
  have hout : ∀ index, ¬ index < (windowSpan window f.items.length).2 → f.rowAt? window index = none := by
    intro index h
    rw [rowAt?_eq, if_neg h]
  rw [view, Frame.ofCells]
  congr 1
  · exact f.itemCount_eq window
  · funext index field
    by_cases h : index < (windowSpan window f.items.length).2
    · obtain ⟨row, hrow, hcell⟩ := rowAt?_of_lt hfits h
      rw [item, hrow, if_pos h, hcell]
    · rw [item, hout index h, if_neg h]
  · funext index field
    by_cases h : index < (windowSpan window f.items.length).2
    · obtain ⟨row, hrow, hcell⟩ := rowAt?_of_lt hfits h
      rw [itemHas, hrow, hcell, decide_eq_true h]
      rfl
    · rw [itemHas, hout index h, decide_eq_false h]
      rfl
  · funext field
    rw [itemColumn, itemCount_eq]
    refine List.map_congr_left fun i hi => ?_
    obtain ⟨row, hrow, hcell⟩ := rowAt?_of_lt hfits (List.mem_range.mp hi)
    rw [hrow, hcell]
  · funext fields
    rw [validateStrictItems, itemCount_eq, strictScan]
    refine List.findSome?_congr_mem fun field _ => List.findSome?_congr_mem fun i hi => ?_
    obtain ⟨row, hrow, hcell⟩ := rowAt?_of_lt hfits (List.mem_range.mp hi)
    rw [hrow, hcell, Option.bind_some, cellIsNull]
    cases row.find? field <;> rfl

end RowFrame

namespace ColumnFrame
variable {f : ColumnFrame} {window : Option Window}

theorem itemCount_eq (f : ColumnFrame) (window : Option Window) :
    f.itemCount window = (windowSpan window f.items.rowCount).2 := by
  cases window <;> rfl

theorem rowIndex?_eq (f : ColumnFrame) (window : Option Window) (index : Nat) :
    f.rowIndex? window index =
      if index < (windowSpan window f.items.rowCount).2 then
        some ((windowSpan window f.items.rowCount).1 + index) else none := by
  cases window with
  | none =>
    show (if f.items.rowCount ≤ index then none else some index) =
      if index < f.items.rowCount then some (0 + index) else none
    rw [Nat.zero_add]
    by_cases h : f.items.rowCount ≤ index
    · rw [if_pos h, if_neg (by omega)]
    · rw [if_neg h, if_pos (by omega)]
  | some w =>
    show (if w.count ≤ index then none else some (w.offset + index)) =
      if index < w.count then some (w.offset + index) else none
    by_cases h : w.count ≤ index
    · rw [if_pos h, if_neg (by omega)]
    · rw [if_neg h, if_pos (by omega)]

theorem readCell (col : Column) (i : Nat) : (if col.isNull i then Variant.null else col.get i) = (col.cell i).getD .null := by
  rw [Column.isNull_eq, Column.get_eq]
  cases col.cell i with
  | none => rfl
  | some v => cases v <;> rfl

theorem offset_eq (window : Option Window) (n : Nat) : window.elim 0 Window.offset = (windowSpan window n).1 := by
  cases window <;> rfl

/-- The scan of required fields of column storage: a field without a column fails at item 0. -/
theorem validateStrictItems_eq (f : ColumnFrame) (window : Option Window) (fields : List String) :
    f.validateStrictItems window fields = fields.findSome? fun field =>
      if f.items.column field = none then some (field, 0)
      else (List.range (windowSpan window f.items.rowCount).2).findSome? fun i =>
        if cellIsNull (f.items.cell ((windowSpan window f.items.rowCount).1 + i) field) then some (field, i)
        else none := by
  rw [validateStrictItems]
  refine List.findSome?_congr_mem fun field _ => ?_
  cases hc : f.items.column field with
  | none => rfl
  | some col =>
    rw [if_neg (by simp), itemCount_eq]
    refine List.findSome?_congr_mem fun i _ => ?_
    rw [Column.isNull_eq, offset_eq window f.items.rowCount, cellIsNull, TypedColumnStore.cell, hc]
    rfl

/-- The reads of column storage. -/
theorem view_eq (f : ColumnFrame) (window : Option Window) :
    f.view window = Frame.ofCells f.common (windowSpan window f.items.rowCount).1
      (windowSpan window f.items.rowCount).2 f.items.cell (f.validateStrictItems window) := by
  rw [view, Frame.ofCells]
  congr 1
  · exact f.itemCount_eq window
  · funext index field
    by_cases h : index < (windowSpan window f.items.rowCount).2
    · rw [item, rowIndex?_eq, if_pos h, if_pos h, TypedColumnStore.cell]
      cases f.items.column field with
      | none => rfl
      | some col => exact readCell col _
    · rw [item, rowIndex?_eq, if_neg h, if_neg h]
  · funext index field
    by_cases h : index < (windowSpan window f.items.rowCount).2
    · rw [itemHas, rowIndex?_eq, if_pos h, decide_eq_true h, TypedColumnStore.cell]
      cases f.items.column field with
      | none => rfl
      | some col => exact Column.isPresent_eq col _
    · rw [itemHas, rowIndex?_eq, if_neg h, decide_eq_false h]
      rfl
  · funext field
    rw [itemColumn, itemCount_eq]
    simp only [TypedColumnStore.cell]
    cases f.items.column field with
    | none => simp
    | some col =>
      refine List.map_congr_left fun i _ => ?_
      rw [offset_eq window f.items.rowCount]
      exact readCell col _

/-- The two scans of required fields agree on items, and without items when every field has a column. -/
theorem validateStrictItems_eq_strictScan {fields : List String}
    (h : 0 < (windowSpan window f.items.rowCount).2 ∨ ∀ field ∈ fields, f.items.column field ≠ none) :
    f.validateStrictItems window fields =
      strictScan (windowSpan window f.items.rowCount).1 (windowSpan window f.items.rowCount).2 f.items.cell fields := by
  rw [validateStrictItems_eq, strictScan]
  refine List.findSome?_congr_mem fun field hfield => ?_
  split
  · next hnone =>
    rcases h with h | h
    · obtain ⟨k, hk⟩ : ∃ k, (windowSpan window f.items.rowCount).2 = k + 1 := ⟨_, (Nat.succ_pred_eq_of_pos h).symm⟩
      rw [hk, List.range_succ_eq_map, List.findSome?_cons, TypedColumnStore.cell, hnone]
      rfl
    · exact absurd hnone (h field hfield)
  · rfl

theorem presentCell (f : ColumnFrame) (i : Nat) (field : String) : ((f.items.column field).bind fun col =>
    if col.isPresent i then some (col.get i) else none) = f.items.cell i field := by
  rw [TypedColumnStore.cell]
  cases f.items.column field with
  | none => rfl
  | some col =>
    simp only [Option.bind_some, Column.isPresent_eq, Column.get_eq]
    cases col.cell i <;> rfl

theorem toResult_eq (f : ColumnFrame) (commonOut itemOut : List String) :
    f.toResult commonOut itemOut = ⟨projectRow commonOut f.common.find?,
      (List.range f.items.rowCount).map fun i => projectRow itemOut (f.items.cell i)⟩ := by
  simp only [toResult, presentCell]

theorem find?_itemObject {f : ColumnFrame} {window : Option Window} {index : Nat}
    (h : index < (windowSpan window f.items.rowCount).2) (field : String) :
    (f.itemObject window index).find? field = f.items.cell ((windowSpan window f.items.rowCount).1 + index) field := by
  rw [itemObject, rowIndex?_eq, if_pos h, find?_projectRow, presentCell]
  split
  · rfl
  · next hmem =>
    rw [SortedMap.mem_keys, SortedMap.contains, Bool.not_eq_true, Option.isSome_eq_false_iff,
      Option.isNone_iff_eq_none] at hmem
    rw [TypedColumnStore.cell, TypedColumnStore.column, hmem]
    rfl

end ColumnFrame

theorem RowFrame.find?_itemObject {f : RowFrame} {window : Option Window} (hfits : WindowFits window f.items.length)
    {index : Nat} (h : index < (windowSpan window f.items.length).2) (field : String) :
    (f.itemObject window index).find? field =
      (RowFrame.cell f.items ((windowSpan window f.items.length).1 + index) field).filter fun v => !v.isNull := by
  obtain ⟨row, hrow, hcell⟩ := rowAt?_of_lt hfits h
  rw [itemObject, hrow, hcell, find?_projectRow]
  split
  · rfl
  · next hmem =>
    rw [SortedMap.mem_keys, SortedMap.contains, Bool.not_eq_true, Option.isSome_eq_false_iff,
      Option.isNone_iff_eq_none] at hmem
    rw [hmem]
    rfl

theorem RowFrame.toResult_eq (f : RowFrame) (commonOut itemOut : List String) :
    f.toResult commonOut itemOut = ⟨projectRow commonOut f.common.find?,
      (List.range f.items.length).map fun i => projectRow itemOut (RowFrame.cell f.items i)⟩ := by
  rw [toResult]
  congr 1
  apply List.ext_getElem?
  intro i
  rw [List.getElem?_map, List.getElem?_map]
  by_cases hi : i < f.items.length
  · rw [List.getElem?_eq_getElem hi, List.getElem?_range hi, Option.map_some, Option.map_some]
    congr 2
    funext field
    rw [RowFrame.cell, List.getElem?_eq_getElem hi]
    rfl
  · rw [List.getElem?_eq_none (by omega), List.getElem?_eq_none (by simpa using hi)]
    rfl

end Pineapple
