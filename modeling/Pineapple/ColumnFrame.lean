import Pineapple.Column
import Pineapple.RowFrame

/-! # Column storage (`column_store.cpp`, `column_frame.cpp`)

The items are a map from field to column. Every column of a store has the store's row count. -/

namespace Pineapple

/-! ## Sizes -/

namespace Column

@[simp] theorem size_blank (t : ColumnType) (n : Nat) : (blank t n).size = n := by
  simp [blank, size, TypedColumn.size, TypedColumn.blank]

@[simp] theorem size_appendNull (c : Column) : c.appendNull.size = c.size + 1 := by
  simp [appendNull, size, TypedColumn.size, TypedColumn.appendNull]

@[simp] theorem size_removeWithBitmap (c : Column) (bitmap : List Bool) (kept : Nat) :
    (c.removeWithBitmap bitmap kept).size = kept := by
  simp [removeWithBitmap, size, TypedColumn.size, TypedColumn.removeWithBitmap]

@[simp] theorem size_reorder (c : Column) (order : List Int) : (c.reorder order).size = c.size := by
  simp [reorder, size, TypedColumn.size, TypedColumn.reorder]

@[simp] theorem size_toJsonColumn (c : Column) : c.toJsonColumn.size = c.size := by
  obtain ⟨t, c⟩ := c
  cases t <;> simp [toJsonColumn, size, TypedColumn.size, TypedColumn.toJsonColumn, c.sizes]

/-- `size` appended empty slots. -/
def appendNulls (c : Column) : Nat → Column
  | 0 => c
  | n + 1 => (c.appendNull).appendNulls n

@[simp] theorem size_appendNulls (c : Column) (n : Nat) : (c.appendNulls n).size = c.size + n := by
  induction n generalizing c with
  | zero => rfl
  | succ n ih => rw [appendNulls, ih, size_appendNull]; omega

end Column

/-! ## The store -/

structure TypedColumnStore where
  cols : SortedMap String Column
  rowCount : Nat
  sized : ∀ f c, cols.find? f = some c → c.size = rowCount

namespace TypedColumnStore

def empty (n : Nat) : TypedColumnStore := ⟨∅, n, fun _ _ h => by simp at h⟩

def column (s : TypedColumnStore) (field : String) : Option Column := s.cols.find? field

/-- `set_column`. Its callers pass a column of the store's size (another throws `std::invalid_argument`). -/
def setColumn (s : TypedColumnStore) (field : String) (col : Column) : TypedColumnStore :=
  if h : col.size = s.rowCount then
    { cols := s.cols.insert field col
      rowCount := s.rowCount
      sized := fun f c hc => by
        rw [SortedMap.find?_insert] at hc
        split at hc
        · rw [← Option.some.inj hc]; exact h
        · exact s.sized f c hc }
  else s

/-- Apply an operation of one column to all of them. -/
def mapColumns (s : TypedColumnStore) (g : Column → Column) (n : Nat)
    (hg : ∀ c : Column, c.size = s.rowCount → (g c).size = n) : TypedColumnStore where
  cols := s.cols.mapValues g
  rowCount := n
  sized f c hc := by
    rw [SortedMap.find?_mapValues, Option.map_eq_some_iff] at hc
    obtain ⟨d, hd, rfl⟩ := hc
    exact hg d (s.sized f d hd)

/-- The drop bitmap of a set of indices. -/
def removeBitmap (n : Nat) (removed : List Int) : List Bool :=
  removed.foldl (fun bitmap idx => bitmap.set idx.toNat true) (List.replicate n false)

/-- `remove_rows`, on indices its caller has checked. -/
def removeRows (s : TypedColumnStore) (removed : List Int) : TypedColumnStore :=
  s.mapColumns (·.removeWithBitmap (removeBitmap s.rowCount removed) (s.rowCount - removed.length))
    (s.rowCount - removed.length) fun _ _ => by simp

def reorderRows (s : TypedColumnStore) (order : List Int) : TypedColumnStore :=
  s.mapColumns (·.reorder order) s.rowCount fun _ h => by simpa using h

def extendRows (s : TypedColumnStore) (n : Nat) : TypedColumnStore :=
  s.mapColumns (·.appendNulls n) (s.rowCount + n) fun _ h => by simp [h]

/-! ## Writing one cell (`write_item_field_locked`) -/

/-- The type of a column that the first write to a field creates. -/
def newColumnType : Variant → ColumnType
  | .bool _ => .bool
  | .number _ => .double
  | .string _ => .string
  | _ => .json

/-- The field's column, a new one when it has none, made a JSON column for a null. -/
def columnFor (s : TypedColumnStore) (field : String) (value : Variant) : Column :=
  let col := (s.column field).getD (.blank (newColumnType value) s.rowCount)
  if value.isNull ∧ col.type ≠ .json then col.toJsonColumn else col

def writeItemField (s : TypedColumnStore) (idx : Nat) (field : String) (value : Variant) : TypedColumnStore :=
  s.setColumn field ((s.columnFor field value).setOrPromote idx value)

def writeColumn (s : TypedColumnStore) (field : String) (vals : List Binary64) : TypedColumnStore :=
  s.setColumn field ⟨.double, .adopt vals⟩

end TypedColumnStore

/-! ## The frame -/

/-- `ColumnFrame`: a frame that owns its columns. A window view of it is a `ColumnFrame.view`. -/
abbrev ColumnFrame := FrameState TypedColumnStore

namespace ColumnFrame

/-- The fields of the items, in first-seen order. -/
def fieldOrder (items : List Row) : List String :=
  (items.flatMap SortedMap.keys).foldl (fun seen k => if k ∈ seen then seen else seen ++ [k]) []

/-- The type a field's column starts with. -/
def initialType (items : List Row) (field : String) : ColumnType :=
  let present := items.filterMap (·.find? field)
  if present.any Variant.isNull then .json else (makeColumn (present.filter fun v => !v.isNull)).type

def initialColumn (items : List Row) (field : String) : Column :=
  items.foldl (fun col row =>
    match row.find? field with
    | none => col.appendNull
    | some v => col.appendOrPromote v) (.blank (initialType items field) 0)

/-- `ColumnFrame(common, items)`. -/
def ofItems (common : Row) (items : List Row) : ColumnFrame where
  common := common
  items := (fieldOrder items).foldl (fun s field => s.setColumn field (initialColumn items field)) (.empty items.length)

/-! ### Writing -/

/-- The fields of one added item, and `_source` for a recall. -/
def writeAddedItem (op : String) (isRecall : Bool) (idx : Nat) (added : Row) (s : TypedColumnStore) :
    Outcome PineError TypedColumnStore :=
  (Outcome.forEach (fun w => Outcome.checked (addedFieldError op w) fun s => s.writeItemField idx w.1 w.2)
    added.entries s).andThen fun s =>
      .ok (if isRecall then s.writeItemField idx "_source" (.string op) else s)

def addItems (op : String) (isRecall : Bool) (added : List Row) (s : TypedColumnStore) :
    Outcome PineError TypedColumnStore :=
  Outcome.forEach (fun p => writeAddedItem op isRecall (s.rowCount + p.2) p.1) added.zipIdx
    (s.extendRows added.length)

def store : ItemStore TypedColumnStore where
  rowCount := TypedColumnStore.rowCount
  writeField idx field value s := s.writeItemField idx field value
  writeColumn field vals s := s.writeColumn field vals
  removeRows removed s := s.removeRows removed
  reorderRows order s := s.reorderRows order
  addItems := addItems

def applyOutput (f : ColumnFrame) (out : OperatorOutput) (op : String) (isRecall : Bool) :
    Outcome PineError ColumnFrame :=
  applyOutputWith store out op isRecall f

/-! ### Reading -/

/-- The store index that `index` of the frame (no window) or of a window view stands for. -/
def rowIndex? (f : ColumnFrame) (window : Option Window) (index : Nat) : Option Nat :=
  match window with
  | some w => if w.count ≤ index then none else some (w.offset + index)
  | none => if f.items.rowCount ≤ index then none else some index

def itemCount (f : ColumnFrame) (window : Option Window) : Nat :=
  match window with
  | some w => w.count
  | none => f.items.rowCount

def item (f : ColumnFrame) (window : Option Window) (index : Nat) (field : String) : Variant :=
  match f.rowIndex? window index, f.items.column field with
  | some i, some col => if col.isNull i then .null else col.get i
  | _, _ => .null

def itemHas (f : ColumnFrame) (window : Option Window) (index : Nat) (field : String) : Bool :=
  match f.rowIndex? window index, f.items.column field with
  | some i, some col => col.isPresent i
  | _, _ => false

def itemColumn (f : ColumnFrame) (window : Option Window) (field : String) : List Variant :=
  match f.items.column field with
  | none => List.replicate (f.itemCount window) .null
  | some col => (List.range (f.itemCount window)).map fun i =>
    let idx := (window.elim 0 Window.offset) + i
    if col.isNull idx then .null else col.get idx

/-- `item_object`: the present fields of an item, a null too. -/
def itemObject (f : ColumnFrame) (window : Option Window) (index : Nat) : Row :=
  match f.rowIndex? window index with
  | some i => projectRow f.items.cols.keys fun field =>
      (f.items.column field).bind fun col => if col.isPresent i then some (col.get i) else none
  | none => ∅

/-- Field by field: a field without a column fails at item 0, also when there are no items. -/
def validateStrictItems (f : ColumnFrame) (window : Option Window) (fields : List String) : Option (String × Nat) :=
  fields.findSome? fun field =>
    match f.items.column field with
    | none => some (field, 0)
    | some col => (List.range (f.itemCount window)).findSome? fun i =>
      if col.isNull ((window.elim 0 Window.offset) + i) then some (field, i) else none

/-- The `Frame` a reader of the frame itself (no window) or of a window view has. -/
def view (f : ColumnFrame) (window : Option Window) : Frame where
  common field := (f.common.find? field).getD .null
  hasCommon := f.common.contains
  itemCount := f.itemCount window
  item := f.item window
  itemHas := f.itemHas window
  itemColumn := f.itemColumn window
  validateStrictItems := f.validateStrictItems window

def makeWindowView (f : ColumnFrame) (rowOffset rowCount : Nat) : Except PineError Frame :=
  if rowOffset + rowCount > f.items.rowCount then
    .error (.error ("ColumnFrame::make_window_view: window (" ++ toString rowOffset ++ ", " ++ toString rowCount ++
      ") exceeds parent row count " ++ toString f.items.rowCount))
  else .ok (f.view (some ⟨rowOffset, rowCount⟩))

def toResult (f : ColumnFrame) (commonOut itemOut : List String) : Result where
  common := projectRow commonOut f.common.find?
  items := (List.range f.items.rowCount).map fun i => projectRow itemOut fun field =>
    (f.items.column field).bind fun col => if col.isPresent i then some (col.get i) else none

end ColumnFrame

/-! ## Choosing the storage (`make_frame`) -/

/-- A frame of either storage. -/
inductive AnyFrame where
  | row (f : RowFrame)
  | column (f : ColumnFrame)

/-- Only the literal `column` selects column storage. -/
def makeFrame (storageMode : String) (common : Row) (items : List Row) : AnyFrame :=
  if storageMode = "column" then .column (.ofItems common items) else .row ⟨common, items, []⟩

end Pineapple
