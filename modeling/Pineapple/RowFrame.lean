import Pineapple.Frame

/-! # Row storage (`row_frame.cpp`)

Every item is a map from its fields to their values. -/

namespace Pineapple

/-- `RowFrame`: a frame that owns its rows. A window view of it is a `RowFrame.view`. -/
abbrev RowFrame := FrameState (List Row)

/-- The fields of `fields` that `get` has, as a row. -/
def projectRow (fields : List String) (get : String → Option Variant) : Row :=
  fields.foldl (fun row field => (get field).elim row fun v => row.insert field v) ∅

namespace RowFrame

/-! ## Writing -/

/-- The row an addition pushes. -/
def addedRow (op : String) (isRecall : Bool) (added : Row) : Row :=
  if isRecall then added.insert "_source" (.string op) else added

def addItems (op : String) (isRecall : Bool) (added : List Row) (rows : List Row) : Outcome PineError (List Row) :=
  Outcome.forEach (fun row => Outcome.checked (row.entries.findSome? (addedFieldError op)) fun rows =>
    rows ++ [addedRow op isRecall row]) added rows

def store : ItemStore (List Row) where
  rowCount := List.length
  writeField idx field value rows := rows.modify idx fun row => row.insert field value
  writeColumn field vals rows := List.zipWith (fun row d => row.insert field (.number d)) rows vals
  removeRows := dropRows
  reorderRows := gatherRows
  addItems := addItems

def applyOutput (f : RowFrame) (out : OperatorOutput) (op : String) (isRecall : Bool) : Outcome PineError RowFrame :=
  applyOutputWith store out op isRecall f

/-! ## Reading -/

/-- The row a frame (no window) or a window view has at `index`. -/
def rowAt? (f : RowFrame) (window : Option Window) (index : Nat) : Option Row :=
  match window with
  | some w => if w.count ≤ index then none else f.items[w.offset + index]?
  | none => f.items[index]?

def itemCount (f : RowFrame) (window : Option Window) : Nat :=
  match window with
  | some w => w.count
  | none => f.items.length

def item (f : RowFrame) (window : Option Window) (index : Nat) (field : String) : Variant :=
  match f.rowAt? window index with
  | some row => (row.find? field).getD .null
  | none => .null

def itemHas (f : RowFrame) (window : Option Window) (index : Nat) (field : String) : Bool :=
  match f.rowAt? window index with
  | some row => row.contains field
  | none => false

def itemColumn (f : RowFrame) (window : Option Window) (field : String) : List Variant :=
  (List.range (f.itemCount window)).map fun i =>
    match f.rowAt? window i with
    | some row => (row.find? field).getD .null
    | none => .null

/-- `item_object`: the fields of an item that are not null. -/
def itemObject (f : RowFrame) (window : Option Window) (index : Nat) : Row :=
  match f.rowAt? window index with
  | some row => projectRow row.keys fun field => (row.find? field).filter fun v => !v.isNull
  | none => ∅

/-- Field by field, item by item: the field is absent or null. -/
def validateStrictItems (f : RowFrame) (window : Option Window) (fields : List String) : Option (String × Nat) :=
  fields.findSome? fun field => (List.range (f.itemCount window)).findSome? fun i =>
    match (f.rowAt? window i).bind (·.find? field) with
    | none => some (field, i)
    | some v => if v.isNull then some (field, i) else none

/-- The `Frame` a reader of the frame itself (no window) or of a window view has. -/
def view (f : RowFrame) (window : Option Window) : Frame where
  common field := (f.common.find? field).getD .null
  hasCommon := f.common.contains
  itemCount := f.itemCount window
  item := f.item window
  itemHas := f.itemHas window
  itemColumn := f.itemColumn window
  validateStrictItems := f.validateStrictItems window

def makeWindowView (f : RowFrame) (rowOffset rowCount : Nat) : Except PineError Frame :=
  if rowOffset + rowCount > f.items.length then
    .error (.error ("RowFrame::make_window_view: window (" ++ toString rowOffset ++ ", " ++ toString rowCount ++
      ") exceeds parent row count " ++ toString f.items.length))
  else .ok (f.view (some ⟨rowOffset, rowCount⟩))

/-- `to_result`: an explicit null stays, an absent field does not. -/
def toResult (f : RowFrame) (commonOut itemOut : List String) : Result where
  common := projectRow commonOut f.common.find?
  items := f.items.map fun row => projectRow itemOut row.find?

end RowFrame

end Pineapple
