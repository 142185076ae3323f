import Mathlib.Data.String.Basic
import Pineapple.Lib.Outcome
import Pineapple.Variant

/-! # The frame interface and operator outputs (`frame.hpp`, `pine.hpp`)

A request's data is a frame: the common fields and the items. `Frame` is what a reader sees through
the virtual interface. An operator leaves its writes in an `OperatorOutput`, and `apply_output` plays
them on the frame phase by phase. The two storages run the same phases with the same checks, so the
phases are written once over an `ItemStore`, the primitive operations of a storage. -/

namespace Pineapple

/-- `Variant::object_t`: the fields of one item, or the common fields. -/
abbrev Row := SortedMap String Variant

/-- `Result`: what `to_result` projects for the caller. -/
structure Result where
  common : Row
  items : List Row
deriving DecidableEq

/-- The read side of the `Frame` interface. -/
structure Frame where
  common : String → Variant
  hasCommon : String → Bool
  itemCount : Nat
  item : Nat → String → Variant
  itemHas : Nat → String → Bool
  itemColumn : String → List Variant
  /-- The first violation (field, item), if there is one. -/
  validateStrictItems : List String → Option (String × Nat)

/-- The span of a window view over its parent's items. -/
structure Window where
  offset : Nat
  count : Nat
deriving DecidableEq

/-! ## Operator outputs -/

structure ItemWrite where
  index : Int
  field : String
  value : Variant
deriving DecidableEq

/-- A whole column: `vals[i]` becomes the field's value on item `i`. -/
structure DoubleColumnWrite where
  field : String
  vals : List Binary64
deriving DecidableEq

structure OperatorOutput where
  commonWrites : Row := ∅
  itemWrites : List ItemWrite := []
  columnWrites : List DoubleColumnWrite := []
  addedItems : List Row := []
  /-- `std::set<int>`. -/
  removedItems : SortedMap Int Unit := ∅
  itemOrder : Option (List Int) := none
  warning : Option String := none
deriving DecidableEq

instance : Inhabited OperatorOutput := ⟨{}⟩

/-! ## The checks of `apply_output` -/

def commonWriteError (op : String) (w : String × Variant) : Option PineError :=
  (validateFrameValue w.1 w.2).map fun v => .execution op ("common write: " ++ v)

/-- An index outside `[0, n)`. -/
def OutOfRange (n : Nat) (idx : Int) : Prop := idx < 0 ∨ n ≤ idx.toNat

instance (n : Nat) (idx : Int) : Decidable (OutOfRange n idx) := inferInstanceAs (Decidable (_ ∨ _))

def itemWriteError (op : String) (n : Nat) (w : ItemWrite) : Option PineError :=
  if OutOfRange n w.index then
    some (.execution op ("SetItem index " ++ toString w.index ++ " out of range [0, " ++ toString n ++ ")"))
  else (validateFrameValue w.field w.value).map fun v =>
    .execution op ("item[" ++ toString w.index ++ "] write: " ++ v)

def columnWriteError (op : String) (n : Nat) (cw : DoubleColumnWrite) : Option PineError :=
  if cw.vals.length ≠ n then
    some (.execution op ("SetItemColumnFloat64 \"" ++ cw.field ++ "\" length " ++ toString cw.vals.length ++
      " does not match item count " ++ toString n))
  else (cw.vals.findIdx? fun d => !d.isFinite).map fun i =>
    .execution op ("item[" ++ toString i ++ "] write: field \"" ++ cw.field ++
      "\": NaN/Inf is not a valid JSON value")

def removalError (op : String) (n : Nat) (removed : List Int) : Option PineError :=
  removed.findSome? fun idx =>
    if OutOfRange n idx then
      some (.execution op ("RemoveItem index " ++ toString idx ++ " out of range [0, " ++ toString n ++ ")"))
    else none

/-- The permutation scan: every index in range and not `seen` before. -/
def scanOrder (op : String) (n : Nat) : (seen : List Bool) → List Int → Option PineError
  | _, [] => none
  | seen, idx :: rest =>
    if OutOfRange n idx then
      some (.execution op ("SetItemOrder index " ++ toString idx ++ " out of range [0, " ++ toString n ++ ")"))
    else if seen.getD idx.toNat false then
      some (.execution op ("SetItemOrder duplicate index " ++ toString idx ++ " (order must be a permutation)"))
    else scanOrder op n (seen.set idx.toNat true) rest

def orderError (op : String) (n : Nat) (order : List Int) : Option PineError :=
  if order.length ≠ n then
    some (.execution op ("SetItemOrder length " ++ toString order.length ++ " does not match item count " ++
      toString n))
  else scanOrder op n (List.replicate n false) order

def addedFieldError (op : String) (w : String × Variant) : Option PineError :=
  (validateFrameValue w.1 w.2).map fun v => .execution op ("added item write: " ++ v)

/-! ## The phases of `apply_output` -/

/-- The primitive mutations of an item storage. `apply_output` has checked their arguments. -/
structure ItemStore (σ : Type) where
  rowCount : σ → Nat
  writeField : Nat → String → Variant → σ → σ
  writeColumn : String → List Binary64 → σ → σ
  removeRows : List Int → σ → σ
  reorderRows : List Int → σ → σ
  /-- The additions phase, with the operator's name and whether it is a recall. -/
  addItems : String → Bool → List Row → σ → Outcome PineError σ

/-- A frame over the item storage `σ`. -/
structure FrameState (σ : Type) where
  common : Row
  items : σ
  warnings : List String := []
deriving DecidableEq

variable {σ : Type}

def applyCommonWrites (op : String) (writes : List (String × Variant)) (s : FrameState σ) :
    Outcome PineError (FrameState σ) :=
  Outcome.forEach (fun w => Outcome.checked (commonWriteError op w) fun s =>
    { s with common := s.common.insert w.1 w.2 }) writes s

def applyItemWrites (S : ItemStore σ) (op : String) (writes : List ItemWrite) (s : FrameState σ) :
    Outcome PineError (FrameState σ) :=
  Outcome.forEach (fun w s => Outcome.checked (itemWriteError op (S.rowCount s.items) w) (fun s =>
    { s with items := S.writeField w.index.toNat w.field w.value s.items }) s) writes s

def applyColumnWrites (S : ItemStore σ) (op : String) (writes : List DoubleColumnWrite) (s : FrameState σ) :
    Outcome PineError (FrameState σ) :=
  Outcome.forEach (fun cw s => Outcome.checked (columnWriteError op (S.rowCount s.items) cw) (fun s =>
    { s with items := S.writeColumn cw.field cw.vals s.items }) s) writes s

def applyRemovals (S : ItemStore σ) (op : String) (removed : List Int) (s : FrameState σ) :
    Outcome PineError (FrameState σ) :=
  if removed.isEmpty then .ok s
  else Outcome.checked (removalError op (S.rowCount s.items) removed) (fun s =>
    { s with items := S.removeRows removed s.items }) s

def applyReorder (S : ItemStore σ) (op : String) (order? : Option (List Int)) (s : FrameState σ) :
    Outcome PineError (FrameState σ) :=
  match order? with
  | none => .ok s
  | some order => Outcome.checked (orderError op (S.rowCount s.items) order) (fun s =>
    { s with items := S.reorderRows order s.items }) s

def applyAdditions (S : ItemStore σ) (op : String) (isRecall : Bool) (added : List Row) (s : FrameState σ) :
    Outcome PineError (FrameState σ) :=
  if added.isEmpty then .ok s
  else (S.addItems op isRecall added s.items).map fun items => { s with items := items }

def applyWarning (op : String) (warning : Option String) (s : FrameState σ) : Outcome PineError (FrameState σ) :=
  match warning with
  | none => .ok s
  | some msg => .ok { s with warnings := s.warnings ++ ["operator \"" ++ op ++ "\": " ++ msg] }

/-- `apply_output` over a storage. -/
def applyOutputWith (S : ItemStore σ) (out : OperatorOutput) (op : String) (isRecall : Bool) (s : FrameState σ) :
    Outcome PineError (FrameState σ) :=
  applyCommonWrites op out.commonWrites.entries s
    |>.andThen (applyItemWrites S op out.itemWrites)
    |>.andThen (applyColumnWrites S op out.columnWrites)
    |>.andThen (applyRemovals S op out.removedItems.keys)
    |>.andThen (applyReorder S op out.itemOrder)
    |>.andThen (applyAdditions S op isRecall out.addedItems)
    |>.andThen (applyWarning op out.warning)

/-! ## Rows as a list -/

/-- The elements whose positions are not `removed`. -/
def dropRows {α : Type} (removed : List Int) (xs : List α) : List α :=
  (xs.zipIdx.filter fun p => !removed.contains (p.2 : Int)).map Prod.fst

/-- `xs[order[0]], xs[order[1]], …`. -/
def gatherRows {α : Type} (order : List Int) (xs : List α) : List α :=
  order.filterMap fun idx => xs[idx.toNat]?

end Pineapple
