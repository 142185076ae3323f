import Pineapple.Lib.InPlace
import Pineapple.Variant

/-! # Typed columns (`column.hpp`, `column.cpp`)

A column stores one field of all items: the values in an array of the column's type and a presence
bit for each. A typed column refuses values of another kind, its caller then promotes it to a JSON
column. The four `TypedColumn<T>` and `JsonColumn` differ in what they accept and how a stored value
reads, which `ColumnType.codec` says. -/

namespace Pineapple

inductive ColumnType where
  | int64 | double | string | bool | json
deriving DecidableEq

/-- What a column of `α` accepts, how it reads a stored value back, and `T{}`. -/
structure CellCodec (α : Type) where
  encode : Variant → Option α
  decode : α → Variant
  blank : α

namespace ColumnType

/-- The `T` of a `TypedColumn<T>`. The integers of an `int64` column are those its `set` lets in. -/
abbrev Elem : ColumnType → Type
  | int64 => Int
  | double => Binary64
  | string => String
  | bool => Bool
  | json => Variant

/-- `set`, `append` and `get` of `Int64Column`: `static_cast<int64_t>` in, `static_cast<double>` out. -/
def int64Codec : CellCodec Int where
  encode v := if v.isIntegralNumber then (match v with | .number (.finite f) => some f.toInt | _ => none) else none
  decode i := .number (Binary64.ofInt i)
  blank := 0

def doubleCodec : CellCodec Binary64 where
  encode | .number d => some d | _ => none
  decode := .number
  blank := Binary64.zero

def stringCodec : CellCodec String where
  encode | .string s => some s | _ => none
  decode := .string
  blank := ""

def boolCodec : CellCodec Bool where
  encode | .bool b => some b | _ => none
  decode := .bool
  blank := false

/-- A JSON column takes every value, a null too. -/
def jsonCodec : CellCodec Variant where
  encode := some
  decode := id
  blank := .null

def codec : (t : ColumnType) → CellCodec t.Elem
  | int64 => int64Codec
  | double => doubleCodec
  | string => stringCodec
  | bool => boolCodec
  | json => jsonCodec

end ColumnType

/-- `TypedColumn<T>`, or `JsonColumn` for `Variant`. -/
structure TypedColumn (α : Type) where
  data : List α
  validity : List Bool
  sizes : validity.length = data.length

namespace TypedColumn
variable {α : Type}

/-- The column of `n` absent slots. -/
def blank (codec : CellCodec α) (n : Nat) : TypedColumn α :=
  ⟨List.replicate n codec.blank, List.replicate n false, by simp⟩

def size (c : TypedColumn α) : Nat := c.data.length

def isPresent (c : TypedColumn α) (i : Nat) : Bool := c.validity.getD i false

def get (codec : CellCodec α) (c : TypedColumn α) (i : Nat) : Variant :=
  if c.isPresent i then (c.data[i]?.map codec.decode).getD .null else .null

/-- Nothing when the column does not take the value. -/
def set (codec : CellCodec α) (c : TypedColumn α) (i : Nat) (v : Variant) : Option (TypedColumn α) :=
  match codec.encode v with
  | none => none
  | some x => if i < c.size then some ⟨c.data.set i x, c.validity.set i true, by simpa using c.sizes⟩ else none

def append (codec : CellCodec α) (c : TypedColumn α) (v : Variant) : Option (TypedColumn α) :=
  (codec.encode v).map fun x => ⟨c.data ++ [x], c.validity ++ [true], by simpa using c.sizes⟩

def appendNull (codec : CellCodec α) (c : TypedColumn α) : TypedColumn α :=
  ⟨c.data ++ [codec.blank], c.validity ++ [false], by simpa using c.sizes⟩

/-- The two `compact_with_bitmap` calls. -/
def removeWithBitmap (codec : CellCodec α) (c : TypedColumn α) (bitmap : List Bool) (keptCount : Nat) : TypedColumn α :=
  ⟨InPlace.compact codec.blank bitmap keptCount c.data, InPlace.compact false bitmap keptCount c.validity, by simp⟩

/-- `reorder_in_place`. Its walk depends on the order alone, so the two arrays take the same one. -/
def reorder (c : TypedColumn α) (order : List Int) : TypedColumn α :=
  ⟨InPlace.reorder (order.map Int.toNat) c.data, InPlace.reorder (order.map Int.toNat) c.validity,
    by simpa using c.sizes⟩

def toJsonColumn (codec : CellCodec α) (c : TypedColumn α) : TypedColumn Variant :=
  ⟨List.zipWith (fun x present => if present then codec.decode x else .null) c.data c.validity, c.validity,
    by simp [c.sizes]⟩

/-- Take `vals` as the whole column, all present. -/
def adopt (vals : List α) : TypedColumn α := ⟨vals, List.replicate vals.length true, by simp⟩

end TypedColumn

/-- `Column`: a column with its type. -/
structure Column where
  type : ColumnType
  col : TypedColumn type.Elem

namespace Column

def blank (t : ColumnType) (n : Nat) : Column := ⟨t, .blank t.codec n⟩

def size (c : Column) : Nat := c.col.size

def isPresent (c : Column) (i : Nat) : Bool := c.col.isPresent i

def get (c : Column) (i : Nat) : Variant := c.col.get c.type.codec i

/-- Absent, or a null that only a JSON column can hold. -/
def isNull : Column → Nat → Bool
  | ⟨.json, c⟩, i => !c.isPresent i || (c.get ColumnType.jsonCodec i).isNull
  | ⟨_, c⟩, i => !c.isPresent i

def set (c : Column) (i : Nat) (v : Variant) : Option Column := (c.col.set c.type.codec i v).map (⟨c.type, ·⟩)

def append (c : Column) (v : Variant) : Option Column := (c.col.append c.type.codec v).map (⟨c.type, ·⟩)

def appendNull (c : Column) : Column := ⟨c.type, c.col.appendNull c.type.codec⟩

def removeWithBitmap (c : Column) (bitmap : List Bool) (keptCount : Nat) : Column :=
  ⟨c.type, c.col.removeWithBitmap c.type.codec bitmap keptCount⟩

def reorder (c : Column) (order : List Int) : Column := ⟨c.type, c.col.reorder order⟩

def toJsonColumn : Column → Column
  | ⟨.json, c⟩ => ⟨.json, c⟩
  | ⟨t, c⟩ => ⟨.json, c.toJsonColumn t.codec⟩

/-- Set, in the promoted column when this one does not take the value. -/
def setOrPromote (c : Column) (i : Nat) (v : Variant) : Column :=
  match c.set i v with
  | some c => c
  | none => (c.toJsonColumn.set i v).getD c.toJsonColumn

/-- Append, to the promoted column when this one does not take the value. -/
def appendOrPromote (c : Column) (v : Variant) : Column :=
  match c.append v with
  | some c => c
  | none => (c.toJsonColumn.append v).getD c.toJsonColumn

end Column

/-! ## Choosing a column type -/

def candidateOf : Variant → ColumnType
  | .bool _ => .bool
  | .number d => if (Variant.number d).isIntegralNumber then .int64 else .double
  | .string _ => .string
  | _ => .json

/-- The probe of `make_column`: nothing is `Cand::Unknown`. -/
def probeFrom : Option ColumnType → List Variant → Option ColumnType
  | cand, [] => cand
  | cand, v :: vs =>
    if v.isNull then probeFrom cand vs
    else match cand with
      | none => probeFrom (some (candidateOf v)) vs
      | some c =>
        if c = candidateOf v then probeFrom (some c) vs
        else if c = .int64 ∧ candidateOf v = .double ∨ c = .double ∧ candidateOf v = .int64 then
          probeFrom (some .double) vs
        else some .json

def makeColumn (values : List Variant) : Column :=
  values.foldl Column.appendOrPromote (.blank ((probeFrom none values).getD .json) 0)

end Pineapple
