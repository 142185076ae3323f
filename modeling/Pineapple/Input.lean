import Pineapple.Config
import Pineapple.Frame

/-! # Operator inputs (`operator_input.cpp`)

`compute_input_field_spec` sorts an operator's declared fields into required, defaulted and nullable
ones. `build_operator_input` checks a frame against them, before the operator reads it lazily. -/

namespace Pineapple

structure InputFieldSpec where
  strictCommon : List String := []
  defaultedCommon : List (String × Variant) := []
  nullableCommon : List String := []
  strictItem : List String := []
  defaultedItem : List (String × Variant) := []
  nullableItem : List String := []
  /-- The fields hidden from the operator. -/
  excludedCommon : List String := []
deriving DecidableEq

/-- The bucket of one field: with a default, required, or nullable. -/
def bucketField (defaults : SortedMap String Variant) (strict : List String) (field : String)
    (buckets : List (String × Variant) × List String × List String) :
    List (String × Variant) × List String × List String :=
  match defaults.find? field with
  | some value => (buckets.1 ++ [(field, value)], buckets.2.1, buckets.2.2)
  | none =>
    if field ∈ strict then (buckets.1, buckets.2.1 ++ [field], buckets.2.2)
    else (buckets.1, buckets.2.1, buckets.2.2 ++ [field])

def computeInputFieldSpec (config : OperatorConfig) : InputFieldSpec :=
  let skipSet := config.skip ++ config.metadata.commonInputSkip ++ config.metadata.commonInputTemplate
  let common := (config.metadata.commonInput.filter fun field => field ∉ skipSet).foldl
    (fun buckets field => bucketField config.commonDefaults config.strictCommon field buckets) ([], [], [])
  let item := config.metadata.itemInput.foldl
    (fun buckets field => bucketField config.itemDefaults config.strictItem field buckets) ([], [], [])
  { strictCommon := common.2.1
    defaultedCommon := common.1
    nullableCommon := common.2.2
    strictItem := item.2.1
    defaultedItem := item.1
    nullableItem := item.2.2
    excludedCommon := skipSet }

/-! ## Validation -/

/-- What makes a frame unfit for a specification. -/
inductive InputViolation where
  | nilCommon (field : String)
  | missingCommon (field : String)
  | nilItem (field : String) (item : Nat)
  | missingItem (field : String) (item : Nat)
deriving DecidableEq

def InputViolation.message : InputViolation → String
  | nilCommon field => "required field \"" ++ field ++ "\" is nil in common"
  | missingCommon field => "required field \"" ++ field ++ "\" is missing in common"
  | nilItem field i => "required field \"" ++ field ++ "\" is nil on item[" ++ toString i ++ "]"
  | missingItem field i => "required field \"" ++ field ++ "\" is missing on item[" ++ toString i ++ "]"

namespace Frame

/-- Window 1: required and then nullable common fields. -/
def commonViolation (frame : Frame) (spec : InputFieldSpec) : Option InputViolation :=
  (spec.strictCommon.findSome? fun field =>
    if (frame.common field).isNull then some (.nilCommon field) else none).or
  (spec.nullableCommon.findSome? fun field =>
    if !frame.hasCommon field then some (.missingCommon field) else none)

/-- The batch scan of the required item fields. -/
def strictItemViolation (frame : Frame) (spec : InputFieldSpec) : Option InputViolation :=
  if spec.strictItem.isEmpty then none
  else (frame.validateStrictItems spec.strictItem).map fun bad => .nilItem bad.1 bad.2

/-- Window 2: nullable item fields, field by field. -/
def nullableItemViolation (frame : Frame) (spec : InputFieldSpec) : Option InputViolation :=
  spec.nullableItem.findSome? fun field => (List.range frame.itemCount).findSome? fun i =>
    if !frame.itemHas i field then some (.missingItem field i) else none

/-- The first violation `build_operator_input` finds. -/
def inputViolation (frame : Frame) (spec : InputFieldSpec) : Option InputViolation :=
  (frame.commonViolation spec).or ((frame.strictItemViolation spec).or (frame.nullableItemViolation spec))

end Frame

/-! ## The lazy proxy -/

/-- `OperatorInput`: the frame seen through the specification. -/
structure OperatorInput where
  frame : Frame
  spec : InputFieldSpec

namespace OperatorInput

def defaultOf (defaults : List (String × Variant)) (field : String) : Variant :=
  ((defaults.find? fun d => d.1 = field).map Prod.snd).getD .null

def common (input : OperatorInput) (field : String) : Variant :=
  if field ∈ input.spec.excludedCommon then .null
  else
    let v := input.frame.common field
    if v.isNull then defaultOf input.spec.defaultedCommon field else v

def itemCount (input : OperatorInput) : Nat := input.frame.itemCount

def item (input : OperatorInput) (index : Nat) (field : String) : Variant :=
  if input.itemCount ≤ index then .null
  else
    let v := input.frame.item index field
    if v.isNull then defaultOf input.spec.defaultedItem field else v

def itemColumn (input : OperatorInput) (field : String) : List Variant :=
  (input.frame.itemColumn field).map fun v =>
    if v.isNull then defaultOf input.spec.defaultedItem field else v

end OperatorInput

def buildOperatorInput (frame : Frame) (op : String) (spec : InputFieldSpec) : Except PineError OperatorInput :=
  match frame.inputViolation spec with
  | some violation => .error (.execution op violation.message)
  | none => .ok ⟨frame, spec⟩

end Pineapple
