import Pineapple.Config
import Pineapple.Frame

/-! # The checks an output passes before it is applied (`engine.cpp`, `operator.go`)

An operator may only call the methods of its type and only write the fields its metadata declares. -/

namespace Pineapple

/-- The writers of an `OperatorOutput`. -/
inductive Method where
  | setCommon | setItem | addItem | removeItem | setItemOrder
deriving DecidableEq

def Method.name : Method → String
  | setCommon => "SetCommon"
  | setItem => "SetItem"
  | addItem => "AddItem"
  | removeItem => "RemoveItem"
  | setItemOrder => "SetItemOrder"

def OperatorOutput.calls (out : OperatorOutput) : Method → Bool
  | .setCommon => !out.commonWrites.entries.isEmpty
  | .setItem => !out.itemWrites.isEmpty || !out.columnWrites.isEmpty
  | .addItem => !out.addedItems.isEmpty
  | .removeItem => !out.removedItems.entries.isEmpty
  | .setItemOrder => out.itemOrder.isSome

namespace OperatorType

/-- The type's name in Go and in messages. -/
def display : OperatorType → String
  | «recall» => "Recall"
  | transform => "Transform"
  | filter => "Filter"
  | merge => "Merge"
  | reorder => "Reorder"
  | observe => "Observe"

def all : List OperatorType := [.recall, .transform, .filter, .merge, .reorder, .observe]

def ofString? (s : String) : Option OperatorType := all.find? fun t => t.toString = s

theorem ofString?_toString (t : OperatorType) : ofString? t.toString = some t := by
  cases t <;> decide

def forbidden : OperatorType → List Method
  | «recall» => [.setItem, .removeItem, .setItemOrder]
  | transform => [.addItem, .removeItem, .setItemOrder]
  | filter => [.setCommon, .setItem, .addItem, .setItemOrder]
  | merge => [.setCommon, .addItem, .setItemOrder]
  | reorder => [.setCommon, .setItem, .addItem, .removeItem]
  | observe => [.setCommon, .setItem, .addItem, .removeItem, .setItemOrder]

/-- `OperatorType.ValidateOutput`. -/
def validateOutput (t : OperatorType) (out : OperatorOutput) : Option String :=
  let violations := t.forbidden.filter out.calls
  if violations = [] then none
  else some ("operator type " ++ t.display ++ " must not call [" ++ " ".intercalate (violations.map Method.name) ++ "]")

theorem validateOutput_eq_none {t : OperatorType} {out : OperatorOutput} :
    t.validateOutput out = none ↔ ∀ m ∈ t.forbidden, out.calls m = false := by
  unfold validateOutput
  rw [ite_eq_left_iff, List.filter_eq_nil_iff]
  constructor
  · intro h m hm
    by_contra hc
    exact absurd (h fun hall => hall m hm (Bool.eq_true_of_not_eq_false hc)) nofun
  · intro h hne
    exact absurd (fun m hm hc => absurd hc (by rw [h m hm]; exact Bool.false_ne_true)) hne

end OperatorType

/-- `validate_output_against_type`. -/
def validateOutputAgainstType (opName opType : String) (out : OperatorOutput) : Except PineError Unit :=
  match OperatorType.ofString? opType >>= (·.validateOutput out) with
  | none => .ok ()
  | some violation => .error (.execution opName ("type violation: " ++ violation))

/-! ## Declared fields -/

def sourceField : String := "_source"

/-- `SourceRewriteAllowed`. -/
def sourceRewriteAllowed (mutatesRowSet : Bool) (itemInput : List String) : Bool :=
  mutatesRowSet && itemInput.contains sourceField

/-- The fields, each once and in byte order. -/
def sortedFields (fields : List String) : List String := (SortedMap.ofList (fields.map fun f => (f, ()))).keys

def undeclaredCommonWrites (out : OperatorOutput) (commonOutput : List String) : List String :=
  sortedFields (out.commonWrites.keys.filter (· ∉ commonOutput))

/-- The fields written on items that are there already. -/
def OperatorOutput.existingFields (out : OperatorOutput) : List String :=
  out.itemWrites.map ItemWrite.field ++ out.columnWrites.map DoubleColumnWrite.field

def OperatorOutput.addedFields (out : OperatorOutput) : List String := out.addedItems.flatMap SortedMap.keys

def undeclaredItemWrites (out : OperatorOutput) (itemOutput : List String) (sourceRewrite : Bool) : List String :=
  sortedFields ((out.existingFields.filter (fun f => !(sourceRewrite && f = sourceField)) ++ out.addedFields).filter
    (· ∉ itemOutput))

/-- `ValidateDeclaredOutputs`. -/
def declaredOutputsViolation (out : OperatorOutput) (commonOutput itemOutput : List String) (sourceRewrite : Bool) :
    Option String :=
  let common := undeclaredCommonWrites out commonOutput
  let item := undeclaredItemWrites out itemOutput sourceRewrite
  if common ≠ [] then
    some ("operator wrote undeclared common output field(s) [" ++ " ".intercalate common ++ "]")
  else if item ≠ [] then some ("operator wrote undeclared item output field(s) [" ++ " ".intercalate item ++ "]")
  else none

/-- `validate_declared_outputs`. -/
def validateDeclaredOutputs (opName : String) (op : OperatorConfig) (out : OperatorOutput) : Except PineError Unit :=
  match declaredOutputsViolation out op.metadata.commonOutput op.metadata.itemOutput
    (sourceRewriteAllowed op.mutatesRowSet op.metadata.itemInput) with
  | none => .ok ()
  | some violation => .error (.execution opName ("output contract violation: " ++ violation))

theorem mem_sortedFields {fields : List String} {f : String} : f ∈ sortedFields fields ↔ f ∈ fields := by
  unfold sortedFields
  rw [SortedMap.mem_keys, SortedMap.contains_ofList, List.map_map, List.mem_map]
  exact ⟨fun ⟨_, hg, heq⟩ => heq ▸ hg, fun hf => ⟨f, hf, rfl⟩⟩

theorem sortedFields_eq_nil {fields : List String} : sortedFields fields = [] ↔ ∀ f, f ∉ fields := by
  rw [List.eq_nil_iff_forall_not_mem]
  exact forall_congr' fun f => not_congr mem_sortedFields

theorem undeclaredCommonWrites_eq_nil {out : OperatorOutput} {commonOutput : List String} :
    undeclaredCommonWrites out commonOutput = [] ↔ ∀ f, out.commonWrites.contains f = true → f ∈ commonOutput := by
  unfold undeclaredCommonWrites
  rw [sortedFields_eq_nil]
  refine forall_congr' fun f => ?_
  rw [List.mem_filter, SortedMap.mem_keys, decide_eq_true_iff, not_and_not_right]

theorem undeclaredItemWrites_eq_nil {out : OperatorOutput} {itemOutput : List String} {sourceRewrite : Bool} :
    undeclaredItemWrites out itemOutput sourceRewrite = [] ↔
      (∀ f ∈ out.existingFields, f ∈ itemOutput ∨ (sourceRewrite = true ∧ f = sourceField)) ∧
        ∀ f ∈ out.addedFields, f ∈ itemOutput := by
  unfold undeclaredItemWrites
  rw [sortedFields_eq_nil]
  have hmem : ∀ f, (f ∉ (out.existingFields.filter (fun f => !(sourceRewrite && f = sourceField)) ++
      out.addedFields).filter (· ∉ itemOutput)) ↔
      (f ∈ out.existingFields → f ∈ itemOutput ∨ (sourceRewrite = true ∧ f = sourceField)) ∧
        (f ∈ out.addedFields → f ∈ itemOutput) := by
    intro f
    simp only [List.mem_filter, List.mem_append, Bool.not_eq_true', Bool.and_eq_false_iff, decide_eq_true_iff,
      decide_eq_false_iff_not]
    by_cases hr : sourceRewrite = true <;> by_cases hs : f = sourceField <;> simp only [hr, hs] <;> tauto
  rw [forall_congr' hmem, forall_and]

theorem declaredOutputsViolation_eq_none {out : OperatorOutput} {commonOutput itemOutput : List String}
    {sourceRewrite : Bool} : declaredOutputsViolation out commonOutput itemOutput sourceRewrite = none ↔
      (∀ f, out.commonWrites.contains f = true → f ∈ commonOutput) ∧
      (∀ f ∈ out.existingFields, f ∈ itemOutput ∨ (sourceRewrite = true ∧ f = sourceField)) ∧
        ∀ f ∈ out.addedFields, f ∈ itemOutput := by
  rw [← undeclaredCommonWrites_eq_nil, ← undeclaredItemWrites_eq_nil]
  unfold declaredOutputsViolation
  dsimp only
  split
  · next h => exact iff_of_false nofun fun h' => h h'.1
  · next h =>
    split
    · next h' => exact iff_of_false nofun fun hn => h' hn.2
    · next h' => exact iff_of_true rfl ⟨not_not.mp h, not_not.mp h'⟩

/-! ## The gates together -/

/-- The output passes both gates of an operator of a type. -/
structure OperatorOutput.Passes (out : OperatorOutput) (t : OperatorType) (op : OperatorConfig) : Prop where
  type : t.validateOutput out = none
  declared : declaredOutputsViolation out op.metadata.commonOutput op.metadata.itemOutput
    (sourceRewriteAllowed op.mutatesRowSet op.metadata.itemInput) = none

/-- The two checks of `node_body`. -/
theorem gates_ok_iff {name : String} {t : OperatorType} {op : OperatorConfig} {out : OperatorOutput}
    (ht : op.operatorType = t.toString) :
    (validateOutputAgainstType name op.operatorType out = .ok () ∧ validateDeclaredOutputs name op out = .ok ()) ↔
      out.Passes t op := by
  have htype : validateOutputAgainstType name op.operatorType out = .ok () ↔ t.validateOutput out = none := by
    unfold validateOutputAgainstType
    rw [ht, OperatorType.ofString?_toString, Option.bind_eq_bind, Option.bind_some]
    cases t.validateOutput out with
    | none => exact iff_of_true rfl rfl
    | some v => exact iff_of_false nofun nofun
  have hdeclared : validateDeclaredOutputs name op out = .ok () ↔ declaredOutputsViolation out
      op.metadata.commonOutput op.metadata.itemOutput (sourceRewriteAllowed op.mutatesRowSet op.metadata.itemInput) = none := by
    unfold validateDeclaredOutputs
    split
    · next h => exact iff_of_true rfl h
    · next h => exact iff_of_false nofun (by rw [h]; exact nofun)
  rw [htype, hdeclared]
  exact ⟨fun ⟨h, h'⟩ => ⟨h, h'⟩, fun ⟨h, h'⟩ => ⟨h, h'⟩⟩

end Pineapple
