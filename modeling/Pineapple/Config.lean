import Mathlib.Data.String.Basic
import Pineapple.Variant

/-! # Configuration loading and sub-flow expansion (`pine.hpp`, `config.cpp`)

`loadConfigFromJson` starts from the parsed root object. The registry of operator types is a parameter:
the loader reads each type's category and row-set markers from it and nothing else. -/

namespace Pineapple

structure Metadata where
  commonInput : List String := []
  commonInputSkip : List String := []
  commonInputTemplate : List String := []
  commonOutput : List String := []
  itemInput : List String := []
  itemOutput : List String := []
deriving DecidableEq

/-- `common_read_fields`: business, skip and template fields in that order, each once. -/
def Metadata.commonReadFields (m : Metadata) : List String :=
  if m.commonInputSkip = [] ∧ m.commonInputTemplate = [] then m.commonInput
  else
    let add (out src : List String) := src.foldl (fun out f => if f ∈ out then out else out ++ [f]) out
    add (add (add [] m.commonInput) m.commonInputSkip) m.commonInputTemplate

structure OperatorConfig where
  name : String := ""
  typeName : String := ""
  metadata : Metadata := {}
  skip : List String := []
  «recall» : Bool := false
  consumesRowSet : Bool := false
  mutatesRowSet : Bool := false
  additiveWritesRowSet : Bool := false
  concurrentSafe : Bool := false
  debug : Option Bool := none
  forBranchControl : Bool := false
  commonDefaults : SortedMap String Variant := ∅
  itemDefaults : SortedMap String Variant := ∅
  strictCommon : List String := []
  strictItem : List String := []
  sources : List String := []
  params : Variant := .null
  operatorType : String := ""
  dataParallel : Int := 0
deriving DecidableEq

structure FlowContract where
  commonInput : List String := []
  itemInput : List String := []
  commonOutput : List String := []
  itemOutput : List String := []
deriving DecidableEq

structure ResourceEntry where
  type : String := ""
  interval : Int := 0
  params : Variant := .null
deriving DecidableEq

structure Config where
  operators : SortedMap String OperatorConfig := ∅
  pipelineMap : SortedMap String (List String) := ∅
  pipelineGroup : SortedMap String (List String) := ∅
  flowContract : FlowContract := {}
  storageMode : String := "row"
  debug : Bool := false
  logPrefix : String := ""
  pineappleVersion : String := ""
  pineappleCreateTime : String := ""
  resourceConfig : SortedMap String ResourceEntry := ∅
deriving DecidableEq

structure ExpandedSequence where
  sequence : List String := []
  opToSubflow : SortedMap String String := ∅
deriving DecidableEq

/-! ## The operator registry -/

inductive OperatorType where
  | «recall» | transform | filter | merge | reorder | observe
deriving DecidableEq

/-- `op_type_to_string`. -/
def OperatorType.toString : OperatorType → String
  | «recall» => "recall"
  | transform => "transform"
  | filter => "filter"
  | merge => "merge"
  | reorder => "reorder"
  | observe => "observe"

/-- What a registered operator type tells the loader. -/
structure RegistryEntry where
  type : OperatorType
  consumesRowSet : Bool := false
  mutatesRowSet : Bool := false
  additiveWritesRowSet : Bool := false
  concurrentSafe : Bool := false

/-- `registry_entry`. -/
abbrev Registry := String → Option RegistryEntry

def applyRegistryTrait (registry : Registry) (name : String) (op : OperatorConfig) :
    Except PineError OperatorConfig :=
  match registry op.typeName with
  | none => .error (.registry ("operator \"" ++ name ++ "\": operator type not registered: \"" ++ op.typeName ++ "\""))
  | some entry => .ok { op with
      operatorType := entry.type.toString
      consumesRowSet := op.consumesRowSet || entry.consumesRowSet
      mutatesRowSet := op.mutatesRowSet || entry.mutatesRowSet
      additiveWritesRowSet := op.additiveWritesRowSet || entry.additiveWritesRowSet
      concurrentSafe := op.concurrentSafe || entry.concurrentSafe }

def applyRegistryTraits (registry : Registry) (config : Config) : Except PineError Config := do
  let operators ← config.operators.entries.foldlM (fun m e => do
    return m.insert e.1 (← applyRegistryTrait registry e.1 e.2)) config.operators
  return { config with operators }

/-! ## Parsing -/

def asStringList (obj : List (String × Variant)) (key : String) : Except PineError (List String) :=
  match obj.lookup key with
  | none => .ok []
  | some v => do (← v.asArray).mapM Variant.asString

def asValueMap (obj : List (String × Variant)) (key : String) : Except PineError (SortedMap String Variant) :=
  match obj.lookup key with
  | none => .ok ∅
  | some v => do return SortedMap.ofList (← v.asObject)

def parseMetadata (obj : List (String × Variant)) : Except PineError Metadata :=
  match obj.lookup "$metadata" with
  | none => .error (.config "operator missing $metadata")
  | some v => do
    let mo ← v.asObject
    return {
      commonInput := ← asStringList mo "common_input"
      commonInputSkip := ← asStringList mo "common_input_skip"
      commonInputTemplate := ← asStringList mo "common_input_template"
      commonOutput := ← asStringList mo "common_output"
      itemInput := ← asStringList mo "item_input"
      itemOutput := ← asStringList mo "item_output" }

def parseSkip (obj : List (String × Variant)) : Except PineError (List String) :=
  match obj.lookup "skip" with
  | none => .ok []
  | some (.string s) => .ok (if s = "" then [] else [s])
  | some v => do (← v.asArray).mapM Variant.asString

/-- A flag the loader reads where it is a bool and leaves alone where it is anything else. -/
def boolField (obj : List (String × Variant)) (key : String) : Option Bool :=
  match obj.lookup key with
  | some (.bool b) => some b
  | _ => none

/-- `static_cast<int>` of a JSON number, which is finite. -/
def castInt : Binary64 → Int
  | .finite f => f.toInt
  | _ => 0

def intField (obj : List (String × Variant)) (key : String) : Option Int :=
  match obj.lookup key with
  | some (.number d) => some (castInt d)
  | _ => none

/-- The keys `parse_operator` keeps out of `params`. -/
def reservedKeys : List String :=
  ["type_name", "$metadata", "$code_info", "skip", "recall", "sources", "debug", "consumes_row_set",
   "mutates_row_set", "additive_writes_row_set", "common_defaults", "item_defaults", "strict_common",
   "strict_item", "for_branch_control", "data_parallel"]

def parseOperator (name : String) (value : Variant) : Except PineError OperatorConfig := do
  let obj ← value.asObject
  let typeName ← match obj.lookup "type_name" with
    | none => .error (.config ("operator \"" ++ name ++ "\": missing type_name"))
    | some v => v.asString
  return {
    name
    typeName
    metadata := ← parseMetadata obj
    skip := ← parseSkip obj
    «recall» := (boolField obj "recall").getD false
    consumesRowSet := (boolField obj "consumes_row_set").getD false
    mutatesRowSet := (boolField obj "mutates_row_set").getD false
    additiveWritesRowSet := (boolField obj "additive_writes_row_set").getD false
    debug := boolField obj "debug"
    forBranchControl := (boolField obj "for_branch_control").getD false
    dataParallel := (intField obj "data_parallel").getD 0
    commonDefaults := ← asValueMap obj "common_defaults"
    itemDefaults := ← asValueMap obj "item_defaults"
    strictCommon := ← asStringList obj "strict_common"
    strictItem := ← asStringList obj "strict_item"
    sources := ← asStringList obj "sources"
    params := .object (SortedMap.ofList (obj.filter (fun e => e.1 ∉ reservedKeys))).entries }

/-! ## Validation -/

def validateStorageMode (mode : String) : Except PineError Unit :=
  if mode ≠ "" ∧ mode ≠ "row" ∧ mode ≠ "column" then
    .error (.config ("storage_mode \"" ++ mode ++ "\" is invalid, must be \"row\" or \"column\""))
  else .ok ()

/-- The characters `\w` matches. -/
def isWordChar (c : Char) : Bool := c.isAlphanum || c = '_'

/-- `is_bare_marker`: the whole string is `\x7b\x7bfield\x7d\x7d` for a nonempty word. -/
def isBareMarker (s : String) : Bool :=
  match s.toList with
  | '{' :: '{' :: rest =>
    match rest.reverse with
    | '}' :: '}' :: field => !field.isEmpty && field.all isWordChar
    | _ => false
  | _ => false

/-- A parameter that must be a number or a bare marker, if it is there at all. -/
def requireNumericParam (name key : String) (params : List (String × Variant)) : Except PineError (Option Binary64) :=
  match params.lookup key with
  | none => .ok none
  | some (.string s) =>
    if isBareMarker s then .ok none else .error (.registry ("operator \"" ++ name ++ "\": " ++ key ++ " must be numeric"))
  | some (.number d) => .ok (some d)
  | some _ => .error (.registry ("operator \"" ++ name ++ "\": " ++ key ++ " must be numeric"))

def validateSkip (name : String) (op : OperatorConfig) (skip : String) : Except PineError Unit :=
  if skip.toList.head? ≠ some '_' then
    .error (.config ("operator \"" ++ name ++ "\": skip field \"" ++ skip ++
      "\" must start with '_' (control fields are engine-internal)"))
  else if skip ∉ op.metadata.commonInput ∧ skip ∉ op.metadata.commonInputSkip then
    .error (.config ("operator \"" ++ name ++ "\": skip field \"" ++ skip ++
      "\" must also appear in $metadata.common_input or $metadata.common_input_skip to ensure correct DAG ordering"))
  else .ok ()

/-- The checks of `validate_config` on the parameters of single operator types. -/
def validateParams (name : String) (op : OperatorConfig) : Except PineError Unit := do
  if op.typeName = "filter_condition" then
    match op.params with
    | .object ps =>
      if (ps.lookup "value").isNone then
        throw (.registry ("operator \"" ++ name ++ "\": required parameter \"value\" missing for operator \"" ++ name ++ "\""))
    | _ =>
      throw (.registry ("operator \"" ++ name ++ "\": required parameter \"value\" missing for operator \"" ++ name ++ "\""))
  if op.typeName = "filter_truncate" then
    match ← requireNumericParam name "top_n" (← op.params.asObject) with
    | none => pure ()
    | some d =>
      if d.isNegative then
        throw (.registry ("operator \"" ++ name ++ "\": filter_truncate: top_n must be non-negative, got " ++
          toString (castInt d)))
  if op.typeName = "reorder_sort" then
    match (← op.params.asObject).lookup "order" with
    | some (.string order) =>
      if order ≠ "asc" ∧ order ≠ "desc" then
        throw (.registry ("operator \"" ++ name ++ "\": unsupported order \"" ++ order ++ "\""))
    | _ => pure ()
  if op.typeName = "transform_redis_set" then
    let _ ← requireNumericParam name "ttl" (← op.params.asObject)

def validateDataParallel (name : String) (op : OperatorConfig) : Except PineError Unit := do
  if op.dataParallel < 0 then
    throw (.validation ("operator \"" ++ name ++ "\": data_parallel must be >= 1, got " ++ toString op.dataParallel))
  if 1 < op.dataParallel then
    if op.operatorType ≠ "transform" then
      throw (.validation ("operator \"" ++ name ++ "\": data_parallel=" ++ toString op.dataParallel ++
        " is only supported for Transform operators, got " ++ op.operatorType))
    if op.metadata.commonOutput ≠ [] then
      throw (.validation ("operator \"" ++ name ++ "\": data_parallel=" ++ toString op.dataParallel ++
        " requires empty $metadata.common_output for Transform operators"))
    if !op.concurrentSafe then
      throw (.validation ("operator \"" ++ name ++ "\": data_parallel=" ++ toString op.dataParallel ++
        " requires the operator to implement ConcurrentSafe interface (type \"" ++ op.typeName ++ "\" does not)"))

def validateOperator (config : Config) (name : String) (op : OperatorConfig) : Except PineError Unit := do
  op.skip.forM (validateSkip name op)
  op.sources.forM fun src =>
    if config.operators.contains src then .ok ()
    else .error (.config ("operator \"" ++ name ++ "\": sources references undefined operator \"" ++ src ++ "\""))
  if op.additiveWritesRowSet && op.mutatesRowSet then
    throw (.registry ("operator \"" ++ name ++ "\": additive_writes_row_set and mutates_row_set are mutually exclusive"))
  validateParams name op
  validateDataParallel name op

def validateConfig (config : Config) : Except PineError Unit := do
  if config.operators.entries = [] then throw (.config "pipeline_config.operators is empty")
  if config.pipelineGroup.entries = [] then throw (.config "pipeline_group is empty")
  config.operators.entries.forM fun e => validateOperator config e.1 e.2
  config.operators.entries.forM fun e =>
    if config.pipelineMap.contains e.1 then
      .error (.config ("name \"" ++ e.1 ++ "\" exists in both operators and pipeline_map"))
    else .ok ()

/-! ## The loader -/

def requireObj (parent : List (String × Variant)) (key : String) : Except PineError (List (String × Variant)) :=
  match parent.lookup key with
  | none => .error (.config ("missing required top-level field \"" ++ key ++ "\""))
  | some v => v.asObject

/-- A root string field: absent and null leave the default, another type is refused. -/
def requireString (parent : List (String × Variant)) (key : String) : Except PineError (Option String) :=
  match parent.lookup key with
  | none | some .null => .ok none
  | some (.string s) => .ok (some s)
  | some _ => .error (.config ("config field \"" ++ key ++ "\" must be a string"))

def parseResourceEntry (name : String) (entry : Variant) : Except PineError ResourceEntry :=
  match entry with
  | .object eo => .ok {
      type := match eo.lookup "type" with
        | some (.string s) => s
        | _ => ""
      interval := (intField eo "interval").getD 0
      params := (eo.lookup "params").getD .null }
  | _ => .error (.config ("resource_config entry \"" ++ name ++ "\" must be an object"))

/-- Parse the members of an object into a map, one by one in key order. -/
def parseMap {α : Type} (parse : String → Variant → Except PineError α) (es : List (String × Variant)) :
    Except PineError (SortedMap String α) :=
  es.foldlM (fun m e => do return m.insert e.1 (← parse e.1 e.2)) ∅

def parseFlowContract (root : List (String × Variant)) : Except PineError FlowContract :=
  match root.lookup "flow_contract" with
  | some (.object flow) => do
    return {
      commonInput := ← asStringList flow "common_input"
      itemInput := ← asStringList flow "item_input"
      commonOutput := ← asStringList flow "common_output"
      itemOutput := ← asStringList flow "item_output" }
  | _ => .ok {}

def parsePipeline (_ : String) (value : Variant) : Except PineError (List String) := do
  asStringList (← value.asObject) "pipeline"

/-- `load_config_from_json`, from the parsed document on. -/
def loadConfigFromJson (registry : Registry) (json : Variant) : Except PineError Config := do
  let root ← json.asObject
  let pineappleVersion := (← requireString root "_PINEAPPLE_VERSION").getD ""
  let pineappleCreateTime := (← requireString root "_PINEAPPLE_CREATE_TIME").getD ""
  let storageMode := (← requireString root "storage_mode").getD "row"
  let logPrefix := (← requireString root "log_prefix").getD ""
  validateStorageMode storageMode
  let resourceConfig ← match root.lookup "resource_config" with
    | some (.object es) => parseMap parseResourceEntry es
    | _ => .ok ∅
  let flowContract ← parseFlowContract root
  let pipelineGroup ← parseMap parsePipeline (← requireObj root "pipeline_group")
  let pipelineConfig ← requireObj root "pipeline_config"
  let pipelineMap ← match pipelineConfig.lookup "pipeline_map" with
    | none => .ok ∅
    | some v => do parseMap parsePipeline (← v.asObject)
  let operators ← match pipelineConfig.lookup "operators" with
    | none => .error (.config "missing required top-level field \"pipeline_config.operators\"")
    | some v => do parseMap parseOperator (← v.asObject)
  let config ← applyRegistryTraits registry {
    operators, pipelineMap, pipelineGroup, flowContract, storageMode, logPrefix, pineappleVersion,
    pineappleCreateTime, resourceConfig
    debug := (boolField root "debug").getD false }
  validateConfig config
  return config

/-! ## Expansion -/

/-- What `expand_entries` threads through its recursion. -/
structure ExpandState where
  sequence : List String := []
  mapping : SortedMap String String := ∅
  seen : List String := []

/-- One entry of a pipeline; `expandSub` expands the entries of a sub-flow. -/
def expandEntry (config : Config) (parent : String) (visiting : List String)
    (expandSub : List String → String → List String → ExpandState → Except PineError ExpandState)
    (st : ExpandState) (entry : String) : Except PineError ExpandState :=
  if config.operators.contains entry then
    if entry ∈ st.seen then
      .error (.config ("operator \"" ++ entry ++ "\" referenced more than once in pipeline tree"))
    else .ok {
      sequence := st.sequence ++ [entry]
      mapping := st.mapping.insert entry parent
      seen := entry :: st.seen }
  else match config.pipelineMap.find? entry with
    | some entries =>
      if entry ∈ visiting then .error (.config ("cycle detected in sub-flow expansion: \"" ++ entry ++ "\""))
      else expandSub entries entry (entry :: visiting) st
    | none => .error (.config ("pipeline entry \"" ++ entry ++ "\" is neither an operator nor a sub-flow"))

/-- `expand_entries`. Every nested call adds a sub-flow to `visiting`, so a depth above the number of
sub-flows is never reached (`expandEntries_depth`). -/
def expandEntries (config : Config) : Nat → List String → String → List String → ExpandState →
    Except PineError ExpandState
  | 0, _, _, _, st => .ok st
  | depth + 1, entries, parent, visiting, st =>
    entries.foldlM (expandEntry config parent visiting (expandEntries config depth)) st

/-- `expand_operator_sequence_with_subflows`. -/
def expandOperatorSequenceWithSubflows (config : Config) : Except PineError ExpandedSequence := do
  let rootEntries ← match config.pipelineGroup.find? "main" with
    | some entries => .ok entries
    | none => match config.pipelineGroup.entries with
      | [(_, entries)] => .ok entries
      | _ => .error (.config "pipeline_group must contain a \"main\" entry or exactly one entry")
  let st ← expandEntries config (config.pipelineMap.entries.length + 1) rootEntries "" [] {}
  return ⟨st.sequence, st.mapping⟩

end Pineapple
