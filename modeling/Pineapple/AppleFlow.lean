import Mathlib.Data.List.Infix
import Pineapple.Config

/-! # Declaring a flow (`apple/flow.py`, `apple/control.py`, `apple/base.py`)

A flow is written as a sequence of method calls. `OpCall` records one operator, `ControlBlock` one
`if_ … end_if_`; an operator declared inside a branch carries the branch's control field in its `skip` list. What is
generated or comes with Python (`apple_generated.markers`, `md5`, `repr`, the word characters of `re`) is an `Env`. -/

namespace Pineapple.Apple

inductive PyError where
  | valueError (msg : String)
  | validationError (msg : String)
deriving DecidableEq

/-! ## Template markers (`_template_syntax.py`) -/

/-- A marker at the head of the text: the word between `{{` and `}}`. -/
def markerAt? (word : Char → Bool) : List Char → Option (List Char)
  | '{' :: '{' :: rest =>
    let field := rest.takeWhile word
    if field ≠ [] ∧ ['}', '}'] <+: rest.dropWhile word then some field else none
  | _ => none

/-- `extract_fields`. Markers do not overlap, so every place where one begins counts. -/
def extractFields (word : Char → Bool) (value : String) : List String :=
  (value.toList.tails.filterMap fun cs => (markerAt? word cs).map String.ofList).reverse.dedup.reverse

/-- `TEMPLATE_PATTERN.sub(r"\1", …)`, after `skip` more characters of the marker before. -/
def stripMarkers (word : Char → Bool) : Nat → List Char → List Char
  | _, [] => []
  | skip + 1, _ :: cs => stripMarkers word skip cs
  | 0, c :: cs =>
    match markerAt? word (c :: cs) with
    | some field => field ++ stripMarkers word (field.length + 3) cs
    | none => c :: stripMarkers word 0 cs

/-! ## Control scripts -/

inductive BranchKind where
  | «if» | «elseif» | «else»
deriving DecidableEq

def BranchKind.text : BranchKind → String
  | .if => "if"
  | .elseif => "elseif"
  | .else => "else"

/-- How a control script names a field: as a Lua variable, or by `_G["…"]` after a renaming. -/
inductive LuaName where
  | bare (field : String)
  | global (field : String)
deriving DecidableEq

def LuaName.field : LuaName → String
  | .bare f | .global f => f

def LuaName.text : LuaName → String
  | .bare f => "(" ++ f ++ ")"
  | .global f => "(_G[\"" ++ f ++ "\"])"

/-- The Lua function of a control operator, in its parts: the fields of the branches before, and the condition with
the parentheses around it. -/
structure ControlScript where
  prior : List LuaName
  condition : Option String
deriving DecidableEq

/-- `lua_script`. -/
def ControlScript.text (s : ControlScript) : String :=
  "function evaluate() if " ++ " and ".intercalate (s.prior.map LuaName.text ++ s.condition.toList) ++
    " then return false else return true end end"

/-- What Lua returns: `false` where the branch is taken. A name without a value is `nil`. -/
def ControlScript.eval (s : ControlScript) (truthy : String → Bool) (condition : Bool) : Bool :=
  !(s.prior.all (fun n => truthy n.field) && (s.condition.isNone || condition))

/-- A business parameter: a value, or the script of a control operator. -/
inductive Param where
  | value (v : Variant)
  | script (s : ControlScript)

def Param.toVariant : Param → Variant
  | .value v => v
  | .script s => .string s.text

/-! ## Operator calls -/

structure OpCall where
  typeName : String
  params : List (String × Param) := []
  commonInput : List String := []
  commonInputSkip : List String := []
  commonInputTemplate : List String := []
  commonOutput : List String := []
  itemInput : List String := []
  itemOutput : List String := []
  itemDefaults : Option (List (String × Variant)) := none
  commonDefaults : Option (List (String × Variant)) := none
  strictCommon : List String := []
  strictItem : List String := []
  «recall» : Bool := false
  sources : Option (List String) := none
  skip : List String := []
  forBranchControl : Bool := false
  consumesRowSet : Bool := false
  additiveWritesRowSet : Bool := false
  mutatesRowSet : Bool := false
  dataParallel : Int := 0
  debug : Bool := false
  codeInfo : String := ""
  subflowPath : String := ""
  name : String := ""

/-- The row-set markers of an operator type (`apple_generated.markers`). -/
structure Markers where
  consumesRowSet : Bool := false
  additiveWritesRowSet : Bool := false
  mutatesRowSet : Bool := false

structure Env where
  word : Char → Bool
  isSpace : Char → Bool
  markers : String → Markers
  /-- The six hexadecimal digits of `unique_name`. -/
  hash6 : OpCall → String
  repr : String → String

/-- The keyword arguments of an operator call; `params` are those that `_add_op` knows nothing about. -/
structure Kwargs where
  name : String := ""
  commonInput : List String := []
  commonOutput : List String := []
  itemInput : List String := []
  itemOutput : List String := []
  itemDefaults : Option (List (String × Variant)) := none
  commonDefaults : Option (List (String × Variant)) := none
  strictCommon : List String := []
  strictItem : List String := []
  sources : Option (List String) := none
  debug : Bool := false
  dataParallel : Int := 0
  consumesRowSet : Bool := false
  additiveWritesRowSet : Bool := false
  mutatesRowSet : Bool := false
  params : List (String × Variant) := []

/-! ## Control blocks -/

structure ControlBranch where
  kind : BranchKind
  condition : Option String
  ctrlField : String
  ctrlIndex : Nat

structure ControlBlock where
  blockId : Nat
  branches : List ControlBranch := []
  closed : Bool := false

/-- `make_control_op`. -/
def makeControlOp (env : Env) (branch : ControlBranch) (priorCtrlFields : List String) (condition : Option String) :
    OpCall where
  typeName := "transform_by_lua"
  params := [
    ("lua_script", .script {
      prior := priorCtrlFields.map LuaName.bare
      condition := condition.map fun c => "(" ++ String.ofList (stripMarkers env.word 0 c.toList) ++ ")" }),
    ("function_for_item", .value (.string "")), ("function_for_common", .value (.string "evaluate"))]
  commonInput :=
    (priorCtrlFields ++ (condition.map (extractFields env.word)).getD []).reverse.dedup.reverse
  commonOutput := [branch.ctrlField]
  forBranchControl := true
  codeInfo := "[" ++ branch.kind.text ++ "] " ++ condition.getD ""
  name := branch.kind.text ++ "_" ++ toString branch.ctrlIndex

/-! ## Flows -/

/-- The declared lists of a flow or sub-flow. -/
structure Contract where
  commonInput : Option (List String) := none
  commonOutput : Option (List String) := none
  itemInput : Option (List String) := none
  itemOutput : Option (List String) := none
  requiredResources : Option (List String) := none

structure FlowInfo where
  name : String
  contract : Contract := {}
  ctrlCounter : Nat := 0
  ctrlStack : List ControlBlock := []
  closedBlocks : List ControlBlock := []
  parentSkips : List String := []

/-- An entry of `_child_order`, with the operator or sub-flow it stands for. -/
inductive Child where
  | op (call : OpCall)
  | sf (info : FlowInfo) (children : List Child)

structure FlowBase where
  info : FlowInfo
  children : List Child := []

def Child.op? : Child → Option OpCall
  | .op call => some call
  | .sf .. => none

def Child.sf? : Child → Option FlowInfo
  | .op _ => none
  | .sf info _ => some info

namespace FlowBase

/-- `_ops`. -/
def ops (node : FlowBase) : List OpCall := node.children.filterMap Child.op?

end FlowBase

/-- The field of the branch a block is in. -/
def ControlBlock.current (block : ControlBlock) : List String :=
  (block.branches.getLast?.map ControlBranch.ctrlField).toList

/-- `_active_skip_fields`. -/
def FlowInfo.activeSkipFields (info : FlowInfo) (includeCurrent : Bool) : List String :=
  (if includeCurrent then info.ctrlStack else info.ctrlStack.dropLast).flatMap ControlBlock.current

/-- One round of the loop of `_apply_skip_fields`. -/
def OpCall.applySkipField (call : OpCall) (skipField : String) : OpCall :=
  { call with
    skip := if skipField ∈ call.skip then call.skip else call.skip ++ [skipField]
    commonInputSkip :=
      if skipField ∈ call.commonInput ∨ skipField ∈ call.commonInputSkip then call.commonInputSkip
      else call.commonInputSkip ++ [skipField] }

/-- `_apply_skip_fields`. -/
def OpCall.applySkipFields (call : OpCall) (skipFields : List String) : OpCall :=
  skipFields.foldl OpCall.applySkipField call

namespace FlowBase

def addChild (node : FlowBase) (child : Child) : FlowBase := { node with children := node.children ++ [child] }

/-- `_add_op`. -/
def addOp (env : Env) (typeName : String) (kwargs : Kwargs) (node : FlowBase) : FlowBase :=
  let markers := env.markers typeName
  let call : OpCall := {
    typeName
    params := kwargs.params.map fun e => (e.1, .value e.2)
    commonInput := kwargs.commonInput
    commonOutput := kwargs.commonOutput
    itemInput := kwargs.itemInput
    itemOutput := kwargs.itemOutput
    itemDefaults := kwargs.itemDefaults
    commonDefaults := kwargs.commonDefaults
    strictCommon := kwargs.strictCommon
    strictItem := kwargs.strictItem
    «recall» := typeName.startsWith "recall_"
    sources := kwargs.sources
    consumesRowSet := markers.consumesRowSet || kwargs.consumesRowSet
    additiveWritesRowSet := markers.additiveWritesRowSet || kwargs.additiveWritesRowSet
    mutatesRowSet := markers.mutatesRowSet || kwargs.mutatesRowSet
    debug := kwargs.debug
    dataParallel := kwargs.dataParallel
    name := kwargs.name }
  node.addChild (.op (call.applySkipFields (node.info.activeSkipFields true)))

/-- `add_subflow`. -/
def addSubflow (env : Env) (node sf : FlowBase) : Except PyError FlowBase :=
  if '/' ∈ sf.info.name.toList then
    .error (.valueError ("SubFlow name must not contain '/': " ++ env.repr sf.info.name))
  else if [':', ':'] <:+: sf.info.name.toList then
    .error (.valueError ("SubFlow name must not contain '::' (reserved separator): " ++ env.repr sf.info.name))
  else .ok (node.addChild (.sf { sf.info with parentSkips := node.info.activeSkipFields true } sf.children))

/-- Record the control operator of a branch that was just opened, guarded by `parentSkips`. -/
def addControlOp (env : Env) (branch : ControlBranch) (priorFields parentSkips : List String) (node : FlowBase) :
    FlowBase :=
  node.addChild (.op ((makeControlOp env branch priorFields branch.condition).applySkipFields parentSkips))

def blank (env : Env) (condition : String) : Bool := condition.toList.all env.isSpace

/-- `if_`. -/
def if_ (env : Env) (condition : String) (node : FlowBase) : Except PyError FlowBase :=
  if blank env condition then .error (.valueError "if_ condition must not be empty")
  else
    let parentSkips := node.info.activeSkipFields true
    let index := node.info.ctrlCounter + 1
    let branch : ControlBranch :=
      { kind := .if, condition := some condition, ctrlField := "_if_" ++ toString index, ctrlIndex := index }
    let info := { node.info with
      ctrlCounter := index
      ctrlStack := node.info.ctrlStack ++ [{ blockId := index, branches := [branch] }] }
    .ok (addControlOp env branch [] parentSkips { node with info })

/-- What `elseif_` and `else_` do to the block on top of the stack once it may have one more branch. -/
def addBranch (env : Env) (kind : BranchKind) (prefixText : String) (condition : Option String)
    (block : ControlBlock) (node : FlowBase) : FlowBase :=
  let parentSkips := node.info.activeSkipFields false
  let index := node.info.ctrlCounter + 1
  let branch : ControlBranch := { kind, condition, ctrlField := prefixText ++ toString index, ctrlIndex := index }
  let info := { node.info with
    ctrlCounter := index
    ctrlStack := node.info.ctrlStack.dropLast ++ [{ block with branches := block.branches ++ [branch] }] }
  addControlOp env branch (block.branches.map ControlBranch.ctrlField) parentSkips { node with info }

/-- `elseif_`. -/
def elseif_ (env : Env) (condition : String) (node : FlowBase) : Except PyError FlowBase :=
  if blank env condition then .error (.valueError "elseif_ condition must not be empty")
  else match node.info.ctrlStack.getLast? with
    | none => .error (.valueError "elseif_ without matching if_")
    | some block =>
      if block.closed then .error (.valueError "elseif_ after end_if_")
      else if block.branches.any fun b => b.kind = .else then
        .error (.valueError "elseif_ after else_ is not allowed")
      else .ok (addBranch env .elseif "_elif_" (some condition) block node)

/-- `else_`. -/
def else_ (env : Env) (node : FlowBase) : Except PyError FlowBase :=
  match node.info.ctrlStack.getLast? with
  | none => .error (.valueError "else_ without matching if_")
  | some block =>
    if block.closed then .error (.valueError "else_ after end_if_")
    else if block.branches.any fun b => b.kind = .else then .error (.valueError "duplicate else_ is not allowed")
    else .ok (addBranch env .else "_else_" none block node)

/-- `end_if_`. -/
def endIf_ (env : Env) (node : FlowBase) : Except PyError FlowBase :=
  match node.info.ctrlStack.getLast? with
  | none => .error (.valueError "end_if_ without matching if_")
  | some block =>
    let empty := block.branches.find? fun branch =>
      !(node.ops.any fun op => branch.ctrlField ∈ op.skip) &&
        !((node.children.filterMap Child.sf?).any fun sf => branch.ctrlField ∈ sf.parentSkips)
    match empty with
    | some branch => .error (.valueError ("empty " ++ branch.kind.text ++
        " branch: no operators under condition field " ++ env.repr branch.ctrlField))
    | none => .ok { node with info := { node.info with
        ctrlStack := node.info.ctrlStack.dropLast
        closedBlocks := node.info.closedBlocks ++ [{ block with closed := true }] } }

end FlowBase

/-! ## The calls that build a flow -/

inductive Call where
  | op (typeName : String) (kwargs : Kwargs)
  /-- A sub-flow that is built by calls of its own and then added. -/
  | addSubflow (name : String) (contract : Contract) (calls : List Call)
  | if_ (condition : String)
  | elseif_ (condition : String)
  | else_
  | endIf_

mutual

def Call.run (env : Env) : Call → FlowBase → Except PyError FlowBase
  | .op typeName kwargs, node => .ok (node.addOp env typeName kwargs)
  | .addSubflow name contract calls, node => do
    let sf ← runCalls env calls { info := { name, contract } }
    node.addSubflow env sf
  | .if_ condition, node => node.if_ env condition
  | .elseif_ condition, node => node.elseif_ env condition
  | .else_, node => node.else_ env
  | .endIf_, node => node.endIf_ env

def runCalls (env : Env) : List Call → FlowBase → Except PyError FlowBase
  | [], node => .ok node
  | call :: calls, node => do
    let node ← call.run env node
    runCalls env calls node

end

end Pineapple.Apple
