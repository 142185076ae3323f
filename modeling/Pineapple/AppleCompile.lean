import Pineapple.AppleFlow

/-! # From a flow to its operators (`apple/compiler.py`)

`traverse` lists the operators of a flow and of its sub-flows in declaration order. In a sub-flow the control fields
get the path as a prefix, and every operator inherits the guards of the branch the sub-flow was added in. -/

namespace Pineapple.Apple

/-- Replace one name by another. -/
def renamed (old new s : String) : String := if s = old then new else s

def LuaName.rename (old new : String) : LuaName → LuaName
  | .bare f => if f = old then .global new else .bare f
  | .global f => .global f

/-- What a renaming does to the text of a script: a field in parentheses becomes `_G["…"]`. -/
def renameText (old new text : String) : String := text.replace ("(" ++ old ++ ")") ("(_G[\"" ++ new ++ "\"])")

def Param.rename (old new : String) : Param → Param
  | .value (.string s) => .value (.string (renameText old new s))
  | .value v => .value v
  | .script s =>
    .script { prior := s.prior.map (LuaName.rename old new), condition := s.condition.map (renameText old new) }

/-- `_rename_field`. -/
def OpCall.renameField (old new : String) (op : OpCall) : OpCall :=
  { op with
    skip := op.skip.map (renamed old new)
    commonInput := op.commonInput.map (renamed old new)
    commonInputSkip := op.commonInputSkip.map (renamed old new)
    commonInputTemplate := op.commonInputTemplate.map (renamed old new)
    commonOutput := op.commonOutput.map (renamed old new)
    params := op.params.map fun e => if e.1 = "lua_script" then (e.1, e.2.rename old new) else e }

/-- `path.replace("/", "::") + "::"`. -/
def pathPrefix (path : String) : String :=
  String.ofList ((path.toList.flatMap fun c => if c = '/' then [':', ':'] else [c]) ++ [':', ':'])

/-- The state of the loop of `_rename_control_fields`. -/
structure Renaming where
  ops : List OpCall
  renames : SortedMap String String := ∅

/-- One round of the loop of `_rename_control_fields`, for the operator at `idx`. -/
def Renaming.step (path : String) (st : Renaming) (idx : Nat) : Renaming :=
  match st.ops[idx]? with
  | none => st
  | some op =>
    if op.forBranchControl && op.name != "" then
      match op.commonOutput.head? with
      | none => st
      | some old =>
        let new := "_" ++ (pathPrefix path ++ op.name)
        if old = new then st
        else {
          ops := (st.ops.map (OpCall.renameField old new)).modify idx fun op =>
            { op with name := pathPrefix path ++ op.name }
          renames := st.renames.insert old new }
    else st

/-- `_rename_control_fields`. -/
def renameControlFields (path : String) (localOps : List OpCall) : Renaming :=
  if path = "" then { ops := localOps }
  else (List.range localOps.length).foldl (Renaming.step path) { ops := localOps }

/-- `renames.get(field, field)`. -/
def Renaming.field (r : Renaming) (field : String) : String := (r.renames.find? field).getD field

/-- The fields that the markers of a parameter name. -/
def Param.markedFields (word : Char → Bool) (p : Param) : List String :=
  match p.toVariant with
  | .string s => extractFields word s
  | _ => []

/-- The first pass of `_traverse`: the fields that templated parameters name are read. -/
def OpCall.injectTemplates (word : Char → Bool) (op : OpCall) : OpCall :=
  { op with
    commonInputTemplate := (op.params.flatMap fun e => e.2.markedFields word).foldl (fun fields f =>
      if f ∈ op.commonInput ∨ f ∈ fields then fields else fields ++ [f]) op.commonInputTemplate }

/-- `_collect_exclusion_groups`. -/
def collectExclusionGroups (info : FlowInfo) (r : Renaming) : List (List String) :=
  (info.closedBlocks.map fun block => (block.branches.map fun b => r.field b.ctrlField).dedup).filter
    fun group => 1 < group.length

/-- An entry of a pipeline: an operator by its place in `all_ops`, or a sub-flow by its path. -/
inductive Entry where
  | op (globalIdx : Nat)
  | sf (path : String)
deriving DecidableEq

/-- What `_traverse` collects. -/
structure Traversal where
  allOps : List OpCall := []
  structures : SortedMap String (List Entry) := ∅
  exclusionGroups : List (List String) := []

/-- The operators of a node after the passes of `_traverse` that change them, and the renaming of its fields. -/
def localOps (env : Env) (path : String) (inheritedSkips : List String) (children : List Child) :
    List OpCall × Renaming :=
  let r := renameControlFields path ((children.filterMap Child.op?).map (OpCall.injectTemplates env.word))
  (r.ops.map fun op => { op with subflowPath := path }.applySkipFields inheritedSkips, r)

/-- The end of `_traverse` on a node. -/
def Traversal.leave (st : Traversal) (info : FlowInfo) (r : Renaming) (path : String) (entries : List Entry) :
    Traversal :=
  { st with
    exclusionGroups := st.exclusionGroups ++ collectExclusionGroups info r
    structures := st.structures.insert path entries }

/-- `f"{path}/{sf._name}" if path else sf._name`. -/
def subPath (path name : String) : String := if path = "" then name else path ++ "/" ++ name

mutual

/-- A sub-flow of the node at `path`. -/
def traverseChild (env : Env) (path : String) (inheritedSkips : List String) (r : Renaming) :
    Child → List OpCall → Traversal → Except PyError (Traversal × Entry × List OpCall)
  | .op _, [], st => .ok (st, .op st.allOps.length, [])
  | .op _, op :: ops, st => .ok ({ st with allOps := st.allOps ++ [op] }, .op st.allOps.length, ops)
  | .sf info children, ops, st => do
    let sfPath := subPath path info.name
    if st.structures.contains sfPath then
      .error (.validationError ("duplicate SubFlow path: " ++ env.repr sfPath))
    else
      let childSkips := inheritedSkips ++ info.parentSkips.map r.field
      let lr := localOps env sfPath childSkips children
      let (st, entries) ← traverseChildren env sfPath childSkips lr.2 children lr.1 st
      return (st.leave info lr.2 sfPath entries, .sf sfPath, ops)

/-- The second pass of `_traverse`; the operators of the node come in the order of its children. -/
def traverseChildren (env : Env) (path : String) (inheritedSkips : List String) (r : Renaming) :
    List Child → List OpCall → Traversal → Except PyError (Traversal × List Entry)
  | [], _, st => .ok (st, [])
  | child :: children, ops, st => do
    let (st, entry, ops) ← traverseChild env path inheritedSkips r child ops st
    let (st, entries) ← traverseChildren env path inheritedSkips r children ops st
    return (st, entry :: entries)

end

/-- `_traverse` on the flow itself. -/
def traverse (env : Env) (flow : FlowBase) : Except PyError Traversal := do
  let lr := localOps env "" [] flow.children
  let (st, entries) ← traverseChildren env "" [] lr.2 flow.children lr.1 {}
  return st.leave flow.info lr.2 "" entries

/-! ## `compile_flow` up to the names -/

mutual

/-- The nodes at and below an entry with blocks that are still open. -/
def unclosed : Child → List FlowInfo
  | .op _ => []
  | .sf info children => (if info.ctrlStack = [] then [] else [info]) ++ uncloseds children

def uncloseds : List Child → List FlowInfo
  | [] => []
  | child :: children => unclosed child ++ uncloseds children

end

/-- `_check_unclosed_control`. -/
def checkUnclosedControl (env : Env) (flow : FlowBase) : Except PyError Unit :=
  match ((if flow.info.ctrlStack = [] then [] else [flow.info]) ++ uncloseds flow.children).head? with
  | none => .ok ()
  | some info => .error (.validationError ("unclosed if_ block in " ++ env.repr info.name ++
      ": missing end_if_() for " ++ toString info.ctrlStack.length ++ " block(s)"))

/-- `unique_name`. -/
def OpCall.uniqueName (env : Env) (op : OpCall) : String :=
  if op.name ≠ "" then op.name else op.typeName ++ "_" ++ env.hash6 op

/-- `named_ops` and `name_counts`. -/
structure Naming where
  namedOps : List (String × OpCall) := []
  nameCounts : SortedMap String Nat := ∅

/-- One round of the loop of `compile_flow` that names the operators. -/
def Naming.add (env : Env) (st : Naming) (op : OpCall) : Except PyError Naming :=
  let name := op.uniqueName env
  match st.nameCounts.find? name with
  | none => .ok { namedOps := st.namedOps ++ [(name, op)], nameCounts := st.nameCounts.insert name 0 }
  | some n =>
    if op.name ≠ "" then .error (.validationError ("duplicate explicit operator name: " ++ env.repr name))
    else .ok {
      namedOps := st.namedOps ++ [(name ++ "_" ++ toString (n + 1), op)]
      nameCounts := st.nameCounts.insert name (n + 1) }

/-- The first three steps of `compile_flow`: what the validators are given. -/
def compiledOps (env : Env) (flow : FlowBase) : Except PyError (List (String × OpCall) × Traversal) := do
  checkUnclosedControl env flow
  let t ← traverse env flow
  let naming ← t.allOps.foldlM (Naming.add env) {}
  return (naming.namedOps, t)

end Pineapple.Apple
