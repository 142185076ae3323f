import Pineapple.Config
import Pineapple.Lib.Digraph

/-! # Building the operator DAG (`dag.cpp`)

`scanFields` walks the sequence once for the common fields and once for the item fields together with the
pseudo field `_row_set_`, keeping one tracker per field; `buildDag` adds the declared sources, checks for a
cycle and drops the edges that another path covers. A node is its position in the sequence. -/

namespace Pineapple

def kRowSet : String := "_row_set_"

structure Node where
  name : String
  subflow : String
  config : OperatorConfig
  preds : List Nat := []
  succs : List Nat := []
deriving DecidableEq

structure Graph where
  nodes : List Node := []
  nameToIndex : SortedMap String Nat := ∅
deriving DecidableEq

namespace Graph

def succs (g : Graph) (u : Nat) : List Nat := (g.nodes[u]?.map Node.succs).getD []

def preds (g : Graph) (u : Nat) : List Nat := (g.nodes[u]?.map Node.preds).getD []

/-- `v` directly follows `u`. -/
def Edge (g : Graph) (u v : Nat) : Prop := v ∈ g.succs u

instance (g : Graph) (u v : Nat) : Decidable (g.Edge u v) := inferInstanceAs (Decidable (_ ∈ _))

/-- `add_edge`. -/
def addEdge (g : Graph) (src dst : Nat) : Graph :=
  if src = dst then g
  else if dst ∈ g.succs src then g
  else { g with
    nodes := (g.nodes.modify src fun n => { n with succs := n.succs ++ [dst] }).modify dst
      fun n => { n with preds := n.preds ++ [src] } }

def addEdges (g : Graph) (srcs : List Nat) (dst : Nat) : Graph := srcs.foldl (fun g src => g.addEdge src dst) g

end Graph

/-! ## The field trackers -/

structure FieldTracker where
  lastMutWriter : Option Nat := none
  additiveWriters : List Nat := []
  activeReaders : List Nat := []

/-- The graph under construction and `trackers`, where a field not seen yet has the empty tracker. -/
structure ScanState where
  graph : Graph
  trackers : String → FieldTracker := fun _ => {}

/-- Operator `i` reads `field`. -/
def ScanState.read (st : ScanState) (i : Nat) (field : String) : ScanState :=
  let tr := st.trackers field
  { graph := (st.graph.addEdges tr.lastMutWriter.toList i).addEdges tr.additiveWriters i
    trackers := Function.update st.trackers field { tr with activeReaders := tr.activeReaders ++ [i] } }

/-- Operator `i` adds to `field` without disturbing what is there. -/
def ScanState.additiveWrite (st : ScanState) (i : Nat) (field : String) : ScanState :=
  let tr := st.trackers field
  { graph := (st.graph.addEdges tr.lastMutWriter.toList i).addEdges (tr.activeReaders.filter (· ≠ i)) i
    trackers := Function.update st.trackers field { tr with additiveWriters := tr.additiveWriters ++ [i] } }

/-- Operator `i` overwrites `field`. -/
def ScanState.mutatingWrite (st : ScanState) (i : Nat) (field : String) : ScanState :=
  let tr := st.trackers field
  { graph := ((st.graph.addEdges tr.lastMutWriter.toList i).addEdges tr.additiveWriters i).addEdges
      (tr.activeReaders.filter (· ≠ i)) i
    trackers := Function.update st.trackers field { lastMutWriter := some i } }

namespace OperatorConfig

/-- Whether the pass over item fields treats the operator's writes as additive. -/
def additive (op : OperatorConfig) (common : Bool) : Bool := !common && op.additiveWritesRowSet

/-- The fields `scan_fields` counts as read, `_row_set_` included. -/
def scanReads (op : OperatorConfig) (common : Bool) : List String :=
  if common then op.metadata.commonReadFields
  else
    let writes := op.metadata.itemOutput ++ if op.additiveWritesRowSet then [kRowSet] else []
    let reads := op.metadata.itemInput ++ if op.consumesRowSet then [kRowSet] else []
    if !op.additiveWritesRowSet && !op.consumesRowSet && (reads ≠ [] || writes ≠ []) then reads ++ [kRowSet]
    else reads

/-- The fields `scan_fields` counts as written before it looks at `mutates_row_set`. -/
def scanWrites (op : OperatorConfig) (common : Bool) : List String :=
  if common then op.metadata.commonOutput
  else op.metadata.itemOutput ++ if op.additiveWritesRowSet then [kRowSet] else []

end OperatorConfig

/-- One round of the loop of `scan_fields`. -/
def scanNode (common : Bool) (st : ScanState) (i : Nat) (op : OperatorConfig) : ScanState :=
  let st := (op.scanReads common).foldl (fun st field => st.read i field) st
  let st := (op.scanWrites common).foldl
    (fun st field => if op.additive common then st.additiveWrite i field else st.mutatingWrite i field) st
  if !common && op.mutatesRowSet then st.mutatingWrite i kRowSet else st

/-- `scan_fields`. -/
def scanFields (graph : Graph) (common : Bool) : Graph :=
  ((graph.nodes.map Node.config).zipIdx.foldl (fun st e => scanNode common st e.2 e.1) { graph }).graph

/-! ## Transitive reduction -/

/-- `reachable_without`: is there a way from `src` to `dst` other than the direct edge? Every round takes a
node off the queue and a node is put on it once, so the rounds below are enough (`reachableWithout_iff`). -/
def reachableWithout (g : Graph) (src dst : Nat) : Bool :=
  let first := (g.succs src).filter (· ≠ dst)
  Digraph.search g.succs dst (first.length + g.nodes.length + 1) (first.reverse ++ [src]) first

/-- `kept`: the edges no other way covers. -/
def keptEdges (g : Graph) : List (Nat × Nat) :=
  (List.range g.nodes.length).flatMap fun u =>
    ((g.succs u).filter fun v => !reachableWithout g u v).map fun v => (u, v)

def clearEdges (g : Graph) : Graph := { g with nodes := g.nodes.map fun n => { n with preds := [], succs := [] } }

/-- `reduce`. -/
def reduce (g : Graph) : Graph := (keptEdges g).foldl (fun g e => g.addEdge e.1 e.2) (clearEdges g)

/-! ## The cycle check -/

/-- The queue loop of `topological_check`: the in-degrees left and the number of nodes seen. -/
def topologicalLoop (g : Graph) : Nat → List Int → List Nat → Nat → List Int × Nat
  | 0, indegree, _, seen => (indegree, seen)
  | _ + 1, indegree, [], seen => (indegree, seen)
  | fuel + 1, indegree, current :: queue, seen =>
    let next := (g.succs current).foldl (fun (iq : List Int × List Nat) s =>
      let d := iq.1.getD s 0 - 1
      (iq.1.set s d, if d = 0 then iq.2 ++ [s] else iq.2)) (indegree, queue)
    topologicalLoop g fuel next.1 next.2 (seen + 1)

/-- `topological_check`. -/
def topologicalCheck (g : Graph) : Except PineError Unit :=
  let indegree := g.nodes.map fun n => (n.preds.length : Int)
  let queue := (List.range g.nodes.length).filter fun i => indegree.getD i 0 = 0
  let r := topologicalLoop g (g.nodes.length + 1) indegree queue 0
  if r.2 = g.nodes.length then .ok ()
  else
    let cycleNodes := (g.nodes.zip r.1).filterMap fun e => if 0 < e.2 then some e.1.name else none
    .error (.config ("DAG contains a cycle involving operators: [" ++ " ".intercalate cycleNodes ++ "]"))

/-! ## `build_dag` -/

/-- The first loop of `build_dag`: one node per entry of the sequence, without edges. -/
def makeNodes (config : Config) (expanded : ExpandedSequence) : Except PineError Graph :=
  expanded.sequence.foldlM (fun (g : Graph) name =>
    match config.operators.find? name with
    | none => .error (.config ("operator \"" ++ name ++ "\" not found"))
    | some op => .ok {
        nodes := g.nodes ++ [{ name, subflow := (expanded.opToSubflow.find? name).getD "", config := op }]
        nameToIndex := g.nameToIndex.insert name g.nodes.length }) {}

/-- The edge a `sources` entry of operator `i` asks for. -/
def addSource (op : OperatorConfig) (i : Nat) (g : Graph) (src : String) : Except PineError Graph :=
  match g.nameToIndex.find? src with
  | none =>
    .error (.config ("operator \"" ++ op.name ++ "\" sources references unknown operator \"" ++ src ++ "\""))
  | some j =>
    if i ≤ j then
      .error (.validation ("operator \"" ++ op.name ++ "\": sources references \"" ++ src ++
        "\" which is declared after the current operator (forward reference)"))
    else .ok (g.addEdge j i)

def addSources (g : Graph) : Except PineError Graph :=
  (g.nodes.map Node.config).zipIdx.foldlM (fun g e => e.1.sources.foldlM (addSource e.1 e.2) g) g

def buildDag (config : Config) (expanded : ExpandedSequence) : Except PineError Graph := do
  let graph ← makeNodes config expanded
  let graph ← addSources (scanFields (scanFields graph true) false)
  topologicalCheck graph
  return reduce graph

end Pineapple
