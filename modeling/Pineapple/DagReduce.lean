import Pineapple.TopologicalSort
import Pineapple.Expansion

/-! # The reduced graph (`dag.go`, `DAG.java`, `dag.cpp`)

The edges are tested one by one against the unreduced graph and dropped all at once. `Reduction` says what is left:
the same ways, and no edge too many. The engines of Go and Java check the order of the sources before they build,
the one of C++ while it does. -/

namespace Pineapple
open Relation

/-! ## What the reductions are given -/

/-- `build_dag` up to its cycle check. -/
def unreduced (config : Config) (expanded : ExpandedSequence) : Except PineError Graph := do
  let graph ← makeNodes config expanded
  addSources (scanFields (scanFields graph true) false)

/-- The first loop of `Build`. The engines of Go and Java differ in how they quote a name. -/
def goMakeNodes (quote : String → String) (config : Config) (expanded : ExpandedSequence) : Except PineError Graph :=
  expanded.sequence.foldlM (fun (g : Graph) name =>
    match config.operators.find? name with
    | none => .error (.config ("operator " ++ quote name ++ " not found"))
    | some op => .ok {
        nodes := g.nodes ++ [{ name, subflow := (expanded.opToSubflow.find? name).getD "", config := op }]
        nameToIndex := g.nameToIndex.insert name g.nodes.length }) {}

/-- The edge a `Sources` entry of operator `i` asks for. -/
def goAddSource (quote : String → String) (name : String) (i : Nat) (g : Graph) (src : String) :
    Except PineError Graph :=
  match g.nameToIndex.find? src with
  | none => .error (.config ("operator " ++ quote name ++ " sources references unknown operator " ++ quote src))
  | some srcIdx => .ok (g.addEdge srcIdx i)

def goAddSources (quote : String → String) (g : Graph) : Except PineError Graph :=
  g.nodes.zipIdx.foldlM (fun g e => e.1.config.sources.foldlM (goAddSource quote e.1.name e.2) g) g

/-- `Build` up to its cycle check. -/
def goUnreduced (quote : String → String) (config : Config) (expanded : ExpandedSequence) :
    Except PineError Graph := do
  let graph ← goMakeNodes quote config expanded
  goAddSources quote (scanFields (scanFields graph true) false)

/-! ## `reduce` of `dag.go` and `DAG.java` -/

/-- `reachableWithout`. A node is queued once, so a round for every node is enough. -/
def goReachableWithout (g : Graph) (src dst : Nat) : Bool :=
  let vq := Digraph.enqueue [src] [] ((g.succs src).filter (· ≠ dst))
  Digraph.search g.succs dst (g.nodes.length + 1) vq.1 vq.2

def reducedEdges (g : Graph) : List (Nat × Nat) :=
  (List.range g.nodes.length).flatMap fun u =>
    ((g.succs u).filter fun v => !goReachableWithout g u v).map fun v => (u, v)

/-- An edge that is put back, without a look at what is there. -/
def Graph.appendEdge (g : Graph) (src dst : Nat) : Graph :=
  { g with
    nodes := (g.nodes.modify src fun n => { n with succs := n.succs ++ [dst] }).modify dst
      fun n => { n with preds := n.preds ++ [src] } }

def goReduce (g : Graph) : Graph := (reducedEdges g).foldl (fun g e => g.appendEdge e.1 e.2) (clearEdges g)

/-! ## `Build` and the engines around it -/

/-- `topologicalSort` of `DAG.java`, which prints the names as Java prints a list. -/
def javaTopologicalSort (g : Graph) : Except PineError (List Nat) :=
  let indegree := g.nodes.map fun n => (n.preds.length : Int)
  let queue := (List.range g.nodes.length).filter fun i => indegree.getD i 0 = 0
  let r := Kahn.loop g.succs (g.nodes.length + 1) indegree queue []
  if r.2.length ≠ g.nodes.length then
    .error (.config ("DAG contains a cycle involving operators: [" ++ ", ".intercalate
      ((g.nodes.zip r.1).filterMap fun e => if 0 < e.2 then some e.1.name else none) ++ "]"))
  else .ok r.2

/-- `Build` of `dag.go`. -/
def goBuildDag (quote : String → String) (config : Config) (expanded : ExpandedSequence) : Except PineError Graph := do
  let graph ← goUnreduced quote config expanded
  let _ ← goTopologicalSort graph
  return goReduce graph

/-- `DAG.build`. -/
def javaBuildDag (config : Config) (expanded : ExpandedSequence) : Except PineError Graph := do
  let graph ← goUnreduced plainQuote config expanded
  let _ ← javaTopologicalSort graph
  return goReduce graph

/-- One round of the loop of `validateSourcesOrder`: the names `seen` so far, and the operator `name`. -/
def checkSources (quote : String → String) (config : Config) (seen : List String) (name : String) :
    Except PineError (List String) := do
  let sources := ((config.operators.find? name).map OperatorConfig.sources).getD []
  sources.forM fun src =>
    if src ∈ seen then .ok ()
    else .error (.validation ("operator " ++ quote name ++ ": sources references " ++ quote src ++
      " which is declared after the current operator (forward reference)"))
  return name :: seen

/-- `validateSourcesOrder` of `pine.go` and `Engine.java`. -/
def validateSourcesOrder (quote : String → String) (config : Config) (sequence : List String) :
    Except PineError Unit :=
  (fun _ => ()) <$> sequence.foldlM (checkSources quote config) []

/-- The graph of an engine that `NewEngine` returns. -/
def goEngineGraph (quote : String → String) (config : Config) (expanded : ExpandedSequence) :
    Except PineError Graph := do
  validateSourcesOrder quote config expanded.sequence
  goBuildDag quote config expanded

/-- The graph of an engine that `Engine.create` returns. -/
def javaEngineGraph (config : Config) (expanded : ExpandedSequence) : Except PineError Graph := do
  validateSourcesOrder plainQuote config expanded.sequence
  javaBuildDag config expanded

/-- Every edge leads to a later operator. -/
def Graph.Forward (g : Graph) : Prop := ∀ u v, g.Edge u v → u < v

/-- `g'` has the nodes of `g`, leads wherever `g` leads, and has no edge that could go. -/
structure Reduction (g g' : Graph) : Prop where
  nodes : clearEdges g' = clearEdges g
  reach : ∀ u v, g'.Reach u v ↔ g.Reach u v
  minimal : ∀ u v, g'.Edge u v → ¬ ReflTransGen (fun a b => g'.Edge a b ∧ (a, b) ≠ (u, v)) u v
  shape : GraphShape g'

/-! ## Putting edges back -/

namespace Graph
variable {g : Graph} {src dst : Nat}

@[simp] theorem length_appendEdge (g : Graph) (src dst : Nat) :
    (g.appendEdge src dst).nodes.length = g.nodes.length := by
  simp [appendEdge]

@[simp] theorem clearEdges_appendEdge (g : Graph) (src dst : Nat) :
    clearEdges (g.appendEdge src dst) = clearEdges g := by
  have hmodify : ∀ (f : Node → Node) (i : Nat) (ns : List Node),
      (∀ n, ({ f n with preds := [], succs := [] } : Node) = { n with preds := [], succs := [] }) →
      (ns.modify i f).map (fun n => ({ n with preds := [], succs := [] } : Node)) =
        ns.map fun n => { n with preds := [], succs := [] } := by
    intro f i ns hf
    refine List.ext_getElem? fun j => ?_
    simp only [List.getElem?_map, List.getElem?_modify]
    by_cases h : i = j
    · simp [h, Function.comp_def, hf]
    · simp [h]
  simp only [clearEdges, appendEdge, Graph.mk.injEq, and_true]
  rw [hmodify, hmodify] <;> simp

theorem succs_appendEdge (hsrc : src < g.nodes.length) (u : Nat) :
    (g.appendEdge src dst).succs u = if src = u then g.succs u ++ [dst] else g.succs u := by
  unfold appendEdge
  by_cases hu : src = u
  · subst hu
    rw [if_pos rfl]
    simp only [succs, List.getElem?_modify, if_true]
    by_cases hd : dst = src <;> simp [hd, List.getElem?_eq_getElem hsrc]
  · rw [if_neg hu]
    simp only [succs, List.getElem?_modify, hu, if_false]
    by_cases hd : dst = u <;> cases g.nodes[u]? <;> simp [hd]

theorem preds_appendEdge (hdst : dst < g.nodes.length) (v : Nat) :
    (g.appendEdge src dst).preds v = if dst = v then g.preds v ++ [src] else g.preds v := by
  unfold appendEdge
  by_cases hv : dst = v
  · subst hv
    rw [if_pos rfl]
    simp only [preds, List.getElem?_modify, if_true]
    by_cases hd : src = dst <;> simp [hd, List.getElem?_eq_getElem hdst]
  · rw [if_neg hv]
    simp only [preds, List.getElem?_modify, hv, if_false]
    by_cases hd : src = v <;> cases g.nodes[v]? <;> simp [hd]

/-- An edge that is new is added as it is put back. -/
theorem addEdge_eq_appendEdge (hne : src ≠ dst) (hnew : dst ∉ g.succs src) :
    g.addEdge src dst = g.appendEdge src dst := by
  unfold addEdge
  rw [if_neg hne, if_neg hnew]
  rfl

variable {es : List (Nat × Nat)}

/-- The lists of a graph after edges were put back. -/
theorem foldl_appendEdge (h : ∀ e ∈ es, e.1 < g.nodes.length ∧ e.2 < g.nodes.length) :
    clearEdges (es.foldl (fun g e => g.appendEdge e.1 e.2) g) = clearEdges g ∧
    (∀ u, (es.foldl (fun g e => g.appendEdge e.1 e.2) g).succs u =
      g.succs u ++ (es.filter (·.1 = u)).map Prod.snd) ∧
    ∀ v, (es.foldl (fun g e => g.appendEdge e.1 e.2) g).preds v =
      g.preds v ++ (es.filter (·.2 = v)).map Prod.fst := by
  induction es generalizing g with
  | nil => simp
  | cons e es ih =>
    obtain ⟨hsrc, hdst⟩ := h e List.mem_cons_self
    obtain ⟨hnodes, hsuccs, hpreds⟩ := @ih (g.appendEdge e.1 e.2) fun e' he' => by
      rw [length_appendEdge]
      exact h e' (List.mem_cons_of_mem _ he')
    refine ⟨hnodes.trans (clearEdges_appendEdge g e.1 e.2), fun u => ?_, fun v => ?_⟩
    · rw [List.foldl_cons, hsuccs, succs_appendEdge hsrc]
      by_cases hu : e.1 = u <;> simp [hu]
    · rw [List.foldl_cons, hpreds, preds_appendEdge hdst]
      by_cases hv : e.2 = v <;> simp [hv]

/-- Distinct new edges are added as they are put back. -/
theorem foldl_addEdge_eq (hlt : ∀ e ∈ es, e.1 < g.nodes.length) (hne : ∀ e ∈ es, e.1 ≠ e.2) (hnodup : es.Nodup)
    (hnew : ∀ e ∈ es, e.2 ∉ g.succs e.1) :
    es.foldl (fun g e => g.addEdge e.1 e.2) g = es.foldl (fun g e => g.appendEdge e.1 e.2) g := by
  induction es generalizing g with
  | nil => rfl
  | cons e es ih =>
    obtain ⟨hnot, hnodup⟩ := List.nodup_cons.mp hnodup
    have htail : ∀ e' ∈ es, e' ∈ e :: es := fun _ => List.mem_cons_of_mem _
    rw [List.foldl_cons, List.foldl_cons, addEdge_eq_appendEdge (hne e List.mem_cons_self) (hnew e List.mem_cons_self)]
    refine ih (fun e' he' => ?_) (fun e' he' => hne e' (htail e' he')) hnodup fun e' he' hmem => ?_
    · rw [length_appendEdge]
      exact hlt e' (htail e' he')
    · rw [succs_appendEdge (hlt e List.mem_cons_self)] at hmem
      split at hmem
      · next hsrc =>
        rcases List.mem_append.mp hmem with hmem | hmem
        · exact hnew e' (htail e' he') hmem
        · rw [List.mem_singleton] at hmem
          exact hnot (Prod.ext hsrc hmem.symm ▸ he')
      · exact hnew e' (htail e' he') hmem

end Graph

/-! ## The reduction -/

namespace GraphShape
variable {g : Graph}

theorem consistent (h : GraphShape g) : g.Consistent := by
  intro u v
  rw [(h.preds_nodup v).count, (h.succs_nodup u).count]
  simp only [h.dual]

theorem lt_src (h : GraphShape g) {u v : Nat} (he : g.Edge u v) : u < g.nodes.length ∧ v < g.nodes.length :=
  ⟨Graph.lt_of_mem_succs he, h.lt u v he⟩

/-- The places in a topological order. -/
theorem exists_rank (h : GraphShape g) (hacyclic : g.Acyclic) :
    ∃ rank : Nat → Nat, ∀ u v, g.Edge u v → rank u < rank v := by
  obtain ⟨order, -, -, hforward⟩ := goTopologicalSort_acyclic h.consistent hacyclic
  exact ⟨order.idxOf, hforward⟩

theorem goReachableWithout_iff (h : GraphShape g) (hacyclic : g.Acyclic) {u v : Nat} :
    goReachableWithout g u v = true ↔ ∃ w, g.Edge u w ∧ w ≠ v ∧ g.Reach w v := by
  obtain ⟨rank, hrank⟩ := h.exists_rank hacyclic
  have huniv : ∀ a, ∀ n ∈ g.succs a, n ∈ List.range g.nodes.length := fun a n hn => List.mem_range.mpr (h.lt a n hn)
  have hself : u ∉ g.succs u := fun hu => absurd (hrank u u hu) (lt_irrefl _)
  refine Digraph.search_detour_iff hrank huniv ?_ (fun q => ?_) fun a => ?_
  · have hlength := @Digraph.length_enqueue _ _ (List.range g.nodes.length) ((g.succs u).filter (· ≠ v)) [u] []
      fun n hn => huniv u n (List.mem_of_mem_filter hn)
    have hle := List.length_filter_le (fun x => decide (x ∉ [u])) (List.range g.nodes.length)
    rw [List.length_range] at hle
    unfold Digraph.unvisited at hlength ⊢
    rw [List.length_nil] at hlength
    omega
  · rw [Digraph.mem_enqueue_queue]
    simp only [List.not_mem_nil, false_or, List.mem_filter, decide_eq_true_eq, List.mem_singleton]
    exact ⟨fun hq => hq.1, fun hq => ⟨hq, fun heq => hself (heq ▸ hq.1)⟩⟩
  · rw [Digraph.mem_enqueue_visited, Digraph.mem_enqueue_queue]
    simp only [List.not_mem_nil, false_or, List.mem_singleton]
    tauto

theorem mem_reducedEdges (h : GraphShape g) (hacyclic : g.Acyclic) {u v : Nat} :
    (u, v) ∈ reducedEdges g ↔ g.Edge u v ∧ ¬ ∃ w, g.Edge u w ∧ w ≠ v ∧ g.Reach w v := by
  rw [← h.goReachableWithout_iff hacyclic]
  simp only [reducedEdges, List.mem_flatMap, List.mem_range, List.mem_map, List.mem_filter, Bool.not_eq_true',
    Prod.mk.injEq, Bool.not_eq_true]
  constructor
  · rintro ⟨a, -, b, ⟨hb, hr⟩, rfl, rfl⟩
    exact ⟨hb, hr⟩
  · rintro ⟨he, hr⟩
    exact ⟨u, (h.lt_src he).1, v, ⟨he, hr⟩, rfl, rfl⟩

theorem nodup_reducedEdges (h : GraphShape g) : (reducedEdges g).Nodup := by
  refine List.nodup_flatMap.mpr ⟨fun u _ => ?_, ?_⟩
  · exact ((h.succs_nodup u).filter _).map fun a b hab => (Prod.mk.inj hab).2
  · refine List.nodup_range.imp fun hne e hu hv => ?_
    obtain ⟨a, -, rfl⟩ := List.mem_map.mp hu
    obtain ⟨b, -, hb⟩ := List.mem_map.mp hv
    exact hne (Prod.mk.inj hb).1.symm

theorem lt_of_mem_reducedEdges (h : GraphShape g) (hacyclic : g.Acyclic) :
    ∀ e ∈ reducedEdges g, e.1 < (clearEdges g).nodes.length ∧ e.2 < (clearEdges g).nodes.length := by
  intro e he
  simpa [clearEdges] using h.lt_src ((h.mem_reducedEdges hacyclic).mp he).1

theorem edge_goReduce (h : GraphShape g) (hacyclic : g.Acyclic) {u v : Nat} :
    (goReduce g).Edge u v ↔ g.Edge u v ∧ ¬ ∃ w, g.Edge u w ∧ w ≠ v ∧ g.Reach w v := by
  rw [← h.mem_reducedEdges hacyclic, Graph.Edge, Pineapple.goReduce,
    (Graph.foldl_appendEdge (h.lt_of_mem_reducedEdges hacyclic)).2.1 u, succs_clearEdges]
  simp

theorem goReduce (h : GraphShape g) (hacyclic : g.Acyclic) : GraphShape (goReduce g) := by
  obtain ⟨hnodes, hsuccs, hpreds⟩ := Graph.foldl_appendEdge (h.lt_of_mem_reducedEdges hacyclic)
  have hnil : ∀ v, (clearEdges g).preds v = [] := preds_eq_nil (by simp [clearEdges])
  refine ⟨fun u v => ?_, fun u v he => ?_, fun u => ?_, fun v => ?_⟩
  · unfold Pineapple.goReduce
    rw [hsuccs, hpreds, hnil, succs_clearEdges]
    simp
  · have hlength := congrArg (fun g : Graph => g.nodes.length) hnodes
    simp only [clearEdges, List.length_map] at hlength
    exact hlength ▸ (h.lt_src ((h.edge_goReduce hacyclic).mp he).1).2
  · unfold Pineapple.goReduce
    rw [hsuccs, succs_clearEdges, List.nil_append]
    refine (h.nodup_reducedEdges.filter _).map_on fun a ha b hb hab => ?_
    simp only [List.mem_filter, decide_eq_true_eq] at ha hb
    exact Prod.ext (ha.2.trans hb.2.symm) hab
  · unfold Pineapple.goReduce
    rw [hpreds, hnil, List.nil_append]
    refine (h.nodup_reducedEdges.filter _).map_on fun a ha b hb hab => ?_
    simp only [List.mem_filter, decide_eq_true_eq] at ha hb
    exact Prod.ext hab (ha.2.trans hb.2.symm)

/-- What is left leads as far, and nothing of it can go. -/
theorem reduction (h : GraphShape g) (hacyclic : g.Acyclic) : Reduction g (Pineapple.goReduce g) := by
  obtain ⟨rank, hrank⟩ := h.exists_rank hacyclic
  refine ⟨?_, fun u v => ⟨?_, ?_⟩, fun u v he => ?_, h.goReduce hacyclic⟩
  · refine (Graph.foldl_appendEdge (h.lt_of_mem_reducedEdges hacyclic)).1.trans ?_
    simp [clearEdges, Function.comp_def]
  · exact ReflTransGen.mono (fun _ _ he => ((h.edge_goReduce hacyclic).mp he).1) u v
  · refine Digraph.reach_of_reduction hrank fun a b hab => ?_
    by_cases hw : ∃ w, g.Edge a w ∧ w ≠ b ∧ g.Reach w b
    · exact Or.inr hw
    · exact Or.inl ((h.edge_goReduce hacyclic).mpr ⟨hab, hw⟩)
  · exact Digraph.minimal_of_reduction hrank (fun a b hab => (h.edge_goReduce hacyclic).mp hab) he

end GraphShape

namespace GraphInv
variable {g : Graph}

theorem acyclic (h : GraphInv g) : g.Acyclic := by
  intro v hv
  obtain ⟨w, hvw, hwv⟩ := TransGen.head'_iff.mp hv
  have hlt := (h.forward v w hvw).1
  have hle := h.le_of_reach hwv
  omega

/-- Where the edges go forward the engines reduce alike. -/
theorem goReduce_eq (h : GraphInv g) : goReduce g = reduce g := by
  have hkept : reducedEdges g = keptEdges g := by
    unfold reducedEdges keptEdges
    congr 1
    funext u
    congr 1
    refine List.filter_congr fun v _ => ?_
    rw [Bool.eq_iff_iff, Bool.not_eq_true', Bool.not_eq_true', ← Bool.not_eq_true, ← Bool.not_eq_true, h.shape.goReachableWithout_iff h.acyclic, reachableWithout_iff h]
  unfold goReduce reduce
  rw [← hkept]
  refine (Graph.foldl_addEdge_eq (fun e he => (h.shape.lt_of_mem_reducedEdges h.acyclic e he).1) (fun e he => ?_)
    h.shape.nodup_reducedEdges fun e _ => ?_).symm
  · exact (h.forward _ _ ((h.shape.mem_reducedEdges h.acyclic).mp he).1).1.ne
  · rw [succs_clearEdges]
    exact List.not_mem_nil

theorem topologicalCheck_ok (h : GraphInv g) : topologicalCheck g = .ok () := by
  obtain ⟨order, hok, -⟩ := goTopologicalSort_acyclic h.shape.consistent h.acyclic
  rw [topologicalCheck_eq, hok]
  rfl

end GraphInv

/-! ## Nodes and their index -/

theorem eq_ok_iff_of_toOption {α ε ε' : Type} {x : Except ε α} {y : Except ε' α} (h : x.toOption = y.toOption)
    (a : α) : x = .ok a ↔ y = .ok a := by
  cases x <;> cases y <;> simp_all [Except.toOption]

theorem goMakeNodes_eq_ok (quote : String → String) (config : Config) (expanded : ExpandedSequence) (g : Graph) :
    goMakeNodes quote config expanded = .ok g ↔ makeNodes config expanded = .ok g := by
  refine eq_ok_iff_of_toOption (foldlM_toOption (fun g name => ?_) expanded.sequence {}) g
  cases config.operators.find? name <;> rfl

/-- The index leads to the operators of the sequence. -/
theorem makeNodes_index {config : Config} {expanded : ExpandedSequence} {g : Graph}
    (h : makeNodes config expanded = .ok g) :
    g.nodes.length = expanded.sequence.length ∧
    (∀ name j, g.nameToIndex.find? name = some j → expanded.sequence[j]? = some name) ∧
    ∀ name ∈ expanded.sequence, ∃ j, g.nameToIndex.find? name = some j := by
  refine Except.foldlM_invariant h (P := fun pre g => g.nodes.length = pre.length ∧
    (∀ name j, g.nameToIndex.find? name = some j → pre[j]? = some name) ∧
    ∀ name ∈ pre, ∃ j, g.nameToIndex.find? name = some j) ?_ ?_
  · simp
  · rintro pre entry g g' - ⟨hlength, hfind, hmem⟩ hstep
    split at hstep
    · cases hstep
    · next op hop =>
      cases hstep
      refine ⟨by simp [hlength], fun name j hj => ?_, fun name hname => ?_⟩
      · simp only [SortedMap.find?_insert] at hj
        split at hj
        · next heq =>
          cases hj
          simp [hlength, heq]
        · have hpre := hfind name j hj
          obtain ⟨hlt, -⟩ := List.getElem?_eq_some_iff.mp hpre
          rw [List.getElem?_append_left hlt, hpre]
      · simp only [SortedMap.find?_insert]
        split
        · exact ⟨_, rfl⟩
        · next hne =>
          rcases List.mem_append.mp hname with hname | hname
          · exact hmem name hname
          · exact absurd (List.mem_singleton.mp hname) hne

/-! ## Sources -/

namespace Graph

def sourceEdge (index : SortedMap String Nat) (i : Nat) (g : Graph) (src : String) : Graph :=
  match index.find? src with
  | none => g
  | some j => g.addEdge j i

/-- The edges the sources ask for, as far as they name an operator. -/
def withSources (g : Graph) : Graph :=
  g.nodes.zipIdx.foldl (fun g' e => e.1.config.sources.foldl (sourceEdge g.nameToIndex e.2) g') g

theorem nameToIndex_sourceEdge (index : SortedMap String Nat) (i : Nat) (g : Graph) (src : String) :
    (sourceEdge index i g src).nameToIndex = g.nameToIndex := by
  unfold sourceEdge
  split
  · rfl
  · exact nameToIndex_addEdge ..

theorem nameToIndex_sourceEdges (index : SortedMap String Nat) (i : Nat) (srcs : List String) (g : Graph) :
    (srcs.foldl (sourceEdge index i) g).nameToIndex = g.nameToIndex := by
  induction srcs generalizing g with
  | nil => rfl
  | cons src srcs ih => rw [List.foldl_cons, ih, nameToIndex_sourceEdge]

/-- The sources of every operator stand before it. -/
def SourcesBefore (g : Graph) : Prop :=
  ∀ e ∈ (g.nodes.map Node.config).zipIdx, ∀ src ∈ e.1.sources, ∃ j, g.nameToIndex.find? src = some j ∧ j < e.2

/-- The sources of every operator are operators. -/
def SourcesKnown (g : Graph) : Prop :=
  ∀ e ∈ (g.nodes.map Node.config).zipIdx, ∀ src ∈ e.1.sources, ∃ j, g.nameToIndex.find? src = some j

theorem SourcesBefore.known {g : Graph} (h : g.SourcesBefore) : g.SourcesKnown := by
  intro e he src hsrc
  obtain ⟨j, hj, -⟩ := h e he src hsrc
  exact ⟨j, hj⟩

theorem Extends.sourcesBefore_iff {g g' : Graph} (h : g.Extends g') : g'.SourcesBefore ↔ g.SourcesBefore := by
  unfold SourcesBefore
  rw [h.configs, h.nameToIndex]

theorem forall_mem_configs {g : Graph} {p : OperatorConfig → Nat → Prop} :
    (∀ e ∈ (g.nodes.map Node.config).zipIdx, p e.1 e.2) ↔ ∀ e ∈ g.nodes.zipIdx, p e.1.config e.2 := by
  rw [List.zipIdx_map, List.forall_mem_map]
  rfl

end Graph

theorem addSources_eq_ok (g g' : Graph) : addSources g = .ok g' ↔ g.SourcesBefore ∧ g' = g.withSources := by
  unfold Graph.SourcesBefore
  rw [Graph.forall_mem_configs (p := fun op i => ∀ src ∈ op.sources, ∃ j, g.nameToIndex.find? src = some j ∧ j < i)]
  unfold addSources Graph.withSources
  rw [List.zipIdx_map, List.foldlM_map]
  refine Except.foldlM_guarded (P := fun t => t.nameToIndex = g.nameToIndex) (fun t e _ ht => ?_)
    (fun t e _ ht t' => ?_) rfl
  · rw [Graph.nameToIndex_sourceEdges, ht]
  · refine Except.foldlM_guarded (P := fun t => t.nameToIndex = g.nameToIndex) (fun t src _ ht => ?_)
      (fun t src _ ht t' => ?_) ht
    · rw [Graph.nameToIndex_sourceEdge, ht]
    · simp only [addSource, ht, Graph.sourceEdge]
      cases g.nameToIndex.find? src with
      | none => simp
      | some j =>
        by_cases hle : e.2 ≤ j
        · simp [hle, Nat.not_lt.mpr hle]
        · simp [hle, Nat.not_le.mp hle, eq_comm]

theorem goAddSources_eq_ok (quote : String → String) (g g' : Graph) :
    goAddSources quote g = .ok g' ↔ g.SourcesKnown ∧ g' = g.withSources := by
  unfold Graph.SourcesKnown
  rw [Graph.forall_mem_configs (p := fun op _ => ∀ src ∈ op.sources, ∃ j, g.nameToIndex.find? src = some j)]
  refine Except.foldlM_guarded (P := fun t => t.nameToIndex = g.nameToIndex) (fun t e _ ht => ?_)
    (fun t e _ ht t' => ?_) rfl
  · rw [Graph.nameToIndex_sourceEdges, ht]
  · refine Except.foldlM_guarded (P := fun t => t.nameToIndex = g.nameToIndex) (fun t src _ ht => ?_)
      (fun t src _ ht t' => ?_) ht
    · rw [Graph.nameToIndex_sourceEdge, ht]
    · simp only [goAddSource, ht, Graph.sourceEdge]
      cases g.nameToIndex.find? src <;> simp [eq_comm]

/-- The sources that an operator of the configuration declares. -/
def sourcesOf (config : Config) (name : String) : List String :=
  ((config.operators.find? name).map OperatorConfig.sources).getD []

theorem checkSources_eq_ok {quote : String → String} {config : Config} {seen seen' : List String} {name : String} :
    checkSources quote config seen name = .ok seen' ↔
      (∀ src ∈ sourcesOf config name, src ∈ seen) ∧ seen' = name :: seen := by
  unfold checkSources
  rw [Except.bind_eq_ok]
  simp only [Except.forM_eq_ok, Except.pure_eq_ok, eq_comm (a := name :: seen)]
  have hsrc : ∀ src, ((if src ∈ seen then .ok () else .error (.validation ("operator " ++ quote name ++
      ": sources references " ++ quote src ++ " which is declared after the current operator (forward reference)"))) :
      Except PineError Unit) = .ok () ↔ src ∈ seen := by
    intro src
    by_cases h : src ∈ seen <;> simp [h]
  simp only [hsrc]
  exact ⟨fun ⟨_, h⟩ => h, fun h => ⟨(), h⟩⟩

/-- The check passes where every source was seen before its operator. -/
theorem validateSourcesOrder_eq_ok (quote : String → String) (config : Config) (sequence : List String) :
    validateSourcesOrder quote config sequence = .ok () ↔
      ∀ pre name post, sequence = pre ++ name :: post → ∀ src ∈ sourcesOf config name, src ∈ pre := by
  suffices H : ∀ seen, (∃ seen', sequence.foldlM (checkSources quote config) seen = .ok seen') ↔
      ∀ pre name post, sequence = pre ++ name :: post → ∀ src ∈ sourcesOf config name, src ∈ seen ∨ src ∈ pre by
    unfold validateSourcesOrder
    rw [Except.map_eq_ok]
    simpa using H []
  induction sequence with
  | nil => exact fun seen => ⟨fun _ pre name post h => by simp at h, fun _ => ⟨seen, rfl⟩⟩
  | cons first rest ih =>
    intro seen
    simp only [List.foldlM_cons, Except.bind_eq_ok, checkSources_eq_ok]
    constructor
    · rintro ⟨seen', _, ⟨hfirst, rfl⟩, hrest⟩ pre name post heq src hsrc
      cases pre with
      | nil =>
        obtain ⟨rfl, -⟩ := List.cons.inj heq
        exact Or.inl (hfirst src hsrc)
      | cons p pre =>
        obtain ⟨rfl, htail⟩ := List.cons.inj heq
        rcases (ih _).mp ⟨seen', hrest⟩ pre name post htail src hsrc with hseen | hpre
        · rcases List.mem_cons.mp hseen with rfl | hseen
          · exact Or.inr List.mem_cons_self
          · exact Or.inl hseen
        · exact Or.inr (List.mem_cons_of_mem _ hpre)
    · intro hall
      have hfirst : ∀ src ∈ sourcesOf config first, src ∈ seen := fun src hsrc =>
        (hall [] first rest rfl src hsrc).resolve_right List.not_mem_nil
      obtain ⟨seen', hrest⟩ := (ih (first :: seen)).mpr fun pre name post heq src hsrc => by
        rcases hall (first :: pre) name post (congrArg (first :: ·) heq) src hsrc with hseen | hpre
        · exact Or.inl (List.mem_cons_of_mem _ hseen)
        · rcases List.mem_cons.mp hpre with rfl | hpre
          · exact Or.inl List.mem_cons_self
          · exact Or.inr hpre
      exact ⟨seen', _, ⟨hfirst, rfl⟩, hrest⟩

/-! ## The graphs the engines reduce -/

theorem buildDag_eq_ok (config : Config) (expanded : ExpandedSequence) (g : Graph) :
    buildDag config expanded = .ok g ↔
      ∃ g₀, unreduced config expanded = .ok g₀ ∧ topologicalCheck g₀ = .ok () ∧ g = reduce g₀ := by
  unfold buildDag unreduced
  simp only [Except.bind_eq_ok, Except.pure_eq_ok]
  constructor
  · rintro ⟨g₁, h₁, g₂, h₂, ⟨⟩, h₃, rfl⟩
    exact ⟨g₂, ⟨g₁, h₁, h₂⟩, h₃, rfl⟩
  · rintro ⟨g₂, ⟨g₁, h₁, h₂⟩, h₃, rfl⟩
    exact ⟨g₁, h₁, g₂, h₂, (), h₃, rfl⟩

theorem goBuildDag_eq_ok (quote : String → String) (config : Config) (expanded : ExpandedSequence) (g : Graph) :
    goBuildDag quote config expanded = .ok g ↔
      ∃ g₀, goUnreduced quote config expanded = .ok g₀ ∧ (∃ order, goTopologicalSort g₀ = .ok order) ∧
        g = goReduce g₀ := by
  unfold goBuildDag
  simp only [Except.bind_eq_ok, Except.pure_eq_ok]
  constructor
  · rintro ⟨g₀, h₀, order, h₁, rfl⟩
    exact ⟨g₀, h₀, ⟨order, h₁⟩, rfl⟩
  · rintro ⟨g₀, h₀, ⟨order, h₁⟩, rfl⟩
    exact ⟨g₀, h₀, order, h₁, rfl⟩

theorem javaTopologicalSort_toOption (g : Graph) :
    (javaTopologicalSort g).toOption = (goTopologicalSort g).toOption := by
  have herror : ∀ e : PineError, (Except.error e : Except PineError (List Nat)).toOption = none := fun _ => rfl
  unfold javaTopologicalSort goTopologicalSort
  dsimp only
  split_ifs
  · rw [herror, herror]
  · rfl

theorem javaBuildDag_eq_ok (config : Config) (expanded : ExpandedSequence) (g : Graph) :
    javaBuildDag config expanded = .ok g ↔ goBuildDag plainQuote config expanded = .ok g := by
  unfold javaBuildDag goBuildDag
  simp only [Except.bind_eq_ok, fun g order => eq_ok_iff_of_toOption (javaTopologicalSort_toOption g) order]

/-- The nodes with the edges of the hazards. -/
theorem scanned_spec {config : Config} {expanded : ExpandedSequence} {g : Graph}
    (h : makeNodes config expanded = .ok g) : GraphInv (scanFields (scanFields g true) false) ∧ g.Extends (scanFields (scanFields g true) false) := by
  obtain ⟨inv₁, ext₁, -⟩ := scanFields_spec (makeNodes_spec h).1 true
  obtain ⟨inv₂, ext₂, -⟩ := scanFields_spec inv₁ false
  exact ⟨inv₂, ext₁.trans ext₂⟩

theorem unreduced_spec {config : Config} {expanded : ExpandedSequence} {g : Graph}
    (h : unreduced config expanded = .ok g) : GraphInv g := by
  obtain ⟨g₀, h₀, h⟩ := Except.bind_eq_ok.mp h
  exact (addSources_spec (scanned_spec h₀).1 h).1

namespace GraphShape
variable {g : Graph} {index : SortedMap String Nat} {n i : Nat}

theorem sourceEdge (h : GraphShape g) (hindex : ∀ name j, index.find? name = some j → j < g.nodes.length)
    (hi : i < g.nodes.length) (src : String) : GraphShape (Graph.sourceEdge index i g src) := by
  unfold Graph.sourceEdge
  split
  · exact h
  · next j hj => exact h.addEdge (hindex src j hj) hi

theorem sourceEdges (h : GraphShape g) (hlength : g.nodes.length = n)
    (hindex : ∀ name j, index.find? name = some j → j < n) (hi : i < n) (srcs : List String) :
    GraphShape (srcs.foldl (Graph.sourceEdge index i) g) ∧
      (srcs.foldl (Graph.sourceEdge index i) g).nodes.length = n := by
  induction srcs generalizing g with
  | nil => exact ⟨h, hlength⟩
  | cons src srcs ih =>
    refine ih (h.sourceEdge (hlength ▸ hindex) (hlength ▸ hi) src) ?_
    unfold Graph.sourceEdge
    split
    · exact hlength
    · rw [Graph.length_addEdge, hlength]

theorem withSources (h : GraphShape g)
    (hindex : ∀ name j, g.nameToIndex.find? name = some j → j < g.nodes.length) : GraphShape g.withSources := by
  refine (List.foldlRecOn (motive := fun t => GraphShape t ∧ t.nodes.length = g.nodes.length) _ _ ⟨h, rfl⟩
    fun t ht e he => ?_).1
  have hi : e.2 < g.nodes.length := by
    have := (List.mem_zipIdx he).2.1
    omega
  exact ht.1.sourceEdges ht.2 hindex hi e.1.config.sources

end GraphShape

theorem goUnreduced_spec {quote : String → String} {config : Config} {expanded : ExpandedSequence} {g : Graph}
    (h : goUnreduced quote config expanded = .ok g) : GraphShape g := by
  obtain ⟨g₀, h₀, h⟩ := Except.bind_eq_ok.mp h
  rw [goMakeNodes_eq_ok] at h₀
  obtain ⟨hlength, hfind, -⟩ := makeNodes_index h₀
  obtain ⟨hinv, hext⟩ := scanned_spec h₀
  obtain ⟨-, rfl⟩ := (goAddSources_eq_ok quote _ _).mp h
  refine hinv.shape.withSources fun name j hj => ?_
  rw [hext.nameToIndex] at hj
  rw [hext.length, hlength]
  exact (List.getElem?_eq_some_iff.mp (hfind name j hj)).1

/-- The check of the sources, by position. -/
theorem sourcesBefore_iff {config : Config} {expanded : ExpandedSequence} {g : Graph}
    (h : makeNodes config expanded = .ok g) (hnodup : expanded.sequence.Nodup) (quote : String → String) :
    g.SourcesBefore ↔ validateSourcesOrder quote config expanded.sequence = .ok () := by
  obtain ⟨hlength, hfind, hmem⟩ := makeNodes_index h
  obtain ⟨-, hconfig, hname⟩ := makeNodes_spec h
  -- The operator at a position, and what it declares.
  have hat : ∀ (i : Nat) name, expanded.sequence[i]? = some name →
      ∃ op : OperatorConfig, (g.nodes.map Node.config)[i]? = some op ∧ sourcesOf config name = op.sources := by
    intro i name hi
    have hop := map_config_eq_operatorAt hconfig i
    obtain ⟨hlt, -⟩ := List.getElem?_eq_some_iff.mp hi
    rw [operatorAt, hi] at hop
    cases hget : (g.nodes.map Node.config)[i]? with
    | none =>
      rw [List.getElem?_eq_none_iff, List.length_map, hlength] at hget
      omega
    | some op =>
      have hop' : config.operators.find? name = some op := by rw [← hget, hop]; rfl
      exact ⟨op, rfl, by simp [sourcesOf, hop']⟩
  rw [validateSourcesOrder_eq_ok]
  constructor
  · intro hbefore pre name post heq src hsrc
    obtain ⟨op, hop, hsources⟩ := hat pre.length name (by simp [heq])
    obtain ⟨j, hj, hlt⟩ := hbefore (op, pre.length) (List.mem_zipIdx_iff_getElem?.mpr hop) src (hsources ▸ hsrc)
    have hsrc' := hfind src j hj
    rw [heq, List.getElem?_append_left hlt] at hsrc'
    exact List.mem_of_getElem? hsrc'
  · rintro hall ⟨op, i⟩ he src hsrc
    have hop := List.mem_zipIdx_iff_getElem?.mp he
    have hi : i < expanded.sequence.length := by
      obtain ⟨hlt, -⟩ := List.getElem?_eq_some_iff.mp hop
      rwa [List.length_map, hlength] at hlt
    obtain ⟨op', hop', hsources⟩ := hat i expanded.sequence[i] (List.getElem?_eq_getElem hi)
    obtain rfl : op' = op := Option.some.inj (hop'.symm.trans hop)
    have hpre := hall (expanded.sequence.take i) expanded.sequence[i] (expanded.sequence.drop (i + 1))
      (by simp) src (hsources ▸ hsrc)
    obtain ⟨k, hk, hget⟩ := List.mem_take_iff_getElem.mp hpre
    obtain ⟨j, hj⟩ := hmem src (List.mem_of_mem_take hpre)
    obtain ⟨hjlt, hjget⟩ := List.getElem?_eq_some_iff.mp (hfind src j hj)
    have hjk : j = k := (List.Nodup.getElem_inj_iff hnodup).mp (hjget.trans hget.symm)
    exact ⟨j, hj, by omega⟩

/-- Where no operator stands twice in the sequence, the engines accept the same sources and come to the same graph. -/
theorem unreduced_eq_ok (quote : String → String) (config : Config) {expanded : ExpandedSequence}
    (hnodup : expanded.sequence.Nodup) (g : Graph) :
    unreduced config expanded = .ok g ↔
      validateSourcesOrder quote config expanded.sequence = .ok () ∧ goUnreduced quote config expanded = .ok g := by
  unfold unreduced goUnreduced
  simp only [Except.bind_eq_ok, goMakeNodes_eq_ok, addSources_eq_ok, goAddSources_eq_ok]
  constructor
  · rintro ⟨g₀, h₀, hbefore, rfl⟩
    have hbefore₀ := (scanned_spec h₀).2.sourcesBefore_iff.mp hbefore
    exact ⟨(sourcesBefore_iff h₀ hnodup quote).mp hbefore₀, g₀, h₀, hbefore.known, rfl⟩
  · rintro ⟨hvalid, g₀, h₀, -, rfl⟩
    exact ⟨g₀, h₀, (scanned_spec h₀).2.sourcesBefore_iff.mpr ((sourcesBefore_iff h₀ hnodup quote).mpr hvalid), rfl⟩

theorem goEngineGraph_eq_ok (quote : String → String) (config : Config) {expanded : ExpandedSequence}
    (hnodup : expanded.sequence.Nodup) (g : Graph) :
    goEngineGraph quote config expanded = .ok g ↔ buildDag config expanded = .ok g := by
  unfold goEngineGraph
  simp only [Except.bind_eq_ok, goBuildDag_eq_ok, buildDag_eq_ok, unreduced_eq_ok quote config hnodup]
  constructor
  · rintro ⟨⟨⟩, hvalid, g₀, h₀, -, rfl⟩
    have hinv := unreduced_spec ((unreduced_eq_ok quote config hnodup g₀).mpr ⟨hvalid, h₀⟩)
    exact ⟨g₀, ⟨hvalid, h₀⟩, hinv.topologicalCheck_ok, hinv.goReduce_eq⟩
  · rintro ⟨g₀, ⟨hvalid, h₀⟩, hcheck, rfl⟩
    have hinv := unreduced_spec ((unreduced_eq_ok quote config hnodup g₀).mpr ⟨hvalid, h₀⟩)
    obtain ⟨order, hok, -⟩ := goTopologicalSort_acyclic hinv.shape.consistent hinv.acyclic
    exact ⟨(), hvalid, g₀, h₀, ⟨order, hok⟩, hinv.goReduce_eq.symm⟩

theorem javaEngineGraph_eq_ok (config : Config) {expanded : ExpandedSequence} (hnodup : expanded.sequence.Nodup)
    (g : Graph) : javaEngineGraph config expanded = .ok g ↔ buildDag config expanded = .ok g := by
  rw [← goEngineGraph_eq_ok plainQuote config hnodup]
  unfold javaEngineGraph goEngineGraph
  simp only [Except.bind_eq_ok, javaBuildDag_eq_ok]

theorem nodup_of_expanded {config : Config} {expanded : ExpandedSequence}
    (h : expandOperatorSequenceWithSubflows config = .ok expanded) : expanded.sequence.Nodup := by
  obtain ⟨root, l, -, -, hnodup, hsequence, -⟩ := (expandOperatorSequence_eq_ok config expanded).mp h
  exact hsequence ▸ hnodup

/-- The cycle check of C++ passes on every graph that comes to it; what the three engines reduce keeps its ways and
loses every edge it can lose; and a configuration that is accepted has the same graph in all of them. -/
theorem transitiveReduction (quote : String → String) (config : Config) (expanded : ExpandedSequence) :
    (∀ g, unreduced config expanded = .ok g → g.Acyclic ∧ topologicalCheck g = .ok () ∧
      buildDag config expanded = .ok (reduce g) ∧ Reduction g (reduce g) ∧ (reduce g).Forward) ∧
    (∀ g, goUnreduced quote config expanded = .ok g → g.Acyclic →
      goBuildDag quote config expanded = .ok (goReduce g) ∧ Reduction g (goReduce g)) ∧
    (∀ g, goUnreduced plainQuote config expanded = .ok g → g.Acyclic →
      javaBuildDag config expanded = .ok (goReduce g) ∧ Reduction g (goReduce g)) ∧
    (expandOperatorSequenceWithSubflows config = .ok expanded → ∀ g,
      (goEngineGraph quote config expanded = .ok g ↔ buildDag config expanded = .ok g) ∧
      (javaEngineGraph config expanded = .ok g ↔ buildDag config expanded = .ok g) ∧
      (buildDag config expanded = .ok g → g.Forward)) := by
  have hcpp : ∀ g, unreduced config expanded = .ok g → g.Acyclic ∧ topologicalCheck g = .ok () ∧
      buildDag config expanded = .ok (reduce g) ∧ Reduction g (reduce g) ∧ (reduce g).Forward := by
    intro g h
    have hinv := unreduced_spec h
    have hcheck := hinv.topologicalCheck_ok
    exact ⟨hinv.acyclic, hcheck, (buildDag_eq_ok config expanded _).mpr ⟨g, h, hcheck, rfl⟩,
      hinv.goReduce_eq ▸ hinv.shape.reduction hinv.acyclic,
      fun u v he => (hinv.forward u v ((edge_reduce hinv).mp he).1).1⟩
  have hgo : ∀ quote g, goUnreduced quote config expanded = .ok g → g.Acyclic →
      goBuildDag quote config expanded = .ok (goReduce g) ∧ Reduction g (goReduce g) := by
    intro quote g h hacyclic
    have hshape := goUnreduced_spec h
    obtain ⟨order, hok, -⟩ := goTopologicalSort_acyclic hshape.consistent hacyclic
    exact ⟨(goBuildDag_eq_ok quote config expanded _).mpr ⟨g, h, ⟨order, hok⟩, rfl⟩, hshape.reduction hacyclic⟩
  refine ⟨hcpp, hgo quote, fun g h hacyclic => ?_, fun hexpanded g => ⟨?_, ?_, fun h => ?_⟩⟩
  · rw [javaBuildDag_eq_ok]
    exact hgo plainQuote g h hacyclic
  · exact goEngineGraph_eq_ok quote config (nodup_of_expanded hexpanded) g
  · exact javaEngineGraph_eq_ok config (nodup_of_expanded hexpanded) g
  · obtain ⟨g₀, h₀, -, rfl⟩ := (buildDag_eq_ok config expanded g).mp h
    exact (hcpp g₀ h₀).2.2.2.2

/-- `a` writes `x`, `b` reads it and writes `y`, `c` reads both and declares `a` as a source. -/
def chainConfig : Config where
  operators := SortedMap.ofList [
    ("a", { name := "a", metadata := { commonOutput := ["x"] } }),
    ("b", { name := "b", metadata := { commonInput := ["x"], commonOutput := ["y"] } }),
    ("c", { name := "c", metadata := { commonInput := ["x", "y"] }, sources := ["a"] })]
  pipelineGroup := SortedMap.ofList [("main", ["a", "b", "c"])]

def chainExpanded : ExpandedSequence where
  sequence := ["a", "b", "c"]
  opToSubflow := SortedMap.ofList [("a", ""), ("b", ""), ("c", "")]

/-- What is reduced for the chain. -/
def chainUnreduced : Graph := (unreduced chainConfig chainExpanded).toOption.getD {}

/-- The edge from `a` to `c` goes. -/
theorem transitiveReduction_chain :
    unreduced chainConfig chainExpanded = .ok chainUnreduced ∧ chainUnreduced.Edge 0 2 ∧
      Reduction chainUnreduced (reduce chainUnreduced) ∧ ¬ (reduce chainUnreduced).Edge 0 2 ∧
      javaEngineGraph chainConfig chainExpanded = .ok (reduce chainUnreduced) := by
  have hexpanded : expandOperatorSequenceWithSubflows chainConfig = .ok chainExpanded := by decide +kernel
  have hg : unreduced chainConfig chainExpanded = .ok chainUnreduced := Except.eq_ok_getD (by decide +kernel) {}
  have hedge : chainUnreduced.Edge 0 2 := by decide +kernel
  have hgone : ¬ (reduce chainUnreduced).Edge 0 2 := by decide +kernel
  have h := transitiveReduction plainQuote chainConfig chainExpanded
  obtain ⟨-, -, hbuild, hreduction, -⟩ := h.1 _ hg
  exact ⟨hg, hedge, hreduction, hgone, ((h.2.2.2 hexpanded _).2.1).mpr hbuild⟩

end Pineapple
