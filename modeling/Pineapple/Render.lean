import Pineapple.DagBuild
import Pineapple.Lib.Grouping

/-! # The collapsed view of the DAG (`render.cpp`, `visualize.go`)

Both engines group the operators by the first segments of their sub-flow paths, number the groups by first appearance
and keep one edge for each pair of groups that an edge joins. C++ numbers the operators outside sub-flows as they
come; Go gives each of them the key of a group that its name makes up. -/

namespace Pineapple

/-- A graph as `Build` leaves it. -/
structure DrawnGraph extends Graph where
  succs_lt : ∀ u v, v ∈ toGraph.succs u → v < nodes.length
  types : ∀ node ∈ nodes, ∃ type : OperatorType, node.config.operatorType = type.toString

/-- What `Build` makes of operators of known types can be drawn. -/
theorem drawn_of_buildDag {config : Config} {expanded : ExpandedSequence} {g : Graph}
    (h : buildDag config expanded = .ok g)
    (htypes : ∀ name op, config.operators.find? name = some op → ∃ type : OperatorType, op.operatorType = type.toString) :
    ∃ d : DrawnGraph, d.toGraph = g := by
  have hspec := buildDag_spec h
  refine ⟨⟨g, fun u v hv => (hspec.inv.forward u v hv).2, fun node hnode => ?_⟩, rfl⟩
  obtain ⟨i, hi⟩ := List.getElem?_of_mem hnode
  have hop := hspec.operator i
  rw [hi, Option.map_some, operatorAt] at hop
  obtain ⟨name, -, hname⟩ := Option.bind_eq_some_iff.mp hop.symm
  exact htypes name _ hname

namespace Render

/-- The first `level` segments of a sub-flow path. -/
def segments (path : List Char) (level : Nat) : List (List Char) := (path.splitOn '/').take level

/-- `collapse_key`. -/
def collapseKey (subflow : List Char) (level : Nat) : List Char :=
  if subflow = [] then []
  else if level ≥ (subflow.splitOn '/').length then subflow
  else ['/'].intercalate ((subflow.splitOn '/').take level)

/-- `collapseKey` of Go. -/
def goCollapseKey (subFlow : List Char) (level : Nat) : List Char :=
  if subFlow = [] ∨ level = 0 then []
  else if level ≥ (subFlow.splitOn '/').length then subFlow
  else ['/'].intercalate ((subFlow.splitOn '/').take level)

structure Group where
  label : List Char
  subflow : Bool
  operatorType : String
deriving DecidableEq

/-- What `build_collapsed` computes, with the group of every node. -/
structure Collapsed where
  groups : List Group
  nodeToGroup : List Nat
  edges : List (Nat × Nat)
deriving DecidableEq

/-- The key that `build_collapsed` looks a node's group up by, and the group it opens. -/
def groupItem (level : Nat) (node : Node) : Option (List Char) × Group :=
  let key := collapseKey node.subflow.toList level
  if key = [] then (none, ⟨node.name.toList, false, node.config.operatorType⟩) else (some key, ⟨key, true, ""⟩)

/-- The same of `buildCollapsed`. -/
def goGroupItem (level : Nat) (node : Node) : Option (List Char) × Group :=
  let key := goCollapseKey node.subflow.toList level
  (some (if key = [] then '\x00' :: node.name.toList else key),
    if node.subflow ≠ "" then ⟨key, true, ""⟩ else ⟨node.name.toList, false, node.config.operatorType⟩)

/-- The edge of the groups that an edge joins; `edges_seen` has what `edges` has. -/
def pushEdge (edges : List (Nat × Nat)) (e : Option (Nat × Nat)) : List (Nat × Nat) :=
  match e with
  | some (a, b) => if a ≠ b ∧ (a, b) ∉ edges then edges ++ [(a, b)] else edges
  | none => edges

/-- The edges of the graph, in the order of the loops over the nodes and their successors. -/
def joins (g : Graph) : List (Nat × Nat) :=
  (List.range g.nodes.length).flatMap fun i => (g.succs i).map fun s => (i, s)

def groupEdges (g : Graph) (nodeToGroup : List Nat) : List (Nat × Nat) :=
  ((joins g).map fun e => nodeToGroup[e.1]?.bind fun a => nodeToGroup[e.2]?.map fun b => (a, b)).foldl pushEdge []

/-- `build_collapsed`. -/
def buildCollapsed (g : Graph) (level : Nat) : Collapsed :=
  let s := Grouping.group (g.nodes.map (groupItem level))
  ⟨s.groups, s.place, groupEdges g s.place⟩

/-- `buildCollapsed` of Go. -/
def goBuildCollapsed (g : Graph) (level : Nat) : Collapsed :=
  let s := Grouping.group (g.nodes.map (goGroupItem level))
  ⟨s.groups, s.place, groupEdges g s.place⟩

/-! ## The quotient -/

/-- Both nodes are in sub-flows, of the same prefix. -/
def SameSubflow (level : Nat) (m n : Node) : Prop :=
  m.subflow ≠ "" ∧ n.subflow ≠ "" ∧ segments m.subflow.toList level = segments n.subflow.toList level

/-- What the group of a node shows. -/
def shown (level : Nat) (node : Node) : Group :=
  if node.subflow ≠ "" then ⟨['/'].intercalate (segments node.subflow.toList level), true, ""⟩
  else ⟨node.name.toList, false, node.config.operatorType⟩

/-- The view is the quotient of the graph by sub-flow prefix. -/
structure IsQuotient (g : Graph) (level : Nat) (view : Collapsed) : Prop where
  length : view.nodeToGroup.length = g.nodes.length
  lt : ∀ (i a : Nat), view.nodeToGroup[i]? = some a → a < view.groups.length
  onto : ∀ a < view.groups.length, ∃ i : Nat, view.nodeToGroup[i]? = some a
  same : ∀ (i j : Nat) (m n : Node), g.nodes[i]? = some m → g.nodes[j]? = some n →
    (view.nodeToGroup[i]? = view.nodeToGroup[j]? ↔ i = j ∨ SameSubflow level m n)
  shows : ∀ (i a : Nat) (node : Node), g.nodes[i]? = some node → view.nodeToGroup[i]? = some a →
    view.groups[a]? = some (shown level node)
  edges : ∀ a b, (a, b) ∈ view.edges ↔ a ≠ b ∧
    ∃ i j : Nat, j ∈ g.succs i ∧ view.nodeToGroup[i]? = some a ∧ view.nodeToGroup[j]? = some b
  edges_nodup : view.edges.Nodup

/-! ### Paths -/

theorem intercalate_segments (path : List Char) {level : Nat} (h : level ≥ (path.splitOn '/').length) :
    ['/'].intercalate (segments path level) = path := by
  rw [segments, List.take_of_length_le h]
  exact List.intercalate_splitOn '/'

theorem segments_nil {level : Nat} (hlevel : 0 < level) : segments [] level = [[]] := by
  obtain ⟨n, rfl⟩ := Nat.exists_eq_add_of_lt hlevel
  simp [segments]

theorem segments_ne_nil (path : List Char) {level : Nat} (hlevel : 0 < level) : segments path level ≠ [] := by
  unfold segments
  rw [Ne, List.take_eq_nil_iff]
  exact not_or.mpr ⟨by omega, List.splitOn_ne_nil '/' path⟩

theorem collapseKey_eq (path : List Char) {level : Nat} (hlevel : 0 < level) :
    collapseKey path level = ['/'].intercalate (segments path level) := by
  unfold collapseKey
  split
  · next h => simp [h, segments_nil hlevel]
  · split
    · next h => exact (intercalate_segments path h).symm
    · rfl

theorem goCollapseKey_eq (path : List Char) {level : Nat} (hlevel : 0 < level) :
    goCollapseKey path level = collapseKey path level := by
  simp [goCollapseKey, collapseKey, hlevel.ne']

theorem not_mem_segment {path : List Char} {level : Nat} : ∀ l ∈ segments path level, '/' ∉ l := by
  have hsplit : ∀ (path : List Char), ∀ l ∈ path.splitOn '/', '/' ∉ l := by
    intro path
    induction path with
    | nil => simp
    | cons c path ih =>
      rw [List.splitOn_cons_eq_if_modifyHead]
      split
      · simpa using ih
      · next hc =>
        obtain ⟨p, ps, hps⟩ := List.exists_cons_of_ne_nil (List.splitOn_ne_nil '/' path)
        rw [hps] at ih ⊢
        simp only [List.modifyHead_cons, List.forall_mem_cons] at ih ⊢
        refine ⟨?_, ih.2⟩
        rw [List.mem_cons, not_or]
        exact ⟨fun h => hc (by simpa using h.symm), ih.1⟩
  exact fun l hl => hsplit path l (List.mem_of_mem_take hl)

/-- The key of a path tells the prefix. -/
theorem collapseKey_inj {p q : List Char} {level : Nat} (hlevel : 0 < level) :
    collapseKey p level = collapseKey q level ↔ segments p level = segments q level := by
  rw [collapseKey_eq p hlevel, collapseKey_eq q hlevel]
  refine ⟨fun h => ?_, congrArg _⟩
  rw [← List.splitOn_intercalate '/' not_mem_segment (segments_ne_nil p hlevel), h,
    List.splitOn_intercalate '/' not_mem_segment (segments_ne_nil q hlevel)]

theorem collapseKey_ne_nil {path : List Char} {level : Nat} (hlevel : 0 < level) (hne : path ≠ [])
    (hhead : path.head? ≠ some '/') : collapseKey path level ≠ [] := by
  intro h
  obtain ⟨c, path, rfl⟩ := List.exists_cons_of_ne_nil hne
  have hkey : segments (c :: path) level = [[]] := by
    rw [← segments_nil hlevel, ← collapseKey_inj hlevel, h]
    rfl
  have hc : (c == '/') = false := by simpa using hhead
  obtain ⟨p, ps, hps⟩ := List.exists_cons_of_ne_nil (List.splitOn_ne_nil '/' path)
  obtain ⟨n, rfl⟩ := Nat.exists_eq_add_of_lt hlevel
  rw [segments, List.splitOn_cons_eq_if_modifyHead, hps] at hkey
  simp [hc] at hkey

/-- A path that starts with a slash has the empty key at the first level. -/
theorem collapseKey_slash (path : List Char) : collapseKey ('/' :: path) 1 = [] := by
  rw [collapseKey_eq _ Nat.one_pos, segments, List.splitOn_cons_eq_if_modifyHead]
  rfl

/-! ### Edges -/

theorem mem_pushEdges {es : List (Option (Nat × Nat))} {edges : List (Nat × Nat)} {a b : Nat} :
    (a, b) ∈ es.foldl pushEdge edges ↔ (a, b) ∈ edges ∨ a ≠ b ∧ some (a, b) ∈ es := by
  induction es generalizing edges with
  | nil => simp
  | cons e es ih =>
    rw [List.foldl_cons, ih, List.mem_cons]
    rcases e with _ | ⟨c, d⟩
    · simp [pushEdge]
    · rw [pushEdge, Option.some_inj]
      split
      · next h =>
        rw [List.mem_append, List.mem_singleton, or_assoc]
        refine or_congr_right ?_
        constructor
        · rintro (heq | ⟨hne, hmem⟩)
          · cases heq
            exact ⟨h.1, .inl rfl⟩
          · exact ⟨hne, .inr hmem⟩
        · rintro ⟨hne, heq | hmem⟩
          · exact .inl heq
          · exact .inr ⟨hne, hmem⟩
      · next h =>
        constructor
        · rintro (hmem | ⟨hne, hmem⟩)
          · exact .inl hmem
          · exact .inr ⟨hne, .inr hmem⟩
        · rintro (hmem | ⟨hne, heq | hmem⟩)
          · exact .inl hmem
          · cases heq
            exact .inl (by_contra fun hnot => h ⟨hne, hnot⟩)
          · exact .inr ⟨hne, hmem⟩

theorem nodup_pushEdges {es : List (Option (Nat × Nat))} {edges : List (Nat × Nat)} (h : edges.Nodup) :
    (es.foldl pushEdge edges).Nodup := by
  refine List.foldlRecOn es pushEdge h fun edges hedges e _ => ?_
  rcases e with _ | ⟨a, b⟩
  · exact hedges
  · rw [pushEdge]
    split
    · next hnew => exact hedges.append (List.nodup_singleton _) (by simpa using hnew.2)
    · exact hedges

theorem mem_joins {g : Graph} {i j : Nat} : (i, j) ∈ joins g ↔ j ∈ g.succs i := by
  unfold joins
  rw [List.mem_flatMap]
  constructor
  · rintro ⟨i', _, hmem⟩
    obtain ⟨s, hs, heq⟩ := List.mem_map.mp hmem
    cases heq
    exact hs
  · intro h
    refine ⟨i, List.mem_range.mpr (by_contra fun hlt => ?_), List.mem_map.mpr ⟨j, h, rfl⟩⟩
    rw [Graph.succs, List.getElem?_eq_none (Nat.le_of_not_lt hlt)] at h
    exact List.not_mem_nil h

theorem mem_groupEdges {g : Graph} {place : List Nat} {a b : Nat} : (a, b) ∈ groupEdges g place ↔
    a ≠ b ∧ ∃ i j : Nat, j ∈ g.succs i ∧ place[i]? = some a ∧ place[j]? = some b := by
  rw [groupEdges, mem_pushEdges]
  simp only [List.not_mem_nil, false_or, List.mem_map, Prod.exists, mem_joins, Option.bind_eq_some_iff,
    Option.map_eq_some_iff, Prod.mk.injEq, ↓existsAndEq, and_true]

/-! ### The groups -/

variable {g : Graph} {level : Nat}

/-- Groups that share what the prefixes say, and show it, are the quotient. -/
theorem isQuotient_of_inv {item : Node → Option (List Char) × Group} {s : Grouping.Groups (List Char) Group}
    (h : Grouping.Inv (g.nodes.map item) s)
    (hsame : ∀ (i j : Nat) (m n : Node), g.nodes[i]? = some m → g.nodes[j]? = some n →
      ((i = j ∨ ∃ k, (item m).1 = some k ∧ (item n).1 = some k) ↔ i = j ∨ SameSubflow level m n))
    (hshows : ∀ node ∈ g.nodes, (item node).2 = shown level node) :
    IsQuotient g level ⟨s.groups, s.place, groupEdges g s.place⟩ where
  length := by simpa using h.length
  lt := h.lt
  onto a ha := by
    obtain ⟨i, e, _, hi, _⟩ := h.onto a _ (List.getElem?_eq_getElem ha)
    exact ⟨i, hi⟩
  same i j m n hm hn := by
    rw [h.same i j (item m) (item n) (by simp [hm]) (by simp [hn])]
    exact hsame i j m n hm hn
  shows i a node hnode ha := by
    have hlt := h.lt i a ha
    obtain ⟨j, e, hj, hja, he⟩ := h.onto a _ (List.getElem?_eq_getElem hlt)
    rw [List.getElem?_map, Option.map_eq_some_iff] at hj
    obtain ⟨n, hn, rfl⟩ := hj
    rw [List.getElem?_eq_getElem hlt, ← he, hshows n (List.mem_of_getElem? hn)]
    have hij := (h.same i j (item node) (item n) (by simp [hnode]) (by simp [hn])).mp (ha.trans hja.symm)
    rcases (hsame i j node n hnode hn).mp hij with rfl | ⟨hne, hne', hseg⟩
    · rw [hnode] at hn
      cases hn
      rfl
    · simp [shown, hne, hne', hseg]
  edges a b := mem_groupEdges
  edges_nodup := nodup_pushEdges List.nodup_nil

/-- The sub-flow paths start with a segment that is not empty. -/
def NoLeadingSlash (g : Graph) : Prop := ∀ node ∈ g.nodes, node.subflow.toList.head? ≠ some '/'

/-- Go's key of an operator outside sub-flows is the key of no sub-flow. -/
def KeysApart (g : Graph) : Prop :=
  ∀ m ∈ g.nodes, ∀ n ∈ g.nodes, m.subflow ≠ "" → n.subflow = "" → ∀ level > 0,
    collapseKey m.subflow.toList level ≠ '\x00' :: n.name.toList

theorem collapseKey_eq_nil {node : Node} (hlevel : 0 < level) (hhead : node.subflow.toList.head? ≠ some '/') :
    collapseKey node.subflow.toList level = [] ↔ node.subflow = "" := by
  constructor
  · intro h
    by_contra hne
    exact collapseKey_ne_nil hlevel (fun hnil => hne (String.toList_eq_nil_iff.mp hnil)) hhead h
  · intro h
    simp [h, collapseKey]

theorem groupItem_eq {node : Node} (hlevel : 0 < level) (hhead : node.subflow.toList.head? ≠ some '/') :
    groupItem level node =
      (if node.subflow = "" then none else some (collapseKey node.subflow.toList level), shown level node) := by
  rw [groupItem, shown, ← collapseKey_eq _ hlevel]
  simp only [collapseKey_eq_nil hlevel hhead]
  by_cases h : node.subflow = "" <;> simp [h]

theorem goGroupItem_eq {node : Node} (hlevel : 0 < level) (hhead : node.subflow.toList.head? ≠ some '/') :
    goGroupItem level node =
      (some (if node.subflow = "" then '\x00' :: node.name.toList else collapseKey node.subflow.toList level),
        shown level node) := by
  rw [goGroupItem, shown, ← collapseKey_eq _ hlevel]
  simp only [goCollapseKey_eq _ hlevel, collapseKey_eq_nil hlevel hhead]

/-- The keys that C++ looks groups up by are shared in the sub-flows of one prefix. -/
theorem shares_groupItem {m n : Node} (hlevel : 0 < level) (hm : m.subflow.toList.head? ≠ some '/')
    (hn : n.subflow.toList.head? ≠ some '/') :
    (∃ k, (groupItem level m).1 = some k ∧ (groupItem level n).1 = some k) ↔ SameSubflow level m n := by
  rw [groupItem_eq hlevel hm, groupItem_eq hlevel hn, SameSubflow, ← collapseKey_inj hlevel]
  by_cases hms : m.subflow = "" <;> by_cases hns : n.subflow = "" <;> simp [hms, hns, eq_comm]

/-- Go's are as well, and an operator outside sub-flows shares its key with those of its name alone. -/
theorem shares_goGroupItem {m n : Node} (hlevel : 0 < level) (hm : m.subflow.toList.head? ≠ some '/')
    (hn : n.subflow.toList.head? ≠ some '/')
    (hmn : m.subflow ≠ "" → n.subflow = "" → collapseKey m.subflow.toList level ≠ '\x00' :: n.name.toList)
    (hnm : n.subflow ≠ "" → m.subflow = "" → collapseKey n.subflow.toList level ≠ '\x00' :: m.name.toList) :
    (∃ k, (goGroupItem level m).1 = some k ∧ (goGroupItem level n).1 = some k) ↔
      SameSubflow level m n ∨ m.subflow = "" ∧ n.subflow = "" ∧ m.name = n.name := by
  rw [goGroupItem_eq hlevel hm, goGroupItem_eq hlevel hn, SameSubflow, ← collapseKey_inj hlevel]
  by_cases hms : m.subflow = ""
  · by_cases hns : n.subflow = ""
    · simp [hms, hns, eq_comm, String.toList_inj]
    · have := hnm hns hms
      simp [hms, hns, this]
  · by_cases hns : n.subflow = ""
    · have := hmn hms hns
      simp [hms, hns, this.symm]
    · simp [hms, hns, eq_comm]

theorem name_inj (hnames : (g.nodes.map Node.name).Nodup) {i j : Nat} {m n : Node} (hm : g.nodes[i]? = some m)
    (hn : g.nodes[j]? = some n) (heq : m.name = n.name) : i = j := by
  obtain ⟨hlt, _⟩ := List.getElem?_eq_some_iff.mp hm
  refine (List.getElem?_inj (by simpa using hlt) hnames).mp ?_
  rw [List.getElem?_map, List.getElem?_map, hm, hn, Option.map_some, Option.map_some, heq]

theorem buildCollapsed_isQuotient (hlevel : 0 < level) (hslash : NoLeadingSlash g) :
    IsQuotient g level (buildCollapsed g level) := by
  refine isQuotient_of_inv (Grouping.group_inv _) (fun i j m n hm hn => ?_) fun node hnode => ?_
  · exact or_congr_right
      (shares_groupItem hlevel (hslash m (List.mem_of_getElem? hm)) (hslash n (List.mem_of_getElem? hn)))
  · rw [groupItem_eq hlevel (hslash node hnode)]

theorem goBuildCollapsed_isQuotient (hlevel : 0 < level) (hslash : NoLeadingSlash g) (hapart : KeysApart g)
    (hnames : (g.nodes.map Node.name).Nodup) : IsQuotient g level (goBuildCollapsed g level) := by
  refine isQuotient_of_inv (Grouping.group_inv _) (fun i j m n hm hn => ?_) fun node hnode => ?_
  · have hmem := List.mem_of_getElem? hm
    have hmem' := List.mem_of_getElem? hn
    rw [shares_goGroupItem hlevel (hslash m hmem) (hslash n hmem')
      (fun h h' => hapart m hmem n hmem' h h' level hlevel) (fun h h' => hapart n hmem' m hmem h h' level hlevel)]
    constructor
    · rintro (rfl | hsame | ⟨-, -, heq⟩)
      · exact .inl rfl
      · exact .inr hsame
      · exact .inl (name_inj hnames hm hn heq)
    · rintro (rfl | hsame)
      · exact .inl rfl
      · exact .inr (.inl hsame)
  · rw [goGroupItem_eq hlevel (hslash node hnode)]

theorem goBuildCollapsed_eq (hlevel : 0 < level) (hslash : NoLeadingSlash g) (hapart : KeysApart g)
    (hnames : (g.nodes.map Node.name).Nodup) : goBuildCollapsed g level = buildCollapsed g level := by
  have hdata : (g.nodes.map (goGroupItem level)).map Prod.snd = (g.nodes.map (groupItem level)).map Prod.snd := by
    rw [List.map_map, List.map_map]
    refine List.map_congr_left fun node hnode => ?_
    rw [Function.comp_apply, Function.comp_apply, goGroupItem_eq hlevel (hslash node hnode),
      groupItem_eq hlevel (hslash node hnode)]
  have hshares : Grouping.SameShares (g.nodes.map (goGroupItem level)) (g.nodes.map (groupItem level)) := by
    intro i j e₁ e₂ e₁' e₂' hij h₁ h₂ h₁' h₂'
    simp only [List.getElem?_map, Option.map_eq_some_iff] at h₁ h₂ h₁' h₂'
    obtain ⟨m, hm, rfl⟩ := h₁
    obtain ⟨n, hn, rfl⟩ := h₂
    obtain ⟨m', hm', rfl⟩ := h₁'
    obtain ⟨n', hn', rfl⟩ := h₂'
    obtain rfl : m = m' := Option.some.inj (hm.symm.trans hm')
    obtain rfl : n = n' := Option.some.inj (hn.symm.trans hn')
    have hmem := List.mem_of_getElem? hm
    have hmem' := List.mem_of_getElem? hn
    rw [shares_groupItem hlevel (hslash m hmem) (hslash n hmem'),
      shares_goGroupItem hlevel (hslash m hmem) (hslash n hmem')
      (fun h h' => hapart m hmem n hmem' h h' level hlevel) (fun h h' => hapart n hmem' m hmem h h' level hlevel)]
    refine or_iff_left fun ⟨_, _, heq⟩ => Nat.ne_of_lt hij (name_inj hnames hm hn heq)
  obtain ⟨hgroups, hplace⟩ := Grouping.group_congr hdata hshares
  rw [goBuildCollapsed, buildCollapsed, hgroups, hplace]

/-- A path that starts with a slash is taken for no sub-flow at the first level. -/
theorem noLeadingSlash_of_isQuotient (h : IsQuotient g 1 (buildCollapsed g 1)) : NoLeadingSlash g := by
  intro node hnode hhead
  obtain ⟨i, hi⟩ := List.getElem?_of_mem hnode
  obtain ⟨path, hpath⟩ : ∃ path, node.subflow.toList = '/' :: path := by
    obtain ⟨c, path, hpath⟩ := List.exists_cons_of_ne_nil (List.ne_nil_of_mem (List.mem_of_mem_head? hhead))
    rw [hpath] at hhead
    cases hhead
    exact ⟨path, hpath⟩
  have hitem : groupItem 1 node = (none, ⟨node.name.toList, false, node.config.operatorType⟩) := by
    simp [groupItem, hpath, collapseKey_slash]
  have hinv := Grouping.group_inv (g.nodes.map (groupItem 1))
  obtain ⟨a, ha⟩ := hinv.lt_length (i := i) (e := groupItem 1 node) (by simp [hi])
  obtain ⟨j, e, hj, hja, he⟩ := hinv.onto a _ (List.getElem?_eq_getElem (hinv.lt i a ha))
  have hsub := h.shows i a node hi ha
  have hij : i = j := by
    rcases (hinv.same i j (groupItem 1 node) e (by simp [hi]) hj).mp (ha.trans hja.symm) with heq | ⟨k, hk, _⟩
    · exact heq
    · rw [hitem] at hk
      cases hk
  subst hij
  rw [List.getElem?_map, hi, Option.map_some, Option.some_inj] at hj
  have hne : node.subflow ≠ "" := fun h => by simp [h] at hpath
  rw [buildCollapsed, List.getElem?_eq_getElem (hinv.lt i a ha), ← he, ← hj, hitem, shown, if_pos hne] at hsub
  exact Bool.noConfusion (congrArg Group.subflow (Option.some.inj hsub))

theorem keysApart_of_isQuotient (hslash : NoLeadingSlash g)
    (h : ∀ level > 0, IsQuotient g level (goBuildCollapsed g level)) : KeysApart g := by
  intro m hm n hn hms hns level hlevel hkey
  obtain ⟨i, hi⟩ := List.getElem?_of_mem hm
  obtain ⟨j, hj⟩ := List.getElem?_of_mem hn
  have hplace := ((Grouping.group_inv (g.nodes.map (goGroupItem level))).same i j (goGroupItem level m)
    (goGroupItem level n) (by simp [hi]) (by simp [hj])).mpr (.inr ⟨'\x00' :: n.name.toList, by
      rw [goGroupItem_eq hlevel (hslash m hm), if_neg hms, hkey], by
      rw [goGroupItem_eq hlevel (hslash n hn), if_pos hns]⟩)
  rcases ((h level hlevel).same i j m n hi hj).mp hplace with rfl | hsame
  · rw [hi] at hj
    cases hj
    exact hms hns
  · exact hsame.2.1 hns

end Render

end Pineapple
