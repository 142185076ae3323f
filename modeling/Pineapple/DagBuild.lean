import Pineapple.DagHazard
import Pineapple.Lib.Except

/-! # The graph `build_dag` returns

`reduce` keeps what is reachable and the sources only add forward edges, so the hazards that the two scans
cover are covered in the final graph. -/

namespace Pineapple
open Relation

/-! ## `reduce` -/

/-- `reachable_without` finds every detour and nothing else. -/
theorem reachableWithout_iff {g : Graph} (h : GraphInv g) {u v : Nat} :
    reachableWithout g u v = true ↔ ∃ w, g.Edge u w ∧ w ≠ v ∧ g.Reach w v := by
  have huniv : ∀ a, ∀ n ∈ g.succs a, n ∈ List.range g.nodes.length :=
    fun a n hn => List.mem_range.mpr (h.forward a n hn).2
  refine Digraph.search_detour_iff h.rank huniv ?_ (by simp) (by simp)
  have hle := List.length_filter_le (fun x => decide (x ∉ ((g.succs u).filter (· ≠ v)).reverse ++ [u]))
    (List.range g.nodes.length)
  rw [List.length_range] at hle
  unfold Digraph.unvisited
  omega

theorem mem_keptEdges {g : Graph} (h : GraphInv g) {u v : Nat} :
    (u, v) ∈ keptEdges g ↔ g.Edge u v ∧ ¬ ∃ w, g.Edge u w ∧ w ≠ v ∧ g.Reach w v := by
  rw [← reachableWithout_iff h]
  simp only [keptEdges, List.mem_flatMap, List.mem_range, List.mem_map, List.mem_filter, Bool.not_eq_true',
    Prod.mk.injEq, Bool.not_eq_true]
  constructor
  · rintro ⟨a, -, b, ⟨hb, hr⟩, rfl, rfl⟩
    exact ⟨hb, hr⟩
  · rintro ⟨he, hr⟩
    exact ⟨u, (h.forward u v he).1.trans (h.forward u v he).2, v, ⟨he, hr⟩, rfl, rfl⟩

theorem succs_eq_nil {g : Graph} (h : ∀ n ∈ g.nodes, n.succs = []) (u : Nat) : g.succs u = [] := by
  unfold Graph.succs
  cases hn : g.nodes[u]? with
  | none => rfl
  | some n => exact h n (List.mem_of_getElem? hn)

theorem preds_eq_nil {g : Graph} (h : ∀ n ∈ g.nodes, n.preds = []) (u : Nat) : g.preds u = [] := by
  unfold Graph.preds
  cases hn : g.nodes[u]? with
  | none => rfl
  | some n => exact h n (List.mem_of_getElem? hn)

theorem graphInv_of_edgeless {g : Graph} (hp : ∀ n ∈ g.nodes, n.preds = []) (hs : ∀ n ∈ g.nodes, n.succs = []) :
    GraphInv g := by
  constructor <;> intro u <;> simp [succs_eq_nil hs, preds_eq_nil hp]

theorem succs_clearEdges (g : Graph) (u : Nat) : (clearEdges g).succs u = [] :=
  succs_eq_nil (by simp [clearEdges]) u

theorem graphInv_clearEdges (g : Graph) : GraphInv (clearEdges g) :=
  graphInv_of_edgeless (by simp [clearEdges]) (by simp [clearEdges])

theorem configs_clearEdges (g : Graph) : (clearEdges g).nodes.map Node.config = g.nodes.map Node.config := by
  simp [clearEdges, Function.comp_def]

/-- Rebuilding a graph from a list of forward edges. -/
theorem foldl_addEdge {g : Graph} (h : GraphInv g) (es : List (Nat × Nat))
    (hes : ∀ e ∈ es, e.1 < e.2 ∧ e.2 < g.nodes.length) :
    GraphInv (es.foldl (fun g e => g.addEdge e.1 e.2) g) ∧ g.Extends (es.foldl (fun g e => g.addEdge e.1 e.2) g) ∧
    ∀ u v, (es.foldl (fun g e => g.addEdge e.1 e.2) g).Edge u v ↔ g.Edge u v ∨ (u, v) ∈ es := by
  induction es generalizing g with
  | nil => exact ⟨h, .refl g, by simp⟩
  | cons e es ih =>
    obtain ⟨hlt, hlen⟩ := hes e List.mem_cons_self
    have hsrc : e.1 < g.nodes.length := hlt.trans hlen
    obtain ⟨hinv, hext, hedge⟩ := ih (h.addEdge hlt.le hlen) (by
      simpa using fun a b hab => hes (a, b) (List.mem_cons_of_mem _ hab))
    refine ⟨hinv, (Graph.Extends.addEdge g hsrc e.2).trans hext, fun u v => ?_⟩
    rw [List.foldl_cons, hedge, Graph.edge_addEdge hsrc, List.mem_cons]
    constructor
    · rintro ((h | ⟨-, rfl, rfl⟩) | h)
      · exact Or.inl h
      · exact Or.inr (Or.inl rfl)
      · exact Or.inr (Or.inr h)
    · rintro (h | rfl | h)
      · exact Or.inl (Or.inl h)
      · exact Or.inl (Or.inr ⟨hlt.ne, rfl, rfl⟩)
      · exact Or.inr h

theorem reduce_spec {g : Graph} (h : GraphInv g) :
    GraphInv (reduce g) ∧ (clearEdges g).Extends (reduce g) ∧
    ∀ u v, (reduce g).Edge u v ↔ (clearEdges g).Edge u v ∨ (u, v) ∈ keptEdges g :=
  foldl_addEdge (graphInv_clearEdges g) (keptEdges g) fun e he => by
    simpa [clearEdges] using h.forward e.1 e.2 ((mem_keptEdges h).mp he).1

/-- The reduced graph has the edges no detour covers. -/
theorem edge_reduce {g : Graph} (h : GraphInv g) {u v : Nat} :
    (reduce g).Edge u v ↔ g.Edge u v ∧ ¬ ∃ w, g.Edge u w ∧ w ≠ v ∧ g.Reach w v := by
  rw [(reduce_spec h).2.2, mem_keptEdges h, Graph.Edge, succs_clearEdges]
  simp

theorem configs_reduce {g : Graph} (h : GraphInv g) :
    (reduce g).nodes.map Node.config = g.nodes.map Node.config :=
  (reduce_spec h).2.1.configs.trans (configs_clearEdges g)

/-- Reduction keeps reachability. -/
theorem reach_reduce {g : Graph} (h : GraphInv g) {u v : Nat} : (reduce g).Reach u v ↔ g.Reach u v := by
  constructor
  · exact fun hr => ReflTransGen.mono (fun _ _ he => ((edge_reduce h).mp he).1) u v hr
  · refine Digraph.reach_of_reduction h.rank fun a b hab => ?_
    by_cases hw : ∃ w, g.Edge a w ∧ w ≠ b ∧ g.Reach w b
    · exact Or.inr hw
    · exact Or.inl ((edge_reduce h).mpr ⟨hab, hw⟩)

/-! ## Nodes and sources -/

/-- The nodes stand in sequence order, each with its operator's configuration and no edges yet. -/
theorem makeNodes_spec {config : Config} {expanded : ExpandedSequence} {g : Graph}
    (h : makeNodes config expanded = .ok g) :
    GraphInv g ∧ g.nodes.map (fun n => some n.config) = expanded.sequence.map config.operators.find? ∧
    g.nodes.map Node.name = expanded.sequence := by
  suffices H : (∀ n ∈ g.nodes, n.preds = []) ∧ (∀ n ∈ g.nodes, n.succs = []) ∧
      g.nodes.map (fun n => some n.config) = expanded.sequence.map config.operators.find? ∧
      g.nodes.map Node.name = expanded.sequence from ⟨graphInv_of_edgeless H.1 H.2.1, H.2.2⟩
  refine Except.foldlM_invariant h (P := fun pre g => (∀ n ∈ g.nodes, n.preds = []) ∧ (∀ n ∈ g.nodes, n.succs = []) ∧
    g.nodes.map (fun n => some n.config) = pre.map config.operators.find? ∧ g.nodes.map Node.name = pre) ?_ ?_
  · simp
  · rintro pre name g g' - ⟨hp, hs, hconf, hname⟩ hstep
    split at hstep
    · cases hstep
    · next op hop =>
      cases hstep
      refine ⟨?_, ?_, by simp [hconf, hop], by simp [hname]⟩
      · intro n hn
        rcases List.mem_append.mp hn with hn | hn
        · exact hp n hn
        · rw [List.mem_singleton.mp hn]
      · intro n hn
        rcases List.mem_append.mp hn with hn | hn
        · exact hs n hn
        · rw [List.mem_singleton.mp hn]

/-- A declared source adds an edge from an earlier operator. -/
theorem addSource_eq {op : OperatorConfig} {i : Nat} {g g' : Graph} {src : String}
    (h : addSource op i g src = .ok g') : ∃ j, g.nameToIndex.find? src = some j ∧ j < i ∧ g' = g.addEdge j i := by
  unfold addSource at h
  split at h
  · cases h
  · next j hj =>
    split at h
    · cases h
    · cases h; exact ⟨j, hj, by omega, rfl⟩

theorem addSources_spec {g g' : Graph} (hg : GraphInv g) (h : addSources g = .ok g') :
    GraphInv g' ∧ g.Extends g' := by
  refine Except.foldlM_invariant h (P := fun _ g' => GraphInv g' ∧ g.Extends g') ⟨hg, .refl g⟩ ?_
  rintro - ⟨op, i⟩ t t' hmem ht hstep
  have hi : i < g.nodes.length := by
    have := List.mem_zipIdx hmem
    simpa using this.2.1
  refine Except.foldlM_invariant hstep (P := fun _ t' => GraphInv t' ∧ g.Extends t') ht ?_
  rintro - src u u' - ⟨hu, hext⟩ hsrc
  obtain ⟨j, -, hji, rfl⟩ := addSource_eq hsrc
  have hlen := hext.length
  exact ⟨hu.addEdge hji.le (by omega), hext.trans (.addEdge u (by omega) i)⟩

/-! ## `build_dag` -/

/-- The configuration of the operator at a position of the sequence. -/
def operatorAt (config : Config) (expanded : ExpandedSequence) (i : Nat) : Option OperatorConfig :=
  expanded.sequence[i]? >>= config.operators.find?

/-- What `build_dag` makes: a graph in shape, with the sequence's operators and a path behind every hazard. -/
structure BuildSpec (config : Config) (expanded : ExpandedSequence) (g : Graph) : Prop where
  inv : GraphInv g
  length : g.nodes.length = expanded.sequence.length
  operator : ∀ i, g.nodes[i]?.map Node.config = operatorAt config expanded i
  hazard : ∀ i j oi oj, i < j → operatorAt config expanded i = some oi → operatorAt config expanded j = some oj →
    oi.Conflicts oj → g.Reach i j

theorem map_config_eq_operatorAt {config : Config} {expanded : ExpandedSequence} {g : Graph}
    (h : g.nodes.map (fun n => some n.config) = expanded.sequence.map config.operators.find?) (i : Nat) :
    (g.nodes.map Node.config)[i]? = operatorAt config expanded i := by
  have hi := congrArg (fun l => l[i]?.join) h
  simp only [List.getElem?_map] at hi
  rw [List.getElem?_map, operatorAt]
  cases hn : g.nodes[i]? <;> cases hs : expanded.sequence[i]? <;> simp_all

theorem buildDag_spec {config : Config} {expanded : ExpandedSequence} {g : Graph}
    (h : buildDag config expanded = .ok g) : BuildSpec config expanded g := by
  unfold buildDag at h
  obtain ⟨g₀, h₀, h⟩ := Except.bind_eq_ok.mp h
  obtain ⟨g₃, h₃, h⟩ := Except.bind_eq_ok.mp h
  obtain ⟨⟨⟩, -, h⟩ := Except.bind_eq_ok.mp h
  obtain rfl := Except.pure_eq_ok.mp h
  obtain ⟨inv₀, hconf, hname⟩ := makeNodes_spec h₀
  obtain ⟨inv₁, ext₁, haz₁⟩ := scanFields_spec inv₀ true
  obtain ⟨inv₂, ext₂, haz₂⟩ := scanFields_spec inv₁ false
  obtain ⟨inv₃, ext₃⟩ := addSources_spec inv₂ h₃
  have hops := map_config_eq_operatorAt hconf
  have hcfg : (reduce g₃).nodes.map Node.config = g₀.nodes.map Node.config :=
    (configs_reduce inv₃).trans ((ext₁.trans ext₂).trans ext₃).configs
  refine ⟨(reduce_spec inv₃).1, ?_, fun i => ?_, ?_⟩
  · rw [← hname]; simpa using congrArg List.length hcfg
  · rw [← hops, ← hcfg, List.getElem?_map]
  · rintro i j oi oj hij hi hj ⟨common, f, x, y, hx, hy, hc⟩
    rw [← hops] at hi hj
    apply (reach_reduce inv₃).mpr
    cases common with
    | true => exact (ext₂.trans ext₃).reach (haz₁ i j oi oj hij hi hj f x y hx.mem_scanAccesses hy.mem_scanAccesses hc)
    | false =>
      rw [← ext₁.configs] at hi hj
      exact ext₃.reach (haz₂ i j oi oj hij hi hj f x y hx.mem_scanAccesses hy.mem_scanAccesses hc)

/-- Every operator lies ahead of each earlier one it conflicts with. -/
theorem buildDag_hazard_complete (config : Config) (expanded : ExpandedSequence) (g : Graph)
    (h : buildDag config expanded = .ok g) (i j : Nat) (hij : i < j) (oi oj : OperatorConfig)
    (hi : operatorAt config expanded i = some oi) (hj : operatorAt config expanded j = some oj)
    (hc : oi.Conflicts oj) : TransGen g.Edge i j :=
  (reflTransGen_iff_eq_or_transGen.mp ((buildDag_spec h).hazard i j oi oj hij hi hj hc)).resolve_left hij.ne'

/-- A writer, an overwriting writer and a reader of `x`: the reader lies ahead of the first writer, over the
second one, though no edge joins the two. -/
theorem buildDag_hazard_complete_chain :
    let a : OperatorConfig := { name := "a", metadata := { commonOutput := ["x"] } }
    let b : OperatorConfig := { name := "b", metadata := { commonOutput := ["x"] } }
    let c : OperatorConfig := { name := "c", metadata := { commonInput := ["x"] } }
    let config : Config := { operators := SortedMap.ofList [("a", a), ("b", b), ("c", c)] }
    ∃ g, buildDag config { sequence := ["a", "b", "c"] } = .ok g ∧ ¬ g.Edge 0 2 ∧ TransGen g.Edge 0 2 := by
  intro a b c config
  have hc : a.Conflicts c :=
    ⟨true, "x", .mutating, .read, .commonWrite (by decide), .commonRead (by decide), by decide, by decide⟩
  have hg : buildDag config { sequence := ["a", "b", "c"] } =
      .ok ((buildDag config { sequence := ["a", "b", "c"] }).toOption.getD {}) := by decide +kernel
  exact ⟨_, hg, by decide +kernel,
    buildDag_hazard_complete config _ _ hg 0 2 (by decide) a c (by decide +kernel) (by decide +kernel) hc⟩

end Pineapple
