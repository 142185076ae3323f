import Pineapple.DagBuild
import Pineapple.Lib.Kahn

/-! # The cycle check

`TopologicalSort` of `dag.go` and `topological_check` of `dag.cpp` run the same loop, the one keeping the order in
which nodes are taken and the other their number. -/

namespace Pineapple
open Relation

def cycleError (names : List String) : PineError :=
  .config ("DAG contains a cycle involving operators: [" ++ " ".intercalate names ++ "]")

/-- `TopologicalSort`. -/
def goTopologicalSort (g : Graph) : Except PineError (List Nat) :=
  let indegree := g.nodes.map fun n => (n.preds.length : Int)
  let queue := (List.range g.nodes.length).filter fun i => indegree.getD i 0 = 0
  let r := Kahn.loop g.succs (g.nodes.length + 1) indegree queue []
  if r.2.length ≠ g.nodes.length then
    .error (cycleError ((g.nodes.zip r.1).filterMap fun e => if 0 < e.2 then some e.1.name else none))
  else .ok r.2

namespace Graph

/-- The predecessor and successor lists agree. -/
def Consistent (g : Graph) : Prop := ∀ u v, (g.preds v).count u = (g.succs u).count v

def OnCycle (g : Graph) (v : Nat) : Prop := TransGen g.Edge v v

def Acyclic (g : Graph) : Prop := ∀ v, ¬ g.OnCycle v

/-- The node comes after a cycle, or lies on it. -/
def BehindCycle (g : Graph) (v : Nat) : Prop := ∃ u, g.OnCycle u ∧ g.Reach u v

open Classical in
/-- The names of the operators with a property, in their order. -/
noncomputable def namesOf (g : Graph) (p : Nat → Prop) : List String :=
  g.nodes.zipIdx.filterMap fun e => if p e.2 then some e.1.name else none

/-- Sorted where it is acyclic, and otherwise rejected by name of the operators on cycles, on both sides. -/
structure Sorted (g : Graph) : Prop where
  order : g.Acyclic → ∃ order, goTopologicalSort g = .ok order ∧ order.Perm (List.range g.nodes.length) ∧
    ∀ u v, g.Edge u v → order.idxOf u < order.idxOf v
  cycle : ¬ g.Acyclic → goTopologicalSort g = .error (cycleError (g.namesOf g.OnCycle))
  same : topologicalCheck g = (goTopologicalSort g).map fun _ => ()

/-! ## Consistent graphs -/

variable {g : Graph}

theorem lt_of_mem_succs {u v : Nat} (h : v ∈ g.succs u) : u < g.nodes.length := by
  by_contra hu
  rw [succs, List.getElem?_eq_none (by omega)] at h
  exact List.not_mem_nil h

theorem lt_of_mem_preds {u v : Nat} (h : u ∈ g.preds v) : v < g.nodes.length := by
  by_contra hv
  rw [preds, List.getElem?_eq_none (by omega)] at h
  exact List.not_mem_nil h

theorem Consistent.mirrored (h : g.Consistent) : Kahn.Mirrored g.nodes.length g.succs g.preds where
  dual := h
  lt u v hv := by
    refine ⟨lt_of_mem_succs hv, lt_of_mem_preds (u := u) ?_⟩
    rw [← List.count_pos_iff, h]
    exact List.count_pos_iff.mpr hv

/-- Where the loop ends. -/
theorem Consistent.loop (h : g.Consistent) {r : List Int × List Nat}
    (hr : r = Kahn.loop g.succs (g.nodes.length + 1) (g.nodes.map fun n => (n.preds.length : Int))
      ((List.range g.nodes.length).filter fun i => (g.nodes.map fun n => (n.preds.length : Int)).getD i 0 = 0) []) :
    Kahn.Inv g.nodes.length g.preds r.1 [] r.2 := by
  rw [hr]
  refine (Kahn.Inv.init g.nodes.length g.preds (List.length_map _) (fun v hv => ?_) rfl).loop h.mirrored (by simp)
  rw [List.getD_eq_getElem?_getD, List.getElem?_map, preds, List.getElem?_eq_getElem hv]
  rfl

/-- What the loop leaves is what lies behind a cycle. -/
theorem Consistent.left_iff (h : g.Consistent) {r : List Int × List Nat}
    (hr : Kahn.Inv g.nodes.length g.preds r.1 [] r.2) {v : Nat} (hv : v < g.nodes.length) :
    0 < r.1.getD v 0 ↔ g.BehindCycle v := by
  rw [hr.indegree_pos_iff hv]
  exact hr.not_mem_order_iff h.mirrored hv

theorem onCycle_lt {v : Nat} (h : g.OnCycle v) : v < g.nodes.length := by
  obtain ⟨w, he, -⟩ := TransGen.head'_iff.mp h
  exact lt_of_mem_succs he

theorem Consistent.length_iff (h : g.Consistent) {r : List Int × List Nat}
    (hr : Kahn.Inv g.nodes.length g.preds r.1 [] r.2) : r.2.length = g.nodes.length ↔ g.Acyclic := by
  rw [hr.length_order_iff]
  constructor
  · intro hall v hcycle
    exact (hr.not_mem_order_iff h.mirrored (onCycle_lt hcycle)).mpr ⟨v, hcycle, .refl⟩ (hall v (onCycle_lt hcycle))
  · intro hacyclic v hv
    by_contra hnot
    obtain ⟨u, hcycle, -⟩ := (hr.not_mem_order_iff h.mirrored hv).mp hnot
    exact hacyclic u hcycle

/-! ## The names -/

theorem namesOf_left {indegree : List Int} (hlength : indegree.length = g.nodes.length) :
    ((g.nodes.zip indegree).filterMap fun e => if 0 < e.2 then some e.1.name else none) =
      g.namesOf fun v => 0 < indegree.getD v 0 := by
  have hrange : indegree = (List.range g.nodes.length).map fun v => indegree.getD v 0 := by
    refine List.ext_getElem (by simp [hlength]) fun i h₁ h₂ => ?_
    simp [List.getElem?_eq_getElem h₁]
  unfold namesOf
  rw [List.zipIdx_eq_zip_range', ← List.range_eq_range']
  conv_lhs => rw [hrange, List.zip_map_right, List.filterMap_map]
  refine List.filterMap_congr fun e _ => ?_
  simp

theorem namesOf_congr {p q : Nat → Prop} (h : ∀ v < g.nodes.length, p v ↔ q v) : g.namesOf p = g.namesOf q := by
  refine List.filterMap_congr fun e he => ?_
  have hlt : e.2 < g.nodes.length := by
    obtain ⟨-, hlt, -⟩ := List.mem_zipIdx he
    simpa using hlt
  by_cases hp : p e.2
  · rw [if_pos hp, if_pos ((h e.2 hlt).mp hp)]
  · rw [if_neg hp, if_neg fun hq => hp ((h e.2 hlt).mpr hq)]

theorem length_namesOf (p : Nat → Prop) [DecidablePred p] :
    (g.namesOf p).length = (List.range g.nodes.length).countP (p ·) := by
  unfold namesOf
  rw [List.length_filterMap_eq_countP, List.range_eq_range', ← List.zipIdx_map_snd 0 g.nodes, List.countP_map]
  refine List.countP_congr fun e _ => ?_
  by_cases hp : p e.2 <;> simp [hp]

theorem namesOf_sublist {p q : Nat → Prop} (h : ∀ v, p v → q v) : (g.namesOf p).Sublist (g.namesOf q) := by
  unfold namesOf
  induction g.nodes.zipIdx with
  | nil => exact List.Sublist.refl _
  | cons e es ih =>
    rw [List.filterMap_cons, List.filterMap_cons]
    by_cases hp : p e.2
    · rw [if_pos hp, if_pos (h e.2 hp)]
      exact ih.cons_cons _
    · rw [if_neg hp]
      by_cases hq : q e.2
      · rw [if_pos hq]
        exact ih.cons _
      · rw [if_neg hq]
        exact ih

/-- Among properties one of which implies the other, the names tell which nodes have them. -/
theorem iff_of_length_namesOf {p q : Nat → Prop} (h : ∀ v, p v → q v)
    (hlength : (g.namesOf p).length = (g.namesOf q).length) {v : Nat} (hv : v < g.nodes.length) : p v ↔ q v := by
  classical
  refine ⟨h v, fun hq => ?_⟩
  by_contra hp
  have hlt : (List.range g.nodes.length).countP (p ·) < (List.range g.nodes.length).countP (q ·) := by
    rw [List.countP_eq_length_filter, List.countP_eq_length_filter]
    have hsub : ((List.range g.nodes.length).filter (p ·)).Sublist ((List.range g.nodes.length).filter (q ·)) :=
      List.monotone_filter_right _ (by simpa using h)
    refine lt_of_le_of_ne hsub.length_le fun heq => ?_
    have hmem : v ∈ (List.range g.nodes.length).filter (p ·) := by
      rw [hsub.eq_of_length heq]
      simp [hv, hq]
    simp [hp] at hmem
  rw [length_namesOf, length_namesOf] at hlength
  omega

end Graph

/-! ## The message -/

theorem length_intercalate {l : List String} (h : l ≠ []) :
    (" ".intercalate l).toList.length + 1 = (l.map fun s => s.toList.length + 1).sum := by
  induction l with
  | nil => exact absurd rfl h
  | cons s l ih =>
    by_cases hl : l = []
    · subst hl
      simp
    · have := ih hl
      rw [String.intercalate_cons_of_ne_nil hl]
      simp only [String.toList_append, List.length_append, List.map_cons, List.sum_cons]
      have hspace : " ".toList.length = 1 := rfl
      omega

theorem sum_le_of_sublist {l₁ l₂ : List String} (h : l₁.Sublist l₂) :
    (l₁.map fun s => s.toList.length + 1).sum + (l₂.length - l₁.length) ≤ (l₂.map fun s => s.toList.length + 1).sum := by
  induction h with
  | slnil => simp
  | cons s h ih =>
    have := h.length_le
    simp only [List.map_cons, List.sum_cons, List.length_cons]
    omega
  | cons_cons s h ih =>
    simp only [List.map_cons, List.sum_cons, List.length_cons]
    omega

/-- A message that leaves names out is another message. -/
theorem length_eq_of_cycleError {l₁ l₂ : List String} (h : l₁.Sublist l₂) (hne : l₁ ≠ [])
    (heq : cycleError l₂ = cycleError l₁) : l₁.length = l₂.length := by
  have hne₂ : l₂ ≠ [] := fun hnil => hne (List.sublist_nil.mp (hnil ▸ h))
  have hstring : " ".intercalate l₂ = " ".intercalate l₁ := by
    have hinj := PineError.config.inj heq
    have hlist := congrArg String.toList hinj
    simp only [String.toList_append, List.append_cancel_left_eq, List.append_cancel_right_eq] at hlist
    exact String.toList_injective hlist
  have h₁ := length_intercalate hne
  have h₂ := length_intercalate hne₂
  have hsum := sum_le_of_sublist h
  have hle := h.length_le
  rw [hstring] at h₂
  omega

/-! ## The two engines -/

theorem topologicalLoop_eq (g : Graph) (fuel : Nat) (indegree : List Int) (queue order : List Nat) :
    topologicalLoop g fuel indegree queue order.length =
      ((Kahn.loop g.succs fuel indegree queue order).1, (Kahn.loop g.succs fuel indegree queue order).2.length) := by
  induction fuel generalizing indegree queue order with
  | zero => rfl
  | succ fuel ih =>
    cases queue with
    | nil => rfl
    | cons u queue =>
      have hlength : order.length + 1 = (order ++ [u]).length := by simp
      rw [topologicalLoop, Kahn.loop, hlength, ih]
      rfl

theorem topologicalCheck_eq (g : Graph) : topologicalCheck g = (goTopologicalSort g).map fun _ => () := by
  unfold topologicalCheck goTopologicalSort
  have hloop := topologicalLoop_eq g (g.nodes.length + 1) (g.nodes.map fun n => (n.preds.length : Int))
    ((List.range g.nodes.length).filter fun i => (g.nodes.map fun n => (n.preds.length : Int)).getD i 0 = 0) []
  rw [List.length_nil] at hloop
  simp only [hloop]
  split_ifs <;> first | rfl | contradiction

theorem goTopologicalSort_acyclic {g : Graph} (h : g.Consistent) (hacyclic : g.Acyclic) :
    ∃ order, goTopologicalSort g = .ok order ∧ order.Perm (List.range g.nodes.length) ∧
      ∀ u v, g.Edge u v → order.idxOf u < order.idxOf v := by
  have hinv := h.loop rfl
  have hlength := (h.length_iff hinv).mpr hacyclic
  have hall := hinv.length_order_iff.mp hlength
  refine ⟨_, if_neg (not_not.mpr hlength), hinv.perm_range hall, fun u v he => ?_⟩
  have hv := (h.mirrored.lt u v he).2
  exact (hinv.idxOf_lt (hall v hv) (h.mirrored.mem_iff.mpr he)).2

/-- A graph with a cycle is rejected by the names of all that lies behind one. -/
theorem goTopologicalSort_cyclic {g : Graph} (h : g.Consistent) (hcyclic : ¬ g.Acyclic) :
    goTopologicalSort g = .error (cycleError (g.namesOf g.BehindCycle)) := by
  have hinv := h.loop rfl
  have hlength := (h.length_iff hinv).not.mpr hcyclic
  unfold goTopologicalSort
  rw [if_pos hlength, Graph.namesOf_left hinv.length]
  exact congrArg (fun names => Except.error (cycleError names)) (Graph.namesOf_congr fun v hv => h.left_iff hinv hv)

namespace Graph
variable {g : Graph}

theorem OnCycle.behind {v : Nat} (h : g.OnCycle v) : g.BehindCycle v := ⟨v, h, .refl⟩

theorem Consistent.lt_of_behind (h : g.Consistent) {v : Nat} (hv : g.BehindCycle v) : v < g.nodes.length := by
  obtain ⟨u, hu, hr⟩ := hv
  rcases ReflTransGen.cases_tail hr with heq | ⟨w, -, he⟩
  · rw [heq]
    exact onCycle_lt hu
  · exact (h.mirrored.lt w v he).2

theorem Sorted.onCycle (hsorted : g.Sorted) (h : g.Consistent) {v : Nat} (hv : g.BehindCycle v) : g.OnCycle v := by
  classical
  obtain ⟨u, hu, -⟩ := id hv
  have hcyclic : ¬ g.Acyclic := fun hacyclic => hacyclic u hu
  have herror := hsorted.cycle hcyclic
  rw [goTopologicalSort_cyclic h hcyclic] at herror
  have hsub : (g.namesOf g.OnCycle).Sublist (g.namesOf g.BehindCycle) := namesOf_sublist fun _ => OnCycle.behind
  have hne : g.namesOf g.OnCycle ≠ [] := by
    have hpos : 0 < (List.range g.nodes.length).countP (g.OnCycle ·) :=
      List.countP_pos_iff.mpr ⟨u, List.mem_range.mpr (onCycle_lt hu), by simpa using hu⟩
    rw [← length_namesOf] at hpos
    exact List.ne_nil_of_length_pos hpos
  have hlength := length_eq_of_cycleError hsub hne (Except.error.inj herror)
  exact (iff_of_length_namesOf (fun _ => OnCycle.behind) hlength (h.lt_of_behind hv)).mpr hv

/-- To check consistency it is enough to look at the nodes there are. -/
theorem consistent_of_bounded (hsuccs : ∀ u < g.nodes.length, ∀ v ∈ g.succs u, v < g.nodes.length)
    (hpreds : ∀ v < g.nodes.length, ∀ u ∈ g.preds v, u < g.nodes.length)
    (h : ∀ u < g.nodes.length, ∀ v < g.nodes.length, (g.preds v).count u = (g.succs u).count v) : g.Consistent := by
  intro u v
  by_cases hu : u < g.nodes.length
  · by_cases hv : v < g.nodes.length
    · exact h u hu v hv
    · rw [List.count_eq_zero.mpr fun hm => hv (hsuccs u hu v hm),
        List.count_eq_zero.mpr fun hm => hv (lt_of_mem_preds hm)]
  · rw [List.count_eq_zero.mpr fun hm => hu (lt_of_mem_succs hm),
      List.count_eq_zero.mpr fun hm => hu (hpreds v (lt_of_mem_preds hm) u hm)]

end Graph

/-- The sort names the operators on cycles where nothing but them lies behind one. -/
theorem topologicalSort_right_iff {g : Graph} (h : g.Consistent) :
    g.Sorted ↔ ∀ v, g.BehindCycle v → g.OnCycle v := by
  refine ⟨fun hsorted v hv => hsorted.onCycle h hv, fun hall => ?_⟩
  refine ⟨goTopologicalSort_acyclic h, fun hcyclic => ?_, topologicalCheck_eq g⟩
  rw [goTopologicalSort_cyclic h hcyclic, Graph.namesOf_congr fun v _ => ⟨hall v, Graph.OnCycle.behind⟩]

/-- `entry → loop_x → loop_y → loop_x`. -/
def partialCycle : Graph where
  nodes := [
    { name := "entry", subflow := "", config := {}, succs := [1] },
    { name := "loop_x", subflow := "", config := {}, preds := [0, 2], succs := [2] },
    { name := "loop_y", subflow := "", config := {}, preds := [1], succs := [1] }]

theorem topologicalSort_right_partialCycle : partialCycle.Sorted := by
  have hconsistent : partialCycle.Consistent := Graph.consistent_of_bounded (by decide) (by decide) (by decide)
  refine (topologicalSort_right_iff hconsistent).mpr fun v hv => ?_
  have h₁₂ : partialCycle.Edge 1 2 := by decide
  have h₂₁ : partialCycle.Edge 2 1 := by decide
  have hentry : ∀ w, ¬ partialCycle.Edge w 0 := fun w he =>
    List.not_mem_nil (hconsistent.mirrored.mem_iff.mpr he)
  have hlt : v < 3 := hconsistent.lt_of_behind hv
  obtain rfl | rfl | rfl : v = 0 ∨ v = 1 ∨ v = 2 := by omega
  · obtain ⟨u, hu, hr⟩ := hv
    rcases ReflTransGen.cases_tail hr with rfl | ⟨w, -, he⟩
    · obtain ⟨w, -, he⟩ := TransGen.tail'_iff.mp hu
      exact absurd he (hentry w)
    · exact absurd he (hentry w)
  · exact .head h₁₂ (.single h₂₁)
  · exact .head h₂₁ (.single h₁₂)

/-- `loop_x → loop_y → loop_x` and `loop_y → after`: the sort names `after`, which is on no cycle. -/
def behindCycle : Graph where
  nodes := [
    { name := "loop_x", subflow := "", config := {}, preds := [1], succs := [1] },
    { name := "loop_y", subflow := "", config := {}, preds := [0], succs := [0, 2] },
    { name := "after", subflow := "", config := {}, preds := [1] }]

theorem not_topologicalSort_right : ¬ ∀ g : Graph, g.Consistent → g.Sorted := by
  intro h
  have hconsistent : behindCycle.Consistent :=
    Graph.consistent_of_bounded (by decide) (by decide) (by decide)
  have h₀₁ : behindCycle.Edge 0 1 := by decide
  have h₁₀ : behindCycle.Edge 1 0 := by decide
  have h₁₂ : behindCycle.Edge 1 2 := by decide
  have hcycle : behindCycle.OnCycle 2 :=
    (h behindCycle hconsistent).onCycle hconsistent ⟨1, .head h₁₀ (.single h₀₁), .single h₁₂⟩
  obtain ⟨w, he, -⟩ := TransGen.head'_iff.mp hcycle
  exact List.not_mem_nil he

end Pineapple
