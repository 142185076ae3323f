import Pineapple.Dag

/-! # The shape of the operator graph

`GraphInv`: predecessor and successor lists mirror each other, hold no node twice, and every edge goes
forward in the sequence. `addEdge` keeps it for a forward edge, so every stage of `buildDag` does. -/

namespace Pineapple

structure GraphInv (g : Graph) : Prop where
  dual : ∀ u v, u ∈ g.preds v ↔ v ∈ g.succs u
  forward : ∀ u v, v ∈ g.succs u → u < v ∧ v < g.nodes.length
  succs_nodup : ∀ u, (g.succs u).Nodup
  preds_nodup : ∀ u, (g.preds u).Nodup

/-- `GraphInv` without a word on the direction of the edges. -/
structure GraphShape (g : Graph) : Prop where
  dual : ∀ u v, u ∈ g.preds v ↔ v ∈ g.succs u
  lt : ∀ u v, v ∈ g.succs u → v < g.nodes.length
  succs_nodup : ∀ u, (g.succs u).Nodup
  preds_nodup : ∀ u, (g.preds u).Nodup

namespace Graph
variable {g : Graph} {src dst : Nat}

/-! ## `addEdge` -/

@[simp] theorem length_addEdge (g : Graph) (src dst : Nat) : (g.addEdge src dst).nodes.length = g.nodes.length := by
  unfold addEdge
  split
  · rfl
  · split
    · rfl
    · simp

@[simp] theorem nameToIndex_addEdge (g : Graph) (src dst : Nat) : (g.addEdge src dst).nameToIndex = g.nameToIndex := by
  unfold addEdge
  split
  · rfl
  · split <;> rfl

theorem map_modify_config (f : Node → Node) (hf : ∀ n, (f n).config = n.config) (i : Nat) (ns : List Node) :
    (ns.modify i f).map Node.config = ns.map Node.config := by
  apply List.ext_getElem?
  intro j
  simp only [List.getElem?_map, List.getElem?_modify]
  by_cases h : i = j
  · simp [h, Function.comp_def, hf]
  · simp [h]

@[simp] theorem configs_addEdge (g : Graph) (src dst : Nat) :
    (g.addEdge src dst).nodes.map Node.config = g.nodes.map Node.config := by
  unfold addEdge
  split
  · rfl
  · split
    · rfl
    · rw [map_modify_config, map_modify_config] <;> simp

theorem succs_addEdge (hsrc : src < g.nodes.length) (u : Nat) :
    (g.addEdge src dst).succs u =
      if src ≠ dst ∧ dst ∉ g.succs src ∧ u = src then g.succs u ++ [dst] else g.succs u := by
  unfold addEdge
  by_cases h₁ : src = dst
  · simp [h₁]
  by_cases h₂ : dst ∈ g.succs src
  · simp [h₁, h₂]
  rw [if_neg h₁, if_neg h₂]
  by_cases hu : u = src
  · subst hu
    rw [if_pos ⟨h₁, h₂, rfl⟩]
    simp [succs, List.getElem?_eq_getElem hsrc, Ne.symm h₁]
  · rw [if_neg (fun h => hu h.2.2)]
    simp only [succs, List.getElem?_modify, Ne.symm hu, if_false]
    by_cases hd : dst = u <;> cases g.nodes[u]? <;> simp [hd]

theorem preds_addEdge (hdst : dst < g.nodes.length) (u : Nat) :
    (g.addEdge src dst).preds u =
      if src ≠ dst ∧ dst ∉ g.succs src ∧ u = dst then g.preds u ++ [src] else g.preds u := by
  unfold addEdge
  by_cases h₁ : src = dst
  · simp [h₁]
  by_cases h₂ : dst ∈ g.succs src
  · simp [h₁, h₂]
  rw [if_neg h₁, if_neg h₂]
  by_cases hu : u = dst
  · subst hu
    rw [if_pos ⟨h₁, h₂, rfl⟩]
    simp [preds, List.getElem?_eq_getElem hdst, h₁]
  · rw [if_neg (fun h => hu h.2.2)]
    simp only [preds, List.getElem?_modify, Ne.symm hu, if_false]
    by_cases hd : src = u <;> cases g.nodes[u]? <;> simp [hd]

theorem edge_addEdge (hsrc : src < g.nodes.length) {u v : Nat} :
    (g.addEdge src dst).Edge u v ↔ g.Edge u v ∨ src ≠ dst ∧ u = src ∧ v = dst := by
  unfold Edge
  rw [succs_addEdge hsrc]
  split
  · next h => obtain ⟨h₁, -, rfl⟩ := h; simp [h₁]
  · next h =>
    constructor
    · exact Or.inl
    · rintro (h' | ⟨h₁, rfl, rfl⟩)
      · exact h'
      · exact by_contra fun h₂ => h ⟨h₁, h₂, rfl⟩

end Graph

/-- An edge between two nodes of the graph keeps it in shape; a self edge is not added. -/
theorem GraphShape.addEdge {g : Graph} {src dst : Nat} (h : GraphShape g) (hsrc : src < g.nodes.length)
    (hdst : dst < g.nodes.length) : GraphShape (g.addEdge src dst) := by
  constructor
  · intro u v
    rw [Graph.succs_addEdge hsrc, Graph.preds_addEdge hdst]
    by_cases hnew : src ≠ dst ∧ dst ∉ g.succs src
    · by_cases hu : u = src <;> by_cases hv : v = dst <;> simp [hnew.1, hnew.2, hu, hv, h.dual]
    · rw [if_neg (fun hc => hnew ⟨hc.1, hc.2.1⟩), if_neg (fun hc => hnew ⟨hc.1, hc.2.1⟩)]
      exact h.dual u v
  · intro u v huv
    rw [Graph.length_addEdge]
    rcases (Graph.edge_addEdge hsrc).mp huv with huv | ⟨-, -, rfl⟩
    · exact h.lt u v huv
    · exact hdst
  · intro u
    rw [Graph.succs_addEdge hsrc]
    split
    · next hc =>
      obtain ⟨-, hnot, rfl⟩ := hc
      exact List.nodup_append'.mpr ⟨h.succs_nodup _, List.nodup_singleton _, by simpa using hnot⟩
    · exact h.succs_nodup u
  · intro u
    rw [Graph.preds_addEdge hdst]
    split
    · next hc =>
      obtain ⟨-, hnot, rfl⟩ := hc
      have hnot' : src ∉ g.preds u := fun hm => hnot ((h.dual _ _).mp hm)
      exact List.nodup_append'.mpr ⟨h.preds_nodup _, List.nodup_singleton _, by simpa using hnot'⟩
    · exact h.preds_nodup u

namespace GraphInv
variable {g : Graph} {src dst : Nat}

theorem shape (h : GraphInv g) : GraphShape g :=
  ⟨h.dual, fun u v huv => (h.forward u v huv).2, h.succs_nodup, h.preds_nodup⟩

/-- An edge to a later node keeps the graph in shape, and so does a self edge, which is not added. -/
theorem addEdge (h : GraphInv g) (hle : src ≤ dst) (hdst : dst < g.nodes.length) : GraphInv (g.addEdge src dst) := by
  have hsrc : src < g.nodes.length := by omega
  have hshape := h.shape.addEdge hsrc hdst
  refine ⟨hshape.dual, fun u v huv => ?_, hshape.succs_nodup, hshape.preds_nodup⟩
  rw [Graph.length_addEdge]
  rcases (Graph.edge_addEdge hsrc).mp huv with huv | ⟨hne, rfl, rfl⟩
  · exact h.forward u v huv
  · exact ⟨by omega, hdst⟩

end GraphInv

namespace Graph
open Relation
variable {g : Graph} {srcs : List Nat} {dst : Nat}

/-- `v` lies ahead of `u`. -/
abbrev Reach (g : Graph) : Nat → Nat → Prop := ReflTransGen g.Edge

theorem addEdges_cons (g : Graph) (src : Nat) (srcs : List Nat) (dst : Nat) :
    g.addEdges (src :: srcs) dst = (g.addEdge src dst).addEdges srcs dst := rfl

@[simp] theorem length_addEdges (g : Graph) (srcs : List Nat) (dst : Nat) :
    (g.addEdges srcs dst).nodes.length = g.nodes.length := by
  induction srcs generalizing g with
  | nil => rfl
  | cons src srcs ih => rw [addEdges_cons, ih, length_addEdge]

@[simp] theorem nameToIndex_addEdges (g : Graph) (srcs : List Nat) (dst : Nat) :
    (g.addEdges srcs dst).nameToIndex = g.nameToIndex := by
  induction srcs generalizing g with
  | nil => rfl
  | cons src srcs ih => rw [addEdges_cons, ih, nameToIndex_addEdge]

@[simp] theorem configs_addEdges (g : Graph) (srcs : List Nat) (dst : Nat) :
    (g.addEdges srcs dst).nodes.map Node.config = g.nodes.map Node.config := by
  induction srcs generalizing g with
  | nil => rfl
  | cons src srcs ih => rw [addEdges_cons, ih, configs_addEdge]

/-- The edges of `addEdges`: what was there, and one from each source but `dst` itself. -/
theorem edge_addEdges (hlt : ∀ s ∈ srcs, s < g.nodes.length) {u v : Nat} :
    (g.addEdges srcs dst).Edge u v ↔ g.Edge u v ∨ u ∈ srcs ∧ u ≠ dst ∧ v = dst := by
  induction srcs generalizing g with
  | nil => simp [addEdges]
  | cons src srcs ih =>
    have hsrc : src < g.nodes.length := hlt src List.mem_cons_self
    rw [addEdges_cons, ih (by simpa using fun s hs => hlt s (List.mem_cons_of_mem _ hs)), edge_addEdge hsrc,
      List.mem_cons]
    constructor
    · rintro ((h | ⟨hne, rfl, rfl⟩) | ⟨hm, h⟩)
      · exact Or.inl h
      · exact Or.inr ⟨Or.inl rfl, hne, rfl⟩
      · exact Or.inr ⟨Or.inr hm, h⟩
    · rintro (h | ⟨rfl | hm, hne, rfl⟩)
      · exact Or.inl (Or.inl h)
      · exact Or.inl (Or.inr ⟨hne, rfl, rfl⟩)
      · exact Or.inr ⟨hm, hne, rfl⟩

theorem reach_addEdges (hlt : ∀ s ∈ srcs, s < g.nodes.length) {s : Nat} (hs : s ∈ srcs) :
    (g.addEdges srcs dst).Reach s dst := by
  by_cases h : s = dst
  · exact h ▸ .refl
  · exact .single ((edge_addEdges hlt).mpr (Or.inr ⟨hs, h, rfl⟩))

theorem Reach.mono_addEdges (hlt : ∀ s ∈ srcs, s < g.nodes.length) {u v : Nat} (h : g.Reach u v) :
    (g.addEdges srcs dst).Reach u v :=
  ReflTransGen.mono (fun _ _ he => (edge_addEdges hlt).mpr (Or.inl he)) u v h

end Graph

theorem GraphInv.addEdges {g : Graph} {srcs : List Nat} {dst : Nat} (h : GraphInv g) (hle : ∀ s ∈ srcs, s ≤ dst)
    (hdst : dst < g.nodes.length) : GraphInv (g.addEdges srcs dst) := by
  induction srcs generalizing g with
  | nil => exact h
  | cons src srcs ih =>
    rw [Graph.addEdges_cons]
    exact ih (h.addEdge (hle src List.mem_cons_self) hdst) (fun s hs => hle s (List.mem_cons_of_mem _ hs)) (by simpa)

theorem GraphInv.rank {g : Graph} (h : GraphInv g) : ∀ u v, g.Edge u v → id u < id v :=
  fun u v he => (h.forward u v he).1

theorem GraphInv.le_of_reach {g : Graph} (h : GraphInv g) {u v : Nat} (hr : g.Reach u v) : u ≤ v := by
  induction hr with
  | refl => exact le_rfl
  | tail _ he ih => have := (h.forward _ _ he).1; omega

end Pineapple
