import Mathlib.Data.Fintype.Basic
import Mathlib.Data.Fintype.EquivFin
import Mathlib.Data.List.Count
import Mathlib.Data.List.Nodup
import Mathlib.Data.List.Perm.Subperm
import Mathlib.Data.Set.Finite.Basic
import Mathlib.Logic.Relation
import Mathlib.Order.RelClasses
import Mathlib.Order.WellFounded

/-! # Kahn's algorithm

The nodes are `0, …, n - 1`; the graph is given by the successors and the predecessors of each node, in lists that
may name a node several times. The loop takes a node without predecessors left off the queue until there is none; what
it does not get to is what a cycle reaches. -/

namespace Kahn
open Relation

/-- The in-degree of every successor of the node just taken goes down by one, and one left with none is queued. -/
def relax (indegree : List Int) (queue succs : List Nat) : List Int × List Nat :=
  succs.foldl (fun iq s =>
    let d := iq.1.getD s 0 - 1
    (iq.1.set s d, if d = 0 then iq.2 ++ [s] else iq.2)) (indegree, queue)

/-- The in-degrees left and the order in which the nodes were taken. -/
def loop (succs : Nat → List Nat) : Nat → List Int → List Nat → List Nat → List Int × List Nat
  | 0, indegree, _, order => (indegree, order)
  | _ + 1, indegree, [], order => (indegree, order)
  | fuel + 1, indegree, u :: queue, order =>
    loop succs fuel (relax indegree queue (succs u)).1 (relax indegree queue (succs u)).2 (order ++ [u])

theorem relax_cons (indegree : List Int) (queue : List Nat) (s : Nat) (l : List Nat) :
    relax indegree queue (s :: l) =
      relax (indegree.set s (indegree.getD s 0 - 1))
        (if indegree.getD s 0 - 1 = 0 then queue ++ [s] else queue) l := rfl

theorem getD_set {l : List Int} {s : Nat} (hs : s < l.length) (d : Int) (v : Nat) :
    (l.set s d).getD v 0 = if v = s then d else l.getD v 0 := by
  rw [List.getD_eq_getElem?_getD, List.getD_eq_getElem?_getD, List.getElem?_set]
  by_cases hv : v = s
  · subst hv
    simp [hs]
  · simp [hv, Ne.symm hv]

theorem relax_spec {l : List Nat} {indegree : List Int} {queue : List Nat} (hlt : ∀ s ∈ l, s < indegree.length)
    (hle : ∀ v, (l.count v : Int) ≤ indegree.getD v 0) :
    (relax indegree queue l).1.length = indegree.length ∧
    (∀ v, (relax indegree queue l).1.getD v 0 = indegree.getD v 0 - l.count v) ∧
    ∃ z, (relax indegree queue l).2 = queue ++ z ∧ z.Nodup ∧
      ∀ v, v ∈ z ↔ v ∈ l ∧ indegree.getD v 0 = l.count v := by
  induction l generalizing indegree queue with
  | nil => exact ⟨rfl, by simp [relax], [], by simp [relax], List.nodup_nil, by simp⟩
  | cons s l ih =>
    have hs := hlt s List.mem_cons_self
    have hset := getD_set hs (indegree.getD s 0 - 1)
    have hle' : ∀ v, (l.count v : Int) ≤ (indegree.set s (indegree.getD s 0 - 1)).getD v 0 := by
      intro v
      have hv := hle v
      rw [hset]
      by_cases hvs : v = s
      · subst hvs
        rw [List.count_cons_self] at hv
        rw [if_pos rfl]
        omega
      · rw [List.count_cons_of_ne (Ne.symm hvs)] at hv
        rw [if_neg hvs]
        exact hv
    rw [relax_cons]
    obtain ⟨hlength, hcount, z, hz, hnodup, hmem⟩ :=
      @ih _ (if indegree.getD s 0 - 1 = 0 then queue ++ [s] else queue)
      (fun x hx => by rw [List.length_set]; exact hlt x (List.mem_cons_of_mem _ hx)) hle'
    refine ⟨hlength.trans List.length_set, fun v => ?_, ?_⟩
    · rw [hcount, hset]
      by_cases hvs : v = s
      · subst hvs
        rw [List.count_cons_self, if_pos rfl]
        omega
      · rw [List.count_cons_of_ne (Ne.symm hvs), if_neg hvs]
    · have hself := hle s
      rw [List.count_cons_self] at hself
      -- The last visit of `s` is the one that leaves it without predecessors.
      by_cases hzero : indegree.getD s 0 - 1 = 0
      · have hnot : s ∉ l := by
          rw [← List.count_eq_zero]
          omega
        refine ⟨s :: z, by rw [hz, if_pos hzero, List.append_assoc]; rfl, List.nodup_cons.mpr ⟨fun h => hnot ((hmem s).mp h).1, hnodup⟩,
          fun v => ?_⟩
        rw [List.mem_cons, List.mem_cons, hmem, hset]
        by_cases hvs : v = s
        · subst hvs
          rw [List.count_cons_self, List.count_eq_zero.mpr hnot]
          simp only [true_or, true_and, true_iff]
          omega
        · rw [if_neg hvs, List.count_cons_of_ne (Ne.symm hvs)]
          simp [hvs]
      · refine ⟨z, by rw [hz, if_neg hzero], hnodup, fun v => ?_⟩
        rw [hmem, hset, List.mem_cons]
        by_cases hvs : v = s
        · subst hvs
          rw [List.count_cons_self, if_pos rfl, ← List.count_pos_iff]
          simp only [true_or, true_and]
          omega
        · rw [if_neg hvs, List.count_cons_of_ne (Ne.symm hvs)]
          simp [hvs]

/-- The two sides of every edge agree, and edges join nodes. -/
structure Mirrored (n : Nat) (succs preds : Nat → List Nat) : Prop where
  dual : ∀ u v, (preds v).count u = (succs u).count v
  lt : ∀ u, ∀ v ∈ succs u, u < n ∧ v < n

/-- `order` has been taken, and what has all its predecessors in it is there or on the queue. -/
structure Inv (n : Nat) (preds : Nat → List Nat) (indegree : List Int) (queue order : List Nat) : Prop where
  length : indegree.length = n
  nodup : (order ++ queue).Nodup
  lt : ∀ v ∈ order ++ queue, v < n
  count : ∀ v < n, indegree.getD v 0 = (preds v).countP (· ∉ order)
  ready : ∀ v < n, v ∈ order ++ queue ↔ (preds v).countP (· ∉ order) = 0
  closed : ∀ pre u post, order = pre ++ u :: post → ∀ p ∈ preds u, p ∈ pre

variable {n : Nat} {succs preds : Nat → List Nat} {indegree : List Int} {queue order : List Nat} {u v : Nat}

theorem Mirrored.mem_iff (h : Mirrored n succs preds) : u ∈ preds v ↔ v ∈ succs u := by
  rw [← List.count_pos_iff, h.dual, List.count_pos_iff]

theorem countP_not_mem_append (l : List Nat) (hu : u ∉ order) :
    l.countP (· ∉ order) = l.countP (· ∉ order ++ [u]) + l.count u := by
  induction l with
  | nil => rfl
  | cons x l ih =>
    rw [List.countP_cons, List.countP_cons, List.count_cons, ih]
    by_cases hx : x = u
    · subst hx
      simp [hu]
      omega
    · have hiff : x ∉ order ++ [u] ↔ x ∉ order := by simp [hx]
      simp only [hiff, beq_iff_eq, hx, if_false]
      omega

namespace Inv

theorem init (n : Nat) (preds : Nat → List Nat) (hlength : indegree.length = n)
    (hcount : ∀ v < n, indegree.getD v 0 = (preds v).length)
    (hqueue : queue = (List.range n).filter fun i => indegree.getD i 0 = 0) : Inv n preds indegree queue [] where
  length := hlength
  nodup := by
    rw [hqueue]
    exact List.nodup_range.filter _
  lt v hv := by
    rw [hqueue] at hv
    exact List.mem_range.mp (List.mem_filter.mp hv).1
  count v hv := by
    rw [hcount v hv]
    simp
  ready v hv := by
    have hv' := hcount v hv
    rw [hqueue, List.nil_append, List.mem_filter, List.mem_range, hv']
    simp [hv]
  closed pre u post h := by simp at h

theorem step (h : Inv n preds indegree (u :: queue) order) (hg : Mirrored n succs preds) :
    Inv n preds (relax indegree queue (succs u)).1 (relax indegree queue (succs u)).2 (order ++ [u]) := by
  have hnodup : (order ++ [u] ++ queue).Nodup := by
    rw [List.append_assoc]
    exact h.nodup
  have hu : u ∉ order := fun hm => List.disjoint_of_nodup_append h.nodup hm List.mem_cons_self
  have hsplit : ∀ v, ((preds v).countP (· ∉ order) : Int) = (preds v).countP (· ∉ order ++ [u]) + (succs u).count v := by
    intro v
    rw [countP_not_mem_append _ hu, hg.dual]
    exact Int.natCast_add ..
  have hlt : ∀ s ∈ succs u, s < indegree.length := fun s hs => by rw [h.length]; exact (hg.lt u s hs).2
  have hle : ∀ v, ((succs u).count v : Int) ≤ indegree.getD v 0 := by
    intro v
    by_cases hv : v < n
    · rw [h.count v hv, hsplit]
      omega
    · rw [List.count_eq_zero.mpr fun hm => hv (hg.lt u v hm).2, List.getD_eq_getElem?_getD,
        List.getElem?_eq_none (by rw [h.length]; omega)]
      rfl
  obtain ⟨hlength, hcount, z, hz, hznodup, hzmem⟩ := @relax_spec _ _ queue hlt hle
  -- What is queued now was not without predecessors before.
  have hfresh : ∀ v ∈ z, v ∉ order ++ [u] ++ queue := by
    intro v hv hm
    obtain ⟨hsucc, heq⟩ := (hzmem v).mp hv
    have hlt := (hg.lt u v hsucc).2
    rw [List.append_assoc] at hm
    have hready := (h.ready v hlt).mp hm
    have hpos := List.count_pos_iff.mpr hsucc
    rw [h.count v hlt] at heq
    omega
  rw [hz]
  refine ⟨hlength.trans h.length, ?_, fun v hv => ?_, fun v hv => ?_, fun v hv => ?_, fun pre w post heq p hp => ?_⟩
  · rw [← List.append_assoc]
    exact List.nodup_append'.mpr ⟨hnodup, hznodup, fun v hm hv => hfresh v hv hm⟩
  · rw [← List.append_assoc] at hv
    rcases List.mem_append.mp hv with hv | hv
    · rw [List.append_assoc] at hv
      exact h.lt v hv
    · exact (hg.lt u v ((hzmem v).mp hv).1).2
  · rw [hcount, h.count v hv, hsplit]
    omega
  · have hready := h.ready v hv
    have hs := hsplit v
    have hcount' := h.count v hv
    rw [← List.append_assoc, List.mem_append, hzmem, hcount']
    rw [show order ++ u :: queue = order ++ [u] ++ queue by simp] at hready
    constructor
    · rintro (hm | ⟨_, heq⟩)
      · have := hready.mp hm
        omega
      · omega
    · intro hzero
      by_cases hsucc : v ∈ succs u
      · exact Or.inr ⟨hsucc, by omega⟩
      · have hnone : (succs u).count v = 0 := List.count_eq_zero.mpr hsucc
        exact Or.inl (hready.mpr (by omega))
  · rcases List.eq_nil_or_concat post with rfl | ⟨post', x, rfl⟩
    · obtain ⟨rfl, hw⟩ := List.append_inj' heq rfl
      obtain rfl : u = w := by simpa using hw
      have hmem : u < n := h.lt u (by simp)
      have hzero := (h.ready u hmem).mp (by simp)
      rw [List.countP_eq_zero] at hzero
      simpa using hzero p hp
    · rw [List.concat_eq_append, ← List.cons_append, ← List.append_assoc] at heq
      exact h.closed pre w post' (List.append_inj' heq rfl).1 p hp

theorem length_order_le (h : Inv n preds indegree queue order) : order.length ≤ n := by
  have hsub : order ⊆ List.range n := fun v hv => List.mem_range.mpr (h.lt v (List.mem_append_left _ hv))
  simpa using (List.subperm_of_subset h.nodup.of_append_left hsub).length_le

/-- The loop ends with the queue empty, every round having taken a node. -/
theorem loop (h : Inv n preds indegree queue order) (hg : Mirrored n succs preds) {fuel : Nat}
    (hfuel : n + 1 ≤ order.length + fuel) :
    Inv n preds (Kahn.loop succs fuel indegree queue order).1 [] (Kahn.loop succs fuel indegree queue order).2 := by
  induction fuel generalizing indegree queue order with
  | zero =>
    have := h.length_order_le
    omega
  | succ fuel ih =>
    cases queue with
    | nil => exact h
    | cons u queue =>
      refine ih (h.step hg) ?_
      rw [List.length_append, List.length_singleton]
      omega

/-! ## What the loop leaves -/

variable (h : Inv n preds indegree [] order)
include h

theorem mem_order_iff (hv : v < n) : v ∈ order ↔ ∀ p ∈ preds v, p ∈ order := by
  have hready := h.ready v hv
  rw [List.append_nil] at hready
  rw [hready, List.countP_eq_zero]
  simp

theorem indegree_pos_iff (hv : v < n) : 0 < indegree.getD v 0 ↔ v ∉ order := by
  have hready := h.ready v hv
  rw [List.append_nil] at hready
  rw [h.count v hv, hready]
  omega

theorem idxOf_lt {p : Nat} (hv : v ∈ order) (hp : p ∈ preds v) : p ∈ order ∧ order.idxOf p < order.idxOf v := by
  obtain ⟨pre, post, rfl⟩ := List.append_of_mem hv
  have hmem := h.closed pre v post rfl p hp
  have hnodup := h.nodup
  rw [List.append_nil] at hnodup
  have hnot : v ∉ pre := fun hm => List.disjoint_of_nodup_append hnodup hm List.mem_cons_self
  refine ⟨List.mem_append_left _ hmem, ?_⟩
  rw [List.idxOf_append_of_mem hmem, List.idxOf_append_of_notMem hnot, List.idxOf_cons_self]
  have := List.idxOf_lt_length_of_mem hmem
  omega

theorem idxOf_lt_of_transGen (hg : Mirrored n succs preds) (hv : v ∈ order)
    (hpath : TransGen (fun a b => b ∈ succs a) u v) : u ∈ order ∧ order.idxOf u < order.idxOf v := by
  induction hpath using TransGen.head_induction_on with
  | single he => exact h.idxOf_lt hv (hg.mem_iff.mpr he)
  | head he _ ih =>
    obtain ⟨hmem, hlt⟩ := ih
    have hstep := h.idxOf_lt hmem (hg.mem_iff.mpr he)
    exact ⟨hstep.1, hstep.2.trans hlt⟩

/-- The nodes that are not taken are those a cycle reaches. -/
theorem not_mem_order_iff (hg : Mirrored n succs preds) (hv : v < n) :
    v ∉ order ↔ ∃ u, TransGen (fun a b => b ∈ succs a) u u ∧ ReflTransGen (fun a b => b ∈ succs a) u v := by
  constructor
  · intro hnot
    by_contra hnone
    let T := {x : Fin n // x.1 ∉ order ∧
      ¬ ∃ u, TransGen (fun a b => b ∈ succs a) u u ∧ ReflTransGen (fun a b => b ∈ succs a) u x.1}
    let r : T → T → Prop := fun a b => TransGen (fun a b => b ∈ succs a) a.1.1 b.1.1
    have : IsTrans T r := ⟨fun _ _ _ => TransGen.trans⟩
    have : Std.Irrefl r := ⟨fun a ha => a.2.2 ⟨_, ha, .refl⟩⟩
    have hwf : WellFounded r := Finite.wellFounded_of_trans_of_irrefl r
    obtain ⟨⟨x, hx, hfree⟩, -, hmin⟩ := hwf.has_min Set.univ ⟨⟨⟨v, hv⟩, hnot, hnone⟩, trivial⟩
    -- A node left over has a predecessor that is left over too.
    rw [h.mem_order_iff x.2] at hx
    push Not at hx
    obtain ⟨p, hp, hpleft⟩ := hx
    have he : x.1 ∈ succs p := hg.mem_iff.mp hp
    refine hmin ⟨⟨p, (hg.lt p _ he).1⟩, hpleft, ?_⟩ trivial (.single he)
    rintro ⟨u, hcycle, hreach⟩
    exact hfree ⟨u, hcycle, hreach.tail he⟩
  · rintro ⟨u, hcycle, hreach⟩ hmem
    have hu : u ∈ order := by
      rcases reflTransGen_iff_eq_or_transGen.mp hreach with rfl | hpath
      · exact hmem
      · exact (h.idxOf_lt_of_transGen hg hmem hpath).1
    exact Nat.lt_irrefl _ (h.idxOf_lt_of_transGen hg hu hcycle).2

theorem perm_range (hall : ∀ v < n, v ∈ order) : order.Perm (List.range n) := by
  have hnodup := h.nodup
  rw [List.append_nil] at hnodup
  refine (List.perm_ext_iff_of_nodup hnodup List.nodup_range).mpr fun v => ?_
  rw [List.mem_range]
  exact ⟨fun hv => h.lt v (List.mem_append_left _ hv), hall v⟩

theorem length_order_iff : order.length = n ↔ ∀ v < n, v ∈ order := by
  have hnodup := h.nodup
  rw [List.append_nil] at hnodup
  have hsub : order ⊆ List.range n := fun v hv => List.mem_range.mpr (h.lt v (List.mem_append_left _ hv))
  constructor
  · intro hlength v hv
    have hperm := (List.subperm_of_subset hnodup hsub).perm_of_length_le (by rw [List.length_range]; omega)
    exact hperm.mem_iff.mpr (List.mem_range.mpr hv)
  · intro hall
    simpa using (h.perm_range hall).length_eq

end Inv

end Kahn
