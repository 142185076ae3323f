import Pineapple.DagInv

/-! # Hazards are covered by paths (`dag.cpp`)

Two operators whose accesses to a field conflict must not run at once. A tracker forgets: a mutating write
clears the readers and additive writers it orders itself after. `ScanInv` says why nothing is lost. Every
access so far is either listed in its field's tracker or has a path to the last mutating writer. -/

namespace Pineapple
open Relation

/-- How an operator touches a field. -/
inductive Access where
  | read | additive | mutating
deriving DecidableEq

/-- Two reads commute, and so do two additive writes. -/
def Access.Conflicts (a b : Access) : Prop := ¬ (a = .read ∧ b = .read) ∧ ¬ (a = .additive ∧ b = .additive)

/-- The accesses an operator's metadata declares, `_row_set_` included. An operator that touches item fields
and neither adds rows nor consumes the row set still reads the row set. -/
inductive OperatorConfig.Accesses (op : OperatorConfig) : Bool → String → Access → Prop
  | commonRead {f} : f ∈ op.metadata.commonInput ∨ f ∈ op.metadata.commonInputSkip ∨
      f ∈ op.metadata.commonInputTemplate → op.Accesses true f .read
  | commonWrite {f} : f ∈ op.metadata.commonOutput → op.Accesses true f .mutating
  | itemRead {f} : f ∈ op.metadata.itemInput → op.Accesses false f .read
  | itemWrite {f} : f ∈ op.metadata.itemOutput → op.additiveWritesRowSet = false → op.Accesses false f .mutating
  | itemAdd {f} : f ∈ op.metadata.itemOutput → op.additiveWritesRowSet = true → op.Accesses false f .additive
  | rowSetAdd : op.additiveWritesRowSet = true → op.Accesses false kRowSet .additive
  | rowSetConsume : op.consumesRowSet = true → op.Accesses false kRowSet .read
  | rowSetRead : op.additiveWritesRowSet = false → op.metadata.itemInput ≠ [] ∨ op.metadata.itemOutput ≠ [] →
      op.Accesses false kRowSet .read
  | rowSetMutate : op.mutatesRowSet = true → op.Accesses false kRowSet .mutating

/-- The operators conflict on some field. -/
def OperatorConfig.Conflicts (a b : OperatorConfig) : Prop :=
  ∃ common field x y, a.Accesses common field x ∧ b.Accesses common field y ∧ x.Conflicts y

/-! ## The scan as a run of accesses -/

/-- One access of operator `i`. -/
def ScanState.access (st : ScanState) (i : Nat) (field : String) : Access → ScanState
  | .read => st.read i field
  | .additive => st.additiveWrite i field
  | .mutating => st.mutatingWrite i field

namespace OperatorConfig

/-- The accesses of one pass in the order `scan_fields` makes them. -/
def scanAccesses (op : OperatorConfig) (common : Bool) : List (String × Access) :=
  (op.scanReads common).map (fun f => (f, .read)) ++
  (op.scanWrites common).map (fun f => (f, if op.additive common then .additive else .mutating)) ++
  if !common && op.mutatesRowSet then [(kRowSet, .mutating)] else []

theorem scanNode_eq (op : OperatorConfig) (common : Bool) (st : ScanState) (i : Nat) :
    scanNode common st i op = (op.scanAccesses common).foldl (fun st a => st.access i a.1 a.2) st := by
  unfold scanNode scanAccesses
  rw [List.foldl_append, List.foldl_append, List.foldl_map, List.foldl_map]
  cases op.additive common <;> cases (!common && op.mutatesRowSet) <;> rfl

end OperatorConfig

theorem mem_foldl_add {src out : List String} {f : String} :
    f ∈ src.foldl (fun out f => if f ∈ out then out else out ++ [f]) out ↔ f ∈ out ∨ f ∈ src := by
  induction src generalizing out with
  | nil => simp
  | cons s src ih =>
    rw [List.foldl_cons, ih, List.mem_cons]
    split
    · next hs =>
      constructor
      · rintro (h | h)
        · exact Or.inl h
        · exact Or.inr (Or.inr h)
      · rintro (h | rfl | h)
        · exact Or.inl h
        · exact Or.inl hs
        · exact Or.inr h
    · rw [List.mem_append, List.mem_singleton]; tauto

theorem Metadata.mem_commonReadFields {m : Metadata} {f : String} :
    f ∈ m.commonReadFields ↔ f ∈ m.commonInput ∨ f ∈ m.commonInputSkip ∨ f ∈ m.commonInputTemplate := by
  unfold commonReadFields
  split
  · next h => simp [h.1, h.2]
  · simp only [mem_foldl_add]; simp; tauto

namespace OperatorConfig
variable {op : OperatorConfig} {f : String}

theorem mem_scanReads_false : f ∈ op.scanReads false ↔ f ∈ op.metadata.itemInput ∨
    f = kRowSet ∧ (op.consumesRowSet = true ∨
      op.additiveWritesRowSet = false ∧ (op.metadata.itemInput ≠ [] ∨ op.metadata.itemOutput ≠ [])) := by
  unfold scanReads
  cases op.consumesRowSet <;> cases op.additiveWritesRowSet <;> simp
  split <;> simp_all

theorem mem_scanWrites_false : f ∈ op.scanWrites false ↔
    f ∈ op.metadata.itemOutput ∨ f = kRowSet ∧ op.additiveWritesRowSet = true := by
  unfold scanWrites
  cases op.additiveWritesRowSet <;> simp

theorem read_mem_scanAccesses {common : Bool} (h : f ∈ op.scanReads common) :
    (f, Access.read) ∈ op.scanAccesses common :=
  List.mem_append_left _ (List.mem_append_left _ (List.mem_map.mpr ⟨f, h, rfl⟩))

theorem write_mem_scanAccesses (common : Bool) (h : f ∈ op.scanWrites common) :
    (f, if op.additive common then Access.additive else .mutating) ∈ op.scanAccesses common :=
  List.mem_append_left _ (List.mem_append_right _ (List.mem_map.mpr ⟨f, h, rfl⟩))

/-- The scan makes every declared access. -/
theorem Accesses.mem_scanAccesses {common : Bool} {a : Access} (h : op.Accesses common f a) :
    (f, a) ∈ op.scanAccesses common := by
  have hwrite : ∀ {ad}, op.additiveWritesRowSet = ad → f ∈ op.scanWrites false →
      (f, if ad then Access.additive else .mutating) ∈ op.scanAccesses false := by
    rintro _ rfl hf
    exact write_mem_scanAccesses false hf
  cases h with
  | commonRead h => exact read_mem_scanAccesses (Metadata.mem_commonReadFields.mpr h)
  | commonWrite h => exact write_mem_scanAccesses true h
  | itemRead h => exact read_mem_scanAccesses (mem_scanReads_false.mpr (Or.inl h))
  | itemWrite h ha => exact hwrite ha (mem_scanWrites_false.mpr (Or.inl h))
  | itemAdd h ha => exact hwrite ha (mem_scanWrites_false.mpr (Or.inl h))
  | rowSetAdd ha => exact hwrite ha (mem_scanWrites_false.mpr (Or.inr ⟨rfl, ha⟩))
  | rowSetConsume h => exact read_mem_scanAccesses (mem_scanReads_false.mpr (Or.inr ⟨rfl, Or.inl h⟩))
  | rowSetRead ha h => exact read_mem_scanAccesses (mem_scanReads_false.mpr (Or.inr ⟨rfl, Or.inr ⟨ha, h⟩⟩))
  | rowSetMutate h => exact List.mem_append_right _ (by simp [h])

end OperatorConfig

/-! ## The scan invariant -/

/-- An access made so far: who, which field, how. -/
structure Event where
  pos : Nat
  field : String
  access : Access

/-- The tracker still knows of the event, by itself or through the last mutating writer. -/
def FieldTracker.Covers (tr : FieldTracker) (g : Graph) (e : Event) : Prop :=
  (∃ w, tr.lastMutWriter = some w ∧ g.Reach e.pos w) ∨
  (e.access = .read ∧ e.pos ∈ tr.activeReaders) ∨
  (e.access = .additive ∧ e.pos ∈ tr.additiveWriters)

/-- The tracker's operators, at most `i`. -/
def FieldTracker.Bound (tr : FieldTracker) (i : Nat) : Prop :=
  ∀ w ∈ tr.lastMutWriter.toList ++ tr.additiveWriters ++ tr.activeReaders, w ≤ i

structure ScanInv (st : ScanState) (i : Nat) (hist : List Event) : Prop where
  graph : GraphInv st.graph
  bound : ∀ f, (st.trackers f).Bound i
  covered : ∀ e ∈ hist, (st.trackers e.field).Covers st.graph e
  hazards : hist.Pairwise fun e₁ e₂ => e₁.field = e₂.field → e₁.access.Conflicts e₂.access →
    st.graph.Reach e₁.pos e₂.pos

theorem FieldTracker.Covers.mono {tr : FieldTracker} {g g' : Graph} {e : Event} (h : tr.Covers g e)
    (hg : ∀ u v, g.Reach u v → g'.Reach u v) : tr.Covers g' e :=
  h.imp_left fun ⟨w, hw, hr⟩ => ⟨w, hw, hg _ _ hr⟩

/-- What an access does: the operators it orders itself after, and the tracker it leaves. -/
def FieldTracker.orderedAfter (tr : FieldTracker) (i : Nat) : Access → List Nat
  | .read => tr.lastMutWriter.toList ++ tr.additiveWriters
  | .additive => tr.lastMutWriter.toList ++ tr.activeReaders.filter (· ≠ i)
  | .mutating => tr.lastMutWriter.toList ++ tr.additiveWriters ++ tr.activeReaders.filter (· ≠ i)

def FieldTracker.next (tr : FieldTracker) (i : Nat) : Access → FieldTracker
  | .read => { tr with activeReaders := tr.activeReaders ++ [i] }
  | .additive => { tr with additiveWriters := tr.additiveWriters ++ [i] }
  | .mutating => { lastMutWriter := some i }

theorem Graph.addEdges_append (g : Graph) (xs ys : List Nat) (dst : Nat) :
    g.addEdges (xs ++ ys) dst = (g.addEdges xs dst).addEdges ys dst := List.foldl_append

theorem ScanState.access_eq (st : ScanState) (i : Nat) (f : String) (a : Access) :
    st.access i f a = {
      graph := st.graph.addEdges ((st.trackers f).orderedAfter i a) i
      trackers := Function.update st.trackers f ((st.trackers f).next i a) } := by
  cases a <;>
    simp only [access, read, additiveWrite, mutatingWrite, FieldTracker.orderedAfter, FieldTracker.next,
      Graph.addEdges_append]

namespace FieldTracker
variable {tr : FieldTracker} {g : Graph} {i : Nat}

theorem Bound.orderedAfter (h : tr.Bound i) (a : Access) : ∀ s ∈ tr.orderedAfter i a, s ≤ i := by
  intro s hs
  apply h s
  cases a <;> simp only [FieldTracker.orderedAfter, List.mem_append, List.mem_filter] at hs ⊢ <;> tauto

theorem Bound.next (h : tr.Bound i) (a : Access) : (tr.next i a).Bound i := by
  intro w hw
  cases a with
  | read =>
    simp only [FieldTracker.next, ← List.append_assoc, List.mem_append, List.mem_singleton] at hw
    rcases hw with hw | rfl
    · exact h w (by simpa [or_assoc] using hw)
    · exact le_rfl
  | additive =>
    simp only [FieldTracker.next, List.mem_append, List.mem_singleton] at hw
    rcases hw with (hw | hw | rfl) | hw
    · exact h w (by simp [hw])
    · exact h w (by simp [hw])
    · exact le_rfl
    · exact h w (by simp [hw])
  | mutating =>
    simp only [FieldTracker.next, Option.toList_some, List.append_nil, List.mem_singleton] at hw
    exact hw.le

/-- An access is ordered after every earlier access it conflicts with. -/
theorem Covers.reach {e : Event} {a : Access} (h : tr.Covers g e) (hc : e.access.Conflicts a)
    (hlt : ∀ s ∈ tr.orderedAfter i a, s < g.nodes.length) :
    (g.addEdges (tr.orderedAfter i a) i).Reach e.pos i := by
  have hself : ∀ {s}, s ∈ tr.orderedAfter i a ∨ s = i → (g.addEdges (tr.orderedAfter i a) i).Reach s i := by
    rintro s (hs | rfl)
    · exact Graph.reach_addEdges hlt hs
    · exact .refl
  rcases h with ⟨w, hw, hr⟩ | ⟨he, hm⟩ | ⟨he, hm⟩
  · refine (Graph.Reach.mono_addEdges hlt hr).trans (hself (Or.inl ?_))
    cases a <;> simp [FieldTracker.orderedAfter, hw]
  · by_cases hi : e.pos = i
    · exact hself (Or.inr hi)
    · refine hself (Or.inl ?_)
      cases a with
      | read => exact absurd ⟨he, rfl⟩ hc.1
      | additive => simp [FieldTracker.orderedAfter, hm, hi]
      | mutating => simp [FieldTracker.orderedAfter, hm, hi]
  · refine hself (Or.inl ?_)
    cases a with
    | read => simp [FieldTracker.orderedAfter, hm]
    | additive => exact absurd ⟨he, rfl⟩ hc.2
    | mutating => simp [FieldTracker.orderedAfter, hm]

/-- The tracker an access leaves covers the earlier accesses. -/
theorem Covers.next {e : Event} {a : Access} (h : tr.Covers g e)
    (hlt : ∀ s ∈ tr.orderedAfter i a, s < g.nodes.length) :
    (tr.next i a).Covers (g.addEdges (tr.orderedAfter i a) i) e := by
  cases a with
  | mutating =>
    -- A mutating write conflicts with every access, so each earlier one gets a path to it.
    have hc : e.access.Conflicts .mutating := ⟨by simp, by simp⟩
    exact Or.inl ⟨i, rfl, h.reach hc hlt⟩
  | read =>
    rcases h with ⟨w, hw, hr⟩ | ⟨he, hm⟩ | ⟨he, hm⟩
    · exact Or.inl ⟨w, hw, Graph.Reach.mono_addEdges hlt hr⟩
    · exact Or.inr (Or.inl ⟨he, List.mem_append_left _ hm⟩)
    · exact Or.inr (Or.inr ⟨he, hm⟩)
  | additive =>
    rcases h with ⟨w, hw, hr⟩ | ⟨he, hm⟩ | ⟨he, hm⟩
    · exact Or.inl ⟨w, hw, Graph.Reach.mono_addEdges hlt hr⟩
    · exact Or.inr (Or.inl ⟨he, hm⟩)
    · exact Or.inr (Or.inr ⟨he, List.mem_append_left _ hm⟩)

/-- The tracker an access leaves covers that access. -/
theorem covers_next_self (tr : FieldTracker) (g : Graph) (i : Nat) (f : String) (a : Access) :
    (tr.next i a).Covers g ⟨i, f, a⟩ := by
  cases a with
  | mutating => exact Or.inl ⟨i, rfl, .refl⟩
  | read => exact Or.inr (Or.inl ⟨rfl, by simp [FieldTracker.next]⟩)
  | additive => exact Or.inr (Or.inr ⟨rfl, by simp [FieldTracker.next]⟩)

end FieldTracker

namespace ScanInv
variable {st : ScanState} {i : Nat} {hist : List Event}

theorem access (h : ScanInv st i hist) (hi : i < st.graph.nodes.length) (f : String) (a : Access) :
    ScanInv (st.access i f a) i (hist ++ [⟨i, f, a⟩]) := by
  rw [ScanState.access_eq]
  have hle := (h.bound f).orderedAfter a
  have hlt : ∀ s ∈ (st.trackers f).orderedAfter i a, s < st.graph.nodes.length := fun s hs => (hle s hs).trans_lt hi
  constructor
  · exact h.graph.addEdges hle hi
  · intro f'
    by_cases hf : f' = f
    · subst hf; simpa using (h.bound f').next a
    · simpa [hf] using h.bound f'
  · intro e he
    rcases List.mem_append.mp he with he | he
    · have hcov := h.covered e he
      by_cases hf : e.field = f
      · subst hf; simpa using hcov.next hlt
      · simpa [hf] using hcov.mono fun _ _ => Graph.Reach.mono_addEdges hlt
    · obtain rfl := List.mem_singleton.mp he
      simpa using FieldTracker.covers_next_self _ _ i f a
  · refine List.pairwise_append.mpr ⟨?_, List.pairwise_singleton _ _, ?_⟩
    · exact h.hazards.imp fun hp hf hc => Graph.Reach.mono_addEdges hlt (hp hf hc)
    · intro e he e' he' hf hc
      obtain rfl := List.mem_singleton.mp he'
      have hcov := h.covered e he
      rw [hf] at hcov
      exact hcov.reach hc hlt

theorem mono {i' : Nat} (h : ScanInv st i hist) (hi : i ≤ i') : ScanInv st i' hist :=
  ⟨h.graph, fun f w hw => (h.bound f w hw).trans hi, h.covered, h.hazards⟩

end ScanInv

/-! ## A whole pass -/

/-- `g'` has the nodes of `g` and at least its edges. -/
structure Graph.Extends (g g' : Graph) : Prop where
  configs : g'.nodes.map Node.config = g.nodes.map Node.config
  nameToIndex : g'.nameToIndex = g.nameToIndex
  edge : ∀ u v, g.Edge u v → g'.Edge u v

namespace Graph.Extends
variable {g g' g'' : Graph}

theorem refl (g : Graph) : g.Extends g := ⟨rfl, rfl, fun _ _ h => h⟩

theorem trans (h : g.Extends g') (h' : g'.Extends g'') : g.Extends g'' :=
  ⟨h'.configs.trans h.configs, h'.nameToIndex.trans h.nameToIndex, fun u v he => h'.edge u v (h.edge u v he)⟩

theorem length (h : g.Extends g') : g'.nodes.length = g.nodes.length := by
  simpa using congrArg List.length h.configs

theorem reach (h : g.Extends g') {u v : Nat} (hr : g.Reach u v) : g'.Reach u v :=
  ReflTransGen.mono h.edge u v hr

theorem addEdges (g : Graph) {srcs : List Nat} (hlt : ∀ s ∈ srcs, s < g.nodes.length) (dst : Nat) :
    g.Extends (g.addEdges srcs dst) :=
  ⟨Graph.configs_addEdges .., Graph.nameToIndex_addEdges .., fun _ _ he => (Graph.edge_addEdges hlt).mpr (Or.inl he)⟩

theorem addEdge (g : Graph) {src : Nat} (hlt : src < g.nodes.length) (dst : Nat) : g.Extends (g.addEdge src dst) :=
  ⟨Graph.configs_addEdge .., Graph.nameToIndex_addEdge .., fun _ _ he => (Graph.edge_addEdge hlt).mpr (Or.inl he)⟩

end Graph.Extends

namespace ScanInv
variable {st : ScanState} {i : Nat} {hist : List Event}

theorem extends_access (h : ScanInv st i hist) (hi : i < st.graph.nodes.length) (f : String) (a : Access) :
    st.graph.Extends (st.access i f a).graph := by
  rw [ScanState.access_eq]
  exact .addEdges _ (fun s hs => ((h.bound f).orderedAfter a s hs).trans_lt hi) i

/-- The accesses of one operator. -/
theorem accesses (as : List (String × Access)) (h : ScanInv st i hist) (hi : i < st.graph.nodes.length) :
    ScanInv (as.foldl (fun st a => st.access i a.1 a.2) st) i (hist ++ as.map fun a => ⟨i, a.1, a.2⟩) ∧
    st.graph.Extends (as.foldl (fun st a => st.access i a.1 a.2) st).graph := by
  induction as generalizing st hist with
  | nil => exact ⟨by simpa using h, .refl _⟩
  | cons a as ih =>
    have hext := h.extends_access hi a.1 a.2
    obtain ⟨hinv, hext'⟩ := ih (h.access hi a.1 a.2) (by rwa [hext.length])
    exact ⟨by simpa using hinv, hext.trans hext'⟩

/-- The accesses of the operators of `cs`, which stand at `i` and on. -/
theorem run (common : Bool) (cs : List OperatorConfig) (h : ScanInv st i hist)
    (hi : i + cs.length ≤ st.graph.nodes.length) :
    ScanInv ((cs.zipIdx i).foldl (fun st e => scanNode common st e.2 e.1) st) (i + cs.length)
      (hist ++ (cs.zipIdx i).flatMap fun e => (e.1.scanAccesses common).map fun a => ⟨e.2, a.1, a.2⟩) ∧
    st.graph.Extends ((cs.zipIdx i).foldl (fun st e => scanNode common st e.2 e.1) st).graph := by
  induction cs generalizing st i hist with
  | nil => exact ⟨by simpa using h, .refl _⟩
  | cons c cs ih =>
    rw [List.length_cons] at hi
    obtain ⟨hinv, hext⟩ := h.accesses (c.scanAccesses common) (by omega)
    rw [← c.scanNode_eq common st i] at hinv hext
    obtain ⟨hinv', hext'⟩ := ih (hinv.mono (Nat.le_succ i)) (by rw [hext.length]; omega)
    refine ⟨?_, hext.trans hext'⟩
    simpa [Nat.add_assoc, Nat.add_comm 1] using hinv'

end ScanInv

/-- One pass of `scan_fields` keeps the graph in shape and puts a path behind every conflict of the pass. -/
theorem scanFields_spec {g : Graph} (h : GraphInv g) (common : Bool) :
    GraphInv (scanFields g common) ∧ g.Extends (scanFields g common) ∧
    ∀ i j oi oj, i < j → (g.nodes.map Node.config)[i]? = some oi → (g.nodes.map Node.config)[j]? = some oj →
      ∀ f x y, (f, x) ∈ oi.scanAccesses common → (f, y) ∈ oj.scanAccesses common → x.Conflicts y →
      (scanFields g common).Reach i j := by
  have hinit : ScanInv { graph := g } 0 [] :=
    ⟨h, fun f w hw => by simp at hw, fun e he => by simp at he, List.Pairwise.nil⟩
  obtain ⟨hinv, hext⟩ := hinit.run common (g.nodes.map Node.config) (by simp)
  refine ⟨hinv.graph, hext, ?_⟩
  intro i j oi oj hij hi hj f x y hx hy hc
  have hpair := (List.pairwise_flatMap.mp (by simpa using hinv.hazards)).2
  obtain ⟨hi', rfl⟩ := List.getElem?_eq_some_iff.mp hi
  obtain ⟨hj', rfl⟩ := List.getElem?_eq_some_iff.mp hj
  have hp := List.pairwise_iff_getElem.mp hpair i j (by simpa using hi') (by simpa using hj') hij
  simp only [List.getElem_zipIdx, Nat.zero_add] at hp
  exact hp ⟨i, f, x⟩ (List.mem_map.mpr ⟨(f, x), hx, rfl⟩) ⟨j, f, y⟩ (List.mem_map.mpr ⟨(f, y), hy, rfl⟩) rfl hc

end Pineapple
