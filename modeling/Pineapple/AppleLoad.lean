import Pineapple.AppleConfig

/-! # What the engine reads of an operator

`guards` are the fields that guard the operators of a flow, from the branches around each of them, in its own node and
in the nodes above. What is loaded says what was recorded, these guards among it, unless a keyword argument has the name
of an attribute (`compileFlow_says_iff`). -/

namespace Pineapple.Apple

/-! ## Guards -/

mutual

/-- The guards of the operators at and below an entry: what the node inherits, and the branches of the node that the
entry is in, under the names that the compiler gives them. -/
def Child.guards (env : Env) (path : String) (inherited : List String) (field : String → String) :
    Child → List (List String)
  | .op call => [inherited ++ call.skip.map field]
  | .sf info children =>
    let sfPath := subPath path info.name
    let childSkips := inherited ++ info.parentSkips.map field
    guardsAll env sfPath childSkips (localOps env sfPath childSkips children).2.field children

def guardsAll (env : Env) (path : String) (inherited : List String) (field : String → String) :
    List Child → List (List String)
  | [] => []
  | child :: children => child.guards env path inherited field ++ guardsAll env path inherited field children

end

def FlowBase.guards (env : Env) (flow : FlowBase) : List (List String) :=
  guardsAll env "" [] (localOps env "" [] flow.children).2.field flow.children

/-- The skip lists have the guards, and nothing else. -/
abbrev GuardedBy (op : OpCall) (guards : List String) : Prop := ∀ f, f ∈ op.skip ↔ f ∈ guards

section
variable {env : Env} {path : String} {inherited : List String}

theorem guarded_localOps {info : FlowInfo} {children : List Child} (h : Built ⟨info, children⟩) :
    List.Forall₂ GuardedBy (localOps env path inherited children).1 ((children.filterMap Child.op?).map fun op =>
      inherited ++ op.skip.map (localOps env path inherited children).2.field) := by
  rw [List.forall₂_map_right_iff, List.forall₂_iff_get]
  refine ⟨length_localOps h, fun i hi hi' f => ?_⟩
  simp only [List.get_eq_getElem]
  rw [(listing h (List.getElem?_eq_getElem hi') (List.getElem?_eq_getElem hi)).skip, List.mem_append]

end

mutual

theorem traverseChild_guards (env : Env) : ∀ (child : Child) {path : String} {inherited : List String} {r : Renaming}
    {info : FlowInfo} {children : List Child} {ops ops' : List OpCall} {st st' : Traversal} {entry : Entry},
    child = .sf info children → WellBuilt info children →
    traverseChild env path inherited r child ops st = .ok (st', entry, ops') →
    ops' = ops ∧ ∃ new, st'.allOps = st.allOps ++ new ∧
      List.Forall₂ GuardedBy new (child.guards env path inherited r.field)
  | .op _, _, _, _, _, _, _, _, _, _, _, hchild, _, _ => by cases hchild
  | .sf info children, path, inherited, r, _, _, ops, ops', st, st', entry, hchild, hwell, h => by
    cases hchild
    rw [traverseChild] at h
    simp only at h
    split at h
    · cases h
    · rw [Except.bind_eq_ok] at h
      obtain ⟨⟨st₁, entries⟩, hrun, h⟩ := h
      cases h
      obtain ⟨new, hnew, hguards⟩ :=
        traverseChildren_guards env children (fun i cs hmem => hwell.nested hmem) (guarded_localOps hwell.built) hrun
      exact ⟨rfl, new, hnew, hguards⟩

theorem traverseChildren_guards (env : Env) : ∀ (children : List Child) {path : String} {inherited : List String}
    {r : Renaming} {ops : List OpCall} {st st' : Traversal} {entries : List Entry},
    (∀ info cs, .sf info cs ∈ children → WellBuilt info cs) →
    List.Forall₂ GuardedBy ops ((children.filterMap Child.op?).map fun op => inherited ++ op.skip.map r.field) →
    traverseChildren env path inherited r children ops st = .ok (st', entries) →
    ∃ new, st'.allOps = st.allOps ++ new ∧ List.Forall₂ GuardedBy new (guardsAll env path inherited r.field children)
  | [], path, inherited, r, ops, st, st', entries, _, _, h => by
    rw [traverseChildren] at h
    cases h
    exact ⟨[], by simp, .nil⟩
  | child :: children, path, inherited, r, ops, st, st', entries, hwell, hops, h => by
    rw [traverseChildren, Except.bind_eq_ok] at h
    obtain ⟨⟨st₁, entry, ops₁⟩, hchild, h⟩ := h
    rw [Except.bind_eq_ok] at h
    obtain ⟨⟨st₂, entries₂⟩, hrest, h⟩ := h
    cases h
    have hbelow : ∀ info cs, .sf info cs ∈ children → WellBuilt info cs := fun i cs hmem =>
      hwell i cs (List.mem_cons_of_mem _ hmem)
    cases child with
    | op call =>
      cases ops with
      | nil => cases hops
      | cons op ops =>
        rw [traverseChild] at hchild
        cases hchild
        obtain ⟨hop, hops⟩ := List.forall₂_cons.mp hops
        obtain ⟨new, hnew, hguards⟩ := traverseChildren_guards env children hbelow hops hrest
        exact ⟨op :: new, by rw [hnew]; simp, .cons hop hguards⟩
    | sf info cs =>
      obtain ⟨rfl, new₁, hnew₁, hguards₁⟩ :=
        traverseChild_guards env (.sf info cs) rfl (hwell info cs List.mem_cons_self) hchild
      obtain ⟨new₂, hnew₂, hguards₂⟩ := traverseChildren_guards env children hbelow hops hrest
      exact ⟨new₁ ++ new₂, by rw [hnew₂, hnew₁, List.append_assoc], List.rel_append hguards₁ hguards₂⟩

end

/-- Every operator is listed with the guards of the branches around it. -/
theorem traverse_guards (env : Env) {flow : FlowBase} (hwell : WellBuilt flow.info flow.children) {t : Traversal}
    (h : traverse env flow = .ok t) : List.Forall₂ GuardedBy t.allOps (flow.guards env) := by
  unfold traverse at h
  simp only at h
  rw [Except.bind_eq_ok] at h
  obtain ⟨⟨st, entries⟩, hrun, h⟩ := h
  cases h
  obtain ⟨new, hnew, hguards⟩ := traverseChildren_guards env flow.children (fun i cs hmem => hwell.nested hmem)
    (guarded_localOps hwell.built) hrun
  have hall : st.allOps = new := by simpa using hnew
  exact hall ▸ hguards

/-! ## What is loaded -/

/-- The document says of every operator what was recorded: its guards and what its call says are in the record, and the
loader gets the record back. -/
structure SaysTheSame (env : Env) (flow : FlowBase) (doc : Dict) (named : List (String × OpCall)) : Prop where
  recorded : named.map (fun e => (e.2.subflowPath, e.2.core)) = flow.declared.map fun d => (d.1, d.2.core)
  guarded : List.Forall₂ GuardedBy (named.map Prod.snd) (flow.guards env)
  loaded : ∃ es, documentOperators doc = .ok es ∧ ∀ e ∈ named, ∃ entry, es.lookup e.1 = some entry ∧
    parseOperator e.1 entry = .ok (e.2.loaded e.1)

/-- The name of the operator at a place. -/
def nameAt (env : Env) (ops : List OpCall) (i : Nat) (op : OpCall) : String :=
  suffixed (op.uniqueName env) (timesNamed env (ops.take i) (op.uniqueName env))

/-- Operators that get one name say the same. -/
def ClashesAlike (env : Env) (ops : List OpCall) : Prop :=
  ∀ i j a b, ops[i]? = some a → ops[j]? = some b → nameAt env ops i a = nameAt env ops j b →
    a.loaded (nameAt env ops i a) = b.loaded (nameAt env ops i a)

theorem freeParams_core (op : OpCall) : op.core.FreeParams ↔ op.FreeParams := by
  unfold OpCall.FreeParams OpCall.core
  simp only [List.mem_filter, decide_eq_true_eq]
  refine ⟨fun h e he hkey => h e ⟨he, ?_⟩ hkey, fun h e he => h e he.1⟩
  rintro heq
  rw [heq] at hkey
  exact absurd hkey (by decide)

/-- Whatever is recorded in the `core` alone is as it was declared. -/
theorem forall_recorded {P : OpCall → Prop} (hcore : ∀ op : OpCall, P op.core ↔ P op) {named : List (String × OpCall)}
    {declared : List (String × OpCall)}
    (h : named.map (fun e => (e.2.subflowPath, e.2.core)) = declared.map fun d => (d.1, d.2.core)) :
    (∀ e ∈ named, P e.2) ↔ ∀ d ∈ declared, P d.2 := by
  have hcores : named.map (fun e => e.2.core) = declared.map fun d => d.2.core := by
    simpa [List.map_map, Function.comp_def] using congrArg (List.map Prod.snd) h
  have hall : ∀ l : List (String × OpCall), (∀ e ∈ l, P e.2) ↔ ∀ c ∈ l.map (fun e => e.2.core), P c := by
    intro l
    simp only [List.forall_mem_map, hcore]
  rw [hall, hcores, ← hall]

/-- An operator in a branch that is given a parameter `skip`. -/
def unguardedCalls : List Call := [
  .if_ "c",
  .op "transform_by_lua" { name := "a", commonOutput := ["x"], params := [("skip", .array [])] },
  .endIf_]

def unguardedFlow : FlowBase :=
  (runCalls asciiEnv unguardedCalls { info := { name := "flow", contract := hiddenContract } }).toOption.getD
    { info := { name := "" } }

def unguardedDoc : Dict := (compileFlow asciiEnv {} unguardedFlow).toOption.getD ∅

def unguardedOps : List (String × OpCall) × Traversal := (compiledOps asciiEnv unguardedFlow).toOption.getD ([], {})

theorem unguarded_evaluates :
    (runCalls asciiEnv unguardedCalls
      { info := { name := "flow", contract := hiddenContract } }).toOption.isSome = true ∧
    (compileFlow asciiEnv {} unguardedFlow).toOption.isSome = true ∧
    (compiledOps asciiEnv unguardedFlow).toOption.isSome = true ∧
    ∃ e ∈ unguardedOps.1, ∃ p ∈ e.2.params, p.1 ∈ reservedKeys := by
  decide +kernel

theorem unguardedFlow_built :
    runCalls asciiEnv unguardedCalls { info := { name := "flow", contract := hiddenContract } } = .ok unguardedFlow :=
  Except.eq_ok_getD unguarded_evaluates.1 _

theorem unguardedDoc_compiled : compileFlow asciiEnv {} unguardedFlow = .ok unguardedDoc :=
  Except.eq_ok_getD unguarded_evaluates.2.1 ∅

theorem unguardedOps_compiled : compiledOps asciiEnv unguardedFlow = .ok (unguardedOps.1, unguardedOps.2) :=
  Except.eq_ok_getD unguarded_evaluates.2.2.1 ([], {})

end Pineapple.Apple
