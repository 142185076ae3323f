import Pineapple.AppleEmit
import Pineapple.Expansion

/-! # The order of a flow's operators

`declared` lists the operators of a flow as they were declared, each with the path of its sub-flow. `traverse` keeps
that list (`traverse_order`), and the engine gets it back when it expands the emitted pipelines
(`compileFlow_expand_iff`). -/

namespace Pineapple.Apple

/-! ## Declaration order -/

mutual

/-- The operators declared at and below an entry of the sub-flow at `path`. -/
def Child.declared (path : String) : Child → List (String × OpCall)
  | .op call => [(path, call)]
  | .sf info children => declaredAll (subPath path info.name) children

def declaredAll (path : String) : List Child → List (String × OpCall)
  | [] => []
  | child :: children => child.declared path ++ declaredAll path children

end

/-- The operators of a flow in declaration order, each with the path of the sub-flow it was declared in. -/
def FlowBase.declared (flow : FlowBase) : List (String × OpCall) := declaredAll "" flow.children

/-- The operator apart from the names of control fields, which the compiler changes also where a script has them, and
from what it adds. -/
def OpCall.core (op : OpCall) : OpCall :=
  { op with
    params := op.params.filter fun e => e.1 ≠ "lua_script"
    skip := [], commonInput := [], commonInputSkip := [], commonInputTemplate := [], commonOutput := [], name := ""
    subflowPath := "" }

section
variable {path : String}

theorem core_applySkipFields (op : OpCall) (fields : List String) : (op.applySkipFields fields).core = op.core := by
  unfold OpCall.applySkipFields
  induction fields generalizing op with
  | nil => rfl
  | cons f fields ih =>
    rw [List.foldl_cons, ih]
    rfl

theorem subflowPath_applySkipFields (op : OpCall) (fields : List String) :
    (op.applySkipFields fields).subflowPath = op.subflowPath := by
  unfold OpCall.applySkipFields
  induction fields generalizing op with
  | nil => rfl
  | cons f fields ih =>
    rw [List.foldl_cons, ih]
    rfl

theorem core_renameField (old new : String) (op : OpCall) : (op.renameField old new).core = op.core := by
  have hparams : (op.renameField old new).params.filter (fun e => decide (e.1 ≠ "lua_script")) =
      op.params.filter fun e => decide (e.1 ≠ "lua_script") := by
    unfold OpCall.renameField
    dsimp only
    induction op.params with
    | nil => rfl
    | cons e params ih =>
      rw [List.map_cons, List.filter_cons, List.filter_cons, ih]
      by_cases hkey : e.1 = "lua_script" <;> simp [hkey]
  unfold OpCall.core
  rw [hparams]
  rfl

theorem map_modify_of_eq {α β : Type} {f : α → β} {g : α → α} (h : ∀ a, f (g a) = f a) (l : List α) (i : Nat) :
    (l.modify i g).map f = l.map f := by
  refine List.ext_getElem? fun j => ?_
  rw [List.getElem?_map, List.getElem?_map, List.getElem?_modify]
  cases l[j]? with
  | none => rfl
  | some a =>
    by_cases hij : i = j
    · simp [hij, h]
    · simp [hij]

theorem map_core_step (st : Renaming) (idx : Nat) : (st.step path idx).ops.map OpCall.core = st.ops.map OpCall.core := by
  unfold Renaming.step
  split
  · rfl
  · split
    · split
      · rfl
      · simp only
        split
        · rfl
        · refine (map_modify_of_eq ?_ _ idx).trans ?_
          · exact fun _ => rfl
          · rw [List.map_map]
            exact List.map_congr_left fun op _ => core_renameField _ _ op
    · rfl

theorem map_core_renameControlFields (ops : List OpCall) :
    (renameControlFields path ops).ops.map OpCall.core = ops.map OpCall.core := by
  unfold renameControlFields
  split
  · rfl
  · generalize List.range ops.length = order
    suffices h : ∀ st : Renaming, (order.foldl (Renaming.step path) st).ops.map OpCall.core = st.ops.map OpCall.core from
      h { ops }
    induction order with
    | nil => exact fun _ => rfl
    | cons idx order ih =>
      intro st
      rw [List.foldl_cons, ih, map_core_step]

/-- The operators of a node, as `traverse` lists them, are those declared in it. -/
theorem localOps_declared (env : Env) (inherited : List String) (children : List Child) :
    (localOps env path inherited children).1.map (fun op => (op.subflowPath, op.core)) =
      (children.filterMap Child.op?).map fun op => (path, op.core) := by
  have hcore := @map_core_renameControlFields path
    ((children.filterMap Child.op?).map (OpCall.injectTemplates env.word))
  rw [List.map_map] at hcore
  have hone : ∀ op : OpCall, ({ op with subflowPath := path } : OpCall).core = op.core := fun _ => rfl
  simp only [localOps, List.map_map, Function.comp_def, core_applySkipFields, subflowPath_applySkipFields, hone]
  have hpair := congrArg (List.map fun c : OpCall => (path, c)) hcore
  rw [List.map_map, List.map_map] at hpair
  exact hpair

end

/-! ## The traversal -/

/-- `_resolve_entry`. -/
def resolveEntry (named : List (String × OpCall)) : Entry → String
  | .op globalIdx => ((named[globalIdx]?).map Prod.fst).getD ""
  | .sf path => path

/-- The configuration has the names of the operators, and for the sub-flows, which have other names, their pipelines. -/
structure Holds (config : Config) (named : List (String × OpCall)) (structures : SortedMap String (List Entry)) :
    Prop where
  operators : ∀ e ∈ named, config.operators.contains e.1 = true
  pipelines : ∀ p entries, p ≠ "" → structures.find? p = some entries →
    config.operators.contains p = false ∧ config.pipelineMap.find? p = some (entries.map (resolveEntry named))

theorem Holds.mono {config : Config} {named : List (String × OpCall)} {s s' : SortedMap String (List Entry)}
    (h : Holds config named s') (hsub : ∀ p entries, s.find? p = some entries → s'.find? p = some entries) :
    Holds config named s :=
  ⟨h.operators, fun p entries hp hfind => h.pipelines p entries hp (hsub p entries hfind)⟩

theorem length_lt_subPath {path : String} (name : String) (h : path ≠ "") : path.length < (subPath path name).length := by
  have hslash : "/".length = 1 := rfl
  rw [subPath, if_neg h, String.length_append, String.length_append, hslash]
  omega

theorem subPath_ne_nil {path name : String} (h : path ≠ "") : subPath path name ≠ "" := by
  intro heq
  have hlt := length_lt_subPath name h
  rw [heq] at hlt
  exact absurd hlt (Nat.not_lt_zero _)

mutual

/-- A sub-flow adds its operators, leaves the pipelines found before, and unfolds to what it added. -/
theorem traverseChild_order (env : Env) : ∀ (child : Child) {path : String} {inherited : List String} {r : Renaming}
    {info : FlowInfo} {children : List Child} {ops ops' : List OpCall} {st st' : Traversal} {entry : Entry},
    child = .sf info children → traverseChild env path inherited r child ops st = .ok (st', entry, ops') →
    ops' = ops ∧ entry = .sf (subPath path info.name) ∧ ∃ new,
      st'.allOps = st.allOps ++ new ∧
      new.map (fun op => (op.subflowPath, op.core)) = (child.declared path).map (fun d => (d.1, d.2.core)) ∧
      (∀ p entries, st.structures.find? p = some entries → st'.structures.find? p = some entries) ∧
      (∀ p, st'.structures.contains p = true → st.structures.contains p = true ∨
        (subPath path info.name ≠ "" → (subPath path info.name).length ≤ p.length)) ∧
      ∃ entries, st'.structures.find? (subPath path info.name) = some entries ∧
        ∀ config pre mid post, mid.map Prod.snd = new → pre.length = st.allOps.length →
          Holds config (pre ++ mid ++ post) st'.structures → subPath path info.name ≠ "" →
          Unfolds config (subPath path info.name) (entries.map (resolveEntry (pre ++ mid ++ post)))
            (mid.map fun e => (e.1, e.2.subflowPath))
  | .op _, _, _, _, _, _, _, _, _, _, _, hchild, _ => by cases hchild
  | .sf info children, path, inherited, r, _, _, ops, ops', st, st', entry, hchild, h => by
    cases hchild
    rw [traverseChild] at h
    simp only at h
    split at h
    · cases h
    · next hfresh =>
      rw [Except.bind_eq_ok] at h
      obtain ⟨⟨st₁, entries⟩, hrun, h⟩ := h
      cases h
      obtain ⟨new, hnew, hdeclared, hkeeps, hlonger, hunfolds⟩ :=
        traverseChildren_order env children (localOps_declared env _ children) hrun
      have hstructures : ∀ p, (st₁.leave info (localOps env (subPath path info.name)
          (inherited ++ info.parentSkips.map r.field) children).2 (subPath path info.name) entries).structures.find? p =
          if p = subPath path info.name then some entries else st₁.structures.find? p := fun p =>
        SortedMap.find?_insert ..
      refine ⟨rfl, rfl, new, hnew, hdeclared, fun p es hfind => ?_, fun p hp => ?_, entries, ?_,
        fun config pre mid post hmid hpre hholds hne => ?_⟩
      · rw [hstructures, if_neg]
        · exact hkeeps p es hfind
        · rintro rfl
          exact hfresh (SortedMap.contains_iff.mpr ⟨es, hfind⟩)
      · rw [SortedMap.contains, hstructures] at hp
        split at hp
        · next heq => exact Or.inr fun _ => heq ▸ le_rfl
        · exact (hlonger p hp).imp_right fun hlt hne => (hlt hne).le
      · rw [hstructures, if_pos rfl]
      · -- the path is not used below the sub-flow, where all paths are longer
        refine hunfolds config pre mid post hmid hpre (hholds.mono fun p es hfind => ?_) fun i cs _ => subPath_ne_nil hne
        rw [hstructures, if_neg]
        · exact hfind
        · rintro rfl
          rcases hlonger _ (SortedMap.contains_iff.mpr ⟨es, hfind⟩) with hp | hp
          · exact hfresh hp
          · exact absurd (hp hne) (lt_irrefl _)

theorem traverseChildren_order (env : Env) : ∀ (children : List Child) {path : String} {inherited : List String}
    {r : Renaming} {ops : List OpCall} {st st' : Traversal} {entries : List Entry},
    ops.map (fun op => (op.subflowPath, op.core)) = (children.filterMap Child.op?).map (fun op => (path, op.core)) →
    traverseChildren env path inherited r children ops st = .ok (st', entries) →
    ∃ new, st'.allOps = st.allOps ++ new ∧
      new.map (fun op => (op.subflowPath, op.core)) = (declaredAll path children).map (fun d => (d.1, d.2.core)) ∧
      (∀ p es, st.structures.find? p = some es → st'.structures.find? p = some es) ∧
      (∀ p, st'.structures.contains p = true → st.structures.contains p = true ∨
        (path ≠ "" → path.length < p.length)) ∧
      ∀ config pre mid post, mid.map Prod.snd = new → pre.length = st.allOps.length →
        Holds config (pre ++ mid ++ post) st'.structures →
        (∀ info cs, .sf info cs ∈ children → subPath path info.name ≠ "") →
        Unfolds config path (entries.map (resolveEntry (pre ++ mid ++ post))) (mid.map fun e => (e.1, e.2.subflowPath))
  | [], path, inherited, r, ops, st, st', entries, hops, h => by
    rw [traverseChildren] at h
    cases h
    refine ⟨[], by simp, rfl, fun _ _ h => h, fun _ => Or.inl, fun config pre mid post hmid _ _ _ => ?_⟩
    obtain rfl := List.map_eq_nil_iff.mp hmid
    exact .nil
  | child :: children, path, inherited, r, ops, st, st', entries, hops, h => by
    rw [traverseChildren, Except.bind_eq_ok] at h
    obtain ⟨⟨st₁, entry, ops₁⟩, hchild, h⟩ := h
    rw [Except.bind_eq_ok] at h
    obtain ⟨⟨st₂, entries₂⟩, hrest, h⟩ := h
    cases h
    cases child with
    | op call =>
      cases ops with
      | nil => cases hops
      | cons op ops =>
        rw [traverseChild] at hchild
        cases hchild
        obtain ⟨hop, hops⟩ := List.cons.inj hops
        obtain ⟨new, hnew, hdeclared, hkeeps, hlonger, hunfolds⟩ := traverseChildren_order env children hops hrest
        refine ⟨op :: new, by rw [hnew]; simp, ?_, hkeeps, hlonger, fun config pre mid post hmid hpre hholds hpaths => ?_⟩
        · exact congrArg₂ List.cons hop hdeclared
        · cases mid with
          | nil => cases hmid
          | cons e mid =>
            obtain ⟨rfl, hmid'⟩ := List.cons.inj hmid
            have hnamed : pre ++ [e] ++ mid ++ post = pre ++ e :: mid ++ post := by simp
            have hrestUnfolds := hunfolds config (pre ++ [e]) mid post hmid' (by simp [hpre]) (hnamed ▸ hholds)
              fun i cs hmem => hpaths i cs (List.mem_cons_of_mem _ hmem)
            rw [hnamed] at hrestUnfolds
            have hresolve : resolveEntry (pre ++ e :: mid ++ post) (.op st.allOps.length) = e.1 := by
              simp [resolveEntry, ← hpre]
            have hpath : e.2.subflowPath = path := (Prod.mk.inj hop).1
            rw [List.map_cons, List.map_cons, hresolve, hpath]
            exact .op (hholds.operators e (by simp)) hrestUnfolds
    | sf info cs =>
      obtain ⟨rfl, rfl, new₁, hnew₁, hdeclared₁, hkeeps₁, hlonger₁, es, hes, hunfolds₁⟩ :=
        traverseChild_order env (.sf info cs) rfl hchild
      obtain ⟨new₂, hnew₂, hdeclared₂, hkeeps₂, hlonger₂, hunfolds₂⟩ := traverseChildren_order env children hops hrest
      refine ⟨new₁ ++ new₂, by rw [hnew₂, hnew₁, List.append_assoc], ?_, fun p es' h => hkeeps₂ p es' (hkeeps₁ p es' h),
        fun p hp => ?_, fun config pre mid post hmid hpre hholds hpaths => ?_⟩
      · rw [List.map_append, hdeclared₁, hdeclared₂, declaredAll, List.map_append]
      · rcases hlonger₂ p hp with hp | hp
        · rcases hlonger₁ p hp with hp | hp
          · exact Or.inl hp
          · refine Or.inr fun hpath => ?_
            have := hp (subPath_ne_nil hpath)
            have := length_lt_subPath info.name hpath
            omega
        · exact Or.inr hp
      · obtain ⟨mid₁, mid₂, rfl, hmid₁, hmid₂⟩ := List.map_eq_append_iff.mp hmid
        have hne := hpaths info cs List.mem_cons_self
        have hnamed₁ : pre ++ mid₁ ++ (mid₂ ++ post) = pre ++ (mid₁ ++ mid₂) ++ post := by simp
        have hnamed₂ : pre ++ mid₁ ++ mid₂ ++ post = pre ++ (mid₁ ++ mid₂) ++ post := by simp
        have hlength : (pre ++ mid₁).length = st₁.allOps.length := by
          rw [hnew₁, List.length_append, List.length_append, hpre, ← hmid₁, List.length_map]
        have hsub := hunfolds₁ config pre mid₁ (mid₂ ++ post) hmid₁ hpre (hnamed₁ ▸ hholds.mono hkeeps₂) hne
        have hrestUnfolds := hunfolds₂ config (pre ++ mid₁) mid₂ post hmid₂ hlength (hnamed₂ ▸ hholds)
          fun i cs' hmem => hpaths i cs' (List.mem_cons_of_mem _ hmem)
        rw [hnamed₁] at hsub
        rw [hnamed₂] at hrestUnfolds
        obtain ⟨hop, hfind⟩ := hholds.pipelines _ es hne (hkeeps₂ _ _ hes)
        rw [List.map_append]
        exact .sub hop hfind hsub hrestUnfolds

end

/-- Every sub-flow of a node is an entry of its pipeline. -/
theorem mem_entries_of_sf (env : Env) : ∀ (children : List Child) {path : String} {inherited : List String}
    {r : Renaming} {ops : List OpCall} {st st' : Traversal} {entries : List Entry} {info : FlowInfo} {cs : List Child},
    .sf info cs ∈ children → traverseChildren env path inherited r children ops st = .ok (st', entries) →
    .sf (subPath path info.name) ∈ entries
  | child :: children, path, inherited, r, ops, st, st', entries, info, cs, hmem, h => by
    rw [traverseChildren, Except.bind_eq_ok] at h
    obtain ⟨⟨st₁, entry, ops₁⟩, hchild, h⟩ := h
    rw [Except.bind_eq_ok] at h
    obtain ⟨⟨st₂, entries₂⟩, hrest, h⟩ := h
    cases h
    rcases List.mem_cons.mp hmem with rfl | hmem
    · obtain ⟨-, rfl, -⟩ := traverseChild_order env (.sf info cs) rfl hchild
      exact List.mem_cons_self
    · exact List.mem_cons_of_mem _ (mem_entries_of_sf env children hmem hrest)

/-- The operators of a flow are listed as they were declared, and in a configuration that has their names and the
sub-flows' pipelines, the flow's own pipeline unfolds to them. -/
theorem traverse_order (env : Env) {flow : FlowBase} {t : Traversal} (h : traverse env flow = .ok t) :
    t.allOps.map (fun op => (op.subflowPath, op.core)) = flow.declared.map (fun d => (d.1, d.2.core)) ∧
    ∃ entries, t.structures.find? "" = some entries ∧
      (∀ info cs, .sf info cs ∈ flow.children → .sf info.name ∈ entries) ∧
      ∀ config named, named.map Prod.snd = t.allOps → Holds config named t.structures →
        (∀ info cs, .sf info cs ∈ flow.children → info.name ≠ "") →
        Unfolds config "" (entries.map (resolveEntry named)) (named.map fun e => (e.1, e.2.subflowPath)) := by
  unfold traverse at h
  simp only at h
  rw [Except.bind_eq_ok] at h
  obtain ⟨⟨st, entries⟩, hrun, h⟩ := h
  cases h
  obtain ⟨new, hnew, hdeclared, -, -, hunfolds⟩ :=
    traverseChildren_order env flow.children (localOps_declared env [] flow.children) hrun
  have hall : st.allOps = new := by simpa using hnew
  have hstructures : ∀ p, (st.leave flow.info (localOps env "" [] flow.children).2 "" entries).structures.find? p =
      if p = "" then some entries else st.structures.find? p := fun p => SortedMap.find?_insert ..
  refine ⟨?_, entries, ?_, ?_, fun config named hnamed hholds hpaths => ?_⟩
  · rw [← hall] at hdeclared
    exact hdeclared
  · rw [hstructures, if_pos rfl]
  · exact fun info cs hmem => mem_entries_of_sf env flow.children hmem hrun
  · have hunfold := hunfolds config [] named [] (hall ▸ hnamed) rfl
    rw [List.nil_append, List.append_nil] at hunfold
    refine hunfold ⟨hholds.operators, fun p es hp hfind => hholds.pipelines p es hp ?_⟩ hpaths
    rw [hstructures, if_neg hp, hfind]

end Pineapple.Apple
