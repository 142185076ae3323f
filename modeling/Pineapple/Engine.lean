import Pineapple.Dag
import Pineapple.InputView
import Pineapple.Template

/-! # Building the engine (`engine.cpp`)

The constructor expands the pipeline, builds the DAG and prepares every operator: its instance, its
template plan and the fields of its input. What the engine reads of a frame's common fields before an
operator runs are three programs: `should_skip`, the template resolver and the common checks of
`build_operator_input`. -/

namespace Pineapple

/-! ## Reads before an operator runs -/

/-- `should_skip`. -/
def shouldSkip : List String → CommonReader Bool
  | [] => .ret false
  | field :: rest => .read field fun v => if (v.getD .null).truthy then .ret true else shouldSkip rest

/-- The nullable fields: each has to be there. -/
def checkNullableCommon : List String → CommonReader (Option InputViolation)
  | [] => .ret none
  | field :: rest => .read field fun v =>
    if v.isNone then .ret (some (.missingCommon field)) else checkNullableCommon rest

/-- The common checks of `build_operator_input`. -/
def checkCommon (nullable : List String) : List String → CommonReader (Option InputViolation)
  | [] => checkNullableCommon nullable
  | field :: rest => .read field fun v =>
    if (v.getD .null).isNull then .ret (some (.nilCommon field)) else checkCommon nullable rest

/-- The checks as `inputViolation` makes them. -/
theorem run_checkCommon {frame : Frame} {common : Row} (hc : ∀ f, frame.common f = (common.find? f).getD .null)
    (hh : ∀ f, frame.hasCommon f = common.contains f) (spec : InputFieldSpec) :
    (checkCommon spec.nullableCommon spec.strictCommon).run common.find? = frame.commonViolation spec := by
  have hnullable : ∀ nullable : List String, (checkNullableCommon nullable).run common.find? =
      nullable.findSome? fun field => if !frame.hasCommon field then some (.missingCommon field) else none := by
    intro nullable
    induction nullable with
    | nil => rfl
    | cons field rest ih =>
      rw [checkNullableCommon, ReadProgram.run_read]
      rw [List.findSome?_cons, hh, SortedMap.contains]
      cases common.find? field with
      | none => rfl
      | some v => exact ih
  unfold Frame.commonViolation
  rw [← hnullable]
  induction spec.strictCommon with
  | nil => rfl
  | cons field rest ih =>
    rw [checkCommon, ReadProgram.run_read]
    rw [List.findSome?_cons, hc]
    by_cases hn : ((common.find? field).getD .null).isNull = true
    · rw [if_pos hn, if_pos hn]
      rfl
    · rw [if_neg hn, if_neg hn]
      exact ih

/-! ## The constructor -/

structure Engine where
  config : Config
  expanded : ExpandedSequence
  graph : Graph
  templatedPlans : SortedMap String (List TemplatedParam) := ∅
  inputSpecs : SortedMap String InputFieldSpec := ∅

/-- The skip fields leave the list an operator's `init` sees. -/
def OperatorConfig.hideSkip (op : OperatorConfig) : OperatorConfig :=
  { op with metadata := { op.metadata with commonInput := op.metadata.commonInput.filter fun f => f ∉ op.skip } }

/-- One round of the constructor's loop over the operators; `init` is the instance's. -/
def addOperator (schemas : String → Option OperatorSchema) (init : OperatorConfig → Except PineError Unit)
    (engine : Engine) (e : String × OperatorConfig) : Except PineError Engine :=
  match schemas e.2.typeName with
  | none => .error (.registry ("operator \"" ++ e.1 ++ "\": operator type not registered: \"" ++ e.2.typeName ++ "\""))
  | some schema => do
    let op := e.2.hideSkip
    init op
    let plan ← buildTemplatedParamPlan e.1 schema op.params
    return { engine with
      config := { engine.config with operators := engine.config.operators.insert e.1 op }
      templatedPlans := if plan.isEmpty then engine.templatedPlans else engine.templatedPlans.insert e.1 plan
      inputSpecs := engine.inputSpecs.insert e.1 (computeInputFieldSpec op) }

def buildEngine (schemas : String → Option OperatorSchema) (init : OperatorConfig → Except PineError Unit)
    (config : Config) : Except PineError Engine := do
  let expanded ← expandOperatorSequenceWithSubflows config
  let graph ← buildDag config expanded
  config.operators.entries.foldlM (addOperator schemas init) { config, expanded, graph }

namespace Engine

/-- The template plan of an operator, empty for most. -/
def planOf (engine : Engine) (name : String) : List TemplatedParam := (engine.templatedPlans.find? name).getD []

/-- A common field that the engine may read from a frame on behalf of an operator. -/
inductive MayReadCommon (engine : Engine) (text : ScalarText) (name field : String) : Prop where
  | skip (op : OperatorConfig) : engine.config.operators.find? name = some op →
      (shouldSkip op.skip).MayRead field → MayReadCommon engine text name field
  | template : (text.resolveTemplatedParams (engine.planOf name) ∅).MayRead field →
      MayReadCommon engine text name field
  | input (spec : InputFieldSpec) : engine.inputSpecs.find? name = some spec →
      (checkCommon spec.nullableCommon spec.strictCommon).MayRead field → MayReadCommon engine text name field

end Engine

/-! ## What a run is given and what it reports -/

/-- What the engine prepared for a node. -/
structure NodePlan where
  op : OperatorConfig
  spec : InputFieldSpec := {}
  template : List TemplatedParam := []

/-- The per-operator counters: `op_exec_total`, `op_skip_total`, `op_error_total`. -/
inductive Tally where
  | executed | skipped | failed
deriving DecidableEq

/-- `OpTrace`, as far as the statistics read it. -/
structure OpTrace where
  name : String
  skipped : Bool
deriving DecidableEq

/-! ## What the three programs read -/

theorem mem_of_reads_shouldSkip {env : String → Option Variant} {skip : List String} {f : String}
    (h : f ∈ (shouldSkip skip).reads env) : f ∈ skip := by
  induction skip with
  | nil => exact h
  | cons field rest ih =>
    rw [shouldSkip, ReadProgram.reads_read] at h
    rcases List.mem_cons.mp h with rfl | h
    · exact List.mem_cons_self
    · split at h
      · exact absurd h List.not_mem_nil
      · exact List.mem_cons_of_mem _ (ih h)

theorem mem_of_reads_checkNullableCommon {env : String → Option Variant} {nullable : List String} {f : String}
    (h : f ∈ (checkNullableCommon nullable).reads env) : f ∈ nullable := by
  induction nullable with
  | nil => exact h
  | cons field rest ih =>
    rw [checkNullableCommon, ReadProgram.reads_read] at h
    rcases List.mem_cons.mp h with rfl | h
    · exact List.mem_cons_self
    · split at h
      · exact absurd h List.not_mem_nil
      · exact List.mem_cons_of_mem _ (ih h)

theorem mem_of_reads_checkCommon {env : String → Option Variant} {nullable strict : List String} {f : String}
    (h : f ∈ (checkCommon nullable strict).reads env) : f ∈ strict ∨ f ∈ nullable := by
  induction strict with
  | nil => exact Or.inr (mem_of_reads_checkNullableCommon h)
  | cons field rest ih =>
    rw [checkCommon, ReadProgram.reads_read] at h
    rcases List.mem_cons.mp h with rfl | h
    · exact Or.inl List.mem_cons_self
    · split at h
      · exact absurd h List.not_mem_nil
      · exact (ih h).imp_left (List.mem_cons_of_mem _)

theorem mem_of_reads_resolve {text : ScalarText} {env : String → Option Variant} {plan : List TemplatedParam}
    {out : Row} {f : String} (h : f ∈ (text.resolveTemplatedParams plan out).reads env) :
    f ∈ plan.map TemplatedParam.field := by
  induction plan generalizing out with
  | nil => exact h
  | cons p rest ih =>
    rw [ScalarText.resolveTemplatedParams, ReadProgram.reads_read] at h
    rcases List.mem_cons.mp h with rfl | h
    · exact List.mem_cons_self
    · split at h
      · exact absurd h List.not_mem_nil
      · split at h
        · exact absurd h List.not_mem_nil
        · exact List.mem_cons_of_mem _ (ih h)

/-- The scalar types a plan can hold. -/
def canonicalScalarTypes : List String := ["string", "int64", "float64", "bool"]

theorem coerceScalar_one (text : ScalarText) (param : String) {t : String} (ht : t ∈ canonicalScalarTypes) :
    ∃ v, text.coerceScalar param t "1" = .ok v := by
  simp only [canonicalScalarTypes, List.mem_cons, List.not_mem_nil, or_false] at ht
  rcases ht with rfl | rfl | rfl | rfl
  · exact ⟨_, rfl⟩
  · exact ⟨.number (.ofInt 1), rfl⟩
  · obtain ⟨d, hd⟩ := Option.isSome_iff_exists.mp text.strtod_one
    refine ⟨.number d, ?_⟩
    simp [ScalarText.coerceScalar, hd]
  · exact ⟨.bool true, rfl⟩

/-- On a frame whose fields are all `"1"` every parameter resolves, so every field is read. -/
theorem reads_resolve_ones (text : ScalarText) {plan : List TemplatedParam}
    (htypes : ∀ p ∈ plan, p.scalarType ∈ canonicalScalarTypes) (out : Row) :
    (text.resolveTemplatedParams plan out).reads (fun _ => some (.string "1")) = plan.map TemplatedParam.field := by
  induction plan generalizing out with
  | nil => rfl
  | cons p rest ih =>
    obtain ⟨v, hv⟩ := coerceScalar_one text p.name (htypes p List.mem_cons_self)
    rw [ScalarText.resolveTemplatedParams, ReadProgram.reads_read]
    have hnull : ((some (Variant.string "1")).getD .null).isNull = false := rfl
    rw [hnull, if_neg Bool.false_ne_true, List.map_cons]
    congr 1
    have hone : text.stringifyCommon ((some (Variant.string "1")).getD .null) = "1" := rfl
    rw [hone, hv]
    exact ih (fun q hq => htypes q (List.mem_cons_of_mem _ hq)) _

theorem mayRead_resolve_iff (text : ScalarText) {plan : List TemplatedParam}
    (htypes : ∀ p ∈ plan, p.scalarType ∈ canonicalScalarTypes) (f : String) :
    (text.resolveTemplatedParams plan ∅).MayRead f ↔ f ∈ plan.map TemplatedParam.field := by
  constructor
  · rintro ⟨env, h⟩
    exact mem_of_reads_resolve h
  · intro h
    exact ⟨fun _ => some (.string "1"), by rw [reads_resolve_ones text htypes]; exact h⟩

/-! ## Plans and markers -/

theorem startsWithMarker_of_bare {s f : String} (h : extractBareField s = some f) : containsMarker s.toList = true := by
  unfold extractBareField at h
  split at h
  · next rest hs =>
    split at h
    · next field hrev =>
      split at h
      · next hword =>
        simp only [Bool.and_eq_true, Bool.not_eq_true', List.all_eq_true] at hword
        have hrest : rest = field.reverse ++ ['}', '}'] := by
          have := congrArg List.reverse hrev
          simpa using this
        have hdrop : rest.dropWhile isWordChar = ['}', '}'] := by
          rw [hrest, List.dropWhile_append_of_pos fun c hc => hword.2 c (List.mem_reverse.mp hc)]
          rfl
        have hhead : (rest.head?.map isWordChar).getD false = true := by
          rw [hrest]
          cases hf : field.reverse with
          | nil =>
            rw [List.reverse_eq_nil_iff.mp hf] at hword
            exact absurd hword.1 (by simp)
          | cons c cs =>
            exact hword.2 c (List.mem_reverse.mp (hf ▸ List.mem_cons_self))
        rw [hs, containsMarker, startsWithMarker, hdrop]
        simp [hhead]
      · exact absurd h (by simp)
    · exact absurd h (by simp)
  · exact absurd h (by simp)

theorem normalizeScalarType_mem {t : String} (h : t ∈ templatableScalarTypes) :
    normalizeScalarType t ∈ canonicalScalarTypes := by
  simp only [templatableScalarTypes, List.mem_cons, List.not_mem_nil, or_false] at h
  rcases h with rfl | rfl | rfl | rfl | rfl | rfl <;> decide

/-- The plan entry of a parameter is there for a bare marker, and names its field. -/
theorem planParam_spec {opName : String} {schema : OperatorSchema} {param : String} {raw : Variant}
    {entry : Option TemplatedParam} (h : planParam opName schema param raw = .ok entry) :
    (∀ p ∈ entry, p.scalarType ∈ canonicalScalarTypes) ∧
      ∀ f, f ∈ entry.map TemplatedParam.field ↔ ∃ s, raw = .string s ∧ extractBareField s = some f := by
  have hnone : ∀ f, (∃ s, raw = .string s ∧ extractBareField s = some f) → isTemplatedString raw = true := by
    rintro f ⟨s, rfl, hs⟩
    exact startsWithMarker_of_bare hs
  unfold planParam at h
  split at h
  · next hplain =>
    cases h
    refine ⟨by simp, fun f => iff_of_false (by simp) fun hs => ?_⟩
    rw [hnone f hs] at hplain
    exact absurd hplain (by simp)
  · split at h
    · exact absurd h (by simp)
    · split at h
      · exact absurd h (by simp)
      · split at h
        · exact absurd h (by simp)
        · next hscalar =>
          split at h
          · next tmpl =>
            split at h
            · exact absurd h (by simp)
            · next field hfield =>
              cases h
              refine ⟨fun p hp => ?_, fun f => ?_⟩
              · rw [← Option.some.inj hp]
                exact normalizeScalarType_mem (not_not.mp hscalar)
              · simp [hfield, eq_comm]
          · next hne =>
            cases h
            refine ⟨by simp, fun f => iff_of_false (by simp) ?_⟩
            rintro ⟨s, rfl, -⟩
            exact hne s rfl

/-- The fields of the markers among an operator's raw parameters. -/
def OperatorConfig.TemplateField (op : OperatorConfig) (f : String) : Prop :=
  ∃ es, op.params = .object es ∧ ∃ e ∈ es, ∃ s, e.2 = .string s ∧ extractBareField s = some f

theorem buildTemplatedParamPlan_spec {opName : String} {schema : OperatorSchema} {op : OperatorConfig}
    {plan : List TemplatedParam} (h : buildTemplatedParamPlan opName schema op.params = .ok plan) :
    (∀ p ∈ plan, p.scalarType ∈ canonicalScalarTypes) ∧
      ∀ f, f ∈ plan.map TemplatedParam.field ↔ op.TemplateField f := by
  unfold buildTemplatedParamPlan at h
  split at h
  · next es hes =>
    have hplan := Except.foldlM_invariant h (P := fun pre plan => (∀ p ∈ plan, p.scalarType ∈ canonicalScalarTypes) ∧
      ∀ f, f ∈ plan.map TemplatedParam.field ↔ ∃ e ∈ pre, ∃ s, e.2 = .string s ∧ extractBareField s = some f)
      ⟨by simp, by simp⟩ ?_
    · refine ⟨hplan.1, fun f => (hplan.2 f).trans ⟨fun hf => ⟨es, hes, hf⟩, ?_⟩⟩
      rintro ⟨es', hes', hf⟩
      rw [hes] at hes'
      rw [Variant.object.inj hes']
      exact hf
    · rintro pre e plan plan' - ⟨htypes, hfields⟩ hstep
      obtain ⟨entry, hentry, hstep⟩ := Except.bind_eq_ok.mp hstep
      obtain rfl := Except.pure_eq_ok.mp hstep
      obtain ⟨ht, hf⟩ := planParam_spec hentry
      constructor
      · intro p hp
        rcases List.mem_append.mp hp with hp | hp
        · exact htypes p hp
        · exact ht p (Option.mem_toList.mp hp)
      · intro f
        have hentry : f ∈ entry.toList.map TemplatedParam.field ↔ f ∈ entry.map TemplatedParam.field := by
          cases entry <;> simp [eq_comm]
        rw [List.map_append, List.mem_append, hfields, hentry, hf]
        simp only [List.mem_append, List.mem_singleton, or_and_right, exists_or, exists_eq_left]
  · next hne =>
    cases h
    refine ⟨by simp, fun f => iff_of_false (by simp) ?_⟩
    rintro ⟨es, hes, -⟩
    exact hne es hes

/-! ## What the constructor prepares -/

/-- An operator as the engine prepared it. -/
structure Engine.Prepared (engine : Engine) (schemas : String → Option OperatorSchema) (name : String)
    (op : OperatorConfig) : Prop where
  operator : engine.config.operators.find? name = some op.hideSkip
  plan : ∃ schema, schemas op.typeName = some schema ∧
    buildTemplatedParamPlan name schema op.params = .ok (engine.planOf name)
  spec : engine.inputSpecs.find? name = some (computeInputFieldSpec op.hideSkip)

theorem addOperator_spec {schemas : String → Option OperatorSchema} {init : OperatorConfig → Except PineError Unit}
    {engine engine' : Engine} {name : String} {op : OperatorConfig}
    (hold : engine.templatedPlans.find? name = none ∨ engine.Prepared schemas name op)
    (h : addOperator schemas init engine (name, op) = .ok engine') :
    engine'.expanded = engine.expanded ∧ engine'.graph = engine.graph ∧ engine'.Prepared schemas name op ∧
      ∀ other, other ≠ name → engine'.config.operators.find? other = engine.config.operators.find? other ∧
        engine'.templatedPlans.find? other = engine.templatedPlans.find? other ∧
        engine'.inputSpecs.find? other = engine.inputSpecs.find? other := by
  unfold addOperator at h
  split at h
  · exact absurd h (by simp)
  · next schema hschema =>
    obtain ⟨⟨⟩, -, h⟩ := Except.bind_eq_ok.mp h
    obtain ⟨plan, hplan, h⟩ := Except.bind_eq_ok.mp h
    obtain rfl := Except.pure_eq_ok.mp h
    have hplan : buildTemplatedParamPlan name schema op.params = .ok plan := hplan
    have hkept : ((if plan.isEmpty then engine.templatedPlans else engine.templatedPlans.insert name plan).find?
        name).getD [] = plan := by
      split
      · next hnil =>
        rw [List.isEmpty_iff.mp hnil] at hplan ⊢
        rcases hold with hnone | hprepared
        · rw [hnone]
          rfl
        · obtain ⟨schema', hs', hp'⟩ := hprepared.plan
          rw [hschema] at hs'
          rw [← Option.some.inj hs', hplan] at hp'
          exact (Except.ok.inj hp').symm
      · rw [SortedMap.find?_insert_self]
        rfl
    refine ⟨rfl, rfl, ⟨?_, ⟨schema, hschema, ?_⟩, ?_⟩, fun other hne => ⟨?_, ?_, ?_⟩⟩
    · exact SortedMap.find?_insert_self ..
    · rw [hplan, Engine.planOf, hkept]
    · exact SortedMap.find?_insert_self ..
    · exact SortedMap.find?_insert_of_ne _ _ hne
    · show (if plan.isEmpty then _ else _ : SortedMap String (List TemplatedParam)).find? other = _
      split
      · rfl
      · exact SortedMap.find?_insert_of_ne _ _ hne
    · exact SortedMap.find?_insert_of_ne _ _ hne

theorem Engine.Prepared.of_eq {engine engine' : Engine} {schemas : String → Option OperatorSchema} {name : String}
    {op : OperatorConfig} (h : engine.Prepared schemas name op)
    (heq : engine'.config.operators.find? name = engine.config.operators.find? name ∧
      engine'.templatedPlans.find? name = engine.templatedPlans.find? name ∧
      engine'.inputSpecs.find? name = engine.inputSpecs.find? name) : engine'.Prepared schemas name op := by
  obtain ⟨hop, hplan, hspec⟩ := heq
  refine ⟨hop.trans h.operator, ?_, hspec.trans h.spec⟩
  rw [Engine.planOf, hplan]
  exact h.plan

/-- The sequence is that of the expansion. -/
theorem expanded_of_buildEngine {schemas : String → Option OperatorSchema} {init : OperatorConfig → Except PineError Unit}
    {config : Config} {engine : Engine} (h : buildEngine schemas init config = .ok engine) :
    expandOperatorSequenceWithSubflows config = .ok engine.expanded := by
  unfold buildEngine at h
  obtain ⟨expanded, hexpand, h⟩ := Except.bind_eq_ok.mp h
  obtain ⟨graph, -, h⟩ := Except.bind_eq_ok.mp h
  rw [hexpand]
  refine congrArg Except.ok (Eq.symm ?_)
  refine Except.foldlM_invariant h (P := fun _ e => e.expanded = expanded) rfl ?_
  rintro pre x e e' - hexp hstep
  unfold addOperator at hstep
  split at hstep
  · cases hstep
  · obtain ⟨⟨⟩, -, hstep⟩ := Except.bind_eq_ok.mp hstep
    obtain ⟨plan, -, hstep⟩ := Except.bind_eq_ok.mp hstep
    obtain rfl := Except.pure_eq_ok.mp hstep
    exact hexp

/-- The engine holds the graph of its configuration and every operator prepared. -/
theorem buildEngine_spec {schemas : String → Option OperatorSchema} {init : OperatorConfig → Except PineError Unit}
    {config : Config} {engine : Engine} (h : buildEngine schemas init config = .ok engine) :
    buildDag config engine.expanded = .ok engine.graph ∧
      ∀ name op, config.operators.find? name = some op → engine.Prepared schemas name op := by
  unfold buildEngine at h
  obtain ⟨expanded, -, h⟩ := Except.bind_eq_ok.mp h
  obtain ⟨graph, hgraph, h⟩ := Except.bind_eq_ok.mp h
  have hinv := Except.foldlM_invariant h (P := fun pre e => (∀ x ∈ pre, x ∈ config.operators.entries) ∧
    e.expanded = expanded ∧ e.graph = graph ∧ (∀ x ∈ pre, e.Prepared schemas x.1 x.2) ∧
    ∀ name, (∀ x ∈ pre, x.1 ≠ name) → e.templatedPlans.find? name = none)
    ⟨by simp, rfl, rfl, by simp, fun _ _ => rfl⟩ ?_
  · obtain ⟨-, hexp, hgr, hprep, -⟩ := hinv
    rw [hexp, hgr]
    exact ⟨hgraph, fun name op hop => hprep (name, op) (SortedMap.mem_entries.mpr hop)⟩
  · rintro pre ⟨name, op⟩ e e' hmem ⟨hsub, hexp, hgr, hprep, hplans⟩ hstep
    have hold : e.templatedPlans.find? name = none ∨ e.Prepared schemas name op := by
      by_cases hpre : ∃ x ∈ pre, x.1 = name
      · obtain ⟨⟨name', op'⟩, hx, rfl⟩ := hpre
        -- a name has one entry, so an entry seen before under this name is this one
        have hop' := SortedMap.mem_entries.mp (hsub _ hx)
        rw [SortedMap.mem_entries.mp hmem] at hop'
        rw [Option.some.inj hop']
        exact Or.inr (hprep _ hx)
      · exact Or.inl (hplans name fun x hx hne => hpre ⟨x, hx, hne⟩)
    obtain ⟨hexp', hgr', hnew, hother⟩ := addOperator_spec hold hstep
    refine ⟨?_, hexp'.trans hexp, hgr'.trans hgr, ?_, ?_⟩
    · intro x hx
      rcases List.mem_append.mp hx with hpre | hlast
      · exact hsub x hpre
      · rw [List.mem_singleton.mp hlast]
        exact hmem
    · rintro ⟨other, xop⟩ hx
      rcases List.mem_append.mp hx with hpre | hlast
      · by_cases hne : other = name
        · have hop' := SortedMap.mem_entries.mp (hsub _ hpre)
          rw [hne, SortedMap.mem_entries.mp hmem] at hop'
          rw [← Option.some.inj hop', hne]
          exact hnew
        · exact (hprep _ hpre).of_eq (hother other hne)
      · rw [List.mem_singleton.mp hlast]
        exact hnew
    · intro other hne
      have hname : other ≠ name := fun h => hne (name, op) (by simp) h.symm
      rw [(hother other hname).2.1]
      exact hplans other fun x hx => hne x (List.mem_append_left _ hx)

end Pineapple
