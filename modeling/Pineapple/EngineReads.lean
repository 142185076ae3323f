import Pineapple.ConfigLoad
import Pineapple.DagBuild
import Pineapple.SchedulerInv
import Pineapple.Engine

/-! # The engine's reads are DAG reads

The skip list is checked against the metadata when a configuration is loaded, the input lists are metadata,
and nothing links the markers among the raw parameters to `common_input_template`. -/

namespace Pineapple

/-! ## What the loader checks -/

/-- `validate_config` links the skip list to the metadata. -/
theorem skip_declared {config : Config} (h : validateConfig config = .ok ()) {name : String} {op : OperatorConfig}
    (hop : config.operators.find? name = some op) :
    ∀ f ∈ op.skip, f ∈ op.metadata.commonInput ∨ f ∈ op.metadata.commonInputSkip := by
  have hvalid := validateOperator_of_validateConfig h hop
  unfold validateOperator at hvalid
  obtain ⟨⟨⟩, hskips, -⟩ := Except.bind_eq_ok.mp hvalid
  intro f hf
  have hone := Except.forM_eq_ok.mp hskips f hf
  unfold validateSkip at hone
  split at hone
  · cases hone
  · split at hone
    · cases hone
    · next hdecl =>
      by_contra hnot
      exact hdecl (not_or.mp hnot)

/-! ## Reads and edges -/

/-- The engine's own reads are the declared ones, up to the markers. -/
theorem mayReadCommon_declared_iff {registry : Registry} {schemas : String → Option OperatorSchema}
    {init : OperatorConfig → Except PineError Unit} {json : Variant} {config : Config} {engine : Engine}
    (text : ScalarText) (hload : loadConfigFromJson registry json = .ok config)
    (hbuild : buildEngine schemas init config = .ok engine) {name : String} {op : OperatorConfig}
    (hop : config.operators.find? name = some op) :
    (∀ f, engine.MayReadCommon text name f → f ∈ op.metadata.commonReadFields) ↔
      ∀ f, op.TemplateField f → f ∈ op.metadata.commonReadFields := by
  have hprep := (buildEngine_spec hbuild).2 name op hop
  obtain ⟨schema, -, hplan⟩ := hprep.plan
  obtain ⟨htypes, hfields⟩ := buildTemplatedParamPlan_spec hplan
  constructor
  · intro h f hf
    exact h f (.template ((mayRead_resolve_iff text htypes f).mpr ((hfields f).mpr hf)))
  · intro h f hread
    cases hread with
    | skip op' hop' hmay =>
      rw [hprep.operator] at hop'
      obtain rfl := Option.some.inj hop'
      obtain ⟨env, hf⟩ := hmay
      have hskip : f ∈ op.skip := mem_of_reads_shouldSkip hf
      rw [Metadata.mem_commonReadFields]
      exact (skip_declared (validateConfig_of_load hload) hop f hskip).imp_right Or.inl
    | template hmay => exact h f ((hfields f).mp ((mayRead_resolve_iff text htypes f).mp hmay))
    | input spec hspec hmay =>
      rw [hprep.spec] at hspec
      obtain rfl := Option.some.inj hspec
      obtain ⟨env, hf⟩ := hmay
      obtain ⟨-, hstrict, hnullable⟩ := spec_common op.hideSkip
      have hvisible : f ∈ op.hideSkip.visibleCommon := by
        rcases mem_of_reads_checkCommon hf with hf | hf
        · rw [hstrict] at hf
          exact (List.mem_filter.mp hf).1
        · rw [hnullable] at hf
          exact (List.mem_filter.mp hf).1
      have hinput : f ∈ op.hideSkip.metadata.commonInput := (mem_visibleCommon.mp hvisible).1
      exact Metadata.mem_commonReadFields.mpr (Or.inl (List.mem_filter.mp hinput).1)

/-- What lies behind a node that has begun is over. -/
theorem SchedInv.finished_of_reach {g : Graph} {s : SchedState} (hg : GraphInv g)
    (h : SchedInv g s.shared s.activations) {i j : Nat} (hij : Relation.TransGen g.Edge i j)
    (hj : j ∈ s.shared.dispatched) : i ∈ s.shared.finished := by
  have hplace : ∀ v, v ∈ s.activations.map Activation.node ++ s.shared.returned →
      v ∈ places s.shared s.activations := by
    intro v hv
    simp only [places, List.mem_append] at hv ⊢
    tauto
  have hfinished : ∀ v ∈ s.shared.finished, v ∈ places s.shared s.activations := by
    intro v hv
    rcases (h.finished v).mp hv with hv | ⟨a, ha, rfl, -⟩
    · exact hplace v (List.mem_append_right _ hv)
    · exact hplace _ (List.mem_append_left _ (List.mem_map.mpr ⟨a, ha, rfl⟩))
  have hj : j ∈ places s.shared s.activations := hplace j (h.dispatched.mem_iff.mp hj)
  induction hij using Relation.TransGen.head_induction_on with
  | single he => exact h.preds_finished hg hj ((hg.dual _ _).mpr he)
  | head he _ ih => exact h.preds_finished hg (hfinished _ ih) ((hg.dual _ _).mpr he)

/-- The engine reads declared fields alone on an operator's behalf exactly where its markers name declared
fields; and then, in every run, whoever writes such a field earlier in the sequence is over when the operator
begins. -/
theorem engine_reads_declared_iff (registry : Registry) (schemas : String → Option OperatorSchema)
    (init : OperatorConfig → Except PineError Unit) (json : Variant) (config : Config) (engine : Engine)
    (text : ScalarText) (hload : loadConfigFromJson registry json = .ok config)
    (hbuild : buildEngine schemas init config = .ok engine) (name : String) (op : OperatorConfig)
    (hop : config.operators.find? name = some op) :
    ((∀ f, engine.MayReadCommon text name f → f ∈ op.metadata.commonReadFields) ↔
      ∀ f, op.TemplateField f → f ∈ op.metadata.commonReadFields) ∧
    ((∀ f, op.TemplateField f → f ∈ op.metadata.commonReadFields) →
      ∀ i j writer f pool poolSize s, i < j → engine.expanded.sequence[j]? = some name →
        operatorAt config engine.expanded i = some writer → f ∈ writer.metadata.commonOutput →
        engine.MayReadCommon text name f → SchedReachable engine.graph pool poolSize s →
        j ∈ s.shared.dispatched → i ∈ s.shared.finished) := by
  have hiff := mayReadCommon_declared_iff text hload hbuild hop
  refine ⟨hiff, ?_⟩
  intro hmarkers i j writer f pool poolSize s hij hj hi hwrite hread hs hbegun
  have hspec := buildDag_spec (buildEngine_spec hbuild).1
  have hreader : operatorAt config engine.expanded j = some op := by
    rw [operatorAt, hj]
    exact hop
  have hdeclared := Metadata.mem_commonReadFields.mp (hiff.mpr hmarkers f hread)
  have hconflict : writer.Conflicts op :=
    ⟨true, f, .mutating, .read, .commonWrite hwrite, .commonRead hdeclared, by decide, by decide⟩
  have hreach := hspec.hazard i j writer op hij hi hreader hconflict
  have hpath := (Relation.reflTransGen_iff_eq_or_transGen.mp hreach).resolve_left hij.ne'
  exact (SchedInv.reachable hspec.inv hs).finished_of_reach hspec.inv hpath hbegun

/-- A truncation whose length stands in the common field `n`; `metadata` is its `$metadata`. -/
def truncateConfigJson (metadata : List (String × Variant)) : Variant :=
  .object [
    ("pipeline_config", .object [
      ("operators", .object [
        ("cut", .object [("$metadata", .object metadata), ("top_n", .string "\x7b\x7bn\x7d\x7d"),
          ("type_name", .string "filter_truncate")]),
        ("size", .object [("$metadata", .object [("common_output", .array [.string "n"])]),
          ("type_name", .string "transform_size")])])]),
    ("pipeline_group", .object [("main", .object [("pipeline", .array [.string "size", .string "cut"])])])]

def truncateRegistry : Registry := fun t =>
  if t = "filter_truncate" then some { type := .filter, consumesRowSet := true, mutatesRowSet := true }
  else some { type := .transform }

def truncateSchemas : String → Option OperatorSchema := fun t =>
  if t = "filter_truncate" then some (SortedMap.ofList [("top_n", { type := "int64", templatable := true })])
  else some ∅

def truncateConfig (metadata : List (String × Variant)) : Config :=
  (loadConfigFromJson truncateRegistry (truncateConfigJson metadata)).toOption.getD {}

def truncateEngine (metadata : List (String × Variant)) : Engine :=
  (buildEngine truncateSchemas (fun _ => .ok ()) (truncateConfig metadata)).toOption.getD
    { config := {}, expanded := {}, graph := {} }

/-- The conversions of the texts of small integers. -/
def integerText : ScalarText where
  formatG d := toString (castInt d)
  dumpJson _ := "null"
  strtod s := (parseInt64Strict s).map Binary64.ofInt
  strtod_one := by decide +kernel

/-- With `n` under `common_input_template` the truncation waits for the operator that computes it. -/
theorem engine_reads_declared_iff_truncate :
    let metadata := [("common_input_template", Variant.array [.string "n"])]
    ∃ op, (truncateConfig metadata).operators.find? "cut" = some op ∧
      (∀ f, (truncateEngine metadata).MayReadCommon integerText "cut" f → f ∈ op.metadata.commonReadFields) ∧
      ∀ s, SchedReachable (truncateEngine metadata).graph true 2 s → 1 ∈ s.shared.dispatched →
        0 ∈ s.shared.finished := by
  intro metadata
  have hload : loadConfigFromJson truncateRegistry (truncateConfigJson metadata) = .ok (truncateConfig metadata) := by
    decide +kernel
  have hbuild : buildEngine truncateSchemas (fun _ => .ok ()) (truncateConfig metadata) =
      .ok (truncateEngine metadata) := Except.eq_ok_getD (by decide +kernel) _
  obtain ⟨op, hop, hparams, hread⟩ : ∃ op, (truncateConfig metadata).operators.find? "cut" = some op ∧
      op.params = .object [("top_n", .string "\x7b\x7bn\x7d\x7d")] ∧ op.metadata.commonReadFields = ["n"] :=
    ⟨((truncateConfig metadata).operators.find? "cut").getD {}, by decide +kernel, by decide +kernel, by decide +kernel⟩
  have hmarkers : ∀ f, op.TemplateField f → f ∈ op.metadata.commonReadFields := by
    rintro f ⟨es, hes, e, he, s, hs, hf⟩
    rw [hparams] at hes
    obtain rfl := Variant.object.inj hes
    obtain rfl := List.mem_singleton.mp he
    obtain rfl := Variant.string.inj hs
    have hn : extractBareField "\x7b\x7bn\x7d\x7d" = some "n" := by decide +kernel
    rw [hn] at hf
    rw [hread, ← Option.some.inj hf]
    exact List.mem_singleton_self _
  obtain ⟨hiff, hruns⟩ := engine_reads_declared_iff truncateRegistry truncateSchemas (fun _ => .ok ())
    (truncateConfigJson metadata) (truncateConfig metadata) (truncateEngine metadata) integerText hload hbuild "cut" op hop
  refine ⟨op, hop, hiff.mpr hmarkers, fun s hs hbegun => ?_⟩
  have hmay : (truncateEngine metadata).MayReadCommon integerText "cut" "n" :=
    .template ⟨fun _ => none, by decide +kernel⟩
  obtain ⟨writer, hwriter, hout⟩ : ∃ writer, operatorAt (truncateConfig metadata) (truncateEngine metadata).expanded 0 =
      some writer ∧ "n" ∈ writer.metadata.commonOutput :=
    ⟨(operatorAt (truncateConfig metadata) (truncateEngine metadata).expanded 0).getD {}, by decide +kernel,
      by decide +kernel⟩
  exact hruns hmarkers 0 1 writer "n" true 2 s (by decide) (by decide +kernel) hwriter hout hmay hs hbegun

/-- Two nodes without predecessors on a pool of two workers: both begin before either is over. -/
theorem both_begin {g : Graph} (hseeds : (SchedState.init g 2).shared.seeds = [0, 1]) :
    ∃ s, Relation.ReflTransGen (fun s s' => SchedStep g true s none s') (SchedState.init g 2) s ∧
      s.workers = [[⟨0, .start⟩], [⟨1, .start⟩]] ∧ s.shared.cancelled = false ∧ 1 ∈ s.shared.dispatched ∧
      0 ∉ s.shared.finished := by
  let s₁ : SchedState := { SchedState.init g 2 with
    shared := { (SchedState.init g 2).shared with seeds := [1], queue := [0] } }
  let s₂ : SchedState := { s₁ with shared := { s₁.shared with seeds := [], queue := [0, 1] } }
  let s₃ : SchedState := { s₂ with
    shared := { s₂.shared with queue := [1], dispatched := [0] }
    workers := [[⟨0, .start⟩], []] }
  let s₄ : SchedState := { s₃ with
    shared := { s₃.shared with queue := [], dispatched := [0, 1] }
    workers := [[⟨0, .start⟩], [⟨1, .start⟩]] }
  have h₁ : SchedStep g true (SchedState.init g 2) none s₁ := .seedSubmit rfl rfl hseeds
  have h₂ : SchedStep g true s₁ none s₂ := .seedSubmit rfl rfl rfl
  have h₃ : SchedStep g true s₂ none s₃ := @SchedStep.take g true s₂ [] [[]] 0 [1] rfl rfl
  have h₄ : SchedStep g true s₃ none s₄ := @SchedStep.take g true s₃ [[⟨0, .start⟩]] [] 1 [] rfl rfl
  refine ⟨s₄, ?_, rfl, rfl, List.mem_cons_of_mem _ (List.mem_singleton_self 1), List.not_mem_nil⟩
  exact (((Relation.ReflTransGen.single h₁).tail h₂).tail h₃).tail h₄

/-- Without it the configuration is accepted all the same, the engine reads `n`, and the truncation may begin
before `n` is computed. -/
theorem engine_reads_undeclared_field :
    loadConfigFromJson truncateRegistry (truncateConfigJson []) = .ok (truncateConfig []) ∧
    buildEngine truncateSchemas (fun _ => .ok ()) (truncateConfig []) = .ok (truncateEngine []) ∧
    (truncateEngine []).MayReadCommon integerText "cut" "n" ∧
    ((truncateConfig []).operators.find? "cut").map (fun op => op.metadata.commonReadFields) = some [] ∧
    ∃ s, SchedReachable (truncateEngine []).graph true 2 s ∧ 1 ∈ s.shared.dispatched ∧ 0 ∉ s.shared.finished := by
  obtain ⟨s, hs, -, -, hbegun, hfinished⟩ := both_begin (g := (truncateEngine []).graph) (by decide +kernel)
  exact ⟨by decide +kernel, Except.eq_ok_getD (by decide +kernel) _, .template ⟨fun _ => none, by decide +kernel⟩,
    by decide +kernel, s, hs.lift id fun _ _ hstep => ⟨none, hstep⟩, hbegun, hfinished⟩

end Pineapple
