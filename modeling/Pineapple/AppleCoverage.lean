import Pineapple.AppleLoad
import Pineapple.RunAhead

/-! # Inputs are written before they are read (`validate_field_coverage`)

The validator follows the declarations, the engine runs the graph. A field that an operator reads and an earlier one
writes is a conflict, so the writer is ahead of the reader in the graph and is over when the reader begins
(`inputs_found`). The graph is built from the metadata in the document, though, and a parameter can replace these. -/

namespace Pineapple.Apple
open Relation

/-! ## The validator -/

/-- A public input is in the contract or an output of an operator before. -/
theorem covered_of_validate {env : Env} {named : List (String × OpCall)} {contract : Contract}
    (h : validateFieldCoverage env named contract = .ok ()) {v : Nat} {e : String × OpCall} (hv : named[v]? = some e)
    {f : String} (hf : f ∈ e.2.inputs .common) (hpublic : isInternal f = false) :
    f ∈ contract.commonInput.getD [] ∨ ∃ u a, u < v ∧ named[u]? = some a ∧ f ∈ a.2.commonOutput := by
  unfold validateFieldCoverage at h
  obtain ⟨available, hfold, -⟩ := Except.bind_eq_ok.mp h
  have hinv := Except.foldlM_invariant hfold (P := fun pre (st : List String × List String) =>
    st.1 = contract.commonInput.getD [] ++ pre.flatMap (fun a => a.2.commonOutput) ∧
      ∀ (v : Nat) (e : String × OpCall), pre[v]? = some e → ∀ f ∈ e.2.inputs .common, isInternal f = false →
        f ∈ contract.commonInput.getD [] ++ (pre.take v).flatMap fun a => a.2.commonOutput) ?_ ?_
  · have hmem := hinv.2 v e hv f hf hpublic
    refine (List.mem_append.mp hmem).imp_right fun hout => ?_
    obtain ⟨a, ha, hfa⟩ := List.mem_flatMap.mp hout
    obtain ⟨u, hu, hget⟩ := List.getElem_of_mem ha
    have hlt : u < v := by
      rw [List.length_take] at hu
      omega
    refine ⟨u, a, hlt, ?_, hfa⟩
    rw [← hget, List.getElem_take]
    exact List.getElem?_eq_getElem _
  · exact ⟨by simp, by simp⟩
  · rintro pre e st st' - ⟨havailable, hcovered⟩ hstep
    unfold coverOp at hstep
    obtain ⟨⟨⟩, hcommon, hstep⟩ := Except.bind_eq_ok.mp hstep
    obtain ⟨⟨⟩, -, hstep⟩ := Except.bind_eq_ok.mp hstep
    obtain rfl := Except.pure_eq_ok.mp hstep
    refine ⟨?_, fun v a ha f hf hpublic => ?_⟩
    · rw [havailable, List.flatMap_append, List.flatMap_singleton, List.append_assoc]
    · rcases Nat.lt_or_ge v pre.length with hv | hv
      · rw [List.getElem?_append_left hv] at ha
        rw [List.take_append_of_le_length hv.le]
        exact hcovered v a ha f hf hpublic
      · rw [List.getElem?_append_right hv, List.getElem?_singleton] at ha
        split_ifs at ha with hzero
        cases ha
        obtain rfl : v = pre.length := by omega
        rw [List.take_left, ← havailable]
        have hfield := Except.forM_eq_ok.mp hcommon f hf
        split_ifs at hfield with hin
        rcases hin with hin | hin
        · rw [hpublic] at hin
          cases hin
        · exact hin

/-! ## What the engine reads of the metadata -/

theorem metadata_of_parseOperator {name : String} {d : Dict} {config : OperatorConfig}
    (h : parseOperator name (.object d.entries) = .ok config) : parseMetadata d.entries = .ok config.metadata := by
  unfold parseOperator at h
  simp only [Variant.asObject, Except.ok_bind] at h
  split at h
  · cases h
  obtain ⟨typeName, -, h⟩ := Except.bind_eq_ok.mp h
  obtain ⟨metadata, hmetadata, h⟩ := Except.bind_eq_ok.mp h
  obtain ⟨skip, -, h⟩ := Except.bind_eq_ok.mp h
  obtain ⟨commonDefaults, -, h⟩ := Except.bind_eq_ok.mp h
  obtain ⟨itemDefaults, -, h⟩ := Except.bind_eq_ok.mp h
  obtain ⟨strictCommon, -, h⟩ := Except.bind_eq_ok.mp h
  obtain ⟨strictItem, -, h⟩ := Except.bind_eq_ok.mp h
  obtain ⟨sources, -, h⟩ := Except.bind_eq_ok.mp h
  obtain rfl := Except.pure_eq_ok.mp h
  exact hmetadata

/-- No parameter stands in the place of the metadata. -/
def OpCall.KeepsMetadata (op : OpCall) : Prop := ∀ e ∈ op.params, e.1 ≠ "$metadata"

theorem keepsMetadata_core (op : OpCall) : op.core.KeepsMetadata ↔ op.KeepsMetadata := by
  unfold OpCall.KeepsMetadata OpCall.core
  simp only [List.mem_filter, decide_eq_true_eq]
  refine ⟨fun h e he hkey => h e ⟨he, ?_⟩ hkey, fun h e he => h e he.1⟩
  rw [hkey]
  decide

theorem parseMetadata_operatorEntry {op : OpCall} (h : op.KeepsMetadata) :
    parseMetadata (operatorEntry op).entries = .ok (op.loaded "").metadata := by
  refine parseMetadata_metadataEntry ?_
  rw [operatorEntry, find?_foldl_insert_of_not_mem fun e he => ?_]
  · exact (find?_engineEntry op).2.1
  · obtain ⟨p, hp, rfl⟩ := List.mem_map.mp he
    exact h p hp

section
variable {env : Env} {settings : Settings} {flow : FlowBase} {doc : Dict} {named : List (String × OpCall)} {t : Traversal}
  {registry : Registry} {config : Config}

/-- The configuration has the metadata of every operator under its name. -/
theorem metadata_of_load (h : Accepted env settings flow doc named t)
    (hload : loadConfigFromJson registry (.object doc.entries) = .ok config) (hnodup : (named.map Prod.fst).Nodup)
    {v : Nat} {e : String × OpCall} (hv : named[v]? = some e) (hkeeps : e.2.KeepsMetadata) :
    ∃ op, config.operators.find? e.1 = some op ∧ op.metadata = (e.2.loaded "").metadata := by
  obtain ⟨root, parsed, hroot, hfrom, htraits, -⟩ := steps_of_load hload
  obtain rfl : doc.entries = root := Except.ok.inj hroot
  obtain ⟨hvlt, rfl⟩ := List.getElem?_eq_some_iff.mp hv
  have hsplit : named = named.take v ++ (named[v].1, named[v].2) :: named.drop (v + 1) := by
    rw [← List.drop_eq_getElem_cons hvlt, List.take_append_drop]
  have hafter : ∀ e ∈ named.drop (v + 1), e.1 ≠ named[v].1 := by
    intro e he heq
    rw [hsplit, List.map_append, List.map_cons] at hnodup
    exact (List.nodup_cons.mp hnodup.of_append_right).1 (heq ▸ List.mem_map_of_mem he)
  obtain ⟨pc, es, hpc, -, hops, hparse⟩ := hfrom.pipelines
  have hdoc := documentOperators_document settings flow.info.contract named t
  rw [← h.emitted, documentOperators, hpc, Except.ok_bind, requireObj, hops] at hdoc
  obtain rfl : es = (operatorsDict named).entries := Except.ok.inj hdoc
  have hspec := parseMap_spec (operatorsDict named).sorted hparse named[v].1
  rw [lookup_entries, find?_operatorsDict hsplit hafter] at hspec
  obtain ⟨raw, hraw, hfind⟩ := hspec
  obtain ⟨-, hcontains, htrait⟩ := applyRegistryTraits_spec htraits
  obtain ⟨op, hop⟩ := SortedMap.contains_iff.mp
    ((hcontains named[v].1).mpr (SortedMap.contains_iff.mpr ⟨raw, hfind⟩))
  obtain ⟨raw', hraw', hop'⟩ := htrait _ op hop
  obtain rfl : raw = raw' := Option.some.inj (hfind.symm.trans hraw')
  refine ⟨op, hop, ?_⟩
  have hmetadata := (metadata_of_parseOperator hraw).symm.trans (parseMetadata_operatorEntry hkeeps)
  rw [← Except.ok.inj hmetadata]
  unfold applyRegistryTrait at hop'
  split at hop'
  · cases hop'
  · obtain rfl := Except.ok.inj hop'
    rfl

/-- Where it is loaded and built, the engine has a path from every writer to every later reader of a field. -/
theorem path_of_written (h : Accepted env settings flow doc named t)
    {schemas : String → Option OperatorSchema} {init : OperatorConfig → Except PineError Unit} {engine : Engine}
    (hload : loadConfigFromJson registry (.object doc.entries) = .ok config)
    (hbuild : buildEngine schemas init config = .ok engine) (hkeeps : ∀ e ∈ named, e.2.KeepsMetadata)
    {u v : Nat} {a e : String × OpCall} (huv : u < v) (hu : named[u]? = some a) (hv : named[v]? = some e) {f : String}
    (hwrite : f ∈ a.2.commonOutput) (hread : f ∈ e.2.inputs .common) : TransGen engine.graph.Edge u v := by
  have hgraph := (buildEngine_spec hbuild).1
  have hexpand : expandOperatorSequenceWithSubflows config = .ok engine.expanded := expanded_of_buildEngine hbuild
  obtain ⟨-, hnodup, hsequence⟩ := sequence_of_expand h (carries_of_load h hload) hexpand
  have hat : ∀ {i : Nat} {o : String × OpCall}, named[i]? = some o → ∃ op,
      operatorAt config engine.expanded i = some op ∧ op.metadata = (o.2.loaded "").metadata := by
    intro i o ho
    obtain ⟨op, hop, hmetadata⟩ := metadata_of_load h hload hnodup ho (hkeeps o (List.mem_of_getElem? ho))
    refine ⟨op, ?_, hmetadata⟩
    rw [operatorAt, hsequence, List.getElem?_map, ho]
    exact hop
  obtain ⟨writer, hwriter, hout⟩ := hat hu
  obtain ⟨reader, hreader, hin⟩ := hat hv
  have hread' : f ∈ reader.metadata.commonInput ∨ f ∈ reader.metadata.commonInputSkip ∨
      f ∈ reader.metadata.commonInputTemplate := by
    rw [hin]
    simpa [OpCall.inputs, OpCall.loaded] using hread
  have hconflict : writer.Conflicts reader :=
    ⟨true, f, .mutating, .read, .commonWrite (hout ▸ hwrite), .commonRead hread', by decide, by decide⟩
  exact buildDag_hazard_complete config engine.expanded engine.graph hgraph u v huv writer reader hwriter hreader hconflict

end

/-! ## Runs -/

section
variable {σ : Type}

/-- No operator was skipped, and those that were applied have written the common fields they were declared with. -/
structure WritesDeclared (named : List (String × OpCall)) (log : List Pineapple.Entry) : Prop where
  ran : ∀ v, .skipped v ∉ log
  writes : ∀ v e out, named[v]? = some e → .applied v out ∈ log → ∀ f ∈ e.2.commonOutput,
    out.commonWrites.contains f = true

/-- Every operator that has begun finds the public common fields that it was declared with as inputs. -/
def FindsInputs (named : List (String × OpCall)) (s : RunState σ) : Prop :=
  ∀ v e, named[v]? = some e → s.bodies v ≠ .idle → ∀ f ∈ e.2.commonInput ++ e.2.commonInputTemplate,
    isInternal f = false → s.frame.Has f

end

/-! ### Metadata that a parameter replaces -/

/-- `a` writes `x` and `b` reads it; `params` are those of `a`. -/
def chainCalls (params : List (String × Variant)) : List Call := [
  .op "transform_by_lua" { name := "a", commonOutput := ["x"], params },
  .op "transform_by_lua" { name := "b", commonInput := ["x"], commonOutput := ["y"] }]

def chainFlow (params : List (String × Variant)) : FlowBase :=
  (runCalls asciiEnv (chainCalls params)
    { info := { name := "flow", contract := { commonOutput := some ["y"] } } }).toOption.getD { info := { name := "" } }

def chainDoc (params : List (String × Variant)) : Dict := (compileFlow asciiEnv {} (chainFlow params)).toOption.getD ∅

def chainOps (params : List (String × Variant)) : List (String × OpCall) × Traversal :=
  (compiledOps asciiEnv (chainFlow params)).toOption.getD ([], {})

def luaRegistry : Registry := fun t => if t = "transform_by_lua" then some { type := .transform } else none

def luaSchemas : String → Option OperatorSchema := fun t => if t = "transform_by_lua" then some ∅ else none

def chainConfig (params : List (String × Variant)) : Config :=
  (loadConfigFromJson luaRegistry (.object (chainDoc params).entries)).toOption.getD {}

def chainEngine (params : List (String × Variant)) : Engine :=
  (buildEngine luaSchemas (fun _ => .ok ()) (chainConfig params)).toOption.getD
    { config := {}, expanded := {}, graph := {} }

/-- Runs on rows of what the engine prepared, with operators that write nothing. -/
def chainRun (params : List (String × Variant)) : RunEnv (List Row) :=
  { Lone.rowEnv ⟨{}, none⟩ with
    node := fun v =>
      let name := ((chainEngine params).expanded.sequence[v]?).getD ""
      { op := ((chainEngine params).config.operators.find? name).getD {}
        spec := ((chainEngine params).inputSpecs.find? name).getD {}
        template := (chainEngine params).planOf name } }

/-- The metadata of `a` in the document are empty. -/
def noMetadata : List (String × Variant) := [("$metadata", .object [])]

theorem chain_evaluates :
    ((compileFlow asciiEnv {} (chainFlow noMetadata)).toOption.isSome = true ∧
      (loadConfigFromJson luaRegistry (.object (chainDoc noMetadata).entries)).toOption.isSome = true ∧
      (buildEngine luaSchemas (fun _ => .ok ()) (chainConfig noMetadata)).toOption.isSome = true) ∧
    (∃ e ∈ (chainOps noMetadata).1[1]?, "x" ∈ e.2.commonInput ++ e.2.commonInputTemplate) ∧
    (((chainRun noMetadata).node 1).op.name = "b" ∧
      (RowFrame.view Lone.noRows none).inputViolation ((chainRun noMetadata).node 1).spec = some (.missingCommon "x")) ∧
    (SchedState.init (chainEngine noMetadata).graph 2).shared.seeds = [0, 1] ∧
    (shouldSkip ((chainRun noMetadata).node 1).op.skip).run Lone.noRows.common.find? = false ∧
    ((chainRun noMetadata).node 1).template.length = 0 ∧ ((chainRun noMetadata).node 1).op.dataParallel ≤ 1 := by
  decide +kernel

theorem chain_loaded : compileFlow asciiEnv {} (chainFlow noMetadata) = .ok (chainDoc noMetadata) ∧
    loadConfigFromJson luaRegistry (.object (chainDoc noMetadata).entries) = .ok (chainConfig noMetadata) ∧
    buildEngine luaSchemas (fun _ => .ok ()) (chainConfig noMetadata) = .ok (chainEngine noMetadata) := by
  obtain ⟨hcompile, hload, hbuild⟩ := chain_evaluates.1
  exact ⟨Except.eq_ok_getD hcompile _, Except.eq_ok_getD hload _, Except.eq_ok_getD hbuild _⟩

/-- Steps of the scheduler that nothing outside sees are steps of the run. -/
theorem run_of_quiet {σ : Type} {renv : RunEnv σ} {g : Graph} {pool : Bool} {s : RunState σ} {t : SchedState}
    (h : ReflTransGen (fun a b => SchedStep g pool a none b) s.sched t) :
    ReflTransGen (RunStep renv g pool) s { s with sched := t } := by
  induction h with
  | refl => exact .refl
  | tail _ hstep ih => exact ih.tail (.sched hstep)

def missingX : PineError := .execution "b" "required field \"x\" is missing in common"

theorem input_of_b : buildOperatorInput (RowFrame.view Lone.noRows none) ((chainRun noMetadata).node 1).op.name
    ((chainRun noMetadata).node 1).spec = .error missingX := by
  obtain ⟨hname, hviolation⟩ := chain_evaluates.2.2.1
  unfold buildOperatorInput
  rw [hviolation, hname]
  rfl

/-- `b` does not wait for `a`, and fails without `x`. -/
theorem b_fails : ∃ s : RunState (List Row),
    RunReachable (chainRun noMetadata) (chainEngine noMetadata).graph true 2 Lone.noRows s ∧
      s.log = [.failed 1 missingX] ∧ s.bodies 1 = .failed missingX ∧ s.frame = Lone.noRows := by
  obtain ⟨hseeds, hskip, htemplate, hserial⟩ := chain_evaluates.2.2.2
  obtain ⟨t, ht, hworkers, hlive, -, -⟩ := both_begin hseeds
  have hresolve : ((chainRun noMetadata).text.resolveTemplatedParams ((chainRun noMetadata).node 1).template ∅).run
      Lone.noRows.common.find? = .ok ∅ := by
    rw [List.eq_nil_of_length_eq_zero htemplate]
    rfl
  obtain ⟨s, hs, hlog, hbody, hframe⟩ : ∃ s : RunState (List Row),
      RunReachable (chainRun noMetadata) (chainEngine noMetadata).graph true 2 Lone.noRows s ∧ s.log = [] ∧
        s.bodies 1 = .entered ∧ s.frame = Lone.noRows := by
    refine ⟨_, (run_of_quiet ht).tail (.enter (@SchedStep.worker _ _ _ [[⟨0, .start⟩]] ⟨1, .start⟩ [] [] _ _ _ hworkers
      (.enter hlive))), rfl, ?_, rfl⟩
    show Function.update (fun _ => Body.idle) 1 Body.entered 1 = Body.entered
    exact Function.update_self ..
  -- the body goes on over an untouched frame
  have hnext : ∀ {s : RunState (List Row)} {b b' : Body}, s.bodies 1 = b → s.frame = Lone.noRows →
      RunReachable (chainRun noMetadata) (chainEngine noMetadata).graph true 2 Lone.noRows s →
      BodyStep (chainRun noMetadata) ((chainRun noMetadata).node 1) s.sched.shared.cancelled Lone.noRows b Lone.noRows b' →
      ∃ s', RunReachable (chainRun noMetadata) (chainEngine noMetadata).graph true 2 Lone.noRows s' ∧
        s'.log = s.log ++ (b'.entryAt 1).toList ∧ s'.bodies 1 = b' ∧ s'.frame = Lone.noRows := by
    intro s b b' hb hf hr hstep
    rw [← hb, ← hf] at hstep
    refine ⟨_, hr.tail (.body hstep), rfl, ?_, hf⟩
    show Function.update s.bodies 1 b' 1 = b'
    exact Function.update_self ..
  obtain ⟨s₁, hs₁, hlog₁, hbody₁, hframe₁⟩ := hnext hbody hframe hs (.goOn hskip)
  obtain ⟨s₂, hs₂, hlog₂, hbody₂, hframe₂⟩ := hnext hbody₁ hframe₁ hs₁ (.resolve hresolve)
  obtain ⟨s₃, hs₃, hlog₃, hbody₃, hframe₃⟩ := hnext hbody₂ hframe₂ hs₂
    (.serialFails (Or.inl hserial) (.input input_of_b))
  refine ⟨s₃, hs₃, ?_, hbody₃, hframe₃⟩
  rw [hlog₃, hlog₂, hlog₁, hlog]
  rfl

end Pineapple.Apple
