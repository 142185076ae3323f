import Pineapple.AppleDeadCode
import Pineapple.AppleOrder
import Pineapple.ConfigLoad

/-! # `compile_flow` (`apple/compiler.py`)

An accepted flow becomes a JSON document: the operators under their names, the entries of every sub-flow, and those of
the flow itself as the group `main`. What checks the parameters, the resources and the contracts of sub-flows is left
out, so `compileFlow` accepts more flows.

Names are explicit or generated, and the k-th repetition of a generated one gets the suffix `_k`. Nothing compares the
result with the other names, so two operators can get one name (`compileFlow_expand_iff`). -/

namespace Pineapple.Apple

/-! ## Validators -/

/-- A loop of `validate_field_coverage` over the fields that an operator reads. -/
def checkCovered (env : Env) (place : String) (fields available : List String) : Except PyError Unit :=
  fields.forM fun field =>
    if isInternal field ∨ field ∈ available then .ok ()
    else .error (.validationError (place ++ " field " ++ env.repr field ++
      " not provided by flow contract or upstream output"))

/-- A round of `validate_field_coverage`; the state is `available_common` and `available_item`. -/
def coverOp (env : Env) (available : List String × List String) (e : String × OpCall) :
    Except PyError (List String × List String) := do
  checkCovered env (opLocation env e.1 e.2 ++ "common_input") (e.2.inputs .common) available.1
  checkCovered env (opLocation env e.1 e.2 ++ "item_input") (e.2.inputs .item) available.2
  return (available.1 ++ e.2.commonOutput, available.2 ++ e.2.itemOutput)

/-- `validate_field_coverage`. -/
def validateFieldCoverage (env : Env) (ops : List (String × OpCall)) (contract : Contract) : Except PyError Unit := do
  let _ ← ops.foldlM (coverOp env) (contract.commonInput.getD [], contract.itemInput.getD [])

/-- `validate_data_parallel`. -/
def validateDataParallel (env : Env) (ops : List (String × OpCall)) : Except PyError Unit :=
  ops.forM fun e =>
    if e.2.dataParallel ≤ 1 then .ok ()
    else if !e.2.typeName.startsWith "transform_" then
      .error (.validationError (opLocation env e.1 e.2 ++ "data_parallel=" ++ toString e.2.dataParallel ++
        " is only supported for Transform operators, got type_name=" ++ env.repr e.2.typeName))
    else if e.2.commonOutput ≠ [] then
      .error (.validationError (opLocation env e.1 e.2 ++ "data_parallel=" ++ toString e.2.dataParallel ++
        " requires empty common_output for Transform operators"))
    else .ok ()

/-- A round of `validate_sources_references`. -/
def checkSources (env : Env) (allNames seen : List String) (e : String × OpCall) : Except PyError (List String) := do
  (e.2.sources.getD []).forM fun src =>
    if src ∈ seen then .ok ()
    else if src ∈ allNames then
      .error (.validationError (opLocation env e.1 e.2 ++ "sources references " ++ env.repr src ++
        " which is declared after the current operator (forward reference)"))
    else
      .error (.validationError (opLocation env e.1 e.2 ++ "sources references " ++ env.repr src ++
        " which does not exist in the pipeline"))
  return seen ++ [e.1]

/-- `validate_sources_references`. -/
def validateSourcesReferences (env : Env) (ops : List (String × OpCall)) : Except PyError Unit := do
  let _ ← ops.foldlM (checkSources env (ops.map Prod.fst)) []

/-! ## The document -/

/-- `ResourceDecl`. -/
structure ResourceDecl where
  name : String
  resourceType : String
  interval : Int
  params : Dict

/-- What a flow says beside its operators, and the version and time of the compilation. -/
structure Settings where
  version : String := ""
  createTime : String := ""
  storageMode : String := ""
  logPrefix : String := ""
  debug : Bool := false
  skipDeadCode : Bool := false
  resources : List ResourceDecl := []

/-- `{"pipeline": […]}`. -/
def pipelineEntry (named : List (String × OpCall)) (entries : List Entry) : Variant :=
  .object ((∅ : Dict).insert "pipeline" (strings (entries.map (resolveEntry named)))).entries

/-- `pipeline_map`. -/
def pipelineMap (named : List (String × OpCall)) (structures : SortedMap String (List Entry)) : Dict :=
  .ofList ((structures.mapValues (pipelineEntry named)).entries.filter fun e => e.1 ≠ "")

def flowContract (contract : Contract) : Dict :=
  (∅ : Dict).insert "common_input" (strings (contract.commonInput.getD []))
    |>.insert "item_input" (strings (contract.itemInput.getD []))
    |>.insert "common_output" (strings (contract.commonOutput.getD []))
    |>.insert "item_output" (strings (contract.itemOutput.getD []))

def resourceConfig (resources : List ResourceDecl) : Dict :=
  resources.foldl (fun d r => d.insert r.name (.object ((∅ : Dict).insert "type" (.string r.resourceType)
    |>.insert "interval" (.number (Binary64.ofInt r.interval))
    |>.insert "params" (.object r.params.entries)).entries)) ∅

/-- `result`. -/
def document (settings : Settings) (contract : Contract) (named : List (String × OpCall)) (t : Traversal) : Dict :=
  (∅ : Dict).insert "_PINEAPPLE_VERSION" (.string settings.version)
    |>.insert "_PINEAPPLE_CREATE_TIME" (.string settings.createTime)
    |>.insert "pipeline_config" (.object ((∅ : Dict).insert "operators" (.object (operatorsDict named).entries)
      |>.insert "pipeline_map" (.object (pipelineMap named t.structures).entries)).entries)
    |>.insert "pipeline_group" (.object
      ((∅ : Dict).insert "main" (pipelineEntry named ((t.structures.find? "").getD []))).entries)
    |>.insert "flow_contract" (.object (flowContract contract).entries)
    |> setIf (settings.storageMode ≠ "") "storage_mode" (.string settings.storageMode)
    |> setIf (settings.logPrefix ≠ "") "log_prefix" (.string settings.logPrefix)
    |> setIf (settings.debug = true) "debug" (.bool true)
    |> setIf (settings.resources ≠ []) "resource_config" (.object (resourceConfig settings.resources).entries)

/-- `compile_flow`. -/
def compileFlow (env : Env) (settings : Settings) (flow : FlowBase) : Except PyError Dict := do
  let (named, t) ← compiledOps env flow
  let contract := flow.info.contract
  validateNoUnderscoreOutput env named contract
  validateFieldCoverage env named contract
  validateWriteWithoutRead env named t.exclusionGroups
  validateDataParallel env named
  validateSourcesReferences env named
  let dead := detectDeadCode named contract
  if dead ≠ [] ∧ settings.skipDeadCode = false then
    throw (.validationError ("dead operators detected (output not consumed): [" ++
      ", ".intercalate (dead.map env.repr) ++ "]"))
  match named.find? fun e => (pipelineMap named t.structures).contains e.1 with
  | some e => throw (.validationError ("operator name " ++ env.repr e.1 ++ " collides with SubFlow path"))
  | none => return document settings contract named t

/-- What an accepted flow went through. -/
structure Accepted (env : Env) (settings : Settings) (flow : FlowBase) (doc : Dict) (named : List (String × OpCall))
    (t : Traversal) : Prop where
  ops : compiledOps env flow = .ok (named, t)
  isPublic : validateNoUnderscoreOutput env named flow.info.contract = .ok ()
  covered : validateFieldCoverage env named flow.info.contract = .ok ()
  read : validateWriteWithoutRead env named t.exclusionGroups = .ok ()
  sources : validateSourcesReferences env named = .ok ()
  apart : ∀ e ∈ named, (pipelineMap named t.structures).contains e.1 = false
  emitted : doc = document settings flow.info.contract named t

theorem accepted_of_compileFlow {env : Env} {settings : Settings} {flow : FlowBase} {doc : Dict}
    (h : compileFlow env settings flow = .ok doc) : ∃ named t, Accepted env settings flow doc named t := by
  unfold compileFlow at h
  obtain ⟨⟨named, t⟩, hops, h⟩ := Except.bind_eq_ok.mp h
  obtain ⟨⟨⟩, hpublic, h⟩ := Except.bind_eq_ok.mp h
  obtain ⟨⟨⟩, hcovered, h⟩ := Except.bind_eq_ok.mp h
  obtain ⟨⟨⟩, hread, h⟩ := Except.bind_eq_ok.mp h
  obtain ⟨⟨⟩, -, h⟩ := Except.bind_eq_ok.mp h
  obtain ⟨⟨⟩, hsources, h⟩ := Except.bind_eq_ok.mp h
  dsimp only at h
  split_ifs at h
  · cases h
  · split at h
    · cases h
    · next hnone =>
      refine ⟨named, t, hops, hpublic, hcovered, hread, hsources, fun e he => ?_, (Except.pure_eq_ok.mp h).symm⟩
      have hfree := List.find?_eq_none.mp hnone e he
      rwa [Bool.not_eq_true] at hfree

/-! ## Names -/

/-- The operators that have a generated name or explicit one. -/
def timesNamed (env : Env) (ops : List OpCall) (name : String) : Nat := ops.countP fun op => op.uniqueName env = name

/-- The name of the k-th operator with one `unique_name`. -/
def suffixed (name : String) : Nat → String
  | 0 => name
  | k + 1 => name ++ "_" ++ toString (k + 1)

/-- A name, with the suffix of one of its repetitions, is another name or a repetition of it. -/
def SuffixClash (env : Env) (ops : List OpCall) : Prop :=
  ∃ a ∈ ops, ∃ b ∈ ops, a.uniqueName env ≠ b.uniqueName env ∧
    ∃ k < timesNamed env ops (a.uniqueName env), ∃ l < timesNamed env ops (b.uniqueName env),
      suffixed (a.uniqueName env) k = suffixed (b.uniqueName env) l

/-- After the operators `ops` were named: what the next repetition of a name is counted from, and the names. -/
structure Suffixed (env : Env) (ops : List OpCall) (st : Naming) : Prop where
  counts : ∀ name, (st.nameCounts.find? name).elim 0 (· + 1) = timesNamed env ops name
  length : st.namedOps.length = ops.length
  names : ∀ i op, ops[i]? = some op →
    st.namedOps[i]? = some (suffixed (op.uniqueName env) (timesNamed env (ops.take i) (op.uniqueName env)), op)

theorem Suffixed.add {env : Env} {ops : List OpCall} {st st' : Naming} {op : OpCall} (h : Suffixed env ops st)
    (hadd : st.add env op = .ok st') : Suffixed env (ops ++ [op]) st' := by
  have hnext : st'.namedOps = st.namedOps ++
        [(suffixed (op.uniqueName env) (timesNamed env ops (op.uniqueName env)), op)] ∧
      st'.nameCounts = st.nameCounts.insert (op.uniqueName env) (timesNamed env ops (op.uniqueName env)) := by
    have hcount := h.counts (op.uniqueName env)
    unfold Naming.add at hadd
    dsimp only at hadd
    split at hadd
    · next hnone =>
      rw [hnone] at hcount
      cases hadd
      rw [← hcount]
      exact ⟨rfl, rfl⟩
    · next n hsome =>
      rw [hsome] at hcount
      split_ifs at hadd
      cases hadd
      rw [← hcount]
      exact ⟨rfl, rfl⟩
  refine ⟨fun name => ?_, by rw [hnext.1, List.length_append, List.length_append, h.length]; rfl, fun i o ho => ?_⟩
  · have happend : timesNamed env (ops ++ [op]) name =
        timesNamed env ops name + if op.uniqueName env = name then 1 else 0 := by
      simp [timesNamed, List.countP_append, List.countP_singleton]
    rw [happend, hnext.2, SortedMap.find?_insert]
    by_cases hname : name = op.uniqueName env
    · subst hname
      simp
    · simp [hname, Ne.symm hname, h.counts name]
  · rw [hnext.1]
    rcases Nat.lt_or_ge i ops.length with hi | hi
    · rw [List.getElem?_append_left hi] at ho
      rw [List.getElem?_append_left (h.length ▸ hi), List.take_append_of_le_length hi.le]
      exact h.names i o ho
    · rw [List.getElem?_append_right hi, List.getElem?_singleton] at ho
      split_ifs at ho with hzero
      cases ho
      obtain rfl : i = ops.length := by omega
      rw [List.take_left, ← h.length, List.getElem?_concat_length]

theorem Suffixed.run {env : Env} {ops : List OpCall} {st : Naming} (h : ops.foldlM (Naming.add env) {} = .ok st) :
    Suffixed env ops st :=
  Except.foldlM_invariant h ⟨fun _ => rfl, rfl, by simp⟩ fun _ _ _ _ _ hst hadd => hst.add hadd

/-- The suffix tells the repetition. -/
theorem suffixed_inj {name : String} {k l : Nat} (h : suffixed name k = suffixed name l) : k = l := by
  have hne : ∀ k, suffixed name (k + 1) ≠ name := by
    intro k heq
    have hlength := congrArg String.length heq
    have hunderscore : "_".length = 1 := rfl
    simp only [suffixed, String.length_append, hunderscore] at hlength
    omega
  cases k with
  | zero =>
    cases l with
    | zero => rfl
    | succ l => exact absurd h.symm (hne l)
  | succ k =>
    cases l with
    | zero => exact absurd h (hne k)
    | succ l =>
      have hl := congrArg String.toList h
      simp only [suffixed, String.toList_append, Nat.toString_eq_repr, Nat.repr_eq_ofList_toDigits,
        String.toList_ofList] at hl
      exact toDigits_inj (List.append_cancel_left hl)

/-- Of the operators with one name there is one with any smaller number of them before it. -/
theorem exists_repetition {p : OpCall → Bool} {ops : List OpCall} {k : Nat} (h : k < ops.countP p) :
    ∃ i op, ops[i]? = some op ∧ p op = true ∧ (ops.take i).countP p = k := by
  induction ops generalizing k with
  | nil => simp at h
  | cons o ops ih =>
    rw [List.countP_cons] at h
    by_cases ho : p o = true
    · rw [if_pos ho] at h
      cases k with
      | zero => exact ⟨0, o, rfl, ho, rfl⟩
      | succ k =>
        obtain ⟨i, op, hop, hp, hcount⟩ := ih (Nat.lt_of_add_lt_add_right h)
        exact ⟨i + 1, op, hop, hp, by rw [List.take_succ_cons, List.countP_cons, if_pos ho, hcount]⟩
    · rw [if_neg ho] at h
      obtain ⟨i, op, hop, hp, hcount⟩ := ih h
      exact ⟨i + 1, op, hop, hp, by rw [List.take_succ_cons, List.countP_cons, if_neg ho, hcount, Nat.add_zero]⟩

theorem countP_take_lt {p : OpCall → Bool} {ops : List OpCall} {i j : Nat} {op : OpCall} (hop : ops[i]? = some op)
    (hp : p op = true) (hij : i < j) : (ops.take i).countP p < (ops.take j).countP p := by
  have hi := (List.getElem?_eq_some_iff.mp hop).1
  have htake : ops.take (i + 1) = ops.take i ++ [op] := by
    rw [List.take_add_one, hop]
    rfl
  have hle : (ops.take (i + 1)).countP p ≤ (ops.take j).countP p :=
    List.Sublist.countP_le ((List.take_prefix_take_left hij).sublist)
  rw [htake, List.countP_append, List.countP_singleton, if_pos hp] at hle
  omega

/-- Names repeat just where a suffix makes two of them meet. -/
theorem Suffixed.nodup_iff {env : Env} {ops : List OpCall} {st : Naming} (h : Suffixed env ops st) :
    (st.namedOps.map Prod.fst).Nodup ↔ ¬ SuffixClash env ops := by
  have hname : ∀ i op, ops[i]? = some op → (st.namedOps.map Prod.fst)[i]? =
      some (suffixed (op.uniqueName env) (timesNamed env (ops.take i) (op.uniqueName env))) := by
    intro i op hop
    rw [List.getElem?_map, h.names i op hop]
    rfl
  have hlength : (st.namedOps.map Prod.fst).length = ops.length := by rw [List.length_map, h.length]
  rw [List.nodup_iff_getElem?_ne_getElem?]
  constructor
  · rintro hnodup ⟨a, -, b, -, hne, k, hk, l, hl, heq⟩
    obtain ⟨i, o, ho, hoa, hcount⟩ := exists_repetition hk
    obtain ⟨j, o', ho', hob, hcount'⟩ := exists_repetition hl
    rw [decide_eq_true_eq] at hoa hob
    have hi := hname i o ho
    have hj := hname j o' ho'
    rw [hoa, timesNamed, hcount] at hi
    rw [hob, timesNamed, hcount', ← heq] at hj
    have hlt : i < ops.length := (List.getElem?_eq_some_iff.mp ho).1
    have hlt' : j < ops.length := (List.getElem?_eq_some_iff.mp ho').1
    rcases Nat.lt_trichotomy i j with hij | rfl | hij
    · exact hnodup i j hij (hlength ▸ hlt') (hi.trans hj.symm)
    · rw [ho, Option.some.injEq] at ho'
      exact hne (hoa ▸ ho' ▸ hob)
    · exact hnodup j i hij (hlength ▸ hlt) (hj.trans hi.symm)
  · intro hclash i j hij hj heq
    rw [hlength] at hj
    have hi : i < ops.length := hij.trans hj
    have hoi := List.getElem?_eq_getElem hi
    have hoj := List.getElem?_eq_getElem hj
    rw [hname i _ hoi, hname j _ hoj, Option.some.injEq] at heq
    by_cases hsame : (ops[i]).uniqueName env = (ops[j]).uniqueName env
    · rw [hsame] at heq
      have hcount := suffixed_inj heq
      have hlt := countP_take_lt (p := fun op => op.uniqueName env = (ops[j]).uniqueName env) hoi (by simpa using hsame) hij
      unfold timesNamed at hcount
      omega
    · have hbefore : ∀ {m : Nat} (hm : m < ops.length), timesNamed env (ops.take m) ((ops[m]).uniqueName env) <
          timesNamed env ops ((ops[m]).uniqueName env) := by
        intro m hm
        have hlt := countP_take_lt (p := fun op => op.uniqueName env = (ops[m]).uniqueName env)
          (List.getElem?_eq_getElem hm) (by simp) hm
        rwa [List.take_length] at hlt
      exact hclash ⟨_, List.getElem_mem hi, _, List.getElem_mem hj, hsame, _, hbefore hi, _, hbefore hj, heq⟩

/-! ## Expanding what was emitted -/

/-- The operators of a document. -/
def documentOperators (doc : Dict) : Except PineError (List (String × Variant)) := do
  requireObj (← requireObj doc.entries "pipeline_config") "operators"

/-- A configuration has the operators and pipelines of a document. -/
structure CarriesPipelines (doc : Dict) (config : Config) : Prop where
  operators : ∃ es, documentOperators doc = .ok es ∧ ∀ name, config.operators.contains name = (es.lookup name).isSome
  group : ∃ es, requireObj doc.entries "pipeline_group" = .ok es ∧ parseMap parsePipeline es = .ok config.pipelineGroup
  pipelines : ∃ pc es, requireObj doc.entries "pipeline_config" = .ok pc ∧ requireObj pc "pipeline_map" = .ok es ∧
    parseMap parsePipeline es = .ok config.pipelineMap

/-- The engine's sequence is that of the flow's operators: every name is a different one, stands for what was declared,
and belongs to the sub-flow it was declared in. -/
structure KeepsOperators (flow : FlowBase) (doc : Dict) (expanded : ExpandedSequence) : Prop where
  distinct : expanded.sequence.Nodup
  inOrder : List.Forall₂ (fun name d => expanded.opToSubflow.find? name = some d.1 ∧
    ∃ es op, documentOperators doc = .ok es ∧ es.lookup name = some (.object (operatorEntry op).entries) ∧
      op.core = d.2.core) expanded.sequence flow.declared

section
variable {env : Env} {settings : Settings} {flow : FlowBase} {doc : Dict} {named : List (String × OpCall)} {t : Traversal}

theorem documentOperators_document (settings : Settings) (contract : Contract) (named : List (String × OpCall))
    (t : Traversal) : documentOperators (document settings contract named t) = .ok (operatorsDict named).entries := by
  have hconfig : (document settings contract named t).entries.lookup "pipeline_config" = some (.object
      ((∅ : Dict).insert "operators" (.object (operatorsDict named).entries)
        |>.insert "pipeline_map" (.object (pipelineMap named t.structures).entries)).entries) := by
    rw [lookup_entries]
    simp [document, SortedMap.find?_insert]
  simp only [documentOperators, requireObj, hconfig, Variant.asObject, Except.ok_bind, lookup_entries]
  simp [SortedMap.find?_insert]

/-- A pipeline is read back. -/
theorem parsePipeline_pipelineEntry (named : List (String × OpCall)) (entries : List Entry) (name : String) :
    parsePipeline name (pipelineEntry named entries) = .ok (entries.map (resolveEntry named)) :=
  asStringList_of_find? (d := (∅ : Dict).insert "pipeline" (strings (entries.map (resolveEntry named))))
    (Or.inl (SortedMap.find?_insert_self ..))

theorem find?_pipelineMap (named : List (String × OpCall)) (structures : SortedMap String (List Entry)) (p : String) :
    (pipelineMap named structures).find? p =
      if p = "" then none else (structures.find? p).map (pipelineEntry named) := by
  rw [pipelineMap, find?_ofList_filter (structures.mapValues (pipelineEntry named)) fun k => decide (k ≠ ""),
    SortedMap.find?_mapValues]
  by_cases hp : p = "" <;> simp [hp]

theorem contains_operatorsDict (named : List (String × OpCall)) (name : String) :
    (operatorsDict named).contains name = true ↔ name ∈ named.map Prod.fst := by
  have hdict : operatorsDict named =
      SortedMap.ofList (named.map fun e => (e.1, Variant.object (operatorEntry e.2).entries)) := by
    rw [SortedMap.ofList, List.foldl_map]
    rfl
  rw [hdict, SortedMap.contains_ofList, List.map_map]
  rfl

theorem uniqueName_ne (env : Env) (op : OpCall) : op.uniqueName env ≠ "" := by
  unfold OpCall.uniqueName
  split_ifs with hname
  · exact hname
  · intro heq
    have hl := congrArg String.toList heq
    simp at hl

theorem suffixed_ne {name : String} (h : name ≠ "") (k : Nat) : suffixed name k ≠ "" := by
  cases k with
  | zero => exact h
  | succ k =>
    intro heq
    have hl := congrArg String.toList heq
    simp [suffixed] at hl

/-- What the names are. -/
theorem Accepted.suffixed (h : Accepted env settings flow doc named t) :
    traverse env flow = .ok t ∧ ∃ st : Naming, st.namedOps = named ∧ Suffixed env t.allOps st ∧
      named.map Prod.snd = t.allOps := by
  have hops := h.ops
  unfold compiledOps at hops
  obtain ⟨-, -, hops⟩ := Except.bind_eq_ok.mp hops
  obtain ⟨t', htraverse, hops⟩ := Except.bind_eq_ok.mp hops
  obtain ⟨naming, hnaming, hops⟩ := Except.bind_eq_ok.mp hops
  cases hops
  exact ⟨htraverse, naming, rfl, .run hnaming, (Named.run hnaming).listed⟩

theorem Accepted.name_ne (h : Accepted env settings flow doc named t) {e : String × OpCall} (he : e ∈ named) :
    e.1 ≠ "" := by
  obtain ⟨-, st, rfl, hsuffixed, -⟩ := h.suffixed
  obtain ⟨i, hi, rfl⟩ := List.getElem_of_mem he
  have hop := hsuffixed.names i _ (List.getElem?_eq_getElem (hsuffixed.length ▸ hi))
  rw [List.getElem?_eq_getElem hi, Option.some.injEq] at hop
  rw [hop]
  exact suffixed_ne (uniqueName_ne env _) _

section
variable {config : Config}

theorem CarriesPipelines.contains (h : Accepted env settings flow doc named t) (hc : CarriesPipelines doc config)
    (name : String) : config.operators.contains name = true ↔ name ∈ named.map Prod.fst := by
  obtain ⟨es, hes, hcontains⟩ := hc.operators
  rw [h.emitted, documentOperators_document, Except.ok.injEq] at hes
  rw [hcontains, ← hes, ← contains_operatorsDict]
  rfl

/-- The pipelines of the sub-flows, and that of the flow. -/
theorem CarriesPipelines.pipelines_eq (h : Accepted env settings flow doc named t)
    (hc : CarriesPipelines doc config) :
    (∀ p, config.pipelineMap.find? p =
      if p = "" then none else (t.structures.find? p).map fun entries => entries.map (resolveEntry named)) ∧
    config.pipelineGroup.find? "main" = some (((t.structures.find? "").getD []).map (resolveEntry named)) := by
  have hconfig : requireObj doc.entries "pipeline_config" = .ok
      ((∅ : Dict).insert "operators" (.object (operatorsDict named).entries)
        |>.insert "pipeline_map" (.object (pipelineMap named t.structures).entries)).entries := by
    rw [h.emitted, requireObj, lookup_entries]
    simp [document, SortedMap.find?_insert, Variant.asObject]
  have hgroup : requireObj doc.entries "pipeline_group" = .ok
      ((∅ : Dict).insert "main" (pipelineEntry named ((t.structures.find? "").getD []))).entries := by
    rw [h.emitted, requireObj, lookup_entries]
    simp [document, SortedMap.find?_insert, Variant.asObject]
  constructor
  · intro p
    obtain ⟨pc, es, hpc, hes, hparse⟩ := hc.pipelines
    rw [hconfig, Except.ok.injEq] at hpc
    subst hpc
    rw [requireObj, lookup_entries, SortedMap.find?_insert_self] at hes
    obtain rfl : (pipelineMap named t.structures).entries = es := Except.ok.inj hes
    have hspec := parseMap_spec (pipelineMap named t.structures).sorted hparse p
    rw [lookup_entries, find?_pipelineMap] at hspec
    by_cases hp : p = ""
    · rw [if_pos hp] at hspec ⊢
      exact hspec
    · rw [if_neg hp] at hspec ⊢
      cases hfind : t.structures.find? p with
      | none =>
        rw [hfind] at hspec
        exact hspec
      | some entries =>
        rw [hfind] at hspec
        obtain ⟨a, ha, hfinda⟩ := hspec
        rw [parsePipeline_pipelineEntry, Except.ok.injEq] at ha
        rw [hfinda, ← ha]
        rfl
  · obtain ⟨es, hes, hparse⟩ := hc.group
    rw [hgroup, Except.ok.injEq] at hes
    subst hes
    have hspec := parseMap_spec (SortedMap.sorted _) hparse "main"
    rw [lookup_entries, SortedMap.find?_insert_self] at hspec
    obtain ⟨a, ha, hfinda⟩ := hspec
    rw [parsePipeline_pipelineEntry, Except.ok.injEq] at ha
    rw [hfinda, ← ha]

theorem CarriesPipelines.holds (h : Accepted env settings flow doc named t) (hc : CarriesPipelines doc config) :
    Holds config named t.structures := by
  refine ⟨fun e he => (hc.contains h e.1).mpr (List.mem_map_of_mem he), fun p entries hp hfind => ⟨?_, ?_⟩⟩
  · rw [← Bool.not_eq_true, hc.contains h]
    intro hmem
    obtain ⟨e, he, rfl⟩ := List.mem_map.mp hmem
    have hcontains := h.apart e he
    rw [SortedMap.contains, find?_pipelineMap, if_neg hp, hfind] at hcontains
    cases hcontains
  · rw [(hc.pipelines_eq h).1, if_neg hp, hfind]
    rfl

/-- The configuration that the engine makes of the document. -/
theorem carries_of_load (h : Accepted env settings flow doc named t) {registry : Registry}
    (hload : loadConfigFromJson registry (.object doc.entries) = .ok config) : CarriesPipelines doc config := by
  obtain ⟨root, parsed, hroot, hfrom, htraits, -⟩ := steps_of_load hload
  obtain rfl : doc.entries = root := Except.ok.inj hroot
  obtain ⟨hconfig, hcontains, -⟩ := applyRegistryTraits_spec htraits
  obtain ⟨pc, es, hpc, hmap, hops, hparse⟩ := hfrom.pipelines
  have hdoc := documentOperators_document settings flow.info.contract named t
  rw [← h.emitted, documentOperators, hpc, Except.ok_bind, requireObj, hops] at hdoc
  obtain rfl : es = (operatorsDict named).entries := Except.ok.inj hdoc
  refine ⟨⟨(operatorsDict named).entries, ?_, fun name => ?_⟩, ?_, ?_⟩
  · rw [documentOperators, hpc, Except.ok_bind, requireObj, hops]
    rfl
  · have hspec := parseMap_spec (operatorsDict named).sorted hparse name
    rw [Bool.eq_iff_iff, hcontains, SortedMap.contains]
    cases hlookup : (operatorsDict named).entries.lookup name with
    | none =>
      rw [hlookup] at hspec
      rw [hspec]
      simp
    | some v =>
      rw [hlookup] at hspec
      obtain ⟨a, -, hfind⟩ := hspec
      rw [hfind]
      simp
  · obtain ⟨gs, hgs, hgroup⟩ := hfrom.group
    exact ⟨gs, hgs, by rw [hgroup, hconfig]⟩
  · have hmapEntry : pc.lookup "pipeline_map" = some (.object (pipelineMap named t.structures).entries) := by
      have hpc' := hpc
      rw [h.emitted, requireObj, lookup_entries] at hpc'
      simp only [document, find?_setIf, SortedMap.find?_insert] at hpc'
      simp [Variant.asObject] at hpc'
      rw [← hpc', lookup_entries, SortedMap.find?_insert_self]
    rw [hmapEntry] at hmap
    refine ⟨pc, (pipelineMap named t.structures).entries, hpc, by rw [requireObj, hmapEntry]; rfl, ?_⟩
    rw [hconfig]
    exact hmap

/-- Some configuration has the pipelines of the document. -/
theorem exists_carries (h : Accepted env settings flow doc named t) : ∃ config, CarriesPipelines doc config := by
  have hparse : ∀ es : List (String × Variant), (∀ e ∈ es, ∃ entries, e.2 = pipelineEntry named entries) →
      ∀ m : SortedMap String (List String), ∃ m', es.foldlM (fun m e => do
        return m.insert e.1 (← parsePipeline e.1 e.2)) m = (.ok m' : Except PineError _) := by
    intro es hes
    induction es with
    | nil => exact fun m => ⟨m, rfl⟩
    | cons e es ih =>
      intro m
      obtain ⟨entries, hentry⟩ := hes e List.mem_cons_self
      rw [List.foldlM_cons, hentry, parsePipeline_pipelineEntry]
      exact ih (fun e' he' => hes e' (List.mem_cons_of_mem _ he')) _
  obtain ⟨pipelines, hpipelines⟩ := hparse (pipelineMap named t.structures).entries (by
    rintro ⟨p, v⟩ he
    have hfind := SortedMap.mem_entries.mp he
    rw [find?_pipelineMap] at hfind
    split_ifs at hfind
    obtain ⟨entries, -, rfl⟩ := Option.map_eq_some_iff.mp hfind
    exact ⟨entries, rfl⟩) ∅
  obtain ⟨group, hgroup⟩ := hparse
    ((∅ : Dict).insert "main" (pipelineEntry named ((t.structures.find? "").getD []))).entries (by
      rintro e he
      rcases SortedMap.mem_insertEntry he with rfl | he
      · exact ⟨_, rfl⟩
      · cases he) ∅
  have hconfig : requireObj doc.entries "pipeline_config" = .ok
      ((∅ : Dict).insert "operators" (.object (operatorsDict named).entries)
        |>.insert "pipeline_map" (.object (pipelineMap named t.structures).entries)).entries := by
    rw [h.emitted, requireObj, lookup_entries]
    simp [document, SortedMap.find?_insert, Variant.asObject]
  refine ⟨{ operators := (operatorsDict named).mapValues fun _ => {}, pipelineMap := pipelines, pipelineGroup := group },
    ⟨⟨_, h.emitted ▸ documentOperators_document _ _ named t, fun name => ?_⟩, ⟨_, ?_, hgroup⟩, ⟨_, _, hconfig, ?_,
      hpipelines⟩⟩⟩
  · rw [SortedMap.contains, SortedMap.find?_mapValues, Option.isSome_map]
    rfl
  · rw [h.emitted, requireObj, lookup_entries]
    simp [document, SortedMap.find?_insert, Variant.asObject]
  · rw [requireObj, lookup_entries, SortedMap.find?_insert_self]
    rfl

/-- Where names are different, and no sub-flow of the flow itself has the empty name, the engine finds every operator
where it was declared. -/
theorem keepsOperators_of_nodup (h : Accepted env settings flow doc named t) (hc : CarriesPipelines doc config)
    (hnodup : (named.map Prod.fst).Nodup) (hpaths : ∀ info cs, .sf info cs ∈ flow.children → info.name ≠ "") :
    ∃ expanded, expandOperatorSequenceWithSubflows config = .ok expanded ∧ KeepsOperators flow doc expanded := by
  obtain ⟨htraverse, -, -, -, hlisted⟩ := h.suffixed
  obtain ⟨hdeclared, entries, hentries, -, hunfolds⟩ := traverse_order env htraverse
  have hunfold := hunfolds config named hlisted (hc.holds h) hpaths
  have hmain : mainGroup config = some (entries.map (resolveEntry named)) := by
    rw [mainGroup, (hc.pipelines_eq h).2, hentries]
    rfl
  have hfst : (named.map fun e => (e.1, e.2.subflowPath)).map Prod.fst = named.map Prod.fst := by
    rw [List.map_map]
    rfl
  have hmapping : ∀ name, ((named.map fun e => (e.1, e.2.subflowPath)).foldl
      (fun m e => m.insert e.1 e.2) (∅ : SortedMap String String)).find? name =
      (named.map fun e => (e.1, e.2.subflowPath)).lookup name := fun name => by
    rw [lookup_foldl_insert _ (hfst ▸ hnodup), SortedMap.find?_empty, Option.or_none]
  refine ⟨⟨named.map Prod.fst, (named.map fun e => (e.1, e.2.subflowPath)).foldl (fun m e => m.insert e.1 e.2) ∅⟩,
    (expandOperatorSequence_eq_ok config _).mpr ⟨_, _, hmain, hunfold, hfst ▸ hnodup, hfst.symm, hmapping⟩, hnodup, ?_⟩
  have hpairs : named.map (fun e => (e.2.subflowPath, e.2.core)) = flow.declared.map fun d => (d.1, d.2.core) := by
    rw [← hdeclared, ← hlisted, List.map_map]
    rfl
  have hlength : named.length = flow.declared.length := by
    simpa using congrArg List.length hpairs
  rw [List.forall₂_map_left_iff, List.forall₂_iff_get]
  refine ⟨hlength, fun i hi hi' => ?_⟩
  simp only [List.get_eq_getElem]
  have hpair : (named[i].2.subflowPath, named[i].2.core) = (flow.declared[i].1, flow.declared[i].2.core) := by
    have hget := congrArg (fun l => l[i]?) hpairs
    simpa [hi, hi'] using hget
  obtain ⟨hpath, hcore⟩ := Prod.mk.inj hpair
  have hsplit : named = named.take i ++ (named[i].1, named[i].2) :: named.drop (i + 1) := by
    rw [← List.drop_eq_getElem_cons hi, List.take_append_drop]
  have hafter : ∀ e ∈ named.drop (i + 1), e.1 ≠ named[i].1 := by
    intro e he heq
    rw [hsplit, List.map_append, List.map_cons] at hnodup
    exact (List.nodup_cons.mp hnodup.of_append_right).1 (heq ▸ List.mem_map_of_mem he)
  have hbefore : ∀ e ∈ named.take i, e.1 ≠ named[i].1 := by
    intro e he heq
    rw [hsplit, List.map_append, List.map_cons] at hnodup
    exact List.disjoint_of_nodup_append hnodup (heq ▸ List.mem_map_of_mem he) List.mem_cons_self
  refine ⟨?_, _, named[i].2, h.emitted ▸ documentOperators_document _ _ named t, find?_operatorsDict hsplit hafter, hcore⟩
  rw [hmapping, ← hpath, List.lookup_eq_some_iff]
  refine ⟨(named.take i).map fun e => (e.1, e.2.subflowPath), (named.drop (i + 1)).map fun e => (e.1, e.2.subflowPath),
    ?_, fun p hp => ?_⟩
  · conv_lhs => rw [hsplit]
    rw [List.map_append, List.map_cons]
  · obtain ⟨e, he, rfl⟩ := List.mem_map.mp hp
    simpa using Ne.symm (hbefore e he)

/-- A sequence that the engine finds is that of the operators, under different names. -/
theorem sequence_of_expand (h : Accepted env settings flow doc named t) (hc : CarriesPipelines doc config)
    {expanded : ExpandedSequence} (hexpand : expandOperatorSequenceWithSubflows config = .ok expanded) :
    (∀ info cs, .sf info cs ∈ flow.children → info.name ≠ "") ∧ (named.map Prod.fst).Nodup ∧
      expanded.sequence = named.map Prod.fst := by
  obtain ⟨htraverse, -, -, -, hlisted⟩ := h.suffixed
  obtain ⟨-, entries, hentries, hsubs, hunfolds⟩ := traverse_order env htraverse
  obtain ⟨root, l, hroot, hunfold, hnodup, hsequence, -⟩ := (expandOperatorSequence_eq_ok config expanded).mp hexpand
  rw [mainGroup, (hc.pipelines_eq h).2, hentries] at hroot
  obtain rfl := Option.some.inj hroot
  have hpaths : ∀ info cs, .sf info cs ∈ flow.children → info.name ≠ "" := by
    rintro info cs hmem hname
    have hempty : "" ∈ entries.map (resolveEntry named) := List.mem_map.mpr ⟨_, hsubs info cs hmem, by rw [hname]; rfl⟩
    cases hunfold.grounded "" hempty with
    | op hop =>
      obtain ⟨e, he, heq⟩ := List.mem_map.mp ((hc.contains h "").mp hop)
      exact h.name_ne he heq
    | sub hop hfind =>
      rw [(hc.pipelines_eq h).1, if_pos rfl] at hfind
      cases hfind
  have hleaves : l.map Prod.fst = named.map Prod.fst := by
    rw [hunfold.unique (hunfolds config named hlisted (hc.holds h) hpaths), List.map_map]
    rfl
  exact ⟨hpaths, hleaves ▸ hnodup, hsequence.trans hleaves⟩

end

/-- Two operators without a name, and one that has the name that the second of them gets. -/
def clashingCalls : List Call := [
  .op "observe_log" {}, .op "observe_log" {}, .op "observe_log" { name := "observe_log_000000_1" }]

def clashingFlow : FlowBase :=
  (runCalls asciiEnv clashingCalls { info := { name := "flow" } }).toOption.getD { info := { name := "" } }

def clashingDoc : Dict := (compileFlow asciiEnv {} clashingFlow).toOption.getD ∅

theorem clashingDoc_compiled : compileFlow asciiEnv {} clashingFlow = .ok clashingDoc :=
  Except.eq_ok_getD (by decide +kernel) ∅

end

end Pineapple.Apple
