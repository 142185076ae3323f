import Pineapple.AppleTraverse
import Pineapple.Config
import Pineapple.Lib.Except

/-! # The emitted configuration (`compile_flow` in `apple/compiler.py`)

Attributes and business parameters of an operator share one JSON object, the parameters written last. The loader takes
them apart by `reservedKeys`. So a parameter that has the name of an attribute replaces it
(`parseOperator_operatorEntry`). -/

namespace Pineapple.Apple

/-! ## Emitting an operator -/

/-- A Python dictionary. The order of its keys is no part of the model. -/
abbrev Dict := SortedMap String Variant

/-- `if cond: d[key] = value`. -/
def setIf (cond : Prop) [Decidable cond] (key : String) (value : Variant) (d : Dict) : Dict :=
  if cond then d.insert key value else d

def strings (l : List String) : Variant := .array (l.map .string)

def metadataEntry (op : OpCall) : Dict :=
  (∅ : Dict).insert "common_input" (strings op.commonInput)
    |>.insert "common_output" (strings op.commonOutput)
    |>.insert "item_input" (strings op.itemInput)
    |>.insert "item_output" (strings op.itemOutput)
    |> setIf (op.commonInputSkip ≠ []) "common_input_skip" (strings op.commonInputSkip)
    |> setIf (op.commonInputTemplate ≠ []) "common_input_template" (strings op.commonInputTemplate)

/-- What `compile_flow` itself puts into an operator's entry. -/
def engineEntry (op : OpCall) : Dict :=
  (∅ : Dict).insert "type_name" (.string op.typeName)
    |>.insert "$metadata" (.object (metadataEntry op).entries)
    |> setIf (op.codeInfo ≠ "") "$code_info" (.string op.codeInfo)
    |> setIf (op.recall = true) "recall" (.bool true)
    |> setIf (op.sources.getD [] ≠ []) "sources" (strings (op.sources.getD []))
    |> setIf (op.skip ≠ []) "skip" (strings op.skip)
    |> setIf (op.forBranchControl = true) "for_branch_control" (.bool true)
    |> setIf (op.consumesRowSet = true) "consumes_row_set" (.bool true)
    |> setIf (op.additiveWritesRowSet = true) "additive_writes_row_set" (.bool true)
    |> setIf (op.mutatesRowSet = true) "mutates_row_set" (.bool true)
    |> setIf (op.itemDefaults.getD [] ≠ []) "item_defaults" (.object (op.itemDefaults.getD []))
    |> setIf (op.commonDefaults.getD [] ≠ []) "common_defaults" (.object (op.commonDefaults.getD []))
    |> setIf (op.strictCommon ≠ []) "strict_common" (strings op.strictCommon)
    |> setIf (op.strictItem ≠ []) "strict_item" (strings op.strictItem)
    |> setIf (op.debug = true) "debug" (.bool true)
    |> setIf (1 < op.dataParallel) "data_parallel" (.number (Binary64.ofInt op.dataParallel))

/-- The parameters as they are emitted. -/
def OpCall.paramValues (op : OpCall) : List (String × Variant) := op.params.map fun e => (e.1, e.2.toVariant)

/-- An operator's entry. -/
def operatorEntry (op : OpCall) : Dict := op.paramValues.foldl (fun d e => d.insert e.1 e.2) (engineEntry op)

/-- `operators`. -/
def operatorsDict (named : List (String × OpCall)) : Dict :=
  named.foldl (fun d e => d.insert e.1 (.object (operatorEntry e.2).entries)) ∅

/-! ## Reading it back -/

/-- What the loader should make of an operator. -/
def OpCall.loaded (op : OpCall) (name : String) : OperatorConfig where
  name
  typeName := op.typeName
  metadata := {
    commonInput := op.commonInput
    commonInputSkip := op.commonInputSkip
    commonInputTemplate := op.commonInputTemplate
    commonOutput := op.commonOutput
    itemInput := op.itemInput
    itemOutput := op.itemOutput }
  skip := op.skip
  «recall» := op.recall
  consumesRowSet := op.consumesRowSet
  mutatesRowSet := op.mutatesRowSet
  additiveWritesRowSet := op.additiveWritesRowSet
  debug := if op.debug then some true else none
  forBranchControl := op.forBranchControl
  commonDefaults := .ofList (op.commonDefaults.getD [])
  itemDefaults := .ofList (op.itemDefaults.getD [])
  strictCommon := op.strictCommon
  strictItem := op.strictItem
  sources := op.sources.getD []
  params := .object (SortedMap.ofList op.paramValues).entries
  dataParallel := op.dataParallel

section
variable {op : OpCall}

@[simp] theorem find?_setIf (cond : Prop) [Decidable cond] (key : String) (value : Variant) (d : Dict) (x : String) :
    (setIf cond key value d).find? x = if cond ∧ x = key then some value else d.find? x := by
  unfold setIf
  by_cases hc : cond
  · simp [hc, SortedMap.find?_insert]
  · simp [hc]

theorem lookup_entries (d : Dict) (x : String) : d.entries.lookup x = d.find? x := rfl

theorem mapM_asString (l : List String) : (l.map Variant.string).mapM Variant.asString = .ok l := by
  induction l with
  | nil => rfl
  | cons s l ih =>
    rw [List.map_cons, List.mapM_cons, ih]
    rfl

/-- A list that is left out where it is empty comes back. -/
theorem asStringList_of_find? {d : Dict} {key : String} {l : List String}
    (h : d.find? key = some (strings l) ∨ l = [] ∧ d.find? key = none) : asStringList d.entries key = .ok l := by
  unfold asStringList
  rw [lookup_entries]
  rcases h with h | ⟨rfl, h⟩
  · rw [h]
    exact mapM_asString l
  · rw [h]

theorem parseMetadata_metadataEntry {d : Dict} (h : d.find? "$metadata" = some (.object (metadataEntry op).entries)) :
    parseMetadata d.entries = .ok (op.loaded "").metadata := by
  have hcommon : asStringList (metadataEntry op).entries "common_input" = .ok op.commonInput :=
    asStringList_of_find? (by simp [metadataEntry, SortedMap.find?_insert])
  have hskip : asStringList (metadataEntry op).entries "common_input_skip" = .ok op.commonInputSkip :=
    asStringList_of_find? (by by_cases hs : op.commonInputSkip = [] <;> simp [metadataEntry, SortedMap.find?_insert, hs])
  have htemplate : asStringList (metadataEntry op).entries "common_input_template" = .ok op.commonInputTemplate :=
    asStringList_of_find? (by
      by_cases hs : op.commonInputTemplate = [] <;> simp [metadataEntry, SortedMap.find?_insert, hs])
  have houtput : asStringList (metadataEntry op).entries "common_output" = .ok op.commonOutput :=
    asStringList_of_find? (by simp [metadataEntry, SortedMap.find?_insert])
  have hitem : asStringList (metadataEntry op).entries "item_input" = .ok op.itemInput :=
    asStringList_of_find? (by simp [metadataEntry, SortedMap.find?_insert])
  have hitemOutput : asStringList (metadataEntry op).entries "item_output" = .ok op.itemOutput :=
    asStringList_of_find? (by simp [metadataEntry])
  unfold parseMetadata
  rw [lookup_entries, h]
  simp only [Variant.asObject, Except.ok_bind, hcommon, hskip, htemplate, houtput, hitem, hitemOutput]
  rfl

/-- The parameters' names are their own. -/
def OpCall.FreeParams (op : OpCall) : Prop := ∀ e ∈ op.params, e.1 ∉ reservedKeys

theorem find?_foldl_insert_of_not_mem {es : List (String × Variant)} {d : Dict} {x : String}
    (h : ∀ e ∈ es, e.1 ≠ x) : (es.foldl (fun d e => d.insert e.1 e.2) d).find? x = d.find? x := by
  induction es generalizing d with
  | nil => rfl
  | cons e es ih =>
    rw [List.foldl_cons, ih fun e' he' => h e' (List.mem_cons_of_mem _ he'),
      SortedMap.find?_insert_of_ne _ _ (Ne.symm (h e List.mem_cons_self))]

/-- Inserting into a map that does not have the key is inserting into an empty one. -/
theorem find?_foldl_insert_of_none {es : List (String × Variant)} {d d' : Dict} {x : String}
    (h : d.find? x = d'.find? x) : (es.foldl (fun d e => d.insert e.1 e.2) d).find? x =
      (es.foldl (fun d e => d.insert e.1 e.2) d').find? x := by
  induction es generalizing d d' with
  | nil => exact h
  | cons e es ih =>
    refine ih ?_
    rw [SortedMap.find?_insert, SortedMap.find?_insert, h]

theorem find?_operatorEntry (h : op.FreeParams) {key : String} (hkey : key ∈ reservedKeys) :
    (operatorEntry op).find? key = (engineEntry op).find? key := by
  refine find?_foldl_insert_of_not_mem fun e he heq => ?_
  obtain ⟨p, hp, rfl⟩ := List.mem_map.mp he
  exact h p hp (heq ▸ hkey)

theorem find?_engineEntry_of_not_reserved {key : String} (hkey : key ∉ reservedKeys) :
    (engineEntry op).find? key = none := by
  simp only [reservedKeys, List.mem_cons, List.not_mem_nil, or_false, not_or] at hkey
  simp [engineEntry, SortedMap.find?_insert, hkey]

theorem find?_ofList_filter (d : Dict) (p : String → Bool) (x : String) :
    (SortedMap.ofList (d.entries.filter fun e => p e.1)).find? x = if p x then d.find? x else none := by
  rw [SortedMap.ofList, SortedMap.find?_foldl_insert (d.sorted.filter _), SortedMap.find?_empty, Option.or_none]
  show (d.entries.filter fun e => p e.1).lookup x = if p x then d.entries.lookup x else none
  induction d.entries with
  | nil => simp
  | cons e es ih =>
    rw [List.filter_cons]
    by_cases hx : x = e.1
    · subst hx
      cases hp : p e.1 with
      | true => simp [SortedMap.lookup_cons]
      | false =>
        rw [if_neg Bool.false_ne_true, ih, hp]
        simp
    · cases hp : p e.1 with
      | true => simp [SortedMap.lookup_cons, hx, ih]
      | false => simp [SortedMap.lookup_cons, hx, ih]

/-- What the loader takes for the parameters. -/
theorem params_operatorEntry (op : OpCall) (x : String) :
    (SortedMap.ofList ((operatorEntry op).entries.filter fun e => decide (e.1 ∉ reservedKeys))).find? x =
      if x ∈ reservedKeys then none else (SortedMap.ofList op.paramValues).find? x := by
  rw [find?_ofList_filter (operatorEntry op) fun k => decide (k ∉ reservedKeys)]
  by_cases hx : x ∈ reservedKeys
  · simp [hx]
  · simp only [hx, not_false_eq_true, decide_true, if_true, if_false]
    exact find?_foldl_insert_of_none (find?_engineEntry_of_not_reserved hx)

theorem find?_engineEntry (op : OpCall) :
    (engineEntry op).find? "type_name" = some (.string op.typeName) ∧
    (engineEntry op).find? "$metadata" = some (.object (metadataEntry op).entries) ∧
    (engineEntry op).find? "skip" = (if op.skip ≠ [] then some (strings op.skip) else none) ∧
    (engineEntry op).find? "sources" =
      (if op.sources.getD [] ≠ [] then some (strings (op.sources.getD [])) else none) ∧
    (engineEntry op).find? "strict_common" = (if op.strictCommon ≠ [] then some (strings op.strictCommon) else none) ∧
    (engineEntry op).find? "strict_item" = (if op.strictItem ≠ [] then some (strings op.strictItem) else none) ∧
    (engineEntry op).find? "common_defaults" =
      (if op.commonDefaults.getD [] ≠ [] then some (.object (op.commonDefaults.getD [])) else none) ∧
    (engineEntry op).find? "item_defaults" =
      (if op.itemDefaults.getD [] ≠ [] then some (.object (op.itemDefaults.getD [])) else none) ∧
    (engineEntry op).find? "data_parallel" =
      (if 1 < op.dataParallel then some (.number (Binary64.ofInt op.dataParallel)) else none) := by
  simp [engineEntry, SortedMap.find?_insert]

/-- The flags. -/
def OpCall.flag (op : OpCall) : String → Bool
  | "recall" => op.recall
  | "for_branch_control" => op.forBranchControl
  | "consumes_row_set" => op.consumesRowSet
  | "additive_writes_row_set" => op.additiveWritesRowSet
  | "mutates_row_set" => op.mutatesRowSet
  | "debug" => op.debug
  | _ => false

theorem boolField_engineEntry (op : OpCall) {key : String}
    (hkey : key ∈ ["recall", "for_branch_control", "consumes_row_set", "additive_writes_row_set", "mutates_row_set",
      "debug"]) : (engineEntry op).find? key = if op.flag key = true then some (.bool true) else none := by
  simp only [List.mem_cons, List.not_mem_nil, or_false] at hkey
  rcases hkey with rfl | rfl | rfl | rfl | rfl | rfl <;> simp [engineEntry, SortedMap.find?_insert, OpCall.flag]

/-- What the loader makes of the flags, of which only the ones that are set are emitted. -/
theorem boolField_operatorEntry (h : op.FreeParams) {key : String}
    (hkey : key ∈ ["recall", "for_branch_control", "consumes_row_set", "additive_writes_row_set", "mutates_row_set",
      "debug"]) : boolField (operatorEntry op).entries key = if op.flag key = true then some true else none := by
  have hreserved : key ∈ reservedKeys := by
    simp only [List.mem_cons, List.not_mem_nil, or_false] at hkey
    rcases hkey with rfl | rfl | rfl | rfl | rfl | rfl <;> decide
  unfold boolField
  rw [lookup_entries, find?_operatorEntry h hreserved, boolField_engineEntry op hkey]
  split_ifs <;> rfl

/-- The entry of an operator whose parameters have their own names. -/
theorem parseOperator_of_freeParams (h : op.FreeParams) (name : String) :
    parseOperator name (.object (operatorEntry op).entries) = .ok { op.loaded name with
      dataParallel := if 1 < op.dataParallel then castInt (Binary64.ofInt op.dataParallel) else 0 } := by
  obtain ⟨htype, hmeta, hskip, hsources, hstrictCommon, hstrictItem, hcommon, hitem, hparallel⟩ := find?_engineEntry op
  have hfind : ∀ {key : String}, key ∈ reservedKeys →
      (operatorEntry op).entries.lookup key = (engineEntry op).find? key := fun hkey => find?_operatorEntry h hkey
  have hlist : ∀ {key : String} {l : List String}, key ∈ reservedKeys →
      (engineEntry op).find? key = (if l ≠ [] then some (strings l) else none) →
      asStringList (operatorEntry op).entries key = .ok l := by
    intro key l hkey hl
    refine asStringList_of_find? ?_
    rw [find?_operatorEntry h hkey, hl]
    by_cases hnil : l = [] <;> simp [hnil]
  have hmap : ∀ {key : String} {es : List (String × Variant)}, key ∈ reservedKeys →
      (engineEntry op).find? key = (if es ≠ [] then some (.object es) else none) →
      asValueMap (operatorEntry op).entries key = .ok (SortedMap.ofList es) := by
    intro key es hkey hes
    unfold asValueMap
    rw [hfind hkey, hes]
    by_cases hnil : es = []
    · subst hnil
      rfl
    · rw [if_pos hnil]
      rfl
  have hskip' : parseSkip (operatorEntry op).entries = .ok op.skip := by
    have hread := hlist (l := op.skip) (by decide) hskip
    unfold asStringList at hread
    unfold parseSkip
    rw [hfind (by decide), hskip] at hread ⊢
    by_cases hnil : op.skip = []
    · simp [hnil]
    · rw [if_pos hnil] at hread ⊢
      exact hread
  have hmetadata : parseMetadata (operatorEntry op).entries = .ok (op.loaded "").metadata :=
    parseMetadata_metadataEntry (by rw [find?_operatorEntry h (by decide), hmeta])
  have hflag : ∀ {key : String}, key ∈ ["recall", "for_branch_control", "consumes_row_set", "additive_writes_row_set",
      "mutates_row_set", "debug"] → (boolField (operatorEntry op).entries key).getD false = op.flag key := by
    intro key hkey
    rw [boolField_operatorEntry h hkey]
    cases op.flag key <;> rfl
  have hint : (intField (operatorEntry op).entries "data_parallel").getD 0 =
      if 1 < op.dataParallel then castInt (Binary64.ofInt op.dataParallel) else 0 := by
    unfold intField
    rw [hfind (by decide), hparallel]
    split_ifs <;> rfl
  have hparams : SortedMap.ofList ((operatorEntry op).entries.filter fun e => decide (e.1 ∉ reservedKeys)) =
      SortedMap.ofList op.paramValues := by
    refine SortedMap.ext_find? fun x => ?_
    rw [params_operatorEntry]
    split_ifs with hx
    · rw [eq_comm, ← Option.not_isSome_iff_eq_none]
      intro hsome
      obtain ⟨e, he, rfl⟩ := List.mem_map.mp (SortedMap.contains_ofList.mp hsome)
      obtain ⟨p, hp, rfl⟩ := List.mem_map.mp he
      exact h p hp hx
    · rfl
  unfold parseOperator
  simp only [Variant.asObject, Except.ok_bind, hfind (show "type_name" ∈ reservedKeys by decide), htype,
    Variant.asString, hmetadata, hskip', hlist (l := op.sources.getD []) (by decide) hsources,
    hlist (l := op.strictCommon) (by decide) hstrictCommon, hlist (l := op.strictItem) (by decide) hstrictItem,
    hmap (by decide) hcommon, hmap (by decide) hitem, hint, hparams]
  rw [hflag (by simp), hflag (by simp), hflag (by simp), hflag (by simp), hflag (by simp),
    boolField_operatorEntry h (by simp)]
  rfl

theorem params_of_parseOperator {name : String} {d : Dict} {config : OperatorConfig}
    (h : parseOperator name (.object d.entries) = .ok config) :
    config.params = .object (SortedMap.ofList (d.entries.filter fun e => decide (e.1 ∉ reservedKeys))).entries := by
  unfold parseOperator at h
  simp only [Variant.asObject, Except.ok_bind] at h
  split at h
  · cases h
  obtain ⟨typeName, -, h⟩ := Except.bind_eq_ok.mp h
  obtain ⟨metadata, -, h⟩ := Except.bind_eq_ok.mp h
  obtain ⟨skip, -, h⟩ := Except.bind_eq_ok.mp h
  obtain ⟨commonDefaults, -, h⟩ := Except.bind_eq_ok.mp h
  obtain ⟨itemDefaults, -, h⟩ := Except.bind_eq_ok.mp h
  obtain ⟨strictCommon, -, h⟩ := Except.bind_eq_ok.mp h
  obtain ⟨strictItem, -, h⟩ := Except.bind_eq_ok.mp h
  obtain ⟨sources, -, h⟩ := Except.bind_eq_ok.mp h
  obtain rfl := Except.pure_eq_ok.mp h
  rfl

/-- The number of shards is none, or one that a JSON number and the loader's integers carry. -/
def OpCall.ParallelRead (op : OpCall) : Prop :=
  op.dataParallel = 0 ∨ 1 < op.dataParallel ∧ castInt (Binary64.ofInt op.dataParallel) = op.dataParallel

theorem parallelRead_iff (op : OpCall) :
    op.ParallelRead ↔ (if 1 < op.dataParallel then castInt (Binary64.ofInt op.dataParallel) else 0) = op.dataParallel := by
  unfold OpCall.ParallelRead
  split_ifs with hlt
  · refine ⟨fun h => ?_, fun h => Or.inr ⟨hlt, h⟩⟩
    rcases h with h | h
    · omega
    · exact h.2
  · refine ⟨fun h => ?_, fun h => Or.inl h.symm⟩
    rcases h with h | h
    · exact h.symm
    · exact absurd h.1 hlt

/-- An operator comes back as it was recorded, unless a parameter has the name of an attribute or the number of shards
is none that a JSON number carries. -/
theorem parseOperator_operatorEntry (op : OpCall) (name : String) :
    parseOperator name (.object (operatorEntry op).entries) = .ok (op.loaded name) ↔
      op.FreeParams ∧ op.ParallelRead := by
  constructor
  · intro h
    have hfree : op.FreeParams := by
      intro e he hreserved
      have hparams := Variant.object.inj (params_of_parseOperator h).symm
      have hfind := params_operatorEntry op e.1
      rw [if_pos hreserved, SortedMap.find?, hparams] at hfind
      have hcontains : (SortedMap.ofList op.paramValues).contains e.1 = true :=
        SortedMap.contains_ofList.mpr (List.mem_map.mpr ⟨(e.1, e.2.toVariant), List.mem_map_of_mem he, rfl⟩)
      rw [SortedMap.contains, SortedMap.find?, hfind] at hcontains
      cases hcontains
    rw [parseOperator_of_freeParams hfree] at h
    exact ⟨hfree, (parallelRead_iff op).mpr (congrArg OperatorConfig.dataParallel (Except.ok.inj h))⟩
  · rintro ⟨hfree, hparallel⟩
    rw [parseOperator_of_freeParams hfree, (parallelRead_iff op).mp hparallel]
    rfl

end

/-! ## The dictionary of the operators -/

theorem find?_operatorsDict {named : List (String × OpCall)} {name : String} {op : OpCall}
    {pre post : List (String × OpCall)} (hsplit : named = pre ++ (name, op) :: post) (hlast : ∀ e ∈ post, e.1 ≠ name) :
    (operatorsDict named).find? name = some (.object (operatorEntry op).entries) := by
  have hpost : ∀ d : Dict, (post.foldl (fun d e => d.insert e.1 (.object (operatorEntry e.2).entries)) d).find? name =
      d.find? name := by
    induction post generalizing named with
    | nil => exact fun d => rfl
    | cons e post ih =>
      intro d
      rw [List.foldl_cons, ih rfl fun e' he' => hlast e' (List.mem_cons_of_mem _ he'),
        SortedMap.find?_insert_of_ne _ _ (Ne.symm (hlast e List.mem_cons_self))]
  rw [operatorsDict, hsplit, List.foldl_append, List.foldl_cons, hpost, SortedMap.find?_insert_self]

/-- Every name has a last operator. -/
theorem exists_last {named : List (String × OpCall)} {name : String} (h : ∃ e ∈ named, e.1 = name) :
    ∃ op pre post, named = pre ++ (name, op) :: post ∧ ∀ e ∈ post, e.1 ≠ name := by
  induction named with
  | nil =>
    obtain ⟨e, he, -⟩ := h
    cases he
  | cons x named ih =>
    by_cases hlater : ∃ e ∈ named, e.1 = name
    · obtain ⟨op, pre, post, rfl, hpost⟩ := ih hlater
      exact ⟨op, x :: pre, post, rfl, hpost⟩
    · obtain ⟨e, he, rfl⟩ := h
      push Not at hlater
      rcases List.mem_cons.mp he with rfl | he
      · exact ⟨e.2, [], named, rfl, hlater⟩
      · exact absurd rfl (hlater e he)

/-- Every operator is found in the dictionary under its name, and the loader makes of it what was recorded. -/
def LoadsBack (named : List (String × OpCall)) : Prop :=
  ∀ e ∈ named, ∃ entry, (operatorsDict named).find? e.1 = some entry ∧ parseOperator e.1 entry = .ok (e.2.loaded e.1)

/-- Operators that should come back alike come back, or do not, alike. -/
theorem good_of_loaded_eq {op op' : OpCall} {name : String} (heq : op.loaded name = op'.loaded name)
    (h : op'.FreeParams ∧ op'.ParallelRead) : op.FreeParams ∧ op.ParallelRead := by
  have hkeys : ∀ o : OpCall, ∀ k, (SortedMap.ofList o.paramValues).contains k = true ↔ ∃ e ∈ o.params, e.1 = k := by
    intro o k
    rw [SortedMap.contains_ofList, OpCall.paramValues, List.map_map, List.mem_map]
    rfl
  constructor
  · intro e he
    have hparams : (SortedMap.ofList op.paramValues).entries = (SortedMap.ofList op'.paramValues).entries :=
      Variant.object.inj (congrArg OperatorConfig.params heq)
    have hcontains := (hkeys op e.1).mpr ⟨e, he, rfl⟩
    rw [SortedMap.contains, SortedMap.find?, hparams] at hcontains
    obtain ⟨e', he', hkey⟩ := (hkeys op' e.1).mp hcontains
    exact hkey ▸ h.1 e' he'
  · have hparallel : op.dataParallel = op'.dataParallel := congrArg OperatorConfig.dataParallel heq
    rw [OpCall.ParallelRead, hparallel]
    exact h.2

/-- Operators come back just where those of one name are alike, no parameter has the name of an attribute, and the
numbers of shards are numbers that JSON carries. -/
theorem loadsBack_iff (named : List (String × OpCall)) :
    LoadsBack named ↔ (∀ e ∈ named, ∀ e' ∈ named, e.1 = e'.1 → e.2.loaded e.1 = e'.2.loaded e'.1) ∧
      ∀ e ∈ named, e.2.FreeParams ∧ e.2.ParallelRead := by
  have hlast : ∀ e ∈ named, ∃ op, (e.1, op) ∈ named ∧
      (operatorsDict named).find? e.1 = some (.object (operatorEntry op).entries) := by
    intro e he
    obtain ⟨op, pre, post, hsplit, hpost⟩ := exists_last ⟨e, he, rfl⟩
    exact ⟨op, hsplit ▸ List.mem_append_right _ List.mem_cons_self, find?_operatorsDict hsplit hpost⟩
  constructor
  · intro h
    have halike : ∀ e ∈ named, ∀ e' ∈ named, e.1 = e'.1 → e.2.loaded e.1 = e'.2.loaded e'.1 := by
      intro e he e' he' hname
      obtain ⟨entry, hfind, hparse⟩ := h e he
      obtain ⟨entry', hfind', hparse'⟩ := h e' he'
      rw [← hname, hfind, Option.some.injEq] at hfind'
      rw [← hfind', ← hname, hparse] at hparse'
      exact hname ▸ Except.ok.inj hparse'
    refine ⟨halike, fun e he => ?_⟩
    obtain ⟨op, hop, hfind⟩ := hlast e he
    obtain ⟨entry, hfind', hparse⟩ := h _ hop
    rw [hfind, Option.some.injEq] at hfind'
    rw [← hfind'] at hparse
    exact good_of_loaded_eq (halike e he (e.1, op) hop rfl) ((parseOperator_operatorEntry op e.1).mp hparse)
  · rintro ⟨halike, hgood⟩ e he
    obtain ⟨op, hop, hfind⟩ := hlast e he
    refine ⟨_, hfind, ?_⟩
    rw [halike e he _ hop rfl]
    exact (parseOperator_operatorEntry op e.1).mpr (hgood _ hop)

end Pineapple.Apple
