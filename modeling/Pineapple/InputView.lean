import Pineapple.BuildInput

/-! # What an operator sees of the frame (`operator_input.cpp`, `operator_io.go`)

`OperatorInput` of C++ reads the frame through an exclusion list. Go's `BuildInput` copies the declared
common fields into a map and reads items through the frame. On declared fields both return the same; an
undeclared field is where the exclusion list is not the complement of the declared set. -/

namespace Pineapple

/-! ## The specification of a configuration -/

/-- The fields hidden from the operator: `skip_set`. -/
def OperatorConfig.excludedCommon (config : OperatorConfig) : List String :=
  config.skip ++ config.metadata.commonInputSkip ++ config.metadata.commonInputTemplate

/-- A declared common input field that is not hidden. -/
def OperatorConfig.DeclaresCommon (config : OperatorConfig) (field : String) : Prop :=
  field ∈ config.metadata.commonInput ∧ field ∉ config.excludedCommon

def OperatorConfig.DeclaresItem (config : OperatorConfig) (field : String) : Prop :=
  field ∈ config.metadata.itemInput

/-- `ComputeInputFieldSpec` of Go: the same buckets, and no list of hidden fields. -/
def goComputeInputFieldSpec (config : OperatorConfig) : InputFieldSpec :=
  { computeInputFieldSpec config with excludedCommon := [] }

/-- The buckets of a list of fields. -/
theorem foldl_bucketField (defaults : SortedMap String Variant) (strict fields : List String)
    (buckets : List (String × Variant) × List String × List String) :
    fields.foldl (fun buckets field => bucketField defaults strict field buckets) buckets =
      (buckets.1 ++ fields.filterMap fun field => (defaults.find? field).map (field, ·),
        buckets.2.1 ++ fields.filter fun field => (defaults.find? field).isNone && decide (field ∈ strict),
        buckets.2.2 ++ fields.filter fun field => (defaults.find? field).isNone && !decide (field ∈ strict)) := by
  induction fields generalizing buckets with
  | nil => simp
  | cons field fields ih =>
    rw [List.foldl_cons, ih, bucketField]
    cases hd : defaults.find? field with
    | some value => simp [hd]
    | none =>
      by_cases hs : field ∈ strict
      · simp [hd, hs]
      · simp [hd, hs]

/-- The default a field of the list has. -/
theorem defaultOf_filterMap (defaults : SortedMap String Variant) (fields : List String) (field : String) :
    OperatorInput.defaultOf (fields.filterMap fun f => (defaults.find? f).map (f, ·)) field =
      if field ∈ fields then (defaults.find? field).getD .null else .null := by
  induction fields with
  | nil => rfl
  | cons f fields ih =>
    rw [OperatorInput.defaultOf] at ih ⊢
    by_cases hf : field = f
    · subst hf
      cases hd : defaults.find? field with
      | some value => simp [hd]
      | none =>
        rw [List.filterMap_cons_none (by rw [hd]; rfl), ih]
        simp [hd]
    · cases hd : defaults.find? f with
      | some value =>
        rw [List.filterMap_cons_some (b := (f, value)) (by rw [hd]; rfl), List.find?_cons_of_neg (by simpa using Ne.symm hf), ih]
        simp [hf]
      | none =>
        rw [List.filterMap_cons_none (by rw [hd]; rfl), ih]
        simp [hf]

theorem spec_item (config : OperatorConfig) : (computeInputFieldSpec config).defaultedItem =
    config.metadata.itemInput.filterMap fun field => (config.itemDefaults.find? field).map (field, ·) := by
  rw [computeInputFieldSpec]
  simp only [foldl_bucketField, List.nil_append]

/-- The common fields of the specification, before the buckets. -/
def OperatorConfig.visibleCommon (config : OperatorConfig) : List String :=
  config.metadata.commonInput.filter fun field => field ∉ config.excludedCommon

theorem mem_visibleCommon {config : OperatorConfig} {field : String} :
    field ∈ config.visibleCommon ↔ config.DeclaresCommon field := by
  rw [OperatorConfig.visibleCommon, List.mem_filter, OperatorConfig.DeclaresCommon, decide_eq_true_eq]

theorem spec_common (config : OperatorConfig) :
    (computeInputFieldSpec config).defaultedCommon =
        config.visibleCommon.filterMap (fun field => (config.commonDefaults.find? field).map (field, ·)) ∧
      (computeInputFieldSpec config).strictCommon = config.visibleCommon.filter (fun field =>
        (config.commonDefaults.find? field).isNone && decide (field ∈ config.strictCommon)) ∧
      (computeInputFieldSpec config).nullableCommon = config.visibleCommon.filter (fun field =>
        (config.commonDefaults.find? field).isNone && !decide (field ∈ config.strictCommon)) := by
  simp only [computeInputFieldSpec, foldl_bucketField, List.nil_append]
  exact ⟨rfl, rfl, rfl⟩

/-! ## Go's operator input -/

/-- `OperatorInput` of Go in its lazy mode: the copied common fields and a window of the frame's items. -/
structure GoOperatorInput where
  commonMap : Row
  /-- `Item` of the frame. -/
  frameItem : Nat → String → Variant
  itemDefaults : Row
  offset : Nat
  count : Nat

namespace GoOperatorInput

def common (input : GoOperatorInput) (field : String) : Variant := (input.commonMap.find? field).getD .null

def item (input : GoOperatorInput) (index : Nat) (field : String) : Variant :=
  if input.count ≤ index then .null
  else
    let v := input.frameItem (input.offset + index) field
    if v.isNull then (input.itemDefaults.find? field).getD v else v

/-- A shard of `splitInput`. -/
def shard (input : GoOperatorInput) (start size : Nat) : GoOperatorInput :=
  { input with offset := input.offset + start, count := size }

end GoOperatorInput

/-- The common map of `BuildInput`, for common fields that passed its checks. -/
def goProjectCommon (common : Row) (spec : InputFieldSpec) : Row :=
  let cs := spec.strictCommon.foldl (fun cs field => cs.insert field ((common.find? field).getD .null)) ∅
  let cs := spec.defaultedCommon.foldl (fun cs df =>
    cs.insert df.1 (if cellIsNull (common.find? df.1) then df.2 else (common.find? df.1).getD .null)) cs
  spec.nullableCommon.foldl (fun cs field => cs.insert field ((common.find? field).getD .null)) cs

/-- What `BuildInput` returns when `violation` found nothing. -/
def goBuild (common : Row) (frameItem : Nat → String → Variant) (itemCount : Nat) (spec : InputFieldSpec)
    (violation : Option InputViolation) : Except InputViolation GoOperatorInput :=
  match violation with
  | some v => .error v
  | none => .ok ⟨goProjectCommon common spec, frameItem, .ofList spec.defaultedItem, 0, itemCount⟩

/-- `RowFrame.Item` of Go. -/
def goRowItem (items : List Row) (index : Nat) (field : String) : Variant :=
  match items[index]? with
  | some row => (row.find? field).getD .null
  | none => .null

/-- `RowFrame.BuildInput` of Go. -/
def goRowInput (common : Row) (items : List Row) (spec : InputFieldSpec) : Except InputViolation GoOperatorInput :=
  goBuild common (goRowItem items) items.length spec (goRowBuildInput common items spec)

/-- `ColumnFrame.Item` of Go. -/
def GoColumnFrame.item (g : GoColumnFrame) (index : Nat) (field : String) : Variant :=
  if g.rowCount ≤ index then .null
  else
    match g.columns.find? field with
    | none => .null
    | some c => (c.getD index none).getD .null

/-- `ColumnFrame.BuildInput` of Go. -/
def GoColumnFrame.input (g : GoColumnFrame) (spec : InputFieldSpec) : Except InputViolation GoOperatorInput :=
  goBuild g.common g.item g.rowCount spec (g.buildInput spec)

/-! ## Reads of the two sides -/

theorem find?_foldl_fields {α : Type} (key : α → String) (value : String → Variant) (val : α → Variant) (l : List α)
    (h : ∀ a ∈ l, val a = value (key a)) (m : Row) (field : String) :
    (l.foldl (fun m a => m.insert (key a) (val a)) m).find? field =
      if field ∈ l.map key then some (value field) else m.find? field := by
  induction l generalizing m with
  | nil => rfl
  | cons a l ih =>
    rw [List.foldl_cons, ih fun b hb => h b (List.mem_cons_of_mem _ hb), SortedMap.find?_insert,
      h a List.mem_cons_self]
    by_cases hf : field = key a
    · simp [hf]
    · simp [hf]

/-- What both sides read for a declared common field: the frame's value, or the default for a null. -/
def declaredCommon (config : OperatorConfig) (common : Row) (field : String) : Variant :=
  if cellIsNull (common.find? field) then (config.commonDefaults.find? field).getD .null
  else (common.find? field).getD .null

theorem getD_of_cellIsNull {v : Option Variant} (h : cellIsNull v = true) : v.getD .null = .null := by
  cases v with
  | none => rfl
  | some v => cases v <;> first | rfl | exact absurd h (by simp [cellIsNull, Variant.isNull])

theorem cellIsNull_iff {v : Option Variant} : cellIsNull v = true ↔ v.getD .null = .null := by
  constructor
  · exact getD_of_cellIsNull
  · intro h
    cases v with
    | none => rfl
    | some v =>
      have hv : v = .null := h
      rw [hv]
      rfl

/-- The copied map holds the declared common fields and no other. -/
theorem lookup_goProjectCommon (config : OperatorConfig) (common : Row) (field : String) :
    (goProjectCommon common (goComputeInputFieldSpec config)).find? field =
      if field ∈ config.visibleCommon then some (declaredCommon config common field) else none := by
  obtain ⟨hdef, hstrict, hnull⟩ := spec_common config
  rw [goProjectCommon]
  simp only [goComputeInputFieldSpec, hdef, hstrict, hnull]
  have hplain : ∀ (l : List String) (m : Row),
      (l.foldl (fun cs f => cs.insert f ((common.find? f).getD .null)) m).find? field =
        if field ∈ l then some ((common.find? field).getD .null) else m.find? field := by
    intro l m
    have := find?_foldl_fields id (fun f => (common.find? f).getD .null) _ l (fun _ _ => rfl) m field
    simpa only [id_eq, List.map_id] using this
  rw [hplain, find?_foldl_fields Prod.fst (declaredCommon config common), hplain]
  · have hmap : (config.visibleCommon.filterMap fun f => (config.commonDefaults.find? f).map (f, ·)).map Prod.fst =
        config.visibleCommon.filter fun f => (config.commonDefaults.find? f).isSome := by
      rw [List.map_filterMap, ← List.filterMap_eq_filter]
      congr 1
      funext f
      cases hd : config.commonDefaults.find? f <;> simp [Option.guard, hd]
    simp only [hmap, List.mem_filter]
    by_cases hvis : field ∈ config.visibleCommon
    · cases hd : config.commonDefaults.find? field with
      | some d => simp [hvis]
      | none =>
        have hraw : declaredCommon config common field = (common.find? field).getD .null := by
          rw [declaredCommon, hd]
          split
          · next hn => exact (getD_of_cellIsNull hn).symm
          · rfl
        by_cases hs : field ∈ config.strictCommon
        · simp [hvis, hs, hraw]
        · simp [hvis, hs, hraw]
    · simp [hvis]
  · intro df hdf
    obtain ⟨f, -, hf⟩ := List.mem_filterMap.mp hdf
    obtain ⟨d, hd, rfl⟩ := Option.map_eq_some_iff.mp hf
    simp only [declaredCommon, hd, Option.getD_some]

theorem find?_goProjectCommon (config : OperatorConfig) (common : Row) (field : String) :
    ((goProjectCommon common (goComputeInputFieldSpec config)).find? field).getD .null =
      if field ∈ config.visibleCommon then declaredCommon config common field else .null := by
  rw [lookup_goProjectCommon]
  split <;> rfl

/-- A C++ read of a common field. -/
theorem OperatorInput.common_eq (config : OperatorConfig) {frame : Frame} {common : Row}
    (hframe : ∀ f, frame.common f = (common.find? f).getD .null) (field : String) :
    OperatorInput.common ⟨frame, computeInputFieldSpec config⟩ field =
      if field ∈ config.excludedCommon then .null
      else if field ∈ config.visibleCommon then declaredCommon config common field
      else (common.find? field).getD .null := by
  obtain ⟨hdef, -, -⟩ := spec_common config
  rw [OperatorInput.common]
  have hexcluded : (computeInputFieldSpec config).excludedCommon = config.excludedCommon := rfl
  simp only [hexcluded, hdef, hframe, defaultOf_filterMap]
  by_cases hex : field ∈ config.excludedCommon
  · rw [if_pos hex, if_pos hex]
  · rw [if_neg hex, if_neg hex]
    have hnull : ((common.find? field).getD .null).isNull = cellIsNull (common.find? field) := by
      cases common.find? field <;> rfl
    rw [hnull]
    by_cases hn : cellIsNull (common.find? field) = true
    · rw [if_pos hn]
      split
      · rw [declaredCommon, if_pos hn]
      · exact (getD_of_cellIsNull hn).symm
    · rw [if_neg hn]
      split
      · rw [declaredCommon, if_neg hn]
      · rfl

/-- What both sides read for a declared item field. -/
def declaredItem (config : OperatorConfig) (cell : Option Variant) (field : String) : Variant :=
  if cellIsNull cell then (config.itemDefaults.find? field).getD .null else cell.getD .null

theorem isNull_getD (cell : Option Variant) : (cell.getD .null).isNull = cellIsNull cell := by
  cases cell <;> rfl

/-- A C++ read of an item field, through a window of `count` items from `offset` on. -/
theorem OperatorInput.item_eq (config : OperatorConfig) {frame : Frame} {offset count : Nat}
    {cell : Nat → String → Option Variant} (hcount : frame.itemCount = count)
    (hitem : ∀ i f, frame.item i f = if i < count then (cell (offset + i) f).getD .null else .null)
    (index : Nat) (field : String) :
    OperatorInput.item ⟨frame, computeInputFieldSpec config⟩ index field =
      if index < count then
        if field ∈ config.metadata.itemInput then declaredItem config (cell (offset + index) field) field
        else (cell (offset + index) field).getD .null
      else .null := by
  rw [OperatorInput.item, OperatorInput.itemCount]
  simp only [hcount, hitem, spec_item, defaultOf_filterMap]
  by_cases hi : index < count
  · rw [if_neg (by omega), if_pos hi, if_pos hi, isNull_getD, declaredItem]
    by_cases hn : cellIsNull (cell (offset + index) field) = true
    · rw [if_pos hn, if_pos hn, getD_of_cellIsNull hn]
    · rw [if_neg hn, if_neg hn]
      split <;> rfl
  · rw [if_pos (by omega), if_neg hi]

theorem find?_goItemDefaults (config : OperatorConfig) (field : String) :
    (SortedMap.ofList (goComputeInputFieldSpec config).defaultedItem).find? field =
      if field ∈ config.metadata.itemInput then config.itemDefaults.find? field else none := by
  simp only [goComputeInputFieldSpec, spec_item]
  rw [SortedMap.ofList, find?_foldl_fields Prod.fst fun f => (config.itemDefaults.find? f).getD .null]
  · rw [SortedMap.find?_empty, List.map_filterMap]
    have hmem : field ∈ config.metadata.itemInput.filterMap (fun f =>
        Option.map Prod.fst ((config.itemDefaults.find? f).map (f, ·))) ↔
        field ∈ config.metadata.itemInput ∧ (config.itemDefaults.find? field).isSome := by
      simp only [List.mem_filterMap, Option.map_map, Option.map_eq_some_iff, Option.isSome_iff_exists]
      constructor
      · rintro ⟨f, hf, d, hd, rfl⟩
        exact ⟨hf, d, hd⟩
      · rintro ⟨hf, d, hd⟩
        exact ⟨field, hf, d, hd, rfl⟩
    simp only [hmem]
    by_cases hf : field ∈ config.metadata.itemInput
    · cases config.itemDefaults.find? field <;> simp [hf]
    · simp [hf]
  · intro df hdf
    obtain ⟨f, -, hf⟩ := List.mem_filterMap.mp hdf
    obtain ⟨d, hd, rfl⟩ := Option.map_eq_some_iff.mp hf
    rw [hd]
    rfl

/-- Go's operator input for a window of the frame: the whole input, or one of its shards. -/
def GoOperatorInput.window (input : GoOperatorInput) : Option Window → GoOperatorInput
  | none => input
  | some w => input.shard w.offset w.count

/-- A Go read of an item field. -/
theorem GoOperatorInput.item_eq {config : OperatorConfig} {common : Row} {frameItem : Nat → String → Variant}
    {n : Nat} {violation : Option InputViolation} {cell : Nat → String → Option Variant} {input : GoOperatorInput}
    (hbuild : goBuild common frameItem n (goComputeInputFieldSpec config) violation = .ok input)
    (hitem : ∀ i f, frameItem i f = (cell i f).getD .null) (window : Option Window) (index : Nat) {field : String}
    (hfield : config.DeclaresItem field) :
    (input.window window).item index field =
      if index < (windowSpan window n).2 then
        declaredItem config (cell ((windowSpan window n).1 + index) field) field
      else .null := by
  have hfield : field ∈ config.metadata.itemInput := hfield
  unfold goBuild at hbuild
  split at hbuild
  · exact absurd hbuild (by simp)
  · rw [← Except.ok.inj hbuild]
    have hread : ∀ offset count, (GoOperatorInput.mk (goProjectCommon common (goComputeInputFieldSpec config)) frameItem
        (.ofList (goComputeInputFieldSpec config).defaultedItem) offset count).item index field =
        if index < count then declaredItem config (cell (offset + index) field) field else .null := by
      intro offset count
      simp only [GoOperatorInput.item, find?_goItemDefaults, if_pos hfield, hitem, isNull_getD]
      by_cases hi : index < count
      · rw [if_neg (by omega), if_pos hi, declaredItem]
        by_cases hn : cellIsNull (cell (offset + index) field) = true
        · rw [if_pos hn, if_pos hn, getD_of_cellIsNull hn]
        · rw [if_neg hn, if_neg hn]
      · rw [if_pos (by omega), if_neg hi]
    cases window with
    | none => exact hread 0 n
    | some w =>
      refine (hread (0 + w.offset) w.count).trans ?_
      rw [Nat.zero_add]
      rfl

theorem GoOperatorInput.common_eq {config : OperatorConfig} {common : Row} {frameItem : Nat → String → Variant}
    {n : Nat} {violation : Option InputViolation} {input : GoOperatorInput}
    (hbuild : goBuild common frameItem n (goComputeInputFieldSpec config) violation = .ok input)
    (window : Option Window) (field : String) :
    (input.window window).common field =
      if field ∈ config.visibleCommon then declaredCommon config common field else .null := by
  unfold goBuild at hbuild
  split at hbuild
  · exact absurd hbuild (by simp)
  · rw [← Except.ok.inj hbuild, ← find?_goProjectCommon]
    cases window <;> rfl

/-! ## What is seen -/

/-- The operator sees the field as declared: nothing of an undeclared one, and Go's value of a declared one. -/
structure SeesDeclared (config : OperatorConfig) (input : OperatorInput) (go : GoOperatorInput) (field : String) :
    Prop where
  hiddenCommon : ¬ config.DeclaresCommon field → input.common field = .null
  common : config.DeclaresCommon field → input.common field = go.common field
  hiddenItem : ¬ config.DeclaresItem field → ∀ index, input.item index field = .null
  item : config.DeclaresItem field → ∀ index, input.item index field = go.item index field

/-- The frame holds nothing for the field that the operator may not see. -/
def NothingUndeclared (config : OperatorConfig) (frame : Frame) (field : String) : Prop :=
  (config.DeclaresCommon field ∨ field ∈ config.excludedCommon ∨ frame.common field = .null) ∧
    (config.DeclaresItem field ∨ ∀ index < frame.itemCount, frame.item index field = .null)

/-- The two storages' operator inputs at once: the frame shows the cells of a window of `n` items. -/
theorem seesDeclared_iff (config : OperatorConfig) {frame : Frame} {common : Row} {window : Option Window} {n : Nat}
    {cell : Nat → String → Option Variant} {strict : List String → Option (String × Nat)}
    (hframe : frame = Frame.ofCells common (windowSpan window n).1 (windowSpan window n).2 cell strict)
    {frameItem : Nat → String → Variant} (hitem : ∀ i f, frameItem i f = (cell i f).getD .null)
    {op : String} {input : OperatorInput} (hin : buildOperatorInput frame op (computeInputFieldSpec config) = .ok input)
    {violation : Option InputViolation} {go : GoOperatorInput}
    (hgo : goBuild common frameItem n (goComputeInputFieldSpec config) violation = .ok go) (field : String) :
    SeesDeclared config input (go.window window) field ↔ NothingUndeclared config frame field := by
  have hinput : input = ⟨frame, computeInputFieldSpec config⟩ := by
    rw [buildOperatorInput] at hin
    split at hin
    · exact absurd hin (by simp)
    · exact (Except.ok.inj hin).symm
  subst hinput
  have hreads : ∀ f, frame.common f = (common.find? f).getD .null := fun f => by rw [hframe]; rfl
  have hcount : frame.itemCount = (windowSpan window n).2 := by rw [hframe]; rfl
  have hitems : ∀ i f, frame.item i f =
      if i < (windowSpan window n).2 then (cell ((windowSpan window n).1 + i) f).getD .null else .null :=
    fun i f => by rw [hframe]; rfl
  have hcommon := OperatorInput.common_eq config hreads field
  have hgoCommon := GoOperatorInput.common_eq hgo window field
  have hcells := fun index => OperatorInput.item_eq config hcount hitems index field
  constructor
  · intro h
    constructor
    · by_cases hd : config.DeclaresCommon field
      · exact Or.inl hd
      · right
        by_cases hex : field ∈ config.excludedCommon
        · exact Or.inl hex
        · right
          have hseen := h.hiddenCommon hd
          rw [hcommon, if_neg hex, if_neg fun hv => hd (mem_visibleCommon.mp hv)] at hseen
          rw [hreads]
          exact hseen
    · by_cases hd : config.DeclaresItem field
      · exact Or.inl hd
      · refine Or.inr fun index hi => ?_
        rw [hcount] at hi
        have hseen := h.hiddenItem hd index
        have hd : field ∉ config.metadata.itemInput := hd
        rw [hcells, if_pos hi, if_neg hd] at hseen
        rw [hitems, if_pos hi]
        exact hseen
  · rintro ⟨hc, hi⟩
    refine ⟨fun hd => ?_, fun hd => ?_, fun hd index => ?_, fun hd index => ?_⟩
    · rw [hcommon]
      split
      · rfl
      · next hex =>
        rw [if_neg fun hv => hd (mem_visibleCommon.mp hv), ← hreads]
        exact (hc.resolve_left hd).resolve_left hex
    · have hvis : field ∈ config.visibleCommon := mem_visibleCommon.mpr hd
      rw [hcommon, hgoCommon, if_neg hd.2, if_pos hvis, if_pos hvis]
    · rw [hcells]
      split
      · next hlt =>
        have hnull := hi.resolve_left hd index (hcount ▸ hlt)
        have hd : field ∉ config.metadata.itemInput := hd
        rw [hitems, if_pos hlt] at hnull
        rw [if_neg hd]
        exact hnull
      · rfl
    · rw [hcells, GoOperatorInput.item_eq hgo hitem window index hd]
      have hd : field ∈ config.metadata.itemInput := hd
      simp only [if_pos hd]

theorem goRowItem_eq (items : List Row) (i : Nat) (field : String) :
    goRowItem items i field = (RowFrame.cell items i field).getD .null := by
  rw [goRowItem, RowFrame.cell]
  cases items[i]? <;> rfl

theorem SameColumns.item_eq {f : ColumnFrame} {g : GoColumnFrame} (h : SameColumns f g) (i : Nat) (field : String) :
    g.item i field = (f.items.cell i field).getD .null := by
  rw [GoColumnFrame.item]
  split
  · next hout =>
    rw [TypedColumnStore.cell_of_rowCount_le field (h.rowCount ▸ hout)]
    rfl
  · rw [h.cells, GoColumnFrame.cell]
    cases g.columns.find? field <;> rfl

/-- For every frame whose input both engines accept, and every window of it, the operator sees a field as
declared exactly when the frame holds nothing undeclared for it. -/
theorem operator_sees_declared_iff (config : OperatorConfig) (op : String) (window : Option Window) :
    (∀ f : RowFrame, WindowFits window f.items.length → ∀ input go,
      buildOperatorInput (f.view window) op (computeInputFieldSpec config) = .ok input →
      goRowInput f.common f.items (goComputeInputFieldSpec config) = .ok go → ∀ field,
      (SeesDeclared config input (go.window window) field ↔ NothingUndeclared config (f.view window) field)) ∧
    ∀ (f : ColumnFrame) (g : GoColumnFrame), SameColumns f g → WindowFits window f.items.rowCount → ∀ input go,
      buildOperatorInput (f.view window) op (computeInputFieldSpec config) = .ok input →
      g.input (goComputeInputFieldSpec config) = .ok go → ∀ field,
      (SeesDeclared config input (go.window window) field ↔ NothingUndeclared config (f.view window) field) := by
  constructor
  · intro f hfits input go hin hgo field
    exact seesDeclared_iff config (RowFrame.view_eq hfits) (goRowItem_eq f.items) hin hgo field
  · intro f g hsame _ input go hin hgo field
    rw [GoColumnFrame.input, ← hsame.common, ← hsame.rowCount] at hgo
    exact seesDeclared_iff config (ColumnFrame.view_eq f window) hsame.item_eq hin hgo field

/-- A defaulted field that the frame lacks. -/
theorem operator_sees_declared_iff_default :
    let config : OperatorConfig :=
      { metadata := { commonInput := ["a"] }, commonDefaults := (∅ : Row).insert "a" (.bool true) }
    let f : RowFrame := ⟨∅, [], []⟩
    SeesDeclared config ⟨f.view none, computeInputFieldSpec config⟩
      ⟨goProjectCommon ∅ (goComputeInputFieldSpec config), goRowItem [], ∅, 0, 0⟩ "a" := by
  intro config f
  have hdeclared : NothingUndeclared config (f.view none) "a" :=
    ⟨Or.inl ⟨by decide, by decide⟩, Or.inr fun _ hi => absurd hi (Nat.not_lt_zero _)⟩
  exact ((operator_sees_declared_iff config "f" none).1 f (Nat.zero_le _) _ _ rfl rfl "a").mpr hdeclared

/-- An operator without declared inputs reads a common and an item field of the frame, where Go returns
nothing for the common one. -/
theorem operator_sees_undeclared :
    let f : RowFrame := ⟨(∅ : Row).insert "x" (.bool true), [(∅ : Row).insert "y" (.bool true)], []⟩
    ∃ input go, buildOperatorInput (f.view none) "f" (computeInputFieldSpec {}) = .ok input ∧
      goRowInput f.common f.items (goComputeInputFieldSpec {}) = .ok go ∧
      input.common "x" = .bool true ∧ go.common "x" = .null ∧ input.item 0 "y" = .bool true :=
  ⟨_, _, rfl, rfl, by decide +kernel, by decide +kernel, by decide +kernel⟩

end Pineapple
