import Pineapple.InputView
import Pineapple.RowSpec

/-! # Debug snapshots (`engine.cpp`, `scheduler.go`)

C++ takes an operator's input snapshot from the frame and the operator's metadata, Go from the input that
`BuildInput` made. Both group an output's cell writes by item, the later over the earlier. A part that a snapshot
leaves out is `none`; items are keyed by their indices, which both print as decimal keys. -/

namespace Pineapple

/-- A map that is left out when it is empty. -/
def Row.shown (row : Row) : Option Row := if row.entries = [] then none else some row

structure InputSnapshot where
  common : Option Row
  items : Option (List Row)
deriving DecidableEq

structure OutputSnapshot where
  commonWrites : Option Row
  itemWrites : Option (SortedMap Int Row)
  addedItems : Option (List Row)
  removedItems : Option (List Int)
deriving DecidableEq

/-! ## C++ -/

/-- A field of the frame, or its default for a null. -/
def recordField (get : String → Variant) (defaults : SortedMap String Variant) (row : Row) (field : String) : Row :=
  let v := get field
  if !v.isNull then row.insert field v
  else match defaults.find? field with
    | some value => row.insert field value
    | none => row

/-- The rows of `snapshot_input`. -/
def recordedRows (frame : Frame) (op : OperatorConfig) : List Row :=
  (List.range frame.itemCount).map fun i =>
    op.metadata.itemInput.foldl (recordField (frame.item i) op.itemDefaults) ∅

/-- `snapshot_input`. -/
def snapshotInput (frame : Frame) (op : OperatorConfig) : InputSnapshot :=
  let common := op.metadata.commonInput.foldl (fun common field =>
    if field ∈ op.excludedCommon then common else recordField frame.common op.commonDefaults common field) ∅
  { common := common.shown
    items :=
      if frame.itemCount > 0 ∧ op.metadata.itemInput ≠ [] then
        if (recordedRows frame op).any (fun row => row.entries ≠ []) then some (recordedRows frame op) else none
      else none }

/-- `grouped[index][field] = value`. -/
def groupWrite (grouped : SortedMap Int Row) (index : Int) (field : String) (value : Variant) : SortedMap Int Row :=
  grouped.insert index (((grouped.find? index).getD ∅).insert field value)

/-- The cells of a whole-column write. -/
def groupColumn (grouped : SortedMap Int Row) (cw : DoubleColumnWrite) : SortedMap Int Row :=
  cw.vals.zipIdx.foldl (fun grouped v => groupWrite grouped v.2 cw.field (.number v.1)) grouped

/-- `snapshot_output`. -/
def snapshotOutput (out : OperatorOutput) : OutputSnapshot where
  commonWrites := out.commonWrites.shown
  itemWrites :=
    if out.itemWrites ≠ [] ∨ out.columnWrites ≠ [] then
      some (out.columnWrites.foldl groupColumn
        (out.itemWrites.foldl (fun grouped w => groupWrite grouped w.index w.field w.value) ∅))
    else none
  addedItems := if out.addedItems ≠ [] then some out.addedItems else none
  removedItems := if out.removed ≠ [] then some out.removed else none

/-! ## Go -/

/-- The fields that `BuildInput` hands the input for `ItemKeys`. -/
def InputFieldSpec.itemFields (spec : InputFieldSpec) : List String :=
  spec.strictItem ++ spec.defaultedItem.map Prod.fst ++ spec.nullableItem

/-- `ItemKeys`. -/
def GoOperatorInput.itemKeys (input : GoOperatorInput) (itemFields : List String) (index : Nat) : List String :=
  if input.count ≤ index then [] else itemFields

/-- The rows of `snapshotInput`. -/
def GoOperatorInput.keyedRows (input : GoOperatorInput) (itemFields : List String) : List Row :=
  (List.range input.count).map fun i =>
    (input.itemKeys itemFields i).foldl (fun (row : Row) k => row.insert k (input.item i k)) ∅

/-- `snapshotInput` of Go, for an input with these item fields. -/
def goSnapshotInput (input : GoOperatorInput) (itemFields : List String) : InputSnapshot :=
  let common := input.commonMap.keys.foldl (fun (common : Row) k => common.insert k (input.common k)) ∅
  { common := common.shown
    items :=
      if input.count > 0 then
        if (input.keyedRows itemFields).any (fun row => row.entries ≠ []) then some (input.keyedRows itemFields) else none
      else none }

/-- `snapshotOutput` of Go. It goes through the removed indices in the order `removed` of a map's range. -/
def goSnapshotOutput (out : OperatorOutput) (removed : List Int) : OutputSnapshot :=
  let itemWrites :=
    if out.itemWrites ≠ [] then
      some (out.itemWrites.foldl (fun grouped w => groupWrite grouped w.index w.field w.value) ∅)
    else none
  { commonWrites := out.commonWrites.shown
    itemWrites :=
      if out.columnWrites ≠ [] then some (out.columnWrites.foldl groupColumn (itemWrites.getD ∅)) else itemWrites
    addedItems := if out.addedItems ≠ [] then some out.addedItems else none
    removedItems := if removed ≠ [] then some removed else none }

/-! ## Input snapshots -/

theorem Row.shown_inj {a b : Row} : a.shown = b.shown ↔ a = b := by
  refine ⟨fun h => ?_, congrArg _⟩
  have hempty : ∀ r : Row, r.entries = [] → r = ∅ := fun r hr =>
    SortedMap.ext_find? fun k => by
      rw [SortedMap.find?, hr]
      rfl
  unfold Row.shown at h
  split at h
  · next ha =>
    split at h
    · next hb => rw [hempty a ha, hempty b hb]
    · cases h
  · split at h
    · cases h
    · exact Option.some.inj h

theorem find?_recordField (get : String → Variant) (defaults : SortedMap String Variant) (row : Row) (f field : String) :
    (recordField get defaults row f).find? field =
      if field = f then (if (get f).isNull then (defaults.find? f).or (row.find? f) else some (get f))
      else row.find? field := by
  unfold recordField
  by_cases hn : (get f).isNull = true
  · by_cases hf : field = f
    · subst hf
      cases defaults.find? field <;> simp [hn]
    · cases defaults.find? f <;> simp [hn, hf, SortedMap.find?_insert_of_ne]
  · by_cases hf : field = f
    · subst hf
      simp [hn]
    · simp [hn, hf, SortedMap.find?_insert_of_ne]

/-- What C++ records for a field: its value or its default, and nothing for a null without one. -/
def recorded (get : String → Variant) (defaults : SortedMap String Variant) (field : String) : Option Variant :=
  if (get field).isNull then defaults.find? field else some (get field)

theorem find?_foldl_recordField (get : String → Variant) (defaults : SortedMap String Variant) (fields : List String)
    (field : String) : (fields.foldl (recordField get defaults) ∅).find? field =
      if field ∈ fields then recorded get defaults field else none := by
  have H : ∀ row : Row, (fields.foldl (recordField get defaults) row).find? field =
      if field ∈ fields then (recorded get defaults field).or (row.find? field) else row.find? field := by
    induction fields with
    | nil => exact fun row => rfl
    | cons f fields ih =>
      intro row
      rw [List.foldl_cons, ih, find?_recordField]
      by_cases hf : field = f
      · subst hf
        by_cases hn : (get field).isNull = true
        · cases hd : defaults.find? field <;> simp [recorded, hn, hd]
        · simp [recorded, hn]
      · simp [hf]
  refine (H ∅).trans ?_
  rw [SortedMap.find?_empty, Option.or_none]

theorem find?_foldl_insert_keys (keys : List String) (get : String → Variant) (field : String) :
    (keys.foldl (fun (row : Row) k => row.insert k (get k)) ∅).find? field =
      if field ∈ keys then some (get field) else none := by
  have := find?_foldl_fields id get get keys (fun _ _ => rfl) ∅ field
  simpa only [id_eq, List.map_id, SortedMap.find?_empty] using this

theorem mem_itemFields {config : OperatorConfig} {field : String} :
    field ∈ (goComputeInputFieldSpec config).itemFields ↔ field ∈ config.metadata.itemInput := by
  simp only [InputFieldSpec.itemFields, goComputeInputFieldSpec, computeInputFieldSpec, foldl_bucketField, List.nil_append,
    List.mem_append, List.mem_filter, List.mem_map, List.mem_filterMap, Option.map_eq_some_iff]
  constructor
  · rintro ((⟨h, -⟩ | ⟨_, ⟨f, h, d, -, rfl⟩, rfl⟩) | ⟨h, -⟩) <;> exact h
  · intro h
    cases hd : config.itemDefaults.find? field with
    | some d => exact .inl (.inr ⟨_, ⟨field, h, d, hd, rfl⟩, rfl⟩)
    | none =>
      by_cases hs : field ∈ config.strictItem
      · exact .inl (.inl ⟨h, by simp [hs]⟩)
      · exact .inr ⟨h, by simp [hs]⟩

/-- No field that may be null and has no default is null where the operator reads it. -/
structure NoNullRead (config : OperatorConfig) (frame : Frame) : Prop where
  common : ∀ field, config.DeclaresCommon field → config.commonDefaults.find? field = none → frame.common field ≠ .null
  item : ∀ index < frame.itemCount, ∀ field, config.DeclaresItem field → config.itemDefaults.find? field = none →
    frame.item index field ≠ .null

theorem recorded_eq_some_iff {get : String → Variant} {defaults : SortedMap String Variant} {field : String} {v : Variant}
    (hv : v = if (get field).isNull then (defaults.find? field).getD .null else get field) :
    recorded get defaults field = some v ↔ (defaults.find? field = none → get field ≠ .null) := by
  have hnull : (get field).isNull = true ↔ get field = .null := by
    cases get field <;> simp [Variant.isNull]
  unfold recorded
  by_cases hn : (get field).isNull = true
  · rw [if_pos hn, hv, if_pos hn]
    cases hd : defaults.find? field with
    | none => simp [hnull.mp hn]
    | some d => simp
  · rw [if_neg hn, hv, if_neg hn]
    exact iff_of_true rfl fun _ h => hn (hnull.mpr h)

/-- Two maps of the same fields, the one recorded by C++ and the other read by Go, are the same exactly when no field
without a default is null. -/
theorem record_eq_iff {a b : Row} {fields : String → Prop} [DecidablePred fields] {get : String → Variant}
    {defaults : SortedMap String Variant} {read : String → Variant}
    (ha : ∀ f, a.find? f = if fields f then recorded get defaults f else none)
    (hb : ∀ f, b.find? f = if fields f then some (read f) else none)
    (hread : ∀ f, fields f → read f = if (get f).isNull then (defaults.find? f).getD .null else get f) :
    a = b ↔ ∀ f, fields f → defaults.find? f = none → get f ≠ .null := by
  constructor
  · rintro rfl f hf
    have h := ha f
    rw [hb, if_pos hf, if_pos hf] at h
    exact (recorded_eq_some_iff (hread f hf)).mp h.symm
  · intro h
    refine SortedMap.ext_find? fun f => ?_
    rw [ha, hb]
    split
    · next hf => exact (recorded_eq_some_iff (hread f hf)).mpr (h f hf)
    · rfl

theorem snapshotInput_common (frame : Frame) (config : OperatorConfig) (field : String) :
    (config.metadata.commonInput.foldl (fun common field => if field ∈ config.excludedCommon then common else
      recordField frame.common config.commonDefaults common field) ∅).find? field =
        if field ∈ config.visibleCommon then recorded frame.common config.commonDefaults field else none := by
  have hfilter : ∀ row : Row, config.metadata.commonInput.foldl (fun common field =>
      if field ∈ config.excludedCommon then common else recordField frame.common config.commonDefaults common field) row =
        config.visibleCommon.foldl (recordField frame.common config.commonDefaults) row := by
    intro row
    rw [OperatorConfig.visibleCommon, List.foldl_filter]
    congr 1
    funext row field
    by_cases h : field ∈ config.excludedCommon <;> simp [h]
  rw [hfilter, find?_foldl_recordField]

theorem Row.entries_ne_nil {row : Row} {field : String} {v : Variant} (h : row.find? field = some v) :
    row.entries ≠ [] := by
  intro hnil
  rw [SortedMap.find?, hnil] at h
  cases h

/-- Where Go's rows show every declared field, the two lists of rows are shown alike only when they are the same. -/
theorem shown_items_iff {rows goRows : List Row} (n : Nat) (fields : List String) (hrows : rows.length = n)
    (hgo : goRows.length = n) (hgoRow : ∀ row ∈ goRows, ∀ field ∈ fields, ∃ v, row.find? field = some v)
    (hrow : fields = [] → rows = goRows) (hnone : fields = [] → ∀ row ∈ goRows, row.entries = []) :
    ((if n > 0 ∧ fields ≠ [] then if rows.any (fun row => row.entries ≠ []) then some rows else none else none) =
      if n > 0 then if goRows.any (fun row => row.entries ≠ []) then some goRows else none else none) ↔
        rows = goRows := by
  rcases Nat.eq_zero_or_pos n with hn | hn
  · subst hn
    rw [if_neg (by simp), if_neg (by simp), List.length_eq_zero_iff.mp hrows, List.length_eq_zero_iff.mp hgo]
    simp
  rw [if_pos (show n > 0 from hn)]
  by_cases hfields : fields = []
  · have hany : ¬ goRows.any (fun row => row.entries ≠ []) = true := by
      simpa using hnone hfields
    rw [if_neg (by simp [hfields]), if_neg hany]
    exact iff_of_true rfl (hrow hfields)
  · have hany : goRows.any (fun row => row.entries ≠ []) = true := by
      obtain ⟨field, hfield⟩ := List.exists_mem_of_ne_nil fields hfields
      obtain ⟨row, hmem⟩ := List.exists_mem_of_ne_nil goRows (by rintro rfl; simp at hgo; omega)
      obtain ⟨v, hv⟩ := hgoRow row hmem field hfield
      exact List.any_eq_true.mpr ⟨row, hmem, by simpa using Row.entries_ne_nil hv⟩
    rw [if_pos ⟨hn, hfields⟩, if_pos hany]
    constructor
    · intro h
      split at h
      · exact Option.some.inj h
      · cases h
    · rintro rfl
      rw [if_pos hany]

/-- The snapshots of an input over the cells of either storage. -/
theorem snapshotInput_eq_iff (config : OperatorConfig) {frame : Frame} {common : Row} {n : Nat}
    {cell : Nat → String → Option Variant} {strict : List String → Option (String × Nat)}
    (hframe : frame = Frame.ofCells common 0 n cell strict) {frameItem : Nat → String → Variant}
    (hitem : ∀ i f, frameItem i f = (cell i f).getD .null) {violation : Option InputViolation} {go : GoOperatorInput}
    (hgo : goBuild common frameItem n (goComputeInputFieldSpec config) violation = .ok go) :
    snapshotInput frame config = goSnapshotInput go (goComputeInputFieldSpec config).itemFields ↔
      NoNullRead config frame := by
  have hreads : ∀ f, frame.common f = (common.find? f).getD .null := fun f => by rw [hframe]; rfl
  have hcount : frame.itemCount = n := by rw [hframe]; rfl
  have hitems : ∀ i f, i < n → frame.item i f = (cell i f).getD .null := fun i f hi => by
    rw [hframe]
    show (if i < n then (cell (0 + i) f).getD .null else .null) = _
    rw [if_pos hi, Nat.zero_add]
  have hgoCount : go.count = n := by
    unfold goBuild at hgo
    split at hgo
    · cases hgo
    · rw [← Except.ok.inj hgo]
  have hgoMap : go.commonMap = goProjectCommon common (goComputeInputFieldSpec config) := by
    unfold goBuild at hgo
    split at hgo
    · cases hgo
    · rw [← Except.ok.inj hgo]
  -- the common fields
  have hgoCommon : ∀ f, (go.commonMap.keys.foldl (fun (common : Row) k => common.insert k (go.common k)) ∅).find? f =
      if f ∈ config.visibleCommon then some (declaredCommon config common f) else none := fun f => by
    have hmem : f ∈ go.commonMap.keys ↔ f ∈ config.visibleCommon := by
      rw [SortedMap.mem_keys, SortedMap.contains_iff, hgoMap]
      simp only [lookup_goProjectCommon]
      by_cases hf : f ∈ config.visibleCommon <;> simp [hf]
    rw [find?_foldl_insert_keys]
    simp only [hmem]
    split
    · next hf => rw [GoOperatorInput.common, hgoMap, lookup_goProjectCommon, if_pos hf, Option.getD_some]
    · rfl
  have hcommon := record_eq_iff (snapshotInput_common frame config) hgoCommon fun f _ => by
    rw [declaredCommon, hreads, isNull_getD]
  -- the items
  have hgoItem : ∀ i, i < n → ∀ f ∈ config.metadata.itemInput, go.item i f =
      if (frame.item i f).isNull then (config.itemDefaults.find? f).getD .null else frame.item i f := fun i hi f hf => by
    have hdeclares : config.DeclaresItem f := hf
    have h : go.item i f = _ := GoOperatorInput.item_eq hgo hitem none i hdeclares
    rw [h, windowSpan, if_pos hi, Nat.zero_add, declaredItem, hitems i f hi, isNull_getD]
  have hrow : ∀ i f, (config.metadata.itemInput.foldl (recordField (frame.item i) config.itemDefaults) ∅).find? f =
      if f ∈ config.metadata.itemInput then recorded (frame.item i) config.itemDefaults f else none := fun i f =>
    find?_foldl_recordField ..
  have hgoRow : ∀ i, i < n → ∀ f, ((go.itemKeys (goComputeInputFieldSpec config).itemFields i).foldl
      (fun (row : Row) k => row.insert k (go.item i k)) ∅).find? f =
      if f ∈ config.metadata.itemInput then some (go.item i f) else none := fun i hi f => by
    rw [GoOperatorInput.itemKeys, if_neg (by omega), find?_foldl_insert_keys]
    simp only [mem_itemFields]
  have hrows : recordedRows frame config = go.keyedRows (goComputeInputFieldSpec config).itemFields ↔
      ∀ i < n, ∀ f ∈ config.metadata.itemInput, config.itemDefaults.find? f = none → frame.item i f ≠ .null := by
    rw [recordedRows, GoOperatorInput.keyedRows, hcount, hgoCount, List.map_inj_left]
    simp only [List.mem_range]
    exact forall₂_congr fun i hi => record_eq_iff (hrow i) (hgoRow i hi) (hgoItem i hi)
  have hshown := shown_items_iff n config.metadata.itemInput (by simp [recordedRows, hcount])
    (by simp [GoOperatorInput.keyedRows, hgoCount]) ?_ (fun hnil => hrows.mpr fun i _ f hf => ?_) ?_
  · unfold snapshotInput goSnapshotInput
    simp only [InputSnapshot.mk.injEq, Row.shown_inj, hcount, hgoCount]
    rw [hcommon, hshown, hrows]
    constructor
    · rintro ⟨hc, hi⟩
      exact ⟨fun f hf => hc f (mem_visibleCommon.mpr hf), fun i hlt f hf => hi i (hcount ▸ hlt) f hf⟩
    · rintro ⟨hc, hi⟩
      exact ⟨fun f hf => hc f (mem_visibleCommon.mp hf), fun i hlt f hf => hi i (hcount.symm ▸ hlt) f hf⟩
  · intro row hmem f hf
    obtain ⟨i, hi, rfl⟩ := List.mem_map.mp hmem
    exact ⟨_, (hgoRow i (hgoCount ▸ List.mem_range.mp hi) f).trans (if_pos hf)⟩
  · rw [hnil] at hf
    cases hf
  · intro hnil row hmem
    obtain ⟨i, hi, rfl⟩ := List.mem_map.mp hmem
    have hempty : (go.itemKeys (goComputeInputFieldSpec config).itemFields i).foldl
        (fun (row : Row) k => row.insert k (go.item i k)) ∅ = ∅ := SortedMap.ext_find? fun f => by
      rw [hgoRow i (hgoCount ▸ List.mem_range.mp hi), if_neg (by simp [hnil]), SortedMap.find?_empty]
    rw [hempty]
    rfl

/-! ## Output snapshots -/

/-- The snapshots are the same, their removed items as sets. -/
structure SameOutput (a b : OutputSnapshot) : Prop where
  commonWrites : a.commonWrites = b.commonWrites
  itemWrites : a.itemWrites = b.itemWrites
  addedItems : a.addedItems = b.addedItems
  removedShown : a.removedItems.isSome = b.removedItems.isSome
  removedItems : ∀ index, index ∈ a.removedItems.getD [] ↔ index ∈ b.removedItems.getD []

theorem snapshotOutput_same (out : OperatorOutput) {removed : List Int} (h : removed.Perm out.removed) :
    SameOutput (snapshotOutput out) (goSnapshotOutput out removed) := by
  have hnil : out.removed = [] ↔ removed = [] := by
    rw [← List.length_eq_zero_iff, ← List.length_eq_zero_iff, h.length_eq]
  refine ⟨rfl, ?_, rfl, ?_, fun index => ?_⟩
  · unfold snapshotOutput goSnapshotOutput
    by_cases hi : out.itemWrites = [] <;> by_cases hc : out.columnWrites = [] <;> simp [hi, hc]
  · unfold snapshotOutput goSnapshotOutput
    by_cases hr : removed = [] <;> simp [hnil, hr]
  · unfold snapshotOutput goSnapshotOutput
    by_cases hr : removed = []
    · simp [hnil.mpr hr, hr]
    · have hr' : out.removed ≠ [] := fun h => hr (hnil.mp h)
      simp [hr, hr', h.mem_iff]

/-- What the writes grouped so far leave in a cell. -/
def groupedCell (grouped : SortedMap Int Row) (index : Nat) (field : String) : Option Variant :=
  (grouped.find? index).bind (·.find? field)

theorem groupedCell_groupWrite (grouped : SortedMap Int Row) {index : Int} (hindex : 0 ≤ index) (f : String)
    (v : Variant) (i : Nat) (g : String) :
    groupedCell (groupWrite grouped index f v) i g = if i = index.toNat ∧ g = f then some v else groupedCell grouped i g := by
  have hiff : (i : Int) = index ↔ i = index.toNat := by omega
  unfold groupedCell groupWrite
  by_cases hi : (i : Int) = index
  · rw [hi, SortedMap.find?_insert_self, Option.bind_some]
    by_cases hg : g = f
    · rw [hg, SortedMap.find?_insert_self, if_pos ⟨hiff.mp hi, rfl⟩]
    · rw [SortedMap.find?_insert_of_ne _ _ hg, if_neg fun h => hg h.2]
      cases grouped.find? index <;> simp
  · rw [SortedMap.find?_insert_of_ne _ _ hi, if_neg fun h => hi (hiff.mpr h.1)]

theorem groupedCell_groupColumn (grouped : SortedMap Int Row) (cw : DoubleColumnWrite) (i : Nat) (g : String) :
    groupedCell (groupColumn grouped cw) i g =
      if g = cw.field then (cw.vals[i]?.map Variant.number).or (groupedCell grouped i g) else groupedCell grouped i g := by
  obtain ⟨field, vals⟩ := cw
  have H : ∀ (vals : List Binary64) (k : Nat) (grouped : SortedMap Int Row),
      groupedCell ((vals.zipIdx k).foldl (fun grouped v => groupWrite grouped v.2 field (.number v.1)) grouped) i g =
        if g = field ∧ k ≤ i then (vals[i - k]?.map Variant.number).or (groupedCell grouped i g)
        else groupedCell grouped i g := by
    intro vals
    induction vals with
    | nil => simp
    | cons d vals ih =>
      intro k grouped
      rw [List.zipIdx_cons, List.foldl_cons, ih, groupedCell_groupWrite _ (Int.natCast_nonneg k), Int.toNat_natCast]
      by_cases hg : g = field
      · rcases Nat.lt_trichotomy i k with h | h | h
        · rw [if_neg (by omega), if_neg (by omega), if_neg (by omega)]
        · subst h
          simp [hg]
        · rw [if_pos ⟨hg, by omega⟩, if_neg (by omega), if_pos ⟨hg, by omega⟩,
            show i - k = i - (k + 1) + 1 by omega, List.getElem?_cons_succ]
      · simp [hg]
  have := H vals 0 grouped
  simpa [groupColumn] using this

/-- What a cell holds after the writes, given what is shown of them; a negative zero may be stored as zero. -/
def LeftBy (shown old new : Option Variant) : Prop :=
  match shown with
  | none => new = old
  | some v => new = some v ∨ v = .number .negZero ∧ new = some (.number .zero)

section Order
variable {σ : Type} {S : ItemStore σ} {cell : σ → Nat → String → Option Variant} {reads : σ → String → Variant → Variant}
  {op : String} {old : Nat → String → Option Variant}

theorem leftBy_writeFields (h : S.Lawful cell reads) {ws : List ItemWrite} {items : σ} {grouped : SortedMap Int Row}
    (hws : ∀ w ∈ ws, itemWriteError op (S.rowCount items) w = none)
    (hleft : ∀ i f, LeftBy (groupedCell grouped i f) (old i f) (cell items i f)) :
    ∀ i f, LeftBy (groupedCell (ws.foldl (fun grouped w => groupWrite grouped w.index w.field w.value) grouped) i f)
      (old i f) (cell (S.writeFields ws items) i f) := by
  induction ws generalizing items grouped with
  | nil => exact hleft
  | cons w ws ih =>
    have hw := hws w List.mem_cons_self
    have hlt := (lt_of_itemWriteError hw).1
    have hnonneg : 0 ≤ w.index := by
      rw [itemWriteError] at hw
      split at hw
      · cases hw
      · next hrange => exact (not_outOfRange hrange).1
    have hcount := h.rowCount_writeField items w.index.toNat w.field w.value hlt
    have hrest : ∀ w' ∈ ws, itemWriteError op (S.rowCount (S.writeField w.index.toNat w.field w.value items)) w' = none :=
      fun w' hw' => hcount.symm ▸ hws w' (List.mem_cons_of_mem _ hw')
    refine ih hrest fun i f => ?_
    rw [groupedCell_groupWrite _ hnonneg, h.cell_writeField _ _ _ _ hlt]
    split
    · rcases h.reads_eq items w.field w.value with heq | ⟨hneg, heq⟩
      · exact .inl (congrArg some heq)
      · exact .inr ⟨hneg, congrArg some heq⟩
    · exact hleft i f

theorem leftBy_writeColumns (h : S.Lawful cell reads) {cws : List DoubleColumnWrite} {items : σ}
    {grouped : SortedMap Int Row} (hcws : ∀ cw ∈ cws, columnWriteError op (S.rowCount items) cw = none)
    (hleft : ∀ i f, LeftBy (groupedCell grouped i f) (old i f) (cell items i f)) :
    ∀ i f, LeftBy (groupedCell (cws.foldl groupColumn grouped) i f) (old i f) (cell (S.writeColumns cws items) i f) := by
  induction cws generalizing items grouped with
  | nil => exact hleft
  | cons cw cws ih =>
    have hlen := (length_of_columnWriteError (hcws cw List.mem_cons_self)).1
    have hcount := h.rowCount_writeColumn items cw.field cw.vals hlen
    have hrest : ∀ cw' ∈ cws, columnWriteError op (S.rowCount (S.writeColumn cw.field cw.vals items)) cw' = none :=
      fun cw' hcw' => hcount.symm ▸ hcws cw' (List.mem_cons_of_mem _ hcw')
    refine ih hrest fun i f => ?_
    rw [groupedCell_groupColumn, h.cell_writeColumn _ _ _ hlen]
    split
    · by_cases hi : i < cw.vals.length
      · rw [List.getElem?_eq_getElem hi]
        exact .inl rfl
      · have hnone := hleft i f
        rw [h.cell_none items i f (by omega)] at hnone
        rw [List.getElem?_eq_none (Nat.le_of_not_lt hi)]
        exact hnone
    · exact hleft i f

/-- The cells that a snapshot shows are what the write phases leave in the frame. -/
theorem snapshotOutput_written (h : S.Lawful cell reads) (out : OperatorOutput) (op : String) (items : σ)
    (hok : out.writeError op (S.rowCount items) = none) (i : Nat) (f : String) :
    LeftBy (groupedCell ((snapshotOutput out).itemWrites.getD ∅) i f) (cell items i f)
      (cell (S.written out op items) i f) := by
  simp only [OperatorOutput.writeError, Option.or_eq_none_iff] at hok
  obtain ⟨hc, hi, hcw⟩ := hok
  have hitems : out.appliedItemWrites op (S.rowCount items) = out.itemWrites := by
    rw [OperatorOutput.appliedItemWrites, hc, if_pos Option.isNone_none, List.takeWhile_eq_self_iff]
    exact fun w hw => by simpa using List.findSome?_eq_none_iff.mp hi w hw
  have hcolumns : out.appliedColumnWrites op (S.rowCount items) = out.columnWrites := by
    rw [OperatorOutput.appliedColumnWrites, hc, hi, if_pos ⟨Option.isNone_none, Option.isNone_none⟩, List.takeWhile_eq_self_iff]
    exact fun cw hcw' => by simpa using List.findSome?_eq_none_iff.mp hcw cw hcw'
  have hgrouped : (snapshotOutput out).itemWrites.getD ∅ = out.columnWrites.foldl groupColumn
      (out.itemWrites.foldl (fun grouped w => groupWrite grouped w.index w.field w.value) ∅) := by
    rw [snapshotOutput]
    by_cases h : out.itemWrites ≠ [] ∨ out.columnWrites ≠ []
    · rw [if_pos h, Option.getD_some]
    · rw [not_or, not_not, not_not] at h
      simp [h]
  have hcount := rowCount_writeFields h fun w hw => List.findSome?_eq_none_iff.mp hi w hw
  have hfields := leftBy_writeFields h (fun w hw => List.findSome?_eq_none_iff.mp hi w hw)
    fun i f => (show LeftBy (groupedCell ∅ i f) (cell items i f) (cell items i f) from rfl)
  rw [hgrouped, ItemStore.written, hitems, hcolumns]
  exact leftBy_writeColumns h (fun cw hcw' => hcount.symm ▸ List.findSome?_eq_none_iff.mp hcw cw hcw') hfields i f

end Order

/-! ## Agreement -/

/-- The snapshots of an input agree exactly when the operator reads no null without a default; those of an output agree
as they stand, and show of every cell the write that the frame applies last. -/
theorem snapshots_agree_iff (config : OperatorConfig) :
    (∀ (f : RowFrame) go, goRowInput f.common f.items (goComputeInputFieldSpec config) = .ok go →
      (snapshotInput (f.view none) config = goSnapshotInput go (goComputeInputFieldSpec config).itemFields ↔
        NoNullRead config (f.view none))) ∧
    (∀ (f : ColumnFrame) (g : GoColumnFrame), SameColumns f g → ∀ go, g.input (goComputeInputFieldSpec config) = .ok go →
      (snapshotInput (f.view none) config = goSnapshotInput go (goComputeInputFieldSpec config).itemFields ↔
        NoNullRead config (f.view none))) ∧
    (∀ out removed, removed.Perm out.removed → SameOutput (snapshotOutput out) (goSnapshotOutput out removed)) ∧
    (∀ (rows : List Row) out op, out.writeError op rows.length = none → ∀ i f,
      LeftBy (groupedCell ((snapshotOutput out).itemWrites.getD ∅) i f) (RowFrame.cell rows i f)
        (RowFrame.cell (RowFrame.store.written out op rows) i f)) ∧
    ∀ (s : TypedColumnStore) out op, out.writeError op s.rowCount = none → ∀ i f,
      LeftBy (groupedCell ((snapshotOutput out).itemWrites.getD ∅) i f) (s.cell i f)
        ((ColumnFrame.store.written out op s).cell i f) := by
  refine ⟨fun f go hgo => ?_, fun f g hsame go hgo => ?_, fun out removed h => snapshotOutput_same out h,
    fun rows out op hok i f => snapshotOutput_written RowFrame.store_lawful out op rows hok i f,
    fun s out op hok i f => snapshotOutput_written ColumnFrame.store_lawful out op s hok i f⟩
  · have hfits : WindowFits none f.items.length := by
      rw [WindowFits, windowSpan, Nat.zero_add]
    exact snapshotInput_eq_iff config (RowFrame.view_eq hfits) (goRowItem_eq f.items) hgo
  · rw [GoColumnFrame.input, ← hsame.common, ← hsame.rowCount] at hgo
    exact snapshotInput_eq_iff config (ColumnFrame.view_eq f none) hsame.item_eq hgo

/-- A field that is there. -/
theorem snapshots_agree_iff_present :
    let config : OperatorConfig := { metadata := { commonInput := ["a"] } }
    let f : RowFrame := ⟨(∅ : Row).insert "a" (.bool true), [], []⟩
    snapshotInput (f.view none) config = goSnapshotInput
      ⟨goProjectCommon f.common (goComputeInputFieldSpec config), goRowItem [], ∅, 0, 0⟩ [] := by
  intro config f
  have hnull : NoNullRead config (f.view none) := by
    refine ⟨fun field hfield _ => ?_, fun _ hi => absurd hi (Nat.not_lt_zero _)⟩
    obtain rfl : field = "a" := List.mem_singleton.mp hfield.1
    decide +kernel
  exact ((snapshots_agree_iff config).1 f _ rfl).mpr hnull

/-- A field that is there with a null: Go's snapshot shows it, that of C++ leaves it out. -/
theorem snapshots_differ :
    let config : OperatorConfig := { metadata := { commonInput := ["a"] } }
    let f : RowFrame := ⟨(∅ : Row).insert "a" .null, [], []⟩
    ∃ go, goRowInput f.common f.items (goComputeInputFieldSpec config) = .ok go ∧
      (snapshotInput (f.view none) config).common = none ∧
      (goSnapshotInput go (goComputeInputFieldSpec config).itemFields).common = some ((∅ : Row).insert "a" .null) :=
  ⟨_, rfl, by decide +kernel, by decide +kernel⟩

end Pineapple
