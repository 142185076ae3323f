import Pineapple.Storages

/-! # Runs over the two storages

A request starts both storages from the same items, and every operator's output is applied to both.
They look the same after every step exactly when no step loses the sign of a zero, and then they judge
the input of the next operator alike whenever there are items or the required fields have columns. -/

namespace Pineapple

/-- One call of `apply_output`: the output, the operator's name and whether it is a recall. -/
structure OutputStep where
  out : OperatorOutput
  op : String
  isRecall : Bool

def RowFrame.run (f : RowFrame) (steps : List OutputStep) : Outcome PineError RowFrame :=
  Outcome.forEach (fun a f => RowFrame.applyOutput f a.out a.op a.isRecall) steps f

def ColumnFrame.run (f : ColumnFrame) (steps : List OutputStep) : Outcome PineError ColumnFrame :=
  Outcome.forEach (fun a f => ColumnFrame.applyOutput f a.out a.op a.isRecall) steps f

/-! ## The first frame -/

/-- The signs lost at the start: an `int64` column takes the items' values. -/
def SignState.ofItems (items : List Row) : SignState where
  int64 f := decide (ColumnFrame.initialType items f = .int64)
  lost i f := decide (ColumnFrame.initialType items f = .int64) &&
    decide (RowFrame.cell items i f = some (.number .negZero))

namespace ColumnFrame

theorem type_appendOrPromote_int64 {c : Column} {v : Variant} :
    (c.appendOrPromote v).type = .int64 ↔ c.type = .int64 ∧ v.isIntegralNumber = true := by
  rw [(Column.appendOrPromote_spec c v).1]
  constructor
  · intro h
    split at h
    · next henc =>
      rw [h] at henc
      exact ⟨h, by rw [← ColumnType.encode_int64]; exact henc⟩
    · exact absurd h (by simp)
  · rintro ⟨ht, hv⟩
    have henc : (c.type.codec.encode v).isSome := by
      rw [ht]
      exact (ColumnType.encode_int64 v).trans hv
    rw [if_pos henc, ht]

theorem type_foldl_append {vs : List Variant} {c : Column} :
    (vs.foldl Column.appendOrPromote c).type = .int64 ↔ c.type = .int64 ∧ ∀ v ∈ vs, v.isIntegralNumber = true := by
  induction vs generalizing c with
  | nil => simp
  | cons v vs ih =>
    rw [List.foldl_cons, ih, type_appendOrPromote_int64, List.forall_mem_cons, and_assoc]

theorem candidateOf_integral {v : Variant} (h : v.isIntegralNumber = true) : candidateOf v = .int64 ∧ v.isNull = false := by
  cases v with
  | number d => exact ⟨if_pos h, rfl⟩
  | _ => exact absurd h (by simp [Variant.isIntegralNumber])

theorem probeFrom_integral {vs : List Variant} (h : ∀ v ∈ vs, v.isIntegralNumber = true) :
    probeFrom (some .int64) vs = some .int64 := by
  induction vs with
  | nil => rfl
  | cons v vs ih =>
    obtain ⟨hc, hn⟩ := candidateOf_integral (h v List.mem_cons_self)
    rw [probeFrom, hn, hc]
    simpa using ih fun w hw => h w (List.mem_cons_of_mem _ hw)

/-- A field starts as an `int64` column when it has values and all are integral numbers. -/
theorem initialType_int64 (items : List Row) (f : String) : initialType items f = .int64 ↔
    (∃ i v, RowFrame.cell items i f = some v) ∧
      ∀ i v, RowFrame.cell items i f = some v → v.isIntegralNumber = true := by
  have hmem : ∀ v, v ∈ items.filterMap (·.find? f) ↔ ∃ i, RowFrame.cell items i f = some v := by
    intro v
    simp only [List.mem_filterMap, RowFrame.cell, Option.bind_eq_some_iff]
    constructor
    · rintro ⟨row, hrow, hv⟩
      obtain ⟨i, hi⟩ := List.getElem?_of_mem hrow
      exact ⟨i, row, hi, hv⟩
    · rintro ⟨i, row, hi, hv⟩
      exact ⟨row, List.mem_of_getElem? hi, hv⟩
  have hcells : ((∃ i v, RowFrame.cell items i f = some v) ∧
      ∀ i v, RowFrame.cell items i f = some v → v.isIntegralNumber = true) ↔
      items.filterMap (·.find? f) ≠ [] ∧ ∀ v ∈ items.filterMap (·.find? f), v.isIntegralNumber = true := by
    constructor
    · rintro ⟨⟨i, v, h⟩, hall⟩
      refine ⟨List.ne_nil_of_mem ((hmem v).mpr ⟨i, h⟩), fun v hv => ?_⟩
      obtain ⟨i, h⟩ := (hmem v).mp hv
      exact hall i v h
    · rintro ⟨hne, hall⟩
      obtain ⟨v, hv⟩ := List.exists_mem_of_ne_nil _ hne
      obtain ⟨i, h⟩ := (hmem v).mp hv
      exact ⟨⟨i, v, h⟩, fun i v h => hall v ((hmem v).mpr ⟨i, h⟩)⟩
  rw [hcells, initialType]
  generalize items.filterMap (·.find? f) = present
  by_cases hnull : present.any Variant.isNull = true
  · obtain ⟨v, hv, hn⟩ := List.any_eq_true.mp hnull
    refine iff_of_false (by simp [hnull]) fun h => ?_
    rw [(candidateOf_integral (h.2 v hv)).2] at hn
    exact absurd hn (by simp)
  · have hfilter : present.filter (fun v => !v.isNull) = present := by
      rw [List.filter_eq_self]
      intro v hv
      simpa using fun hn => hnull (List.any_eq_true.mpr ⟨v, hv, hn⟩)
    simp only [hnull, hfilter]
    show (makeColumn present).type = .int64 ↔ _
    rw [makeColumn, type_foldl_append]
    refine and_congr_left fun hall => ?_
    cases present with
    | nil => simp [probeFrom, Column.blank]
    | cons v vs =>
      obtain ⟨hc, hn⟩ := candidateOf_integral (hall v List.mem_cons_self)
      have hprobe : probeFrom none (v :: vs) = some .int64 := by
        rw [probeFrom, hn, hc]
        simpa using probeFrom_integral fun w hw => hall w (List.mem_cons_of_mem _ hw)
      simp [hprobe, Column.blank]

/-- What a column holds after the items' values of one field were appended to it. -/
theorem foldl_append_spec (f : String) (items : List Row) {c : Column}
    (hint : c.type = .int64 → ∀ i v, RowFrame.cell items i f = some v → v.isIntegralNumber = true) :
    let col := items.foldl (fun col row => match row.find? f with
      | none => col.appendNull
      | some v => col.appendOrPromote v) c
    (col.type = .int64 ↔ c.type = .int64) ∧ col.size = c.size + items.length ∧
      ∀ j, col.cell j = if j < c.size then c.cell j
        else (RowFrame.cell items (j - c.size) f).map c.type.readBack := by
  induction items generalizing c with
  | nil =>
    refine ⟨Iff.rfl, rfl, fun j => ?_⟩
    split
    · rfl
    · next hj => exact Column.cell_of_size_le (Nat.not_lt.mp hj)
  | cons row items ih =>
    have htail : c.type = .int64 → ∀ i v, RowFrame.cell items i f = some v → v.isIntegralNumber = true :=
      fun ht i v h => hint ht (i + 1) v h
    have hnext : ∃ d : Column, (match row.find? f with
          | none => c.appendNull
          | some v => c.appendOrPromote v) = d ∧ (d.type = .int64 ↔ c.type = .int64) ∧ d.size = c.size + 1 ∧
        ∀ j, d.cell j = if j = c.size then (row.find? f).map c.type.readBack else c.cell j := by
      refine ⟨_, rfl, ?_⟩
      cases hv : row.find? f with
      | none =>
        refine ⟨Iff.rfl, Column.size_appendNull c, fun j => ?_⟩
        rw [Column.cell_appendNull]
        split
        · next hj => exact Column.cell_of_size_le (Nat.le_of_eq hj.symm)
        · rfl
      | some v =>
        obtain ⟨-, hsize, hcell⟩ := Column.appendOrPromote_spec c v
        refine ⟨type_appendOrPromote_int64.trans (and_iff_left_of_imp fun ht => hint ht 0 v hv), hsize, hcell⟩
    obtain ⟨d, hd, htype, hsize, hcell⟩ := hnext
    have hread : d.type.readBack = c.type.readBack := by
      funext v
      simp only [ColumnType.readBack, htype]
    obtain ⟨htype', hsize', hcell'⟩ := ih (c := d) fun ht => htail (htype.mp ht)
    simp only [List.foldl_cons, hd]
    refine ⟨htype'.trans htype, by rw [hsize', hsize, List.length_cons]; omega, fun j => ?_⟩
    rw [hcell', hsize, hcell, hread]
    rcases Nat.lt_trichotomy j c.size with hj | hj | hj
    · rw [if_pos (by omega), if_neg (by omega), if_pos hj]
    · rw [if_pos (by omega), if_pos hj, if_neg (by omega), hj, Nat.sub_self]
      rfl
    · rw [if_neg (by omega), if_neg (by omega), show j - c.size = (j - (c.size + 1)) + 1 by omega]
      rfl

theorem initialColumn_spec (items : List Row) (f : String) :
    ((initialColumn items f).type = .int64 ↔ initialType items f = .int64) ∧
      (initialColumn items f).size = items.length ∧
      ∀ j, (initialColumn items f).cell j = (RowFrame.cell items j f).map (initialType items f).readBack := by
  have hint : (Column.blank (initialType items f) 0).type = .int64 →
      ∀ i v, RowFrame.cell items i f = some v → v.isIntegralNumber = true :=
    fun ht => ((initialType_int64 items f).mp ht).2
  obtain ⟨htype, hsize, hcell⟩ := foldl_append_spec f items hint
  rw [Column.size_blank, Nat.zero_add] at hsize
  refine ⟨htype, hsize, fun j => ?_⟩
  refine (hcell j).trans ?_
  rw [Column.size_blank, if_neg (Nat.not_lt_zero j)]
  rfl

theorem mem_fieldOrder {items : List Row} {f : String} : f ∈ fieldOrder items ↔ ∃ row ∈ items, row.contains f = true := by
  have H : ∀ (keys seen : List String), f ∈ keys.foldl (fun seen k => if k ∈ seen then seen else seen ++ [k]) seen ↔
      f ∈ seen ∨ f ∈ keys := by
    intro keys
    induction keys with
    | nil => simp
    | cons k keys ih =>
      intro seen
      rw [List.foldl_cons, ih]
      split
      · next hk =>
        rw [List.mem_cons]
        exact ⟨fun h => h.imp_right Or.inr, fun h => h.elim Or.inl fun h => h.elim (fun h => Or.inl (h ▸ hk)) Or.inr⟩
      · rw [List.mem_append, List.mem_singleton, List.mem_cons, or_assoc]
  rw [fieldOrder, H]
  simp [List.mem_flatMap, SortedMap.mem_keys]

theorem column_ofItems (common : Row) (items : List Row) (f : String) :
    (ofItems common items).items.rowCount = items.length ∧
      (ofItems common items).items.column f = if f ∈ fieldOrder items then some (initialColumn items f) else none := by
  have H : ∀ (fields : List String) (s : TypedColumnStore), s.rowCount = items.length →
      (fields.foldl (fun s field => s.setColumn field (initialColumn items field)) s).rowCount = items.length ∧
      (fields.foldl (fun s field => s.setColumn field (initialColumn items field)) s).column f =
        if f ∈ fields then some (initialColumn items f) else s.column f := by
    intro fields
    induction fields with
    | nil => exact fun s h => ⟨h, by simp⟩
    | cons k fields ih =>
      intro s h
      have hk : (initialColumn items k).size = s.rowCount := (initialColumn_spec items k).2.1.trans h.symm
      obtain ⟨hrows, hcol⟩ := ih (s.setColumn k (initialColumn items k))
        ((TypedColumnStore.rowCount_setColumn ..).trans h)
      refine ⟨hrows, hcol.trans ?_⟩
      rw [TypedColumnStore.column_setColumn hk]
      by_cases hf : f = k
      · subst hf
        simp
      · simp [hf]
  exact H (fieldOrder items) (.empty items.length) rfl

end ColumnFrame

/-- The two storages of one request. -/
theorem Agree.ofItems (common : Row) (items : List Row) :
    Agree (.ofItems items) items (ColumnFrame.ofItems common items).items := by
  have hcolumn := fun f => (ColumnFrame.column_ofItems common items f).2
  have habsent : ∀ f, f ∉ ColumnFrame.fieldOrder items → ∀ i, RowFrame.cell items i f = none := by
    intro f hf i
    rw [Option.eq_none_iff_forall_ne_some]
    intro v hv
    obtain ⟨row, hrow, hv⟩ := Option.bind_eq_some_iff.mp hv
    exact hf (ColumnFrame.mem_fieldOrder.mpr ⟨row, List.mem_of_getElem? hrow, SortedMap.contains_iff.mpr ⟨v, hv⟩⟩)
  have hcell : ∀ i f, (ColumnFrame.ofItems common items).items.cell i f =
      (RowFrame.cell items i f).map (ColumnFrame.initialType items f).readBack := by
    intro i f
    rw [TypedColumnStore.cell, hcolumn]
    by_cases hf : f ∈ ColumnFrame.fieldOrder items
    · rw [if_pos hf, Option.bind_some, (ColumnFrame.initialColumn_spec items f).2.2]
    · rw [if_neg hf, habsent f hf]
      rfl
  refine ⟨(ColumnFrame.column_ofItems common items "").1, fun f => ?_, fun i f hl => ?_, fun i f hl => ?_⟩
  · rw [TypedColumnStore.isInt64, hcolumn]
    by_cases hf : f ∈ ColumnFrame.fieldOrder items
    · rw [if_pos hf]
      simp only [Option.any_some, SignState.ofItems, (ColumnFrame.initialColumn_spec items f).1]
    · have hne : ColumnFrame.initialType items f ≠ .int64 := by
        intro h
        obtain ⟨⟨i, v, hv⟩, -⟩ := (ColumnFrame.initialType_int64 items f).mp h
        rw [habsent f hf] at hv
        exact absurd hv (by simp)
      rw [if_neg hf]
      simp [SignState.ofItems, hne]
  · rw [hcell]
    cases hv : RowFrame.cell items i f with
    | none => rfl
    | some v =>
      simp only [SignState.ofItems, hv, Bool.and_eq_false_iff, decide_eq_false_iff_not, Option.some.injEq] at hl
      rw [Option.map_some, ColumnType.readBack, if_neg fun h => hl.elim (· h.1) (· h.2)]
  · simp only [SignState.ofItems, Bool.and_eq_true, decide_eq_true_eq] at hl
    refine ⟨hl.2, ?_⟩
    rw [hcell, hl.2, Option.map_some, ColumnType.readBack, if_pos ⟨hl.1, rfl⟩]

/-! ## Additions -/

/-- Writes to one row collect in that row. -/
theorem RowFrame.writeFields_at {pre post : List Row} {ws : List ItemWrite}
    (h : ∀ w ∈ ws, w.index.toNat = pre.length) (row : Row) :
    RowFrame.store.writeFields ws (pre ++ row :: post) =
      pre ++ insertAll (ws.map fun w => (w.field, w.value)) row :: post := by
  induction ws generalizing row with
  | nil => rfl
  | cons w ws ih =>
    have hw : RowFrame.store.writeField w.index.toNat w.field w.value (pre ++ row :: post) =
        pre ++ row.insert w.field w.value :: post := by
      rw [h w List.mem_cons_self]
      show List.modify _ _ _ = _
      rw [List.modify_eq_take_cons_drop (by simp)]
      simp
    show RowFrame.store.writeFields ws (RowFrame.store.writeField w.index.toNat w.field w.value (pre ++ row :: post)) = _
    rw [hw, ih fun w' hw' => h w' (List.mem_cons_of_mem _ hw')]
    rfl

/-- The writes of an added row build it from an empty one. -/
theorem RowFrame.insertAll_rowWrites (op : String) (isRecall : Bool) (idx : Nat) (added : Row) :
    insertAll ((ColumnFrame.rowWrites op isRecall idx added).map fun w => (w.field, w.value)) ∅ =
      RowFrame.addedRow op isRecall added := by
  rw [ColumnFrame.rowWrites, List.map_map]
  have hid : ∀ l : List (String × Variant),
      l.map ((fun w : ItemWrite => (w.field, w.value)) ∘ fun e => ⟨idx, e.1, e.2⟩) = l := fun l => List.map_id' l
  rw [hid, insertAll, List.foldl_append]
  have hentries : added.entries.foldl (fun c w => c.insert w.1 w.2) ∅ = added := SortedMap.ofList_entries added
  rw [hentries, RowFrame.addedRow]
  cases isRecall <;> rfl

/-- Filling `added.length` empty rows with the additions' writes pushes the additions. -/
theorem RowFrame.writeFields_addedWrites (op : String) (isRecall : Bool) (added rows : List Row) :
    RowFrame.store.writeFields (ColumnFrame.addedWrites op isRecall rows.length added)
        (rows ++ List.replicate added.length ∅) = rows ++ added.map (RowFrame.addedRow op isRecall) := by
  have H : ∀ (l : List Row) (k : Nat) (pre : List Row), pre.length = rows.length + k →
      RowFrame.store.writeFields
          ((l.zipIdx k).flatMap fun p => ColumnFrame.rowWrites op isRecall (rows.length + p.2) p.1)
          (pre ++ List.replicate l.length ∅) = pre ++ l.map (RowFrame.addedRow op isRecall) := by
    intro l
    induction l with
    | nil => exact fun _ _ _ => rfl
    | cons row l ih =>
      intro k pre hpre
      have hat : ∀ w ∈ ColumnFrame.rowWrites op isRecall (rows.length + k) row, w.index.toNat = pre.length := by
        intro w hw
        obtain ⟨e, -, rfl⟩ := List.mem_map.mp hw
        exact hpre.symm
      have hrow := @RowFrame.writeFields_at pre (List.replicate l.length ∅) _ hat ∅
      rw [RowFrame.insertAll_rowWrites] at hrow
      rw [List.zipIdx_cons, List.flatMap_cons, List.length_cons, List.replicate_succ, ItemStore.writeFields,
        List.foldl_append]
      show RowFrame.store.writeFields _ (RowFrame.store.writeFields _ _) = _
      rw [hrow, List.append_cons, ih (k + 1) _ (by simp [hpre]; omega)]
      simp
  exact H added 0 rows (by simp)

theorem takeWhile_isNone_eq_self {α β : Type} {l : List α} {f : α → Option β} (h : l.findSome? f = none) :
    (l.takeWhile fun a => (f a).isNone) = l := by
  rw [List.takeWhile_eq_self_iff]
  intro a ha
  rw [List.findSome?_eq_none_iff.mp h a ha]
  rfl

namespace Agree
variable {st : SignState} {rows : List Row} {s : TypedColumnStore}

/-- Empty rows at the end. -/
theorem extendRows (h : Agree st rows s) (n : Nat) :
    Agree st (rows ++ List.replicate n ∅) (s.extendRows n) := by
  have hcell : ∀ i f, RowFrame.cell (rows ++ List.replicate n ∅) i f = RowFrame.cell rows i f := by
    intro i f
    rw [RowFrame.cell, RowFrame.cell, List.getElem?_append]
    split
    · rfl
    · next hi =>
      rw [List.getElem?_eq_none (Nat.not_lt.mp hi), List.getElem?_replicate]
      split <;> rfl
  refine ⟨?_, fun f => ?_, fun i f hl => ?_, fun i f hl => ?_⟩
  · rw [List.length_append, List.length_replicate, ← h.rowCount]
    rfl
  · rw [TypedColumnStore.isInt64_extendRows]
    exact h.int64 f
  · rw [TypedColumnStore.cell_extendRows, hcell]
    exact h.same i f hl
  · rw [TypedColumnStore.cell_extendRows, hcell]
    exact h.lost i f hl

theorem added (h : Agree st rows s) {out : OperatorOutput} {op : String} (isRecall : Bool)
    (ha : out.additionError op = none) :
    Agree ((ColumnFrame.addedWrites op isRecall rows.length out.addedItems).foldl SignState.write st)
      (RowFrame.store.added out op isRecall rows) (ColumnFrame.store.added out op isRecall s) := by
  simp only [ItemStore.added]
  by_cases hnil : out.addedItems.isEmpty
  · rw [if_pos hnil, if_pos hnil, List.isEmpty_iff.mp hnil]
    exact h
  · rw [if_neg hnil, if_neg hnil]
    have hrow : (RowFrame.store.addItems op isRecall out.addedItems rows).state =
        RowFrame.store.writeFields (ColumnFrame.addedWrites op isRecall rows.length out.addedItems)
          (rows ++ List.replicate out.addedItems.length ∅) := by
      rw [RowFrame.writeFields_addedWrites]
      refine (RowFrame.state_addItems ..).trans ?_
      rw [takeWhile_isNone_eq_self ha]
    have hcol : (ColumnFrame.store.addItems op isRecall out.addedItems s).state =
        ColumnFrame.store.writeFields (ColumnFrame.addedWrites op isRecall rows.length out.addedItems)
          (s.extendRows out.addedItems.length) := by
      refine (ColumnFrame.state_addItems ..).trans ?_
      rw [takeWhile_isNone_eq_self ((ColumnFrame.findSome?_addedWrites ..).trans ha), h.rowCount]
    rw [hrow, hcol]
    refine (h.extendRows out.addedItems.length).writeFields fun w hw => ?_
    rw [List.length_append, List.length_replicate]
    exact (ColumnFrame.mem_addedWrites hw).2.2

end Agree

/-! ## One step -/

namespace OperatorOutput

/-- The lost signs after an accepted output on `n` items, for columns that were `int64` before. -/
def resultSigns (out : OperatorOutput) (op : String) (isRecall : Bool) (n : Nat) (int64 : String → Bool) : SignState :=
  (ColumnFrame.addedWrites op isRecall (n - out.removed.length) out.addedItems).foldl SignState.write
    (((out.writtenSigns op n int64).gather (keptRows n out.removed)).gather
      (out.orderSlots (n - out.removed.length)))

end OperatorOutput

/-- The step writes no negative zero to an `int64` column that stays in the frame. -/
def OutputStep.KeepsSigns (a : OutputStep) (n : Nat) (int64 : String → Bool) : Prop :=
  ∀ i f, (a.out.resultSigns a.op a.isRecall n int64).lost i f = false

/-- An output accepted by frames that look the same is accepted by both, and they look the same after it
exactly when it keeps the signs. -/
theorem applyOutput_agrees_iff {row : RowFrame} {col : ColumnFrame} (h : SameFrames row col) (a : OutputStep)
    (hok : (row.applyOutput a.out a.op a.isRecall).error? = none) :
    (col.applyOutput a.out a.op a.isRecall).error? = none ∧
      (SameFrames (row.applyOutput a.out a.op a.isRecall).state (col.applyOutput a.out a.op a.isRecall).state ↔
        a.KeepsSigns col.items.rowCount col.items.isInt64) := by
  have hc := sameFrames_iff.mp h
  have hcount : ColumnFrame.store.rowCount col.items = row.items.length := hc.rowCount
  have hrowcount : RowFrame.store.rowCount row.items = row.items.length := rfl
  have hwritten := hc.agree.written a.out a.op
  have hlen : (RowFrame.store.written a.out a.op row.items).length = row.items.length :=
    rowCount_written RowFrame.store_lawful a.out a.op row.items
  have hcommon : insertAll (a.out.appliedCommonWrites a.op) row.common =
      insertAll (a.out.appliedCommonWrites a.op) col.common := by rw [hc.common]
  have hrow := applyOutputWith_ends RowFrame.store_lawful a.out a.op a.isRecall row
  have hcol := applyOutputWith_ends ColumnFrame.store_lawful a.out a.op a.isRecall col
  rw [RowFrame.applyOutput] at hok ⊢
  rw [ColumnFrame.applyOutput]
  generalize applyOutputWith RowFrame.store a.out a.op a.isRecall row = r at hrow hok
  generalize applyOutputWith ColumnFrame.store a.out a.op a.isRecall col = c at hcol
  cases hrow with
  | writes | removals | order | additions => exact absurd hok (by simp)
  | ok hw hr ho ha =>
    rw [hrowcount] at hw hr ho
    cases hcol with
    | writes _ hw' => rw [hcount, hw] at hw'; exact absurd hw' (by simp)
    | removals _ _ hr' => rw [hcount, hr] at hr'; exact absurd hr' (by simp)
    | order _ _ _ ho' => rw [hcount, ho] at ho'; exact absurd ho' (by simp)
    | additions _ _ _ _ ha' => rw [ha] at ha'; exact absurd ha' (by simp)
    | ok =>
      have hv := validRemoval hr
      rw [← hlen] at hv
      have hdrop : (RowFrame.store.removedFrom a.out (RowFrame.store.written a.out a.op row.items)).length =
          row.items.length - a.out.removed.length := by
        have hcut := rowCount_removedFrom RowFrame.store_lawful hv
        have hwrittenCount : RowFrame.store.rowCount (RowFrame.store.written a.out a.op row.items) =
            row.items.length := hlen
        exact hcut.trans (by rw [hwrittenCount])
      have ho' := ho
      rw [← hdrop] at ho'
      have hordered : (RowFrame.store.reordered a.out (RowFrame.store.removedFrom a.out
          (RowFrame.store.written a.out a.op row.items))).length = row.items.length - a.out.removed.length := by
        have hkeep := @rowCount_reordered _ _ _ _ RowFrame.store_lawful a.out _ _ ho'
        exact hkeep.trans hdrop
      have hagree := ((hwritten.removedFrom hv).reordered ho').added a.isRecall ha
      rw [hordered, hdrop, hlen] at hagree
      refine ⟨rfl, ?_⟩
      rw [OutputStep.KeepsSigns, hc.rowCount]
      refine sameFrames_of_agree_iff hagree hcommon ?_
      show row.warnings ++ _ = col.warnings ++ _
      rw [hc.warnings]

/-! ## Runs -/

/-- No step of the run loses a sign. -/
def ColumnFrame.KeepsSigns : ColumnFrame → List OutputStep → Prop
  | _, [] => True
  | col, a :: rest => a.KeepsSigns col.items.rowCount col.items.isInt64 ∧
    ColumnFrame.KeepsSigns (col.applyOutput a.out a.op a.isRecall).state rest

/-- No field whose values in the request are all integral has a negative zero. -/
def KeepsInitialSigns (items : List Row) : Prop :=
  ∀ f, (∀ i v, RowFrame.cell items i f = some v → v.isIntegralNumber = true) →
    ∀ i, RowFrame.cell items i f ≠ some (.number .negZero)

theorem sameFrames_ofItems_iff (common : Row) (items : List Row) :
    SameFrames ⟨common, items, []⟩ (.ofItems common items) ↔ KeepsInitialSigns items := by
  refine Iff.trans (sameFrames_of_agree_iff (Agree.ofItems common items) rfl rfl) ?_
  simp only [SignState.ofItems, Bool.and_eq_false_iff, decide_eq_false_iff_not]
  constructor
  · intro hl f hint i hneg
    refine (hl i f).elim (fun hne => hne ?_) (fun hne => hne hneg)
    exact (ColumnFrame.initialType_int64 items f).mpr ⟨⟨i, _, hneg⟩, hint⟩
  · intro hk i f
    by_cases ht : ColumnFrame.initialType items f = .int64
    · exact Or.inr (hk f ((ColumnFrame.initialType_int64 items f).mp ht).2 i)
    · exact Or.inl ht

theorem RowFrame.run_cons {row : RowFrame} {a : OutputStep} {rest : List OutputStep}
    (h : (row.applyOutput a.out a.op a.isRecall).error? = none) :
    row.run (a :: rest) = RowFrame.run (row.applyOutput a.out a.op a.isRecall).state rest :=
  Outcome.andThen_of_error? h

theorem ColumnFrame.run_cons {col : ColumnFrame} {a : OutputStep} {rest : List OutputStep}
    (h : (col.applyOutput a.out a.op a.isRecall).error? = none) :
    col.run (a :: rest) = ColumnFrame.run (col.applyOutput a.out a.op a.isRecall).state rest :=
  Outcome.andThen_of_error? h

/-- Along an accepted run from frames that look the same. -/
theorem run_agrees_iff {row : RowFrame} {col : ColumnFrame} (h : SameFrames row col) {steps : List OutputStep}
    (hok : (row.run steps).error? = none) :
    (∀ k, SameFrames (row.run (steps.take k)).state (col.run (steps.take k)).state) ↔ col.KeepsSigns steps := by
  induction steps generalizing row col with
  | nil => exact iff_of_true (fun k => by rw [List.take_nil]; exact h) trivial
  | cons a rest ih =>
    have ha : (row.applyOutput a.out a.op a.isRecall).error? = none := Outcome.error?_of_andThen hok
    rw [RowFrame.run_cons ha] at hok
    obtain ⟨hcol, hiff⟩ := applyOutput_agrees_iff h a ha
    have htake : ∀ k, SameFrames (row.run ((a :: rest).take (k + 1))).state (col.run ((a :: rest).take (k + 1))).state ↔
        SameFrames (RowFrame.run (row.applyOutput a.out a.op a.isRecall).state (rest.take k)).state
          (ColumnFrame.run (col.applyOutput a.out a.op a.isRecall).state (rest.take k)).state := by
      intro k
      rw [List.take_succ_cons, RowFrame.run_cons ha, ColumnFrame.run_cons hcol]
    constructor
    · intro hall
      have hnext := (htake 0).mp (hall 1)
      exact ⟨hiff.mp hnext, (ih hnext hok).mp fun k => (htake k).mp (hall (k + 1))⟩
    · rintro ⟨hsigns, hrest⟩ k
      cases k with
      | zero => exact h
      | succ k => exact (htake k).mpr ((ih (hiff.mpr hsigns) hok).mpr hrest k)

/-! ## Verdicts on frames that look the same -/

section Verdicts
variable {row : RowFrame} {col : ColumnFrame} {window : Option Window}

theorem findSome?_range_zero {α β : Type} (fields : List α) (g : α → Nat → Option β) :
    (fields.findSome? fun field => (List.range 0).findSome? (g field)) = none := by
  rw [List.findSome?_eq_none_iff]
  exact fun _ _ => rfl

theorem validateStrictItems_agrees_iff (h : SameFrames row col) (hfits : WindowFits window row.items.length)
    (fields : List String) :
    (row.view window).validateStrictItems fields = (col.view window).validateStrictItems fields ↔
      0 < (row.view window).itemCount ∨ ∀ field ∈ fields, col.items.column field ≠ none := by
  have hc := sameFrames_iff.mp h
  have hcell : col.items.cell = RowFrame.cell row.items := funext fun i => funext fun f => hc.cells i f
  rw [RowFrame.view_eq hfits]
  show strictScan _ _ _ fields = col.validateStrictItems window fields ↔ 0 < (windowSpan window row.items.length).2 ∨ _
  constructor
  · intro heq
    by_contra hno
    obtain ⟨hzero, hnone⟩ := not_or.mp hno
    have hzero : (windowSpan window row.items.length).2 = 0 := by omega
    rw [hzero, strictScan, findSome?_range_zero, ColumnFrame.validateStrictItems_eq, eq_comm,
      List.findSome?_eq_none_iff] at heq
    refine hnone fun field hfield hcolumn => ?_
    exact absurd (heq field hfield) (by simp [hcolumn])
  · intro hcond
    rw [ColumnFrame.validateStrictItems_eq_strictScan (by rw [hc.rowCount]; exact hcond), hc.rowCount, hcell]

theorem inputViolation_agrees_iff (h : SameFrames row col) (hfits : WindowFits window row.items.length)
    (spec : InputFieldSpec) :
    (row.view window).inputViolation spec = (col.view window).inputViolation spec ↔
      (row.view window).commonViolation spec ≠ none ∨ 0 < (row.view window).itemCount ∨
        ∀ field ∈ spec.strictItem, col.items.column field ≠ none := by
  have hc := sameFrames_iff.mp h
  have hsame := hc.view hfits
  have hcommon : (row.view window).commonViolation spec = (col.view window).commonViolation spec := by
    simp only [Frame.commonViolation, hsame.common, hsame.hasCommon]
  have hnullable : (row.view window).nullableItemViolation spec = (col.view window).nullableItemViolation spec := by
    simp only [Frame.nullableItemViolation, hsame.itemCount, hsame.itemHas]
  have hstrict := validateStrictItems_agrees_iff h hfits spec.strictItem
  rw [Frame.inputViolation, Frame.inputViolation, ← hcommon, ← hnullable]
  cases (row.view window).commonViolation spec with
  | some v => simp
  | none =>
    simp only [Option.none_or, ne_eq, not_true_eq_false, false_or]
    rw [← hstrict, Frame.strictItemViolation, Frame.strictItemViolation]
    by_cases hempty : spec.strictItem.isEmpty
    · rw [if_pos hempty, if_pos hempty]
      refine iff_of_true rfl (hstrict.mpr (Or.inr ?_))
      rw [List.isEmpty_iff.mp hempty]
      simp
    · rw [if_neg hempty, if_neg hempty]
      by_cases heq : (row.view window).validateStrictItems spec.strictItem =
          (col.view window).validateStrictItems spec.strictItem
      · rw [heq]
        simp
      · refine iff_of_false (fun hboth => heq ?_) heq
        -- no items: row storage finds nothing, column storage a field without a column
        have hzero : (row.view window).itemCount = 0 := by
          have := mt hstrict.mpr heq
          omega
        have hrow : (row.view window).validateStrictItems spec.strictItem = none := by
          rw [RowFrame.view_eq hfits] at hzero ⊢
          show strictScan _ _ _ _ = none
          rw [strictScan, show (windowSpan window row.items.length).2 = 0 from hzero, findSome?_range_zero]
        have hnone : (row.view window).nullableItemViolation spec = none := by
          rw [Frame.nullableItemViolation, hzero, findSome?_range_zero]
        rw [hrow, hnone, Option.map_none, Option.or_none, Option.or_none, eq_comm, Option.map_eq_none_iff] at hboth
        rw [hrow, hboth]

/-- The objects of an item differ where it holds a null, which column storage lists. -/
theorem itemObject_agrees_iff (h : SameFrames row col) (hfits : WindowFits window row.items.length) {index : Nat}
    (hindex : index < (row.view window).itemCount) :
    row.itemObject window index = col.itemObject window index ↔
      ∀ field, (row.view window).itemHas index field = true → (row.view window).item index field ≠ .null := by
  have hc := sameFrames_iff.mp h
  rw [RowFrame.view_eq hfits] at hindex ⊢
  have hindex : index < (windowSpan window row.items.length).2 := hindex
  have hfind : ∀ field, (col.itemObject window index).find? field =
      RowFrame.cell row.items ((windowSpan window row.items.length).1 + index) field := by
    intro field
    rw [ColumnFrame.find?_itemObject (by rw [hc.rowCount]; exact hindex), hc.cells, hc.rowCount]
  have hnull : ∀ v : Option Variant, v.filter (fun v => !v.isNull) = v ↔ (v.isSome = true → v.getD .null ≠ .null) := by
    intro v
    cases v with
    | none => simp
    | some v => cases v <;> simp [Variant.isNull, Option.filter]
  simp only [Frame.ofCells, hindex, if_true, decide_true, Bool.true_and, ← hnull]
  constructor
  · intro heq field
    rw [← RowFrame.find?_itemObject hfits hindex, heq, hfind]
  · intro hfields
    refine SortedMap.ext_find? fun field => ?_
    rw [RowFrame.find?_itemObject hfits hindex, hfields, hfind]

end Verdicts

/-- How the storages judge a window of frames that look the same. -/
structure WindowVerdicts (row : RowFrame) (col : ColumnFrame) (window : Option Window) : Prop where
  strictItems : ∀ fields,
    (row.view window).validateStrictItems fields = (col.view window).validateStrictItems fields ↔
      0 < (row.view window).itemCount ∨ ∀ field ∈ fields, col.items.column field ≠ none
  operatorInput : ∀ spec, (row.view window).inputViolation spec = (col.view window).inputViolation spec ↔
    (row.view window).commonViolation spec ≠ none ∨ 0 < (row.view window).itemCount ∨
      ∀ field ∈ spec.strictItem, col.items.column field ≠ none
  itemObject : ∀ index < (row.view window).itemCount,
    row.itemObject window index = col.itemObject window index ↔
      ∀ field, (row.view window).itemHas index field = true → (row.view window).item index field ≠ .null

/-- Along every accepted run the two storages look the same after each step exactly when no sign is lost,
and then their verdicts on every window are known too. -/
theorem storages_agree_on_runs (common : Row) (items : List Row) (steps : List OutputStep)
    (hok : (RowFrame.run ⟨common, items, []⟩ steps).error? = none) :
    ((∀ k, SameFrames (RowFrame.run ⟨common, items, []⟩ (steps.take k)).state
        (ColumnFrame.run (.ofItems common items) (steps.take k)).state) ↔
      KeepsInitialSigns items ∧ ColumnFrame.KeepsSigns (.ofItems common items) steps) ∧
    (KeepsInitialSigns items → ColumnFrame.KeepsSigns (.ofItems common items) steps → ∀ k window,
      WindowFits window (RowFrame.run ⟨common, items, []⟩ (steps.take k)).state.items.length →
        WindowVerdicts (RowFrame.run ⟨common, items, []⟩ (steps.take k)).state
          (ColumnFrame.run (.ofItems common items) (steps.take k)).state window) := by
  have hfirst := sameFrames_ofItems_iff common items
  have hsame : (∀ k, SameFrames (RowFrame.run ⟨common, items, []⟩ (steps.take k)).state
        (ColumnFrame.run (.ofItems common items) (steps.take k)).state) ↔
      KeepsInitialSigns items ∧ ColumnFrame.KeepsSigns (.ofItems common items) steps := by
    constructor
    · intro hall
      have hstart := hall 0
      exact ⟨hfirst.mp hstart, (run_agrees_iff hstart hok).mp hall⟩
    · rintro ⟨hinit, hsteps⟩
      exact (run_agrees_iff (hfirst.mpr hinit) hok).mpr hsteps
  refine ⟨hsame, fun hinit hsteps k window hfits => ?_⟩
  have h := hsame.mpr ⟨hinit, hsteps⟩ k
  exact ⟨validateStrictItems_agrees_iff h hfits, inputViolation_agrees_iff h hfits,
    fun _ => itemObject_agrees_iff h hfits⟩

/-- A recall adds an item to an empty request. -/
theorem storages_agree_on_runs_recall :
    let steps : List OutputStep := [⟨{ addedItems := [(∅ : Row).insert "a" .null] }, "r", true⟩]
    SameFrames (RowFrame.run ⟨∅, [], []⟩ steps).state (ColumnFrame.run (.ofItems ∅ []) steps).state := by
  intro steps
  have hinit : KeepsInitialSigns [] := by
    intro f _ i hi
    exact absurd hi (by simp [RowFrame.cell])
  have hsteps : ColumnFrame.KeepsSigns (.ofItems ∅ []) steps := by
    refine ⟨fun i f => ?_, trivial⟩
    have hint : (ColumnFrame.ofItems ∅ []).items.isInt64 = fun _ => false := funext fun _ => rfl
    rw [hint]
    show (if _ then false else if _ then false else false) = false
    simp
  exact (storages_agree_on_runs ∅ [] steps (by decide +kernel)).1.mpr ⟨hinit, hsteps⟩ 1

/-- A request item `-0.0` prints without its sign from column storage, and a field no item has is a
violation there without any item. -/
theorem storages_differ_at_once :
    let items : List Row := [(∅ : Row).insert "x" (.number .negZero)]
    (RowFrame.toResult ⟨∅, items, []⟩ [] ["x"] ≠ (ColumnFrame.ofItems ∅ items).toResult [] ["x"]) ∧
      (RowFrame.view ⟨∅, [], []⟩ none).inputViolation { strictItem := ["x"] } = none ∧
      ((ColumnFrame.ofItems ∅ []).view none).inputViolation { strictItem := ["x"] } = some (.nilItem "x" 0) := by
  decide +kernel

end Pineapple
