import Pineapple.FrameReads

/-! # Row and column storage side by side

The two storages of one request hold the same cells but for one thing: a negative zero that an `int64`
column took reads positive there. `SignState` follows the writes of an output for the cells where that
is so, from the columns' types and the write log alone. -/

namespace Pineapple

/-- The `int64` columns, and the cells whose last write was a negative zero into one. -/
structure SignState where
  int64 : String → Bool
  lost : Nat → String → Bool

namespace SignState

def start (int64 : String → Bool) : SignState := ⟨int64, fun _ _ => false⟩

def write (st : SignState) (w : ItemWrite) : SignState where
  int64 f := st.int64 f && (f != w.field || w.value.isIntegralNumber)
  lost i f := if i = w.index.toNat ∧ f = w.field then st.int64 f && decide (w.value = .number .negZero) else st.lost i f

def writeColumn (st : SignState) (cw : DoubleColumnWrite) : SignState where
  int64 f := st.int64 f && f != cw.field
  lost i f := st.lost i f && f != cw.field

/-- The rows at the slots `idx`. -/
def gather (st : SignState) (idx : List Nat) : SignState where
  int64 := st.int64
  lost k f := idx[k]?.any fun j => st.lost j f

end SignState

/-- The two storages hold the same rows, apart from the lost signs. -/
structure Agree (st : SignState) (rows : List Row) (s : TypedColumnStore) : Prop where
  rowCount : s.rowCount = rows.length
  int64 : ∀ f, s.isInt64 f = st.int64 f
  same : ∀ i f, st.lost i f = false → s.cell i f = RowFrame.cell rows i f
  lost : ∀ i f, st.lost i f = true →
    RowFrame.cell rows i f = some (.number .negZero) ∧ s.cell i f = some (.number .zero)

namespace Agree
variable {st : SignState} {rows : List Row} {s : TypedColumnStore}

/-- The storages differ exactly where a sign is lost. -/
theorem cells_eq_iff (h : Agree st rows s) (i : Nat) (f : String) :
    s.cell i f = RowFrame.cell rows i f ↔ st.lost i f = false := by
  constructor
  · intro heq
    by_contra hl
    obtain ⟨hr, hs⟩ := h.lost i f (by simpa using hl)
    rw [hr, hs] at heq
    exact absurd heq (by decide)
  · exact h.same i f

theorem write (h : Agree st rows s) {w : ItemWrite} (hw : w.index.toNat < rows.length) :
    Agree (st.write w) (RowFrame.store.writeField w.index.toNat w.field w.value rows)
      (ColumnFrame.store.writeField w.index.toNat w.field w.value s) := by
  have hs : w.index.toNat < s.rowCount := h.rowCount.symm ▸ hw
  have hrow := RowFrame.store_lawful.cell_writeField rows w.index.toNat w.field w.value hw
  have hcol := ColumnFrame.store_lawful.cell_writeField s w.index.toNat w.field w.value hs
  have hlen : (RowFrame.store.writeField w.index.toNat w.field w.value rows).length = rows.length :=
    RowFrame.store_lawful.rowCount_writeField rows _ _ _ hw
  refine ⟨?_, fun f => ?_, fun i f hl => ?_, fun i f hl => ?_⟩
  · rw [hlen]
    exact (TypedColumnStore.rowCount_writeItemField ..).trans h.rowCount
  · exact (TypedColumnStore.isInt64_writeItemField hs ..).trans (by rw [h.int64]; rfl)
  · refine (hcol i f).trans (Eq.trans ?_ (hrow i f).symm)
    simp only [SignState.write] at hl
    split at hl
    · next hif =>
      rw [if_pos hif, if_pos hif, TypedColumnStore.readBack, h.int64, ← hif.2]
      rw [if_neg fun hc => by simp [hc.1, hc.2] at hl]
    · next hif =>
      rw [if_neg hif, if_neg hif]
      exact h.same i f hl
  · simp only [SignState.write] at hl
    rw [hrow, hcol]
    split at hl
    · next hif =>
      rw [if_pos hif, if_pos hif, TypedColumnStore.readBack, h.int64, ← hif.2]
      simp only [Bool.and_eq_true, decide_eq_true_eq] at hl
      rw [if_pos hl, hl.2]
      exact ⟨rfl, rfl⟩
    · next hif =>
      rw [if_neg hif, if_neg hif]
      exact h.lost i f hl

theorem writeFields {ws : List ItemWrite} (h : Agree st rows s) (hws : ∀ w ∈ ws, w.index.toNat < rows.length) :
    Agree (ws.foldl SignState.write st) (RowFrame.store.writeFields ws rows) (ColumnFrame.store.writeFields ws s) := by
  induction ws generalizing st rows s with
  | nil => exact h
  | cons w ws ih =>
    have hw := hws w List.mem_cons_self
    have hlen : (RowFrame.store.writeField w.index.toNat w.field w.value rows).length = rows.length :=
      RowFrame.store_lawful.rowCount_writeField rows _ _ _ hw
    exact ih (h.write hw) fun w' hw' => hlen.symm ▸ hws w' (List.mem_cons_of_mem _ hw')

theorem writeColumn (h : Agree st rows s) {cw : DoubleColumnWrite} (hcw : cw.vals.length = rows.length) :
    Agree (st.writeColumn cw) (RowFrame.store.writeColumn cw.field cw.vals rows)
      (ColumnFrame.store.writeColumn cw.field cw.vals s) := by
  have hs : cw.vals.length = s.rowCount := hcw.trans h.rowCount.symm
  have hrow := RowFrame.store_lawful.cell_writeColumn rows cw.field cw.vals hcw
  have hcol := ColumnFrame.store_lawful.cell_writeColumn s cw.field cw.vals hs
  have hlen : (RowFrame.store.writeColumn cw.field cw.vals rows).length = rows.length :=
    RowFrame.store_lawful.rowCount_writeColumn rows _ _ hcw
  refine ⟨?_, fun f => ?_, fun i f hl => ?_, fun i f hl => ?_⟩
  · rw [hlen]
    exact (TypedColumnStore.rowCount_setColumn ..).trans h.rowCount
  · exact (TypedColumnStore.isInt64_writeColumn hs ..).trans (by rw [h.int64]; rfl)
  · refine (hcol i f).trans (Eq.trans ?_ (hrow i f).symm)
    by_cases hf : f = cw.field
    · rw [if_pos hf, if_pos hf]
    · rw [if_neg hf, if_neg hf]
      exact h.same i f (by simpa [SignState.writeColumn, hf] using hl)
  · simp only [SignState.writeColumn, Bool.and_eq_true, bne_iff_ne, ne_eq] at hl
    rw [hrow, hcol, if_neg hl.2, if_neg hl.2]
    exact h.lost i f hl.1

theorem writeColumns {cws : List DoubleColumnWrite} (h : Agree st rows s)
    (hcws : ∀ cw ∈ cws, cw.vals.length = rows.length) :
    Agree (cws.foldl SignState.writeColumn st) (RowFrame.store.writeColumns cws rows)
      (ColumnFrame.store.writeColumns cws s) := by
  induction cws generalizing st rows s with
  | nil => exact h
  | cons cw cws ih =>
    have hcw := hcws cw List.mem_cons_self
    have hlen : (RowFrame.store.writeColumn cw.field cw.vals rows).length = rows.length :=
      RowFrame.store_lawful.rowCount_writeColumn rows _ _ hcw
    exact ih (h.writeColumn hcw) fun cw' hcw' => hlen.symm ▸ hcws cw' (List.mem_cons_of_mem _ hcw')

/-- Rows gathered alike in both storages. -/
theorem gather {rows' : List Row} {s' : TypedColumnStore} {idx : List Nat} (h : Agree st rows s)
    (hcount : s'.rowCount = rows'.length) (hint : ∀ f, s'.isInt64 f = s.isInt64 f)
    (hrow : ∀ k f, RowFrame.cell rows' k f = idx[k]?.bind fun j => RowFrame.cell rows j f)
    (hcol : ∀ k f, s'.cell k f = idx[k]?.bind fun j => s.cell j f) : Agree (st.gather idx) rows' s' := by
  refine ⟨hcount, fun f => (hint f).trans (h.int64 f), fun k f hl => ?_, fun k f hl => ?_⟩
  · rw [hrow, hcol]
    cases hk : idx[k]? with
    | none => rfl
    | some j =>
      have hl : st.lost j f = false := by simpa [SignState.gather, hk] using hl
      exact h.same j f hl
  · rw [hrow, hcol]
    cases hk : idx[k]? with
    | none => simp [SignState.gather, hk] at hl
    | some j =>
      have hl : st.lost j f = true := by simpa [SignState.gather, hk] using hl
      exact h.lost j f hl

end Agree

/-- The lost signs after the write phases on `n` items, for columns that were `int64` before. -/
def OperatorOutput.writtenSigns (out : OperatorOutput) (op : String) (n : Nat) (int64 : String → Bool) : SignState :=
  (out.appliedColumnWrites op n).foldl SignState.writeColumn
    ((out.appliedItemWrites op n).foldl SignState.write (.start int64))

namespace Agree
variable {st : SignState} {rows : List Row} {s : TypedColumnStore}

theorem written {int64 : String → Bool} (h : Agree (.start int64) rows s) (out : OperatorOutput) (op : String) :
    Agree (out.writtenSigns op rows.length int64) (RowFrame.store.written out op rows)
      (ColumnFrame.store.written out op s) := by
  have hcount : ColumnFrame.store.rowCount s = rows.length := h.rowCount
  have hws : ∀ w ∈ out.appliedItemWrites op rows.length, itemWriteError op rows.length w = none :=
    fun w hw => itemWriteError_of_mem_applied hw
  have hrows : (RowFrame.store.writeFields (out.appliedItemWrites op rows.length) rows).length = rows.length :=
    rowCount_writeFields RowFrame.store_lawful hws
  rw [OperatorOutput.writtenSigns, ItemStore.written, ItemStore.written, hcount]
  refine (h.writeFields fun w hw => (lt_of_itemWriteError (hws w hw)).1).writeColumns fun cw hcw => ?_
  rw [hrows]
  exact (length_of_columnWriteError (columnWriteError_of_mem_applied hcw)).1

theorem removedFrom (h : Agree st rows s) {out : OperatorOutput} (hv : ValidRemoval rows.length out.removed) :
    Agree (st.gather (keptRows rows.length out.removed)) (RowFrame.store.removedFrom out rows)
      (ColumnFrame.store.removedFrom out s) := by
  have hcount : ColumnFrame.store.rowCount s = rows.length := h.rowCount
  have hv' : ValidRemoval (ColumnFrame.store.rowCount s) out.removed := by rw [hcount]; exact hv
  have hrow : (RowFrame.store.removedFrom out rows).length = rows.length - out.removed.length :=
    rowCount_removedFrom RowFrame.store_lawful hv
  have hcol : (ColumnFrame.store.removedFrom out s).rowCount = s.rowCount - out.removed.length :=
    rowCount_removedFrom ColumnFrame.store_lawful hv'
  refine h.gather (by rw [hrow, hcol, h.rowCount]) (fun f => ?_) (cell_removedFrom RowFrame.store_lawful hv) ?_
  · rw [ItemStore.removedFrom]
    split
    · rfl
    · exact TypedColumnStore.isInt64_removeRows ..
  · intro k f
    rw [← h.rowCount]
    exact cell_removedFrom ColumnFrame.store_lawful hv' k f

theorem reordered (h : Agree st rows s) {out : OperatorOutput} {op : String}
    (ho : out.reorderError op rows.length = none) :
    Agree (st.gather (out.orderSlots rows.length)) (RowFrame.store.reordered out rows)
      (ColumnFrame.store.reordered out s) := by
  have hcount : ColumnFrame.store.rowCount s = rows.length := h.rowCount
  have ho' : out.reorderError op (ColumnFrame.store.rowCount s) = none := by rw [hcount]; exact ho
  have hrow : (RowFrame.store.reordered out rows).length = rows.length := rowCount_reordered RowFrame.store_lawful ho
  have hcol : (ColumnFrame.store.reordered out s).rowCount = s.rowCount :=
    rowCount_reordered ColumnFrame.store_lawful ho'
  refine h.gather (by rw [hrow, hcol, h.rowCount]) (fun f => ?_) (cell_reordered RowFrame.store_lawful ho) ?_
  · rw [ItemStore.reordered]
    split
    · rfl
    · exact TypedColumnStore.isInt64_reorderRows ..
  · intro k f
    rw [← h.rowCount]
    exact cell_reordered ColumnFrame.store_lawful ho' k f

end Agree

/-! ## Observational equality -/

/-- The reads of the `Frame` interface answer alike. -/
structure Frame.SameReads (a b : Frame) : Prop where
  common : ∀ field, a.common field = b.common field
  hasCommon : ∀ field, a.hasCommon field = b.hasCommon field
  itemCount : a.itemCount = b.itemCount
  item : ∀ i field, a.item i field = b.item i field
  itemHas : ∀ i field, a.itemHas i field = b.itemHas i field
  itemColumn : ∀ field, a.itemColumn field = b.itemColumn field

/-- A window view of the one exists with one of the other, and reads alike. -/
def SameWindow (a b : Except PineError Frame) : Prop :=
  match a, b with
  | .ok v, .ok w => v.SameReads w
  | .error _, .error _ => True
  | _, _ => False

/-- The two frames look the same from outside. -/
structure SameFrames (row : RowFrame) (col : ColumnFrame) : Prop where
  view : (row.view none).SameReads (col.view none)
  windows : ∀ offset count, SameWindow (row.makeWindowView offset count) (col.makeWindowView offset count)
  toResult : ∀ commonOut itemOut, row.toResult commonOut itemOut = col.toResult commonOut itemOut
  warnings : row.warnings = col.warnings

/-- The two frames hold the same. -/
structure SameContents (row : RowFrame) (col : ColumnFrame) : Prop where
  common : row.common = col.common
  rowCount : col.items.rowCount = row.items.length
  cells : ∀ i f, col.items.cell i f = RowFrame.cell row.items i f
  warnings : row.warnings = col.warnings

theorem getD_isSome_inj {x y : Option Variant} (hv : x.getD .null = y.getD .null) (hp : x.isSome = y.isSome) :
    x = y := by
  cases x <;> cases y <;> simp_all

theorem SameContents.view {row : RowFrame} {col : ColumnFrame} (h : SameContents row col) {window : Option Window}
    (hfits : WindowFits window row.items.length) : (row.view window).SameReads (col.view window) := by
  have hcell : col.items.cell = RowFrame.cell row.items := by
    funext i f
    exact h.cells i f
  rw [RowFrame.view_eq hfits, ColumnFrame.view_eq, h.rowCount, hcell, h.common]
  exact ⟨fun _ => rfl, fun _ => rfl, rfl, fun _ _ => rfl, fun _ _ => rfl, fun _ => rfl⟩

theorem sameFrames_iff {row : RowFrame} {col : ColumnFrame} : SameFrames row col ↔ SameContents row col := by
  have hwhole : WindowFits none row.items.length := by simp [WindowFits, windowSpan]
  constructor
  · intro h
    have hview := h.view
    rw [RowFrame.view_eq hwhole, ColumnFrame.view_eq] at hview
    have hcount : col.items.rowCount = row.items.length := hview.itemCount.symm
    refine ⟨SortedMap.ext_find? fun f => getD_isSome_inj (hview.common f) (hview.hasCommon f), hcount,
      fun i f => ?_, h.warnings⟩
    by_cases hi : i < row.items.length
    · have hv := hview.item i f
      have hp := hview.itemHas i f
      simp only [Frame.ofCells, windowSpan, hcount, hi, if_true, decide_true, Bool.true_and, Nat.zero_add] at hv hp
      exact (getD_isSome_inj hv hp).symm
    · rw [TypedColumnStore.cell_of_rowCount_le f (by omega), RowFrame.store_lawful.cell_none _ _ _ (Nat.not_lt.mp hi)]
  · intro h
    refine ⟨h.view hwhole, fun offset count => ?_, fun commonOut itemOut => ?_, h.warnings⟩
    · rw [RowFrame.makeWindowView, ColumnFrame.makeWindowView, h.rowCount]
      split
      · exact trivial
      · next hfits =>
        have hfits : WindowFits (some ⟨offset, count⟩) row.items.length := Nat.not_lt.mp hfits
        exact h.view hfits
    · have hcell : ∀ i, col.items.cell i = RowFrame.cell row.items i := fun i => funext fun f => h.cells i f
      rw [RowFrame.toResult_eq, ColumnFrame.toResult_eq, h.common, h.rowCount]
      simp only [hcell]

/-- Frames with the same contents agree with no sign lost. -/
theorem SameContents.agree {row : RowFrame} {col : ColumnFrame} (h : SameContents row col) :
    Agree (.start col.items.isInt64) row.items col.items :=
  ⟨h.rowCount, fun _ => rfl, fun i f _ => h.cells i f, fun _ _ hl => absurd hl (by simp [SignState.start])⟩

/-! ## When failed calls leave the same -/

/-- The call does not fail, or it fails before its additions with every sign kept in the rows left. -/
def OperatorOutput.FailsAlike (out : OperatorOutput) (op : String) (n : Nat) (int64 : String → Bool) : Prop :=
  if out.writeError op n ≠ none ∨ out.removeError op n ≠ none then
    ∀ i f, (out.writtenSigns op n int64).lost i f = false
  else if out.reorderError op (n - out.removed.length) ≠ none then
    ∀ i ∈ keptRows n out.removed, ∀ f, (out.writtenSigns op n int64).lost i f = false
  else out.additionError op = none

theorem length_takeWhile_lt {α β : Type} {l : List α} {f : α → Option β} (h : l.findSome? f ≠ none) :
    (l.takeWhile fun a => (f a).isNone).length < l.length := by
  induction l with
  | nil => exact absurd rfl h
  | cons a l ih =>
    rw [List.takeWhile_cons]
    cases ha : f a with
    | some b => simp
    | none =>
      rw [List.findSome?_cons, ha] at h
      simpa using ih h

/-- A failed additions phase leaves fewer rows in row storage. -/
theorem rowCount_added_ne {out : OperatorOutput} {op : String} (isRecall : Bool) {rows : List Row}
    {s : TypedColumnStore} (hcount : s.rowCount = rows.length) (ha : out.additionError op ≠ none) :
    (ColumnFrame.store.added out op isRecall s).rowCount ≠ (RowFrame.store.added out op isRecall rows).length := by
  have hne : out.addedItems.isEmpty = false := by
    cases hadded : out.addedItems with
    | nil => rw [OperatorOutput.additionError, hadded] at ha; exact absurd rfl ha
    | cons _ _ => rfl
  have hlt := length_takeWhile_lt ha
  have hrow : (RowFrame.store.added out op isRecall rows).length = rows.length +
      (out.addedItems.takeWhile fun row => (row.entries.findSome? (addedFieldError op)).isNone).length := by
    rw [ItemStore.added, if_neg (by simp [hne])]
    show (RowFrame.addItems op isRecall out.addedItems rows).state.length = _
    rw [RowFrame.state_addItems, List.length_append, List.length_map]
  have hcol : (ColumnFrame.store.added out op isRecall s).rowCount = s.rowCount + out.addedItems.length := by
    rw [ItemStore.added, if_neg (by simp [hne])]
    exact (ColumnFrame.addItems_keeps op isRecall out.addedItems s).1
  rw [hrow, hcol, hcount]
  omega

theorem sameFrames_of_agree_iff {st : SignState} {row : RowFrame} {col : ColumnFrame} (h : Agree st row.items col.items)
    (hcommon : row.common = col.common) (hwarn : row.warnings = col.warnings) :
    SameFrames row col ↔ ∀ i f, st.lost i f = false := by
  rw [sameFrames_iff]
  constructor
  · exact fun hs i f => (h.cells_eq_iff i f).mp (hs.cells i f)
  · exact fun hl => ⟨hcommon, h.rowCount, fun i f => h.same i f (hl i f), hwarn⟩

/-- A frame without items is the same in both storages. -/
theorem sameFrames_empty : SameFrames ⟨∅, [], []⟩ (.ofItems ∅ []) :=
  sameFrames_iff.mpr ⟨rfl, rfl, fun _ _ => rfl, rfl⟩

/-- Two items, the second with a value that is not a number. -/
def secondAddedNaN : OperatorOutput where
  addedItems := [(∅ : Row).insert "a" (.number .zero), (∅ : Row).insert "a" (.number .nan)]

end Pineapple
