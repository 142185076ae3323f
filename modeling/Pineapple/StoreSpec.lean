import Pineapple.ColumnSpec
import Pineapple.RowSpec

/-! # What the column store holds

`ColumnFrame.store` obeys the storage laws, a write to an `int64` column reading back without the sign
of a zero. Additions are the item writes of the added fields on the extended store. -/

namespace Pineapple

namespace TypedColumnStore

def cell (s : TypedColumnStore) (i : Nat) (f : String) : Option Variant := (s.column f).bind (·.cell i)

/-- The field has an `int64` column. -/
def isInt64 (s : TypedColumnStore) (f : String) : Bool := (s.column f).any fun c => c.type = .int64

/-- What a cell of the field reads after `v` is written to it. -/
def readBack (s : TypedColumnStore) (f : String) (v : Variant) : Variant :=
  if s.isInt64 f ∧ v = .number .negZero then .number .zero else v

theorem size_column {s : TypedColumnStore} {f : String} {c : Column} (h : s.column f = some c) :
    c.size = s.rowCount := s.sized f c h

theorem cell_of_rowCount_le {s : TypedColumnStore} {i : Nat} (f : String) (h : s.rowCount ≤ i) : s.cell i f = none := by
  rw [cell]
  cases hc : s.column f with
  | none => rfl
  | some c => exact Column.cell_of_size_le (size_column hc ▸ h)

@[simp] theorem rowCount_setColumn (s : TypedColumnStore) (f : String) (c : Column) :
    (s.setColumn f c).rowCount = s.rowCount := by
  rw [setColumn]
  split <;> rfl

theorem column_setColumn {s : TypedColumnStore} {c : Column} (h : c.size = s.rowCount) (f g : String) :
    (s.setColumn f c).column g = if g = f then some c else s.column g := by
  rw [setColumn, dif_pos h]
  exact SortedMap.find?_insert ..

theorem column_mapColumns (s : TypedColumnStore) (g : Column → Column) (n : Nat)
    (hg : ∀ c : Column, c.size = s.rowCount → (g c).size = n) (f : String) :
    (s.mapColumns g n hg).column f = (s.column f).map g :=
  SortedMap.find?_mapValues ..

/-! ## One write -/

theorem newColumnType_ne_int64 (v : Variant) : newColumnType v ≠ .int64 := by
  cases v <;> simp [newColumnType]

/-- The column a write goes to holds what the field's column held, and takes the value as that would. -/
theorem columnFor_spec (s : TypedColumnStore) (f : String) (v : Variant) :
    (s.columnFor f v).size = s.rowCount ∧ (∀ j, (s.columnFor f v).cell j = s.cell j f) ∧
      (s.columnFor f v).type.readBack v = s.readBack f v ∧
      (((s.columnFor f v).type = .int64) ↔ (s.isInt64 f = true ∧ v ≠ .null)) := by
  have hold : ∃ c : Column, (s.column f).getD (.blank (newColumnType v) s.rowCount) = c ∧ c.size = s.rowCount ∧
      (∀ j, c.cell j = s.cell j f) ∧ (c.type = .int64 ↔ s.isInt64 f = true) := by
    refine ⟨_, rfl, ?_⟩
    cases hc : s.column f with
    | none =>
      refine ⟨Column.size_blank _ _, fun j => ?_, ?_⟩
      · rw [Option.getD_none, Column.cell_blank, cell, hc]
        rfl
      · rw [isInt64, hc]
        exact iff_of_false (newColumnType_ne_int64 v) (by simp)
    | some c =>
      refine ⟨size_column hc, fun j => ?_, ?_⟩
      · rw [Option.getD_some, cell, hc]
        rfl
      · rw [isInt64, hc]
        simp
  obtain ⟨c, hc, hsize, hcell, htype⟩ := hold
  rw [columnFor, hc]
  have hread : c.type.readBack v = s.readBack f v := by simp only [ColumnType.readBack, readBack, htype]
  by_cases hnull : v.isNull ∧ c.type ≠ .json
  · rw [if_pos hnull]
    have hv : v = .null := by
      cases v <;> first | rfl | exact absurd hnull.1 (by simp [Variant.isNull])
    subst hv
    refine ⟨by rw [Column.size_toJsonColumn, hsize], fun j => by rw [Column.cell_toJsonColumn, hcell], ?_, ?_⟩
    · rw [← hread, ColumnType.readBack_null, ColumnType.readBack_null]
    · rw [Column.type_toJsonColumn]
      simp
  · rw [if_neg hnull]
    refine ⟨hsize, hcell, hread, ?_⟩
    rw [htype, iff_self_and]
    rintro h64 rfl
    exact hnull ⟨rfl, by rw [htype.mpr h64]; simp⟩

variable {s : TypedColumnStore} {i : Nat}

theorem column_writeItemField (hi : i < s.rowCount) (f : String) (v : Variant) (g : String) :
    (s.writeItemField i f v).column g =
      if g = f then some ((s.columnFor f v).setOrPromote i v) else s.column g := by
  have hfor := (columnFor_spec s f v).1
  have hset := (Column.setOrPromote_spec (c := s.columnFor f v) v (hfor ▸ hi)).2.1
  exact column_setColumn (hset.trans hfor) f g

@[simp] theorem rowCount_writeItemField (s : TypedColumnStore) (i : Nat) (f : String) (v : Variant) :
    (s.writeItemField i f v).rowCount = s.rowCount := rowCount_setColumn ..

theorem cell_writeItemField (hi : i < s.rowCount) (f : String) (v : Variant) (j : Nat) (g : String) :
    (s.writeItemField i f v).cell j g = if j = i ∧ g = f then some (s.readBack f v) else s.cell j g := by
  obtain ⟨hsize, hcell, hread, -⟩ := columnFor_spec s f v
  have hset := (Column.setOrPromote_spec (c := s.columnFor f v) v (hsize ▸ hi)).2.2
  rw [cell, column_writeItemField hi]
  by_cases hg : g = f
  · subst hg
    rw [if_pos rfl, Option.bind_some, hset, hread, hcell]
    simp
  · rw [if_neg hg, if_neg fun h => hg h.2]
    rfl

/-- A column stays `int64` as long as only integral numbers are written to it. -/
theorem isInt64_writeItemField (hi : i < s.rowCount) (f : String) (v : Variant) (g : String) :
    (s.writeItemField i f v).isInt64 g = (s.isInt64 g && (g != f || v.isIntegralNumber)) := by
  obtain ⟨hsize, -, -, htype⟩ := columnFor_spec s f v
  have hset := (Column.setOrPromote_spec (c := s.columnFor f v) v (hsize ▸ hi)).1
  by_cases hg : g = f
  · subst hg
    rw [isInt64, column_writeItemField hi, if_pos rfl]
    simp only [Option.any_some, hset, bne_self_eq_false, Bool.false_or]
    by_cases h64 : (s.columnFor g v).type = .int64
    · have henc : ((s.columnFor g v).type.codec.encode v).isSome = v.isIntegralNumber := by
        rw [h64]
        exact ColumnType.encode_int64 v
      rw [henc, (htype.mp h64).1, Bool.true_and]
      cases v.isIntegralNumber <;> simp [h64]
    · have hne : (if ((s.columnFor g v).type.codec.encode v).isSome = true then (s.columnFor g v).type
          else ColumnType.json) ≠ .int64 := by
        split
        · exact h64
        · simp
      rw [decide_eq_false hne, eq_comm, Bool.and_eq_false_iff]
      by_cases hs : s.isInt64 g
      · right
        have hv : v = .null := by
          by_contra hv
          exact h64 (htype.mpr ⟨hs, hv⟩)
        rw [hv]
        rfl
      · exact Or.inl (by simpa using hs)
  · rw [isInt64, column_writeItemField hi, if_neg hg]
    simp [isInt64, hg]

/-! ## Whole columns and rows -/

theorem size_adopt (vals : List Binary64) : Column.size ⟨.double, .adopt vals⟩ = vals.length := rfl

theorem cell_adopt (vals : List Binary64) (j : Nat) :
    Column.cell ⟨.double, .adopt vals⟩ j = vals[j]?.map Variant.number := by
  rw [Column.cell, TypedColumn.cell_eq]
  by_cases hj : j < vals.length
  · simp [TypedColumn.adopt, hj, ColumnType.codec, ColumnType.doubleCodec]
  · simp [TypedColumn.adopt, hj]

theorem cell_writeColumn {vals : List Binary64} (h : vals.length = s.rowCount) (f : String) (j : Nat) (g : String) :
    (s.writeColumn f vals).cell j g = if g = f then vals[j]?.map Variant.number else s.cell j g := by
  rw [cell, writeColumn, column_setColumn (by rw [size_adopt, h])]
  by_cases hg : g = f
  · rw [if_pos hg, if_pos hg, Option.bind_some, cell_adopt]
  · rw [if_neg hg, if_neg hg]
    rfl

theorem isInt64_writeColumn {vals : List Binary64} (h : vals.length = s.rowCount) (f g : String) :
    (s.writeColumn f vals).isInt64 g = (s.isInt64 g && g != f) := by
  rw [isInt64, writeColumn, column_setColumn (by rw [size_adopt, h])]
  by_cases hg : g = f
  · rw [if_pos hg]
    simp [hg]
  · rw [if_neg hg]
    simp [isInt64, hg]

theorem length_removeBitmap (n : Nat) (removed : List Int) : (removeBitmap n removed).length = n := by
  have H : ∀ bitmap : List Bool, (removed.foldl (fun b idx => b.set idx.toNat true) bitmap).length = bitmap.length := by
    induction removed with
    | nil => exact fun _ => rfl
    | cons idx rest ih => intro bitmap; rw [List.foldl_cons, ih, List.length_set]
  rw [removeBitmap, H, List.length_replicate]

theorem getD_removeBitmap {n : Nat} {removed : List Int} (h : ValidRemoval n removed) {j : Nat} (hj : j < n) :
    (removeBitmap n removed).getD j false = removed.contains (j : Int) := by
  have H : ∀ (rest : List Int) (bitmap : List Bool), (∀ idx ∈ rest, ¬ OutOfRange n idx) → bitmap.length = n →
      (rest.foldl (fun b idx => b.set idx.toNat true) bitmap).getD j false =
        (bitmap.getD j false || rest.contains (j : Int)) := by
    intro rest
    induction rest with
    | nil => simp
    | cons idx rest ih =>
      intro bitmap hrange hlen
      obtain ⟨h0, -⟩ := not_outOfRange (hrange idx List.mem_cons_self)
      rw [List.foldl_cons, ih _ (fun i hi => hrange i (List.mem_cons_of_mem _ hi)) (by simpa using hlen),
        List.getD_eq_getElem?_getD, List.getElem?_set, List.contains_cons]
      by_cases heq : idx.toNat = j
      · have : (j : Int) = idx := by omega
        simp [heq, hlen, hj, this]
      · have hne : ((j : Int) == idx) = false := by
          rw [beq_eq_false_iff_ne]
          omega
        rw [if_neg heq, ← List.getD_eq_getElem?_getD, hne, Bool.false_or]
  rw [removeBitmap, H removed _ h.inRange (List.length_replicate ..)]
  simp [hj]

theorem keptSlots_removeBitmap {n : Nat} {removed : List Int} (h : ValidRemoval n removed) :
    InPlace.keptSlots (removeBitmap n removed) = keptRows n removed := by
  rw [InPlace.keptSlots, keptRows, length_removeBitmap]
  refine List.filter_congr fun j hj => ?_
  rw [getD_removeBitmap h (List.mem_range.mp hj)]

theorem cell_removeRows {removed : List Int} (h : ValidRemoval s.rowCount removed) (k : Nat) (f : String) :
    (s.removeRows removed).cell k f = (keptRows s.rowCount removed)[k]?.bind fun j => s.cell j f := by
  rw [cell, removeRows, column_mapColumns]
  simp only [cell]
  cases hc : s.column f with
  | none => cases (keptRows s.rowCount removed)[k]? <;> rfl
  | some c =>
    have hlen : (removeBitmap s.rowCount removed).length = c.size := by
      rw [length_removeBitmap, size_column hc]
    have hkept : (InPlace.keptSlots (removeBitmap s.rowCount removed)).length = s.rowCount - removed.length := by
      rw [keptSlots_removeBitmap h, length_keptRows h]
    rw [Option.map_some, Option.bind_some, Column.cell_removeWithBitmap c hlen hkept, keptSlots_removeBitmap h]
    rfl

theorem cell_reorderRows {order : List Int} (h : ValidOrder s.rowCount order) (k : Nat) (f : String) :
    (s.reorderRows order).cell k f = (order.map Int.toNat)[k]?.bind fun j => s.cell j f := by
  rw [cell, reorderRows, column_mapColumns]
  simp only [cell]
  cases hc : s.column f with
  | none => cases (order.map Int.toNat)[k]? <;> rfl
  | some c =>
    have hlen : order.length = c.size := by rw [h.length, size_column hc]
    rw [Option.map_some, Option.bind_some, Column.cell_reorder c h.isOrder hlen]
    rfl

theorem isInt64_removeRows (removed : List Int) (f : String) : (s.removeRows removed).isInt64 f = s.isInt64 f := by
  rw [isInt64, removeRows, column_mapColumns, Option.any_map]
  rfl

theorem isInt64_reorderRows (order : List Int) (f : String) : (s.reorderRows order).isInt64 f = s.isInt64 f := by
  rw [isInt64, reorderRows, column_mapColumns, Option.any_map]
  rfl

theorem type_appendNulls (c : Column) (n : Nat) : (c.appendNulls n).type = c.type := by
  induction n generalizing c with
  | zero => rfl
  | succ n ih => rw [Column.appendNulls, ih]; rfl

theorem isInt64_extendRows (n : Nat) (f : String) : (s.extendRows n).isInt64 f = s.isInt64 f := by
  rw [isInt64, extendRows, column_mapColumns, Option.any_map]
  simp only [type_appendNulls]
  rfl

theorem cell_extendRows (n i : Nat) (f : String) : (s.extendRows n).cell i f = s.cell i f := by
  rw [cell, extendRows, column_mapColumns, cell, Option.bind_map]
  simp only [Function.comp_def, Column.cell_appendNulls]

end TypedColumnStore

/-! ## Additions -/

namespace ColumnFrame

/-- The writes of one added item. -/
def rowWrites (op : String) (isRecall : Bool) (idx : Nat) (added : Row) : List ItemWrite :=
  (added.entries ++ if isRecall then [("_source", Variant.string op)] else []).map fun w => ⟨idx, w.1, w.2⟩

/-- The writes of the additions, to the rows from `base` on. -/
def addedWrites (op : String) (isRecall : Bool) (base : Nat) (added : List Row) : List ItemWrite :=
  added.zipIdx.flatMap fun p => rowWrites op isRecall (base + p.2) p.1

/-- The additions' check of one write. -/
def addedWriteError (op : String) (w : ItemWrite) : Option PineError := addedFieldError op (w.field, w.value)

@[simp] theorem addedFieldError_string (op f s : String) : addedFieldError op (f, .string s) = none := by
  simp [addedFieldError]

theorem writeAddedItem_eq (op : String) (isRecall : Bool) (idx : Nat) (added : Row) :
    writeAddedItem op isRecall idx added =
      Outcome.forEach (fun w => Outcome.checked (addedWriteError op w) fun s =>
        s.writeItemField w.index.toNat w.field w.value) (rowWrites op isRecall idx added) := by
  funext s
  rw [writeAddedItem, rowWrites, Outcome.forEach_map, Outcome.forEach_append]
  congr 1
  funext t
  cases isRecall with
  | false => rfl
  | true => simp [Outcome.forEach, addedWriteError]

theorem findSome?_addedWrites (op : String) (isRecall : Bool) (base : Nat) (added : List Row) :
    (addedWrites op isRecall base added).findSome? (addedWriteError op) =
      added.findSome? fun row => row.entries.findSome? (addedFieldError op) := by
  have hrow : ∀ (idx : Nat) (row : Row), (rowWrites op isRecall idx row).findSome? (addedWriteError op) =
      row.entries.findSome? (addedFieldError op) := by
    intro idx row
    rw [rowWrites, List.findSome?_map, List.findSome?_append]
    have hsource : (if isRecall then [("_source", Variant.string op)] else []).findSome?
        (addedWriteError op ∘ fun w => ItemWrite.mk idx w.1 w.2) = none := by
      cases isRecall <;> simp [addedWriteError]
    rw [hsource, Option.or_none]
    rfl
  have H : ∀ (l : List Row) (k : Nat), ((l.zipIdx k).flatMap fun p => rowWrites op isRecall (base + p.2) p.1).findSome?
      (addedWriteError op) = l.findSome? fun row => row.entries.findSome? (addedFieldError op) := by
    intro l
    induction l with
    | nil => exact fun _ => rfl
    | cons row l ih =>
      intro k
      rw [List.zipIdx_cons, List.flatMap_cons, List.findSome?_append, hrow, ih, List.findSome?_cons]
      cases row.entries.findSome? (addedFieldError op) <;> rfl
  exact H added 0

/-- The additions are the checked item writes of the added fields, on the extended store. -/
theorem addItems_eq (op : String) (isRecall : Bool) (added : List Row) (s : TypedColumnStore) :
    addItems op isRecall added s =
      Outcome.checked (added.findSome? fun row => row.entries.findSome? (addedFieldError op)) id
        (store.writeFields ((addedWrites op isRecall s.rowCount added).takeWhile fun w => (addedWriteError op w).isNone)
          (s.extendRows added.length)) := by
  rw [addItems, ← findSome?_addedWrites op isRecall s.rowCount added]
  simp only [writeAddedItem_eq]
  rw [← Outcome.forEach_flatMap, ← addedWrites, Outcome.forEach_checked]
  rfl

theorem mem_addedWrites {op : String} {isRecall : Bool} {base : Nat} {added : List Row} {w : ItemWrite}
    (h : w ∈ addedWrites op isRecall base added) :
    0 ≤ w.index ∧ base ≤ w.index.toNat ∧ w.index.toNat < base + added.length := by
  obtain ⟨⟨row, k⟩, hk, hw⟩ := List.mem_flatMap.mp h
  obtain ⟨e, -, rfl⟩ := List.mem_map.mp hw
  have := List.snd_lt_of_mem_zipIdx hk
  simp only [Int.toNat_natCast]
  omega

/-! ## The storage laws -/

theorem state_addItems (op : String) (isRecall : Bool) (added : List Row) (s : TypedColumnStore) :
    (addItems op isRecall added s).state =
      store.writeFields ((addedWrites op isRecall s.rowCount added).takeWhile fun w => (addedWriteError op w).isNone)
        (s.extendRows added.length) := by
  rw [addItems_eq]
  cases added.findSome? fun row => row.entries.findSome? (addedFieldError op) <;> rfl

/-- What writes to rows `[lo, hi)` with accepted values keep. -/
theorem writeFields_keeps {s : TypedColumnStore} {lo : Nat} {ws : List ItemWrite}
    (hws : ∀ w ∈ ws, lo ≤ w.index.toNat ∧ w.index.toNat < s.rowCount ∧ validateFrameValue w.field w.value = none) :
    (store.writeFields ws s).rowCount = s.rowCount ∧
      (∀ i < lo, ∀ f, (store.writeFields ws s).cell i f = s.cell i f) ∧
      ∀ i f v, (store.writeFields ws s).cell i f = some v → s.cell i f = some v ∨ validateFrameValue f v = none := by
  induction ws generalizing s with
  | nil => exact ⟨rfl, fun _ _ _ => rfl, fun _ _ _ h => Or.inl h⟩
  | cons w ws ih =>
    obtain ⟨hlo, hhi, hvalid⟩ := hws w List.mem_cons_self
    have hcell := TypedColumnStore.cell_writeItemField hhi w.field w.value
    obtain ⟨hrows, hlow, hnew⟩ := ih (s := s.writeItemField w.index.toNat w.field w.value) fun w' hw' => by
      rw [TypedColumnStore.rowCount_writeItemField]
      exact hws w' (List.mem_cons_of_mem _ hw')
    rw [TypedColumnStore.rowCount_writeItemField] at hrows
    refine ⟨hrows, fun i hi f => ?_, fun i f v hv => ?_⟩
    · exact (hlow i hi f).trans (by rw [hcell, if_neg (by omega)])
    · rcases hnew i f v hv with hv | hv
      · rw [hcell] at hv
        split at hv
        · next hif =>
          right
          rw [← Option.some.inj hv, hif.2, TypedColumnStore.readBack]
          split
          · rfl
          · exact hvalid
        · exact Or.inl hv
      · exact Or.inr hv

theorem addItems_keeps (op : String) (isRecall : Bool) (added : List Row) (s : TypedColumnStore) :
    (addItems op isRecall added s).state.rowCount = s.rowCount + added.length ∧
      (∀ i < s.rowCount, ∀ f, (addItems op isRecall added s).state.cell i f = s.cell i f) ∧
      ∀ i f v, (addItems op isRecall added s).state.cell i f = some v →
        s.cell i f = some v ∨ validateFrameValue f v = none := by
  have hws : ∀ w ∈ (addedWrites op isRecall s.rowCount added).takeWhile fun w => (addedWriteError op w).isNone,
      s.rowCount ≤ w.index.toNat ∧ w.index.toNat < (s.extendRows added.length).rowCount ∧
        validateFrameValue w.field w.value = none := by
    intro w hw
    obtain ⟨-, hlo, hhi⟩ := mem_addedWrites ((List.takeWhile_prefix _).mem hw)
    refine ⟨hlo, hhi, ?_⟩
    simpa [addedWriteError, addedFieldError] using List.mem_takeWhile_imp hw
  obtain ⟨hrows, hcells⟩ := writeFields_keeps hws
  rw [state_addItems]
  exact ⟨hrows, by simpa only [TypedColumnStore.cell_extendRows] using hcells⟩

theorem store_lawful : store.Lawful TypedColumnStore.cell TypedColumnStore.readBack where
  cell_none s _ f h := s.cell_of_rowCount_le f h
  reads_eq s f v := by
    rw [TypedColumnStore.readBack]
    split
    · next h => exact Or.inr ⟨h.2, rfl⟩
    · exact Or.inl rfl
  rowCount_writeField s i f v _ := s.rowCount_writeItemField i f v
  cell_writeField _ _ f v hi j g := TypedColumnStore.cell_writeItemField hi f v j g
  rowCount_writeColumn _ _ _ _ := TypedColumnStore.rowCount_setColumn ..
  cell_writeColumn _ f _ h j g := TypedColumnStore.cell_writeColumn h f j g
  rowCount_removeRows _ _ _ := rfl
  cell_removeRows _ _ h k f := TypedColumnStore.cell_removeRows h k f
  rowCount_reorderRows _ _ _ := rfl
  cell_reorderRows _ _ h k f := TypedColumnStore.cell_reorderRows h k f
  error_addItems s op isRecall added := by
    show (addItems op isRecall added s).error? = _
    rw [addItems_eq]
    cases added.findSome? fun row => row.entries.findSome? (addedFieldError op) <;> rfl
  cell_addItems s op isRecall added i f hi := (addItems_keeps op isRecall added s).2.1 i hi f
  rowCount_addItems s op isRecall added := by
    have := (addItems_keeps op isRecall added s).1
    exact Nat.le.intro this.symm
  valid_addItems s op isRecall added i f v hi hv := by
    rcases (addItems_keeps op isRecall added s).2.2 i f v hv with hv | hv
    · rw [TypedColumnStore.cell_of_rowCount_le f hi] at hv
      exact absurd hv (by simp)
    · exact hv

end ColumnFrame

end Pineapple
