import Pineapple.NodeBody
import Pineapple.StorageKinds

/-! # Frames field by field

Both storages work field by field: what a mutation makes of a field's cells depends on the mutation, on these cells and on
the number of rows, and on nothing else. So a call of `apply_output` does the same to a field of two frames that hold the
same there, and leaves alone the fields it does not write. -/

namespace Pineapple

variable {σ π : Type}

/-- `part f` is what a storage holds of the field `f`, the number of rows with it. -/
structure Storage.Fieldwise (S : Storage σ) (part : String → σ → π) : Prop where
  rowCount : ∀ {f s t}, part f s = part f t → S.store.rowCount s = S.store.rowCount t
  writeField : ∀ {f s t} i v, part f s = part f t → part f (S.store.writeField i f v s) = part f (S.store.writeField i f v t)
  writeField_ne : ∀ {f g} s i v, g ≠ f → part f (S.store.writeField i g v s) = part f s
  writeColumn : ∀ {f s t} vals, part f s = part f t →
    part f (S.store.writeColumn f vals s) = part f (S.store.writeColumn f vals t)
  writeColumn_ne : ∀ {f g} s vals, vals.length = S.store.rowCount s → g ≠ f →
    part f (S.store.writeColumn g vals s) = part f s
  removeRows : ∀ {f s t} removed, part f s = part f t →
    part f (S.store.removeRows removed s) = part f (S.store.removeRows removed t)
  reorderRows : ∀ {f s t} order, part f s = part f t →
    part f (S.store.reorderRows order s) = part f (S.store.reorderRows order t)
  addItems : ∀ {f s t} op isRecall added, part f s = part f t → Outcome.Rel (fun s t => part f s = part f t)
    (S.store.addItems op isRecall added s) (S.store.addItems op isRecall added t)
  common : ∀ (a : FrameState σ) w f, (S.view a w).common f = (a.common.find? f).getD .null
  hasCommon : ∀ (a : FrameState σ) w f, (S.view a w).hasCommon f = (a.common.find? f).isSome
  itemCount : ∀ {a b : FrameState σ} w, S.store.rowCount a.items = S.store.rowCount b.items →
    (S.view a w).itemCount = (S.view b w).itemCount
  item : ∀ {a b : FrameState σ} {f} w i, part f a.items = part f b.items → (S.view a w).item i f = (S.view b w).item i f
  itemHas : ∀ {a b : FrameState σ} {f} w i, part f a.items = part f b.items →
    (S.view a w).itemHas i f = (S.view b w).itemHas i f
  itemColumn : ∀ {a b : FrameState σ} {f} w, part f a.items = part f b.items →
    (S.view a w).itemColumn f = (S.view b w).itemColumn f
  validateStrictItems : ∀ {a b : FrameState σ} {fields} w, S.store.rowCount a.items = S.store.rowCount b.items →
    (∀ f ∈ fields, part f a.items = part f b.items) →
    (S.view a w).validateStrictItems fields = (S.view b w).validateStrictItems fields

/-! ## Row storage -/

namespace RowFrame

/-- The cells of a field. -/
def part (f : String) (rows : List Row) : List (Option Variant) := rows.map fun row => row.find? f

def storage : Storage (List Row) where
  store := store
  view := view
  cell := cell
  reads := fun _ _ v => v
  lawful := store_lawful

theorem length_part (f : String) (rows : List Row) : (part f rows).length = rows.length := List.length_map _

theorem length_eq_of_part {f : String} {s t : List Row} (h : part f s = part f t) : s.length = t.length := by
  rw [← length_part f s, h, length_part]

theorem part_modify (f g : String) (i : Nat) (v : Variant) (rows : List Row) :
    part f (rows.modify i fun row => row.insert g v) = (part f rows).modify i fun c => if f = g then some v else c := by
  refine List.ext_getElem? fun j => ?_
  unfold part
  rw [List.getElem?_map, List.getElem?_modify, List.getElem?_modify, List.getElem?_map]
  cases rows[j]? with
  | none => rfl
  | some row =>
    by_cases hij : i = j
    · simp [hij, SortedMap.find?_insert]
    · simp [hij]

theorem part_zipWith (f g : String) (vals : List Binary64) (rows : List Row) :
    part f (List.zipWith (fun row d => row.insert g (.number d)) rows vals) =
      List.zipWith (fun c d => if f = g then some (.number d) else c) (part f rows) vals := by
  unfold part
  rw [List.map_zipWith, List.zipWith_map_left]
  simp only [SortedMap.find?_insert]

theorem part_dropRows (f : String) (removed : List Int) (rows : List Row) :
    part f (dropRows removed rows) = dropRows removed (part f rows) := by
  unfold part
  rw [dropRows_eq_gather, dropRows_eq_gather, List.length_map]
  unfold InPlace.gather
  rw [List.map_filterMap]
  simp only [List.getElem?_map]

theorem part_gatherRows (f : String) (order : List Int) (rows : List Row) :
    part f (gatherRows order rows) = gatherRows order (part f rows) := by
  unfold part gatherRows
  rw [List.map_filterMap]
  simp only [List.getElem?_map]

theorem rowAt?_find? {f : String} {a b : RowFrame} (w : Option Window) (i : Nat) (h : part f a.items = part f b.items) :
    (a.rowAt? w i).map (fun row : Row => row.find? f) = (b.rowAt? w i).map fun row : Row => row.find? f := by
  have hcell : ∀ k : Nat, a.items[k]?.map (fun row : Row => row.find? f) = b.items[k]?.map fun row : Row => row.find? f := by
    intro k
    rw [← List.getElem?_map, ← List.getElem?_map]
    exact congrArg (fun l => l[k]?) h
  unfold rowAt?
  cases w with
  | none => exact hcell i
  | some w =>
    dsimp only
    split
    · rfl
    · exact hcell _

theorem itemCount_congr {a b : RowFrame} (w : Option Window) (h : a.items.length = b.items.length) :
    RowFrame.itemCount a w = RowFrame.itemCount b w := by
  cases w with
  | none => exact h
  | some w => rfl

theorem item_eq (a : RowFrame) (w : Option Window) (i : Nat) (f : String) :
    RowFrame.item a w i f = (((a.rowAt? w i).map fun row : Row => row.find? f).join).getD .null := by
  unfold item
  cases a.rowAt? w i <;> rfl

theorem rel_addItems {f : String} {s t : List Row} (op : String) (isRecall : Bool) (added : List Row)
    (h : part f s = part f t) : Outcome.Rel (fun s t => part f s = part f t) (addItems op isRecall added s)
      (addItems op isRecall added t) := by
  refine Outcome.Rel.forEach_checked _ _ added (fun row _ s t h => ?_) h
  unfold part at h ⊢
  rw [List.map_append, List.map_append, h]

theorem fieldwise : storage.Fieldwise part where
  rowCount h := length_eq_of_part h
  writeField i v h := by
    show part _ (List.modify _ _ _) = part _ (List.modify _ _ _)
    rw [part_modify, part_modify, h]
  writeField_ne s i v hne := by
    show part _ (List.modify _ _ _) = _
    rw [part_modify]
    simp only [if_neg hne.symm]
    exact List.modify_id _ _
  writeColumn vals h := by
    show part _ (List.zipWith _ _ _) = part _ (List.zipWith _ _ _)
    rw [part_zipWith, part_zipWith, h]
  writeColumn_ne {f g} s vals hlen hne := by
    show part _ (List.zipWith _ _ _) = _
    rw [part_zipWith]
    simp only [if_neg hne.symm]
    refine List.ext_getElem? fun j => ?_
    rw [List.getElem?_zipWith]
    have hlen' : vals.length = (part f s).length := hlen.trans (length_part f s).symm
    rcases Nat.lt_or_ge j (part f s).length with hj | hj
    · rw [List.getElem?_eq_getElem hj, List.getElem?_eq_getElem (hlen' ▸ hj)]
    · rw [List.getElem?_eq_none hj]
  removeRows removed h := by
    show part _ (dropRows _ _) = part _ (dropRows _ _)
    rw [part_dropRows, part_dropRows, h]
  reorderRows order h := by
    show part _ (gatherRows _ _) = part _ (gatherRows _ _)
    rw [part_gatherRows, part_gatherRows, h]
  addItems op isRecall added h := rel_addItems op isRecall added h
  common a w f := rfl
  hasCommon a w f := rfl
  itemCount w h := itemCount_congr w h
  item {a b f} w i h := by
    show RowFrame.item a w i f = RowFrame.item b w i f
    rw [item_eq, item_eq, rowAt?_find? w i h]
  itemHas {a b f} w i h := by
    have heq : ∀ c : RowFrame, RowFrame.itemHas c w i f = (((c.rowAt? w i).map fun row : Row => row.find? f).join).isSome := by
      intro c
      unfold itemHas
      cases c.rowAt? w i with
      | none => rfl
      | some row => rfl
    exact (heq a).trans ((congrArg (fun o => o.join.isSome) (rowAt?_find? w i h)).trans (heq b).symm)
  itemColumn {a b f} w h := by
    show (List.range (RowFrame.itemCount a w)).map _ = (List.range (RowFrame.itemCount b w)).map _
    rw [itemCount_congr w (length_eq_of_part h)]
    refine List.map_congr_left fun i _ => ?_
    have heq := item_eq a w i f
    rw [rowAt?_find? w i h, ← item_eq] at heq
    exact heq
  validateStrictItems {a b fields} w hn h := by
    show fields.findSome? _ = fields.findSome? _
    refine List.findSome?_congr_mem fun f hf => ?_
    rw [itemCount_congr w hn]
    refine List.findSome?_congr_mem fun i _ => ?_
    have hbind : ∀ c : RowFrame, (c.rowAt? w i).bind (fun row : Row => row.find? f) =
        ((c.rowAt? w i).map fun row : Row => row.find? f).join := fun c => by cases c.rowAt? w i <;> rfl
    rw [hbind, hbind, rowAt?_find? w i (h f hf)]

end RowFrame

/-! ## Column storage -/

namespace ColumnFrame
open TypedColumnStore

/-- The column of a field, and the row count. -/
def part (f : String) (s : TypedColumnStore) : Nat × Option Column := (s.rowCount, s.column f)

def storage : Storage TypedColumnStore where
  store := store
  view := view
  cell := TypedColumnStore.cell
  reads := TypedColumnStore.readBack
  lawful := store_lawful

variable {f g : String} {s t : TypedColumnStore}

theorem part_eq (h : part f s = part f t) : s.rowCount = t.rowCount ∧ s.column f = t.column f := Prod.mk.inj h

theorem part_setColumn (s : TypedColumnStore) (f g : String) (col : Column) :
    part f (s.setColumn g col) = if f = g ∧ col.size = s.rowCount then (s.rowCount, some col) else part f s := by
  unfold part TypedColumnStore.setColumn TypedColumnStore.column
  by_cases h : col.size = s.rowCount
  · rw [dif_pos h]
    dsimp only
    rw [SortedMap.find?_insert]
    by_cases hf : f = g
    · rw [if_pos hf, if_pos ⟨hf, h⟩]
    · rw [if_neg hf, if_neg fun hc => hf hc.1]
  · rw [dif_neg h, if_neg fun hc => h hc.2]

theorem part_setColumn_congr (col : Column) (h : part f s = part f t) :
    part f (s.setColumn f col) = part f (t.setColumn f col) := by
  rw [part_setColumn, part_setColumn, h, (part_eq h).1]

theorem part_mapColumns {k : Column → Column} {n : Nat} {hk : ∀ c : Column, c.size = s.rowCount → (k c).size = n} :
    part f (s.mapColumns k n hk) = (n, (s.column f).map k) := by
  unfold part TypedColumnStore.mapColumns TypedColumnStore.column
  rw [SortedMap.find?_mapValues]

theorem part_extendRows (n : Nat) :
    part f (s.extendRows n) = (s.rowCount + n, (s.column f).map fun c => c.appendNulls n) := part_mapColumns

theorem part_writeItemField_congr (i : Nat) (v : Variant) (h : part f s = part f t) :
    part f (s.writeItemField i f v) = part f (t.writeItemField i f v) := by
  have hcol : s.columnFor f v = t.columnFor f v := by
    unfold TypedColumnStore.columnFor
    rw [(part_eq h).1, (part_eq h).2]
  unfold TypedColumnStore.writeItemField
  rw [hcol]
  exact part_setColumn_congr _ h

theorem part_writeItemField_ne (i : Nat) (v : Variant) (hne : g ≠ f) : part f (s.writeItemField i g v) = part f s := by
  unfold TypedColumnStore.writeItemField
  rw [part_setColumn, if_neg fun hc => hne hc.1.symm]

/-- Writing one field of both stores. -/
theorem part_write (i : Nat) (v : Variant) (h : part f s = part f t) :
    part f (s.writeItemField i g v) = part f (t.writeItemField i g v) := by
  by_cases hg : g = f
  · subst hg
    exact part_writeItemField_congr i v h
  · rw [part_writeItemField_ne i v hg, part_writeItemField_ne i v hg, h]

theorem rel_writeAddedItem (op : String) (isRecall : Bool) (idx : Nat) (added : Row) (h : part f s = part f t) :
    Outcome.Rel (fun s t => part f s = part f t) (writeAddedItem op isRecall idx added s)
      (writeAddedItem op isRecall idx added t) := by
  unfold writeAddedItem
  refine Outcome.Rel.andThen (Outcome.Rel.forEach_checked _ _ _ (fun w _ s t h => part_write idx w.2 h) h) fun s t h => ?_
  refine .ok ?_
  split
  · exact part_write idx _ h
  · exact h

theorem rel_addItems (op : String) (isRecall : Bool) (added : List Row) (h : part f s = part f t) :
    Outcome.Rel (fun s t => part f s = part f t) (addItems op isRecall added s) (addItems op isRecall added t) := by
  have hext : part f (s.extendRows added.length) = part f (t.extendRows added.length) := by
    rw [part_extendRows, part_extendRows, (part_eq h).1, (part_eq h).2]
  unfold addItems
  rw [(part_eq h).1]
  refine Outcome.Rel.forEach (R := fun s t => part f s = part f t) added.zipIdx (fun p _ s' t' h' => ?_) hext
  exact rel_writeAddedItem op isRecall (t.rowCount + p.2) p.1 h'

theorem rowIndex?_congr {a b : ColumnFrame} (w : Option Window) (i : Nat) (h : a.items.rowCount = b.items.rowCount) :
    ColumnFrame.rowIndex? a w i = ColumnFrame.rowIndex? b w i := by
  unfold ColumnFrame.rowIndex?
  cases w with
  | none => simp only [h]
  | some w => rfl

theorem itemCount_congr {a b : ColumnFrame} (w : Option Window) (h : a.items.rowCount = b.items.rowCount) :
    ColumnFrame.itemCount a w = ColumnFrame.itemCount b w := by
  cases w with
  | none => exact h
  | some w => rfl

theorem fieldwise : storage.Fieldwise part where
  rowCount h := (part_eq h).1
  writeField i v h := part_write i v h
  writeField_ne s i v hne := part_writeItemField_ne i v hne
  writeColumn vals h := part_setColumn_congr _ h
  writeColumn_ne s vals _ hne := by
    show part _ (s.setColumn _ _) = _
    rw [part_setColumn, if_neg fun hc => hne hc.1.symm]
  removeRows removed h := by
    show part _ (TypedColumnStore.removeRows _ _) = part _ (TypedColumnStore.removeRows _ _)
    unfold TypedColumnStore.removeRows
    rw [part_mapColumns, part_mapColumns, (part_eq h).1, (part_eq h).2]
  reorderRows order h := by
    show part _ (TypedColumnStore.reorderRows _ _) = part _ (TypedColumnStore.reorderRows _ _)
    unfold TypedColumnStore.reorderRows
    rw [part_mapColumns, part_mapColumns, (part_eq h).1, (part_eq h).2]
  addItems op isRecall added h := rel_addItems op isRecall added h
  common a w f := rfl
  hasCommon a w f := rfl
  itemCount w h := itemCount_congr w h
  item {a b f} w i h := by
    show ColumnFrame.item a w i f = ColumnFrame.item b w i f
    unfold ColumnFrame.item
    rw [rowIndex?_congr w i (part_eq h).1, (part_eq h).2]
  itemHas {a b f} w i h := by
    show ColumnFrame.itemHas a w i f = ColumnFrame.itemHas b w i f
    unfold ColumnFrame.itemHas
    rw [rowIndex?_congr w i (part_eq h).1, (part_eq h).2]
  itemColumn {a b f} w h := by
    show ColumnFrame.itemColumn a w f = ColumnFrame.itemColumn b w f
    unfold ColumnFrame.itemColumn
    rw [itemCount_congr w (part_eq h).1, (part_eq h).2]
  validateStrictItems {a b fields} w hn h := by
    show ColumnFrame.validateStrictItems a w fields = ColumnFrame.validateStrictItems b w fields
    unfold ColumnFrame.validateStrictItems
    refine List.findSome?_congr_mem fun f hf => ?_
    rw [itemCount_congr w hn, (part_eq (h f hf)).2]

end ColumnFrame

/-! ## Places of a frame -/

/-- A common field, or an item field with the rows. -/
inductive Place where
  | common (field : String)
  | item (field : String)

/-- The frames hold the same at the place. -/
def FrameState.SameAt (part : String → σ → π) : Place → FrameState σ → FrameState σ → Prop
  | .common f, s, t => s.common.find? f = t.common.find? f
  | .item f, s, t => part f s.items = part f t.items

/-- Applying the output may change what the place holds. -/
def OperatorOutput.Reaches (out : OperatorOutput) : Place → Prop
  | .common f => out.commonWrites.contains f = true
  | .item f => f ∈ out.existingFields ∨ out.calls .addItem = true ∨ out.calls .removeItem = true ∨
      out.calls .setItemOrder = true

theorem find?_insertAll_congr {f : String} {ws : List (String × Variant)} {r r' : Row} (h : r.find? f = r'.find? f) :
    (insertAll ws r).find? f = (insertAll ws r').find? f := by
  unfold insertAll
  induction ws generalizing r r' with
  | nil => exact h
  | cons w ws ih =>
    refine ih ?_
    rw [SortedMap.find?_insert, SortedMap.find?_insert, h]

theorem find?_insertAll_of_not_mem {f : String} {ws : List (String × Variant)} {r : Row} (h : ∀ w ∈ ws, w.1 ≠ f) :
    (insertAll ws r).find? f = r.find? f := by
  unfold insertAll
  induction ws generalizing r with
  | nil => rfl
  | cons w ws ih =>
    refine (ih fun v hv => h v (List.mem_cons_of_mem _ hv)).trans ?_
    rw [SortedMap.find?_insert, if_neg fun heq => h w List.mem_cons_self heq.symm]

namespace Storage.Fieldwise
variable {S : Storage σ} {part : String → σ → π} {out : OperatorOutput} {op : String} {isRecall : Bool}

theorem part_writeFields (hS : S.Fieldwise part) {f : String} {ws : List ItemWrite} (items : σ) (h : ∀ w ∈ ws, w.field ≠ f) :
    part f (S.store.writeFields ws items) = part f items := by
  unfold ItemStore.writeFields
  induction ws generalizing items with
  | nil => rfl
  | cons w ws ih =>
    rw [List.foldl_cons, ih _ fun v hv => h v (List.mem_cons_of_mem _ hv)]
    exact hS.writeField_ne _ _ _ (h w List.mem_cons_self)

theorem part_writeColumns (hS : S.Fieldwise part) {f : String} {cws : List DoubleColumnWrite} {items : σ}
    (hlen : ∀ cw ∈ cws, cw.vals.length = S.store.rowCount items) (h : ∀ cw ∈ cws, cw.field ≠ f) :
    part f (S.store.writeColumns cws items) = part f items := by
  unfold ItemStore.writeColumns
  induction cws generalizing items with
  | nil => rfl
  | cons cw cws ih =>
    have hcw := hlen cw List.mem_cons_self
    have hrows := S.lawful.rowCount_writeColumn items cw.field cw.vals hcw
    rw [List.foldl_cons, ih (fun v hv => by rw [hrows]; exact hlen v (List.mem_cons_of_mem _ hv))
      fun v hv => h v (List.mem_cons_of_mem _ hv)]
    exact hS.writeColumn_ne _ _ hcw (h cw List.mem_cons_self)

theorem part_written (hS : S.Fieldwise part) {f : String} (items : σ) (h : f ∉ out.existingFields) :
    part f (S.store.written out op items) = part f items := by
  unfold OperatorOutput.existingFields at h
  rw [List.mem_append, not_or] at h
  have hrows : S.store.rowCount (S.store.writeFields (out.appliedItemWrites op (S.store.rowCount items)) items) =
      S.store.rowCount items :=
    rowCount_writeFields S.lawful fun w hw => itemWriteError_of_mem_applied hw
  unfold ItemStore.written
  rw [hS.part_writeColumns (fun cw hcw => ?_) fun cw hcw hf => h.2 ?_, hS.part_writeFields _ fun w hw hf => h.1 ?_]
  · unfold OperatorOutput.appliedItemWrites at hw
    split at hw
    · exact List.mem_map.mpr ⟨w, (List.takeWhile_prefix _).subset hw, hf⟩
    · exact absurd hw List.not_mem_nil
  · rw [hrows]
    exact (length_of_columnWriteError (columnWriteError_of_mem_applied hcw)).1
  · unfold OperatorOutput.appliedColumnWrites at hcw
    split at hcw
    · exact List.mem_map.mpr ⟨cw, (List.takeWhile_prefix _).subset hcw, hf⟩
    · exact absurd hcw List.not_mem_nil

/-- A successful call: what it makes of the common fields and of the items. -/
theorem apply_ok {s s' : FrameState σ} (h : applyOutputWith S.store out op isRecall s = .ok s') :
    s'.common = insertAll (out.appliedCommonWrites op) s.common ∧
      s'.items = S.store.added out op isRecall (S.store.reordered out (S.store.removedFrom out
        (S.store.written out op s.items))) := by
  have hends := applyOutputWith_ends S.lawful out op isRecall s
  rw [h] at hends
  cases hends
  exact ⟨rfl, rfl⟩

/-- A place the output does not reach stays as it is. -/
theorem apply_keeps (hS : S.Fieldwise part) {s s' : FrameState σ} {x : Place} (hx : ¬ out.Reaches x)
    (h : applyOutputWith S.store out op isRecall s = .ok s') : FrameState.SameAt part x s s' := by
  obtain ⟨hcommon, hitems⟩ := apply_ok h
  cases x with
  | common f =>
    have hnot : ∀ w ∈ out.appliedCommonWrites op, w.1 ≠ f := by
      rintro w hw rfl
      have hmem : w ∈ out.commonWrites.entries := (List.takeWhile_prefix _).subset hw
      exact hx (SortedMap.mem_keys.mp (List.mem_map_of_mem hmem))
    show s.common.find? f = s'.common.find? f
    rw [hcommon, find?_insertAll_of_not_mem hnot]
  | item f =>
    have hx : f ∉ out.existingFields ∧ out.calls .addItem = false ∧ out.calls .removeItem = false ∧
        out.calls .setItemOrder = false := by
      simpa [OperatorOutput.Reaches, not_or] using hx
    obtain ⟨hfield, hadd, hremove, horder⟩ := hx
    have hadd : out.addedItems.isEmpty = true := by simpa [OperatorOutput.calls] using hadd
    have hremove : out.removed.isEmpty = true := by
      simpa [OperatorOutput.calls, OperatorOutput.removed, SortedMap.keys] using hremove
    have horder : out.itemOrder = none := by simpa [OperatorOutput.calls] using horder
    show part f s.items = part f s'.items
    rw [hitems, ItemStore.added, if_pos hadd, ItemStore.reordered, horder, ItemStore.removedFrom, if_pos hremove]
    exact (hS.part_written _ hfield).symm

/-- On frames that hold the same of an item field, a call ends alike and leaves the same of it. -/
theorem apply_rel (hS : S.Fieldwise part) {s t : FrameState σ} {f : String} (h : part f s.items = part f t.items) :
    Outcome.Rel (fun s t => part f s.items = part f t.items) (applyOutputWith S.store out op isRecall s)
      (applyOutputWith S.store out op isRecall t) := by
  let R : FrameState σ → FrameState σ → Prop := fun s t => part f s.items = part f t.items
  have hcommon : Outcome.Rel R (applyCommonWrites op out.commonWrites.entries s)
      (applyCommonWrites op out.commonWrites.entries t) := by
    unfold applyCommonWrites
    refine Outcome.Rel.forEach_checked (R := R) _ _ _ (fun _ _ s t h => ?_) h
    exact h
  have hitems : ∀ s t, R s t → Outcome.Rel R (applyItemWrites S.store op out.itemWrites s)
      (applyItemWrites S.store op out.itemWrites t) := by
    intro s t h
    refine Outcome.Rel.forEach (R := R) _ (fun w _ s t h => ?_) h
    rw [hS.rowCount h]
    refine Outcome.Rel.checked (R := R) _ h fun _ => ?_
    by_cases hw : w.field = f
    · subst hw
      exact hS.writeField _ _ h
    · exact (hS.writeField_ne _ _ _ hw).trans (h.trans (hS.writeField_ne _ _ _ hw).symm)
  have hcolumns : ∀ s t, R s t → Outcome.Rel R (applyColumnWrites S.store op out.columnWrites s)
      (applyColumnWrites S.store op out.columnWrites t) := by
    intro s t h
    refine Outcome.Rel.forEach (R := R) _ (fun cw _ s t h => ?_) h
    have hrows := hS.rowCount h
    rw [hrows]
    refine Outcome.Rel.checked (R := R) _ h fun hok => ?_
    have hlen := (length_of_columnWriteError hok).1
    by_cases hw : cw.field = f
    · subst hw
      exact hS.writeColumn _ h
    · exact (hS.writeColumn_ne _ _ (hlen.trans hrows.symm) hw).trans (h.trans (hS.writeColumn_ne _ _ hlen hw).symm)
  have hremovals : ∀ s t, R s t → Outcome.Rel R (applyRemovals S.store op out.removedItems.keys s)
      (applyRemovals S.store op out.removedItems.keys t) := by
    intro s t h
    unfold applyRemovals
    split
    · exact .ok h
    · rw [hS.rowCount h]
      exact Outcome.Rel.checked (R := R) _ h fun _ => hS.removeRows _ h
  have horder : ∀ s t, R s t → Outcome.Rel R (applyReorder S.store op out.itemOrder s)
      (applyReorder S.store op out.itemOrder t) := by
    intro s t h
    unfold applyReorder
    split
    · exact .ok h
    · rw [hS.rowCount h]
      exact Outcome.Rel.checked (R := R) _ h fun _ => hS.reorderRows _ h
  have hadditions : ∀ s t, R s t → Outcome.Rel R (applyAdditions S.store op isRecall out.addedItems s)
      (applyAdditions S.store op isRecall out.addedItems t) := by
    intro s t h
    unfold applyAdditions
    split
    · exact .ok h
    · have hrel := hS.addItems op isRecall out.addedItems h
      revert hrel
      generalize S.store.addItems op isRecall out.addedItems s.items = o
      generalize S.store.addItems op isRecall out.addedItems t.items = o'
      intro hrel
      cases hrel with
      | ok h => exact .ok h
      | fail h => exact .fail h
  have hwarning : ∀ s t, R s t → Outcome.Rel R (applyWarning op out.warning s) (applyWarning op out.warning t) := by
    intro s t h
    unfold applyWarning
    split <;> exact .ok h
  exact (((((hcommon.andThen hitems).andThen hcolumns).andThen hremovals).andThen horder).andThen hadditions).andThen hwarning

/-- What a call makes of a place depends on what the place held. -/
theorem apply_agrees (hS : S.Fieldwise part) {s s' t t' : FrameState σ} {x : Place}
    (hs : applyOutputWith S.store out op isRecall s = .ok s') (ht : applyOutputWith S.store out op isRecall t = .ok t')
    (h : FrameState.SameAt part x s t) : FrameState.SameAt part x s' t' := by
  cases x with
  | common f =>
    show s'.common.find? f = t'.common.find? f
    rw [(apply_ok hs).1, (apply_ok ht).1]
    exact find?_insertAll_congr h
  | item f =>
    have hrel := @apply_rel _ _ _ _ out op isRecall hS _ _ _ h
    rw [hs, ht] at hrel
    cases hrel with
    | ok h => exact h

end Storage.Fieldwise

end Pineapple
