import Pineapple.FrameReads
import Pineapple.RowSpec

/-! # Storages as one kind of thing

An operator that only reads a column and only removes or reorders items does the same on both storages. What it needs
of a storage is gathered in `FrameStorage`. -/

namespace Pineapple

/-- A storage with its cells, and what a reader of a whole frame sees of them. -/
structure FrameStorage where
  σ : Type
  store : ItemStore σ
  cell : σ → Nat → String → Option Variant
  reads : σ → String → Variant → Variant
  lawful : store.Lawful cell reads
  view : FrameState σ → Frame
  scan : FrameState σ → List String → Option (String × Nat)
  view_eq : ∀ s, view s = Frame.ofCells s.common 0 (store.rowCount s.items) (cell s.items) (scan s)

namespace FrameStorage

def row : FrameStorage where
  σ := List Row
  store := RowFrame.store
  cell := RowFrame.cell
  reads := fun _ _ v => v
  lawful := RowFrame.store_lawful
  view f := RowFrame.view f none
  scan f := strictScan 0 f.items.length (RowFrame.cell f.items)
  view_eq f := @RowFrame.view_eq f none (Nat.le_of_eq (Nat.zero_add _))

def column : FrameStorage where
  σ := TypedColumnStore
  store := ColumnFrame.store
  cell := TypedColumnStore.cell
  reads := TypedColumnStore.readBack
  lawful := ColumnFrame.store_lawful
  view f := ColumnFrame.view f none
  scan f := ColumnFrame.validateStrictItems f none
  view_eq f := ColumnFrame.view_eq f none

variable (S : FrameStorage)

def rowCount (s : FrameState S.σ) : Nat := S.store.rowCount s.items

/-- The frame as the input of an operator. -/
def input (spec : InputFieldSpec) (s : FrameState S.σ) : OperatorInput := ⟨S.view s, spec⟩

/-- The run of an operator on a frame: its output is applied, and an error of it leaves the frame. -/
def apply (execute : OperatorInput → Except PineError OperatorOutput) (op : String) (spec : InputFieldSpec)
    (s : FrameState S.σ) : Outcome PineError (FrameState S.σ) :=
  match execute (S.input spec s) with
  | .error e => .fail e s
  | .ok out => applyOutputWith S.store out op false s

/-- The items of `t` are those of `s` in these slots. -/
structure Gathered (s : FrameState S.σ) (slots : List Nat) {T : FrameStorage} (t : FrameState T.σ) : Prop where
  rowCount : T.rowCount t = slots.length
  cell : ∀ k f, T.cell t.items k f = slots[k]?.bind fun j => S.cell s.items j f

variable {S}

theorem itemCount_input (spec : InputFieldSpec) (s : FrameState S.σ) : (S.input spec s).itemCount = S.rowCount s := by
  unfold input OperatorInput.itemCount
  rw [S.view_eq]
  rfl

theorem common_view (s : FrameState S.σ) (f : String) : (S.view s).common f = (s.common.find? f).getD .null := by
  rw [S.view_eq]
  rfl

/-- What an operator reads of a cell: the default in place of null. -/
def readCell (spec : InputFieldSpec) (field : String) (cell : Option Variant) : Variant :=
  if (cell.getD .null).isNull then OperatorInput.defaultOf spec.defaultedItem field else cell.getD .null

theorem itemColumn_input (spec : InputFieldSpec) (s : FrameState S.σ) (field : String) :
    (S.input spec s).itemColumn field =
      (List.range (S.rowCount s)).map fun i => readCell spec field (S.cell s.items i field) := by
  unfold input OperatorInput.itemColumn readCell
  rw [S.view_eq]
  unfold Frame.ofCells rowCount
  simp only [List.map_map, Nat.zero_add]
  rfl

/-! ## Outputs that reorder -/

theorem scanOrder_of_nodup {op : String} {n : Nat} {seen : List Bool} {order : List Nat} (hlt : ∀ j ∈ order, j < n)
    (hnd : order.Nodup) (hseen : ∀ j ∈ order, seen.getD j false = false) :
    scanOrder op n seen (order.map Int.ofNat) = none := by
  induction order generalizing seen with
  | nil => rfl
  | cons j order ih =>
    obtain ⟨hj, hnd⟩ := List.nodup_cons.mp hnd
    have hrange : ¬ OutOfRange n (Int.ofNat j) := by
      have := hlt j List.mem_cons_self
      unfold OutOfRange
      rintro (h | h) <;> simp only [Int.ofNat_eq_natCast, Int.toNat_natCast] at h <;> omega
    rw [List.map_cons, scanOrder, if_neg hrange, if_neg (by
      have := hseen j List.mem_cons_self
      simpa using this)]
    refine ih (fun k hk => hlt k (List.mem_cons_of_mem _ hk)) hnd fun k hk => ?_
    have hne : j ≠ k := fun h => hj (h ▸ hk)
    have hk := hseen k (List.mem_cons_of_mem _ hk)
    rw [List.getD_eq_getElem?_getD] at hk ⊢
    rwa [show (Int.ofNat j).toNat = j from rfl, List.getElem?_set_ne hne]

theorem orderError_of_perm {op : String} {n : Nat} {order : List Nat} (h : order.Perm (List.range n)) :
    orderError op n (order.map Int.ofNat) = none := by
  unfold orderError
  rw [if_neg (by rw [List.length_map, h.length_eq, List.length_range]; exact not_not.mpr rfl)]
  refine scanOrder_of_nodup (fun j hj => List.mem_range.mp (h.mem_iff.mp hj)) (h.nodup_iff.mpr List.nodup_range)
    fun j hj => ?_
  rw [List.getD_eq_getElem?_getD, List.getElem?_replicate_of_lt (List.mem_range.mp (h.mem_iff.mp hj))]
  rfl

/-- A permutation of the items is applied, and nothing else changes. -/
theorem apply_order {execute : OperatorInput → Except PineError OperatorOutput} {op : String} {spec : InputFieldSpec}
    {s : FrameState S.σ} {order : List Nat} (hperm : order.Perm (List.range (S.rowCount s)))
    (hout : execute (S.input spec s) = .ok { itemOrder := some (order.map Int.ofNat) }) :
    ∃ t, S.apply execute op spec s = .ok t ∧ S.Gathered s order t ∧ t.common = s.common := by
  have herror := @orderError_of_perm op _ _ hperm
  have hvalid := validOrder_of_orderError herror
  have hslots : (order.map Int.ofNat).map Int.toNat = order := by
    rw [List.map_map]
    exact List.map_id _
  refine ⟨{ s with items := S.store.reorderRows (order.map Int.ofNat) s.items }, ?_, ⟨?_, ?_⟩, rfl⟩
  · unfold apply
    rw [hout]
    have hreorder : applyReorder S.store op (some (order.map Int.ofNat)) s =
        .ok { s with items := S.store.reorderRows (order.map Int.ofNat) s.items } := by
      unfold applyReorder
      dsimp only
      rw [show orderError op (S.store.rowCount s.items) (order.map Int.ofNat) = none from herror]
      rfl
    exact (congrArg (fun o => (o.andThen (applyAdditions S.store op false [])).andThen (applyWarning op none)) hreorder)
  · exact (S.lawful.rowCount_reorderRows _ _ hvalid).trans (by rw [hperm.length_eq, List.length_range]; rfl)
  · intro k f
    rw [S.lawful.cell_reorderRows _ _ hvalid, hslots]

/-- No output leaves the items in their order. -/
theorem apply_none {execute : OperatorInput → Except PineError OperatorOutput} {op : String} {spec : InputFieldSpec}
    {s : FrameState S.σ} (hout : execute (S.input spec s) = .ok {}) : S.apply execute op spec s = .ok s := by
  unfold apply
  rw [hout]
  rfl

theorem gathered_range (s : FrameState S.σ) : S.Gathered s (List.range (S.rowCount s)) s := by
  refine ⟨List.length_range.symm, fun k f => ?_⟩
  by_cases hk : k < S.rowCount s
  · rw [List.getElem?_range hk]
    rfl
  · rw [List.getElem?_eq_none (by rw [List.length_range]; omega)]
    exact S.lawful.cell_none _ _ _ (Nat.le_of_not_lt hk)

/-! ## Outputs that remove -/

/-- The output of an operator that calls `remove_item` for each of these. -/
def removing (removed : List Nat) : OperatorOutput :=
  { removedItems := SortedMap.ofList (removed.map fun j => (Int.ofNat j, ())) }

theorem mem_removing {removed : List Nat} {idx : Int} : idx ∈ (removing removed).removedItems.keys ↔
    ∃ j ∈ removed, Int.ofNat j = idx := by
  unfold removing
  rw [SortedMap.mem_keys, SortedMap.contains_ofList, List.map_map, List.mem_map]
  rfl

theorem removalError_removing {op : String} {n : Nat} {removed : List Nat} (hlt : ∀ j ∈ removed, j < n) :
    removalError op n (removing removed).removedItems.keys = none := by
  refine removalError_eq_none.mpr fun idx hidx => ?_
  obtain ⟨j, hj, rfl⟩ := mem_removing.mp hidx
  have := hlt j hj
  unfold OutOfRange
  simp only [Int.ofNat_eq_natCast, Int.toNat_natCast]
  omega

theorem keptRows_removing (n : Nat) (removed : List Nat) :
    keptRows n (removing removed).removedItems.keys = (List.range n).filter fun i => i ∉ removed := by
  unfold keptRows
  refine List.filter_congr fun i _ => ?_
  rw [Bool.eq_iff_iff, Bool.not_eq_true', decide_eq_true_iff, ← Bool.not_eq_true, List.contains_iff_mem, mem_removing]
  refine not_congr ⟨?_, fun h => ⟨i, h, rfl⟩⟩
  rintro ⟨j, hj, heq⟩
  exact Int.ofNat.inj heq ▸ hj

/-- Items are removed, and nothing else changes. -/
theorem apply_removal {execute : OperatorInput → Except PineError OperatorOutput} {op : String} {spec : InputFieldSpec}
    {s : FrameState S.σ} {removed : List Nat} (hlt : ∀ j ∈ removed, j < S.rowCount s)
    (hout : execute (S.input spec s) = .ok (removing removed)) :
    ∃ t, S.apply execute op spec s = .ok t ∧
      S.Gathered s ((List.range (S.rowCount s)).filter fun i => i ∉ removed) t ∧ t.common = s.common := by
  rcases removed with _ | ⟨j, rest⟩
  · have hrange : (List.range (S.rowCount s)).filter (fun i => i ∉ ([] : List Nat)) = List.range (S.rowCount s) := by
      simp
    rw [hrange]
    exact ⟨s, apply_none hout, gathered_range s, rfl⟩
  generalize hall : j :: rest = removed at *
  have hkeys : (removing removed).removedItems.keys.isEmpty = false := by
    have hmem : Int.ofNat j ∈ (removing removed).removedItems.keys :=
      mem_removing.mpr ⟨j, hall ▸ List.mem_cons_self, rfl⟩
    rw [List.isEmpty_eq_false_iff]
    exact List.ne_nil_of_mem hmem
  have herror := @removalError_removing op _ _ hlt
  have hvalid : ValidRemoval (S.rowCount s) (removing removed).removedItems.keys :=
    ⟨removalError_eq_none.mp herror, SortedMap.keys_nodup _⟩
  have hkept := keptRows_removing (S.rowCount s) removed
  refine ⟨{ s with items := S.store.removeRows (removing removed).removedItems.keys s.items }, ?_, ⟨?_, ?_⟩, rfl⟩
  · unfold apply
    rw [hout]
    have hremove : applyRemovals S.store op (removing removed).removedItems.keys s =
        .ok { s with items := S.store.removeRows (removing removed).removedItems.keys s.items } := by
      unfold applyRemovals
      rw [hkeys, show removalError op (S.store.rowCount s.items) (removing removed).removedItems.keys = none from herror]
      rfl
    exact congrArg (fun o => (((o.andThen (applyReorder S.store op none)).andThen
      (applyAdditions S.store op false [])).andThen (applyWarning op none))) hremove
  · rw [← hkept, length_keptRows hvalid]
    exact S.lawful.rowCount_removeRows _ _ hvalid
  · intro k f
    rw [← hkept]
    exact S.lawful.cell_removeRows _ _ hvalid k f

end FrameStorage

end Pineapple
