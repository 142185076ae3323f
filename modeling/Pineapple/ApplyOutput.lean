import Mathlib.Data.List.Perm.Basic
import Mathlib.Data.List.TakeWhile
import Pineapple.Frame
import Pineapple.Lib.InPlace

/-! # How `apply_output` ends

What the checks of the phases tell about indices, the laws both storages obey (`ItemStore.Lawful`), and
from these alone where a call of `apply_output` stops and what it leaves there. -/

namespace Pineapple

/-! ## Indices that pass the checks -/

/-- A set of indices that may be removed from `n` rows. -/
structure ValidRemoval (n : Nat) (removed : List Int) : Prop where
  inRange : ∀ idx ∈ removed, ¬ OutOfRange n idx
  nodup : removed.Nodup

/-- An order that names every one of `n` rows once. -/
structure ValidOrder (n : Nat) (order : List Int) : Prop where
  length : order.length = n
  inRange : ∀ idx ∈ order, ¬ OutOfRange n idx
  nodup : (order.map Int.toNat).Nodup

/-- The rows a removal leaves. -/
def keptRows (n : Nat) (removed : List Int) : List Nat :=
  (List.range n).filter fun i => !removed.contains (i : Int)

theorem not_outOfRange {n : Nat} {idx : Int} (h : ¬ OutOfRange n idx) : 0 ≤ idx ∧ idx.toNat < n := by
  simp only [OutOfRange, not_or] at h
  omega

theorem removalError_eq_none {op : String} {n : Nat} {removed : List Int} :
    removalError op n removed = none ↔ ∀ idx ∈ removed, ¬ OutOfRange n idx := by
  rw [removalError, List.findSome?_eq_none_iff]
  constructor
  · intro h idx hidx ho
    exact absurd (h idx hidx) (by simp [ho])
  · intro h idx hidx
    rw [if_neg (h idx hidx)]

theorem scanOrder_eq_none {op : String} {n : Nat} {order : List Int} {seen : List Bool} (hlen : seen.length = n)
    (h : scanOrder op n seen order = none) :
    (∀ idx ∈ order, ¬ OutOfRange n idx ∧ seen.getD idx.toNat false = false) ∧ (order.map Int.toNat).Nodup := by
  induction order generalizing seen with
  | nil => simp
  | cons idx rest ih =>
    rw [scanOrder] at h
    split at h
    · exact absurd h (by simp)
    · next hrange =>
      split at h
      · exact absurd h (by simp)
      · next hseen =>
        obtain ⟨hrest, hnd⟩ := ih (by simpa using hlen) h
        have hidx : idx.toNat < seen.length := hlen ▸ (not_outOfRange hrange).2
        have hne : ∀ j ∈ rest, j.toNat ≠ idx.toNat ∧ seen.getD j.toNat false = false := by
          intro j hj
          have := (hrest j hj).2
          rw [List.getD_eq_getElem?_getD, List.getElem?_set] at this
          split at this
          · simp at this
          · next heq => exact ⟨Ne.symm heq, by rw [List.getD_eq_getElem?_getD]; exact this⟩
        constructor
        · intro j hj
          rcases List.mem_cons.mp hj with rfl | hj
          · exact ⟨hrange, by simpa using hseen⟩
          · exact ⟨(hrest j hj).1, (hne j hj).2⟩
        · rw [List.map_cons, List.nodup_cons]
          refine ⟨fun hmem => ?_, hnd⟩
          obtain ⟨j, hj, heq⟩ := List.mem_map.mp hmem
          exact (hne j hj).1 heq

theorem validOrder_of_orderError {op : String} {n : Nat} {order : List Int} (h : orderError op n order = none) :
    ValidOrder n order := by
  rw [orderError] at h
  split at h
  · exact absurd h (by simp)
  · next hlen =>
    obtain ⟨hrange, hnd⟩ := scanOrder_eq_none (by simp) h
    exact ⟨not_not.mp hlen, fun idx hidx => (hrange idx hidx).1, hnd⟩

theorem ValidOrder.isOrder {n : Nat} {order : List Int} (h : ValidOrder n order) :
    InPlace.IsOrder (order.map Int.toNat) := by
  refine ⟨fun j hj => ?_, h.nodup⟩
  obtain ⟨idx, hidx, rfl⟩ := List.mem_map.mp hj
  rw [List.length_map, h.length]
  exact (not_outOfRange (h.inRange idx hidx)).2

theorem lt_of_mem_keptRows {n : Nat} {removed : List Int} {j : Nat} (h : j ∈ keptRows n removed) : j < n := by
  simpa using (List.mem_filter.mp h).1

@[simp] theorem keptRows_nil (n : Nat) : keptRows n [] = List.range n := by simp [keptRows]

theorem length_keptRows {n : Nat} {removed : List Int} (h : ValidRemoval n removed) :
    (keptRows n removed).length = n - removed.length := by
  have hperm : ((List.range n).filter fun i : Nat => removed.contains (i : Int)).Perm (removed.map Int.toNat) := by
    rw [List.perm_ext_iff_of_nodup (List.nodup_range.filter _)]
    · intro i
      simp only [List.mem_filter, List.mem_range, List.contains_iff_mem, List.mem_map]
      constructor
      · rintro ⟨-, hi⟩
        exact ⟨i, hi, by simp⟩
      · rintro ⟨idx, hidx, rfl⟩
        obtain ⟨h0, hlt⟩ := not_outOfRange (h.inRange idx hidx)
        exact ⟨hlt, by rwa [Int.toNat_of_nonneg h0]⟩
    · rw [List.nodup_map_iff_inj_on h.nodup]
      intro a ha b hb hab
      have ha := (not_outOfRange (h.inRange a ha)).1
      have hb := (not_outOfRange (h.inRange b hb)).1
      omega
  have hsum := (List.range n).length_eq_length_filter_add fun i : Nat => removed.contains (i : Int)
  rw [List.length_range, hperm.length_eq, List.length_map] at hsum
  rw [keptRows]
  omega

/-- A removal of something leaves fewer rows. -/
theorem keptRows_eq_range {n : Nat} {removed : List Int} (h : ValidRemoval n removed) :
    keptRows n removed = List.range n ↔ removed = [] := by
  constructor
  · intro heq
    cases removed with
    | nil => rfl
    | cons idx rest =>
      obtain ⟨h0, hlt⟩ := not_outOfRange (h.inRange idx List.mem_cons_self)
      have hmem : idx.toNat ∈ keptRows n (idx :: rest) := heq ▸ List.mem_range.mpr hlt
      have := (List.mem_filter.mp hmem).2
      simp [Int.toNat_of_nonneg h0] at this
  · rintro rfl
    exact keptRows_nil n

theorem dropRows_eq_gather {α : Type} (removed : List Int) (xs : List α) :
    dropRows removed xs = InPlace.gather (keptRows xs.length removed) xs := by
  have H : ∀ (xs : List α) (k : Nat), ((xs.zipIdx k).filter fun p => !removed.contains (p.2 : Int)).map Prod.fst =
      InPlace.gather (((List.range xs.length).filter fun i => !removed.contains ((i + k : Nat) : Int))) xs := by
    intro xs
    induction xs with
    | nil => intro k; simp [InPlace.gather]
    | cons x xs ih =>
      intro k
      have ih := ih (k + 1)
      rw [List.zipIdx_cons, List.filter_cons, List.length_cons, List.range_succ_eq_map, List.filter_cons,
        List.filter_map]
      have hcomp : ((fun i => !removed.contains ((i + k : Nat) : Int)) ∘ Nat.succ) =
          fun i => !removed.contains ((i + (k + 1) : Nat) : Int) := by
        funext i
        simp only [Function.comp_apply, Nat.succ_eq_add_one]
        rw [show i + 1 + k = i + (k + 1) by omega]
      rw [hcomp, Nat.zero_add]
      split
      · rw [List.map_cons, ih]
        simp [InPlace.gather, List.filterMap_map]
      · rw [ih]
        simp [InPlace.gather, List.filterMap_map]
  simpa [keptRows, dropRows] using H xs 0

theorem gatherRows_eq_gather {α : Type} (order : List Int) (xs : List α) :
    gatherRows order xs = InPlace.gather (order.map Int.toNat) xs := by
  simp [gatherRows, InPlace.gather, List.filterMap_map]

/-! ## The laws of a storage -/

variable {σ : Type}

/-- What the primitive mutations of a storage do to its cells. `reads s f v` is what a cell of the
field `f` reads after `v` was written to it: `v`, or the positive zero for a negative one. -/
structure ItemStore.Lawful (S : ItemStore σ) (cell : σ → Nat → String → Option Variant)
    (reads : σ → String → Variant → Variant) : Prop where
  cell_none : ∀ s i f, S.rowCount s ≤ i → cell s i f = none
  reads_eq : ∀ s f v, reads s f v = v ∨ v = .number .negZero ∧ reads s f v = .number .zero
  rowCount_writeField : ∀ s i f v, i < S.rowCount s → S.rowCount (S.writeField i f v s) = S.rowCount s
  cell_writeField : ∀ s i f v, i < S.rowCount s → ∀ j g, cell (S.writeField i f v s) j g =
    if j = i ∧ g = f then some (reads s f v) else cell s j g
  rowCount_writeColumn : ∀ s f vals, vals.length = S.rowCount s → S.rowCount (S.writeColumn f vals s) = S.rowCount s
  cell_writeColumn : ∀ s f vals, vals.length = S.rowCount s → ∀ j g, cell (S.writeColumn f vals s) j g =
    if g = f then vals[j]?.map Variant.number else cell s j g
  rowCount_removeRows : ∀ s removed, ValidRemoval (S.rowCount s) removed →
    S.rowCount (S.removeRows removed s) = S.rowCount s - removed.length
  cell_removeRows : ∀ s removed, ValidRemoval (S.rowCount s) removed → ∀ k f,
    cell (S.removeRows removed s) k f = (keptRows (S.rowCount s) removed)[k]?.bind fun j => cell s j f
  rowCount_reorderRows : ∀ s order, ValidOrder (S.rowCount s) order →
    S.rowCount (S.reorderRows order s) = S.rowCount s
  cell_reorderRows : ∀ s order, ValidOrder (S.rowCount s) order → ∀ k f,
    cell (S.reorderRows order s) k f = (order.map Int.toNat)[k]?.bind fun j => cell s j f
  /-- The additions stop at the first row with a bad field, -/
  error_addItems : ∀ s op isRecall added, (S.addItems op isRecall added s).error? =
    added.findSome? fun row => row.entries.findSome? (addedFieldError op)
  /-- leave the rows before them alone, -/
  cell_addItems : ∀ s op isRecall added i f, i < S.rowCount s →
    cell (S.addItems op isRecall added s).state i f = cell s i f
  rowCount_addItems : ∀ s op isRecall added, S.rowCount s ≤ S.rowCount (S.addItems op isRecall added s).state
  /-- and store checked values only. -/
  valid_addItems : ∀ s op isRecall added i f v, S.rowCount s ≤ i →
    cell (S.addItems op isRecall added s).state i f = some v → validateFrameValue f v = none

/-! ## Where a call stops -/

namespace OperatorOutput
variable (out : OperatorOutput) (op : String) (n : Nat)

/-- The indices of `removedItems`, ascending. -/
def removed : List Int := out.removedItems.keys

/-- The first error of the write phases on `n` items. -/
def writeError : Option PineError :=
  (out.commonWrites.entries.findSome? (commonWriteError op)).or
    ((out.itemWrites.findSome? (itemWriteError op n)).or (out.columnWrites.findSome? (columnWriteError op n)))

/-- The removals' error. -/
def removeError : Option PineError := if out.removed.isEmpty then none else removalError op n out.removed

/-- The order's error, on the rows that are there then. -/
def reorderError : Option PineError := out.itemOrder.bind (orderError op n)

def additionError : Option PineError := out.addedItems.findSome? fun row => row.entries.findSome? (addedFieldError op)

/-- The common writes, item writes and column writes done before the first error of these phases. -/
def appliedCommonWrites : List (String × Variant) :=
  out.commonWrites.entries.takeWhile fun w => (commonWriteError op w).isNone

def appliedItemWrites : List ItemWrite :=
  if (out.commonWrites.entries.findSome? (commonWriteError op)).isNone then
    out.itemWrites.takeWhile fun w => (itemWriteError op n w).isNone
  else []

def appliedColumnWrites : List DoubleColumnWrite :=
  if (out.commonWrites.entries.findSome? (commonWriteError op)).isNone ∧
      (out.itemWrites.findSome? (itemWriteError op n)).isNone then
    out.columnWrites.takeWhile fun cw => (columnWriteError op n cw).isNone
  else []

end OperatorOutput

namespace ItemStore
variable (S : ItemStore σ)

def writeFields (ws : List ItemWrite) (items : σ) : σ :=
  ws.foldl (fun s w => S.writeField w.index.toNat w.field w.value s) items

def writeColumns (cws : List DoubleColumnWrite) (items : σ) : σ :=
  cws.foldl (fun s cw => S.writeColumn cw.field cw.vals s) items

/-- The items after the write phases. -/
def written (out : OperatorOutput) (op : String) (items : σ) : σ :=
  S.writeColumns (out.appliedColumnWrites op (S.rowCount items))
    (S.writeFields (out.appliedItemWrites op (S.rowCount items)) items)

/-- The items after valid removals. -/
def removedFrom (out : OperatorOutput) (items : σ) : σ :=
  if out.removed.isEmpty then items else S.removeRows out.removed items

/-- The items after a valid order. -/
def reordered (out : OperatorOutput) (items : σ) : σ :=
  match out.itemOrder with
  | none => items
  | some order => S.reorderRows order items

/-- The items after additions, also when they stopped. -/
def added (out : OperatorOutput) (op : String) (isRecall : Bool) (items : σ) : σ :=
  if out.addedItems.isEmpty then items else (S.addItems op isRecall out.addedItems items).state

end ItemStore

def FrameState.onItems (s : FrameState σ) (g : σ → σ) : FrameState σ := { s with items := g s.items }

/-- The frame with the output's warning. -/
def FrameState.warned (s : FrameState σ) (out : OperatorOutput) (op : String) : FrameState σ :=
  { s with warnings := s.warnings ++ (out.warning.map fun msg => "operator \"" ++ op ++ "\": " ++ msg).toList }

def insertAll (ws : List (String × Variant)) (common : Row) : Row :=
  ws.foldl (fun c w => c.insert w.1 w.2) common

/-- The frame after the write phases. -/
def FrameState.afterWrites (S : ItemStore σ) (s : FrameState σ) (out : OperatorOutput) (op : String) : FrameState σ :=
  { s with
    common := insertAll (out.appliedCommonWrites op) s.common
    items := S.written out op s.items }

section Phases
variable {S : ItemStore σ} {cell : σ → Nat → String → Option Variant} {reads : σ → String → Variant → Variant}

theorem lt_of_itemWriteError {op : String} {n : Nat} {w : ItemWrite} (h : itemWriteError op n w = none) :
    w.index.toNat < n ∧ validateFrameValue w.field w.value = none := by
  rw [itemWriteError] at h
  split at h
  · exact absurd h (by simp)
  · next hrange => exact ⟨(not_outOfRange hrange).2, by simpa using h⟩

theorem length_of_columnWriteError {op : String} {n : Nat} {cw : DoubleColumnWrite}
    (h : columnWriteError op n cw = none) : cw.vals.length = n ∧ ∀ d ∈ cw.vals, d.isFinite = true := by
  rw [columnWriteError] at h
  split at h
  · exact absurd h (by simp)
  · next hlen =>
    refine ⟨not_not.mp hlen, fun d hd => ?_⟩
    rw [Option.map_eq_none_iff, List.findIdx?_eq_none_iff] at h
    simpa using h d hd

theorem applyCommonWrites_eq (op : String) (ws : List (String × Variant)) (s : FrameState σ) :
    applyCommonWrites op ws s = Outcome.checked (ws.findSome? (commonWriteError op)) id
      { s with common := insertAll (ws.takeWhile fun w => (commonWriteError op w).isNone) s.common } := by
  rw [applyCommonWrites, Outcome.forEach_checked]
  congr 1
  generalize ws.takeWhile _ = l
  induction l generalizing s with
  | nil => rfl
  | cons w l ih => rw [List.foldl_cons, ih]; rfl

theorem applyItemWrites_eq (h : S.Lawful cell reads) (op : String) (ws : List ItemWrite) (s : FrameState σ) :
    applyItemWrites S op ws s = Outcome.checked (ws.findSome? (itemWriteError op (S.rowCount s.items))) id
      { s with items :=
          S.writeFields (ws.takeWhile fun w => (itemWriteError op (S.rowCount s.items) w).isNone) s.items } := by
  obtain ⟨n, hn⟩ : ∃ n, n = S.rowCount s.items := ⟨_, rfl⟩
  rw [applyItemWrites, ← hn]
  rw [Outcome.forEach_congr (P := fun t => S.rowCount t.items = n)
    (g := fun w => Outcome.checked (itemWriteError op n w) fun t =>
      { t with items := S.writeField w.index.toNat w.field w.value t.items }) ws _ _ hn.symm,
    Outcome.forEach_checked]
  · congr 1
    generalize ws.takeWhile _ = l
    clear hn
    induction l generalizing s with
    | nil => rfl
    | cons w l ih => rw [List.foldl_cons, ih]; rfl
  · intro w _ t ht
    rw [ht]
  · intro w _
    refine Outcome.Keeps.checked _ fun hw t ht => ?_
    exact (h.rowCount_writeField _ _ _ _ (ht ▸ (lt_of_itemWriteError hw).1)).trans ht

theorem applyColumnWrites_eq (h : S.Lawful cell reads) (op : String) (cws : List DoubleColumnWrite)
    (s : FrameState σ) :
    applyColumnWrites S op cws s = Outcome.checked (cws.findSome? (columnWriteError op (S.rowCount s.items))) id
      { s with items :=
          S.writeColumns (cws.takeWhile fun cw => (columnWriteError op (S.rowCount s.items) cw).isNone) s.items } := by
  obtain ⟨n, hn⟩ : ∃ n, n = S.rowCount s.items := ⟨_, rfl⟩
  rw [applyColumnWrites, ← hn]
  rw [Outcome.forEach_congr (P := fun t => S.rowCount t.items = n)
    (g := fun cw => Outcome.checked (columnWriteError op n cw) fun t =>
      { t with items := S.writeColumn cw.field cw.vals t.items }) cws _ _ hn.symm,
    Outcome.forEach_checked]
  · congr 1
    generalize cws.takeWhile _ = l
    clear hn
    induction l generalizing s with
    | nil => rfl
    | cons w l ih => rw [List.foldl_cons, ih]; rfl
  · intro cw _ t ht
    rw [ht]
  · intro cw _
    refine Outcome.Keeps.checked _ fun hcw t ht => ?_
    exact (h.rowCount_writeColumn _ _ _ (ht ▸ (length_of_columnWriteError hcw).1)).trans ht

theorem itemWriteError_of_mem_applied {out : OperatorOutput} {op : String} {n : Nat} {w : ItemWrite}
    (h : w ∈ out.appliedItemWrites op n) : itemWriteError op n w = none := by
  rw [OperatorOutput.appliedItemWrites] at h
  split at h
  · simpa using List.mem_takeWhile_imp h
  · exact absurd h (by simp)

theorem columnWriteError_of_mem_applied {out : OperatorOutput} {op : String} {n : Nat} {cw : DoubleColumnWrite}
    (h : cw ∈ out.appliedColumnWrites op n) : columnWriteError op n cw = none := by
  rw [OperatorOutput.appliedColumnWrites] at h
  split at h
  · simpa using List.mem_takeWhile_imp h
  · exact absurd h (by simp)

theorem rowCount_writeFields (h : S.Lawful cell reads) {ws : List ItemWrite} {items : σ} {op : String}
    (hws : ∀ w ∈ ws, itemWriteError op (S.rowCount items) w = none) :
    S.rowCount (S.writeFields ws items) = S.rowCount items := by
  induction ws generalizing items with
  | nil => rfl
  | cons w ws ih =>
    have hw := h.rowCount_writeField items w.index.toNat w.field w.value
      (lt_of_itemWriteError (hws w List.mem_cons_self)).1
    have hrest : ∀ w' ∈ ws, itemWriteError op (S.rowCount (S.writeField w.index.toNat w.field w.value items)) w' = none :=
      fun w' hw' => hw.symm ▸ hws w' (List.mem_cons_of_mem _ hw')
    exact (ih hrest).trans hw

theorem rowCount_writeColumns (h : S.Lawful cell reads) {cws : List DoubleColumnWrite} {items : σ} {op : String}
    (hcws : ∀ cw ∈ cws, columnWriteError op (S.rowCount items) cw = none) :
    S.rowCount (S.writeColumns cws items) = S.rowCount items := by
  induction cws generalizing items with
  | nil => rfl
  | cons cw cws ih =>
    have hcw := h.rowCount_writeColumn items cw.field cw.vals
      (length_of_columnWriteError (hcws cw List.mem_cons_self)).1
    have hrest : ∀ cw' ∈ cws, columnWriteError op (S.rowCount (S.writeColumn cw.field cw.vals items)) cw' = none :=
      fun cw' hcw' => hcw.symm ▸ hcws cw' (List.mem_cons_of_mem _ hcw')
    exact (ih hrest).trans hcw

theorem rowCount_written (h : S.Lawful cell reads) (out : OperatorOutput) (op : String) (items : σ) :
    S.rowCount (S.written out op items) = S.rowCount items := by
  have hw : S.rowCount (S.writeFields (out.appliedItemWrites op (S.rowCount items)) items) = S.rowCount items :=
    rowCount_writeFields h fun w hw => itemWriteError_of_mem_applied hw
  have hcws : ∀ cw ∈ out.appliedColumnWrites op (S.rowCount items), columnWriteError op
      (S.rowCount (S.writeFields (out.appliedItemWrites op (S.rowCount items)) items)) cw = none := fun cw hcw =>
    hw.symm ▸ columnWriteError_of_mem_applied hcw
  exact (rowCount_writeColumns h hcws).trans hw

theorem applyWrites_eq (h : S.Lawful cell reads) (out : OperatorOutput) (op : String) (s : FrameState σ) :
    ((applyCommonWrites op out.commonWrites.entries s).andThen (applyItemWrites S op out.itemWrites)).andThen
        (applyColumnWrites S op out.columnWrites) =
      Outcome.checked (out.writeError op (S.rowCount s.items)) id (s.afterWrites S out op) := by
  rw [applyCommonWrites_eq]
  simp only [OperatorOutput.writeError, FrameState.afterWrites, OperatorOutput.appliedCommonWrites, ItemStore.written,
    OperatorOutput.appliedItemWrites, OperatorOutput.appliedColumnWrites]
  cases hc : out.commonWrites.entries.findSome? (commonWriteError op) with
  | some e => rfl
  | none =>
    simp only [Outcome.checked_none, Outcome.ok_andThen, id_eq, applyItemWrites_eq h, Option.isNone_none, true_and,
      if_true, Option.none_or]
    cases hi : out.itemWrites.findSome? (itemWriteError op (S.rowCount s.items)) with
    | some e => rfl
    | none =>
      have hall : ∀ w ∈ out.itemWrites.takeWhile fun w => (itemWriteError op (S.rowCount s.items) w).isNone,
          itemWriteError op (S.rowCount s.items) w = none := fun w hw => by
        simpa using List.mem_takeWhile_imp hw
      simp only [Outcome.checked_none, Outcome.ok_andThen, id_eq, applyColumnWrites_eq h,
        rowCount_writeFields h hall, Option.isNone_none, if_true, Option.none_or]

theorem validRemoval {out : OperatorOutput} {op : String} {n : Nat} (h : out.removeError op n = none) :
    ValidRemoval n out.removed := by
  refine ⟨fun idx hidx => ?_, out.removedItems.keys_nodup⟩
  rw [OperatorOutput.removeError] at h
  split at h
  · next hnil =>
    rw [List.isEmpty_iff.mp hnil] at hidx
    exact absurd hidx (by simp)
  · exact removalError_eq_none.mp h idx hidx

theorem rowCount_removedFrom (h : S.Lawful cell reads) {out : OperatorOutput} {items : σ}
    (hv : ValidRemoval (S.rowCount items) out.removed) :
    S.rowCount (S.removedFrom out items) = S.rowCount items - out.removed.length := by
  rw [ItemStore.removedFrom]
  split
  · next hnil => rw [List.isEmpty_iff.mp hnil]; rfl
  · exact h.rowCount_removeRows items _ hv

theorem cell_removedFrom (h : S.Lawful cell reads) {out : OperatorOutput} {items : σ}
    (hv : ValidRemoval (S.rowCount items) out.removed) (k : Nat) (f : String) :
    cell (S.removedFrom out items) k f =
      (keptRows (S.rowCount items) out.removed)[k]?.bind fun j => cell items j f := by
  rw [ItemStore.removedFrom]
  split
  · next hnil =>
    rw [List.isEmpty_iff.mp hnil, keptRows_nil]
    by_cases hk : k < S.rowCount items
    · simp [List.getElem?_range hk]
    · rw [h.cell_none items k f (by omega), List.getElem?_eq_none (by simpa using hk)]
      rfl
  · exact h.cell_removeRows items _ hv k f

/-- The slots an order gathers; without an order every row stays. -/
def OperatorOutput.orderSlots (out : OperatorOutput) (n : Nat) : List Nat :=
  match out.itemOrder with
  | none => List.range n
  | some order => order.map Int.toNat

theorem rowCount_reordered (h : S.Lawful cell reads) {out : OperatorOutput} {op : String} {items : σ}
    (ho : out.reorderError op (S.rowCount items) = none) : S.rowCount (S.reordered out items) = S.rowCount items := by
  rw [ItemStore.reordered]
  split
  · rfl
  · next order horder =>
    rw [OperatorOutput.reorderError, horder] at ho
    exact h.rowCount_reorderRows items _ (validOrder_of_orderError ho)

theorem cell_reordered (h : S.Lawful cell reads) {out : OperatorOutput} {op : String} {items : σ}
    (ho : out.reorderError op (S.rowCount items) = none) (k : Nat) (f : String) :
    cell (S.reordered out items) k f = (out.orderSlots (S.rowCount items))[k]?.bind fun j => cell items j f := by
  rw [ItemStore.reordered, OperatorOutput.orderSlots]
  split
  · by_cases hk : k < S.rowCount items
    · simp [List.getElem?_range hk]
    · rw [h.cell_none items k f (by omega), List.getElem?_eq_none (by simpa using hk)]
      rfl
  · next order horder =>
    rw [OperatorOutput.reorderError, horder] at ho
    exact h.cell_reorderRows items _ (validOrder_of_orderError ho) k f

theorem applyRemovals_eq (out : OperatorOutput) (op : String) (t : FrameState σ) :
    applyRemovals S op out.removed t =
      Outcome.checked (out.removeError op (S.rowCount t.items)) (·.onItems (S.removedFrom out)) t := by
  rw [applyRemovals, OperatorOutput.removeError]
  by_cases hnil : out.removed.isEmpty
  · rw [if_pos hnil, if_pos hnil, Outcome.checked_none]
    simp only [FrameState.onItems, ItemStore.removedFrom, if_pos hnil]
  · rw [if_neg hnil, if_neg hnil]
    simp only [FrameState.onItems, ItemStore.removedFrom, if_neg hnil]

theorem applyReorder_eq (out : OperatorOutput) (op : String) (t : FrameState σ) :
    applyReorder S op out.itemOrder t =
      Outcome.checked (out.reorderError op (S.rowCount t.items)) (·.onItems (S.reordered out)) t := by
  simp only [applyReorder, OperatorOutput.reorderError, FrameState.onItems, ItemStore.reordered]
  cases out.itemOrder <;> rfl

theorem applyAdditions_eq (h : S.Lawful cell reads) (out : OperatorOutput) (op : String) (isRecall : Bool)
    (t : FrameState σ) :
    applyAdditions S op isRecall out.addedItems t =
      Outcome.checked (out.additionError op) id (t.onItems (S.added out op isRecall)) := by
  have herr := h.error_addItems t.items op isRecall out.addedItems
  simp only [applyAdditions, FrameState.onItems, ItemStore.added]
  split
  · next hnil =>
    rw [OperatorOutput.additionError, List.isEmpty_iff.mp hnil]
    rfl
  · cases ha : out.additionError op with
    | some e => rw [Outcome.eq_fail_of_error? (herr.trans ha)]; rfl
    | none => rw [Outcome.eq_ok_of_error? (herr.trans ha)]; rfl

/-- The ways a call of `apply_output` ends: the phase that failed with the checks passed before it, and
what was done by then. -/
inductive ItemStore.Ends (S : ItemStore σ) (out : OperatorOutput) (op : String) (isRecall : Bool)
    (s : FrameState σ) : Outcome PineError (FrameState σ) → Prop where
  | writes (e : PineError) : out.writeError op (S.rowCount s.items) = some e →
      Ends S out op isRecall s (.fail e (s.afterWrites S out op))
  | removals (e : PineError) : out.writeError op (S.rowCount s.items) = none →
      out.removeError op (S.rowCount s.items) = some e →
      Ends S out op isRecall s (.fail e (s.afterWrites S out op))
  | order (e : PineError) : out.writeError op (S.rowCount s.items) = none →
      out.removeError op (S.rowCount s.items) = none →
      out.reorderError op (S.rowCount s.items - out.removed.length) = some e →
      Ends S out op isRecall s (.fail e ((s.afterWrites S out op).onItems (S.removedFrom out)))
  | additions (e : PineError) : out.writeError op (S.rowCount s.items) = none →
      out.removeError op (S.rowCount s.items) = none →
      out.reorderError op (S.rowCount s.items - out.removed.length) = none →
      out.additionError op = some e →
      Ends S out op isRecall s (.fail e ((((s.afterWrites S out op).onItems (S.removedFrom out)).onItems
        (S.reordered out)).onItems (S.added out op isRecall)))
  | ok : out.writeError op (S.rowCount s.items) = none →
      out.removeError op (S.rowCount s.items) = none →
      out.reorderError op (S.rowCount s.items - out.removed.length) = none →
      out.additionError op = none →
      Ends S out op isRecall s (.ok (((((s.afterWrites S out op).onItems (S.removedFrom out)).onItems
        (S.reordered out)).onItems (S.added out op isRecall)).warned out op))

theorem applyOutputWith_ends (h : S.Lawful cell reads) (out : OperatorOutput) (op : String) (isRecall : Bool)
    (s : FrameState σ) : S.Ends out op isRecall s (applyOutputWith S out op isRecall s) := by
  have hwritten : S.rowCount (s.afterWrites S out op).items = S.rowCount s.items :=
    rowCount_written h out op s.items
  rw [applyOutputWith, applyWrites_eq h]
  cases hw : out.writeError op (S.rowCount s.items) with
  | some e => exact .writes e hw
  | none =>
    rw [Outcome.checked_none, id_eq, Outcome.ok_andThen, show out.removedItems.keys = out.removed from rfl,
      applyRemovals_eq, hwritten]
    cases hr : out.removeError op (S.rowCount s.items) with
    | some e => exact .removals e hw hr
    | none =>
      have hrows : S.rowCount ((s.afterWrites S out op).onItems (S.removedFrom out)).items =
          S.rowCount s.items - out.removed.length := by
        have hv := validRemoval hr
        rw [← hwritten] at hv
        exact (rowCount_removedFrom h hv).trans (by rw [hwritten])
      rw [Outcome.checked_none, Outcome.ok_andThen, applyReorder_eq, hrows]
      cases ho : out.reorderError op (S.rowCount s.items - out.removed.length) with
      | some e => exact .order e hw hr ho
      | none =>
        rw [Outcome.checked_none, Outcome.ok_andThen, applyAdditions_eq h]
        cases ha : out.additionError op with
        | some e => exact .additions e hw hr ho ha
        | none =>
          have hends := @ItemStore.Ends.ok _ S _ _ isRecall _ hw hr ho ha
          rw [Outcome.checked_none, Outcome.ok_andThen, id_eq]
          cases hwarn : out.warning with
          | none => simpa [applyWarning, FrameState.warned, hwarn] using hends
          | some msg => simpa [applyWarning, FrameState.warned, hwarn] using hends

end Phases

end Pineapple
