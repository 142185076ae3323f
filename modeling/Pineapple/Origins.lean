import Pineapple.ApplyOutput

/-! # Where the rows after a call come from

`ItemStore.withOrigins` is a storage that carries, beside the rows, the position each of them had before
the call (nothing for an added row). Its runs are the runs of the storage itself, and a cell whose
field no write of the output names is the cell of the row's origin. -/

namespace Pineapple

/-- The position of a row before the call; nothing for an added row. -/
abbrev Origin := Option Nat

variable {σ : Type}

/-- The storage `S` with the origins of its rows. -/
def ItemStore.withOrigins (S : ItemStore σ) : ItemStore (σ × List Origin) where
  rowCount s := S.rowCount s.1
  writeField idx field value s := (S.writeField idx field value s.1, s.2)
  writeColumn field vals s := (S.writeColumn field vals s.1, s.2)
  removeRows removed s := (S.removeRows removed s.1, dropRows removed s.2)
  reorderRows order s := (S.reorderRows order s.1, gatherRows order s.2)
  addItems op isRecall added s := (S.addItems op isRecall added s.1).map fun t =>
    (t, s.2 ++ List.replicate (S.rowCount t - S.rowCount s.1) none)

/-- The frame with every row at its own place. -/
def FrameState.withOrigins (S : ItemStore σ) (f : FrameState σ) : FrameState (σ × List Origin) :=
  ⟨f.common, (f.items, (List.range (S.rowCount f.items)).map some), f.warnings⟩

/-- The origins of the rows a call of `apply_output` leaves. -/
def ItemStore.originsAfter (S : ItemStore σ) (f : FrameState σ) (out : OperatorOutput) (op : String)
    (isRecall : Bool) : List Origin :=
  (applyOutputWith S.withOrigins out op isRecall (f.withOrigins S)).state.items.2

section
variable {S : ItemStore σ} {cell : σ → Nat → String → Option Variant} {reads : σ → String → Variant → Variant}

theorem ItemStore.Lawful.withOrigins (h : S.Lawful cell reads) :
    S.withOrigins.Lawful (fun s => cell s.1) (fun s => reads s.1) where
  cell_none s := h.cell_none s.1
  reads_eq s := h.reads_eq s.1
  rowCount_writeField s := h.rowCount_writeField s.1
  cell_writeField s := h.cell_writeField s.1
  rowCount_writeColumn s := h.rowCount_writeColumn s.1
  cell_writeColumn s := h.cell_writeColumn s.1
  rowCount_removeRows s := h.rowCount_removeRows s.1
  cell_removeRows s := h.cell_removeRows s.1
  rowCount_reorderRows s := h.rowCount_reorderRows s.1
  cell_reorderRows s := h.cell_reorderRows s.1
  error_addItems s op isRecall added := (Outcome.error?_map ..).trans (h.error_addItems s.1 op isRecall added)
  cell_addItems s op isRecall added i f hi := by
    simp only [ItemStore.withOrigins, Outcome.state_map]
    exact h.cell_addItems s.1 op isRecall added i f hi
  rowCount_addItems s op isRecall added := by
    simp only [ItemStore.withOrigins, Outcome.state_map]
    exact h.rowCount_addItems s.1 op isRecall added
  valid_addItems s op isRecall added i f v hi hv := by
    simp only [ItemStore.withOrigins, Outcome.state_map] at hv
    exact h.valid_addItems s.1 op isRecall added i f v hi hv

/-! ## The parts of a run with origins -/

theorem writeFields_withOrigins (ws : List ItemWrite) (s : σ × List Origin) :
    S.withOrigins.writeFields ws s = (S.writeFields ws s.1, s.2) := by
  induction ws generalizing s with
  | nil => rfl
  | cons w ws ih => exact ih _

theorem writeColumns_withOrigins (cws : List DoubleColumnWrite) (s : σ × List Origin) :
    S.withOrigins.writeColumns cws s = (S.writeColumns cws s.1, s.2) := by
  induction cws generalizing s with
  | nil => rfl
  | cons cw cws ih => exact ih _

theorem written_withOrigins (out : OperatorOutput) (op : String) (s : σ × List Origin) :
    S.withOrigins.written out op s = (S.written out op s.1, s.2) := by
  rw [ItemStore.written, writeFields_withOrigins, writeColumns_withOrigins]
  rfl

theorem removedFrom_withOrigins (out : OperatorOutput) (s : σ × List Origin) :
    S.withOrigins.removedFrom out s =
      (S.removedFrom out s.1, if out.removed.isEmpty then s.2 else dropRows out.removed s.2) := by
  simp only [ItemStore.removedFrom]
  split <;> rfl

theorem reordered_withOrigins (out : OperatorOutput) (s : σ × List Origin) :
    S.withOrigins.reordered out s =
      (S.reordered out s.1, match out.itemOrder with | none => s.2 | some order => gatherRows order s.2) := by
  simp only [ItemStore.reordered]
  cases out.itemOrder <;> rfl

theorem added_withOrigins (out : OperatorOutput) (op : String) (isRecall : Bool) (s : σ × List Origin) :
    S.withOrigins.added out op isRecall s = (S.added out op isRecall s.1,
      s.2 ++ List.replicate (S.rowCount (S.added out op isRecall s.1) - S.rowCount s.1) none) := by
  simp only [ItemStore.added]
  split
  · simp
  · simp [ItemStore.withOrigins]

/-- A run with origins is the run of the storage. -/
theorem applyOutputWith_withOrigins (h : S.Lawful cell reads) (f : FrameState σ) (out : OperatorOutput) (op : String)
    (isRecall : Bool) :
    (applyOutputWith S.withOrigins out op isRecall (f.withOrigins S)).map
        (fun t => (⟨t.common, t.items.1, t.warnings⟩ : FrameState σ)) =
      applyOutputWith S out op isRecall f := by
  have ho := applyOutputWith_ends h.withOrigins out op isRecall (f.withOrigins S)
  have hp := applyOutputWith_ends h out op isRecall f
  have hn : S.withOrigins.rowCount (f.withOrigins S).items = S.rowCount f.items := rfl
  generalize hx : applyOutputWith S.withOrigins out op isRecall (f.withOrigins S) = x at ho
  generalize hy : applyOutputWith S out op isRecall f = y at hp
  cases ho <;> cases hp <;>
    simp_all [FrameState.afterWrites, FrameState.onItems, FrameState.warned, FrameState.withOrigins,
      written_withOrigins, removedFrom_withOrigins, reordered_withOrigins, added_withOrigins]

/-! ## The origins are right -/

/-- Beside the items stand the origins of their rows, and a cell whose field is not in `fields` is the
cell of its row's origin in `before`. -/
structure OriginInv (S : ItemStore σ) (cell : σ → Nat → String → Option Variant) (before : σ) (fields : List String)
    (items : σ) (origins : List Origin) : Prop where
  length : origins.length = S.rowCount items
  cells : ∀ k i, origins[k]? = some (some i) → ∀ f ∉ fields, cell items k f = cell before i f

theorem OriginInv.writeFields (h : S.Lawful cell reads) {before items : σ} {fields : List String}
    {origins : List Origin} {op : String} {ws : List ItemWrite} (hinv : OriginInv S cell before fields items origins)
    (hws : ∀ w ∈ ws, itemWriteError op (S.rowCount items) w = none ∧ w.field ∈ fields) :
    OriginInv S cell before fields (S.writeFields ws items) origins := by
  induction ws generalizing items with
  | nil => exact hinv
  | cons w ws ih =>
    obtain ⟨hw, hf⟩ := hws w List.mem_cons_self
    have hlt := (lt_of_itemWriteError hw).1
    have hrows := h.rowCount_writeField items _ w.field w.value hlt
    refine ih ⟨hinv.length.trans hrows.symm, fun k i hk f hnot => ?_⟩ fun w' hw' => ?_
    · have hne : f ≠ w.field := fun he => hnot (he ▸ hf)
      rw [h.cell_writeField items _ _ _ hlt, if_neg fun hc => hne hc.2]
      exact hinv.cells k i hk f hnot
    · rw [hrows]
      exact hws w' (List.mem_cons_of_mem _ hw')

theorem OriginInv.writeColumns (h : S.Lawful cell reads) {before items : σ} {fields : List String}
    {origins : List Origin} {op : String} {cws : List DoubleColumnWrite}
    (hinv : OriginInv S cell before fields items origins)
    (hcws : ∀ cw ∈ cws, columnWriteError op (S.rowCount items) cw = none ∧ cw.field ∈ fields) :
    OriginInv S cell before fields (S.writeColumns cws items) origins := by
  induction cws generalizing items with
  | nil => exact hinv
  | cons cw cws ih =>
    obtain ⟨hcw, hf⟩ := hcws cw List.mem_cons_self
    have hlen := (length_of_columnWriteError hcw).1
    have hrows := h.rowCount_writeColumn items cw.field cw.vals hlen
    refine ih ⟨hinv.length.trans hrows.symm, fun k i hk f hnot => ?_⟩ fun cw' hcw' => ?_
    · have hne : f ≠ cw.field := fun he => hnot (he ▸ hf)
      rw [h.cell_writeColumn items _ _ hlen, if_neg hne]
      exact hinv.cells k i hk f hnot
    · rw [hrows]
      exact hcws cw' (List.mem_cons_of_mem _ hcw')

/-- Rows and origins gathered alike. -/
theorem OriginInv.gather {before items items' : σ} {fields : List String} {origins : List Origin} {idx : List Nat}
    (hinv : OriginInv S cell before fields items origins) (hidx : ∀ j ∈ idx, j < S.rowCount items)
    (hrows : S.rowCount items' = idx.length)
    (hcell : ∀ k f, cell items' k f = idx[k]?.bind fun j => cell items j f) :
    OriginInv S cell before fields items' (InPlace.gather idx origins) := by
  have hidx' : ∀ j ∈ idx, j < origins.length := fun j hj => hinv.length ▸ hidx j hj
  refine ⟨by rw [InPlace.length_gather hidx', hrows], fun k i hk f hnot => ?_⟩
  rw [InPlace.getElem?_gather hidx'] at hk
  obtain ⟨j, hj, hji⟩ := Option.bind_eq_some_iff.mp hk
  rw [hcell, hj]
  exact hinv.cells j i hji f hnot

/-- The fields an output writes on existing items. -/
def OperatorOutput.writtenFields (out : OperatorOutput) : List String :=
  out.itemWrites.map ItemWrite.field ++ out.columnWrites.map DoubleColumnWrite.field

theorem OriginInv.written (h : S.Lawful cell reads) (out : OperatorOutput) (op : String) (items : σ) :
    OriginInv S cell items out.writtenFields (S.written out op items) ((List.range (S.rowCount items)).map some) := by
  have hstart : OriginInv S cell items out.writtenFields items ((List.range (S.rowCount items)).map some) := by
    refine ⟨by simp, fun k i hk f _ => ?_⟩
    rw [List.getElem?_map, Option.map_eq_some_iff] at hk
    obtain ⟨j, hj, hji⟩ := hk
    obtain ⟨_, hjk⟩ := List.getElem?_eq_some_iff.mp hj
    rw [List.getElem_range] at hjk
    rw [hjk, Option.some.inj hji]
  have hws : ∀ w ∈ out.appliedItemWrites op (S.rowCount items),
      itemWriteError op (S.rowCount items) w = none ∧ w.field ∈ out.writtenFields := by
    intro w hw
    refine ⟨itemWriteError_of_mem_applied hw, List.mem_append_left _ (List.mem_map_of_mem ?_)⟩
    rw [OperatorOutput.appliedItemWrites] at hw
    split at hw
    · exact (List.takeWhile_prefix _).mem hw
    · exact absurd hw (by simp)
  have hrows := rowCount_writeFields h fun w hw => (hws w hw).1
  have hcws : ∀ cw ∈ out.appliedColumnWrites op (S.rowCount items),
      columnWriteError op (S.rowCount (S.writeFields (out.appliedItemWrites op (S.rowCount items)) items)) cw = none ∧
        cw.field ∈ out.writtenFields := by
    intro cw hcw
    refine ⟨hrows.symm ▸ columnWriteError_of_mem_applied hcw, List.mem_append_right _ (List.mem_map_of_mem ?_)⟩
    rw [OperatorOutput.appliedColumnWrites] at hcw
    split at hcw
    · exact (List.takeWhile_prefix _).mem hcw
    · exact absurd hcw (by simp)
  exact (hstart.writeFields h hws).writeColumns h hcws

theorem OriginInv.removedFrom (h : S.Lawful cell reads) {out : OperatorOutput} {before items : σ}
    {fields : List String} {origins : List Origin} (hinv : OriginInv S cell before fields items origins)
    (hv : ValidRemoval (S.rowCount items) out.removed) :
    OriginInv S cell before fields (S.removedFrom out items)
      (InPlace.gather (keptRows (S.rowCount items) out.removed) origins) :=
  hinv.gather (fun _ => lt_of_mem_keptRows) (by rw [rowCount_removedFrom h hv, length_keptRows hv])
    (cell_removedFrom h hv)

theorem lt_of_mem_orderSlots {out : OperatorOutput} {op : String} {n : Nat} (ho : out.reorderError op n = none) :
    (out.orderSlots n).length = n ∧ ∀ j ∈ out.orderSlots n, j < n := by
  rw [OperatorOutput.orderSlots]
  split
  · simp
  · next order horder =>
    rw [OperatorOutput.reorderError, horder] at ho
    have hv := validOrder_of_orderError ho
    refine ⟨by rw [List.length_map, hv.length], fun j hj => ?_⟩
    have := hv.isOrder.lt j hj
    rwa [List.length_map, hv.length] at this

theorem OriginInv.reordered (h : S.Lawful cell reads) {out : OperatorOutput} {op : String} {before items : σ}
    {fields : List String} {origins : List Origin} (hinv : OriginInv S cell before fields items origins)
    (ho : out.reorderError op (S.rowCount items) = none) :
    OriginInv S cell before fields (S.reordered out items)
      (InPlace.gather (out.orderSlots (S.rowCount items)) origins) :=
  hinv.gather (lt_of_mem_orderSlots ho).2 (by rw [rowCount_reordered h ho, (lt_of_mem_orderSlots ho).1])
    (cell_reordered h ho)

theorem OriginInv.added (h : S.Lawful cell reads) {before items : σ} {fields : List String} {origins : List Origin}
    (hinv : OriginInv S cell before fields items origins) (out : OperatorOutput) (op : String) (isRecall : Bool) :
    OriginInv S cell before fields (S.added out op isRecall items)
      (origins ++ List.replicate (S.rowCount (S.added out op isRecall items) - S.rowCount items) none) := by
  have hcell : ∀ k f, k < S.rowCount items → cell (S.added out op isRecall items) k f = cell items k f := by
    intro k f hk
    rw [ItemStore.added]
    split
    · rfl
    · exact h.cell_addItems items op isRecall _ k f hk
  have hle : S.rowCount items ≤ S.rowCount (S.added out op isRecall items) := by
    rw [ItemStore.added]
    split
    · exact Nat.le_refl _
    · exact h.rowCount_addItems items op isRecall _
  refine ⟨?_, fun k i hk f hnot => ?_⟩
  · rw [List.length_append, List.length_replicate, hinv.length]
    omega
  · have hlt : k < origins.length := by
      by_contra hge
      rw [List.getElem?_append_right (by omega), List.getElem?_replicate] at hk
      split at hk <;> simp at hk
    rw [List.getElem?_append_left hlt] at hk
    rw [hcell k f (hinv.length ▸ hlt)]
    exact hinv.cells k i hk f hnot

end

end Pineapple
