import Pineapple.Origins
import Pineapple.StoreSpec

/-! # What a failed `apply_output` leaves

A call that fails in its write phases or in the removals' check leaves every row where it was. Removals
and the order are carried out before the order and the additions are checked, so a later failure finds
them done; the row storage pushes the additions one by one, the column storage makes room for all of
them first. -/

namespace Pineapple

variable {σ : Type}

section
variable {S : ItemStore σ} {cell : σ → Nat → String → Option Variant} {reads : σ → String → Variant → Variant}

/-! ## The origins at each end -/

theorem gather_range {α : Type} {xs : List α} : InPlace.gather (List.range xs.length) xs = xs := by
  apply List.ext_getElem?
  intro k
  rw [InPlace.getElem?_gather (by simp)]
  by_cases hk : k < xs.length
  · simp [hk]
  · rw [List.getElem?_eq_none (by simpa using hk), List.getElem?_eq_none (by simpa using hk)]
    rfl

theorem gather_map_range {idx : List Nat} {n : Nat} (h : ∀ j ∈ idx, j < n) :
    InPlace.gather idx ((List.range n).map some) = idx.map some := by
  apply List.ext_getElem?
  intro k
  rw [InPlace.getElem?_gather (by simpa using h), List.getElem?_map]
  cases hk : idx[k]? with
  | none => rfl
  | some j =>
    have := h j (List.mem_of_getElem? hk)
    simp [this]

theorem snd_removedFrom (out : OperatorOutput) (items : σ) (origins : List Origin) :
    (S.withOrigins.removedFrom out (items, origins)).2 =
      InPlace.gather (keptRows origins.length out.removed) origins := by
  rw [removedFrom_withOrigins]
  dsimp only
  split
  · next hnil => rw [List.isEmpty_iff.mp hnil, keptRows_nil, gather_range]
  · exact dropRows_eq_gather ..

theorem snd_reordered (out : OperatorOutput) (items : σ) (origins : List Origin) :
    (S.withOrigins.reordered out (items, origins)).2 =
      InPlace.gather (out.orderSlots origins.length) origins := by
  rw [reordered_withOrigins, OperatorOutput.orderSlots]
  cases out.itemOrder with
  | none => exact gather_range.symm
  | some order => exact gatherRows_eq_gather ..

/-- The number of rows a failing additions phase has put on `items`. -/
def ItemStore.rowsAdded (S : ItemStore σ) (out : OperatorOutput) (op : String) (isRecall : Bool) (items : σ) : Nat :=
  S.rowCount (S.added out op isRecall items) - S.rowCount items

/-- Every row at its own place: nothing removed, nothing moved, nothing added. -/
theorem origins_kept_iff {n m : Nat} {out : OperatorOutput} {op : String} (hr : out.removeError op n = none)
    (ho : out.reorderError op (n - out.removed.length) = none) :
    InPlace.gather (out.orderSlots (n - out.removed.length)) ((keptRows n out.removed).map some) ++
        List.replicate m none = (List.range n).map some ↔
      out.removed = [] ∧ out.orderSlots n = List.range n ∧ m = 0 := by
  have hv := validRemoval hr
  have hkept := length_keptRows hv
  have hslots := lt_of_mem_orderSlots ho
  constructor
  · intro h
    have hm : m = 0 := by
      by_contra hm
      have hnone : (none : Origin) ∈ (List.range n).map some := by
        rw [← h]
        exact List.mem_append_right _ (List.mem_replicate.mpr ⟨hm, rfl⟩)
      simp at hnone
    have hlen := congrArg List.length h
    rw [hm, List.replicate_zero, List.append_nil,
      InPlace.length_gather (by rw [List.length_map, hkept]; exact hslots.2), hslots.1, List.length_map,
      List.length_range] at hlen
    have hnil : out.removed = [] := by
      cases hrem : out.removed with
      | nil => rfl
      | cons idx rest =>
        have := (not_outOfRange (hv.inRange idx (hrem ▸ List.mem_cons_self))).2
        rw [hrem, List.length_cons] at hlen
        omega
    refine ⟨hnil, ?_, hm⟩
    rw [hnil, List.length_nil, Nat.sub_zero] at hslots
    rw [hm, hnil, keptRows_nil, List.replicate_zero, List.append_nil, List.length_nil, Nat.sub_zero,
      gather_map_range hslots.2] at h
    exact List.map_injective_iff.mpr (Option.some_injective _) h
  · rintro ⟨hnil, hrange, hm⟩
    rw [hm, hnil, keptRows_nil, List.replicate_zero, List.append_nil, List.length_nil, Nat.sub_zero, hrange,
      gather_map_range (by simp)]

/-! ## The values at each end -/

/-- Every stored value was stored before, in the same field, or passed validation. -/
def ValuesFrom (cell : σ → Nat → String → Option Variant) (before items : σ) : Prop :=
  ∀ i f v, cell items i f = some v → (∃ j, cell before j f = some v) ∨ validateFrameValue f v = none

theorem ValuesFrom.writeFields (h : S.Lawful cell reads) {before items : σ} {op : String} {ws : List ItemWrite}
    (hv : ValuesFrom cell before items) (hws : ∀ w ∈ ws, itemWriteError op (S.rowCount items) w = none) :
    ValuesFrom cell before (S.writeFields ws items) := by
  induction ws generalizing items with
  | nil => exact hv
  | cons w ws ih =>
    obtain ⟨hlt, hvalid⟩ := lt_of_itemWriteError (hws w List.mem_cons_self)
    have hrows := h.rowCount_writeField items _ w.field w.value hlt
    refine ih (fun i f v hc => ?_) fun w' hw' => hrows.symm ▸ hws w' (List.mem_cons_of_mem _ hw')
    rw [h.cell_writeField items _ _ _ hlt] at hc
    split at hc
    · next hif =>
      right
      rw [← Option.some.inj hc, hif.2]
      rcases h.reads_eq items w.field w.value with hr | ⟨-, hr⟩
      · rw [hr]; exact hvalid
      · rw [hr]; rfl
    · exact hv i f v hc

theorem ValuesFrom.writeColumns (h : S.Lawful cell reads) {before items : σ} {op : String}
    {cws : List DoubleColumnWrite} (hv : ValuesFrom cell before items)
    (hcws : ∀ cw ∈ cws, columnWriteError op (S.rowCount items) cw = none) :
    ValuesFrom cell before (S.writeColumns cws items) := by
  induction cws generalizing items with
  | nil => exact hv
  | cons cw cws ih =>
    obtain ⟨hlen, hfinite⟩ := length_of_columnWriteError (hcws cw List.mem_cons_self)
    have hrows := h.rowCount_writeColumn items cw.field cw.vals hlen
    refine ih (fun i f v hc => ?_) fun cw' hcw' => hrows.symm ▸ hcws cw' (List.mem_cons_of_mem _ hcw')
    rw [h.cell_writeColumn items _ _ hlen] at hc
    split at hc
    · right
      obtain ⟨d, hd, rfl⟩ := Option.map_eq_some_iff.mp hc
      have := hfinite d (List.mem_of_getElem? hd)
      simp [validateFrameValue, Variant.containsNonFinite, this]
    · exact hv i f v hc

theorem ValuesFrom.written (h : S.Lawful cell reads) (out : OperatorOutput) (op : String) (items : σ) :
    ValuesFrom cell items (S.written out op items) := by
  have hws : ∀ w ∈ out.appliedItemWrites op (S.rowCount items), itemWriteError op (S.rowCount items) w = none :=
    fun w hw => itemWriteError_of_mem_applied hw
  have hrows := rowCount_writeFields h hws
  have hcws : ∀ cw ∈ out.appliedColumnWrites op (S.rowCount items), columnWriteError op
      (S.rowCount (S.writeFields (out.appliedItemWrites op (S.rowCount items)) items)) cw = none := by
    intro cw hcw
    rw [hrows]
    exact columnWriteError_of_mem_applied hcw
  exact ValuesFrom.writeColumns h (ValuesFrom.writeFields h (fun i f v hc => Or.inl ⟨i, hc⟩) hws) hcws

theorem ValuesFrom.gather {before items items' : σ} {idx : List Nat} (hv : ValuesFrom cell before items)
    (hcell : ∀ k f, cell items' k f = idx[k]?.bind fun j => cell items j f) : ValuesFrom cell before items' := by
  intro i f v hc
  rw [hcell] at hc
  obtain ⟨j, -, hj⟩ := Option.bind_eq_some_iff.mp hc
  exact hv j f v hj

theorem ValuesFrom.added (h : S.Lawful cell reads) {before items : σ} (hv : ValuesFrom cell before items)
    (out : OperatorOutput) (op : String) (isRecall : Bool) :
    ValuesFrom cell before (S.added out op isRecall items) := by
  intro i f v hc
  rw [ItemStore.added] at hc
  split at hc
  · exact hv i f v hc
  · by_cases hi : i < S.rowCount items
    · rw [h.cell_addItems items op isRecall _ i f hi] at hc
      exact hv i f v hc
    · exact Or.inr (h.valid_addItems items op isRecall _ i f v (by omega) hc)

/-! ## When a failed call keeps every row -/

/-- The items the additions phase starts from. -/
def ItemStore.beforeAdditions (S : ItemStore σ) (out : OperatorOutput) (op : String) (items : σ) : σ :=
  S.reordered out (S.removedFrom out (S.written out op items))

theorem originsAfter_eq (h : S.Lawful cell reads) (f : FrameState σ) (out : OperatorOutput) (op : String)
    (isRecall : Bool) :
    S.originsAfter f out op isRecall =
      if out.writeError op (S.rowCount f.items) ≠ none ∨ out.removeError op (S.rowCount f.items) ≠ none then
        (List.range (S.rowCount f.items)).map some
      else if out.reorderError op (S.rowCount f.items - out.removed.length) ≠ none then
        (keptRows (S.rowCount f.items) out.removed).map some
      else
        InPlace.gather (out.orderSlots (S.rowCount f.items - out.removed.length))
            ((keptRows (S.rowCount f.items) out.removed).map some) ++
          List.replicate (S.rowsAdded out op isRecall (S.beforeAdditions out op f.items)) none := by
  have hn : S.withOrigins.rowCount (f.withOrigins S).items = S.rowCount f.items := rfl
  have hwritten : S.withOrigins.written out op (f.withOrigins S).items =
      (S.written out op f.items, (List.range (S.rowCount f.items)).map some) := written_withOrigins ..
  have hremoved : S.withOrigins.removedFrom out (S.written out op f.items, (List.range (S.rowCount f.items)).map some) =
      (S.removedFrom out (S.written out op f.items), (keptRows (S.rowCount f.items) out.removed).map some) := by
    refine Prod.ext (by rw [removedFrom_withOrigins]) ?_
    rw [snd_removedFrom, List.length_map, List.length_range, gather_map_range fun _ => lt_of_mem_keptRows]
  have hreordered : out.removeError op (S.rowCount f.items) = none →
      S.withOrigins.reordered out
        (S.removedFrom out (S.written out op f.items), (keptRows (S.rowCount f.items) out.removed).map some) =
      (S.beforeAdditions out op f.items, InPlace.gather (out.orderSlots (S.rowCount f.items - out.removed.length))
        ((keptRows (S.rowCount f.items) out.removed).map some)) := by
    intro hr
    refine Prod.ext (by rw [reordered_withOrigins]; rfl) ?_
    rw [snd_reordered, List.length_map, length_keptRows (validRemoval hr)]
  have hends := applyOutputWith_ends h.withOrigins out op isRecall (f.withOrigins S)
  rw [ItemStore.originsAfter]
  generalize applyOutputWith S.withOrigins out op isRecall (f.withOrigins S) = o at hends
  cases hends with
  | writes e hw =>
    rw [hn] at hw
    rw [if_pos (Or.inl (by simp [hw]))]
    exact congrArg Prod.snd hwritten
  | removals e hw hr =>
    rw [hn] at hr
    rw [if_pos (Or.inr (by simp [hr]))]
    exact congrArg Prod.snd hwritten
  | order e hw hr ho =>
    rw [hn] at hw hr ho
    rw [if_neg (by simp [hw, hr]), if_pos (by simp [ho])]
    show (S.withOrigins.removedFrom out (S.withOrigins.written out op (f.withOrigins S).items)).2 = _
    rw [hwritten, hremoved]
  | additions e hw hr ho ha =>
    rw [hn] at hw hr ho
    rw [if_neg (by simp [hw, hr]), if_neg (by simp [ho])]
    show (S.withOrigins.added out op isRecall (S.withOrigins.reordered out (S.withOrigins.removedFrom out
      (S.withOrigins.written out op (f.withOrigins S).items)))).2 = _
    rw [hwritten, hremoved, hreordered hr, added_withOrigins]
    rfl
  | ok hw hr ho ha =>
    rw [hn] at hw hr ho
    rw [if_neg (by simp [hw, hr]), if_neg (by simp [ho])]
    show (S.withOrigins.added out op isRecall (S.withOrigins.reordered out (S.withOrigins.removedFrom out
      (S.withOrigins.written out op (f.withOrigins S).items)))).2 = _
    rw [hwritten, hremoved, hreordered hr, added_withOrigins]
    rfl

/-- What a failed call should leave of the frame `f`: every row at its own place, and in it the same cells
apart from the fields the output writes, where nothing that validation rejected is stored. -/
structure FailureKeeps (S : ItemStore σ) (cell : σ → Nat → String → Option Variant) (f : FrameState σ)
    (out : OperatorOutput) (op : String) (isRecall : Bool) (t : FrameState σ) : Prop where
  origins : S.originsAfter f out op isRecall = (List.range (S.rowCount f.items)).map some
  rowCount : S.rowCount t.items = S.rowCount f.items
  cells : ∀ i, ∀ field ∉ out.writtenFields, cell t.items i field = cell f.items i field
  values : ValuesFrom cell f.items t.items

/-- The output does not fail on `n` rows, or fails where every row still has its place. `addsNothing` says
that the additions phase adds nothing before it fails. -/
def OperatorOutput.FailsInPlace (out : OperatorOutput) (op : String) (n : Nat) (addsNothing : Prop) : Prop :=
  out.writeError op n ≠ none ∨ out.removeError op n ≠ none ∨
    (out.reorderError op (n - out.removed.length) ≠ none ∧ out.removed = []) ∨
    (out.reorderError op (n - out.removed.length) = none ∧
      (out.additionError op = none ∨ out.removed = [] ∧ out.orderSlots n = List.range n ∧ addsNothing))

/-- What a failed call leaves, whatever the phase, is right but for the places of the rows. -/
theorem failureKeeps_iff_origins (h : S.Lawful cell reads) {f t : FrameState σ} {out : OperatorOutput} {op : String}
    {isRecall : Bool} {e : PineError} (hfail : applyOutputWith S out op isRecall f = .fail e t) :
    FailureKeeps S cell f out op isRecall t ↔
      S.originsAfter f out op isRecall = (List.range (S.rowCount f.items)).map some := by
  have hrun := applyOutputWith_withOrigins h f out op isRecall
  have hends := applyOutputWith_ends h.withOrigins out op isRecall (f.withOrigins S)
  have hwritten : S.withOrigins.written out op (f.withOrigins S).items =
      (S.written out op f.items, (List.range (S.rowCount f.items)).map some) := written_withOrigins ..
  have hrows : S.rowCount (S.written out op f.items) = S.rowCount f.items := rowCount_written h out op f.items
  have hinv := OriginInv.written h out op f.items
  have hvals := ValuesFrom.written h out op f.items
  -- the items and origins of the failed run, with the invariant of each phase it went through
  have hleft : OriginInv S cell f.items out.writtenFields t.items (S.originsAfter f out op isRecall) ∧
      ValuesFrom cell f.items t.items := by
    rw [hfail] at hrun
    rw [ItemStore.originsAfter]
    have hremoved : ∀ origins : List Origin, OriginInv S cell f.items out.writtenFields (S.written out op f.items) origins →
        out.removeError op (S.rowCount f.items) = none →
        OriginInv S cell f.items out.writtenFields (S.removedFrom out (S.written out op f.items))
          (S.withOrigins.removedFrom out (S.written out op f.items, origins)).2 := by
      intro origins ho hr
      rw [snd_removedFrom, ho.length]
      exact ho.removedFrom h (hrows.symm ▸ validRemoval hr)
    have hvremoved : out.removeError op (S.rowCount f.items) = none →
        ValuesFrom cell f.items (S.removedFrom out (S.written out op f.items)) := fun hr =>
      hvals.gather (cell_removedFrom h (hrows.symm ▸ validRemoval hr))
    generalize applyOutputWith S.withOrigins out op isRecall (f.withOrigins S) = o at hends hrun
    cases hends with
    | writes e' hw =>
      rw [Outcome.map_fail, Outcome.fail.injEq] at hrun
      rw [← hrun.2]
      simp only [FrameState.afterWrites, Outcome.state_fail, hwritten]
      exact ⟨hinv, hvals⟩
    | removals e' hw hr =>
      rw [Outcome.map_fail, Outcome.fail.injEq] at hrun
      rw [← hrun.2]
      simp only [FrameState.afterWrites, Outcome.state_fail, hwritten]
      exact ⟨hinv, hvals⟩
    | order e' hw hr ho =>
      rw [Outcome.map_fail, Outcome.fail.injEq] at hrun
      rw [← hrun.2]
      simp only [FrameState.afterWrites, FrameState.onItems, Outcome.state_fail, hwritten]
      have hfst : (S.withOrigins.removedFrom out (S.written out op f.items, (List.range (S.rowCount f.items)).map some)).1 =
          S.removedFrom out (S.written out op f.items) := by rw [removedFrom_withOrigins]
      rw [hfst]
      exact ⟨hremoved _ hinv hr, hvremoved hr⟩
    | additions e' hw hr ho ha =>
      rw [Outcome.map_fail, Outcome.fail.injEq] at hrun
      rw [← hrun.2]
      simp only [FrameState.afterWrites, FrameState.onItems, Outcome.state_fail, hwritten]
      have hkept := hremoved _ hinv hr
      have hcount : S.rowCount (S.removedFrom out (S.written out op f.items)) = S.rowCount f.items - out.removed.length :=
        (rowCount_removedFrom h (hrows.symm ▸ validRemoval hr)).trans (by rw [hrows])
      have ho : out.reorderError op (S.rowCount (S.removedFrom out (S.written out op f.items))) = none := hcount ▸ ho
      rw [removedFrom_withOrigins] at hkept ⊢
      have hmoved := hkept.reordered h ho
      rw [← hkept.length, ← snd_reordered (S := S) out (S.removedFrom out (S.written out op f.items))] at hmoved
      have hfst : (S.withOrigins.reordered out (S.removedFrom out (S.written out op f.items),
          if out.removed.isEmpty then (List.range (S.rowCount f.items)).map some
          else dropRows out.removed ((List.range (S.rowCount f.items)).map some))).1 =
          S.reordered out (S.removedFrom out (S.written out op f.items)) := by rw [reordered_withOrigins]
      rw [added_withOrigins, hfst]
      exact ⟨hmoved.added h out op isRecall, ((hvremoved hr).gather (cell_reordered h ho)).added h out op isRecall⟩
    | ok _ _ _ _ => exact absurd hrun (by simp)
  obtain ⟨hinv, hvals⟩ := hleft
  constructor
  · exact fun hk => hk.origins
  · intro ho
    have hcount : S.rowCount t.items = S.rowCount f.items := by
      rw [← hinv.length, ho]
      simp
    refine ⟨ho, hcount, fun i field hf => ?_, hvals⟩
    by_cases hi : i < S.rowCount f.items
    · refine hinv.cells i i ?_ field hf
      rw [ho]
      simp [hi]
    · rw [h.cell_none _ _ _ (by omega), h.cell_none _ _ _ (by omega)]

/-- A storage keeps every row in every failed call exactly when the output fails in place. -/
theorem failureKeeps_iff (h : S.Lawful cell reads) (f : FrameState σ) (out : OperatorOutput) (op : String)
    (isRecall : Bool) {addsNothing : Prop}
    (hadds : ∀ items, out.additionError op ≠ none → (S.rowsAdded out op isRecall items = 0 ↔ addsNothing)) :
    (∀ e t, applyOutputWith S out op isRecall f = .fail e t → FailureKeeps S cell f out op isRecall t) ↔
      out.FailsInPlace op (S.rowCount f.items) addsNothing := by
  have horigins := originsAfter_eq h f out op isRecall
  have hends := applyOutputWith_ends h out op isRecall f
  have hiff : ∀ e t, applyOutputWith S out op isRecall f = .fail e t →
      ((∀ e t, applyOutputWith S out op isRecall f = .fail e t → FailureKeeps S cell f out op isRecall t) ↔
        S.originsAfter f out op isRecall = (List.range (S.rowCount f.items)).map some) := by
    intro e t hfail
    constructor
    · exact fun hall => (hall e t hfail).origins
    · exact fun ho e' t' hfail' => (failureKeeps_iff_origins h hfail').mpr ho
  rw [OperatorOutput.FailsInPlace]
  generalize hrun : applyOutputWith S out op isRecall f = o at hends
  rw [hrun] at hiff
  cases hends with
  | writes e hw =>
    rw [hiff _ _ rfl, horigins, if_pos (Or.inl (by simp [hw]))]
    simp [hw]
  | removals e hw hr =>
    rw [hiff _ _ rfl, horigins, if_pos (Or.inr (by simp [hr]))]
    simp [hr]
  | order e hw hr ho =>
    rw [hiff _ _ rfl, horigins, if_neg (by simp [hw, hr]), if_pos (by simp [ho]),
      (List.map_injective_iff.mpr (Option.some_injective _)).eq_iff, keptRows_eq_range (validRemoval hr)]
    simp [hw, hr, ho]
  | additions e hw hr ho ha =>
    rw [hiff _ _ rfl, horigins, if_neg (by simp [hw, hr]), if_neg (by simp [ho]), origins_kept_iff hr ho,
      hadds _ (by simp [ha])]
    simp [hw, hr, ho, ha]
  | ok hw hr ho ha =>
    simp [hw, hr, ho, ha]

end

/-! ## The two frames -/

/-- The first row an output adds is refused. -/
def OperatorOutput.firstAddedBad (out : OperatorOutput) (op : String) : Prop :=
  ∃ row, out.addedItems.head? = some row ∧ row.entries.findSome? (addedFieldError op) ≠ none

theorem RowFrame.rowsAdded_eq_zero {out : OperatorOutput} {op : String} (isRecall : Bool) (rows : List Row)
    (ha : out.additionError op ≠ none) :
    RowFrame.store.rowsAdded out op isRecall rows = 0 ↔ out.firstAddedBad op := by
  rw [OperatorOutput.additionError] at ha
  rw [OperatorOutput.firstAddedBad, ItemStore.rowsAdded, ItemStore.added]
  cases hadded : out.addedItems with
  | nil => rw [hadded] at ha; exact absurd rfl ha
  | cons row rest =>
    show (RowFrame.addItems op isRecall (row :: rest) rows).state.length - rows.length = 0 ↔ _
    rw [RowFrame.state_addItems, List.length_append, List.length_map, Nat.add_sub_cancel_left, List.head?_cons]
    rw [List.takeWhile_cons]
    cases hrow : row.entries.findSome? (addedFieldError op) with
    | none =>
      refine iff_of_false (by simp) ?_
      rintro ⟨row', hrow', hbad⟩
      rw [← Option.some.inj hrow', hrow] at hbad
      exact hbad rfl
    | some e => exact iff_of_true rfl ⟨row, rfl, by rw [hrow]; simp⟩

theorem ColumnFrame.rowsAdded_ne_zero {out : OperatorOutput} {op : String} (isRecall : Bool) (items : TypedColumnStore)
    (ha : out.additionError op ≠ none) : ColumnFrame.store.rowsAdded out op isRecall items ≠ 0 := by
  rw [OperatorOutput.additionError] at ha
  rw [ItemStore.rowsAdded, ItemStore.added]
  cases hadded : out.addedItems with
  | nil => rw [hadded] at ha; exact absurd rfl ha
  | cons row rest =>
    have := (ColumnFrame.addItems_keeps op isRecall (row :: rest) items).1
    show (ColumnFrame.addItems op isRecall (row :: rest) items).state.rowCount - items.rowCount ≠ 0
    rw [this, List.length_cons]
    omega

/-- Which failed calls leave the rows alone, for both storages. The columns of the column storage keep the
store's size in every case. -/
theorem applyOutput_failure_keeps_iff (out : OperatorOutput) (op : String) (isRecall : Bool) :
    (∀ f : RowFrame,
      (∀ e t, f.applyOutput out op isRecall = .fail e t →
        FailureKeeps RowFrame.store RowFrame.cell f out op isRecall t) ↔
      out.FailsInPlace op f.items.length (out.firstAddedBad op)) ∧
    ∀ f : ColumnFrame,
      (∀ e t, f.applyOutput out op isRecall = .fail e t →
        FailureKeeps ColumnFrame.store TypedColumnStore.cell f out op isRecall t ∧
          ∀ field col, t.items.column field = some col → col.size = t.items.rowCount) ↔
      out.FailsInPlace op f.items.rowCount False := by
  constructor
  · intro f
    exact failureKeeps_iff RowFrame.store_lawful f out op isRecall fun rows ha =>
      RowFrame.rowsAdded_eq_zero isRecall rows ha
  · intro f
    have hadds : ∀ items, out.additionError op ≠ none →
        (ColumnFrame.store.rowsAdded out op isRecall items = 0 ↔ False) := fun items ha =>
      iff_of_false (ColumnFrame.rowsAdded_ne_zero isRecall items ha) id
    have hiff := failureKeeps_iff ColumnFrame.store_lawful f out op isRecall hadds
    refine Iff.trans ?_ hiff
    constructor
    · exact fun h e t hfail => (h e t hfail).1
    · exact fun h e t hfail => ⟨h e t hfail, fun _ _ hc => TypedColumnStore.size_column hc⟩

/-- A removal of item 0 with an order for both items: the order is refused and the item is gone. -/
def removeThenBadOrder : OperatorOutput where
  removedItems := (∅ : SortedMap Int Unit).insert 0 ()
  itemOrder := some [1, 0]

theorem failed_reorder_drops_item :
    (let o := RowFrame.applyOutput ⟨∅, [∅, ∅], []⟩ removeThenBadOrder "f" false;
      o.error? = some (.execution "f" "SetItemOrder length 2 does not match item count 1") ∧
        o.state.items.length = 1) ∧
    (let o := ColumnFrame.applyOutput (.ofItems ∅ [∅, ∅]) removeThenBadOrder "f" false;
      o.error? = some (.execution "f" "SetItemOrder length 2 does not match item count 1") ∧
        o.state.items.rowCount = 1) ∧
    ¬ removeThenBadOrder.FailsInPlace "f" 2 (removeThenBadOrder.firstAddedBad "f") := by
  have hcheck : removeThenBadOrder.writeError "f" 2 = none ∧ removeThenBadOrder.removeError "f" 2 = none ∧
      removeThenBadOrder.removed ≠ [] ∧ removeThenBadOrder.reorderError "f" 1 ≠ none := by decide +kernel
  refine ⟨by decide +kernel, by decide +kernel, ?_⟩
  obtain ⟨hw, hr, hrem, hord⟩ := hcheck
  rintro (h | h | ⟨-, h⟩ | ⟨ho, -⟩)
  · exact h hw
  · exact h hr
  · exact hrem h
  · exact hord ho

end Pineapple
