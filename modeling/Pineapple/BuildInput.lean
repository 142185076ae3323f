import Pineapple.FrameReads
import Pineapple.Lib.Grid

/-! # The input check in C++ and in Go (`operator_input.cpp`, `row_frame.go`, `column_frame.go`)

Go's `BuildInput` checks the common fields in the same order as `build_operator_input` and then walks the
items, each with all its fields, where C++ walks the fields, each over all items. -/

namespace Pineapple

/-! ## Go -/

/-- The common checks of `BuildInput`. -/
def goCommonViolation (common : Row) (spec : InputFieldSpec) : Option InputViolation :=
  (spec.strictCommon.findSome? fun field =>
    match common.find? field with
    | none => some (.nilCommon field)
    | some v => if v.isNull then some (.nilCommon field) else none).or
  (spec.nullableCommon.findSome? fun field =>
    match common.find? field with
    | none => some (.missingCommon field)
    | some _ => none)

/-- `RowFrame.BuildInput` of Go. Its message quotes the field with `%q`. -/
def goRowBuildInput (common : Row) (items : List Row) (spec : InputFieldSpec) : Option InputViolation :=
  (goCommonViolation common spec).or (items.zipIdx.findSome? fun p =>
    (spec.strictItem.findSome? fun field =>
      match p.1.find? field with
      | none => some (.nilItem field p.2)
      | some v => if v.isNull then some (.nilItem field p.2) else none).or
    (spec.nullableItem.findSome? fun field =>
      match p.1.find? field with
      | none => some (.missingItem field p.2)
      | some _ => none))

/-- A column of Go's column storage: a value, maybe nil, for each present slot. -/
abbrev GoColumn := List (Option Variant)

def GoColumn.present (c : GoColumn) (i : Nat) : Bool := (c.getD i none).isSome

def GoColumn.isNull (c : GoColumn) (i : Nat) : Bool := ((c.getD i none).map Variant.isNull).getD true

structure GoColumnFrame where
  common : Row
  columns : SortedMap String GoColumn
  rowCount : Nat

def GoColumnFrame.cell (g : GoColumnFrame) (i : Nat) (field : String) : Option Variant :=
  (g.columns.find? field).bind fun c => c.getD i none

/-- `ColumnFrame.BuildInput` of Go. -/
def GoColumnFrame.buildInput (g : GoColumnFrame) (spec : InputFieldSpec) : Option InputViolation :=
  (goCommonViolation g.common spec).or ((List.range g.rowCount).findSome? fun i =>
    (spec.strictItem.findSome? fun field =>
      match g.columns.find? field with
      | none => some (.nilItem field i)
      | some c => if c.isNull i then some (.nilItem field i) else none).or
    (spec.nullableItem.findSome? fun field =>
      match g.columns.find? field with
      | none => some (.missingItem field i)
      | some c => if !c.present i then some (.missingItem field i) else none))

/-! ## The checks as a table -/

/-- An item field to check, and whether it is required. -/
structure ItemCheck where
  required : Bool
  field : String

/-- The checked item fields: the required and then the nullable ones. -/
def InputFieldSpec.itemChecks (spec : InputFieldSpec) : List ItemCheck :=
  spec.strictItem.map (⟨true, ·⟩) ++ spec.nullableItem.map (⟨false, ·⟩)

namespace ItemCheck

/-- The cell fails the check. -/
def fails (c : ItemCheck) (cell : Option Variant) : Bool := if c.required then cellIsNull cell else cell.isNone

def violation (c : ItemCheck) (i : Nat) : InputViolation :=
  if c.required then .nilItem c.field i else .missingItem c.field i

theorem violation_inj {c d : ItemCheck} {i j : Nat} (h : c.violation i = d.violation j) : c = d ∧ i = j := by
  obtain ⟨cr, cf⟩ := c
  obtain ⟨dr, df⟩ := d
  cases cr <;> cases dr <;> simp_all [violation]

end ItemCheck

/-- Field by field. -/
def scanByField (checks : List ItemCheck) (n : Nat) (cell : Nat → String → Option Variant) : Option InputViolation :=
  checks.findSome? fun c => (List.range n).findSome? fun i =>
    if c.fails (cell i c.field) then some (c.violation i) else none

/-- Item by item. -/
def scanByItem (checks : List ItemCheck) (n : Nat) (cell : Nat → String → Option Variant) : Option InputViolation :=
  (List.range n).findSome? fun i => checks.findSome? fun c =>
    if c.fails (cell i c.field) then some (c.violation i) else none

/-- The table of failing cells: item `i` fails the `k`-th check. -/
def failTable (checks : List ItemCheck) (cell : Nat → String → Option Variant) (i k : Nat) : Bool :=
  checks[k]?.any fun c => c.fails (cell i c.field)

theorem findSome?_eq_range {α β : Type} (l : List α) (f : α → Option β) :
    l.findSome? f = (List.range l.length).findSome? fun k => l[k]?.bind f := by
  induction l with
  | nil => rfl
  | cons a l ih =>
    rw [List.length_cons, List.range_succ_eq_map, List.findSome?_cons, List.findSome?_cons, List.findSome?_map, ih]
    rfl

theorem scanByField_eq (checks : List ItemCheck) (n : Nat) (cell : Nat → String → Option Variant) :
    scanByField checks n cell = (Grid.firstByColumn n checks.length (failTable checks cell)).bind fun p =>
      checks[p.2]?.map fun c => c.violation p.1 := by
  rw [scanByField, findSome?_eq_range, Grid.firstByColumn]
  induction List.range checks.length with
  | nil => rfl
  | cons k ks ih =>
    rw [List.findSome?_cons, List.findSome?_cons, ih]
    cases hk : checks[k]? with
    | none =>
      have : ((List.range n).findSome? fun i => if failTable checks cell i k then some (i, k) else none) = none := by
        simp [failTable, hk]
      rw [this]
      rfl
    | some c =>
      have : ((List.range n).findSome? fun i => if failTable checks cell i k then some (i, k) else none).bind
          (fun p => checks[p.2]?.map fun c => c.violation p.1) =
          (List.range n).findSome? fun i => if c.fails (cell i c.field) then some (c.violation i) else none := by
        induction List.range n with
        | nil => rfl
        | cons i is ih =>
          rw [List.findSome?_cons, List.findSome?_cons, ← ih]
          simp only [failTable, hk, Option.any_some]
          by_cases hf : c.fails (cell i c.field)
          · simp [hf, hk]
          · simp [hf]
      rw [Option.bind_some, ← this]
      cases hfirst : (List.range n).findSome? fun i => if failTable checks cell i k then some (i, k) else none with
      | none => rfl
      | some p =>
        obtain ⟨i, -, hi⟩ := List.exists_of_findSome?_eq_some hfirst
        split at hi
        · rw [← Option.some.inj hi, Option.bind_some]
          simp [hk]
        · exact absurd hi (by simp)

theorem scanByItem_eq (checks : List ItemCheck) (n : Nat) (cell : Nat → String → Option Variant) :
    scanByItem checks n cell = (Grid.firstByRow n checks.length (failTable checks cell)).bind fun p =>
      checks[p.2]?.map fun c => c.violation p.1 := by
  have hinner : ∀ i, (checks.findSome? fun c => if c.fails (cell i c.field) then some (c.violation i) else none) =
      (List.range checks.length).findSome? fun k => checks[k]?.bind fun c =>
        if c.fails (cell i c.field) then some (c.violation i) else none := fun i => findSome?_eq_range _ _
  simp only [scanByItem, hinner, Grid.firstByRow]
  induction List.range n with
  | nil => rfl
  | cons i is ih =>
    rw [List.findSome?_cons, List.findSome?_cons, ih]
    have hrow : ∀ ks : List Nat, (ks.findSome? fun k => checks[k]?.bind fun c =>
        if c.fails (cell i c.field) then some (c.violation i) else none) =
        (ks.findSome? fun k => if failTable checks cell i k then some (i, k) else none).bind fun p =>
          checks[p.2]?.map fun c => c.violation p.1 := by
      intro ks
      induction ks with
      | nil => rfl
      | cons k ks ihk =>
        rw [List.findSome?_cons, List.findSome?_cons, ihk]
        cases hk : checks[k]? with
        | none => simp [failTable, hk]
        | some c =>
          simp only [failTable, hk, Option.any_some, Option.bind_some]
          by_cases hf : c.fails (cell i c.field)
          · simp [hf, hk]
          · simp [hf]
    rw [hrow]
    cases hfirst : (List.range checks.length).findSome? fun k =>
        if failTable checks cell i k then some (i, k) else none with
    | none => rfl
    | some p =>
      obtain ⟨k, hmem, hk⟩ := List.exists_of_findSome?_eq_some hfirst
      split at hk
      · rw [← Option.some.inj hk, Option.bind_some, List.getElem?_eq_getElem (List.mem_range.mp hmem)]
        rfl
      · exact absurd hk (by simp)

/-- The checks pass everywhere, or one failing cell is first among all in its item and in its field. -/
def FirstFailureAgrees (checks : List ItemCheck) (n : Nat) (cell : Nat → String → Option Variant) : Prop :=
  (∀ i < n, ∀ k < checks.length, failTable checks cell i k = false) ∨
    ∃ i k, Grid.IsCorner n checks.length (failTable checks cell) i k

/-- The two scans agree exactly when the grid's do: equal violations come from one cell. -/
theorem scanByField_eq_scanByItem (checks : List ItemCheck) (n : Nat) (cell : Nat → String → Option Variant) :
    scanByField checks n cell = scanByItem checks n cell ↔ FirstFailureAgrees checks n cell := by
  rw [FirstFailureAgrees, ← Grid.firstByColumn_eq_firstByRow, scanByField_eq, scanByItem_eq]
  constructor
  · intro h
    cases hcol : Grid.firstByColumn n checks.length (failTable checks cell) with
    | none => exact (Grid.firstByRow_eq_none.mpr (Grid.firstByColumn_eq_none.mp hcol)).symm
    | some p =>
      obtain ⟨i, k⟩ := p
      obtain ⟨hi, hk, hmark, hbefore, -⟩ := Grid.firstByColumn_eq_some hcol
      rw [hcol] at h
      cases hrow : Grid.firstByRow n checks.length (failTable checks cell) with
      | none =>
        rw [Grid.firstByRow_eq_none.mp hrow i hi k hk] at hmark
        exact absurd hmark (by simp)
      | some q =>
        obtain ⟨i', k'⟩ := q
        obtain ⟨hi', hk', hmark', -, hleft⟩ := Grid.firstByRow_eq_some hrow
        rw [hrow] at h
        simp only [Option.bind_some, List.getElem?_eq_getElem hk, List.getElem?_eq_getElem hk', Option.map_some,
          Option.some.injEq] at h
        obtain ⟨hcheck, rfl⟩ := ItemCheck.violation_inj h
        -- the two columns carry the same check, so they fail on the same items
        have hsame : failTable checks cell i k = failTable checks cell i k' := by
          rw [failTable, failTable, List.getElem?_eq_getElem hk, List.getElem?_eq_getElem hk', hcheck]
        have hle : k ≤ k' := by
          by_contra hlt
          rw [hbefore i hi k' (by omega)] at hmark'
          exact absurd hmark' (by simp)
        have hge : k' ≤ k := by
          by_contra hlt
          rw [hleft k (by omega)] at hmark
          exact absurd hmark (by simp)
        rw [Nat.le_antisymm hle hge]
  · intro h
    rw [h]

/-! ## The four engines as scans -/

theorem commonViolation_eq_go (common : Row) (offset count : Nat) (cell : Nat → String → Option Variant)
    (strict : List String → Option (String × Nat)) (spec : InputFieldSpec) :
    (Frame.ofCells common offset count cell strict).commonViolation spec = goCommonViolation common spec := by
  rw [Frame.commonViolation, goCommonViolation]
  congr 1
  · congr 1
    funext field
    show (if ((common.find? field).getD .null).isNull then some (InputViolation.nilCommon field) else none) = _
    cases common.find? field <;> rfl
  · congr 1
    funext field
    show (if !(common.find? field).isSome then some (InputViolation.missingCommon field) else none) = _
    cases common.find? field <;> rfl

theorem itemChecks_findSome? {β : Type} (spec : InputFieldSpec) (f : ItemCheck → Option β) :
    spec.itemChecks.findSome? f =
      (spec.strictItem.findSome? fun field => f ⟨true, field⟩).or (spec.nullableItem.findSome? fun field => f ⟨false, field⟩) := by
  rw [InputFieldSpec.itemChecks, List.findSome?_append, List.findSome?_map, List.findSome?_map]
  rfl

theorem goRowBuildInput_eq (common : Row) (items : List Row) (spec : InputFieldSpec) :
    goRowBuildInput common items spec =
      (goCommonViolation common spec).or (scanByItem spec.itemChecks items.length (RowFrame.cell items)) := by
  have H : ∀ (l : List Row) (k : Nat) (before : List Row), before.length = k → items = before ++ l →
      ((l.zipIdx k).findSome? fun p =>
        (spec.strictItem.findSome? fun field =>
          match p.1.find? field with
          | none => some (InputViolation.nilItem field p.2)
          | some v => if v.isNull then some (.nilItem field p.2) else none).or
        (spec.nullableItem.findSome? fun field =>
          match p.1.find? field with
          | none => some (.missingItem field p.2)
          | some _ => none)) =
      (List.range' k l.length).findSome? fun i => spec.itemChecks.findSome? fun c =>
        if c.fails (RowFrame.cell items i c.field) then some (c.violation i) else none := by
    intro l
    induction l with
    | nil => exact fun _ _ _ _ => rfl
    | cons row l ih =>
      intro k before hk hitems
      have hcell : ∀ field, RowFrame.cell items k field = row.find? field := by
        intro field
        rw [RowFrame.cell, hitems, ← hk, List.getElem?_append_right (Nat.le_refl _)]
        simp
      rw [List.zipIdx_cons, List.findSome?_cons, List.length_cons, List.range'_succ, List.findSome?_cons,
        ih (k + 1) (before ++ [row]) (by simp [hk]) (by simp [hitems]), itemChecks_findSome?]
      simp only [hcell]
      have hstrict : (fun field => match row.find? field with
          | none => some (InputViolation.nilItem field k)
          | some v => if v.isNull then some (.nilItem field k) else none) =
          fun field => if ItemCheck.fails ⟨true, field⟩ (row.find? field) then
            some (ItemCheck.violation ⟨true, field⟩ k) else none := by
        funext field
        cases row.find? field <;> rfl
      have hnull : (fun field => match row.find? field with
          | none => some (InputViolation.missingItem field k)
          | some _ => none) =
          fun field => if ItemCheck.fails ⟨false, field⟩ (row.find? field) then
            some (ItemCheck.violation ⟨false, field⟩ k) else none := by
        funext field
        cases row.find? field <;> rfl
      rw [hstrict, hnull]
  rw [goRowBuildInput, scanByItem, H items 0 [] rfl rfl, List.range_eq_range']

theorem GoColumnFrame.buildInput_eq (g : GoColumnFrame) (spec : InputFieldSpec) :
    g.buildInput spec = (goCommonViolation g.common spec).or (scanByItem spec.itemChecks g.rowCount g.cell) := by
  rw [buildInput, scanByItem]
  congr 2
  funext i
  rw [itemChecks_findSome?]
  congr 2
  · funext field
    rw [cell]
    cases g.columns.find? field <;> rfl
  · funext field
    rw [cell]
    cases hc : g.columns.find? field with
    | none => rfl
    | some c =>
      rw [Option.bind_some]
      show (if !(c.getD i none).isSome then some (InputViolation.missingItem field i) else none) =
        if (c.getD i none).isNone then some (.missingItem field i) else none
      cases c.getD i none <;> rfl

/-- The item checks of C++ on a frame whose scan of required fields is the one over its cells. -/
theorem itemViolation_eq {common : Row} {count : Nat} {cell : Nat → String → Option Variant}
    {strict : List String → Option (String × Nat)} {spec : InputFieldSpec}
    (hstrict : strict spec.strictItem = strictScan 0 count cell spec.strictItem) :
    ((Frame.ofCells common 0 count cell strict).strictItemViolation spec).or
        ((Frame.ofCells common 0 count cell strict).nullableItemViolation spec) =
      scanByField spec.itemChecks count cell := by
  rw [scanByField, itemChecks_findSome?]
  congr 1
  · rw [Frame.strictItemViolation]
    split
    · next hnil => rw [List.isEmpty_iff.mp hnil]; rfl
    · rw [Frame.ofCells]
      dsimp only
      rw [hstrict, strictScan, List.map_findSome?]
      congr 1
      funext field
      rw [Function.comp_apply, List.map_findSome?]
      congr 1
      funext i
      simp only [Function.comp_apply, Nat.zero_add, ItemCheck.fails, ItemCheck.violation, if_true]
      split <;> rfl
  · rw [Frame.nullableItemViolation]
    congr 1
    funext field
    refine List.findSome?_congr_mem fun i hi => ?_
    have hi : i < count := List.mem_range.mp hi
    simp only [Frame.ofCells, hi, decide_true, Bool.true_and, Nat.zero_add, ItemCheck.fails, ItemCheck.violation]
    cases cell i field <;> rfl

theorem RowFrame.inputViolation_eq (f : RowFrame) (spec : InputFieldSpec) :
    (f.view none).inputViolation spec =
      (goCommonViolation f.common spec).or (scanByField spec.itemChecks f.items.length (RowFrame.cell f.items)) := by
  have hfits : WindowFits none f.items.length := by simp [WindowFits, windowSpan]
  rw [RowFrame.view_eq hfits, Frame.inputViolation, commonViolation_eq_go]
  congr 1
  exact itemViolation_eq rfl

/-- Every required field of the specification has a column. -/
def ColumnFrame.HasColumns (f : ColumnFrame) (fields : List String) : Prop :=
  ∀ field ∈ fields, f.items.column field ≠ none

theorem ColumnFrame.inputViolation_eq {f : ColumnFrame} {spec : InputFieldSpec}
    (h : 0 < f.items.rowCount ∨ f.HasColumns spec.strictItem) :
    (f.view none).inputViolation spec =
      (goCommonViolation f.common spec).or (scanByField spec.itemChecks f.items.rowCount f.items.cell) := by
  rw [ColumnFrame.view_eq, Frame.inputViolation, commonViolation_eq_go]
  congr 1
  have hscan := @ColumnFrame.validateStrictItems_eq_strictScan f none spec.strictItem h
  exact itemViolation_eq hscan

/-- A required field without a column is refused, whatever the items. -/
theorem ColumnFrame.itemViolation_of_missing {f : ColumnFrame} {spec : InputFieldSpec}
    (h : ¬ f.HasColumns spec.strictItem) : (f.view none).strictItemViolation spec ≠ none := by
  simp only [HasColumns, not_forall, not_not] at h
  obtain ⟨field, hmem, hcol⟩ := h
  have hne : spec.strictItem.isEmpty = false := by
    cases hs : spec.strictItem with
    | nil => rw [hs] at hmem; exact absurd hmem (by simp)
    | cons _ _ => rfl
  rw [Frame.strictItemViolation, if_neg (by simp [hne])]
  show ((f.validateStrictItems none spec.strictItem).map _) ≠ none
  rw [ne_eq, Option.map_eq_none_iff, ColumnFrame.validateStrictItems_eq, List.findSome?_eq_none_iff]
  intro hall
  have := hall field hmem
  rw [if_pos hcol] at this
  exact absurd this (by simp)

/-! ## When the engines agree -/

/-- The two engines' column storages hold the same. -/
structure SameColumns (f : ColumnFrame) (g : GoColumnFrame) : Prop where
  common : f.common = g.common
  rowCount : f.items.rowCount = g.rowCount
  cells : ∀ i field, f.items.cell i field = g.cell i field

theorem or_right_inj_iff {α : Type} {a b c : Option α} : a.or b = a.or c ↔ a ≠ none ∨ b = c := by
  cases a <;> simp

/-- The C++ and the Go check of an operator's input give one verdict exactly when a common field fails, or
on items none fails or one failing cell comes first in both orders; column storage without items also
needs a column for every required field. -/
theorem buildInput_agrees_iff (spec : InputFieldSpec) :
    (∀ f : RowFrame, (f.view none).inputViolation spec = goRowBuildInput f.common f.items spec ↔
      goCommonViolation f.common spec ≠ none ∨
        FirstFailureAgrees spec.itemChecks f.items.length (RowFrame.cell f.items)) ∧
    ∀ (f : ColumnFrame) (g : GoColumnFrame), SameColumns f g →
      ((f.view none).inputViolation spec = g.buildInput spec ↔
        goCommonViolation f.common spec ≠ none ∨
          ((0 < f.items.rowCount ∨ f.HasColumns spec.strictItem) ∧
            FirstFailureAgrees spec.itemChecks f.items.rowCount f.items.cell)) := by
  constructor
  · intro f
    rw [RowFrame.inputViolation_eq, goRowBuildInput_eq, or_right_inj_iff, scanByField_eq_scanByItem]
  · intro f g hsame
    have hcell : g.cell = f.items.cell := by
      funext i field
      exact (hsame.cells i field).symm
    rw [GoColumnFrame.buildInput_eq, ← hsame.common, ← hsame.rowCount, hcell]
    by_cases hcols : 0 < f.items.rowCount ∨ f.HasColumns spec.strictItem
    · rw [ColumnFrame.inputViolation_eq hcols, or_right_inj_iff, scanByField_eq_scanByItem]
      simp [hcols]
    · simp only [not_or, Nat.not_lt, Nat.le_zero] at hcols
      have hbad := ColumnFrame.itemViolation_of_missing hcols.2
      have hgo : scanByItem spec.itemChecks f.items.rowCount f.items.cell = none := by
        rw [scanByItem, hcols.1]
        rfl
      have hcommon : (f.view none).commonViolation spec = goCommonViolation f.common spec := by
        rw [ColumnFrame.view_eq, commonViolation_eq_go]
      rw [Frame.inputViolation, hcommon, or_right_inj_iff, hgo]
      have hviol : ((f.view none).strictItemViolation spec).or ((f.view none).nullableItemViolation spec) ≠ none := by
        cases hs : (f.view none).strictItemViolation spec with
        | none => exact absurd hs hbad
        | some v => simp
      simp [hviol, hcols]

/-- Row storage and column storage with one item whose field `a` is null. -/
theorem buildInput_agrees_iff_null :
    let f : ColumnFrame := ⟨∅, (TypedColumnStore.empty 1).setColumn "a" ⟨.json, ⟨[.null], [true], rfl⟩⟩, []⟩
    let g : GoColumnFrame := ⟨∅, (∅ : SortedMap String GoColumn).insert "a" [some .null], 1⟩
    (f.view none).inputViolation { strictItem := ["a"] } = g.buildInput { strictItem := ["a"] } := by
  intro f g
  have hsame : SameColumns f g := by
    refine ⟨rfl, rfl, fun i field => ?_⟩
    rw [TypedColumnStore.cell, TypedColumnStore.column_setColumn (by rfl), GoColumnFrame.cell,
      SortedMap.find?_insert]
    by_cases hf : field = "a"
    · rw [if_pos hf, if_pos hf]
      cases i with
      | zero => rfl
      | succ i => exact Column.cell_of_size_le (Nat.succ_le_succ (Nat.zero_le i))
    · rw [if_neg hf, if_neg hf]
      rfl
  refine ((buildInput_agrees_iff { strictItem := ["a"] }).2 f g hsame).mpr (Or.inr ⟨Or.inl (by decide), Or.inr ⟨0, 0, ?_⟩⟩)
  exact ⟨by decide, by decide, by decide +kernel, fun _ _ _ _ _ => Nat.zero_le _, fun _ _ _ _ _ => Nat.zero_le _⟩

/-- Item 0 lacks `b` and item 1 lacks `a`: C++ reports `a` on item 1, Go `b` on item 0. -/
theorem buildInput_first_error_differs :
    let items : List Row := [(∅ : Row).insert "a" (.bool true), (∅ : Row).insert "b" (.bool true)]
    let spec : InputFieldSpec := { strictItem := ["a", "b"] }
    ((RowFrame.view ⟨∅, items, []⟩ none).inputViolation spec = some (.nilItem "a" 1) ∧
      ((ColumnFrame.ofItems ∅ items).view none).inputViolation spec = some (.nilItem "a" 1)) ∧
    goRowBuildInput ∅ items spec = some (.nilItem "b" 0) := by
  decide +kernel

end Pineapple
