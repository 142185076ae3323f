import Pineapple.ColumnStorage
import Pineapple.FrameReads

/-! # Reading a field of all items at once (`operator_io.go`, `operator_input.cpp`)

`ItemColumn` returns what `Item` returns item by item: from rows the input owns, from a view of the frame, from a
copy of it with the defaults filled in, or gathered one by one. The raw window of a `float64` column is offered only
where it says the same. -/

namespace Pineapple

/-- The column has a value for each of `count` items, the one that `item` reads. -/
structure ReadsAlike {α : Type} (column : List α) (count : Nat) (item : Nat → α) : Prop where
  length : column.length = count
  get : ∀ i < count, column[i]? = some (item i)

theorem ReadsAlike.of_map {α : Type} {column : List α} {count : Nat} {item : Nat → α}
    (h : column = (List.range count).map item) : ReadsAlike column count item := by
  refine ⟨by rw [h, List.length_map, List.length_range], fun i hi => ?_⟩
  rw [h, List.getElem?_map, List.getElem?_range hi]
  rfl

/-! ## The C++ input -/

/-- Over a frame that shows cells, the column is the items' reads. -/
theorem OperatorInput.readsAlike {input : OperatorInput} {common : Row} {offset count : Nat}
    {cell : Nat → String → Option Variant} {scan : List String → Option (String × Nat)}
    (h : input.frame = Frame.ofCells common offset count cell scan) (field : String) :
    ReadsAlike (input.itemColumn field) input.itemCount fun i => input.item i field := by
  have hcount : input.itemCount = count := by
    unfold OperatorInput.itemCount
    rw [h]
    rfl
  rw [hcount]
  refine .of_map ?_
  unfold OperatorInput.itemColumn
  rw [h]
  unfold Frame.ofCells
  rw [List.map_map]
  refine List.map_congr_left fun i hi => ?_
  have hi := List.mem_range.mp hi
  have hitem : input.frame.item i field = (cell (offset + i) field).getD .null := by
    rw [h]
    exact if_pos hi
  unfold OperatorInput.item
  rw [hcount, if_neg (Nat.not_le.mpr hi), hitem]
  rfl

/-! ## The Go input -/

namespace GoColumns
variable {β : Type}

/-- A `FrameReader`: the rows of a row frame, or a column frame. -/
inductive FrameReader (β : Type) where
  | row (items : List (SortedMap String (Value β)))
  | column (f : ColumnFrame β)

namespace FrameReader

def item : FrameReader β → Nat → String → Value β
  | row items, index, field => (items[index]?.bind (·.find? field)).getD .nil
  | column f, index, field => f.item index field

/-- `ItemColumnView`: nothing when the window does not fit. -/
def itemColumnView : FrameReader β → String → (offset count : Nat) → Option (List (Value β))
  | row items, field, offset, count =>
    if offset + count > items.length then none
    else some ((List.range count).map fun i => (items[offset + i]?.bind (·.find? field)).getD .nil)
  | column f, field, offset, count =>
    if offset + count > f.rowCount then none
    else match f.columns.find? field with
      | none => some (List.replicate count .nil)
      | some col => some (col.view offset count)

/-- `ItemColumnFloat64View`, which a row frame does not have. -/
def itemColumnFloat64View : FrameReader β → String → (offset count : Nat) → Option (List Binary64)
  | row _, _, _, _ => none
  | column f, field, offset, count =>
    if offset + count > f.rowCount then none
    else (f.columns.find? field).bind (·.float64Window offset count)

end FrameReader

/-- `OperatorInput`: rows of its own, or a window of a frame with the item defaults. -/
inductive OperatorInput (β : Type) where
  | materialized (items : List (SortedMap String (Value β)))
  | lazy (frame : FrameReader β) (itemDefaults : SortedMap String (Value β)) (offset count : Nat)

namespace OperatorInput

def itemCount : OperatorInput β → Nat
  | materialized items => items.length
  | lazy _ _ _ count => count

def item : OperatorInput β → Nat → String → Value β
  | materialized items, index, field => (items[index]?.bind (·.find? field)).getD .nil
  | lazy frame itemDefaults offset count, index, field =>
    if count ≤ index then .nil
    else
      let v := frame.item (offset + index) field
      if v.isNil then (itemDefaults.find? field).getD v else v

/-- The field's default, if it has one that is not nil. -/
def defaultOf (itemDefaults : SortedMap String (Value β)) (field : String) : Option (Value β) :=
  (itemDefaults.find? field).filter fun d => !d.isNil

def fillDefault (default? : Option (Value β)) (v : Value β) : Value β := if v.isNil then default?.getD v else v

def itemColumn : OperatorInput β → String → List (Value β)
  | materialized items, field => items.map fun item => (item.find? field).getD .nil
  | lazy frame itemDefaults offset count, field =>
    let default? := defaultOf itemDefaults field
    match frame.itemColumnView field offset count with
    | some view => if default?.isSome then view.map (fillDefault default?) else view
    | none => (List.range count).map fun i => fillDefault default? (frame.item (offset + i) field)

def itemColumnFloat64 : OperatorInput β → String → Option (List Binary64)
  | materialized _, _ => none
  | lazy frame _ offset count, field => frame.itemColumnFloat64View field offset count

end OperatorInput

/-- The frame's columns, if it has any, are as long as the frame. -/
def FrameReader.Sized : FrameReader β → Prop
  | row _ => True
  | column f => ∀ field c, f.columns.find? field = some c → c.len = f.rowCount

theorem eq_nil_of_isNil {v : Value β} (h : v.isNil = true) : v = .nil := by
  cases v <;> first | rfl | exact absurd h (by simp [Value.isNil])

/-- A view of a window is its items' reads. -/
theorem FrameReader.view_eq {frame : FrameReader β} (hsized : frame.Sized) {field : String} {offset count : Nat}
    {view : List (Value β)} (h : frame.itemColumnView field offset count = some view) :
    view = (List.range count).map fun i => frame.item (offset + i) field := by
  cases frame with
  | row items =>
    rw [itemColumnView] at h
    split at h
    · exact absurd h nofun
    · exact (Option.some.inj h).symm
  | column f =>
    rw [itemColumnView] at h
    split at h
    · exact absurd h nofun
    · next hfits =>
      cases hc : f.columns.find? field with
      | none =>
        rw [hc] at h
        have hnil : ∀ i ∈ List.range count, FrameReader.item (.column f) (offset + i) field = .nil := by
          intro i _
          rw [FrameReader.item, ColumnFrame.item, hc]
          exact ite_self _
        rw [List.map_congr_left hnil, List.map_const', List.length_range]
        exact (Option.some.inj h).symm
      | some c =>
        rw [hc] at h
        have hlen : offset + count ≤ c.len := by
          rw [hsized field c hc]
          omega
        rw [← Option.some.inj h, Column.view_eq hlen]
        refine List.map_congr_left fun i hi => ?_
        have hi := List.mem_range.mp hi
        rw [FrameReader.item, ColumnFrame.item, if_neg (by omega), hc]

/-- A raw view of a window boxes to its items' reads, and none of them is nil. -/
theorem FrameReader.float64View_eq {frame : FrameReader β} (hsized : frame.Sized) {field : String}
    {offset count : Nat} {vals : List Binary64} (h : frame.itemColumnFloat64View field offset count = some vals) :
    vals.map Value.float64 = (List.range count).map fun i => frame.item (offset + i) field := by
  cases frame with
  | row items => exact absurd h nofun
  | column f =>
    rw [itemColumnFloat64View] at h
    split at h
    · exact absurd h nofun
    · next hfits =>
      obtain ⟨c, hc, hwindow⟩ := Option.bind_eq_some_iff.mp h
      have hlen : offset + count ≤ c.len := by
        rw [hsized field c hc]
        omega
      rw [Column.float64Window_eq hlen hwindow]
      refine List.map_congr_left fun i hi => ?_
      have hi := List.mem_range.mp hi
      rw [FrameReader.item, ColumnFrame.item, if_neg (by omega), hc]

/-- A nil default fills nothing in, so it may be left out. -/
theorem fillDefault_defaultOf (itemDefaults : SortedMap String (Value β)) (field : String) (v : Value β) :
    OperatorInput.fillDefault (OperatorInput.defaultOf itemDefaults field) v =
      if v.isNil then (itemDefaults.find? field).getD v else v := by
  unfold OperatorInput.fillDefault OperatorInput.defaultOf
  cases hv : v.isNil with
  | false => rfl
  | true =>
    rw [if_pos rfl, if_pos rfl, eq_nil_of_isNil hv]
    cases itemDefaults.find? field with
    | none => rfl
    | some d =>
      cases hd : d.isNil with
      | false => rw [Option.filter_some, hd]; rfl
      | true => rw [Option.filter_some, hd, eq_nil_of_isNil hd]; rfl

/-- The column that an input returns, and the raw one if it offers one, are the items' reads. -/
theorem OperatorInput.itemColumn_eq {input : OperatorInput β}
    (hsized : ∀ frame itemDefaults offset count, input = .lazy frame itemDefaults offset count → frame.Sized)
    (field : String) :
    input.itemColumn field = (List.range input.itemCount).map (fun i => input.item i field) ∧
      ∀ vals, input.itemColumnFloat64 field = some vals →
        vals.map Value.float64 = (List.range input.itemCount).map fun i => input.item i field := by
  cases input with
  | materialized items =>
    refine ⟨?_, fun vals h => absurd h nofun⟩
    refine List.ext_getElem? fun i => ?_
    rw [itemColumn, itemCount, List.getElem?_map, List.getElem?_map]
    by_cases hi : i < items.length
    · rw [List.getElem?_range hi, List.getElem?_eq_getElem hi, Option.map_some, Option.map_some, item,
        List.getElem?_eq_getElem hi]
      rfl
    · rw [List.getElem?_eq_none (Nat.le_of_not_lt hi), List.getElem?_eq_none (by simpa using hi)]
      rfl
  | lazy frame itemDefaults offset count =>
    have hframe := hsized frame itemDefaults offset count rfl
    -- each item read is the frame's, with the default filled in
    have hitem : ∀ i ∈ List.range count, (OperatorInput.lazy frame itemDefaults offset count).item i field =
        fillDefault (defaultOf itemDefaults field) (frame.item (offset + i) field) := by
      intro i hi
      rw [fillDefault_defaultOf, item, if_neg (Nat.not_le.mpr (List.mem_range.mp hi))]
    constructor
    · rw [itemCount, List.map_congr_left hitem, itemColumn]
      cases hview : frame.itemColumnView field offset count with
      | none => rfl
      | some view =>
        show (if (defaultOf itemDefaults field).isSome then view.map (fillDefault (defaultOf itemDefaults field))
          else view) = _
        rw [FrameReader.view_eq hframe hview]
        split
        · rw [List.map_map]
          rfl
        · next hdefault =>
          have hnone : defaultOf itemDefaults field = none := by simpa using hdefault
          refine List.map_congr_left fun i _ => ?_
          rw [hnone]
          unfold fillDefault
          exact (ite_self _).symm
    · intro vals hvals
      rw [itemCount, List.map_congr_left hitem]
      have hraw := FrameReader.float64View_eq hframe hvals
      rw [hraw]
      refine List.map_congr_left fun i hi => ?_
      have hget := congrArg (·[i]?) hraw
      simp only [List.getElem?_map, List.getElem?_range (List.mem_range.mp hi), Option.map_some] at hget
      obtain ⟨d, -, hd⟩ := Option.map_eq_some_iff.mp hget
      rw [← hd]
      rfl

/-- The batched reads of an input are its item reads. -/
structure OperatorInput.BatchedReads (input : OperatorInput β) (field : String) : Prop where
  column : ReadsAlike (input.itemColumn field) input.itemCount fun i => input.item i field
  raw : ∀ vals, input.itemColumnFloat64 field = some vals →
    ReadsAlike (vals.map Value.float64) input.itemCount fun i => input.item i field

theorem OperatorInput.batchedReads {input : OperatorInput β}
    (hsized : ∀ frame itemDefaults offset count, input = .lazy frame itemDefaults offset count → frame.Sized)
    (field : String) : input.BatchedReads field :=
  ⟨.of_map (itemColumn_eq hsized field).1, fun vals hvals => .of_map ((itemColumn_eq hsized field).2 vals hvals)⟩

/-- Every frame that a request's operators leave is sized. -/
theorem FrameReader.sized_applyAll (env : Env β) (common : SortedMap String (Value β))
    (items : List (SortedMap String (Value β))) (steps : List (OutputStep β)) :
    (FrameReader.column ((ColumnFrame.ofItems common items).applyAll env steps)).Sized := fun field c hc =>
  ((((Denotes.ofItems common items).applyAll env steps).storesRows).sizes field c hc).1

end GoColumns

/-- On every frame of either storage, over the whole of it or any window, and for every field and every default, the
column read is the item reads, and so is the raw column where Go offers it. -/
theorem batched_reads_agree :
    (∀ (f : RowFrame) (window : Option Window), WindowFits window f.items.length → ∀ spec field,
      let input : OperatorInput := ⟨f.view window, spec⟩
      ReadsAlike (input.itemColumn field) input.itemCount fun i => input.item i field) ∧
    (∀ (f : ColumnFrame) (window : Option Window) spec field,
      let input : OperatorInput := ⟨f.view window, spec⟩
      ReadsAlike (input.itemColumn field) input.itemCount fun i => input.item i field) ∧
    ∀ (β : Type) (items : List (SortedMap String (GoColumns.Value β))) (field : String),
      (GoColumns.OperatorInput.materialized items).BatchedReads field ∧
      ∀ (itemDefaults : SortedMap String (GoColumns.Value β)) (offset count : Nat),
        (GoColumns.OperatorInput.lazy (.row items) itemDefaults offset count).BatchedReads field ∧
        ∀ (env : GoColumns.Env β) (common : SortedMap String (GoColumns.Value β))
          (steps : List (GoColumns.OutputStep β)),
          (GoColumns.OperatorInput.lazy (.column ((GoColumns.ColumnFrame.ofItems common items).applyAll env steps))
            itemDefaults offset count).BatchedReads field := by
  refine ⟨fun f window hfits spec field => ?_, fun f window spec field => ?_, fun β items field => ⟨?_, ?_⟩⟩
  · exact OperatorInput.readsAlike (RowFrame.view_eq hfits) field
  · exact OperatorInput.readsAlike (ColumnFrame.view_eq f window) field
  · exact GoColumns.OperatorInput.batchedReads (fun _ _ _ _ h => by cases h) field
  · intro itemDefaults offset count
    refine ⟨GoColumns.OperatorInput.batchedReads (fun _ _ _ _ h => ?_) field, fun env common steps =>
      GoColumns.OperatorInput.batchedReads (fun _ _ _ _ h => ?_) field⟩
    · cases h
      trivial
    · cases h
      exact GoColumns.FrameReader.sized_applyAll env common items steps

/-- The second item of two, as a shard, with a default for the field it lacks. -/
theorem batched_reads_agree_shard :
    let f : RowFrame := ⟨∅, [(∅ : Row).insert "x" (.bool true), ∅], []⟩
    let input : OperatorInput := ⟨f.view (some ⟨1, 1⟩), { defaultedItem := [("x", .string "d")] }⟩
    ReadsAlike (input.itemColumn "x") input.itemCount fun i => input.item i "x" :=
  batched_reads_agree.1 ⟨∅, [(∅ : Row).insert "x" (.bool true), ∅], []⟩ (some ⟨1, 1⟩) (Nat.le_refl 2)
    { defaultedItem := [("x", .string "d")] } "x"

end Pineapple
