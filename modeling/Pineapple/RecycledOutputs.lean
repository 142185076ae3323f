import Mathlib.Data.List.Flatten
import Mathlib.Data.List.Nodup
import Mathlib.Logic.Function.Basic
import Mathlib.Logic.Relation
import Pineapple.Snapshots

/-! # Recycled outputs and recorded snapshots (`node_body`, `Run`)

A C++ worker keeps one `OperatorOutput` and resets it before and after every node, and the Go engine takes its
outputs from a pool and puts them back reset. A debug snapshot is recorded before the output is applied. In
C++ it is a copy. In Go it shares the maps of the added rows with the output and, in row storage, with the
frame that takes them over. -/

namespace Pineapple
open Relation

/-! ## What an operator emits -/

/-- A call of one of the writers of an output. -/
inductive OutputCall where
  | setCommon (field : String) (value : Variant)
  | setItem (index : Int) (field : String) (value : Variant)
  | setColumn (field : String) (vals : List Binary64)
  | addItem (row : Row)
  | removeItem (index : Int)
  | setItemOrder (order : List Int)
  | setWarning (message : String)
deriving DecidableEq

def OperatorOutput.call (out : OperatorOutput) : OutputCall → OperatorOutput
  | .setCommon field value => { out with commonWrites := out.commonWrites.insert field value }
  | .setItem index field value => { out with itemWrites := out.itemWrites ++ [⟨index, field, value⟩] }
  | .setColumn field vals => { out with columnWrites := out.columnWrites ++ [⟨field, vals⟩] }
  | .addItem row => { out with addedItems := out.addedItems ++ [row] }
  | .removeItem index => { out with removedItems := out.removedItems.insert index () }
  | .setItemOrder order => { out with itemOrder := some order }
  | .setWarning message => { out with warning := out.warning.or (some message) }

/-- What these calls make of a fresh output. -/
def emitted (calls : List OutputCall) : OperatorOutput := calls.foldl OperatorOutput.call {}

/-! ## The C++ worker -/

/-- The data members of an `OperatorOutput`. -/
structure OutputBuffer where
  commonWrites : Row := ∅
  itemWrites : List ItemWrite := []
  columnWrites : List DoubleColumnWrite := []
  addedItems : List Row := []
  removedItems : SortedMap Int Unit := ∅
  itemOrder : List Int := []
  hasItemOrder : Bool := false
  warning : String := ""
  hasWarning : Bool := false

namespace OutputBuffer

def call (b : OutputBuffer) : OutputCall → OutputBuffer
  | .setCommon field value => { b with commonWrites := b.commonWrites.insert field value }
  | .setItem index field value => { b with itemWrites := b.itemWrites ++ [⟨index, field, value⟩] }
  | .setColumn field vals => { b with columnWrites := b.columnWrites ++ [⟨field, vals⟩] }
  | .addItem row => { b with addedItems := b.addedItems ++ [row] }
  | .removeItem index => { b with removedItems := b.removedItems.insert index () }
  | .setItemOrder order => { b with itemOrder := order, hasItemOrder := true }
  | .setWarning message => if b.hasWarning then b else { b with warning := message, hasWarning := true }

/-- `reset`: every container cleared or released, every flag lowered. -/
def reset (b : OutputBuffer) : OutputBuffer :=
  { b with
    itemWrites := [], addedItems := [], columnWrites := [], itemOrder := [], commonWrites := ∅, warning := "",
    removedItems := ∅, hasItemOrder := false, hasWarning := false }

/-- What the engine reads of the members. -/
def read (b : OutputBuffer) : OperatorOutput where
  commonWrites := b.commonWrites
  itemWrites := b.itemWrites
  columnWrites := b.columnWrites
  addedItems := b.addedItems
  removedItems := b.removedItems
  itemOrder := if b.hasItemOrder then some b.itemOrder else none
  warning := if b.hasWarning then some b.warning else none

@[simp] theorem reset_eq (b : OutputBuffer) : b.reset = {} := rfl

theorem read_call (b : OutputBuffer) (c : OutputCall) : (b.call c).read = b.read.call c := by
  cases c with
  | setWarning message => by_cases hw : b.hasWarning = true <;> simp [call, read, OperatorOutput.call, hw]
  | _ => rfl

theorem read_calls (b : OutputBuffer) (calls : List OutputCall) :
    (calls.foldl call b).read = calls.foldl OperatorOutput.call b.read := by
  induction calls generalizing b with
  | nil => rfl
  | cons c rest ih => rw [List.foldl_cons, List.foldl_cons, ih, read_call]

end OutputBuffer

/-- A node whose operator has returned an output that passed the checks. -/
structure CppTask where
  request : Nat
  op : String
  fromRecall : Bool
  calls : List OutputCall
  /-- built for the trace of a debug operator -/
  snapshot : Option OutputSnapshot

/-- The workers with their buffers, the frames of the requests, and the recorded snapshots, each with the calls of
its operator. -/
structure CppWorkers (σ : Type) where
  buffers : Nat → OutputBuffer := fun _ => {}
  held : Nat → Option CppTask := fun _ => none
  frames : Nat → σ
  traces : List (OutputSnapshot × List OutputCall) := []

/-- What one worker, or a new request, does. Frames are values, and `apply` may leave any `left` in the buffer. -/
inductive CppWorkersStep {σ : Type} (apply : OperatorOutput → String → Bool → σ → Outcome PineError σ) :
    CppWorkers σ → CppWorkers σ → Prop
  | request {s r f} : CppWorkersStep apply s { s with frames := Function.update s.frames r f }
  /-- the node is skipped, or fails before its operator is called -/
  | skips {s w} : s.held w = none →
      CppWorkersStep apply s { s with buffers := Function.update s.buffers w (s.buffers w).reset }
  /-- the operator throws, or a check refuses its output -/
  | fails {s w} {calls : List OutputCall} : s.held w = none →
      CppWorkersStep apply s { s with
        buffers := Function.update s.buffers w (calls.foldl .call (s.buffers w).reset).reset }
  | returns {s w} {task : CppTask} {debug : Bool} : s.held w = none →
      task.snapshot =
        (if debug then some (snapshotOutput (task.calls.foldl .call (s.buffers w).reset).read) else none) →
      CppWorkersStep apply s { s with
        buffers := Function.update s.buffers w (task.calls.foldl .call (s.buffers w).reset)
        held := Function.update s.held w (some task) }
  | applies {s w f} {task : CppTask} {left : OutputBuffer} : s.held w = some task →
      apply (s.buffers w).read task.op task.fromRecall (s.frames task.request) = .ok f →
      CppWorkersStep apply s { s with
        buffers := Function.update s.buffers w left.reset
        held := Function.update s.held w none
        frames := Function.update s.frames task.request f
        traces := s.traces ++ task.snapshot.toList.map fun snapshot => (snapshot, task.calls) }
  | applyFails {s w e f} {task : CppTask} {left : OutputBuffer} : s.held w = some task →
      apply (s.buffers w).read task.op task.fromRecall (s.frames task.request) = .fail e f →
      CppWorkersStep apply s { s with
        buffers := Function.update s.buffers w left.reset
        held := Function.update s.held w none
        frames := Function.update s.frames task.request f }

/-- What a worker's buffer holds: nothing between two nodes, and else what its operator emitted, with the snapshot
of that. -/
def OutputBuffer.Holds (b : OutputBuffer) : Option CppTask → Prop
  | none => b = {}
  | some task => b.read = emitted task.calls ∧ ∀ snap ∈ task.snapshot, snap = snapshotOutput (emitted task.calls)

/-- Every operator starts with a fresh output, a frame receives what the operator emitted, and every recorded
snapshot shows it. -/
structure CppWorkers.Right {σ : Type} (s : CppWorkers σ) : Prop where
  workers : ∀ w, (s.buffers w).Holds (s.held w)
  kept : ∀ tr ∈ s.traces, tr.1 = snapshotOutput (emitted tr.2)

theorem OutputBuffer.read_run (b : OutputBuffer) (calls : List OutputCall) :
    (calls.foldl call b.reset).read = emitted calls := by
  rw [read_calls]
  rfl

theorem CppWorkersStep.right {σ : Type} {apply : OperatorOutput → String → Bool → σ → Outcome PineError σ}
    {s s' : CppWorkers σ} (h : CppWorkersStep apply s s') (hs : s.Right) : s'.Right := by
  have hset : ∀ {w : Nat} {b : OutputBuffer} {t : Option CppTask}, b.Holds t →
      ∀ v, (Function.update s.buffers w b v).Holds (Function.update s.held w t v) := by
    intro w b t hb v
    by_cases hv : v = w
    · rw [hv, Function.update_self, Function.update_self]
      exact hb
    · rw [Function.update_of_ne hv, Function.update_of_ne hv]
      exact hs.workers v
  have hidle : ∀ {w : Nat} {b : OutputBuffer}, s.held w = none → b = {} →
      ∀ v, (Function.update s.buffers w b v).Holds (s.held v) := by
    intro w b hw hb
    have hall := hset (w := w) (b := b) (t := none) hb
    rwa [← hw, Function.update_eq_self] at hall
  cases h with
  | request => exact ⟨hs.workers, hs.kept⟩
  | skips hw => exact ⟨hidle hw rfl, hs.kept⟩
  | fails hw => exact ⟨hidle hw rfl, hs.kept⟩
  | @returns w task debug _ hsnap =>
    refine ⟨hset ⟨OutputBuffer.read_run .., fun snap hmem => ?_⟩, hs.kept⟩
    rw [hsnap, OutputBuffer.read_run] at hmem
    cases debug with
    | true => exact (Option.some.inj hmem).symm
    | false => exact absurd hmem nofun
  | @applies w f task left hw _ =>
    refine ⟨hset (OutputBuffer.reset_eq left), fun tr htr => ?_⟩
    rcases List.mem_append.mp htr with hold | hnew
    · exact hs.kept tr hold
    · obtain ⟨snap, hsnap, rfl⟩ := List.mem_map.mp hnew
      have hworker := hs.workers w
      rw [hw] at hworker
      exact hworker.2 snap (Option.mem_toList.mp hsnap)
  | applyFails => exact ⟨hset (OutputBuffer.reset_eq _), hs.kept⟩

theorem CppWorkers.right_of_run {σ : Type} {apply : OperatorOutput → String → Bool → σ → Outcome PineError σ}
    {frames : Nat → σ} {s : CppWorkers σ} (h : ReflTransGen (CppWorkersStep apply) { frames } s) : s.Right := by
  induction h with
  | refl => exact ⟨fun _ => rfl, fun _ htr => absurd htr List.not_mem_nil⟩
  | tail _ hstep ih => exact hstep.right ih

/-! ## Go: maps on the heap -/

/-- The maps of rows: those from `next` on are not made yet. -/
structure RowHeap where
  rows : Nat → Row := fun _ => ∅
  next : Nat := 0

def RowHeap.alloc (h : RowHeap) (row : Row) : RowHeap := ⟨Function.update h.rows h.next row, h.next + 1⟩

/-- An `OperatorOutput` of Go; an added row is the map the operator handed over. -/
structure GoOutput where
  commonWrites : Row := ∅
  itemWrites : List ItemWrite := []
  columnWrites : List DoubleColumnWrite := []
  addedItems : List Nat := []
  removedItems : SortedMap Int Unit := ∅
  itemOrder : Option (List Int) := none
  warning : Option String := none

namespace GoOutput

/-- A call of a writer; every added row is a map of its own. -/
def call (x : RowHeap × GoOutput) : OutputCall → RowHeap × GoOutput
  | .setCommon field value => (x.1, { x.2 with commonWrites := x.2.commonWrites.insert field value })
  | .setItem index field value => (x.1, { x.2 with itemWrites := x.2.itemWrites ++ [⟨index, field, value⟩] })
  | .setColumn field vals => (x.1, { x.2 with columnWrites := x.2.columnWrites ++ [⟨field, vals⟩] })
  | .addItem row => (x.1.alloc row, { x.2 with addedItems := x.2.addedItems ++ [x.1.next] })
  | .removeItem index => (x.1, { x.2 with removedItems := x.2.removedItems.insert index () })
  | .setItemOrder order => (x.1, { x.2 with itemOrder := some order })
  | .setWarning message => (x.1, { x.2 with warning := x.2.warning.or (some message) })

/-- `Reset`: slices are truncated, maps are emptied key by key. -/
def reset (o : GoOutput) : GoOutput :=
  { o with
    itemWrites := o.itemWrites.take 0
    columnWrites := o.columnWrites.take 0
    addedItems := o.addedItems.take 0
    commonWrites := o.commonWrites.keys.foldl SortedMap.erase o.commonWrites
    removedItems := o.removedItems.keys.foldl SortedMap.erase o.removedItems
    itemOrder := none
    warning := none }

/-- What is in the output, its added rows being what their maps hold. -/
def read (o : GoOutput) (rows : Nat → Row) : OperatorOutput where
  commonWrites := o.commonWrites
  itemWrites := o.itemWrites
  columnWrites := o.columnWrites
  addedItems := o.addedItems.map rows
  removedItems := o.removedItems
  itemOrder := o.itemOrder
  warning := o.warning

end GoOutput

@[simp] theorem GoOutput.reset_eq (o : GoOutput) : o.reset = {} := by
  unfold reset
  rw [SortedMap.foldl_erase_keys, SortedMap.foldl_erase_keys]
  rfl

/-- What the calls of an operator do: the maps that were there are as before, the added rows are new maps, and the
output reads as what is emitted. -/
structure GoOutput.Run (h : RowHeap) (out : OperatorOutput) (x : RowHeap × GoOutput) : Prop where
  grows : h.next ≤ x.1.next
  old : ∀ a < h.next, x.1.rows a = h.rows a
  added : ∀ a ∈ x.2.addedItems, h.next ≤ a ∧ a < x.1.next
  nodup : x.2.addedItems.Nodup
  read : x.2.read x.1.rows = out

theorem GoOutput.read_congr {o : GoOutput} {rows rows' : Nat → Row} (h : ∀ a ∈ o.addedItems, rows a = rows' a) :
    o.read rows = o.read rows' := by
  unfold read
  rw [List.map_congr_left h]

theorem GoOutput.Run.call {h : RowHeap} {out : OperatorOutput} {x : RowHeap × GoOutput} (hx : Run h out x)
    (c : OutputCall) : Run h (out.call c) (GoOutput.call x c) := by
  obtain ⟨hgrows, hold, hadded, hnodup, rfl⟩ := hx
  cases c with
  | addItem row =>
    have hrows : ∀ a < x.1.next, (x.1.alloc row).rows a = x.1.rows a :=
      fun a ha => Function.update_of_ne (Nat.ne_of_lt ha) ..
    refine ⟨Nat.le_succ_of_le hgrows, fun a ha => ?_, fun a ha => ?_, ?_, ?_⟩
    · rw [← hold a ha]
      exact hrows a (Nat.lt_of_lt_of_le ha hgrows)
    · rcases List.mem_append.mp ha with ha | ha
      · exact ⟨(hadded a ha).1, Nat.lt_succ_of_lt (hadded a ha).2⟩
      · rw [List.mem_singleton.mp ha]
        exact ⟨hgrows, Nat.lt_succ_self _⟩
    · refine List.nodup_append.mpr ⟨hnodup, List.nodup_singleton _, fun a ha b hb => ?_⟩
      rw [List.mem_singleton.mp hb]
      exact Nat.ne_of_lt (hadded a ha).2
    · have hmap : x.2.addedItems.map (x.1.alloc row).rows = x.2.addedItems.map x.1.rows :=
        List.map_congr_left fun a ha => hrows a (hadded a ha).2
      have hnew : (x.1.alloc row).rows x.1.next = row := Function.update_self ..
      show OperatorOutput.mk _ _ _ ((x.2.addedItems ++ [x.1.next]).map (x.1.alloc row).rows) _ _ _ = _
      rw [List.map_append, hmap, List.map_singleton, hnew]
      rfl
  | _ => exact ⟨hgrows, hold, hadded, hnodup, rfl⟩

theorem GoOutput.run (h : RowHeap) (calls : List OutputCall) :
    Run h (emitted calls) (calls.foldl GoOutput.call (h, {})) := by
  have hall : ∀ out x, Run h out x → Run h (calls.foldl OperatorOutput.call out) (calls.foldl GoOutput.call x) := by
    induction calls with
    | nil => exact fun _ _ hx => hx
    | cons c rest ih => exact fun out x hx => ih _ _ (hx.call c)
  exact hall {} (h, {}) ⟨Nat.le_refl _, fun _ _ => rfl, fun _ ha => absurd ha List.not_mem_nil, List.nodup_nil, rfl⟩

/-! ### Snapshots -/

/-- A recorded snapshot: its parts are copies, but for the maps of the added rows. -/
structure GoSnapshot where
  commonWrites : Option Row
  itemWrites : Option (SortedMap Int Row)
  addedItems : Option (List Nat)
  removedItems : Option (List Int)

/-- What the snapshot shows. -/
def GoSnapshot.read (snap : GoSnapshot) (rows : Nat → Row) : OutputSnapshot where
  commonWrites := snap.commonWrites
  itemWrites := snap.itemWrites
  addedItems := snap.addedItems.map (·.map rows)
  removedItems := snap.removedItems

/-- `snapshotOutput`, with the removed indices in the order of a map's range. -/
def GoOutput.snapshot (o : GoOutput) (removed : List Int) : GoSnapshot :=
  let copied := goSnapshotOutput (o.read fun _ => ∅) removed
  { commonWrites := copied.commonWrites
    itemWrites := copied.itemWrites
    addedItems := if o.addedItems ≠ [] then some o.addedItems else none
    removedItems := copied.removedItems }

theorem GoOutput.snapshot_read (o : GoOutput) (removed : List Int) (rows : Nat → Row) :
    (o.snapshot removed).read rows = goSnapshotOutput (o.read rows) removed := by
  have hadded : (if o.addedItems ≠ [] then some o.addedItems else none).map (·.map rows) =
      if o.addedItems.map rows ≠ [] then some (o.addedItems.map rows) else none := by
    by_cases hnil : o.addedItems = []
    · rw [hnil]
      rfl
    · rw [if_pos hnil, if_pos (by simpa using hnil)]
      rfl
  show OutputSnapshot.mk _ _ ((if o.addedItems ≠ [] then some o.addedItems else none).map (·.map rows)) _ = _
  rw [hadded]
  rfl

theorem GoOutput.snapshot_addedItems (o : GoOutput) (removed : List Int) :
    (o.snapshot removed).addedItems.getD [] = o.addedItems := by
  show (if o.addedItems ≠ [] then some o.addedItems else none).getD [] = o.addedItems
  by_cases hnil : o.addedItems = []
  · rw [hnil]
    rfl
  · rw [if_pos hnil]
    rfl

theorem GoSnapshot.read_congr {snap : GoSnapshot} {rows rows' : Nat → Row}
    (h : ∀ a ∈ snap.addedItems.getD [], rows a = rows' a) : snap.read rows = snap.read rows' := by
  unfold read
  cases hadded : snap.addedItems with
  | none => rfl
  | some as =>
    rw [hadded] at h
    rw [Option.map_some, Option.map_some, List.map_congr_left (l := as) h]

/-! ### Row storage -/

/-- A frame of row storage: its items are maps on the heap. -/
structure GoRows where
  rows : Nat → Row
  common : Row
  items : List Nat

namespace GoRows

def put (a : Nat) (field : String) (v : Variant) (f : GoRows) : GoRows :=
  { f with rows := Function.update f.rows a ((f.rows a).insert field v) }

def writeCommon (op : String) (w : String × Variant) : GoRows → Outcome PineError GoRows :=
  Outcome.checked (commonWriteError op w) fun f => { f with common := f.common.insert w.1 w.2 }

def writeItem (op : String) (w : ItemWrite) (f : GoRows) : Outcome PineError GoRows :=
  Outcome.checked (itemWriteError op f.items.length w) (fun f => match f.items[w.index.toNat]? with
    | some a => f.put a w.field w.value
    | none => f) f

def writeColumn (op : String) (cw : DoubleColumnWrite) (f : GoRows) : Outcome PineError GoRows :=
  Outcome.checked (columnWriteError op f.items.length cw) (fun f =>
    (f.items.zip cw.vals).foldl (fun f e => f.put e.1 cw.field (.number e.2)) f) f

def removeItems (op : String) (removed : List Int) (f : GoRows) : Outcome PineError GoRows :=
  Outcome.checked (removalError op f.items.length removed) (fun f => { f with items := dropRows removed f.items }) f

def reorder (op : String) (order? : Option (List Int)) (f : GoRows) : Outcome PineError GoRows :=
  match order? with
  | none => .ok f
  | some order =>
    Outcome.checked (orderError op f.items.length order) (fun f => { f with items := gatherRows order f.items }) f

/-- The frame takes the map over, with its source when it comes from a recall. -/
def addItem (op : String) (fromRecall : Bool) (a : Nat) (f : GoRows) : Outcome PineError GoRows :=
  Outcome.checked ((f.rows a).entries.findSome? (addedFieldError op)) (fun f =>
    let f := if fromRecall then f.put a "_source" (.string op) else f
    { f with items := f.items ++ [a] }) f

/-- `RowFrame.ApplyOutput`, with the errors as the scheduler wraps them. -/
def applyOutput (o : GoOutput) (op : String) (fromRecall : Bool) (f : GoRows) : Outcome PineError GoRows :=
  Outcome.forEach (writeCommon op) o.commonWrites.entries f
    |>.andThen (Outcome.forEach (writeItem op) o.itemWrites)
    |>.andThen (Outcome.forEach (writeColumn op) o.columnWrites)
    |>.andThen (removeItems op o.removedItems.keys)
    |>.andThen (reorder op o.itemOrder)
    |>.andThen (Outcome.forEach (addItem op fromRecall) o.addedItems)

end GoRows

/-- The rows of a frame that an output writes to: by a cell, or by a whole column. -/
def GoOutput.Writes (o : GoOutput) (items : List Nat) (a : Nat) : Prop :=
  (∃ w ∈ o.itemWrites, 0 ≤ w.index ∧ items[w.index.toNat]? = some a) ∨ o.columnWrites ≠ [] ∧ a ∈ items

namespace GoRows
variable {o : GoOutput} {op : String} {fromRecall : Bool} {f : GoRows}

theorem rows_put_of_ne {a b : Nat} (h : b ≠ a) (field : String) (v : Variant) (f : GoRows) :
    (f.put a field v).rows b = f.rows b := Function.update_of_ne h ..

theorem items_foldl_put (field : String) (es : List (Nat × Binary64)) (f : GoRows) :
    (es.foldl (fun f e => f.put e.1 field (.number e.2)) f).items = f.items := by
  induction es generalizing f with
  | nil => rfl
  | cons e rest ih => exact ih (f.put e.1 field (.number e.2))

theorem rows_foldl_put {b : Nat} (field : String) {es : List (Nat × Binary64)} (h : ∀ e ∈ es, b ≠ e.1) (f : GoRows) :
    (es.foldl (fun f e => f.put e.1 field (.number e.2)) f).rows b = f.rows b := by
  induction es generalizing f with
  | nil => rfl
  | cons e rest ih =>
    have hrest := ih (fun e' he' => h e' (List.mem_cons_of_mem _ he')) (f.put e.1 field (.number e.2))
    exact hrest.trans (rows_put_of_ne (h e List.mem_cons_self) ..)

/-- The items are those, and a map holds that. -/
def Keeps (items : List Nat) (b : Nat) (row : Row) (f : GoRows) : Prop := f.items = items ∧ f.rows b = row

theorem keeps_writeItem {items : List Nat} {b : Nat} {row : Row} {w : ItemWrite}
    (hw : ¬ (0 ≤ w.index ∧ items[w.index.toNat]? = some b)) : Outcome.Keeps (Keeps items b row) (writeItem op w) := by
  rintro f ⟨rfl, hrow⟩
  refine Outcome.Keeps.checked _ (fun hok f' hf' => ?_) f ⟨rfl, hrow⟩
  obtain ⟨hitems, hrow'⟩ := hf'
  have hnonneg : 0 ≤ w.index := by
    unfold itemWriteError at hok
    split at hok
    · exact absurd hok nofun
    · next hrange => exact (not_outOfRange hrange).1
  rw [hitems]
  cases hat : f.items[w.index.toNat]? with
  | none => exact ⟨hitems, hrow'⟩
  | some a =>
    have hne : b ≠ a := fun heq => hw ⟨hnonneg, heq ▸ hat⟩
    exact ⟨hitems, (rows_put_of_ne hne ..).trans hrow'⟩

theorem keeps_writeColumn {items : List Nat} {b : Nat} {row : Row} {cw : DoubleColumnWrite} (hb : b ∉ items) :
    Outcome.Keeps (Keeps items b row) (writeColumn op cw) := by
  rintro f ⟨rfl, hrow⟩
  refine Outcome.Keeps.checked _ (fun _ f' hf' => ?_) f ⟨rfl, hrow⟩
  obtain ⟨hitems, hrow'⟩ := hf'
  have hnot : ∀ e ∈ f'.items.zip cw.vals, b ≠ e.1 := by
    rintro e he rfl
    exact hb (hitems ▸ (List.of_mem_zip he).1)
  exact ⟨(items_foldl_put ..).trans hitems, (rows_foldl_put cw.field hnot f').trans hrow'⟩

theorem keeps_checked {P : GoRows → Prop} {bad : GoRows → Option PineError} {step : GoRows → GoRows}
    (h : ∀ f, P f → P (step f)) : Outcome.Keeps P fun f => Outcome.checked (bad f) step f :=
  fun f hf => Outcome.Keeps.checked (bad f) (fun _ f' hf' => h f' hf') f hf

/-- The write phases keep the items, and the maps they do not write to. -/
theorem keeps_writes {b : Nat} (hb : ¬ o.Writes f.items b) :
    Keeps f.items b (f.rows b) (Outcome.forEach (writeCommon op) o.commonWrites.entries f
      |>.andThen (Outcome.forEach (writeItem op) o.itemWrites)
      |>.andThen (Outcome.forEach (writeColumn op) o.columnWrites)).state := by
  refine Outcome.Keeps.andThen (Outcome.Keeps.forEach _ fun cw hcw => keeps_writeColumn fun hmem =>
    hb (.inr ⟨List.ne_nil_of_mem hcw, hmem⟩)) ?_
  refine Outcome.Keeps.andThen (Outcome.Keeps.forEach _ fun w hw => keeps_writeItem fun hat =>
    hb (.inl ⟨w, hw, hat⟩)) ?_
  have hcommon : Outcome.Keeps (Keeps f.items b (f.rows b)) (Outcome.forEach (writeCommon op) o.commonWrites.entries) :=
    Outcome.Keeps.forEach _ fun w _ => keeps_checked fun _ hf' => hf'
  exact hcommon f ⟨rfl, rfl⟩

/-- A call of `ApplyOutput` changes the maps of the rows it writes to, and of the rows it adds for a recall. -/
theorem rows_applyOutput {b : Nat} (hb : ¬ o.Writes f.items b) (hstamp : fromRecall = true → b ∉ o.addedItems) :
    (f.applyOutput o op fromRecall).state.rows b = f.rows b := by
  let P : GoRows → Prop := fun f' => f'.rows b = f.rows b
  have hadd : ∀ a ∈ o.addedItems, Outcome.Keeps P (addItem op fromRecall a) := by
    intro a ha
    refine keeps_checked fun f' hf' => ?_
    cases fromRecall with
    | false => exact hf'
    | true =>
      have hne : b ≠ a := by
        rintro rfl
        exact hstamp rfl ha
      exact (rows_put_of_ne hne ..).trans hf'
  have hreorder : Outcome.Keeps P (reorder op o.itemOrder) := by
    unfold reorder
    cases o.itemOrder with
    | none => exact fun f' hf' => hf'
    | some order => exact keeps_checked fun _ hf' => hf'
  have hremove : Outcome.Keeps P (removeItems op o.removedItems.keys) := keeps_checked fun _ hf' => hf'
  have hwritten := (@keeps_writes o op f b hb).2
  exact Outcome.Keeps.andThen (P := P) (Outcome.Keeps.forEach _ hadd) (Outcome.Keeps.andThen (P := P) hreorder
    (Outcome.Keeps.andThen (P := P) hremove hwritten))

/-- A frame's items after a call of `ApplyOutput` are items it had, and added rows. -/
theorem items_applyOutput {b : Nat} (hb : b ∈ (f.applyOutput o op fromRecall).state.items) :
    b ∈ f.items ∨ b ∈ o.addedItems := by
  let P : GoRows → Prop := fun f' => ∀ a ∈ f'.items, a ∈ f.items ∨ a ∈ o.addedItems
  have hadd : ∀ a ∈ o.addedItems, Outcome.Keeps P (addItem op fromRecall a) := by
    intro a ha
    refine keeps_checked fun f' hf' c hc => ?_
    have hitems : c ∈ f'.items ++ [a] := by
      cases fromRecall <;> exact hc
    rcases List.mem_append.mp hitems with hold | hnew
    · exact hf' c hold
    · exact .inr (List.mem_singleton.mp hnew ▸ ha)
  have hreorder : Outcome.Keeps P (reorder op o.itemOrder) := by
    unfold reorder
    cases o.itemOrder with
    | none => exact fun f' hf' => hf'
    | some order =>
      refine keeps_checked fun f' hf' c hc => ?_
      obtain ⟨idx, -, hat⟩ := List.mem_filterMap.mp hc
      exact hf' c (List.mem_of_getElem? hat)
  have hremove : Outcome.Keeps P (removeItems op o.removedItems.keys) := by
    refine keeps_checked fun f' hf' c hc => ?_
    obtain ⟨e, he, rfl⟩ := List.mem_map.mp hc
    exact hf' _ (List.fst_mem_of_mem_zipIdx (List.mem_filter.mp he).1)
  have hcolumns : ∀ cw ∈ o.columnWrites, Outcome.Keeps P (writeColumn op cw) := by
    refine fun cw _ => keeps_checked fun f' hf' c hc => ?_
    rw [items_foldl_put] at hc
    exact hf' c hc
  have hitems : ∀ w ∈ o.itemWrites, Outcome.Keeps P (writeItem op w) := by
    refine fun w _ => keeps_checked fun f' hf' => ?_
    split
    · exact hf'
    · exact hf'
  have hcommon : Outcome.Keeps P (Outcome.forEach (writeCommon op) o.commonWrites.entries) :=
    Outcome.Keeps.forEach _ fun _ _ => keeps_checked fun _ hf' => hf'
  have hstart : P f := fun a ha => .inl ha
  have hwritten := Outcome.Keeps.andThen (P := P) (Outcome.Keeps.forEach _ hcolumns)
    (Outcome.Keeps.andThen (P := P) (Outcome.Keeps.forEach _ hitems) (hcommon f hstart))
  exact Outcome.Keeps.andThen (P := P) (Outcome.Keeps.forEach _ hadd) (Outcome.Keeps.andThen (P := P) hreorder
    (Outcome.Keeps.andThen (P := P) hremove hwritten)) b hb

end GoRows

/-! ### The pool -/

/-- Column storage, which copies the values out of the maps: how it takes an output, and how many of the added rows it
has stamped with their source by then. -/
structure GoColumnStore (σ : Type) where
  apply : OperatorOutput → String → Bool → σ → σ
  stamped : OperatorOutput → String → σ → Nat

inductive GoFrame (σ : Type) where
  | rows (common : Row) (items : List Nat)
  | columns (f : σ)

/-- A node whose operator has returned an output that passed the checks. -/
structure GoTask where
  request : Nat
  op : String
  fromRecall : Bool
  debug : Bool
  calls : List OutputCall
  output : GoOutput
  /-- the output goes back to the pool -/
  pooled : Bool

/-- A recorded snapshot, with the calls of its operator and the order of the removed indices. -/
structure GoTrace where
  snapshot : GoSnapshot
  calls : List OutputCall
  removed : List Int

structure GoMemory (σ : Type) where
  heap : RowHeap := {}
  frames : Nat → GoFrame σ := fun _ => .rows ∅ []
  pool : List GoOutput := []
  pending : List GoTask := []
  traces : List GoTrace := []

namespace GoMemory
variable {σ : Type}

/-- `added["_source"] = opName`, row after row. -/
def stamp (op : String) (as : List Nat) (rows : Nat → Row) : Nat → Row :=
  as.foldl (fun rows a => Function.update rows a ((rows a).insert "_source" (.string op))) rows

/-- `ApplyOutput`. -/
def apply (cols : GoColumnStore σ) (s : GoMemory σ) (t : GoTask) : GoMemory σ :=
  match s.frames t.request with
  | .rows common items =>
    let f := ((⟨s.heap.rows, common, items⟩ : GoRows).applyOutput t.output t.op t.fromRecall).state
    { s with
      heap := { s.heap with rows := f.rows }
      frames := Function.update s.frames t.request (.rows f.common f.items) }
  | .columns f =>
    let out := t.output.read s.heap.rows
    { s with
      heap := { s.heap with
        rows :=
          if t.fromRecall then stamp t.op (t.output.addedItems.take (cols.stamped out t.op f)) s.heap.rows
          else s.heap.rows }
      frames := Function.update s.frames t.request (.columns (cols.apply out t.op t.fromRecall f)) }

end GoMemory

/-- An output of the pool, or a new one. -/
inductive GoTaken (pool : List GoOutput) : GoOutput → List GoOutput → Prop
  | fresh : GoTaken pool {} pool
  | pooled {o pool'} : pool.Perm (o :: pool') → GoTaken pool o pool'

/-- One step of the process; the label is the node whose output is applied. -/
inductive GoMemoryStep {σ : Type} (cols : GoColumnStore σ) : Option GoTask → GoMemory σ → GoMemory σ → Prop
  | request {s r common} {rows : List Row} : GoMemoryStep cols none s { s with
      heap := rows.foldl RowHeap.alloc s.heap
      frames := Function.update s.frames r (.rows common (List.range' s.heap.next rows.length)) }
  | requestColumns {s r f} : GoMemoryStep cols none s { s with frames := Function.update s.frames r (.columns f) }
  /-- the collector empties the pool -/
  | collect {s pool'} : pool'.Sublist s.pool → GoMemoryStep cols none s { s with pool := pool' }
  /-- the operator returns an error or panics, or a check refuses its output -/
  | fails {s o pool'} {calls : List OutputCall} : GoTaken s.pool o pool' → GoMemoryStep cols none s { s with
      heap := (calls.foldl GoOutput.call (s.heap, o)).1
      pool := pool' ++ [(calls.foldl GoOutput.call (s.heap, o)).2.reset] }
  | returns {s o pool' removed} {t : GoTask} : GoTaken s.pool o pool' →
      t.output = (t.calls.foldl GoOutput.call (s.heap, o)).2 → GoMemoryStep cols none s { s with
        heap := (t.calls.foldl GoOutput.call (s.heap, o)).1
        pool := pool'
        pending := s.pending ++ [t]
        traces := s.traces ++ if t.debug then [⟨t.output.snapshot removed, t.calls, removed⟩] else [] }
  | applies {s t pre post} : s.pending = pre ++ t :: post → GoMemoryStep cols (some t) s { s.apply cols t with
      pending := pre ++ post
      pool := s.pool ++ if t.pooled then [t.output.reset] else [] }

/-- The frame keeps its hands off the maps of recorded snapshots: a recall with debug on adds no rows, and a frame of
row storage writes to no row that an operator with debug on added. -/
def GoMemory.Harmless {σ : Type} (s : GoMemory σ) (t : GoTask) : Prop :=
  (t.fromRecall = true → t.debug = true → t.output.addedItems = []) ∧
    ∀ common items, s.frames t.request = .rows common items →
      ∀ tr ∈ s.traces, ∀ a ∈ tr.snapshot.addedItems.getD [], ¬ t.output.Writes items a

/-- Every output of the pool is a fresh one, and what a frame is about to receive is what the operator emitted. -/
structure GoMemory.Right {σ : Type} (s : GoMemory σ) : Prop where
  fresh : ∀ o ∈ s.pool, o = {}
  emits : ∀ t ∈ s.pending, t.output.read s.heap.rows = emitted t.calls

/-- Every recorded snapshot shows what its operator emitted. -/
def GoMemory.Shown {σ : Type} (s : GoMemory σ) : Prop :=
  ∀ tr ∈ s.traces, tr.snapshot.read s.heap.rows = goSnapshotOutput (emitted tr.calls) tr.removed

/-- Who holds which maps. -/
structure GoMemory.Owned {σ : Type} (s : GoMemory σ) : Prop where
  pending : (s.pending.flatMap fun t => t.output.addedItems).Nodup
  pendingLt : ∀ t ∈ s.pending, ∀ a ∈ t.output.addedItems, a < s.heap.next
  tracesLt : ∀ tr ∈ s.traces, ∀ a ∈ tr.snapshot.addedItems.getD [], a < s.heap.next
  framesLt : ∀ r common items, s.frames r = .rows common items → ∀ a ∈ items, a < s.heap.next
  /-- a row that is still to be added is in no frame -/
  unframed : ∀ t ∈ s.pending, ∀ a ∈ t.output.addedItems, ∀ r common items, s.frames r = .rows common items → a ∉ items
  /-- nor in a snapshot, unless its operator has debug on -/
  untraced : ∀ t ∈ s.pending, t.debug = false → ∀ a ∈ t.output.addedItems,
    ∀ tr ∈ s.traces, a ∉ tr.snapshot.addedItems.getD []

theorem RowHeap.foldl_alloc (h : RowHeap) (rows : List Row) :
    (rows.foldl alloc h).next = h.next + rows.length ∧ ∀ a < h.next, (rows.foldl alloc h).rows a = h.rows a := by
  induction rows generalizing h with
  | nil => exact ⟨rfl, fun _ _ => rfl⟩
  | cons row rest ih =>
    obtain ⟨hnext, hold⟩ := ih (h.alloc row)
    refine ⟨?_, fun a ha => ?_⟩
    · rw [List.foldl_cons, hnext, List.length_cons]
      show h.next + 1 + rest.length = h.next + (rest.length + 1)
      omega
    · have halloc : (h.alloc row).rows a = h.rows a := Function.update_of_ne (Nat.ne_of_lt ha) ..
      rw [List.foldl_cons, hold a (Nat.lt_succ_of_lt ha), halloc]

theorem GoTaken.eq {pool pool' : List GoOutput} {o : GoOutput} (h : GoTaken pool o pool') (hp : ∀ o ∈ pool, o = {}) :
    o = {} ∧ ∀ o ∈ pool', o = {} := by
  cases h with
  | fresh => exact ⟨rfl, hp⟩
  | pooled hperm =>
    have hall : ∀ o' ∈ o :: pool', o' = {} := fun o' ho' => hp o' (hperm.mem_iff.mpr ho')
    exact ⟨hall o List.mem_cons_self, fun o' ho' => hall o' (List.mem_cons_of_mem _ ho')⟩

namespace GoMemory
variable {σ : Type} {cols : GoColumnStore σ} {s : GoMemory σ} {t : GoTask}

theorem stamp_of_notMem {as : List Nat} {b : Nat} (h : b ∉ as) (op : String) (rows : Nat → Row) :
    stamp op as rows b = rows b := by
  induction as generalizing rows with
  | nil => rfl
  | cons a rest ih =>
    have hne : b ≠ a := fun heq => h (heq ▸ List.mem_cons_self)
    exact (ih (fun hmem => h (List.mem_cons_of_mem _ hmem)) _).trans (Function.update_of_ne hne ..)

@[simp] theorem next_apply : (s.apply cols t).heap.next = s.heap.next := by
  unfold apply
  split <;> rfl

theorem mem_traces_apply {tr : GoTrace} : tr ∈ (s.apply cols t).traces ↔ tr ∈ s.traces := by
  unfold apply
  split <;> rfl

/-- `ApplyOutput` changes the maps of the rows it writes to, and of the rows it adds for a recall. -/
theorem rows_apply {b : Nat} (hw : ∀ common items, s.frames t.request = .rows common items → ¬ t.output.Writes items b)
    (hstamp : t.fromRecall = true → b ∉ t.output.addedItems) : (s.apply cols t).heap.rows b = s.heap.rows b := by
  unfold apply
  split
  · next common items hframe =>
    exact @GoRows.rows_applyOutput t.output t.op t.fromRecall ⟨s.heap.rows, common, items⟩ b (hw common items hframe)
      hstamp
  · split
    · next hrecall => exact stamp_of_notMem (fun hmem => hstamp hrecall (List.mem_of_mem_take hmem)) ..
    · rfl

/-- What a frame holds after `ApplyOutput` it held before, or was added to it. -/
theorem frames_apply {r b : Nat} {common : Row} {items : List Nat}
    (h : (s.apply cols t).frames r = .rows common items) (hb : b ∈ items) :
    (∃ common' items', s.frames r = .rows common' items' ∧ b ∈ items') ∨ b ∈ t.output.addedItems := by
  unfold apply at h
  split at h
  · next common₀ items₀ hframe =>
    by_cases hr : r = t.request
    · subst hr
      replace h := (Function.update_self t.request _ s.frames).symm.trans h
      obtain ⟨-, rfl⟩ := GoFrame.rows.inj h
      exact (GoRows.items_applyOutput hb).imp_left fun hold => ⟨common₀, items₀, hframe, hold⟩
    · replace h := (Function.update_of_ne hr _ s.frames).symm.trans h
      exact .inl ⟨common, items, h, hb⟩
  · by_cases hr : r = t.request
    · subst hr
      exact absurd ((Function.update_self t.request _ s.frames).symm.trans h) nofun
    · replace h := (Function.update_of_ne hr _ s.frames).symm.trans h
      exact .inl ⟨common, items, h, hb⟩

/-- New maps, and frames of new maps, change nothing for those who hold the old ones. -/
theorem Right.grow (hs : s.Right) (ho : s.Owned) {heap : RowHeap} {frames : Nat → GoFrame σ} {pool : List GoOutput}
    (hold : ∀ a < s.heap.next, heap.rows a = s.heap.rows a) (hpool : ∀ o ∈ pool, o = {}) :
    ({ s with heap, frames, pool } : GoMemory σ).Right where
  fresh := hpool
  emits t ht := by
    rw [← hs.emits t ht]
    exact GoOutput.read_congr fun a ha => hold a (ho.pendingLt t ht a ha)

theorem Shown.grow (hs : s.Shown) (ho : s.Owned) {heap : RowHeap} {frames : Nat → GoFrame σ} {pool : List GoOutput}
    (hold : ∀ a < s.heap.next, heap.rows a = s.heap.rows a) : ({ s with heap, frames, pool } : GoMemory σ).Shown := by
  intro tr htr
  rw [← hs tr htr]
  exact GoSnapshot.read_congr fun a ha => hold a (ho.tracesLt tr htr a ha)

theorem Owned.grow (ho : s.Owned) {heap : RowHeap} {frames : Nat → GoFrame σ} {pool : List GoOutput}
    (hgrows : s.heap.next ≤ heap.next) (hframes : ∀ r common items, frames r = .rows common items →
      s.frames r = .rows common items ∨ ∀ a ∈ items, s.heap.next ≤ a ∧ a < heap.next) :
    ({ s with heap, frames, pool } : GoMemory σ).Owned where
  pending := ho.pending
  pendingLt t ht a ha := Nat.lt_of_lt_of_le (ho.pendingLt t ht a ha) hgrows
  tracesLt tr htr a ha := Nat.lt_of_lt_of_le (ho.tracesLt tr htr a ha) hgrows
  framesLt r common items h a ha := by
    rcases hframes r common items h with hframe | hnew
    · exact Nat.lt_of_lt_of_le (ho.framesLt r common items hframe a ha) hgrows
    · exact (hnew a ha).2
  unframed t ht a ha r common items h hmem := by
    rcases hframes r common items h with hframe | hnew
    · exact ho.unframed t ht a ha r common items hframe hmem
    · exact absurd (ho.pendingLt t ht a ha) (Nat.not_lt_of_le (hnew a hmem).1)
  untraced := ho.untraced

/-- The rows still to be added by one node are not those of another. -/
theorem Owned.disjoint (ho : s.Owned) {pre post : List GoTask} (hp : s.pending = pre ++ t :: post) {t' : GoTask}
    (ht' : t' ∈ pre ++ post) {a : Nat} (ha : a ∈ t'.output.addedItems) : a ∉ t.output.addedItems := by
  have hnodup : ((t :: (pre ++ post)).flatMap fun t => t.output.addedItems).Nodup :=
    (List.perm_middle.flatMap_right _).nodup_iff.mp (hp ▸ ho.pending)
  rw [List.flatMap_cons] at hnodup
  intro hmem
  exact (List.nodup_append.mp hnodup).2.2 a hmem a (List.mem_flatMap.mpr ⟨t', ht', ha⟩) rfl

/-- The output of a node has returned: its rows are new maps. -/
theorem Right.returns (hs : s.Right) (ho : s.Owned) {heap : RowHeap} {pool : List GoOutput} {removed : List Int}
    (hrun : GoOutput.Run s.heap (emitted t.calls) (heap, t.output)) (hpool : ∀ o ∈ pool, o = {}) :
    ({ s with
        heap, pool
        pending := s.pending ++ [t]
        traces := s.traces ++ if t.debug then [⟨t.output.snapshot removed, t.calls, removed⟩] else [] } :
      GoMemory σ).Right := by
  have hgrown : ({ s with heap, pool } : GoMemory σ).Right := hs.grow ho hrun.old hpool
  refine ⟨hpool, fun t' ht' => ?_⟩
  rcases List.mem_append.mp ht' with hold | hnew
  · exact hgrown.emits t' hold
  · rw [List.mem_singleton.mp hnew]
    exact hrun.read

theorem Shown.returns (hs : s.Shown) (ho : s.Owned) {heap : RowHeap} {pool : List GoOutput} {removed : List Int}
    (hrun : GoOutput.Run s.heap (emitted t.calls) (heap, t.output)) :
    ({ s with
        heap, pool
        pending := s.pending ++ [t]
        traces := s.traces ++ if t.debug then [⟨t.output.snapshot removed, t.calls, removed⟩] else [] } :
      GoMemory σ).Shown := by
  have hgrown : ({ s with heap, pool } : GoMemory σ).Shown := hs.grow ho hrun.old
  intro tr htr
  rcases List.mem_append.mp htr with hold | hnew
  · exact hgrown tr hold
  · split at hnew
    · rw [List.mem_singleton.mp hnew]
      show (t.output.snapshot removed).read heap.rows = goSnapshotOutput (emitted t.calls) removed
      rw [GoOutput.snapshot_read, hrun.read]
    · exact absurd hnew List.not_mem_nil

theorem Owned.returns (ho : s.Owned) {heap : RowHeap} {pool : List GoOutput} {removed : List Int} {out : OperatorOutput}
    (hrun : GoOutput.Run s.heap out (heap, t.output)) :
    ({ s with
        heap, pool
        pending := s.pending ++ [t]
        traces := s.traces ++ if t.debug then [⟨t.output.snapshot removed, t.calls, removed⟩] else [] } :
      GoMemory σ).Owned := by
  have hgrown : ({ s with heap, pool } : GoMemory σ).Owned := ho.grow hrun.grows fun _ _ _ h => .inl h
  have hnew : ∀ {a : Nat}, a ∈ t.output.addedItems → s.heap.next ≤ a ∧ a < heap.next := fun ha => hrun.added _ ha
  refine ⟨?_, fun t' ht' a ha => ?_, fun tr htr a ha => ?_, hgrown.framesLt,
    fun t' ht' a ha r common items h hmem => ?_, fun t' ht' hdebug a ha tr htr hmem => ?_⟩
  · show ((s.pending ++ [t]).flatMap fun t => t.output.addedItems).Nodup
    rw [List.flatMap_append, List.flatMap_singleton]
    refine List.nodup_append.mpr ⟨ho.pending, hrun.nodup, fun a ha b hb => ?_⟩
    obtain ⟨t', ht', ha'⟩ := List.mem_flatMap.mp ha
    exact Nat.ne_of_lt (Nat.lt_of_lt_of_le (ho.pendingLt t' ht' a ha') (hnew hb).1)
  · rcases List.mem_append.mp ht' with hold | hlast
    · exact hgrown.pendingLt t' hold a ha
    · rw [List.mem_singleton.mp hlast] at ha
      exact (hnew ha).2
  · rcases List.mem_append.mp htr with hold | hlast
    · exact hgrown.tracesLt tr hold a ha
    · split at hlast
      · rw [List.mem_singleton.mp hlast, GoOutput.snapshot_addedItems] at ha
        exact (hnew ha).2
      · exact absurd hlast List.not_mem_nil
  · rcases List.mem_append.mp ht' with hold | hlast
    · exact ho.unframed t' hold a ha r common items h hmem
    · rw [List.mem_singleton.mp hlast] at ha
      exact Nat.not_lt_of_le (hnew ha).1 (ho.framesLt r common items h a hmem)
  · rcases List.mem_append.mp ht' with hold | hlast
    · rcases List.mem_append.mp htr with htr | htr
      · exact ho.untraced t' hold hdebug a ha tr htr hmem
      · split at htr
        · rw [List.mem_singleton.mp htr, GoOutput.snapshot_addedItems] at hmem
          exact Nat.not_lt_of_le (hnew hmem).1 (ho.pendingLt t' hold a ha)
        · exact absurd htr List.not_mem_nil
    · rw [List.mem_singleton.mp hlast] at ha hdebug
      rw [hdebug, if_neg Bool.false_ne_true, List.append_nil] at htr
      exact Nat.not_lt_of_le (hnew ha).1 (ho.tracesLt tr htr a hmem)

/-- A row that is still to be added is no row a frame writes to. -/
theorem Owned.not_writes (ho : s.Owned) {t' : GoTask} (ht' : t' ∈ s.pending) {a : Nat} (ha : a ∈ t'.output.addedItems)
    {r : Nat} {common : Row} {items : List Nat} (h : s.frames r = .rows common items) (o : GoOutput) :
    ¬ o.Writes items a := by
  have hnot := ho.unframed t' ht' a ha r common items h
  rintro (⟨w, -, -, hat⟩ | ⟨-, hmem⟩)
  · exact hnot (List.mem_of_getElem? hat)
  · exact hnot hmem

theorem Right.applies (hs : s.Right) (ho : s.Owned) {pre post : List GoTask} (hp : s.pending = pre ++ t :: post) :
    ({ s.apply cols t with
        pending := pre ++ post
        pool := s.pool ++ if t.pooled then [t.output.reset] else [] } : GoMemory σ).Right := by
  have hrest : ∀ t' ∈ pre ++ post, t' ∈ s.pending := by
    rw [hp]
    exact ((List.sublist_cons_self t post).append_left pre).subset
  refine ⟨fun o hpool => ?_, fun t' ht' => ?_⟩
  · rcases List.mem_append.mp hpool with hold | hlast
    · exact hs.fresh o hold
    · split at hlast
      · rw [List.mem_singleton.mp hlast, GoOutput.reset_eq]
      · exact absurd hlast List.not_mem_nil
  · rw [← hs.emits t' (hrest t' ht')]
    refine GoOutput.read_congr fun a ha => rows_apply (fun common items hframe => ?_) fun _ => ?_
    · exact ho.not_writes (hrest t' ht') ha hframe _
    · exact ho.disjoint hp ht' ha

theorem Shown.applies (hs : s.Shown) (ho : s.Owned) {pre post : List GoTask} (hp : s.pending = pre ++ t :: post)
    (ht : s.Harmless t) {pool : List GoOutput} :
    ({ s.apply cols t with pending := pre ++ post, pool } : GoMemory σ).Shown := by
  have hmem : t ∈ s.pending := hp ▸ List.mem_append_right _ List.mem_cons_self
  rintro tr htr
  replace htr : tr ∈ s.traces := mem_traces_apply.mp htr
  rw [← hs tr htr]
  refine GoSnapshot.read_congr fun a ha => rows_apply (fun common items hframe => ?_) fun hrecall => ?_
  · exact ht.2 common items hframe tr htr a ha
  · -- a recall with debug on adds nothing, and the rows of the others are in no snapshot
    intro hadded
    cases hdebug : t.debug with
    | true => exact absurd (ht.1 hrecall hdebug ▸ hadded) List.not_mem_nil
    | false => exact ho.untraced t hmem hdebug a hadded tr htr ha

theorem Owned.applies (ho : s.Owned) {pre post : List GoTask} (hp : s.pending = pre ++ t :: post)
    {pool : List GoOutput} : ({ s.apply cols t with pending := pre ++ post, pool } : GoMemory σ).Owned := by
  have hmem : t ∈ s.pending := hp ▸ List.mem_append_right _ List.mem_cons_self
  have hsub : (pre ++ post).Sublist s.pending := hp ▸ (List.sublist_cons_self t post).append_left pre
  have hrest : ∀ t' ∈ pre ++ post, t' ∈ s.pending := hsub.subset
  refine ⟨?_, fun t' ht' a ha => ?_, fun tr htr a ha => ?_, fun r common items h a ha => ?_,
    fun t' ht' a ha r common items h hitem => ?_, fun t' ht' hdebug a ha tr htr => ?_⟩
  · exact (hsub.flatMap fun t => t.output.addedItems).nodup ho.pending
  · rw [next_apply]
    exact ho.pendingLt t' (hrest t' ht') a ha
  · rw [next_apply]
    exact ho.tracesLt tr (mem_traces_apply.mp htr) a ha
  · rw [next_apply]
    rcases frames_apply h ha with ⟨common', items', hframe, hold⟩ | hadded
    · exact ho.framesLt r common' items' hframe a hold
    · exact ho.pendingLt t hmem a hadded
  · rcases frames_apply h hitem with ⟨common', items', hframe, hold⟩ | hadded
    · exact ho.unframed t' (hrest t' ht') a ha r common' items' hframe hold
    · exact ho.disjoint hp ht' ha hadded
  · exact ho.untraced t' (hrest t' ht') hdebug a ha tr (mem_traces_apply.mp htr)

end GoMemory

section Steps
variable {σ : Type} {cols : GoColumnStore σ} {label : Option GoTask} {s s' : GoMemory σ}

theorem GoOutput.run_of_eq {h : RowHeap} {t : GoTask} (hout : t.output = (t.calls.foldl GoOutput.call (h, {})).2) :
    Run h (emitted t.calls) ((t.calls.foldl GoOutput.call (h, {})).1, t.output) := by
  rw [hout]
  exact GoOutput.run h t.calls

theorem GoMemoryStep.right (h : GoMemoryStep cols label s s') (hs : s.Right) (ho : s.Owned) : s'.Right ∧ s'.Owned := by
  cases h with
  | @request _ r common rows =>
    obtain ⟨hnext, hold⟩ := s.heap.foldl_alloc rows
    refine ⟨hs.grow ho hold hs.fresh, ho.grow (hnext ▸ Nat.le_add_right ..) fun r' common' items hframe => ?_⟩
    by_cases hr : r' = r
    · subst hr
      rw [Function.update_self] at hframe
      obtain ⟨-, rfl⟩ := GoFrame.rows.inj hframe
      refine .inr fun a ha => ?_
      rw [hnext]
      simpa [List.mem_range'_1] using ha
    · rw [Function.update_of_ne hr] at hframe
      exact .inl hframe
  | @requestColumns _ r f =>
    refine ⟨hs.grow ho (fun _ _ => rfl) hs.fresh, ho.grow (Nat.le_refl _) fun r' common' items hframe => ?_⟩
    by_cases hr : r' = r
    · subst hr
      exact absurd ((Function.update_self r' _ s.frames).symm.trans hframe) nofun
    · rw [Function.update_of_ne hr] at hframe
      exact .inl hframe
  | collect hsub =>
    exact ⟨hs.grow ho (fun _ _ => rfl) fun o hpool => hs.fresh o (hsub.subset hpool),
      ho.grow (Nat.le_refl _) fun _ _ _ hframe => .inl hframe⟩
  | @fails _ o pool' calls htaken =>
    obtain ⟨rfl, hfresh⟩ := htaken.eq hs.fresh
    have hrun := GoOutput.run s.heap calls
    refine ⟨hs.grow ho hrun.old fun o hpool => ?_, ho.grow hrun.grows fun _ _ _ hframe => .inl hframe⟩
    rcases List.mem_append.mp hpool with hold | hlast
    · exact hfresh o hold
    · rw [List.mem_singleton.mp hlast, GoOutput.reset_eq]
  | @returns _ o pool' removed t htaken hout =>
    obtain ⟨rfl, hfresh⟩ := htaken.eq hs.fresh
    have hrun := GoOutput.run_of_eq hout
    exact ⟨hs.returns ho hrun hfresh, ho.returns hrun⟩
  | @applies _ t pre post hp => exact ⟨hs.applies ho hp, ho.applies hp⟩

theorem GoMemoryStep.shown (h : GoMemoryStep cols label s s') (hlabel : ∀ t, label = some t → s.Harmless t)
    (hs : s.Right) (ho : s.Owned) (hshown : s.Shown) : s'.Shown := by
  cases h with
  | @request _ r common rows => exact hshown.grow ho (s.heap.foldl_alloc rows).2
  | requestColumns => exact hshown.grow ho fun _ _ => rfl
  | collect => exact hshown.grow ho fun _ _ => rfl
  | @fails _ o pool' calls htaken =>
    obtain ⟨rfl, -⟩ := htaken.eq hs.fresh
    exact hshown.grow ho (GoOutput.run s.heap calls).old
  | @returns _ o pool' removed t htaken hout =>
    obtain ⟨rfl, -⟩ := htaken.eq hs.fresh
    exact hshown.returns ho (GoOutput.run_of_eq hout)
  | @applies _ t pre post hp => exact hshown.applies ho hp (hlabel t rfl)

end Steps

theorem GoMemory.start {σ : Type} : ({} : GoMemory σ).Right ∧ ({} : GoMemory σ).Owned := by
  have hframes : ∀ r common items, ({} : GoMemory σ).frames r = .rows common items → items = [] :=
    fun r common items h => (GoFrame.rows.inj h).2.symm
  refine ⟨⟨?_, ?_⟩, List.nodup_nil, ?_, ?_, fun r common items h a ha => ?_, ?_, ?_⟩
  case refine_5 => exact absurd (hframes r common items h ▸ ha) List.not_mem_nil
  all_goals simp

/-- Outputs are right in every run of the C++ workers and of the Go process, and so are the recorded snapshots of C++;
those of Go are in every run in which its frames keep their hands off the maps of recorded snapshots. -/
theorem outputs_recycled {σ : Type} (apply : OperatorOutput → String → Bool → σ → Outcome PineError σ)
    (cols : GoColumnStore σ) :
    (∀ (frames : Nat → σ) (s : CppWorkers σ), ReflTransGen (CppWorkersStep apply) { frames } s → s.Right) ∧
      (∀ s : GoMemory σ, ReflTransGen (fun s s' => ∃ label, GoMemoryStep cols label s s') {} s → s.Right) ∧
      ∀ s : GoMemory σ, ReflTransGen (fun s s' => ∃ label, GoMemoryStep cols label s s' ∧
        ∀ t, label = some t → s.Harmless t) {} s → s.Shown := by
  have hright : ∀ s : GoMemory σ, ReflTransGen (fun s s' => ∃ label, GoMemoryStep cols label s s') {} s →
      s.Right ∧ s.Owned := by
    intro s h
    induction h with
    | refl => exact GoMemory.start
    | tail _ hstep ih =>
      obtain ⟨label, hstep⟩ := hstep
      exact hstep.right ih.1 ih.2
  refine ⟨fun frames s h => CppWorkers.right_of_run h, fun s h => (hright s h).1, fun s h => ?_⟩
  induction h with
  | refl => exact fun tr htr => absurd htr List.not_mem_nil
  | tail hrun hstep ih =>
    obtain ⟨label, hstep, hlabel⟩ := hstep
    obtain ⟨hs, ho⟩ := hright _ (hrun.lift id fun _ _ ⟨label, hstep, _⟩ => ⟨label, hstep⟩)
    exact hstep.shown hlabel hs ho ih

/-! A node with debug on adds a row to an empty frame. -/

def addsRow : List OutputCall := [.addItem ((∅ : Row).insert "id" (.string "a"))]

def addingTask (fromRecall : Bool) : GoTask where
  request := 0
  op := "op"
  fromRecall
  debug := true
  calls := addsRow
  output := (addsRow.foldl GoOutput.call ({}, {})).2
  pooled := true

def addingReturned (fromRecall : Bool) : GoMemory Unit where
  heap := (addsRow.foldl GoOutput.call ({}, {})).1
  pending := [addingTask fromRecall]
  traces := [⟨(addingTask fromRecall).output.snapshot [], addsRow, []⟩]

/-- Column storage is not used here. -/
def noColumns : GoColumnStore Unit := ⟨fun _ _ _ f => f, fun _ _ _ => 0⟩

def addingApplied (fromRecall : Bool) : GoMemory Unit :=
  { (addingReturned fromRecall).apply noColumns (addingTask fromRecall) with
    pending := []
    pool := [(addingTask fromRecall).output.reset] }

theorem adding_returns (fromRecall : Bool) : GoMemoryStep noColumns none {} (addingReturned fromRecall) :=
  @GoMemoryStep.returns Unit noColumns {} {} [] [] (addingTask fromRecall) .fresh rfl

theorem adding_applies (fromRecall : Bool) : GoMemoryStep noColumns (some (addingTask fromRecall))
    (addingReturned fromRecall) (addingApplied fromRecall) :=
  @GoMemoryStep.applies Unit noColumns (addingReturned fromRecall) (addingTask fromRecall) [] [] rfl

theorem outputs_recycled_adding : (addingApplied false).Shown := by
  have hharmless : (addingReturned false).Harmless (addingTask false) := by
    refine ⟨nofun, fun common items _ tr _ a _ hwrites => ?_⟩
    rcases hwrites with ⟨w, hw, -⟩ | ⟨hcols, -⟩
    · exact absurd hw List.not_mem_nil
    · exact hcols rfl
  have hreturns : ∃ label, GoMemoryStep noColumns label {} (addingReturned false) ∧
      ∀ t, label = some t → ({} : GoMemory Unit).Harmless t := ⟨none, adding_returns false, nofun⟩
  have happlies : ∃ label, GoMemoryStep noColumns label (addingReturned false) (addingApplied false) ∧
      ∀ t, label = some t → (addingReturned false).Harmless t :=
    ⟨_, adding_applies false, fun t ht => Option.some.inj ht ▸ hharmless⟩
  exact (outputs_recycled (fun _ _ _ f => Outcome.ok f) noColumns).2.2 _ (.tail (.single hreturns) happlies)

/-- A recall with debug on: its snapshot shows the source the frame stamped on the row. -/
theorem not_outputs_recycled :
    ¬ ∀ s : GoMemory Unit, ReflTransGen (fun s s' => ∃ label, GoMemoryStep noColumns label s s') {} s → s.Shown := by
  intro hall
  have hshown := hall (addingApplied true) (.tail (.single ⟨_, adding_returns true⟩) ⟨_, adding_applies true⟩)
  have hkept := hshown ⟨(addingTask true).output.snapshot [], addsRow, []⟩ List.mem_cons_self
  have hrows := congrArg OutputSnapshot.addedItems hkept
  revert hrows
  decide +kernel

end Pineapple
