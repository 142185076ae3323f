import Pineapple.GoColumns
import Pineapple.StoreSpec

/-! # Go's column frame (`column_frame.go`)

`ApplyOutput` of Go as it mutates the columns, with the map ranges in whatever order they come, next to what it
means for a list of rows. The frame simulates the rows through every phase, also through one that fails half
way: its columns then have the frame's row count and their cells are the rows'. -/

namespace Pineapple.GoColumns
variable {β : Type}

/-- What the frame asks about a value of another type, and `%q`. -/
structure Env (β : Type) where
  containsNonFinite : β → Bool
  quote : String → String

/-- The orders in which the map ranges of one call visit their entries. The number tells which range it is. -/
structure Ranges where
  entries : {ν : Type} → Nat → SortedMap String ν → List (String × ν)
  perm : ∀ {ν : Type} (k : Nat) (m : SortedMap String ν), (entries k m).Perm m.entries
  indices : SortedMap Int Unit → List Int
  indices_perm : ∀ m, (indices m).Perm m.keys

/-- Every range in the order of the keys. -/
def Ranges.sorted : Ranges where
  entries _ m := m.entries
  perm _ _ := List.Perm.refl _
  indices m := m.keys
  indices_perm _ := List.Perm.refl _

structure ItemWrite (β : Type) where
  index : Int
  field : String
  value : Value β

/-- `OperatorOutput`. -/
structure Output (β : Type) where
  commonWrites : SortedMap String (Value β) := ∅
  itemWrites : List (ItemWrite β) := []
  colWrites : List DoubleColumnWrite := []
  addedItems : List (SortedMap String (Value β)) := []
  removedItems : SortedMap Int Unit := ∅
  itemOrder : Option (List Int) := none

structure ColumnFrame (β : Type) where
  common : SortedMap String (Value β)
  columns : SortedMap String (Column β)
  rowCount : Nat

/-! ## The checks

An error is given as the scheduler wraps it, with the operator's name. -/

def validateValue (env : Env β) (field : String) (v : Value β) : Option String :=
  let rejected := some ("field " ++ env.quote field ++ ": NaN/Inf is not a valid JSON value")
  match v with
  | .float64 d => if d.isFinite then none else rejected
  | .other x => if env.containsNonFinite x then rejected else none
  | _ => none

def commonWriteError (env : Env β) (op : String) (w : String × Value β) : Option PineError :=
  (validateValue env w.1 w.2).map fun e => .execution op ("common write: " ++ e)

def itemWriteError (env : Env β) (op : String) (n : Nat) (w : ItemWrite β) : Option PineError :=
  if OutOfRange n w.index then
    some (.execution op ("SetItem index " ++ toString w.index ++ " out of range [0, " ++ toString n ++ ")"))
  else (validateValue env w.field w.value).map fun e =>
    .execution op ("item[" ++ toString w.index ++ "] write: " ++ e)

def colWriteError (env : Env β) (op : String) (n : Nat) (cw : DoubleColumnWrite) : Option PineError :=
  if cw.vals.length ≠ n then
    some (.execution op ("SetItemColumnFloat64 " ++ env.quote cw.field ++ " length " ++ toString cw.vals.length ++
      " does not match item count " ++ toString n))
  else (cw.vals.findIdx? fun d => !d.isFinite).map fun i =>
    .execution op ("item[" ++ toString i ++ "] write: field " ++ env.quote cw.field ++
      ": NaN/Inf is not a valid JSON value")

def addedFieldError (env : Env β) (op : String) (w : String × Value β) : Option PineError :=
  (validateValue env w.1 w.2).map fun e => .execution op ("added item write: " ++ e)

/-- The added items with the source that a recall gives them. -/
def Output.added (out : Output β) (op : String) (isRecall : Bool) : List (SortedMap String (Value β)) :=
  out.addedItems.map fun added => if isRecall then added.insert "_source" (.string op) else added

/-- The fields of the added items as pass 1 ranges over them. -/
def Output.addedEntries (out : Output β) (ranges : Ranges) (op : String) (isRecall : Bool) : List (String × Value β) :=
  (out.added op isRecall).zipIdx.flatMap fun p => ranges.entries (4 + p.2) p.1

/-! ## The frame -/

namespace ColumnFrame

/-- `newColumnFrame`. A column is made once for each field of the items. -/
def ofItems (common : SortedMap String (Value β)) (items : List (SortedMap String (Value β))) : ColumnFrame β where
  common := common
  columns := (items.flatMap SortedMap.keys).foldl (fun cols field =>
    cols.insert field (makeColumn (items.map (·.find? field)))) ∅
  rowCount := items.length

/-- One item write. The column last resolved is the field's column in the map, so it is looked up each time. -/
def writeItem (w : ItemWrite β) (f : ColumnFrame β) : ColumnFrame β :=
  let col := (f.columns.find? w.field).getD (newColumnForValue w.value f.rowCount)
  { f with columns := f.columns.insert w.field (col.setOrPromote w.index.toNat w.value) }

def writeColumn (cw : DoubleColumnWrite) (f : ColumnFrame β) : ColumnFrame β :=
  { f with columns := f.columns.insert cw.field (.adoptFloat64 cw.vals) }

/-- Visit the columns in the order of a range, handing the scratch value on. -/
def eachColumn {τ : Type} (ranges : Ranges) (k : Nat) (g : String → Column β → τ → Column β × τ) (scratch : τ)
    (f : ColumnFrame β) : SortedMap String (Column β) :=
  (f.columns.sweep g ((ranges.entries k f.columns).map Prod.fst) scratch).1

def removeRows (ranges : Ranges) (removed : List Int) (f : ColumnFrame β) : ColumnFrame β :=
  let bitmap := TypedColumnStore.removeBitmap f.rowCount removed
  let kept := f.rowCount - removed.length
  { f with
    columns := f.eachColumn ranges 1 (fun _ col (_ : Unit) => (col.removeByBitmap bitmap kept, ())) ()
    rowCount := kept }

/-- One `visited` for all the columns. -/
def reorderRows (ranges : Ranges) (order : List Int) (f : ColumnFrame β) : ColumnFrame β :=
  { f with
    columns := f.eachColumn ranges 2 (fun _ col visited => col.reorder order visited)
      (List.replicate order.length false) }

/-- Pass 1 on one field: a field without a column gets one. -/
def ensureColumn (w : String × Value β) (f : ColumnFrame β) : ColumnFrame β :=
  match f.columns.find? w.1 with
  | some _ => f
  | none => { f with columns := f.columns.insert w.1 (newColumnForValue w.2 f.rowCount) }

/-- Pass 2 on one column. -/
def appendRows (added : List (SortedMap String (Value β))) (field : String) (col : Column β) : Column β :=
  added.foldl (fun col row => match row.find? field with
    | some v => col.appendOrPromote v
    | none => col.appendAbsent) col

/-- Pass 2. -/
def addRows (ranges : Ranges) (added : List (SortedMap String (Value β))) (f : ColumnFrame β) : ColumnFrame β :=
  { f with
    columns := f.eachColumn ranges 3 (fun field col (_ : Unit) => (appendRows added field col, ())) ()
    rowCount := f.rowCount + added.length }

def applyRemovals (ranges : Ranges) (op : String) (out : Output β) (f : ColumnFrame β) :
    Outcome PineError (ColumnFrame β) :=
  let removed := ranges.indices out.removedItems
  if removed.isEmpty then .ok f
  else .checked (removalError op f.rowCount removed) (removeRows ranges removed) f

def applyOrder (ranges : Ranges) (op : String) (out : Output β) (f : ColumnFrame β) :
    Outcome PineError (ColumnFrame β) :=
  match out.itemOrder with
  | none => .ok f
  | some order => .checked (orderError op f.rowCount order) (reorderRows ranges order) f

def applyAdditions (env : Env β) (ranges : Ranges) (op : String) (isRecall : Bool) (out : Output β) (f : ColumnFrame β) :
    Outcome PineError (ColumnFrame β) :=
  if out.addedItems.isEmpty then .ok f
  else (Outcome.forEach (fun w => Outcome.checked (addedFieldError env op w) (ensureColumn w))
    (out.addedEntries ranges op isRecall) f).andThen fun f => .ok (addRows ranges (out.added op isRecall) f)

def applyOutput (env : Env β) (ranges : Ranges) (out : Output β) (op : String) (isRecall : Bool) (f : ColumnFrame β) :
    Outcome PineError (ColumnFrame β) :=
  ((((Outcome.forEach (fun w => Outcome.checked (commonWriteError env op w)
      fun f : ColumnFrame β => { f with common := f.common.insert w.1 w.2 }) (ranges.entries 0 out.commonWrites) f).andThen
    (Outcome.forEach (fun w f => Outcome.checked (itemWriteError env op f.rowCount w) (writeItem w) f)
      out.itemWrites)).andThen
    (Outcome.forEach (fun cw f => Outcome.checked (colWriteError env op f.rowCount cw) (writeColumn cw) f)
      out.colWrites)).andThen
    (applyRemovals ranges op out)).andThen
    (fun f => (applyOrder ranges op out f).andThen (applyAdditions env ranges op isRecall out))

end ColumnFrame

/-! ## Reading -/

namespace ColumnFrame

def item (f : ColumnFrame β) (index : Nat) (field : String) : Value β :=
  if f.rowCount ≤ index then .nil
  else
    match f.columns.find? field with
    | none => .nil
    | some col => col.get index

/-- The presence bit of an item's field. -/
def itemPresent (f : ColumnFrame β) (index : Nat) (field : String) : Bool :=
  (f.columns.find? field).any (·.present index)

end ColumnFrame

/-! ## The rows -/

/-- A row as what each of its fields holds, nothing being absence. -/
abbrev RowCells (β : Type) : Type := String → Option (Value β)

namespace Rows

def write (w : ItemWrite β) (rows : List (RowCells β)) : List (RowCells β) :=
  rows.modify w.index.toNat fun row => Function.update row w.field (some w.value)

def writeColumn (cw : DoubleColumnWrite) (rows : List (RowCells β)) : List (RowCells β) :=
  (rows.zip cw.vals).map fun p => Function.update p.1 cw.field (some (.float64 p.2))

/-- What an output does to a list of rows: the removal is a filter, the order says which row comes where, and the
added items come last. -/
def applyOutput (env : Env β) (ranges : Ranges) (out : Output β) (op : String) (isRecall : Bool)
    (rows : List (RowCells β)) : Outcome PineError (List (RowCells β)) :=
  ((((Outcome.checked ((ranges.entries 0 out.commonWrites).findSome? (commonWriteError env op)) id rows).andThen
    (Outcome.forEach (fun w rows => Outcome.checked (itemWriteError env op rows.length w) (write w) rows)
      out.itemWrites)).andThen
    (Outcome.forEach (fun cw rows => Outcome.checked (colWriteError env op rows.length cw) (writeColumn cw) rows)
      out.colWrites)).andThen
    (fun rows => Outcome.checked (removalError op rows.length (ranges.indices out.removedItems))
      (dropRows (ranges.indices out.removedItems)) rows)).andThen
    (fun rows => (match out.itemOrder with
      | none => Outcome.ok rows
      | some order => Outcome.checked (orderError op rows.length order) (gatherRows order) rows).andThen
      fun rows => Outcome.checked ((out.addedEntries ranges op isRecall).findSome? (addedFieldError env op))
        (· ++ (out.added op isRecall).map SortedMap.find?) rows)

end Rows

/-! ## The frame stands for the rows -/

/-- The columns hold the rows' cells, and a field without a column is in no row. -/
structure Denotes (f : ColumnFrame β) (rows : List (RowCells β)) : Prop where
  rowCount : f.rowCount = rows.length
  column : ∀ field c, f.columns.find? field = some c → c.Holds (rows.map (· field))
  missing : ∀ field, f.columns.find? field = none → ∀ row ∈ rows, row field = none

namespace Denotes
variable {f : ColumnFrame β} {rows : List (RowCells β)}

/-- The field's column, or the new one that a write creates. -/
theorem columnFor (h : Denotes f rows) (field : String) (v : Value β) :
    ((f.columns.find? field).getD (newColumnForValue v f.rowCount)).Holds (rows.map (· field)) := by
  cases hc : f.columns.find? field with
  | some c => exact h.column field c hc
  | none =>
    have hcells : rows.map (· field) = List.replicate rows.length none := by
      refine List.eq_replicate_iff.mpr ⟨List.length_map _, fun cell hcell => ?_⟩
      obtain ⟨row, hrow, rfl⟩ := List.mem_map.mp hcell
      exact h.missing field hc row hrow
    rw [hcells, ← h.rowCount]
    exact .blank _ _

/-- Put a column for the field, over rows that differ from the old ones in this field only. -/
theorem insert (h : Denotes f rows) {rows' : List (RowCells β)} {field : String} {c : Column β}
    (hlen : rows'.length = rows.length) (hc : c.Holds (rows'.map (· field)))
    (hother : ∀ g, g ≠ field → rows'.map (· g) = rows.map (· g)) :
    Denotes { f with columns := f.columns.insert field c } rows' := by
  refine ⟨h.rowCount.trans hlen.symm, fun g d hd => ?_, fun g hg row hrow => ?_⟩
  · dsimp only at hd
    rw [SortedMap.find?_insert] at hd
    split at hd
    · next heq =>
      rw [← Option.some.inj hd, heq]
      exact hc
    · next hne =>
      rw [hother g hne]
      exact h.column g d hd
  · dsimp only at hg
    rw [SortedMap.find?_insert] at hg
    split at hg
    · exact absurd hg nofun
    · next hne =>
      have hmem : row g ∈ rows.map (· g) := hother g hne ▸ List.mem_map.mpr ⟨row, hrow, rfl⟩
      obtain ⟨old, hold, heq⟩ := List.mem_map.mp hmem
      exact heq ▸ h.missing g hg old hold

theorem writeItem (h : Denotes f rows) (w : ItemWrite β) :
    Denotes (f.writeItem w) (Rows.write w rows) := by
  have hcells : ∀ g, (Rows.write w rows).map (· g) = (rows.map (· g)).modify w.index.toNat fun cell =>
      if g = w.field then some w.value else cell := by
    intro g
    refine List.ext_getElem? fun i => ?_
    simp only [Rows.write, List.getElem?_map, List.getElem?_modify]
    cases rows[i]? with
    | none => rfl
    | some row =>
      by_cases hi : w.index.toNat = i
      · simp [hi, Function.update_apply]
      · simp [hi]
  refine h.insert (List.length_modify ..) ?_ fun g hg => ?_
  · rw [hcells]
    have hset : ((rows.map (· w.field)).modify w.index.toNat fun cell =>
        if w.field = w.field then some w.value else cell) = (rows.map (· w.field)).set w.index.toNat (some w.value) := by
      refine List.ext_getElem? fun i => ?_
      rw [List.getElem?_modify, List.getElem?_set]
      by_cases hi : w.index.toNat = i
      · subst hi
        by_cases hlt : w.index.toNat < rows.length
        · simp [hlt]
        · simp [hlt]
      · simp [hi]
    rw [hset]
    exact (h.columnFor w.field w.value).setOrPromote _ _
  · rw [hcells]
    simp only [if_neg hg]
    exact List.modify_id ..

theorem writeColumn (h : Denotes f rows) {cw : DoubleColumnWrite} (hlen : cw.vals.length = rows.length) :
    Denotes (f.writeColumn cw) (Rows.writeColumn cw rows) := by
  unfold Rows.writeColumn
  refine h.insert (by rw [List.length_map, List.length_zip, hlen, Nat.min_self]) ?_ fun g hg => ?_
  · have hcells : ((rows.zip cw.vals).map fun p => Function.update p.1 cw.field (some (.float64 p.2))).map (· cw.field) =
        ((rows.zip cw.vals).map Prod.snd).map fun d => some (.float64 d) := by
      simp [Function.comp_def]
    rw [hcells, List.map_snd_zip (Nat.le_of_eq hlen)]
    exact .adoptFloat64 _
  · have hcells : ((rows.zip cw.vals).map fun p => Function.update p.1 cw.field (some (.float64 p.2))).map (· g) =
        ((rows.zip cw.vals).map Prod.fst).map (· g) := by
      simp [Function.comp_def, Function.update_of_ne hg]
    rw [hcells, List.map_fst_zip (Nat.le_of_eq hlen.symm)]

/-- Every column replaced, over new rows. -/
theorem eachColumn {τ : Type} {ranges : Ranges} {k : Nat}
    {g : String → Column β → τ → Column β × τ} {scratch : τ} {Fit : τ → Prop} {rows' : List (RowCells β)}
    (hfit : Fit scratch)
    (hg : ∀ field c, f.columns.find? field = some c → ∀ t, Fit t →
      (g field c t).1.Holds (rows'.map (· field)) ∧ (g field c t).1 = (g field c scratch).1 ∧ Fit (g field c t).2)
    (hmissing : ∀ field, f.columns.find? field = none → ∀ row ∈ rows', row field = none) :
    Denotes { f with columns := f.eachColumn ranges k g scratch, rowCount := rows'.length } rows' := by
  have hkeys : ((ranges.entries k f.columns).map Prod.fst).Perm f.columns.keys := (ranges.perm k f.columns).map Prod.fst
  have hfind : ∀ field, (f.eachColumn ranges k g scratch).find? field =
      (f.columns.find? field).map fun c => (g field c scratch).1 :=
    SortedMap.find?_sweep_all hkeys hfit fun field c hc t ht => (hg field c hc t ht).2
  refine ⟨rfl, fun field d hd => ?_, fun field hd => ?_⟩
  · dsimp only at hd
    rw [hfind] at hd
    obtain ⟨c, hc, rfl⟩ := Option.map_eq_some_iff.mp hd
    exact (hg field c hc scratch hfit).1
  · dsimp only at hd
    rw [hfind] at hd
    exact hmissing field (Option.map_eq_none_iff.mp hd)

theorem removeRows (h : Denotes f rows) {ranges : Ranges} {removed : List Int}
    (hv : ValidRemoval rows.length removed) : Denotes (f.removeRows ranges removed) (dropRows removed rows) := by
  have hdrop : ∀ {α : Type} (xs : List α), xs.length = rows.length →
      InPlace.gather (keptRows rows.length removed) xs = dropRows removed xs := fun xs hxs => by
    rw [dropRows_eq_gather, hxs]
  have hlen : (dropRows removed rows).length = f.rowCount - removed.length := by
    rw [← hdrop rows rfl, InPlace.length_gather fun _ => lt_of_mem_keptRows, length_keptRows hv, h.rowCount]
  have hresult := @eachColumn β f Unit ranges 1 (fun _ col _ =>
    (col.removeByBitmap (TypedColumnStore.removeBitmap f.rowCount removed) (f.rowCount - removed.length), ())) ()
    (fun _ => True) (dropRows removed rows) trivial ?_ ?_
  · rw [hlen] at hresult
    exact hresult
  · refine fun field c hc t _ => ⟨?_, rfl, trivial⟩
    have hcells : (dropRows removed rows).map (· field) =
        InPlace.gather (InPlace.keptSlots (TypedColumnStore.removeBitmap f.rowCount removed)) (rows.map (· field)) := by
      rw [h.rowCount, TypedColumnStore.keptSlots_removeBitmap hv, InPlace.gather_map, hdrop rows rfl]
    rw [hcells]
    refine (h.column field c hc).removeByBitmap ?_ ?_
    · rw [TypedColumnStore.length_removeBitmap, List.length_map, h.rowCount]
    · rw [h.rowCount, TypedColumnStore.keptSlots_removeBitmap hv, length_keptRows hv]
  · intro field hc row hrow
    rw [← hdrop rows rfl] at hrow
    obtain ⟨j, -, hj⟩ := List.mem_filterMap.mp hrow
    exact h.missing field hc row (List.mem_of_getElem? hj)

theorem reorderRows (h : Denotes f rows) {ranges : Ranges} {order : List Int} (hv : ValidOrder rows.length order) :
    Denotes (f.reorderRows ranges order) (gatherRows order rows) := by
  have hlen : (gatherRows order rows).length = f.rowCount := by
    rw [gatherRows_eq_gather, InPlace.length_gather fun j hj => by
      have := hv.isOrder.lt j hj
      rwa [List.length_map, hv.length] at this, List.length_map, hv.length, h.rowCount]
  have hresult := @eachColumn β f (List Bool) ranges 2 (fun _ col visited => col.reorder order visited)
    (List.replicate order.length false) (fun visited => visited.length ≤ order.length) (gatherRows order rows)
    (Nat.le_of_eq List.length_replicate) ?_ ?_
  · rw [hlen] at hresult
    exact hresult
  · intro field c hc visited hvisited
    have hcol := h.column field c hc
    have hrows : (rows.map (· field)).length = order.length := by rw [List.length_map, hv.length]
    have hcells : (gatherRows order rows).map (· field) = InPlace.gather (order.map Int.toNat) (rows.map (· field)) := by
      rw [gatherRows_eq_gather, InPlace.gather_map]
    obtain ⟨hholds, hmarks⟩ := hcol.reorder hv.isOrder hrows hvisited
    exact ⟨hcells ▸ hholds, hcol.reorder_buffer hrows hvisited (Nat.le_of_eq List.length_replicate), hmarks⟩
  · intro field hc row hrow
    obtain ⟨idx, -, hidx⟩ := List.mem_filterMap.mp hrow
    exact h.missing field hc row (List.mem_of_getElem? hidx)

/-- A column that is missing may be there already, with all cells absent. -/
theorem ensureColumn (h : Denotes f rows) (w : String × Value β) : Denotes (f.ensureColumn w) rows := by
  unfold ColumnFrame.ensureColumn
  cases hc : f.columns.find? w.1 with
  | some c => exact h
  | none =>
    refine h.insert rfl ?_ fun _ _ => rfl
    have hcol := h.columnFor w.1 w.2
    rw [hc] at hcol
    exact hcol

theorem appendRows_holds {c : Column β} {cells : List (Option (Value β))} (h : c.Holds cells)
    (added : List (SortedMap String (Value β))) (field : String) :
    (ColumnFrame.appendRows added field c).Holds (cells ++ added.map (·.find? field)) := by
  unfold ColumnFrame.appendRows
  induction added generalizing c cells with
  | nil => simpa using h
  | cons row added ih =>
    rw [List.foldl_cons, List.map_cons, List.append_cons]
    cases hv : row.find? field with
    | none => exact ih h.appendAbsent
    | some v => exact ih (h.appendOrPromote v)

theorem addRows (h : Denotes f rows) {ranges : Ranges} {added : List (SortedMap String (Value β))}
    (hcols : ∀ row ∈ added, ∀ field, row.contains field = true → f.columns.contains field = true) :
    Denotes (f.addRows ranges added) (rows ++ added.map SortedMap.find?) := by
  have hresult := @eachColumn β f Unit ranges 3 (fun field col _ => (ColumnFrame.appendRows added field col, ())) ()
    (fun _ => True) (rows ++ added.map SortedMap.find?) trivial ?_ ?_
  · rw [List.length_append, List.length_map, ← h.rowCount] at hresult
    exact hresult
  · refine fun field c hc t _ => ⟨?_, rfl, trivial⟩
    rw [List.map_append, List.map_map]
    exact appendRows_holds (h.column field c hc) added field
  · intro field hc row hrow
    rcases List.mem_append.mp hrow with hrow | hrow
    · exact h.missing field hc row hrow
    · obtain ⟨m, hm, rfl⟩ := List.mem_map.mp hrow
      rw [Option.eq_none_iff_forall_ne_some]
      intro v hv
      have := hcols m hm field (SortedMap.contains_iff.mpr ⟨v, hv⟩)
      rw [SortedMap.contains, hc] at this
      exact absurd this nofun

/-- The first frame. -/
theorem ofItems (common : SortedMap String (Value β)) (items : List (SortedMap String (Value β))) :
    Denotes (.ofItems common items) (items.map SortedMap.find?) := by
  have hfind : ∀ field, (ColumnFrame.ofItems common items).columns.find? field =
      if field ∈ items.flatMap SortedMap.keys then some (makeColumn (items.map (·.find? field))) else none := by
    intro field
    have H : ∀ (fields : List String) (m : SortedMap String (Column β)),
        (fields.foldl (fun cols field => cols.insert field (makeColumn (items.map (·.find? field)))) m).find? field =
          if field ∈ fields then some (makeColumn (items.map (·.find? field))) else m.find? field := by
      intro fields
      induction fields with
      | nil => exact fun m => (if_neg List.not_mem_nil).symm
      | cons a fields ih =>
        intro m
        rw [List.foldl_cons, ih, SortedMap.find?_insert]
        by_cases ha : field = a
        · subst ha
          simp
        · simp [ha]
    exact H _ ∅
  refine ⟨(List.length_map _).symm, fun field c hc => ?_, fun field hc row hrow => ?_⟩
  · rw [hfind] at hc
    split at hc
    · rw [← Option.some.inj hc, List.map_map]
      exact makeColumn_holds _
    · exact absurd hc nofun
  · rw [hfind] at hc
    split at hc
    · exact absurd hc nofun
    · next hnot =>
      obtain ⟨m, hm, rfl⟩ := List.mem_map.mp hrow
      rw [Option.eq_none_iff_forall_ne_some]
      intro v hv
      exact hnot (List.mem_flatMap.mpr ⟨m, hm, SortedMap.mem_keys.mpr (SortedMap.contains_iff.mpr ⟨v, hv⟩)⟩)

/-! ### The phases -/

theorem setCommon (h : Denotes f rows) (common : SortedMap String (Value β)) :
    Denotes { f with common := common } rows := ⟨h.rowCount, h.column, h.missing⟩

/-- Updates that keep the rows, one after the other. -/
theorem foldl {α : Type} (h : Denotes f rows) (step : α → ColumnFrame β → ColumnFrame β)
    (hstep : ∀ a f, Denotes f rows → Denotes (step a f) rows) (l : List α) :
    Denotes (l.foldl (fun f a => step a f) f) rows := by
  induction l generalizing f with
  | nil => exact h
  | cons a l ih => exact ih (hstep a f h)

theorem applyRemovals (h : Denotes f rows) (ranges : Ranges) (op : String) (out : Output β) :
    Outcome.Rel Denotes (f.applyRemovals ranges op out)
      (.checked (removalError op rows.length (ranges.indices out.removedItems))
        (dropRows (ranges.indices out.removedItems)) rows) := by
  unfold ColumnFrame.applyRemovals
  dsimp only
  split
  · next hempty =>
    rw [List.isEmpty_iff.mp hempty]
    have hnone : dropRows [] rows = rows := by simp [dropRows]
    exact .ok (hnone.symm ▸ h)
  · rw [h.rowCount]
    refine .checked _ h fun hbad => h.removeRows ⟨removalError_eq_none.mp hbad, ?_⟩
    exact (ranges.indices_perm out.removedItems).nodup_iff.mpr out.removedItems.keys_nodup

theorem applyOrder (h : Denotes f rows) (ranges : Ranges) (op : String) (out : Output β) :
    Outcome.Rel Denotes (f.applyOrder ranges op out) (match out.itemOrder with
      | none => .ok rows
      | some order => .checked (orderError op rows.length order) (gatherRows order) rows) := by
  unfold ColumnFrame.applyOrder
  cases out.itemOrder with
  | none => exact .ok h
  | some order =>
    dsimp only
    rw [h.rowCount]
    exact .checked _ h fun hbad => h.reorderRows (validOrder_of_orderError hbad)

theorem contains_ensureColumn (w : String × Value β) (f : ColumnFrame β) :
    (f.ensureColumn w).columns.contains w.1 = true ∧
      ∀ field, f.columns.contains field = true → (f.ensureColumn w).columns.contains field = true := by
  unfold ColumnFrame.ensureColumn
  cases hc : f.columns.find? w.1 with
  | some c => exact ⟨SortedMap.contains_iff.mpr ⟨c, hc⟩, fun _ h => h⟩
  | none =>
    refine ⟨SortedMap.contains_iff.mpr ⟨_, SortedMap.find?_insert_self ..⟩, fun field hfield => ?_⟩
    obtain ⟨c, hcol⟩ := SortedMap.contains_iff.mp hfield
    refine SortedMap.contains_iff.mpr ⟨c, ?_⟩
    rw [SortedMap.find?_insert_of_ne _ _ fun heq => by rw [heq, hc] at hcol; exact absurd hcol nofun]
    exact hcol

/-- After pass 1 every field it saw has a column. -/
theorem contains_foldl_ensureColumn (ws : List (String × Value β)) (f : ColumnFrame β) (field : String)
    (h : f.columns.contains field = true ∨ field ∈ ws.map Prod.fst) :
    (ws.foldl (fun f w => f.ensureColumn w) f).columns.contains field = true := by
  induction ws generalizing f with
  | nil => exact h.resolve_right List.not_mem_nil
  | cons w ws ih =>
    obtain ⟨hnew, hold⟩ := contains_ensureColumn w f
    refine ih (f.ensureColumn w) ?_
    rcases h with h | h
    · exact .inl (hold field h)
    · rcases List.mem_cons.mp h with heq | h
      · exact .inl (heq ▸ hnew)
      · exact .inr h

theorem applyAdditions (h : Denotes f rows) (env : Env β) (ranges : Ranges) (op : String) (isRecall : Bool)
    (out : Output β) : Outcome.Rel Denotes (f.applyAdditions env ranges op isRecall out)
      (.checked ((out.addedEntries ranges op isRecall).findSome? (addedFieldError env op))
        (· ++ (out.added op isRecall).map SortedMap.find?) rows) := by
  unfold ColumnFrame.applyAdditions
  split
  · next hempty =>
    have hadded : out.added op isRecall = [] := by
      rw [Output.added, List.isEmpty_iff.mp hempty]
      rfl
    rw [Output.addedEntries, hadded]
    refine .ok ?_
    show Denotes f (rows ++ [])
    rw [List.append_nil]
    exact h
  · rw [Outcome.forEach_checked]
    cases hbad : (out.addedEntries ranges op isRecall).findSome? (addedFieldError env op) with
    | some e => exact .fail (h.foldl _ (fun w f hf => hf.ensureColumn w) _)
    | none =>
      have hall : (out.addedEntries ranges op isRecall).takeWhile (fun w => (addedFieldError env op w).isNone) =
          out.addedEntries ranges op isRecall := by
        rw [List.takeWhile_eq_self_iff]
        intro w hw
        rw [List.findSome?_eq_none_iff.mp hbad w hw]
        rfl
      rw [hall]
      refine .ok ((h.foldl _ (fun w f hf => hf.ensureColumn w) _).addRows fun row hrow field hfield => ?_)
      refine contains_foldl_ensureColumn _ f field (.inr ?_)
      obtain ⟨k, hk⟩ := List.getElem?_of_mem hrow
      obtain ⟨v, hv⟩ := SortedMap.contains_iff.mp hfield
      refine List.mem_map.mpr ⟨(field, v), List.mem_flatMap.mpr ⟨(row, k), ?_, ?_⟩, rfl⟩
      · exact List.mk_mem_zipIdx_iff_getElem?.mpr hk
      · exact (ranges.perm _ _).mem_iff.mpr (SortedMap.mem_entries.mpr hv)

/-- One call of `ApplyOutput` does to the rows what it should, and stops where it should. -/
theorem applyOutput (h : Denotes f rows) (env : Env β) (ranges : Ranges) (out : Output β) (op : String)
    (isRecall : Bool) :
    Outcome.Rel Denotes (f.applyOutput env ranges out op isRecall) (Rows.applyOutput env ranges out op isRecall rows) := by
  unfold ColumnFrame.applyOutput Rows.applyOutput
  refine Outcome.Rel.andThen (.andThen (.andThen (.andThen ?_ fun f rows h => ?_) fun f rows h => ?_)
    fun f rows h => h.applyRemovals ranges op out) fun f rows h => (h.applyOrder ranges op out).andThen
      fun f rows h => h.applyAdditions env ranges op isRecall out
  · rw [Outcome.forEach_checked]
    have hkept := h.foldl (fun (w : String × Value β) f => { f with common := f.common.insert w.1 w.2 })
      (fun w f hf => hf.setCommon _)
      ((ranges.entries 0 out.commonWrites).takeWhile fun w => (commonWriteError env op w).isNone)
    exact .checked _ hkept fun _ => hkept
  · refine .forEach _ (fun w _ f rows h => ?_) h
    rw [h.rowCount]
    exact .checked _ h fun _ => h.writeItem w
  · refine .forEach _ (fun cw _ f rows h => ?_) h
    rw [h.rowCount]
    refine .checked _ h fun hbad => h.writeColumn ?_
    by_contra hne
    unfold colWriteError at hbad
    rw [if_pos hne] at hbad
    exact absurd hbad nofun

end Denotes

/-! ## Reading the rows back -/

namespace Denotes
variable {f : ColumnFrame β} {rows : List (RowCells β)}

theorem getD_map (rows : List (RowCells β)) (i : Nat) (field : String) :
    (rows.map (· field)).getD i none = rows[i]?.bind (· field) := by
  rw [List.getD_eq_getElem?_getD, List.getElem?_map]
  cases rows[i]? <;> rfl

theorem absent (h : Denotes f rows) {field : String} (hcol : f.columns.find? field = none) (i : Nat) :
    rows[i]?.bind (· field) = none := by
  cases hrow : rows[i]? with
  | none => rfl
  | some row => exact h.missing field hcol row (List.mem_of_getElem? hrow)

theorem itemPresent_eq (h : Denotes f rows) (i : Nat) (field : String) :
    f.itemPresent i field = (rows[i]?.bind (· field)).isSome := by
  unfold ColumnFrame.itemPresent
  cases hc : f.columns.find? field with
  | none => rw [h.absent hc i]; rfl
  | some c => exact ((h.column field c hc).reads i).1.trans (congrArg Option.isSome (getD_map rows i field))

theorem item_eq (h : Denotes f rows) (i : Nat) (field : String) :
    f.item i field = (rows[i]?.bind (· field)).getD .nil := by
  unfold ColumnFrame.item
  split
  · next hi => rw [List.getElem?_eq_none (h.rowCount ▸ hi)]; rfl
  · cases hc : f.columns.find? field with
    | none => rw [h.absent hc i]; rfl
    | some c => exact ((h.column field c hc).reads i).2.1.trans (congrArg (·.getD Value.nil) (getD_map rows i field))

end Denotes

/-! ## Runs -/

/-- One call of `ApplyOutput`. -/
structure OutputStep (β : Type) where
  ranges : Ranges
  out : Output β
  op : String
  isRecall : Bool

/-- The frame after some calls, those after a failed one included. -/
def ColumnFrame.applyAll (env : Env β) (steps : List (OutputStep β)) (f : ColumnFrame β) : ColumnFrame β :=
  steps.foldl (fun f a => (f.applyOutput env a.ranges a.out a.op a.isRecall).state) f

def Rows.applyAll (env : Env β) (steps : List (OutputStep β)) (rows : List (RowCells β)) : List (RowCells β) :=
  steps.foldl (fun rows a => (Rows.applyOutput env a.ranges a.out a.op a.isRecall rows).state) rows

theorem Denotes.applyAll {f : ColumnFrame β} {rows : List (RowCells β)} (h : Denotes f rows) (env : Env β)
    (steps : List (OutputStep β)) : Denotes (f.applyAll env steps) (Rows.applyAll env steps rows) := by
  induction steps generalizing f rows with
  | nil => exact h
  | cons a steps ih => exact ih (h.applyOutput env a.ranges a.out a.op a.isRecall).state

end Pineapple.GoColumns
