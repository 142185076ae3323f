import Pineapple.JavaRun
import Pineapple.RunDag
import Pineapple.Snapshots

/-! # Runs with debugging (`node_body`, `Run`, `runOperator`)

With debugging on for an operator the engines make snapshots of its input and output and print them before the
output is applied. In C++ these are copies. The Go engine prints values that may contain themselves, and so
does the Java engine, whose output snapshot also shares the rows of the cell writes with the output: what it
folds in from whole columns is then applied as a cell write. -/

namespace Pineapple
open Relation

/-! ## The C++ engine -/

section Cpp
variable {σ : Type} {env : RunEnv σ} {g : Graph} {pool : Bool} {f₀ : FrameState σ}

/-- The snapshots in the traces. -/
structure CppSnapshots where
  input : Nat → Option InputSnapshot := fun _ => none
  output : Nat → Option OutputSnapshot := fun _ => none

/-- What a step of a run adds to the snapshots: the input's past the skip fields, the output's when the operator
has returned. -/
def CppSnapshots.record (debug : Nat → Bool) (env : RunEnv σ) (s s' : RunState σ) (snaps : CppSnapshots) :
    CppSnapshots where
  input i := match s.bodies i, s'.bodies i with
    | .entered, .resolving =>
      if debug i then some (snapshotInput (env.storage.view s.frame none) (env.node i).op) else snaps.input i
    | _, _ => snaps.input i
  output i := match s'.bodies i with
    | .produced out => if debug i then some (snapshotOutput out) else snaps.output i
    | _ => snaps.output i

inductive CppDebugStep (env : RunEnv σ) (g : Graph) (pool : Bool) (debug : Nat → Bool) :
    RunState σ × CppSnapshots → RunState σ × CppSnapshots → Prop
  | intro {s s' snaps} : RunStep env g pool s s' →
      CppDebugStep env g pool debug (s, snaps) (s', snaps.record debug env s s')

/-- The states of the runs with this debug setting. -/
def CppDebugReachable (env : RunEnv σ) (g : Graph) (pool : Bool) (poolSize : Nat) (f₀ : FrameState σ)
    (debug : Nat → Bool) (s : RunState σ) : Prop :=
  ∃ snaps, ReflTransGen (CppDebugStep env g pool debug) (.init g poolSize f₀, {}) (s, snaps)

theorem cppDebugReachable_iff {poolSize : Nat} {debug : Nat → Bool} {s : RunState σ} :
    CppDebugReachable env g pool poolSize f₀ debug s ↔ RunReachable env g pool poolSize f₀ s := by
  constructor
  · rintro ⟨snaps, h⟩
    exact h.lift Prod.fst fun _ _ hstep => by
      cases hstep with
      | intro hs => exact hs
  · intro h
    induction h with
    | refl => exact ⟨_, .refl⟩
    | tail _ hstep ih =>
      obtain ⟨snaps, hr⟩ := ih
      exact ⟨_, hr.tail (.intro hstep)⟩

end Cpp

/-! ## The Go engine -/

section Go
variable {σ ι : Type} {env : GoEnv σ ι} {g : Graph} {f₀ : σ} {endless : Option ι → OperatorOutput → Bool}
  {debug debug' : Nat → Bool}

def GoBody.readyInput? : GoBody ι → Option ι
  | ready input _ => some input
  | _ => none

/-- The inputs of the operators so far. -/
def GoRunState.noteInputs (s : GoRunState σ ι) (inputs : Nat → Option ι) (i : Nat) : Option ι :=
  (s.bodies i).readyInput?.or (inputs i)

/-- A step of a run that prints the snapshots of an output on its way to `ApplyOutput`; `endless` says which
inputs and outputs have a value that contains itself. -/
inductive GoDebugStep (env : GoEnv σ ι) (g : Graph) (endless : Option ι → OperatorOutput → Bool) (debug : Nat → Bool) :
    GoRunState σ ι × (Nat → Option ι) → GoRunState σ ι × (Nat → Option ι) → Prop
  | step {s s' inputs} : GoRunStep env g s s' →
      (∀ i out, s.bodies i = .produced out → debug i = true → endless (inputs i) out = true →
        s'.bodies i = .produced out) →
      GoDebugStep env g endless debug (s, inputs) (s', s'.noteInputs inputs)
  /-- `%v` of such a value exhausts the stack, which ends the process -/
  | overflows {s inputs i out} : s.crashed = false → s.bodies i = .produced out → debug i = true →
      endless (inputs i) out = true → GoDebugStep env g endless debug (s, inputs) ({ s with crashed := true }, inputs)

/-- No operator whose setting differs prints without end. -/
def GoCalm (endless : Option ι → OperatorOutput → Bool) (debug debug' : Nat → Bool)
    (x : GoRunState σ ι × (Nat → Option ι)) : Prop :=
  ∀ i out, debug i ≠ debug' i → x.1.bodies i = .produced out → endless (x.2 i) out = false

theorem GoDebugStep.redebug {x y : GoRunState σ ι × (Nat → Option ι)} (h : GoDebugStep env g endless debug x y)
    (hcalm : GoCalm endless debug debug' x) : GoDebugStep env g endless debug' x y := by
  cases h with
  | step hs hprint =>
    refine .step hs fun i out hb hdebug hend => ?_
    by_cases hsame : debug i = debug' i
    · exact hprint i out hb (hsame.trans hdebug) hend
    · exact absurd (hend.symm.trans (hcalm i out hsame hb)) Bool.true_eq_false.mp
  | @overflows s inputs i out hc hb hdebug hend =>
    have hsame : debug i = debug' i := by
      by_contra hne
      exact Bool.true_eq_false.mp (hend.symm.trans (hcalm i out hne hb))
    exact .overflows hc hb (hsame.symm.trans hdebug) hend

end Go

/-! ## The Java engine -/

/-- `iwMap.computeIfAbsent(i, ...).put(field, v)` as the output sees it: the outer map of the snapshot is a copy, so
only a row that is there already gets the cell. A row's cells stand together, in the row's order. -/
def putShared (i : Int) (field : String) (v : Variant) : List ItemWrite → List ItemWrite
  | [] => []
  | w :: rest =>
    if w.index = i then
      if w.field = field then ⟨i, field, v⟩ :: rest
      else if rest.head?.map ItemWrite.index = some i then w :: putShared i field v rest
      else w :: ⟨i, field, v⟩ :: rest
    else w :: putShared i field v rest

/-- What folding in a whole column does to the cell writes. -/
def shareColumn (ws : List ItemWrite) (cw : DoubleColumnWrite) : List ItemWrite :=
  cw.vals.zipIdx.foldl (fun ws v => putShared v.2 cw.field (.number v.1) ws) ws

/-- The output after `snapshotOutput`. -/
def OperatorOutput.afterSnapshot (out : OperatorOutput) : OperatorOutput :=
  { out with itemWrites := out.columnWrites.foldl shareColumn out.itemWrites }

/-- No row has both a cell write and a value of a whole column. -/
def OperatorOutput.Apart (out : OperatorOutput) : Prop :=
  ∀ w ∈ out.itemWrites, ∀ cw ∈ out.columnWrites, w.index < 0 ∨ (cw.vals.length : Int) ≤ w.index

theorem putShared_of_absent {i : Int} {field : String} {v : Variant} {ws : List ItemWrite} (h : ∀ w ∈ ws, w.index ≠ i) :
    putShared i field v ws = ws := by
  induction ws with
  | nil => rfl
  | cons w rest ih =>
    rw [putShared, if_neg (h w List.mem_cons_self), ih fun w' hw' => h w' (List.mem_cons_of_mem _ hw')]

theorem foldl_fixed {α β : Type} {f : β → α → β} {l : List α} {b : β} (h : ∀ a ∈ l, f b a = b) : l.foldl f b = b := by
  induction l with
  | nil => rfl
  | cons a rest ih =>
    rw [List.foldl_cons, h a List.mem_cons_self]
    exact ih fun a' ha' => h a' (List.mem_cons_of_mem _ ha')

theorem OperatorOutput.Apart.afterSnapshot_eq {out : OperatorOutput} (h : out.Apart) : out.afterSnapshot = out := by
  have hkept : out.columnWrites.foldl shareColumn out.itemWrites = out.itemWrites := by
    refine foldl_fixed fun cw hcw => foldl_fixed fun v hv => putShared_of_absent fun w hw hi => ?_
    have hlt : v.2 < cw.vals.length := by
      have := List.snd_lt_add_of_mem_zipIdx hv
      omega
    have := h w hw cw hcw
    omega
  unfold OperatorOutput.afterSnapshot
  rw [hkept]

/-! ### Row storage (`DataFrame.java`) -/

namespace DataFrame

/-- The error of a phase, where it is an `ExecutionError`. -/
def execution : Outcome PineError RowFrame → Outcome ApplyThrown RowFrame
  | .ok f => .ok f
  | .fail e f => .fail (.execution e) f

def putAll (cells : List ItemWrite) (row : Row) : Row := cells.foldl (fun row w => row.insert w.field w.value) row

/-- The cells of one row: all are checked before the first is put. -/
def putRow (op : String) (cells : List ItemWrite) (f : RowFrame) : Outcome ApplyThrown RowFrame :=
  match cells with
  | [] => .ok f
  | w :: _ =>
    if OutOfRange f.items.length w.index then
      .fail (.other ("SetItem index " ++ toString w.index ++ " out of range [0, " ++ toString f.items.length ++ ")")) f
    else match cells.findSome? fun w => validateFrameValue w.field w.value with
      | some v => .fail (.execution (.execution op ("item[" ++ toString w.index ++ "] write: " ++ v))) f
      | none => .ok { f with items := f.items.modify w.index.toNat (putAll cells) }

def remove (removed : List Int) (f : RowFrame) : Outcome ApplyThrown RowFrame :=
  match removed.find? fun idx => OutOfRange f.items.length idx with
  | some idx =>
    .fail (.other ("RemoveItem index " ++ toString idx ++ " out of range [0, " ++ toString f.items.length ++ ")")) f
  | none => .ok { f with items := dropRows removed f.items }

def applyOutput (out : OperatorOutput) (op : String) (fromRecall : Bool) (f : RowFrame) :
    Outcome ApplyThrown RowFrame :=
  execution (applyCommonWrites op out.commonWrites.entries f)
    |>.andThen (Outcome.forEach (putRow op) (out.itemWrites.splitBy fun w w' => w.index == w'.index))
    |>.andThen (fun f => execution (applyColumnWrites RowFrame.store op out.columnWrites f))
    |>.andThen (remove out.removedItems.keys)
    |>.andThen (fun f => execution (applyReorder RowFrame.store op out.itemOrder f))
    |>.andThen (fun f => execution (applyAdditions RowFrame.store op fromRecall out.addedItems f))

end DataFrame

/-! ### Runs -/

section Java
variable {σ ι : Type} {env : JavaEnv σ ι} {g : Graph} {f₀ : σ} {endless : Option ι → OperatorOutput → Bool}
  {debug debug' : Nat → Bool}

def JavaBody.readyInput? : JavaBody ι → Option ι
  | ready input _ => some input
  | _ => none

/-- The inputs of the operators so far. -/
def JavaRunState.noteInputs (s : JavaRunState σ ι) (inputs : Nat → Option ι) (i : Nat) : Option ι :=
  (s.bodies i).readyInput?.or (inputs i)

/-- A step of a run that makes and prints the snapshots of an output once its warning is taken. -/
inductive JavaDebugStep (env : JavaEnv σ ι) (g : Graph) (endless : Option ι → OperatorOutput → Bool)
    (debug : Nat → Bool) :
    JavaRunState σ ι × (Nat → Option ι) → JavaRunState σ ι × (Nat → Option ι) → Prop
  | step {l s s' inputs} : JavaStep env g l s s' →
      (∀ i eff out, l = .node i eff → s.bodies i = .produced out → debug i = false) →
      JavaDebugStep env g endless debug (s, inputs) (s', s'.noteInputs inputs)
  | shows {s inputs i out eff} : s.bodies i = .produced out → JavaBodyStep env g s i (.produced out) eff (.warned out) →
      debug i = true → endless (inputs i) out = false →
      JavaDebugStep env g endless debug (s, inputs)
        (s.move (env.node i).op.name i eff (.warned out.afterSnapshot),
          (s.move (env.node i).op.name i eff (.warned out.afterSnapshot)).noteInputs inputs)
  /-- `String.valueOf` exhausts the stack, an `Error` that the task reports as a panic -/
  | overflows {s inputs i out eff} : s.bodies i = .produced out →
      JavaBodyStep env g s i (.produced out) eff (.warned out) → debug i = true → endless (inputs i) out = true →
      JavaDebugStep env g endless debug (s, inputs)
        (s.move (env.node i).op.name i eff
            (.failing ((JavaThrown.error "java.lang.StackOverflowError").fatal (env.node i).op.name)),
          (s.move (env.node i).op.name i eff
            (.failing ((JavaThrown.error "java.lang.StackOverflowError").fatal (env.node i).op.name))).noteInputs inputs)

/-- Every output of an operator whose setting differs is printed to its end, and has no row with both a cell write and a
value of a whole column. -/
def JavaCalm (endless : Option ι → OperatorOutput → Bool) (debug debug' : Nat → Bool)
    (x : JavaRunState σ ι × (Nat → Option ι)) : Prop :=
  ∀ i out, debug i ≠ debug' i → x.1.bodies i = .produced out → endless (x.2 i) out = false ∧ out.Apart

theorem JavaBodyStep.of_produced {s : JavaRunState σ ι} {i : Nat} {out : OperatorOutput} {eff : JavaEffect σ ι}
    {b : JavaBody ι} (h : JavaBodyStep env g s i (.produced out) eff b) : b = .warned out := by
  cases h <;> rfl

theorem JavaDebugStep.redebug {x y : JavaRunState σ ι × (Nat → Option ι)} (h : JavaDebugStep env g endless debug x y)
    (hcalm : JavaCalm endless debug debug' x) : JavaDebugStep env g endless debug' x y := by
  cases h with
  | @step l s s' inputs hs hoff =>
    by_cases hprints : ∃ i eff out, l = .node i eff ∧ s.bodies i = .produced out ∧ debug' i = true
    · obtain ⟨i, eff, out, rfl, hb, hdebug⟩ := hprints
      have hne : debug i ≠ debug' i := by
        rw [hoff i eff out rfl hb, hdebug]
        exact Bool.false_ne_true
      obtain ⟨hend, hapart⟩ := hcalm i out hne hb
      cases hs with
      | node hbody hstep =>
        obtain rfl := hbody.symm.trans hb
        obtain rfl := hstep.of_produced
        have hshow := JavaDebugStep.shows hb hstep hdebug hend
        rw [hapart.afterSnapshot_eq] at hshow
        exact hshow
    · refine .step hs fun i eff out hl hb => Bool.eq_false_of_not_eq_true fun hdebug => ?_
      exact hprints ⟨i, eff, out, hl, hb, hdebug⟩
  | @shows s inputs i out eff hb hstep hdebug hend =>
    by_cases hsame : debug i = debug' i
    · exact .shows hb hstep (hsame.symm.trans hdebug) hend
    · rw [(hcalm i out hsame hb).2.afterSnapshot_eq]
      refine .step (.node hb hstep) fun j eff' out' hl hb' => ?_
      cases hl
      exact Bool.eq_false_of_not_eq_true fun hdebug' => hsame (hdebug.trans hdebug'.symm)
  | @overflows s inputs i out eff hb hstep hdebug hend =>
    have hsame : debug i = debug' i := by
      by_contra hne
      exact Bool.true_eq_false.mp (hend.symm.trans (hcalm i out hne hb).1)
    exact .overflows hb hstep (hsame.symm.trans hdebug) hend

end Java

/-! ## All engines -/

/-- A run of `step` through states that satisfy `calm`. -/
def CalmRun {α : Type} (step : α → α → Prop) (calm : α → Prop) : α → α → Prop :=
  ReflTransGen fun x y => step x y ∧ calm x

theorem CalmRun.redebug {α : Type} {step step' : α → α → Prop} {calm : α → Prop} {x y : α} (h : CalmRun step calm x y)
    (hstep : ∀ x y, step x y → calm x → step' x y) : ReflTransGen step' x y := by
  unfold CalmRun at h
  exact h.lift id fun x y hxy => hstep x y hxy.1 hxy.2

/-- Every run with one debug setting is a run with any other, to the same frame, warnings, error and result, as long as
no operator whose setting differs prints without end in Go and Java, or writes in Java a row both by cells and by a
whole column. -/
theorem debug_transparent (g : Graph) (debug debug' : Nat → Bool) :
    (∀ {σ : Type} (env : RunEnv σ) (pool : Bool) (poolSize : Nat) (f₀ : FrameState σ) (s : RunState σ),
      CppDebugReachable env g pool poolSize f₀ debug s → CppDebugReachable env g pool poolSize f₀ debug' s) ∧
    (∀ {σ ι : Type} (env : GoEnv σ ι) (endless : Option ι → OperatorOutput → Bool) (f₀ : σ)
      (x : GoRunState σ ι × (Nat → Option ι)),
      CalmRun (GoDebugStep env g endless debug) (GoCalm endless debug debug') (.init g f₀, fun _ => none) x →
        ReflTransGen (GoDebugStep env g endless debug') (.init g f₀, fun _ => none) x) ∧
    ∀ {σ ι : Type} (env : JavaEnv σ ι) (endless : Option ι → OperatorOutput → Bool) (f₀ : σ)
      (x : JavaRunState σ ι × (Nat → Option ι)),
      CalmRun (JavaDebugStep env g endless debug) (JavaCalm endless debug debug') ({ frame := f₀ }, fun _ => none) x →
        ReflTransGen (JavaDebugStep env g endless debug') ({ frame := f₀ }, fun _ => none) x := by
  refine ⟨fun env pool poolSize f₀ s h => ?_, fun env endless f₀ x h => ?_, fun env endless f₀ x h => ?_⟩
  · exact cppDebugReachable_iff.mpr (cppDebugReachable_iff.mp h)
  · exact h.redebug fun _ _ hstep hcalm => hstep.redebug hcalm
  · exact h.redebug fun _ _ hstep hcalm => hstep.redebug hcalm

/-! ### An operator that writes a cell and its whole column -/

namespace Shared

/-- The cell's value is no JSON number, the column's are. -/
def out : OperatorOutput where
  itemWrites := [⟨0, "a", .number .nan⟩]
  columnWrites := [⟨"a", [.zero]⟩]

def frame : RowFrame := ⟨∅, [∅], []⟩

def graph : Graph where
  nodes := [{ name := "a", subflow := "", config := { name := "a" } }]
  nameToIndex := SortedMap.ofList [("a", 0)]

/-- Row storage, and an operator that always returns `out`. -/
def envOf (out : OperatorOutput) : JavaEnv RowFrame Unit where
  common f field := f.common.find? field
  buildInput _ _ := .ok ()
  itemCount _ := 1
  shard _ _ := ()
  resolve _ _ := .ok ∅
  apply := DataFrame.applyOutput
  resultCommon f := f.common
  resultItems f := f.items
  node _ := { op := { name := "a", metadata := { itemOutput := ["a"] } } }
  exec _ _ _ res := res = .ok out

abbrev env : JavaEnv RowFrame Unit := envOf out

theorem applies_after_snapshot : ∃ f, env.apply out.afterSnapshot "a" false frame = .ok f ∧ f ≠ frame := by
  have hnone : (env.apply out.afterSnapshot "a" false frame).error?.isNone = true := by decide +kernel
  refine ⟨_, Outcome.eq_ok_of_error? (Option.isNone_iff_eq_none.mp hnone), ?_⟩
  decide +kernel

theorem refused : ∃ e, env.apply out "a" false frame = .fail e frame := ⟨_, rfl⟩

/-! An operator without writes runs alike. -/

/-- The task has come to `b` in a calm run. -/
structure CalmAt (x : JavaRunState RowFrame Unit × (Nat → Option Unit)) (b : JavaBody Unit) : Prop where
  run : CalmRun (JavaDebugStep (envOf {}) graph (fun _ _ => false) fun _ => false)
    (JavaCalm (fun _ _ => false) (fun _ => false) fun _ => true) ({ frame := frame }, fun _ => none) x
  body : x.1.bodies 0 = b
  others : ∀ i ≠ 0, x.1.bodies i = .unsubmitted

theorem CalmAt.node {x : JavaRunState RowFrame Unit × (Nat → Option Unit)} {b b' : JavaBody Unit} (h : CalmAt x b)
    {eff : JavaEffect RowFrame Unit} (hstep : JavaBodyStep (envOf {}) graph x.1 0 b eff b')
    (hout : ∀ o, b = .produced o → o = {}) :
    CalmAt (x.1.move "a" 0 eff b', (x.1.move "a" 0 eff b').noteInputs x.2) b' := by
  obtain ⟨s, inputs⟩ := x
  refine ⟨ReflTransGen.tail h.run ⟨.step (.node h.body hstep) fun _ _ _ _ _ => rfl, fun i o _ ho => ⟨rfl, ?_⟩⟩,
    ?_, fun i hi => ?_⟩
  · by_cases hi : i = 0
    · subst hi
      rw [hout o (h.body.symm.trans ho)]
      exact fun w hw => absurd hw List.not_mem_nil
    · exact absurd ((h.others i hi).symm.trans ho) nofun
  · show Function.update s.bodies 0 b' 0 = b'
    exact Function.update_self ..
  · show Function.update s.bodies 0 b' i = .unsubmitted
    rw [Function.update_of_ne hi]
    exact h.others i hi

theorem calm_applies : ∃ x, CalmAt x (.applied {}) := by
  have hsubmit : JavaStep (envOf {}) graph (.submit 0) { frame := frame } _ := .submit rfl Nat.zero_lt_one
  have hqueued : CalmAt _ .queued := ⟨.single ⟨.step hsubmit fun _ _ _ hl => (by cases hl), fun _ _ _ => nofun⟩, rfl,
    fun i hi => Function.update_of_ne hi ..⟩
  have hentered := ((hqueued.node .start nofun).node (.check rfl) nofun).node (.enter rfl) nofun
  have hready := ((hentered.node (.goOn rfl) nofun).node (.build rfl) nofun).node (.resolve rfl) nofun
  have hexecuted := (hready.node (.serial (.inr le_rfl)) nofun).node (.executed rfl nofun) nofun
  have hwarned := (hexecuted.node (.gate rfl) nofun).node (.noWarning rfl) fun o ho => (JavaBody.produced.inj ho).symm
  exact ⟨_, hwarned.node (.apply rfl) nofun⟩

/-! With debugging the output is applied. -/

abbrev On : JavaRunState RowFrame Unit × (Nat → Option Unit) → Prop :=
  ReflTransGen (JavaDebugStep env graph (fun _ _ => false) fun _ => true) ({ frame := frame }, fun _ => none)

theorem On.node {x : JavaRunState RowFrame Unit × (Nat → Option Unit)} (h : On x) {eff : JavaEffect RowFrame Unit}
    {b b' : JavaBody Unit} (hb : x.1.bodies 0 = b) (hstep : JavaBodyStep env graph x.1 0 b eff b')
    (hquiet : ∀ out, b ≠ .produced out) :
    On (x.1.move "a" 0 eff b', (x.1.move "a" 0 eff b').noteInputs x.2) := by
  obtain ⟨s, inputs⟩ := x
  refine h.tail (.step (.node hb hstep) fun i eff' out hl hout => ?_)
  cases hl
  exact absurd (hb.symm.trans hout) (hquiet out)

theorem on_applies : ∃ x, On x ∧ x.1.frame ≠ frame := by
  obtain ⟨f, happly, hne⟩ := applies_after_snapshot
  have hqueued : On _ := .single (.step (.submit (i := 0) rfl Nat.zero_lt_one) fun _ _ _ hl => by cases hl)
  have hentered := ((hqueued.node rfl .start nofun).node rfl (.check rfl) nofun).node rfl (.enter rfl) nofun
  have hready := ((hentered.node rfl (.goOn rfl) nofun).node rfl (.build rfl) nofun).node rfl (.resolve rfl) nofun
  have hexecuted := (hready.node rfl (.serial (.inr le_rfl)) nofun).node rfl (.executed rfl nofun) nofun
  have hproduced := hexecuted.node rfl (.gate rfl) nofun
  have hshown := hproduced.tail (.shows (i := 0) rfl (.noWarning rfl) rfl rfl)
  exact ⟨_, On.node hshown rfl (.apply happly) nofun, hne⟩

/-! Without it the frame refuses it. -/

/-- Nothing but this output comes as far as the frame. -/
def Off : JavaBody Unit → Prop
  | .executed (.ok o) | .produced o | .warned o => o = out
  | .forking _ _ | .merging _ _ _ | .joined _ => False
  | _ => True

theorem Off.step {s : JavaRunState RowFrame Unit} {i : Nat} {b b' : JavaBody Unit} {eff : JavaEffect RowFrame Unit}
    (h : JavaBodyStep env graph s i b eff b') (hframe : s.frame = frame) (hb : Off b) :
    Off b' ∧ ∀ name, (s.perform name i eff).frame = frame := by
  obtain ⟨e, hrefused⟩ := refused
  cases h with
  | apply happly =>
    rw [show _ = out from hb, hframe] at happly
    exact absurd (hrefused.symm.trans happly) nofun
  | applyFails happly =>
    rw [show _ = out from hb, hframe] at happly
    obtain ⟨-, rfl⟩ := Outcome.fail.inj (hrefused.symm.trans happly)
    exact ⟨trivial, fun _ => rfl⟩
  | @executed input r res hexec _ =>
    rw [show res = .ok out from hexec]
    exact ⟨rfl, fun _ => hframe⟩
  | fork hcut _ _ => exact absurd hcut (Int.not_lt.mpr Int.one_nonneg)
  | submit _ => exact absurd hb id
  | submitted => exact absurd hb id
  | get _ _ _ _ => exact absurd hb id
  | getNull _ _ _ _ => exact absurd hb id
  | getPanics _ _ _ _ => exact absurd hb id
  | interrupt _ _ _ _ => exact absurd hb id
  | mergeFails _ _ => exact absurd hb id
  | mergeSkipped _ _ _ => exact absurd hb id
  | merge _ _ _ => exact absurd hb id
  | leaveShards => exact absurd hb id
  | gate _ => exact ⟨hb, fun _ => hframe⟩
  | warn _ => exact ⟨hb, fun _ => hframe⟩
  | noWarning _ => exact ⟨hb, fun _ => hframe⟩
  | _ => exact ⟨trivial, fun _ => hframe⟩

theorem off_refuses {x : JavaRunState RowFrame Unit × (Nat → Option Unit)}
    (h : ReflTransGen (JavaDebugStep env graph (fun _ _ => false) fun _ => false)
      ({ frame := frame }, fun _ => none) x) :
    x.1.frame = frame ∧ ∀ i, Off (x.1.bodies i) := by
  induction h with
  | refl => exact ⟨rfl, fun _ => trivial⟩
  | tail _ hstep ih =>
    obtain ⟨hframe, hbodies⟩ := ih
    cases hstep with
    | shows _ _ hdebug _ => exact absurd hdebug Bool.false_ne_true
    | overflows _ _ hdebug _ => exact absurd hdebug Bool.false_ne_true
    | step hs _ =>
      cases hs with
      | node hb hstep =>
        obtain ⟨hnew, hkept⟩ := Off.step hstep hframe (hb ▸ hbodies _)
        exact ⟨hkept _, Function.forall_update_iff _ (p := fun _ b => Off b) |>.mpr ⟨hnew, fun v _ => hbodies v⟩⟩
      | submit _ _ =>
        exact ⟨hframe, Function.forall_update_iff _ (p := fun _ b => Off b) |>.mpr ⟨trivial, fun v _ => hbodies v⟩⟩
      | main hm => cases hm <;> exact ⟨hframe, hbodies⟩
      | _ => exact ⟨hframe, hbodies⟩

end Shared

/-- An operator that writes nothing, in the Java engine. -/
theorem debug_transparent_shared :
    ∃ x, ReflTransGen (JavaDebugStep (Shared.envOf {}) Shared.graph (fun _ _ => false) fun _ => true)
      ({ frame := Shared.frame }, fun _ => none) x ∧ x.1.bodies 0 = .applied {} := by
  obtain ⟨x, hx⟩ := Shared.calm_applies
  exact ⟨x, (debug_transparent Shared.graph (fun _ => false) fun _ => true).2.2 (Shared.envOf {}) (fun _ _ => false)
    Shared.frame x hx.run, hx.body⟩

/-- With debugging the Java engine applies an output that it refuses without: the column's value, folded into the
output's own row, takes the place of a cell value that is no JSON number. -/
theorem not_debug_transparent :
    (∃ x, ReflTransGen (JavaDebugStep Shared.env Shared.graph (fun _ _ => false) fun _ => true)
      ({ frame := Shared.frame }, fun _ => none) x ∧ x.1.frame ≠ Shared.frame) ∧
    ∀ x, ReflTransGen (JavaDebugStep Shared.env Shared.graph (fun _ _ => false) fun _ => false)
      ({ frame := Shared.frame }, fun _ => none) x → x.1.frame = Shared.frame :=
  ⟨Shared.on_applies, fun _ h => (Shared.off_refuses h).1⟩

end Pineapple
