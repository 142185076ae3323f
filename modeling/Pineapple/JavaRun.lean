import Pineapple.Engine
import Pineapple.GoRun
import Pineapple.Lib.WorkerPool

/-! # A run of the Java engine (`Engine.java`, `ParallelExecutor.java`)

Every node is a task of the executor and has a future. A task joins the futures of its predecessors, does the
operator's work and completes its own. The first fatal error completes all futures at once, so the caller's `join`
can be over while other tasks are still at work. A data-parallel node puts its shards on the same executor and waits
for their futures in turn. -/

namespace Pineapple

/-- What an operator throws. -/
inductive JavaThrown where
  /-- an `OperatorException` -/
  | operator (message : String)
  | panic (op : String) (value : String)
  /-- any other `RuntimeException` -/
  | runtime (value : String)
  | error (value : String)

namespace JavaThrown

/-- The fatal error it becomes. -/
def fatal (op : String) : JavaThrown → PineError
  | operator message => .execution op message
  | panic name value => .panic name value
  | runtime value | error value => .panic op value

/-- An `Error` is caught by the task only. -/
def isError : JavaThrown → Bool
  | error _ => true
  | _ => false

/-- What a shard's task keeps of it. -/
def ofShard (op : String) : JavaThrown → JavaThrown
  | error value => panic op value
  | thrown => thrown

end JavaThrown

/-- What `applyOutput` throws: an `ExecutionError` is reported as it is. -/
inductive ApplyThrown where
  | execution (e : PineError)
  | other (message : String)

def ApplyThrown.fatal (op : String) : ApplyThrown → PineError
  | execution e => e
  | other message => .execution op ("apply output: " ++ message)

/-- What is left out of `src/pine-java` here: the kind of frame, and how its methods answer. -/
structure JavaEnv (σ ι : Type) where
  common : σ → String → Option Variant
  buildInput : σ → InputFieldSpec → Except String ι
  itemCount : ι → Nat
  shard : ι → Window → ι
  resolve : σ → List TemplatedParam → Except String Row
  apply : OperatorOutput → String → Bool → σ → Outcome ApplyThrown σ
  resultCommon : σ → Row
  resultItems : σ → List Row
  node : Nat → NodePlan
  exec : OperatorConfig → ι → Row → Except JavaThrown OperatorOutput → Prop

namespace JavaEnv
variable {σ ι : Type} (env : JavaEnv σ ι)

/-- Any skip field that is neither `null` nor `false`. -/
def shouldSkip (p : NodePlan) (f : σ) : Bool := p.op.skip.any fun field => ((env.common f field).getD .null).truthy

/-- Reached from the request's frame by whole applies. -/
def Whole : σ → σ → Prop :=
  Relation.ReflTransGen fun f f' => ∃ out name fromRecall, env.apply out name fromRecall f = .ok f'

end JavaEnv

/-! ## Tasks -/

inductive JavaTask where
  | node (i : Nat)
  | shard (i k : Nat)
deriving DecidableEq

def JavaTask.owner : JavaTask → Nat
  | node i | shard i _ => i

inductive JavaShardPhase where
  | unsubmitted
  | queued
  | started
  | running
  /-- its error is the first, and it is about to cancel the others -/
  | failing
  | done (out : OperatorOutput)
  | failed
  /-- not run, the context being cancelled -/
  | passed

namespace JavaShardPhase

def task : JavaShardPhase → WorkerPool.Phase
  | unsubmitted => .absent
  | queued => .queued
  | started | running | failing => .running
  | done _ | failed | passed => .ended

/-- What `Future.get` returns. -/
def output? : JavaShardPhase → Option (Option OperatorOutput)
  | done out => some (some out)
  | failed | passed => some none
  | _ => none

end JavaShardPhase

/-- What the shards of one node share. -/
structure JavaShards (ι : Type) where
  input : ι
  resolved : Row
  shards : List (Window × JavaShardPhase)
  firstError : Option JavaThrown := none
  cancelled : Bool := false

namespace JavaShards
variable {ι : Type}

def start (input : ι) (resolved : Row) (windows : List Window) : JavaShards ι where
  input
  resolved
  shards := windows.map fun w => (w, .unsubmitted)

def set (sh : JavaShards ι) (k : Nat) (phase : JavaShardPhase) : JavaShards ι :=
  { sh with shards := sh.shards.modify k fun e => (e.1, phase) }

/-- `firstError.compareAndSet(null, e)`. -/
def raise (sh : JavaShards ι) (e : JavaThrown) : JavaShards ι := { sh with firstError := sh.firstError.or (some e) }

def cancel (sh : JavaShards ι) : JavaShards ι := { sh with cancelled := true }

def phase? (sh : JavaShards ι) (k : Nat) : Option JavaShardPhase := sh.shards[k]?.map Prod.snd

def skipped (sh : JavaShards ι) : Bool := sh.shards.any fun e => match e.2 with
  | .passed => true
  | _ => false

/-- Every shard's task is over. -/
def Over (sh : JavaShards ι) : Prop := ∀ k phase, sh.phase? k = some phase → phase.task = .ended

end JavaShards

/-- How a node's task returned. -/
inductive JavaExit where
  /-- not run, the context being cancelled -/
  | passed
  /-- not run, the run having failed -/
  | stopped
  | skipped
  | applied (out : OperatorOutput)
  | failed (e : PineError)

inductive JavaBody (ι : Type) where
  | unsubmitted
  | queued
  /-- with the futures of these predecessors to join -/
  | waiting (preds : List Nat)
  /-- past the last look at the fatal error -/
  | unfailed
  | entered
  | building
  | resolving (input : ι)
  | ready (input : ι) (resolved : Row)
  | running (input : ι) (resolved : Row)
  /-- with `k` of `n` shards submitted -/
  | forking (n k : Nat)
  /-- about to get the future of shard `k` of `n` -/
  | merging (n k : Nat) (merged : OperatorOutput)
  /-- out of the loop, and about to cancel the context of the shards -/
  | joined (res : Except JavaThrown OperatorOutput)
  | executed (res : Except JavaThrown OperatorOutput)
  /-- past the two output checks -/
  | produced (out : OperatorOutput)
  /-- past the warning -/
  | warned (out : OperatorOutput)
  | applied (out : OperatorOutput)
  | unapplied (e : PineError)
  /-- about to report the error -/
  | failing (e : PineError)
  /-- the error is the run's, and the context is about to be cancelled -/
  | cancelling (e : PineError)
  /-- with these futures to complete -/
  | forcing (e : PineError) (rest : List Nat)
  | leaving (x : JavaExit)
  | ended (x : JavaExit)

namespace JavaBody
variable {ι : Type}

/-- Inside `runOperator`: the frame, the warnings, the traces and the resources may be touched. -/
def active : JavaBody ι → Bool
  | entered | building | resolving _ | ready _ _ | running _ _ | forking _ _ | merging _ _ _ | joined _ | executed _
  | produced _ | warned _ | applied _ | unapplied _ => true
  | _ => false

/-- Inside `runShards`. -/
def sharding : JavaBody ι → Bool
  | forking _ _ | merging _ _ _ => true
  | _ => false

def task : JavaBody ι → WorkerPool.Phase
  | unsubmitted => .absent
  | queued => .queued
  | ended _ => .ended
  | _ => .running

end JavaBody

/-! ## The run -/

structure JavaResult where
  error : Option PineError
  common : Row
  items : List Row
  traces : Nat → Option OpTrace

/-- The caller of `execute`. -/
inductive JavaMain where
  /-- with the tasks of the first `k` nodes submitted -/
  | submitting (k : Nat)
  /-- in `allDone.join()` -/
  | awaiting
  | joined
  | collected (error : Option PineError) (traces : Nat → Option OpTrace)
  | projected (error : Option PineError) (traces : Nat → Option OpTrace) (common : Row)
  /-- about to close the run's context -/
  | closing (res : JavaResult)
  | returned (res : JavaResult)
  /-- the snapshot is given back -/
  | released (res : JavaResult)

namespace JavaMain

/-- What `execute` has returned. -/
def result? : JavaMain → Option JavaResult
  | returned res | released res => some res
  | _ => none

/-- Past `allDone.join()`. -/
def isJoined : JavaMain → Bool
  | submitting _ | awaiting => false
  | _ => true

end JavaMain

structure JavaRunState (σ ι : Type) where
  frame : σ
  bodies : Nat → JavaBody ι := fun _ => .unsubmitted
  shards : Nat → Option (JavaShards ι) := fun _ => none
  /-- the nodes whose futures are complete -/
  completed : Nat → Bool := fun _ => false
  fatal : Option PineError := none
  cancelled : Bool := false
  callerDone : Bool := false
  notRun : Bool := false
  warnings : List (String × String) := []
  traces : Nat → Option OpTrace := fun _ => none
  /-- the executions of operators, in the order they began -/
  begun : List JavaTask := []
  main : JavaMain := .submitting 0

variable {σ ι : Type}

/-- What a step of a node's task does to what the run shares. -/
inductive JavaEffect (σ ι : Type) where
  | none
  /-- a worker takes the task -/
  | start
  | notRun
  | begin
  | fork (sh : JavaShards ι)
  | submit (k : Nat)
  /-- `Future.get` is interrupted -/
  | interrupted
  /-- an exception ends the loop over the shards' futures -/
  | abandon
  | leaveShards
  | trace (t : OpTrace)
  | warn (message : String)
  | apply (f : σ)
  /-- a failed `applyOutput` leaves this frame -/
  | unapplied (f : σ)
  | raise (e : PineError)
  | cancel
  /-- the fatal path completes another node's future, or its own -/
  | force (j : Nat)
  /-- the task completes its future and is over -/
  | finish

namespace JavaRunState

def mapShards (s : JavaRunState σ ι) (i : Nat) (f : JavaShards ι → JavaShards ι) : JavaRunState σ ι :=
  { s with shards := Function.update s.shards i ((s.shards i).map f) }

def interruption : JavaThrown := .operator "parallel execution interrupted"

def perform (s : JavaRunState σ ι) (name : String) (i : Nat) : JavaEffect σ ι → JavaRunState σ ι
  | .none | .start | .abandon => s
  | .notRun => { s with notRun := true }
  | .begin => { s with begun := s.begun ++ [.node i] }
  | .fork sh => { s with shards := Function.update s.shards i (some sh) }
  | .submit k => s.mapShards i (·.set k .queued)
  | .interrupted => s.mapShards i fun sh => if sh.firstError.isNone then (sh.raise interruption).cancel else sh
  | .leaveShards => s.mapShards i (·.cancel)
  | .trace t => { s with traces := Function.update s.traces i (some t) }
  | .warn message => { s with warnings := s.warnings ++ [(name, message)] }
  | .apply f | .unapplied f => { s with frame := f }
  | .raise e => { s with fatal := s.fatal.or (some e) }
  | .cancel => { s with cancelled := true }
  | .force j => { s with completed := Function.update s.completed j true }
  | .finish => { s with completed := Function.update s.completed i true }

/-- The task of node `i` has come to `b`. -/
def move (s : JavaRunState σ ι) (name : String) (i : Nat) (eff : JavaEffect σ ι) (b : JavaBody ι) : JavaRunState σ ι :=
  { s.perform name i eff with bodies := Function.update s.bodies i b }

end JavaRunState

/-- One step of the task of node `i`. -/
inductive JavaBodyStep (env : JavaEnv σ ι) (g : Graph) (s : JavaRunState σ ι) (i : Nat) :
    JavaBody ι → JavaEffect σ ι → JavaBody ι → Prop
  | start : JavaBodyStep env g s i .queued .start (.waiting (g.preds i))
  /-- `join`, and the look at the fatal error after it -/
  | join {v rest} : s.completed v = true → s.fatal = none →
      JavaBodyStep env g s i (.waiting (v :: rest)) .none (.waiting rest)
  | joinStops {v rest} : s.completed v = true → s.fatal.isSome = true →
      JavaBodyStep env g s i (.waiting (v :: rest)) .none (.leaving .stopped)
  | check : s.fatal = none → JavaBodyStep env g s i (.waiting []) .none .unfailed
  | checkStops : s.fatal.isSome = true → JavaBodyStep env g s i (.waiting []) .none (.leaving .stopped)
  | pass : s.cancelled = true → JavaBodyStep env g s i .unfailed .notRun (.leaving .passed)
  | enter : s.cancelled = false → JavaBodyStep env g s i .unfailed .none .entered
  | skip : env.shouldSkip (env.node i) s.frame = true →
      JavaBodyStep env g s i .entered (.trace ⟨(env.node i).op.name, true⟩) (.leaving .skipped)
  | goOn : env.shouldSkip (env.node i) s.frame = false → JavaBodyStep env g s i .entered .none .building
  | build {input} : env.buildInput s.frame (env.node i).spec = .ok input →
      JavaBodyStep env g s i .building .none (.resolving input)
  | buildFails {msg} : env.buildInput s.frame (env.node i).spec = .error msg →
      JavaBodyStep env g s i .building .none (.failing (.execution (env.node i).op.name msg))
  | resolve {input r} : env.resolve s.frame (env.node i).template = .ok r →
      JavaBodyStep env g s i (.resolving input) .none (.ready input r)
  | resolveFails {input msg} : env.resolve s.frame (env.node i).template = .error msg →
      JavaBodyStep env g s i (.resolving input) .none (.failing (.execution (env.node i).op.name msg))
  | serial {input r} : (env.node i).op.dataParallel ≤ 1 ∨ env.itemCount input ≤ 1 →
      JavaBodyStep env g s i (.ready input r) .begin (.running input r)
  | executed {input r res} : env.exec (env.node i).op input r res → (∀ e, res = .error e → e.isError = false) →
      JavaBodyStep env g s i (.running input r) .none (.executed res)
  /-- an `Error` leaves `runOperator`: no trace -/
  | errors {input r e} : env.exec (env.node i).op input r (.error e) → e.isError = true →
      JavaBodyStep env g s i (.running input r) .none (.failing (e.fatal (env.node i).op.name))
  | fork {input r windows} : 1 < (env.node i).op.dataParallel → 1 < env.itemCount input →
      windows = shardWindows (env.node i).op.dataParallel.toNat (env.itemCount input) →
      JavaBodyStep env g s i (.ready input r) (.fork (.start input r windows)) (.forking windows.length 0)
  | submit {n k} : k < n → JavaBodyStep env g s i (.forking n k) (.submit k) (.forking n (k + 1))
  | submitted {n} : JavaBodyStep env g s i (.forking n n) .none (.merging n 0 {})
  | get {n k sh w out merged merged'} : s.shards i = some sh → sh.shards[k]? = some (w, .done out) →
      mergeShardOutput (env.node i).op.name w.offset out merged = .ok merged' → k < n →
      JavaBodyStep env g s i (.merging n k merged) .none (.merging n (k + 1) merged')
  | getNull {n k sh phase merged} : s.shards i = some sh → sh.phase? k = some phase → phase.output? = some none → k < n →
      JavaBodyStep env g s i (.merging n k merged) .none (.merging n (k + 1) merged)
  | getPanics {n k sh w out merged value dst} : s.shards i = some sh → sh.shards[k]? = some (w, .done out) →
      mergeShardOutput (env.node i).op.name w.offset out merged = .fail (.panic (env.node i).op.name value) dst → k < n →
      JavaBodyStep env g s i (.merging n k merged) .abandon (.joined (.error (.panic (env.node i).op.name value)))
  | interrupt {n k sh phase merged} : s.shards i = some sh → sh.phase? k = some phase → phase.output? = none → k < n →
      JavaBodyStep env g s i (.merging n k merged) .interrupted (.merging n (k + 1) merged)
  | mergeFails {n sh e merged} : s.shards i = some sh → sh.firstError = some e →
      JavaBodyStep env g s i (.merging n n merged) .none (.joined (.error e))
  | mergeSkipped {n sh merged deadlineExceeded} : s.shards i = some sh → sh.firstError = none → sh.skipped = true →
      JavaBodyStep env g s i (.merging n n merged) .none (.joined (.error (.operator (contextError deadlineExceeded))))
  | merge {n sh merged} : s.shards i = some sh → sh.firstError = none → sh.skipped = false →
      JavaBodyStep env g s i (.merging n n merged) .none (.joined (.ok merged))
  | leaveShards {res} : JavaBodyStep env g s i (.joined res) .leaveShards (.executed res)
  | executeFails {e} : JavaBodyStep env g s i (.executed (.error e)) (.trace ⟨(env.node i).op.name, false⟩)
      (.failing (e.fatal (env.node i).op.name))
  | gateFails {out msg} : goGateError (env.node i) out = some msg →
      JavaBodyStep env g s i (.executed (.ok out)) (.trace ⟨(env.node i).op.name, false⟩)
        (.failing (.execution (env.node i).op.name msg))
  | gate {out} : goGateError (env.node i) out = none → JavaBodyStep env g s i (.executed (.ok out)) .none (.produced out)
  | warn {out message} : out.warning = some message →
      JavaBodyStep env g s i (.produced out) (.warn message) (.warned out)
  | noWarning {out} : out.warning = none → JavaBodyStep env g s i (.produced out) .none (.warned out)
  | apply {out f} : env.apply out (env.node i).op.name (env.node i).op.recall s.frame = .ok f →
      JavaBodyStep env g s i (.warned out) (.apply f) (.applied out)
  | applyFails {out e f} : env.apply out (env.node i).op.name (env.node i).op.recall s.frame = .fail e f →
      JavaBodyStep env g s i (.warned out) (.unapplied f) (.unapplied (e.fatal (env.node i).op.name))
  | trace {out} : JavaBodyStep env g s i (.applied out) (.trace ⟨(env.node i).op.name, false⟩) (.leaving (.applied out))
  | traceFailed {e} : JavaBodyStep env g s i (.unapplied e) (.trace ⟨(env.node i).op.name, false⟩) (.failing e)
  | raise {e} : s.fatal = none → JavaBodyStep env g s i (.failing e) (.raise e) (.cancelling e)
  | late {e} : s.fatal.isSome = true → JavaBodyStep env g s i (.failing e) .none (.leaving (.failed e))
  | cancel {e} : JavaBodyStep env g s i (.cancelling e) .cancel (.forcing e (List.range g.nodes.length))
  /-- a callback of the context throws an `Error`, which the task catches: no future is forced -/
  | cancelThrows {e} : JavaBodyStep env g s i (.cancelling e) .cancel (.leaving (.failed e))
  | force {e j rest} : JavaBodyStep env g s i (.forcing e (j :: rest)) (.force j) (.forcing e rest)
  | forced {e} : JavaBodyStep env g s i (.forcing e []) .none (.leaving (.failed e))
  | finish {x} : JavaBodyStep env g s i (.leaving x) .finish (.ended x)

/-- What a step of a shard's task is to the executor. -/
inductive JavaShardAct where
  | start | begin | inner | finish
deriving DecidableEq

/-- One step of the task of shard `k`. -/
inductive JavaShardStep (env : JavaEnv σ ι) (p : NodePlan) (k : Nat) : JavaShards ι → JavaShardAct → JavaShards ι → Prop
  | start {sh} : sh.phase? k = some .queued → JavaShardStep env p k sh .start (sh.set k .started)
  | pass {sh} : sh.phase? k = some .started → sh.cancelled = true →
      JavaShardStep env p k sh .finish (sh.set k .passed)
  | begin {sh} : sh.phase? k = some .started → sh.cancelled = false →
      JavaShardStep env p k sh .begin (sh.set k .running)
  | done {sh w out} : sh.shards[k]? = some (w, .running) → env.exec p.op (env.shard sh.input w) sh.resolved (.ok out) →
      JavaShardStep env p k sh .finish (sh.set k (.done out))
  | fail {sh w e} : sh.shards[k]? = some (w, .running) → env.exec p.op (env.shard sh.input w) sh.resolved (.error e) →
      sh.firstError = none → JavaShardStep env p k sh .inner ((sh.raise (e.ofShard p.op.name)).set k .failing)
  | failLate {sh w e} : sh.shards[k]? = some (w, .running) →
      env.exec p.op (env.shard sh.input w) sh.resolved (.error e) → sh.firstError.isSome = true →
      JavaShardStep env p k sh .finish (sh.set k .failed)
  | cancel {sh} : sh.phase? k = some .failing → JavaShardStep env p k sh .finish (sh.cancel.set k .failed)

/-- One step of the caller of `execute`. -/
inductive JavaMainStep (env : JavaEnv σ ι) (g : Graph) : JavaRunState σ ι → JavaRunState σ ι → Prop
  | submitted {s} : s.main = .submitting g.nodes.length → JavaMainStep env g s { s with main := .awaiting }
  | join {s} : s.main = .awaiting → (∀ i < g.nodes.length, s.completed i = true) →
      JavaMainStep env g s { s with main := .joined }
  /-- a node that was not run without a fatal error is the caller's cancellation -/
  | collectCancelled {s d} : s.main = .joined → s.fatal = none → s.notRun = true →
      JavaMainStep env g s { s with fatal := some (.cancelled d), main := .collected (some (.cancelled d)) s.traces }
  | collect {s} : s.main = .joined → s.fatal.isSome = true ∨ s.notRun = false →
      JavaMainStep env g s { s with main := .collected s.fatal s.traces }
  | projectCommon {s error traces} : s.main = .collected error traces →
      JavaMainStep env g s { s with main := .projected error traces (env.resultCommon s.frame) }
  | projectItems {s error traces common} : s.main = .projected error traces common →
      JavaMainStep env g s { s with main := .closing ⟨error, common, env.resultItems s.frame, traces⟩ }
  | close {s res} : s.main = .closing res → JavaMainStep env g s { s with main := .returned res, cancelled := true }
  | release {s res} : s.main = .returned res → JavaMainStep env g s { s with main := .released res }

inductive JavaLabel (σ ι : Type) where
  | node (i : Nat) (eff : JavaEffect σ ι)
  | shard (i k : Nat) (act : JavaShardAct)
  | submit (i : Nat)
  | main
  /-- the caller's cancellation, and its way down to the run and to the shards -/
  | caller

inductive JavaStep (env : JavaEnv σ ι) (g : Graph) : JavaLabel σ ι → JavaRunState σ ι → JavaRunState σ ι → Prop
  | node {s i b eff b'} : s.bodies i = b → JavaBodyStep env g s i b eff b' →
      JavaStep env g (.node i eff) s (s.move (env.node i).op.name i eff b')
  | shard {s i k sh act sh'} : s.shards i = some sh → JavaShardStep env (env.node i) k sh act sh' →
      JavaStep env g (.shard i k act) s { s with
        shards := Function.update s.shards i (some sh')
        begun := if act = .begin then s.begun ++ [.shard i k] else s.begun }
  /-- `executor.execute` -/
  | submit {s i} : s.main = .submitting i → i < g.nodes.length →
      JavaStep env g (.submit i) s { s with bodies := Function.update s.bodies i .queued, main := .submitting (i + 1) }
  | main {s s'} : JavaMainStep env g s s' → JavaStep env g .main s s'
  | callerCancel {s} : s.callerDone = false → JavaStep env g .caller s { s with callerDone := true }
  | runCancel {s} : s.callerDone = true → s.cancelled = false → JavaStep env g .caller s { s with cancelled := true }
  | shardsCancel {s i sh} : s.cancelled = true → s.shards i = some sh → sh.cancelled = false →
      JavaStep env g .caller s (s.mapShards i (·.cancel))

/-- Some step of the run. -/
def JavaMove (env : JavaEnv σ ι) (g : Graph) (s s' : JavaRunState σ ι) : Prop := ∃ l, JavaStep env g l s s'

def JavaReachable (env : JavaEnv σ ι) (g : Graph) (f₀ : σ) : JavaRunState σ ι → Prop :=
  Relation.ReflTransGen (JavaMove env g) { frame := f₀ }

end Pineapple
