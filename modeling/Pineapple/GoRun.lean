import Pineapple.Engine
import Pineapple.Lib.FanOut
import Pineapple.Shards

/-! # A run of the Go scheduler (`scheduler.go`, `parallel.go`)

Every node has a goroutine. It waits for its predecessors' channels or for the run's context, does the
operator's work and closes its own channel. A panic is recovered inside an execution and nowhere else: one
that `mergeOutputs` raises ends the process. -/

namespace Pineapple
open FanOut

/-! ## Executing an operator -/

/-- An `error` of an operator: a recovered or returned `*PanicError`, or any other with its text. -/
inductive GoError where
  | text (s : String)
  | panic (op : String) (value : String)
deriving DecidableEq

/-- How a call of `Execute` ended. -/
inductive GoEnd where
  | ok
  | returned (e : GoError)
  | panicked (value : String)

structure GoAttempt where
  out : OperatorOutput
  ended : GoEnd := .ok

/-- `executeWithRecovery`. -/
def GoAttempt.recovered (op : String) (att : GoAttempt) : Outcome GoError OperatorOutput :=
  match att.ended with
  | .ok => .ok att.out
  | .returned e => .fail e att.out
  | .panicked value => .fail (.panic op value) att.out

/-- The fatal error an operator's error becomes. -/
def GoError.fatal (op : String) : GoError → PineError
  | text s => .execution op s
  | panic name value => .panic name value

/-- Only a returned `*PanicError` can carry another name. -/
def GoEnd.Named (op : String) : GoEnd → Prop
  | .returned (.panic name _) => name = op
  | _ => True

/-- What is left out of `src/pine-go` here: the kind of frame, and how its methods answer. -/
structure GoEnv (σ ι : Type) where
  common : σ → String → Option Variant
  buildInput : σ → InputFieldSpec → Except String ι
  itemCount : ι → Nat
  shard : ι → Window → ι
  resolve : σ → List TemplatedParam → Except String Row
  apply : OperatorOutput → String → Bool → σ → Outcome String σ
  node : Nat → NodePlan
  exec : OperatorConfig → ι → Row → GoAttempt → Prop

namespace GoEnv
variable {σ ι : Type} (env : GoEnv σ ι)

inductive Dispatches (p : NodePlan) (resolved : Row) (input : ι) : Outcome GoError OperatorOutput → Prop
  | intro {att} : env.exec p.op input resolved att → Dispatches p resolved input (att.recovered p.op.name)

def Returned (p : NodePlan) (resolved : Row) (out : OperatorOutput) : Prop := ∃ input, env.exec p.op input resolved ⟨out, .ok⟩

/-- Every error the operator returns is one the run reports under its name. -/
def Named (p : NodePlan) : Prop :=
  ∀ input resolved att, env.exec p.op input resolved att → att.ended.Named p.op.name

/-- A data-parallel operator writes nothing on a shard that could not be merged. -/
def ShardSafe (p : NodePlan) : Prop :=
  1 < p.op.dataParallel → ∀ input resolved out, env.exec p.op input resolved ⟨out, .ok⟩ → out.Mergeable

/-- Any skip field with a value other than `nil` and `false`. -/
def shouldSkip (p : NodePlan) (f : σ) : Bool := p.op.skip.any fun field => ((env.common f field).getD .null).truthy

end GoEnv

/-- The two output checks. -/
def goGateError (p : NodePlan) (out : OperatorOutput) : Option String :=
  match OperatorType.ofString? p.op.operatorType >>= (·.validateOutput out) with
  | some violation => some ("type violation: " ++ violation)
  | none => (declaredOutputsViolation out p.op.metadata.commonOutput p.op.metadata.itemOutput
      (sourceRewriteAllowed p.op.mutatesRowSet p.op.metadata.itemInput)).map fun violation =>
        "output contract violation: " ++ violation

/-! ## A goroutine -/

/-- How a goroutine returned; a failure is in the counters or not. -/
inductive GoExit where
  /-- not run, the context being cancelled -/
  | passed
  | skipped
  | applied (out : OperatorOutput)
  | failed (e : PineError) (counted : Bool)

namespace GoExit

def exit : GoExit → Exit
  | passed => .passed
  | skipped | applied _ => .completed
  | failed _ _ => .failed

/-- The counter that went up, of the statistics and of the metrics alike. -/
def tally? : GoExit → Option Tally
  | skipped => some .skipped
  | applied _ => some .executed
  | failed _ true => some .failed
  | failed _ false | passed => none

def trace? (name : String) : GoExit → Option OpTrace
  | skipped => some ⟨name, true⟩
  | applied _ | failed _ true => some ⟨name, false⟩
  | failed _ false | passed => none

end GoExit

inductive GoBody (ι : Type) where
  /-- with the channels of these predecessors to go -/
  | waiting (preds : List Nat)
  | entered
  | building
  | resolving (input : ι)
  | ready (input : ι) (resolved : Row)
  | sharding (input : ι) (resolved : Row) (sh : Shards GoError)
  | executed (res : Outcome GoError OperatorOutput)
  | produced (out : OperatorOutput)
  /-- about to close its channel -/
  | leaving (x : GoExit)
  | closed (x : GoExit)

namespace GoBody
variable {ι : Type}

def exit? : GoBody ι → Option GoExit
  | leaving x | closed x => some x
  | _ => none

def isClosed : GoBody ι → Bool
  | closed _ => true
  | _ => false

end GoBody

variable {σ ι : Type}

/-- One step of a goroutine, over the frame the run shares; `closed` says which channels are. -/
inductive GoBodyStep (env : GoEnv σ ι) (p : NodePlan) (cancelled : Bool) (closed : Nat → Bool) :
    σ → GoBody ι → σ → GoBody ι → Prop
  | await {f v rest} : closed v = true → GoBodyStep env p cancelled closed f (.waiting (v :: rest)) f (.waiting rest)
  /-- the context wins the `select`, or the check after the last channel -/
  | pass {f rest} : cancelled = true → GoBodyStep env p cancelled closed f (.waiting rest) f (.leaving .passed)
  | enter {f} : cancelled = false → GoBodyStep env p cancelled closed f (.waiting []) f .entered
  | skip {f} : env.shouldSkip p f = true → GoBodyStep env p cancelled closed f .entered f (.leaving .skipped)
  | goOn {f} : env.shouldSkip p f = false → GoBodyStep env p cancelled closed f .entered f .building
  | build {f input} : env.buildInput f p.spec = .ok input →
      GoBodyStep env p cancelled closed f .building f (.resolving input)
  | buildFails {f msg} : env.buildInput f p.spec = .error msg →
      GoBodyStep env p cancelled closed f .building f (.leaving (.failed (.execution p.op.name msg) false))
  | resolve {f input r} : env.resolve f p.template = .ok r →
      GoBodyStep env p cancelled closed f (.resolving input) f (.ready input r)
  | resolveFails {f input msg} : env.resolve f p.template = .error msg →
      GoBodyStep env p cancelled closed f (.resolving input) f (.leaving (.failed (.execution p.op.name msg) false))
  | serial {f input r res} : p.op.dataParallel ≤ 1 ∨ env.itemCount input ≤ 1 → env.Dispatches p r input res →
      GoBodyStep env p cancelled closed f (.ready input r) f (.executed res)
  | fork {f input r} : 1 < p.op.dataParallel → 1 < env.itemCount input →
      GoBodyStep env p cancelled closed f (.ready input r) f
        (.sharding input r (.start (shardWindows p.op.dataParallel.toNat (env.itemCount input))))
  | shard {f input r sh sh'} : ShardStep (fun w => env.Dispatches p r (env.shard input w)) cancelled sh sh' →
      GoBodyStep env p cancelled closed f (.sharding input r sh) f (.sharding input r sh')
  | joinFails {f input r sh e} : sh.Over → sh.firstErr = some e →
      GoBodyStep env p cancelled closed f (.sharding input r sh) f (.executed (.fail e {}))
  | joinSkipped {f input r sh deadlineExceeded} : sh.Over → sh.firstErr = none → sh.skipped = true →
      GoBodyStep env p cancelled closed f (.sharding input r sh) f
        (.executed (.fail (.text (contextError deadlineExceeded)) {}))
  | join {f input r sh out} : sh.Over → sh.firstErr = none → sh.skipped = false →
      mergeShards p.op.name sh.outputs = .ok out →
      GoBodyStep env p cancelled closed f (.sharding input r sh) f (.executed (.ok out))
  | executeFails {f e out} : GoBodyStep env p cancelled closed f (.executed (.fail e out)) f
      (.leaving (.failed (e.fatal p.op.name) true))
  | gateFails {f out msg} : goGateError p out = some msg →
      GoBodyStep env p cancelled closed f (.executed (.ok out)) f
        (.leaving (.failed (.execution p.op.name msg) true))
  | gate {f out} : goGateError p out = none →
      GoBodyStep env p cancelled closed f (.executed (.ok out)) f (.produced out)
  | apply {f f' out} : env.apply out p.op.name p.op.recall f = .ok f' →
      GoBodyStep env p cancelled closed f (.produced out) f' (.leaving (.applied out))
  | applyFails {f f' out msg} : env.apply out p.op.name p.op.recall f = .fail msg f' →
      GoBodyStep env p cancelled closed f (.produced out) f'
        (.leaving (.failed (.execution p.op.name msg) true))

/-! ## The run -/

structure GoRunState (σ ι : Type) where
  frame : σ
  bodies : Nat → GoBody ι
  flags : Flags Nat := {}
  exits : Nat → Option Exit := fun _ => none
  /-- a panic that nothing recovered -/
  crashed : Bool := false
  /-- `wg.Wait` is over -/
  returned : Bool := false
  log : List (Nat × GoExit) := []
  stats : List (Tally × String) := []
  metrics : List (Tally × String) := []
  traces : Nat → Option OpTrace := fun _ => none

namespace GoRunState

def init (g : Graph) (frame : σ) : GoRunState σ ι where
  frame
  bodies v := .waiting (g.preds v)

def isClosed (s : GoRunState σ ι) (v : Nat) : Bool := (s.bodies v).isClosed

/-- What the flags become when a goroutine leaves. -/
def leave (fl : Flags Nat) (i : Nat) : GoExit → Flags Nat
  | .passed => fl.pass
  | .failed _ _ => fl.fail i
  | _ => fl

/-- The error `Run` returns. -/
def error? (s : GoRunState σ ι) (deadlineExceeded : Bool) : Option PineError :=
  match s.flags.verdict with
  | .success => none
  | .cancelled => some (.cancelled deadlineExceeded)
  | .failed v => match (s.bodies v).exit? with
    | some (.failed e _) => some e
    | _ => none

/-- A goroutine has moved on without leaving. -/
def move (s : GoRunState σ ι) (i : Nat) (f : σ) (b : GoBody ι) : GoRunState σ ι :=
  { s with frame := f, bodies := Function.update s.bodies i b }

/-- A goroutine has left: its end is in the flags, the counters and the traces. -/
def exitWith (s : GoRunState σ ι) (name : String) (i : Nat) (f : σ) (x : GoExit) : GoRunState σ ι :=
  { s with
    frame := f
    bodies := Function.update s.bodies i (.leaving x)
    flags := leave s.flags i x
    exits := Function.update s.exits i (some x.exit)
    log := s.log ++ [(i, x)]
    stats := s.stats ++ x.tally?.toList.map (·, name)
    metrics := s.metrics ++ x.tally?.toList.map (·, name)
    traces := Function.update s.traces i (x.trace? name) }

end GoRunState

inductive GoRunStep (env : GoEnv σ ι) (g : Graph) : GoRunState σ ι → GoRunState σ ι → Prop
  | move {s i f b} : s.crashed = false → i < g.nodes.length → b.exit? = none →
      GoBodyStep env (env.node i) s.flags.cancelled s.isClosed s.frame (s.bodies i) f b →
      GoRunStep env g s (s.move i f b)
  | leave {s i f x} : s.crashed = false → i < g.nodes.length →
      GoBodyStep env (env.node i) s.flags.cancelled s.isClosed s.frame (s.bodies i) f (.leaving x) →
      GoRunStep env g s (s.exitWith (env.node i).op.name i f x)
  | close {s i x} : s.crashed = false → s.bodies i = .leaving x →
      GoRunStep env g s { s with bodies := Function.update s.bodies i (.closed x) }
  /-- `mergeOutputs` panics on the goroutine of the node -/
  | crash {s i input r sh e out} : s.crashed = false → i < g.nodes.length → s.bodies i = .sharding input r sh →
      sh.Over → sh.firstErr = none → sh.skipped = false → mergeShards (env.node i).op.name sh.outputs = .fail e out →
      GoRunStep env g s { s with crashed := true }
  | cancel {s} : GoRunStep env g s { s with flags := s.flags.cancel }
  | wait {s} : s.crashed = false → (∀ i < g.nodes.length, s.isClosed i = true) →
      GoRunStep env g s { s with returned := true }

def GoRunReachable (env : GoEnv σ ι) (g : Graph) (frame : σ) : GoRunState σ ι → Prop :=
  Relation.ReflTransGen (GoRunStep env g) (.init g frame)

end Pineapple
