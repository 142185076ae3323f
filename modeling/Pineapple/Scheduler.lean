import Pineapple.Dag

/-! # The ready-queue scheduler (`run_dag` in `engine.cpp`, `thread_pool.cpp`)

A state holds the counters `run_dag` shares between threads and, for every thread, its stack of `node_body`
calls: a call whose successor becomes ready may run that successor on its own stack, when there is no pool or
`submit` throws. One step is one access to a shared counter, flag or queue, so every interleaving of the
threads is a run. What an operator's body computes is left open here: a body ends normally (skipped or
executed) or fails. -/

namespace Pineapple

/-- Where a call of `node_body` stands. -/
inductive Phase where
  /-- about to look at `run_ctx` -/
  | start
  /-- in the operator's body -/
  | running
  /-- in the loop of `propagate_and_signal`, with these successors to go -/
  | propagate (rest : List Nat)
  /-- in the same loop, the in-degree of `succ` having just reached zero -/
  | ready (succ : Nat) (rest : List Nat)
  /-- has taken `remaining` to zero and is about to set `done` -/
  | signal
deriving DecidableEq

/-- A call of `node_body`. -/
structure Activation where
  node : Nat
  phase : Phase
deriving DecidableEq

/-- What the threads of one run share. The three logs are not in the source: the nodes whose `node_body` was
entered, the nodes whose body is over, and the nodes whose `node_body` returned. -/
structure Shared where
  inDegree : Nat → Int
  remaining : Int
  done : Bool := false
  cancelled : Bool := false
  notRun : Bool := false
  fatalErr : Option Nat := none
  /-- the pool's tasks, first in first out -/
  queue : List Nat := []
  /-- the nodes the seeding loop has still to hand out -/
  seeds : List Nat
  dispatched : List Nat := []
  finished : List Nat := []
  returned : List Nat := []

/-- `fail`: the first error stays and cancels `run_ctx`. -/
def Shared.fail (sh : Shared) (i : Nat) : Shared :=
  if sh.fatalErr.isNone then { sh with fatalErr := some i, cancelled := true } else sh

/-- What a step tells an observer outside the scheduler. -/
inductive RunEvent where
  /-- the body of the node begins -/
  | enter (i : Nat)
  /-- it ends without an error -/
  | finish (i : Nat)
  | fail (i : Nat)
  /-- the node is passed over, `run_ctx` being cancelled -/
  | pass (i : Nat)
  /-- the caller cancels, or its deadline passes -/
  | cancel
deriving DecidableEq

/-- One step of the innermost call of a stack: the calls that stand in its place afterwards. -/
inductive Activation.Step (g : Graph) (pool : Bool) :
    Shared → Activation → Option RunEvent → Shared → List Activation → Prop
  | notRun {sh i} : sh.cancelled = true →
      Step g pool sh ⟨i, .start⟩ (some (.pass i)) { sh with notRun := true, finished := sh.finished ++ [i] }
        [⟨i, .propagate (g.succs i)⟩]
  | enter {sh i} : sh.cancelled = false → Step g pool sh ⟨i, .start⟩ (some (.enter i)) sh [⟨i, .running⟩]
  | finish {sh i} :
      Step g pool sh ⟨i, .running⟩ (some (.finish i)) { sh with finished := sh.finished ++ [i] }
        [⟨i, .propagate (g.succs i)⟩]
  | fail {sh i} :
      Step g pool sh ⟨i, .running⟩ (some (.fail i)) { sh.fail i with finished := sh.finished ++ [i] }
        [⟨i, .propagate (g.succs i)⟩]
  /-- `in_degree[succ].fetch_sub(1)` -/
  | decrement {sh i v rest} :
      Step g pool sh ⟨i, .propagate (v :: rest)⟩ none
        { sh with inDegree := Function.update sh.inDegree v (sh.inDegree v - 1) }
        [⟨i, if sh.inDegree v = 1 then .ready v rest else .propagate rest⟩]
  | submit {sh i v rest} : pool = true →
      Step g pool sh ⟨i, .ready v rest⟩ none { sh with queue := sh.queue ++ [v] } [⟨i, .propagate rest⟩]
  /-- without a pool, or when `submit` throws -/
  | inline {sh i v rest} :
      Step g pool sh ⟨i, .ready v rest⟩ none { sh with dispatched := sh.dispatched ++ [v] }
        [⟨v, .start⟩, ⟨i, .propagate rest⟩]
  /-- `remaining.fetch_sub(1)`, not the last one -/
  | countDown {sh i} : sh.remaining ≠ 1 →
      Step g pool sh ⟨i, .propagate []⟩ none
        { sh with remaining := sh.remaining - 1, returned := sh.returned ++ [i] } []
  | last {sh i} : sh.remaining = 1 →
      Step g pool sh ⟨i, .propagate []⟩ none { sh with remaining := sh.remaining - 1 } [⟨i, .signal⟩]
  /-- `done` is set and the waiting thread notified under `done_mu` -/
  | signal {sh i} :
      Step g pool sh ⟨i, .signal⟩ none { sh with done := true, returned := sh.returned ++ [i] } []

/-- A run of `run_dag` under way: the calling thread's stack and one stack for each worker of the pool, the
innermost call first. -/
structure SchedState where
  shared : Shared
  main : List Activation := []
  workers : List (List Activation)
  mainReturned : Bool := false

/-- All calls under way. -/
def SchedState.activations (s : SchedState) : List Activation := s.main ++ s.workers.flatten

/-- `run_dag` before its seeding loop. `ThreadPool` makes a worker where it is asked for none. -/
def SchedState.init (g : Graph) (poolSize : Nat) : SchedState where
  shared := {
    inDegree := fun i => (g.preds i).length
    remaining := g.nodes.length
    seeds := (List.range g.nodes.length).filter fun i => g.preds i = [] }
  workers := List.replicate (max 1 poolSize) []

inductive SchedStep (g : Graph) (pool : Bool) : SchedState → Option RunEvent → SchedState → Prop
  | main {s a st ev sh new} : s.main = a :: st → a.Step g pool s.shared ev sh new →
      SchedStep g pool s ev { s with shared := sh, main := new ++ st }
  | worker {s pre a st post ev sh new} : s.workers = pre ++ (a :: st) :: post → a.Step g pool s.shared ev sh new →
      SchedStep g pool s ev { s with shared := sh, workers := pre ++ (new ++ st) :: post }
  /-- an idle worker takes the oldest task -/
  | take {s pre post i rest} : s.workers = pre ++ [] :: post → s.shared.queue = i :: rest →
      SchedStep g pool s none { s with
        shared := { s.shared with queue := rest, dispatched := s.shared.dispatched ++ [i] }
        workers := pre ++ [⟨i, .start⟩] :: post }
  | seedSubmit {s i rest} : pool = true → s.main = [] → s.shared.seeds = i :: rest →
      SchedStep g pool s none { s with
        shared := { s.shared with seeds := rest, queue := s.shared.queue ++ [i] } }
  | seedInline {s i rest} : s.main = [] → s.shared.seeds = i :: rest →
      SchedStep g pool s none { s with
        shared := { s.shared with seeds := rest, dispatched := s.shared.dispatched ++ [i] }
        main := [⟨i, .start⟩] }
  | cancel {s} : SchedStep g pool s (some .cancel) { s with shared := { s.shared with cancelled := true } }
  /-- the wait on `done` is over -/
  | wake {s} : s.mainReturned = false → s.main = [] → s.shared.seeds = [] → s.shared.done = true →
      SchedStep g pool s none { s with mainReturned := true }

/-- The states some interleaving reaches. -/
def SchedReachable (g : Graph) (pool : Bool) (poolSize : Nat) : SchedState → Prop :=
  Relation.ReflTransGen (fun s s' => ∃ ev, SchedStep g pool s ev s') (SchedState.init g poolSize)

end Pineapple
