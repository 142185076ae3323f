import Pineapple.Lib.FanOut
import Pineapple.NodeBody
import Pineapple.SchedulerInv

/-! # A run of `run_dag` (`engine.cpp`)

The scheduler says which bodies are under way, the bodies do the work on the frame. `RunStep` joins the two:
a body begins when the scheduler enters its node and the scheduler goes on when the body is over. The log
lists what was done to the frame, `counted` and `traces` what was told to the metrics and the trace. -/

namespace Pineapple
open FanOut

variable {σ : Type}

/-- What a body that is over did. -/
inductive Entry where
  | skipped (v : Nat)
  | applied (v : Nat) (out : OperatorOutput)
  | failed (v : Nat) (e : PineError)

def Entry.node : Entry → Nat
  | skipped v | applied v _ | failed v _ => v

def Entry.tally : Entry → Tally
  | skipped _ => .skipped
  | applied _ _ => .executed
  | failed _ _ => .failed

namespace Body

def entryAt (v : Nat) : Body → Option Entry
  | skipped => some (.skipped v)
  | applied out => some (.applied v out)
  | failed e => some (.failed v e)
  | _ => none

/-- What the body leaves in `traces`: nothing when it fails. -/
def trace? (name : String) : Body → Option OpTrace
  | skipped => some ⟨name, true⟩
  | applied _ => some ⟨name, false⟩
  | _ => none

/-- The body ended without an error. -/
def Succeeded : Body → Prop
  | skipped | applied _ => True
  | _ => False

end Body

structure RunState (σ : Type) where
  sched : SchedState
  frame : FrameState σ
  bodies : Nat → Body := fun _ => .idle
  exits : Nat → Option Exit := fun _ => none
  callerDone : Bool := false
  log : List Entry := []
  counted : List (Tally × String) := []
  traces : Nat → Option OpTrace := fun _ => none

namespace RunState

def init (g : Graph) (poolSize : Nat) (frame : FrameState σ) : RunState σ where
  sched := .init g poolSize
  frame

/-- The flags `run_dag` reads at its end. -/
def flags (s : RunState σ) : Flags Nat where
  cancelled := s.sched.shared.cancelled
  notRun := s.sched.shared.notRun
  callerDone := s.callerDone
  first := s.sched.shared.fatalErr

/-- The error `run_dag` throws. -/
def error? (s : RunState σ) (deadlineExceeded : Bool) : Option PineError :=
  match s.flags.verdict with
  | .success => none
  | .cancelled => some (.cancelled deadlineExceeded)
  | .failed v => match s.bodies v with
    | .failed e => some e
    | _ => none

/-- The traces `run_dag` returns: none when it throws. -/
def returnedTraces (g : Graph) (s : RunState σ) : List OpTrace :=
  if s.flags.verdict = .success then
    ((List.range g.nodes.length).filterMap s.traces).filter fun t => t.name ≠ ""
  else []

end RunState

/-- One step of a run. -/
inductive RunStep (env : RunEnv σ) (g : Graph) (pool : Bool) : RunState σ → RunState σ → Prop
  | sched {s t} : SchedStep g pool s.sched none t → RunStep env g pool s { s with sched := t }
  | enter {s i t} : SchedStep g pool s.sched (some (.enter i)) t →
      RunStep env g pool s { s with sched := t, bodies := Function.update s.bodies i .entered }
  | body {s i f b} : BodyStep env (env.node i) s.sched.shared.cancelled s.frame (s.bodies i) f b →
      RunStep env g pool s { s with
        frame := f
        bodies := Function.update s.bodies i b
        log := s.log ++ (b.entryAt i).toList
        counted := s.counted ++ (b.entryAt i).toList.map fun e => (e.tally, (env.node i).op.name)
        traces := Function.update s.traces i (b.trace? (env.node i).op.name) }
  | finish {s i t} : SchedStep g pool s.sched (some (.finish i)) t → (s.bodies i).Succeeded →
      RunStep env g pool s { s with sched := t, exits := Function.update s.exits i (some .completed) }
  | fail {s i t e} : SchedStep g pool s.sched (some (.fail i)) t → s.bodies i = .failed e →
      RunStep env g pool s { s with sched := t, exits := Function.update s.exits i (some .failed) }
  | pass {s i t} : SchedStep g pool s.sched (some (.pass i)) t →
      RunStep env g pool s { s with sched := t, exits := Function.update s.exits i (some .passed) }
  | cancel {s t} : SchedStep g pool s.sched (some .cancel) t →
      RunStep env g pool s { s with sched := t, callerDone := true }

def RunReachable (env : RunEnv σ) (g : Graph) (pool : Bool) (poolSize : Nat) (frame : FrameState σ) :
    RunState σ → Prop :=
  Relation.ReflTransGen (RunStep env g pool) (.init g poolSize frame)

/-! ## What the scheduler's events tell -/

namespace SchedInv
variable {g : Graph} {sh : Shared} {as : List Activation}

theorem unique (h : SchedInv g sh as) {a b : Activation} (ha : a ∈ as) (hb : b ∈ as) (hn : a.node = b.node) : a = b :=
  List.inj_on_of_nodup_map (List.nodup_append'.mp h.under_way_nodup).1 ha hb hn

theorem mem_dispatched (h : SchedInv g sh as) {a : Activation} (ha : a ∈ as) : a.node ∈ sh.dispatched :=
  h.dispatched.mem_iff.mpr (List.mem_append_left _ (List.mem_map_of_mem ha))

/-- A node whose body is not over is not finished. -/
theorem not_finished (h : SchedInv g sh as) {a : Activation} (ha : a ∈ as) (hb : ¬ a.bodyOver) :
    a.node ∉ sh.finished := by
  intro hfin
  rcases (h.finished a.node).mp hfin with hret | ⟨b, hbm, hn, hover⟩
  · exact (List.disjoint_of_nodup_append h.under_way_nodup) (List.mem_map_of_mem ha) hret
  · rw [h.unique hbm ha hn] at hover
    exact hb hover

theorem dispatched_nodup (h : SchedInv g sh as) : sh.dispatched.Nodup :=
  h.dispatched.nodup_iff.mpr h.under_way_nodup

end SchedInv

/-- What a step does to the flags and to the lists of what has begun and what is over. -/
structure Observed (s : SchedState) (ev : Option RunEvent) (s' : SchedState) : Prop where
  dispatched : ∃ new, s'.shared.dispatched = s.shared.dispatched ++ new
  starts : ∀ v, ⟨v, .start⟩ ∈ s'.activations →
    ⟨v, .start⟩ ∈ s.activations ∨ s'.shared.dispatched = s.shared.dispatched ++ [v]
  event : match ev with
    | none => s'.shared.finished = s.shared.finished ∧ s'.shared.cancelled = s.shared.cancelled ∧
        s'.shared.notRun = s.shared.notRun ∧ s'.shared.fatalErr = s.shared.fatalErr
    | some (.enter i) => ⟨i, .start⟩ ∈ s.activations ∧ ⟨i, .running⟩ ∈ s'.activations ∧ s'.shared = s.shared
    | some (.pass i) => ⟨i, .start⟩ ∈ s.activations ∧ s.shared.cancelled = true ∧
        s'.shared = { s.shared with notRun := true, finished := s.shared.finished ++ [i] }
    | some (.finish i) => ⟨i, .running⟩ ∈ s.activations ∧
        s'.shared = { s.shared with finished := s.shared.finished ++ [i] }
    | some (.fail i) => ⟨i, .running⟩ ∈ s.activations ∧
        s'.shared = { s.shared.fail i with finished := s.shared.finished ++ [i] }
    | some .cancel => s'.shared = { s.shared with cancelled := true }

theorem Activation.Step.observed {g : Graph} {pool : Bool} {sh sh' : Shared} {a : Activation} {ev : Option RunEvent}
    {new rest : List Activation} {s s' : SchedState} (h : a.Step g pool sh ev sh' new) (hs : s.shared = sh)
    (hs' : s'.shared = sh') (has : s.activations.Perm (a :: rest)) (has' : s'.activations.Perm (new ++ rest)) :
    Observed s ev s' := by
  subst hs
  have hmem : a ∈ s.activations := has.mem_iff.mpr List.mem_cons_self
  have hkept : ∀ {b}, b ∈ s'.activations → b ∉ new → b ∈ s.activations := by
    intro b hb hnew
    exact has.mem_iff.mpr (List.mem_cons_of_mem _ ((List.mem_append.mp (has'.mem_iff.mp hb)).resolve_left hnew))
  have hnew : ∀ {b}, b ∈ new → b ∈ s'.activations := fun hb => has'.mem_iff.mpr (List.mem_append_left _ hb)
  -- no step but a hand-over to the own stack makes a call that is about to start
  have hquiet : (∀ v, (⟨v, .start⟩ : Activation) ∉ new) → ∀ v, ⟨v, .start⟩ ∈ s'.activations →
      ⟨v, .start⟩ ∈ s.activations ∨ s'.shared.dispatched = s.shared.dispatched ++ [v] :=
    fun hno v hv => Or.inl (hkept hv (hno v))
  cases h with
  | notRun hc => exact ⟨⟨[], by rw [hs', List.append_nil]⟩, hquiet (by simp), hmem, hc, hs'⟩
  | enter _ => exact ⟨⟨[], by rw [hs', List.append_nil]⟩, hquiet (by simp), hmem, hnew List.mem_cons_self, hs'⟩
  | finish => exact ⟨⟨[], by rw [hs', List.append_nil]⟩, hquiet (by simp), hmem, hs'⟩
  | fail =>
    refine ⟨⟨[], ?_⟩, hquiet (by simp), hmem, hs'⟩
    rw [hs', List.append_nil]
    unfold Shared.fail
    split <;> rfl
  | decrement =>
    refine ⟨⟨[], by rw [hs', List.append_nil]⟩, hquiet fun v hv => ?_, by rw [hs']; exact ⟨rfl, rfl, rfl, rfl⟩⟩
    have hphase := congrArg Activation.phase (List.mem_singleton.mp hv)
    dsimp only at hphase
    split at hphase <;> exact absurd hphase nofun
  | submit _ =>
    exact ⟨⟨[], by rw [hs', List.append_nil]⟩, hquiet (by simp), by rw [hs']; exact ⟨rfl, rfl, rfl, rfl⟩⟩
  | @inline i w tail =>
    refine ⟨⟨[w], by rw [hs']⟩, fun v hv => ?_, by rw [hs']; exact ⟨rfl, rfl, rfl, rfl⟩⟩
    by_cases hvw : v = w
    · exact Or.inr (by rw [hs', hvw])
    · exact Or.inl (hkept hv (by simp [hvw]))
  | countDown _ =>
    exact ⟨⟨[], by rw [hs', List.append_nil]⟩, hquiet (by simp), by rw [hs']; exact ⟨rfl, rfl, rfl, rfl⟩⟩
  | last _ =>
    exact ⟨⟨[], by rw [hs', List.append_nil]⟩, hquiet (by simp), by rw [hs']; exact ⟨rfl, rfl, rfl, rfl⟩⟩
  | signal =>
    exact ⟨⟨[], by rw [hs', List.append_nil]⟩, hquiet (by simp), by rw [hs']; exact ⟨rfl, rfl, rfl, rfl⟩⟩

theorem SchedStep.observed {g : Graph} {pool : Bool} {s s' : SchedState} {ev : Option RunEvent}
    (h : SchedStep g pool s ev s') : Observed s ev s' := by
  cases h with
  | @main a st _ sh new hmain ha =>
    refine @Activation.Step.observed g pool _ _ a ev new (st ++ s.workers.flatten) s _ ha rfl rfl ?_ ?_
    · unfold SchedState.activations
      rw [hmain, List.cons_append]
    · unfold SchedState.activations
      rw [List.append_assoc]
  | @worker pre a st post _ sh new hw ha =>
    refine @Activation.Step.observed g pool _ _ a ev new (s.main ++ pre.flatten ++ st ++ post.flatten) s _ ha rfl rfl ?_ ?_
    · unfold SchedState.activations
      rw [hw]
      refine List.perm_iff_count.mpr fun b => ?_
      simp only [List.flatten_append, List.flatten_cons, List.count_append, List.count_cons]
      omega
    · unfold SchedState.activations
      refine List.perm_iff_count.mpr fun b => ?_
      simp only [List.flatten_append, List.flatten_cons, List.count_append]
      omega
  | @take pre post i rest hw hq =>
    refine ⟨⟨[i], rfl⟩, fun v hv => ?_, rfl, rfl, rfl, rfl⟩
    by_cases hvi : v = i
    · exact Or.inr (by rw [hvi])
    · left
      unfold SchedState.activations at hv ⊢
      rw [hw]
      simpa [hvi] using hv
  | seedSubmit _ _ _ => exact ⟨⟨[], (List.append_nil _).symm⟩, fun v hv => Or.inl hv, rfl, rfl, rfl, rfl⟩
  | @seedInline i rest hmain hseeds =>
    refine ⟨⟨[i], rfl⟩, fun v hv => ?_, rfl, rfl, rfl, rfl⟩
    by_cases hvi : v = i
    · exact Or.inr (by rw [hvi])
    · left
      unfold SchedState.activations at hv ⊢
      rw [hmain]
      simpa [hvi] using hv
  | cancel => exact ⟨⟨[], (List.append_nil _).symm⟩, fun v hv => Or.inl hv, rfl⟩
  | wake _ _ _ _ => exact ⟨⟨[], (List.append_nil _).symm⟩, fun v hv => Or.inl hv, rfl, rfl, rfl, rfl⟩

theorem Activation.Step.done {g : Graph} {pool : Bool} {sh sh' : Shared} {a : Activation} {ev : Option RunEvent}
    {new : List Activation} (h : a.Step g pool sh ev sh' new) (hd : sh.done = true) : sh'.done = true := by
  cases h with
  | signal => rfl
  | @fail i =>
    show (sh.fail i).done = true
    unfold Shared.fail
    split <;> exact hd
  | _ => exact hd

/-- `done` stays set, and the calling thread goes on only when it is. -/
theorem SchedStep.done {g : Graph} {pool : Bool} {s s' : SchedState} {ev : Option RunEvent}
    (h : SchedStep g pool s ev s') (hs : s.mainReturned = true → s.shared.done = true) :
    s'.mainReturned = true → s'.shared.done = true := by
  cases h with
  | main _ ha => exact fun hr => ha.done (hs hr)
  | worker _ ha => exact fun hr => ha.done (hs hr)
  | wake _ _ _ hd => exact fun _ => hd
  | _ => exact hs

end Pineapple
