import Pineapple.JavaRun
import Pineapple.DagInv

/-! # What holds in every state of a Java run

A future is complete when its task is over or the run has failed. What a task has passed is known of its
predecessors: whoever is inside `runOperator` found them all over, and none of them failed or passed over. -/

namespace Pineapple

variable {σ ι : Type} {env : JavaEnv σ ι} {g : Graph}

/-! ## What a step changes -/

namespace JavaBody

/-- How far a task has come: a step never goes back. -/
def stage : JavaBody ι → Nat
  | unsubmitted => 0
  | queued => 1
  | waiting _ => 2
  | unfailed => 3
  | entered => 4
  | building => 5
  | resolving _ => 6
  | ready _ _ => 7
  | running _ _ => 8
  | forking _ _ => 9
  | merging _ _ _ => 10
  | joined _ => 11
  | executed _ => 12
  | produced _ => 13
  | warned _ => 14
  | applied _ => 15
  | unapplied _ => 16
  | failing _ => 17
  | cancelling _ => 18
  | forcing _ _ => 19
  | leaving _ => 20
  | ended _ => 21

def exit? : JavaBody ι → Option JavaExit
  | leaving x | ended x => some x
  | _ => none

end JavaBody

/-- The run has failed. -/
def JavaExit.failed? : JavaExit → Bool
  | stopped | failed _ => true
  | _ => false

/-- Reached only once the run has failed. -/
def JavaBody.afterFailure : JavaBody ι → Bool
  | cancelling _ | forcing _ _ => true
  | leaving x | ended x => x.failed?
  | _ => false

/-- Reached only once the run's context was cancelled. -/
def JavaBody.afterCancel : JavaBody ι → Bool
  | forcing _ _ | leaving .passed | ended .passed => true
  | _ => false

namespace JavaBodyStep
variable {s : JavaRunState σ ι} {i : Nat} {b b' : JavaBody ι} {eff : JavaEffect σ ι}

theorem stage_le (h : JavaBodyStep env g s i b eff b') : b.stage ≤ b'.stage := by
  cases h <;> simp [JavaBody.stage]

theorem active (h : JavaBodyStep env g s i b eff b') (hb : b'.active = true) :
    b.active = true ∨ b = .unfailed ∧ s.cancelled = false := by
  cases h with
  | enter hc => exact .inr ⟨rfl, hc⟩
  | join | joinStops | check | checkStops | start | pass | skip | buildFails | resolveFails | errors | executeFails
  | gateFails | trace | traceFailed | raise | late | cancel | cancelThrows | force | forced | finish => cases hb
  | _ => exact .inl rfl

theorem afterFailure (h : JavaBodyStep env g s i b eff b') (hb : b'.afterFailure = true) :
    b.afterFailure = true ∨ s.fatal.isSome = true ∨ ∃ e, eff = .raise e := by
  cases h with
  | joinStops _ hf | checkStops hf | late hf => exact .inr (.inl hf)
  | raise => exact .inr (.inr ⟨_, rfl⟩)
  | cancel | cancelThrows | force | forced => exact .inl rfl
  | finish => exact .inl hb
  | _ => cases hb

theorem afterCancel (h : JavaBodyStep env g s i b eff b') (hb : b'.afterCancel = true) :
    b.afterCancel = true ∨ s.cancelled = true ∨ eff = .cancel := by
  cases h with
  | pass hc => exact .inr (.inl hc)
  | cancel => exact .inr (.inr rfl)
  | force => exact .inl rfl
  | @finish x =>
    cases x with
    | passed => exact .inl rfl
    | _ => cases hb
  | _ => cases hb

theorem task_ne_absent (h : JavaBodyStep env g s i b eff b') : b.task ≠ .absent ∧ b'.task ≠ .absent := by
  cases h <;> exact ⟨nofun, nofun⟩

theorem ended (h : JavaBodyStep env g s i b eff b') : b.task ≠ .ended := by
  cases h <;> exact nofun

end JavaBodyStep

/-- What a step of a task makes of its shards. -/
def JavaEffect.onShards (eff : JavaEffect σ ι) (o : Option (JavaShards ι)) : Option (JavaShards ι) :=
  match eff with
  | fork sh => some sh
  | submit k => o.map (·.set k .queued)
  | interrupted => o.map fun sh =>
    if sh.firstError.isNone then (sh.raise JavaRunState.interruption).cancel else sh
  | leaveShards => o.map (·.cancel)
  | _ => o

namespace JavaRunState
variable {s : JavaRunState σ ι} {name : String} {i j : Nat} {eff : JavaEffect σ ι} {b : JavaBody ι}

@[simp] theorem bodies_move : (s.move name i eff b).bodies = Function.update s.bodies i b := by
  unfold move
  cases eff <;> rfl

@[simp] theorem main_move : (s.move name i eff b).main = s.main := by
  unfold move
  cases eff <;> rfl

@[simp] theorem callerDone_move : (s.move name i eff b).callerDone = s.callerDone := by
  unfold move
  cases eff <;> rfl

theorem completed_move (h : (s.move name i eff b).completed j = true) :
    s.completed j = true ∨ eff = .force j ∨ eff = .finish ∧ j = i := by
  cases eff with
  | force k =>
    change Function.update s.completed k true j = true at h
    by_cases hj : j = k
    · subst hj
      exact .inr (.inl rfl)
    · rw [Function.update_of_ne hj] at h
      exact .inl h
  | finish =>
    change Function.update s.completed i true j = true at h
    by_cases hj : j = i
    · exact .inr (.inr ⟨rfl, hj⟩)
    · rw [Function.update_of_ne hj] at h
      exact .inl h
  | _ => exact .inl h

theorem completed_mono (h : s.completed j = true) : (s.move name i eff b).completed j = true := by
  cases eff with
  | force k =>
    show Function.update s.completed k true j = true
    by_cases hj : j = k
    · rw [hj, Function.update_self]
    · rwa [Function.update_of_ne hj]
  | finish =>
    show Function.update s.completed i true j = true
    by_cases hj : j = i
    · rw [hj, Function.update_self]
    · rwa [Function.update_of_ne hj]
  | _ => exact h

theorem fatal_mono (h : s.fatal.isSome = true) : (s.move name i eff b).fatal.isSome = true := by
  cases eff with
  | raise e => exact (Option.isSome_or ..).trans (by rw [h]; rfl)
  | _ => exact h

theorem cancelled_mono (h : s.cancelled = true) : (s.move name i eff b).cancelled = true := by
  cases eff with
  | cancel => rfl
  | _ => exact h

theorem frame_move : (s.move name i eff b).frame = s.frame ∨ eff = .apply (s.move name i eff b).frame ∨
    eff = .unapplied (s.move name i eff b).frame := by
  cases eff with
  | apply f => exact .inr (.inl rfl)
  | unapplied f => exact .inr (.inr rfl)
  | _ => exact .inl rfl

theorem shards_move : (s.move name i eff b).shards = Function.update s.shards i (eff.onShards (s.shards i)) := by
  cases eff with
  | fork sh => rfl
  | submit k => rfl
  | interrupted => rfl
  | leaveShards => rfl
  | _ => exact (Function.update_eq_self i s.shards).symm

theorem begun_move : (s.move name i eff b).begun = s.begun ∨
    eff = .begin ∧ (s.move name i eff b).begun = s.begun ++ [.node i] := by
  cases eff with
  | begin => exact .inr ⟨rfl, rfl⟩
  | _ => exact .inl rfl

end JavaRunState

/-! ## Shards -/

namespace JavaShards
variable {sh : JavaShards ι} {k j : Nat} {phase : JavaShardPhase}

theorem phase?_set (sh : JavaShards ι) (k j : Nat) (phase : JavaShardPhase) :
    (sh.set k phase).phase? j = if k = j then (sh.phase? k).map fun _ => phase else sh.phase? j := by
  unfold phase? set
  rw [List.getElem?_modify]
  split
  · next h =>
    subst h
    rw [Option.map_eq_map, Option.map_map, Option.map_map]
    rfl
  · rw [Option.map_eq_map, Option.map_id']

theorem phase?_eq_of_get {w : Window} (h : sh.shards[k]? = some (w, phase)) : sh.phase? k = some phase := by
  unfold phase?
  rw [h]
  rfl

theorem phase?_start (input : ι) (r : Row) (windows : List Window)
    (h : (start input r windows).phase? k = some phase) : phase = .unsubmitted := by
  unfold phase? start at h
  rw [List.getElem?_map, Option.map_map] at h
  obtain ⟨_, -, rfl⟩ := Option.map_eq_some_iff.mp h
  rfl

theorem length_set (sh : JavaShards ι) (k : Nat) (phase : JavaShardPhase) :
    (sh.set k phase).shards.length = sh.shards.length := List.length_modify ..

theorem phase?_isSome : (sh.phase? k).isSome = true ↔ k < sh.shards.length := by
  simp [phase?]

end JavaShards

namespace JavaShardAct

def before : JavaShardAct → WorkerPool.Phase
  | start => .queued
  | _ => .running

def after : JavaShardAct → WorkerPool.Phase
  | finish => .ended
  | _ => .running

end JavaShardAct

/-- The operator's body has begun. -/
def JavaShardPhase.begun : JavaShardPhase → Bool
  | running | failing | done _ | failed => true
  | _ => false

/-- What a step of a shard's task is to its phase. -/
structure PhaseMove (act : JavaShardAct) (phase phase' : JavaShardPhase) : Prop where
  before : phase.task = act.before
  after : phase'.task = act.after
  begun : phase.begun = true → phase'.begun = true
  begins : act = .begin → phase.begun = false ∧ phase'.begun = true

namespace JavaShardStep
variable {p : NodePlan} {k : Nat} {act : JavaShardAct} {sh sh' : JavaShards ι}

/-- A step of a shard's task sets its phase and nothing else, apart from the error and the context they share. -/
theorem sets (h : JavaShardStep env p k sh act sh') : ∃ phase phase', sh.phase? k = some phase ∧
    PhaseMove act phase phase' ∧ sh'.shards = (sh.set k phase').shards := by
  cases h with
  | start h | pass h _ | cancel h => exact ⟨_, _, h, ⟨rfl, rfl, fun h => by cases h <;> rfl, nofun⟩, rfl⟩
  | begin h _ => exact ⟨_, _, h, ⟨rfl, rfl, fun _ => rfl, fun _ => ⟨rfl, rfl⟩⟩, rfl⟩
  | done h _ | fail h _ _ | failLate h _ _ =>
    exact ⟨_, _, JavaShards.phase?_eq_of_get h, ⟨rfl, rfl, fun _ => rfl, nofun⟩, rfl⟩

theorem length (h : JavaShardStep env p k sh act sh') : sh'.shards.length = sh.shards.length := by
  obtain ⟨_, _, -, -, heq⟩ := h.sets
  rw [heq, JavaShards.length_set]

theorem phase_self (h : JavaShardStep env p k sh act sh') : ∃ phase phase', sh.phase? k = some phase ∧
    sh'.phase? k = some phase' ∧ PhaseMove act phase phase' := by
  obtain ⟨phase, phase', hk, hmove, heq⟩ := h.sets
  refine ⟨phase, phase', hk, ?_, hmove⟩
  have := JavaShards.phase?_set sh k k phase'
  rw [if_pos rfl, hk] at this
  unfold JavaShards.phase? at this ⊢
  rwa [heq]

theorem phase_of_ne (h : JavaShardStep env p k sh act sh') {j : Nat} (hj : k ≠ j) : sh'.phase? j = sh.phase? j := by
  obtain ⟨_, phase', -, -, heq⟩ := h.sets
  have := JavaShards.phase?_set sh k j phase'
  rw [if_neg hj] at this
  unfold JavaShards.phase? at this ⊢
  rwa [heq]

/-- A task that is over makes no step. -/
theorem not_over (h : JavaShardStep env p k sh act sh') : ¬sh.Over := by
  intro hover
  obtain ⟨phase, _, hk, hmove, -⟩ := h.sets
  have := hmove.before
  rw [hover k phase hk] at this
  cases act <;> cases this

end JavaShardStep

namespace JavaMainStep
variable {s s' : JavaRunState σ ι}

/-- The caller of `execute` changes nothing but its own place, the fatal error and the context. -/
theorem frame (h : JavaMainStep env g s s') : s'.bodies = s.bodies ∧ s'.shards = s.shards ∧ s'.completed = s.completed ∧
    s'.begun = s.begun ∧ s'.frame = s.frame ∧ s'.traces = s.traces ∧ s'.warnings = s.warnings := by
  cases h <;> exact ⟨rfl, rfl, rfl, rfl, rfl, rfl, rfl⟩

end JavaMainStep

namespace JavaStep
variable {s s' : JavaRunState σ ι} {l : JavaLabel σ ι}

/-- A body changes with a step of its own task, or when it is submitted. -/
theorem body (h : JavaStep env g l s s') (j : Nat) : (s'.bodies j = s.bodies j ∧ ∀ eff, l ≠ .node j eff) ∨
    (∃ eff, l = .node j eff ∧ JavaBodyStep env g s j (s.bodies j) eff (s'.bodies j)) ∨
    l = .submit j ∧ s.main = .submitting j ∧ s'.bodies j = .queued := by
  cases h with
  | @node _ i _ eff b' hb hstep =>
    rw [JavaRunState.bodies_move]
    by_cases hj : j = i
    · subst hj hb
      rw [Function.update_self]
      exact .inr (.inl ⟨eff, rfl, hstep⟩)
    · rw [Function.update_of_ne hj]
      exact .inl ⟨rfl, fun eff h => hj (JavaLabel.node.inj h).1.symm⟩
  | @submit _ i hmain _ =>
    by_cases hj : j = i
    · subst hj
      exact .inr (.inr ⟨rfl, hmain, Function.update_self ..⟩)
    · exact .inl ⟨Function.update_of_ne hj .., fun _ => nofun⟩
  | shard _ _ | callerCancel _ | runCancel _ _ | shardsCancel _ _ _ => exact .inl ⟨rfl, fun _ => nofun⟩
  | main hm => exact .inl ⟨congrFun hm.frame.1 j, fun _ => nofun⟩

theorem fatal_mono (h : JavaStep env g l s s') (hf : s.fatal.isSome = true) : s'.fatal.isSome = true := by
  cases h with
  | node _ _ => exact JavaRunState.fatal_mono hf
  | main hm =>
    cases hm with
    | collectCancelled _ _ _ => rfl
    | _ => exact hf
  | _ => exact hf

theorem cancelled_mono (h : JavaStep env g l s s') (hc : s.cancelled = true) : s'.cancelled = true := by
  cases h with
  | node _ _ => exact JavaRunState.cancelled_mono hc
  | main hm =>
    cases hm with
    | close _ => rfl
    | _ => exact hc
  | runCancel _ _ => rfl
  | _ => exact hc

theorem completed_mono (h : JavaStep env g l s s') {j : Nat} (hj : s.completed j = true) : s'.completed j = true := by
  cases h with
  | node _ _ => exact JavaRunState.completed_mono hj
  | main hm =>
    rw [hm.frame.2.2.1]
    exact hj
  | _ => exact hj

theorem completed (h : JavaStep env g l s s') {j : Nat} (hj : s'.completed j = true) :
    s.completed j = true ∨ (∃ i, l = .node i (.force j)) ∨ l = .node j .finish := by
  cases h with
  | @node _ i _ eff b' _ _ =>
    rcases JavaRunState.completed_move hj with hold | rfl | ⟨rfl, rfl⟩
    · exact .inl hold
    · exact .inr (.inl ⟨i, rfl⟩)
    · exact .inr (.inr rfl)
  | main hm =>
    rw [hm.frame.2.2.1] at hj
    exact .inl hj
  | _ => exact .inl hj

/-- Shards change with a step of their node's task or of one of their own, or when the cancellation reaches them. -/
theorem shards (h : JavaStep env g l s s') (j : Nat) : s'.shards j = s.shards j ∨
    (∃ eff, l = .node j eff ∧ JavaBodyStep env g s j (s.bodies j) eff (s'.bodies j) ∧
      s'.shards j = eff.onShards (s.shards j)) ∨
    (∃ k act sh sh', l = .shard j k act ∧ s.shards j = some sh ∧ s'.shards j = some sh' ∧
      JavaShardStep env (env.node j) k sh act sh') ∨
    l = .caller ∧ s'.shards j = (s.shards j).map JavaShards.cancel := by
  cases h with
  | @node _ i _ eff b' hb hstep =>
    rw [JavaRunState.shards_move, JavaRunState.bodies_move]
    by_cases hj : j = i
    · subst hj hb
      rw [Function.update_self, Function.update_self]
      exact .inr (.inl ⟨eff, rfl, hstep, rfl⟩)
    · rw [Function.update_of_ne hj]
      exact .inl rfl
  | @shard _ i k sh act sh' hsh hstep =>
    change Function.update s.shards i (some sh') j = _ ∨ _
    by_cases hj : j = i
    · subst hj
      exact .inr (.inr (.inl ⟨k, act, sh, sh', rfl, hsh, Function.update_self .., hstep⟩))
    · exact .inl (Function.update_of_ne hj ..)
  | @shardsCancel _ i sh _ _ _ =>
    change Function.update s.shards i _ j = _ ∨ _
    by_cases hj : j = i
    · subst hj
      exact .inr (.inr (.inr ⟨rfl, Function.update_self ..⟩))
    · exact .inl (Function.update_of_ne hj ..)
  | submit _ _ | callerCancel _ | runCancel _ _ => exact .inl rfl
  | main hm => exact .inl (congrFun hm.frame.2.1 j)

theorem shards_node {i : Nat} {eff : JavaEffect σ ι} (h : JavaStep env g (.node i eff) s s') :
    s'.shards i = eff.onShards (s.shards i) := by
  cases h with
  | node _ _ =>
    rw [JavaRunState.shards_move, Function.update_self]

/-- Once they are there and submitted, a node's shards stay the same tasks, and only a step of their own moves one. -/
theorem keeps (h : JavaStep env g l s s') {i : Nat} {sh : JavaShards ι} (hsh : s.shards i = some sh)
    (hl : ∀ eff, l = .node i eff → (∀ sh₀, eff ≠ .fork sh₀) ∧ ∀ k, eff ≠ .submit k) :
    ∃ sh', s'.shards i = some sh' ∧ sh'.shards.length = sh.shards.length ∧ ∀ j, sh'.phase? j = sh.phase? j ∨
      ∃ act phase phase', l = .shard i j act ∧ sh.phase? j = some phase ∧ sh'.phase? j = some phase' ∧
        PhaseMove act phase phase' := by
  rcases h.shards i with hsame | ⟨eff, rfl, -, heq⟩ | ⟨k, act, sh₀, sh', rfl, hsh₀, heq, hstep⟩ | ⟨-, heq⟩
  · exact ⟨sh, hsame.trans hsh, rfl, fun _ => .inl rfl⟩
  · obtain ⟨hfork, hsubmit⟩ := hl eff rfl
    rw [hsh] at heq
    cases eff with
    | fork sh₀ => exact (hfork sh₀ rfl).elim
    | submit k => exact (hsubmit k rfl).elim
    | interrupted =>
      refine ⟨_, heq, ?_⟩
      dsimp only
      split <;> exact ⟨rfl, fun _ => .inl rfl⟩
    | leaveShards => exact ⟨_, heq, rfl, fun _ => .inl rfl⟩
    | _ => exact ⟨_, heq, rfl, fun _ => .inl rfl⟩
  · rw [hsh] at hsh₀
    cases hsh₀
    refine ⟨sh', heq, hstep.length, fun j => ?_⟩
    by_cases hj : k = j
    · subst hj
      obtain ⟨phase, phase', hk, hk', hmove⟩ := hstep.phase_self
      exact .inr ⟨act, phase, phase', rfl, hk, hk', hmove⟩
    · exact .inl (hstep.phase_of_ne hj)
  · rw [hsh] at heq
    exact ⟨_, heq, rfl, fun _ => .inl rfl⟩

/-- Of the steps of a task only a raise sets the fatal error. -/
theorem raised {i : Nat} {e : PineError} (h : JavaStep env g (.node i (.raise e)) s s') : s'.fatal.isSome = true := by
  cases h with
  | node _ _ => exact (Option.isSome_or ..).trans (Bool.or_true _)

theorem cancels {i : Nat} (h : JavaStep env g (.node i .cancel) s s') : s'.cancelled = true := by
  cases h with
  | node _ _ => rfl

end JavaStep

/-! ## The invariant -/

/-- How many tasks the caller has submitted. -/
def JavaMain.submitted (n : Nat) : JavaMain → Nat
  | submitting k => k
  | _ => n

structure JavaRunInv (g : Graph) (s : JavaRunState σ ι) : Prop where
  submitted : ∀ i, (s.bodies i).task = .absent ↔ s.main.submitted g.nodes.length ≤ i
  bound : s.main.submitted g.nodes.length ≤ g.nodes.length
  afterFailure : ∀ i, (s.bodies i).afterFailure = true → s.fatal.isSome = true
  afterCancel : ∀ i, (s.bodies i).afterCancel = true → s.cancelled = true
  ended : ∀ i x, s.bodies i = .ended x → s.completed i = true
  completed : ∀ i, s.completed i = true → (∃ x, s.bodies i = .ended x) ∨ s.fatal.isSome = true ∧ s.cancelled = true
  joined : s.main.isJoined = true → ∀ i < g.nodes.length, s.completed i = true

namespace JavaRunInv
variable {s s' : JavaRunState σ ι} {l : JavaLabel σ ι}

theorem init (g : Graph) (f₀ : σ) : JavaRunInv g ({ frame := f₀ } : JavaRunState σ ι) where
  submitted _ := iff_of_true rfl (Nat.zero_le _)
  bound := Nat.zero_le _
  afterFailure _ := nofun
  afterCancel _ := nofun
  ended _ _ := nofun
  completed _ := nofun
  joined := nofun

theorem submitted_step (h : JavaRunInv g s) (hs : JavaStep env g l s s') :
    (∀ i, (s'.bodies i).task = .absent ↔ s'.main.submitted g.nodes.length ≤ i) ∧
      s'.main.submitted g.nodes.length ≤ g.nodes.length := by
  -- only a submission changes how many tasks there are
  have hkeep : s'.main.submitted g.nodes.length = s.main.submitted g.nodes.length → (∀ i, l ≠ .submit i) →
      (∀ i, (s'.bodies i).task = .absent ↔ s'.main.submitted g.nodes.length ≤ i) ∧
        s'.main.submitted g.nodes.length ≤ g.nodes.length := by
    intro heq hl
    rw [heq]
    refine ⟨fun i => ?_, h.bound⟩
    rw [← h.submitted i]
    rcases hs.body i with ⟨hsame, -⟩ | ⟨eff, -, hb⟩ | ⟨hsub, -⟩
    · rw [hsame]
    · exact iff_of_false hb.task_ne_absent.2 hb.task_ne_absent.1
    · exact (hl i hsub).elim
  cases hs with
  | node _ _ => exact hkeep (by rw [JavaRunState.main_move]) fun _ => nofun
  | shard _ _ | callerCancel _ | runCancel _ _ | shardsCancel _ _ _ => exact hkeep rfl fun _ => nofun
  | main hm =>
    refine hkeep ?_ fun _ => nofun
    cases hm with
    | submitted heq => simp [JavaMain.submitted, heq]
    | join heq _ | collectCancelled heq _ _ | collect heq _ | projectCommon heq | projectItems heq | close heq
    | release heq => simp [JavaMain.submitted, heq]
  | @submit _ i hmain hi =>
    refine ⟨fun j => ?_, hi⟩
    have hj := h.submitted j
    rw [hmain] at hj
    change (Function.update s.bodies i .queued j).task = .absent ↔ i + 1 ≤ j
    by_cases hji : j = i
    · subst hji
      rw [Function.update_self]
      exact iff_of_false nofun (by omega)
    · rw [Function.update_of_ne hji, hj]
      simp only [JavaMain.submitted]
      omega

theorem over_stays (h : JavaRunInv g s) (hs : JavaStep env g l s s') {i : Nat} {x : JavaExit}
    (hx : s.bodies i = .ended x) : s'.bodies i = .ended x := by
  rcases hs.body i with ⟨hsame, -⟩ | ⟨eff, rfl, hb⟩ | ⟨-, hmain, -⟩
  · exact hsame.trans hx
  · rw [hx] at hb
    exact (hb.ended rfl).elim
  · have hnot := (h.submitted i).mpr (by rw [hmain]; exact le_refl i)
    rw [hx] at hnot
    cases hnot

theorem step (h : JavaRunInv g s) (hs : JavaStep env g l s s') : JavaRunInv g s' where
  submitted := (h.submitted_step hs).1
  bound := (h.submitted_step hs).2
  afterFailure i hi := by
    rcases hs.body i with ⟨hsame, -⟩ | ⟨eff, rfl, hb⟩ | ⟨-, -, hq⟩
    · rw [hsame] at hi
      exact hs.fatal_mono (h.afterFailure i hi)
    · rcases hb.afterFailure hi with hold | hf | ⟨e, rfl⟩
      · exact hs.fatal_mono (h.afterFailure i hold)
      · exact hs.fatal_mono hf
      · exact hs.raised
    · rw [hq] at hi
      cases hi
  afterCancel i hi := by
    rcases hs.body i with ⟨hsame, -⟩ | ⟨eff, rfl, hb⟩ | ⟨-, -, hq⟩
    · rw [hsame] at hi
      exact hs.cancelled_mono (h.afterCancel i hi)
    · rcases hb.afterCancel hi with hold | hc | rfl
      · exact hs.cancelled_mono (h.afterCancel i hold)
      · exact hs.cancelled_mono hc
      · exact hs.cancels
    · rw [hq] at hi
      cases hi
  ended i x hi := by
    rcases hs.body i with ⟨hsame, -⟩ | ⟨eff, rfl, hb⟩ | ⟨-, -, hq⟩
    · rw [hsame] at hi
      exact hs.completed_mono (h.ended i x hi)
    · rw [hi] at hb
      generalize s.bodies i = b at hb
      cases hb with
      | finish =>
        cases hs with
        | node _ _ => exact Function.update_self ..
    · rw [hq] at hi
      cases hi
  completed i hi := by
    have hlast : (∃ x, s.bodies i = .ended x) → ∃ x, s'.bodies i = .ended x :=
      fun ⟨x, hx⟩ => ⟨x, h.over_stays hs hx⟩
    rcases hs.completed hi with hold | ⟨k, rfl⟩ | rfl
    · exact (h.completed i hold).imp hlast fun hf => ⟨hs.fatal_mono hf.1, hs.cancelled_mono hf.2⟩
    · -- a forced future: the run has failed and its context is cancelled
      cases hs with
      | node hb hstep =>
        cases hstep with
        | force =>
          refine .inr ⟨JavaRunState.fatal_mono (h.afterFailure k ?_), JavaRunState.cancelled_mono (h.afterCancel k ?_)⟩
          · rw [hb]
            rfl
          · rw [hb]
            rfl
    · cases hs with
      | node hb hstep =>
        cases hstep with
        | finish => exact .inl ⟨_, Function.update_self ..⟩
  joined hj i hi := by
    by_cases hold : s.main.isJoined = true
    · exact hs.completed_mono (h.joined hold i hi)
    · cases hs with
      | node _ _ =>
        rw [JavaRunState.main_move] at hj
        exact (hold hj).elim
      | submit _ _ => cases hj
      | main hm =>
        cases hm with
        | join _ hall => exact hall i hi
        | submitted _ => cases hj
        | collectCancelled heq _ _ | collect heq _ | projectCommon heq | projectItems heq | close heq | release heq =>
          rw [heq] at hold
          exact (hold rfl).elim
      | _ => exact (hold hj).elim

theorem reachable {f₀ : σ} (hr : JavaReachable env g f₀ s) : JavaRunInv g s := by
  induction hr with
  | refl => exact init g f₀
  | tail _ hs ih =>
    obtain ⟨l, hs⟩ := hs
    exact ih.step hs

end JavaRunInv

/-! ## Shards on their way -/

namespace JavaBody

/-- How many shards there are, and how far the loop over them is. -/
def loop? : JavaBody ι → Option (Nat × Nat)
  | forking n k | merging n k _ => some (n, k)
  | _ => none

end JavaBody

/-- The shards of a node are there from the fork on, and those that the loop has not come to are not submitted. -/
structure JavaForkInv (g : Graph) (s : JavaRunState σ ι) : Prop where
  inv : JavaRunInv g s
  unforked : ∀ i, (s.bodies i).stage < 9 → s.shards i = none
  loop : ∀ i n k, (s.bodies i).loop? = some (n, k) → k ≤ n ∧ ∃ sh, s.shards i = some sh ∧ sh.shards.length = n
  absent : ∀ i sh, s.shards i = some sh → ∀ j phase, sh.phase? j = some phase →
    (phase.task = .absent ↔ ∃ n k, s.bodies i = .forking n k ∧ k ≤ j)

namespace JavaForkInv
variable {s s' : JavaRunState σ ι} {l : JavaLabel σ ι}

theorem init (g : Graph) (f₀ : σ) : JavaForkInv g ({ frame := f₀ } : JavaRunState σ ι) where
  inv := .init g f₀
  unforked _ _ := rfl
  loop _ _ _ := nofun
  absent _ _ := nofun

/-- What happens to the shards of a node in a step of its own task. -/
theorem node_shards {i : Nat} {b b' : JavaBody ι} {eff : JavaEffect σ ι} (h : JavaBodyStep env g s i b eff b') :
    (∃ sh n, eff = .fork sh ∧ b.stage = 7 ∧ b' = .forking n 0 ∧ sh.shards.length = n ∧
      ∀ j phase, sh.phase? j = some phase → phase = .unsubmitted) ∨
    (∃ n k, eff = .submit k ∧ k < n ∧ b = .forking n k ∧ b' = .forking n (k + 1)) ∨
    ((∀ sh, eff ≠ .fork sh) ∧ (∀ k, eff ≠ .submit k)) ∧ (∀ n k, b' ≠ .forking n k) ∧
      ((∃ n k, b'.loop? = some (n, k)) → ∃ n k k', b.loop? = some (n, k) ∧ b'.loop? = some (n, k') ∧ k' ≤ n) ∧
      ∀ n k, b = .forking n k → k = n := by
  cases h with
  | fork _ _ _ =>
    exact .inl ⟨_, _, rfl, rfl, rfl, List.length_map .., fun j phase hj => JavaShards.phase?_start _ _ _ hj⟩
  | submit hk => exact .inr (.inl ⟨_, _, rfl, hk, rfl, rfl⟩)
  | submitted =>
    refine .inr (.inr ⟨⟨nofun, nofun⟩, nofun, fun _ => ⟨_, _, _, rfl, rfl, Nat.zero_le _⟩, fun n k heq => ?_⟩)
    cases heq
    rfl
  | get _ _ _ hk | getNull _ _ _ hk | interrupt _ _ _ hk =>
    exact .inr (.inr ⟨⟨nofun, nofun⟩, nofun, fun _ => ⟨_, _, _, rfl, rfl, hk⟩, nofun⟩)
  | _ => exact .inr (.inr ⟨⟨nofun, nofun⟩, nofun, fun ⟨_, _, h⟩ => (nomatch h), nofun⟩)

theorem loop_step (h : JavaForkInv g s) (hs : JavaStep env g l s s') (i n k : Nat)
    (hi : (s'.bodies i).loop? = some (n, k)) : k ≤ n ∧ ∃ sh, s'.shards i = some sh ∧ sh.shards.length = n := by
  rcases hs.body i with ⟨hsame, hl⟩ | ⟨eff, rfl, hb⟩ | ⟨-, -, hq⟩
  · rw [hsame] at hi
    obtain ⟨hk, sh, hsh, hlen⟩ := h.loop i n k hi
    obtain ⟨sh', hsh', hlen', -⟩ := hs.keeps hsh fun eff heq => (hl eff heq).elim
    exact ⟨hk, sh', hsh', hlen'.trans hlen⟩
  · have hshards := hs.shards_node
    rcases node_shards hb with ⟨sh, n', rfl, -, hb', hlen, -⟩ | ⟨n', k', rfl, hlt, hb, hb'⟩ | ⟨⟨hf, hsub⟩, -, hloop, -⟩
    · rw [hb'] at hi
      cases hi
      exact ⟨Nat.zero_le _, sh, hshards, hlen⟩
    · rw [hb'] at hi
      cases hi
      obtain ⟨-, sh, hsh, hlen⟩ := h.loop i n k' (by rw [hb]; rfl)
      rw [hsh] at hshards
      exact ⟨hlt, _, hshards, (JavaShards.length_set ..).trans hlen⟩
    · obtain ⟨n', k₀, k', hold, hnew, hle⟩ := hloop ⟨n, k, hi⟩
      rw [hi] at hnew
      cases hnew
      obtain ⟨-, sh, hsh, hlen⟩ := h.loop i n k₀ hold
      obtain ⟨sh', hsh', hlen', -⟩ := hs.keeps hsh fun eff' heq => by
        cases heq
        exact ⟨hf, hsub⟩
      exact ⟨hle, sh', hsh', hlen'.trans hlen⟩
  · rw [hq] at hi
    cases hi

theorem unforked_step (h : JavaForkInv g s) (hs : JavaStep env g l s s') (i : Nat) (hi : (s'.bodies i).stage < 9) :
    s'.shards i = none := by
  have hold : (s.bodies i).stage < 9 := by
    rcases hs.body i with ⟨hsame, -⟩ | ⟨eff, rfl, hb⟩ | ⟨-, hmain, -⟩
    · rwa [hsame] at hi
    · exact Nat.lt_of_le_of_lt hb.stage_le hi
    · have habsent := (h.inv.submitted i).mpr (by rw [hmain]; exact le_refl i)
      generalize s.bodies i = b at habsent
      cases b <;> first | exact Nat.zero_lt_succ 8 | cases habsent
  have hnone := h.unforked i hold
  rcases hs.shards i with heq | ⟨eff, rfl, hb, heq⟩ | ⟨_, _, sh, _, -, hsh, -⟩ | ⟨-, heq⟩
  · exact heq.trans hnone
  · rw [hnone] at heq
    rcases node_shards hb with ⟨sh, n, rfl, -, hb', -⟩ | ⟨n, k, rfl, -, -⟩ | ⟨⟨hf, -⟩, -⟩
    · rw [hb'] at hi
      exact absurd hi (Nat.lt_irrefl 9)
    · exact heq
    · cases eff with
      | fork sh => exact (hf sh rfl).elim
      | _ => exact heq
  · rw [hnone] at hsh
    cases hsh
  · rw [heq, hnone]
    rfl

theorem absent_step (h : JavaForkInv g s) (hs : JavaStep env g l s s') (i : Nat) (sh' : JavaShards ι)
    (hsh' : s'.shards i = some sh') (j : Nat) (phase : JavaShardPhase) (hj : sh'.phase? j = some phase) :
    phase.task = .absent ↔ ∃ n k, s'.bodies i = .forking n k ∧ k ≤ j := by
  -- a step of another task keeps both sides
  have hkeep : ∀ sh, s.shards i = some sh → (∀ eff, l = .node i eff → (∀ sh₀, eff ≠ .fork sh₀) ∧ ∀ k, eff ≠ .submit k) →
      (phase.task = .absent ↔ ∃ n k, s.bodies i = .forking n k ∧ k ≤ j) := by
    intro sh hsh hl
    obtain ⟨sh₁, hsh₁, -, hphases⟩ := hs.keeps hsh hl
    rw [hsh'] at hsh₁
    cases hsh₁
    rcases hphases j with hsame | ⟨act, old, new, -, hold, hnew, hmove⟩
    · exact h.absent i sh hsh j phase (hsame ▸ hj)
    · rw [hj] at hnew
      cases hnew
      refine (iff_of_false ?_ ?_).trans (h.absent i sh hsh j old hold)
      · rw [hmove.after]
        cases act <;> exact nofun
      · rw [hmove.before]
        cases act <;> exact nofun
  rcases hs.body i with ⟨hsame, hl⟩ | ⟨eff, rfl, hb⟩ | ⟨-, -, hq⟩
  · rw [hsame]
    cases hold : s.shards i with
    | none =>
      rcases hs.shards i with heq | ⟨eff, heq, -⟩ | ⟨_, _, sh₀, _, -, hsh₀, -⟩ | ⟨-, heq⟩
      · rw [heq, hold] at hsh'
        cases hsh'
      · exact (hl eff heq).elim
      · rw [hold] at hsh₀
        cases hsh₀
      · rw [heq, hold] at hsh'
        cases hsh'
    | some sh => exact hkeep sh hold fun eff heq => (hl eff heq).elim
  · have hshards := hs.shards_node
    rw [hsh'] at hshards
    rcases node_shards hb with ⟨sh, n, rfl, -, hb', -, hphases⟩ | ⟨n, k, rfl, hlt, hb, hb'⟩ |
      ⟨⟨hf, hsub⟩, hnot, -, hlast⟩
    · cases hshards
      rw [hphases j phase hj, hb']
      exact iff_of_true rfl ⟨n, 0, rfl, Nat.zero_le j⟩
    · obtain ⟨-, sh, hsh, hlen⟩ := h.loop i n k (by rw [hb]; rfl)
      rw [hsh] at hshards
      obtain rfl := Option.some.inj hshards
      rw [JavaShards.phase?_set] at hj
      have hold := h.absent i sh hsh j
      rw [hb] at hold
      rw [hb']
      split at hj
      · next heq =>
        subst heq
        obtain ⟨-, -, rfl⟩ := Option.map_eq_some_iff.mp hj
        refine iff_of_false nofun ?_
        rintro ⟨_, _, heq, hle⟩
        cases heq
        omega
      · next hne =>
        rw [hold phase hj]
        constructor
        · rintro ⟨_, _, heq, hle⟩
          cases heq
          exact ⟨_, _, rfl, by omega⟩
        · rintro ⟨_, _, heq, hle⟩
          cases heq
          exact ⟨_, _, rfl, by omega⟩
    · cases hold : s.shards i with
      | none =>
        rw [hold] at hshards
        cases eff with
        | fork sh => exact (hf sh rfl).elim
        | _ => cases hshards
      | some sh =>
        rw [hkeep sh hold fun eff' heq => by cases heq; exact ⟨hf, hsub⟩]
        refine iff_of_false ?_ ?_
        · rintro ⟨n, k, heq, hle⟩
          -- past the last shard nothing is left to submit
          obtain rfl := hlast n k heq
          obtain ⟨-, sh₀, hsh₀, hlen⟩ := h.loop i k k (by rw [heq]; rfl)
          obtain ⟨sh₁, hsh₁, hlen₁, -⟩ := hs.keeps hsh₀ fun eff' heq => by cases heq; exact ⟨hf, hsub⟩
          rw [hsh'] at hsh₁
          cases hsh₁
          have : j < sh'.shards.length := by
            rw [← JavaShards.phase?_isSome, hj]
            rfl
          omega
        · rintro ⟨n, k, heq, -⟩
          exact hnot n k heq
  · have := h.unforked_step hs i (by rw [hq]; exact Nat.one_lt_succ_succ 7)
    rw [hsh'] at this
    cases this

theorem step (h : JavaForkInv g s) (hs : JavaStep env g l s s') : JavaForkInv g s' :=
  ⟨h.inv.step hs, h.unforked_step hs, h.loop_step hs, h.absent_step hs⟩

end JavaForkInv

end Pineapple
