import Pineapple.JavaQuiet
import Pineapple.RunCounts

/-! # Counting what the operators of the Java engine did (`Engine.runOperator`, `Stats.java`)

`runOperator` counts an operator in the statistics and in the metrics next to where it stores its trace, and the gauge
of the active operators goes up before `execute` and down after the output checks. -/

namespace Pineapple
open FanOut

variable {σ ι : Type} {env : JavaEnv σ ι} {g : Graph}

/-! ## The counters -/

/-- What a run adds to the engine's counters. -/
structure JavaLedger where
  activeOps : Int := 0
  stats : List (Tally × String) := []
  metrics : List (Tally × String) := []
  /-- the nodes that were counted, in the same order -/
  log : List (Nat × Tally) := []

namespace JavaLedger

def count (L : JavaLedger) (env : JavaEnv σ ι) (i : Nat) (t : Tally) : JavaLedger :=
  { L with
    stats := L.stats ++ [(t, (env.node i).op.name)]
    metrics := L.metrics ++ [(t, (env.node i).op.name)]
    log := L.log ++ [(i, t)] }

def addActive (L : JavaLedger) (n : Int) : JavaLedger := { L with activeOps := L.activeOps + n }

/-- What `runOperator` counts on its way from `b` to `b'`. -/
def node (L : JavaLedger) (env : JavaEnv σ ι) (i : Nat) (b b' : JavaBody ι) : JavaLedger :=
  match b, b' with
  | .entered, .leaving _ => L.count env i .skipped
  | .ready _ _, .running _ _ => L.addActive 1
  | .ready _ _, .forking _ _ => L.addActive 1
  | .executed _, .failing _ => (L.addActive (-1)).count env i .failed
  | .executed _, .produced _ => L.addActive (-1)
  | .applied _, .leaving _ => L.count env i .executed
  | .unapplied _, .failing _ => L.count env i .failed
  | _, _ => L

def step (L : JavaLedger) (env : JavaEnv σ ι) (l : JavaLabel σ ι) (s s' : JavaRunState σ ι) : JavaLedger :=
  match l with
  | .node i _ => L.node env i (s.bodies i) (s'.bodies i)
  | _ => L

end JavaLedger

/-- Which steps are looked at. -/
abbrev JavaFits (σ ι : Type) := JavaRunState σ ι → JavaLabel σ ι → JavaRunState σ ι → Prop

/-- The runs whose steps `Fits` allows, with what they count. -/
inductive JavaCounted (env : JavaEnv σ ι) (g : Graph) (Fits : JavaFits σ ι) (f₀ : σ) :
    JavaRunState σ ι → JavaLedger → Prop
  | init : JavaCounted env g Fits f₀ { frame := f₀ } {}
  | step {s l s' L} : JavaCounted env g Fits f₀ s L → JavaStep env g l s s' → Fits s l s' →
      JavaCounted env g Fits f₀ s' (L.step env l s s')

theorem JavaCounted.reachable {Fits : JavaFits σ ι} {f₀ : σ}
    {s : JavaRunState σ ι} {L : JavaLedger} (h : JavaCounted env g Fits f₀ s L) : JavaReachable env g f₀ s := by
  induction h with
  | init => exact .refl
  | step _ hs _ ih => exact ih.tail ⟨_, hs⟩

/-! ## What is due -/

/-- What an operator that was dispatched did. -/
def JavaExit.class? : JavaExit → Option Tally
  | passed | stopped => none
  | skipped => some .skipped
  | applied _ => some .executed
  | failed _ => some .failed

/-- What is due for one node. -/
def JavaRunState.dueOf (env : JavaEnv σ ι) (s : JavaRunState σ ι) (v : Nat) : List (Tally × String) :=
  ((s.bodies v).exit?.bind JavaExit.class?).toList.map fun t => (t, (env.node v).op.name)

/-- One count for every operator that was dispatched. -/
def JavaRunState.due (env : JavaEnv σ ι) (g : Graph) (s : JavaRunState σ ι) : List (Tally × String) :=
  (List.range g.nodes.length).flatMap (s.dueOf env)

/-- A request that is over: `execute` has returned, and so have the tasks. -/
structure JavaDone (env : JavaEnv σ ι) (g : Graph) (Fits : JavaFits σ ι) where
  f₀ : σ
  state : JavaRunState σ ι
  ledger : JavaLedger
  result : JavaResult
  run : JavaCounted env g Fits f₀ state ledger
  returned : state.main.result? = some result
  ended : ∀ i < g.nodes.length, ∃ x, state.bodies i = .ended x

/-- The counters of the engine after these requests. -/
def JavaLedger.account (acc : Accounts) (L : JavaLedger) : Accounts where
  stats := acc.stats.recordAll L.stats
  metrics := acc.metrics.recordAll L.metrics

structure JavaAccounted {Fits : JavaFits σ ι} (names : List String)
    (runs : List (JavaDone env g Fits)) : Prop where
  gauge : (runs.map fun r => r.ledger.activeOps).sum = 0
  counts : ((runs.map JavaDone.ledger).foldl JavaLedger.account (.init names)).Right
    (runs.flatMap fun r => r.state.due env g)
  traces : ∀ r ∈ runs, ∀ v < g.nodes.length, (r.result.traces v).toList =
    (r.state.dueOf env v).map fun e => ⟨e.2, decide (e.1 = .skipped)⟩

/-- No node's task leaves `runOperator` because its input cannot be built, its parameters cannot be resolved or an
`Error` comes out of `execute`, and no operator is at work when the caller collects the traces. -/
def JavaRunState.Counts (s : JavaRunState σ ι) (l : JavaLabel σ ι) (s' : JavaRunState σ ι) : Prop :=
  match l with
  | .node i _ =>
    match s.bodies i, s'.bodies i with
    | .building, .failing _ => False
    | .resolving _, .failing _ => False
    | .running _ _, .failing _ => False
    | _, _ => True
  | .main => s.main = .joined → ∀ i, (s.bodies i).active = false
  | _ => True

/-! ## One task -/

namespace JavaBody

/-- Between the two moves of the gauge. -/
def gauged : JavaBody ι → Int
  | running _ _ | forking _ _ | merging _ _ _ | joined _ | executed _ => 1
  | _ => 0

/-- What it has been counted as. -/
def tally? : JavaBody ι → Option Tally
  | failing _ | cancelling _ | forcing _ _ => some .failed
  | leaving x | ended x => x.class?
  | _ => none

theorem of_absent {b : JavaBody ι} (h : b.task = .absent) : b.gauged = 0 ∧ b.tally? = none := by
  rcases b <;> first | exact ⟨rfl, rfl⟩ | cases h

end JavaBody

open JavaBody in
/-- What a step of a task counts. -/
theorem JavaBodyStep.counts {s s' : JavaRunState σ ι} {i : Nat} {b b' : JavaBody ι} {eff : JavaEffect σ ι}
    (h : JavaBodyStep env g s i b eff b') (hb : s.bodies i = b) (hb' : s'.bodies i = b')
    (hfits : s.Counts (.node i eff) s') (L : JavaLedger) :
    (L.node env i b b').activeOps = L.activeOps - b.gauged + b'.gauged ∧
      (b'.tally? = b.tally? ∧ (L.node env i b b').log = L.log ∧ (L.node env i b b').stats = L.stats ∧
          (L.node env i b b').metrics = L.metrics ∧ (∀ t, eff ≠ .trace t) ∨
        b.tally? = none ∧ ∃ t, b'.tally? = some t ∧ (L.node env i b b').log = L.log ++ [(i, t)] ∧
          (L.node env i b b').stats = L.stats ++ [(t, (env.node i).op.name)] ∧
          (L.node env i b b').metrics = L.metrics ++ [(t, (env.node i).op.name)] ∧
          eff = .trace ⟨(env.node i).op.name, decide (t = .skipped)⟩) := by
  unfold JavaRunState.Counts at hfits
  dsimp only at hfits
  rw [hb, hb'] at hfits
  rcases h
  case buildFails | resolveFails | errors => exact hfits.elim
  case skip =>
    refine ⟨?_, .inr ⟨rfl, .skipped, rfl, rfl, rfl, rfl, rfl⟩⟩
    simp [JavaLedger.node, JavaLedger.count, gauged]
  case trace =>
    refine ⟨?_, .inr ⟨rfl, .executed, rfl, rfl, rfl, rfl, rfl⟩⟩
    simp [JavaLedger.node, JavaLedger.count, gauged]
  case executeFails | gateFails | traceFailed =>
    refine ⟨?_, .inr ⟨rfl, .failed, rfl, rfl, rfl, rfl, rfl⟩⟩
    simp [JavaLedger.node, JavaLedger.count, JavaLedger.addActive, gauged, Int.sub_eq_add_neg]
  all_goals
    refine ⟨?_, .inl ⟨rfl, rfl, rfl, rfl, fun t ht => by cases ht⟩⟩
    simp [JavaLedger.node, JavaLedger.addActive, gauged, Int.sub_eq_add_neg]

/-! ## The run -/

theorem sum_range_update {α : Type} (b : Nat → α) (f : α → Int) (x : α) {i n : Nat} (hi : i < n) :
    ((List.range n).map fun j => f (Function.update b i x j)).sum =
      ((List.range n).map fun j => f (b j)).sum - f (b i) + f x := by
  induction n with
  | zero => cases hi
  | succ n ih =>
    simp only [List.range_succ, List.map_append, List.sum_append, List.map_cons, List.map_nil, List.sum_cons,
      List.sum_nil]
    by_cases hn : i = n
    · subst hn
      have hsame : (List.range i).map (fun j => f (Function.update b i x j)) = (List.range i).map fun j => f (b j) :=
        List.map_congr_left fun j hj => by rw [Function.update_of_ne (List.mem_range.mp hj).ne]
      rw [hsame, Function.update_self]
      omega
    · rw [ih (by omega), Function.update_of_ne (Ne.symm hn)]
      omega

/-- The traces that the caller has collected are all there will be. -/
def JavaRunState.Collected (s : JavaRunState σ ι) : JavaMain → Prop
  | .collected _ traces | .projected _ traces _ => traces = s.traces ∧ ∀ i, (s.bodies i).active = false
  | .closing res | .returned res | .released res => res.traces = s.traces ∧ ∀ i, (s.bodies i).active = false
  | _ => True

structure JavaCountInv (env : JavaEnv σ ι) (g : Graph) (s : JavaRunState σ ι) (L : JavaLedger) : Prop where
  inv : JavaRunInv g s
  gauge : L.activeOps = ((List.range g.nodes.length).map fun i => (s.bodies i).gauged).sum
  logged : ∀ v, (L.log.filter fun e => e.1 = v) = (s.bodies v).tally?.toList.map fun t => (v, t)
  stats : L.stats = L.log.map fun e => (e.2, (env.node e.1).op.name)
  metrics : L.metrics = L.log.map fun e => (e.2, (env.node e.1).op.name)
  traces : ∀ v, s.traces v = (s.bodies v).tally?.map fun t => ⟨(env.node v).op.name, decide (t = .skipped)⟩
  collected : s.Collected s.main

namespace JavaCountInv
variable {s s' : JavaRunState σ ι} {L : JavaLedger} {l : JavaLabel σ ι}

theorem init (env : JavaEnv σ ι) (g : Graph) (f₀ : σ) :
    JavaCountInv env g ({ frame := f₀ } : JavaRunState σ ι) {} where
  inv := .init g f₀
  gauge := by simp [JavaBody.gauged]
  logged v := rfl
  stats := rfl
  metrics := rfl
  traces v := rfl
  collected := trivial

/-- A step that leaves the tasks alone. -/
theorem congr (h : JavaCountInv env g s L) (hinv : JavaRunInv g s') (hbodies : s'.bodies = s.bodies)
    (htraces : s'.traces = s.traces) (hcollected : s'.Collected s'.main) : JavaCountInv env g s' L where
  inv := hinv
  gauge := by
    rw [hbodies]
    exact h.gauge
  logged v := by
    rw [hbodies]
    exact h.logged v
  stats := h.stats
  metrics := h.metrics
  traces v := by
    rw [hbodies, htraces]
    exact h.traces v
  collected := hcollected

/-- What the caller has collected stays what it is. -/
theorem collected_step (h : JavaCountInv env g s L) (hs : JavaStep env g l s s') (hmain : s'.main = s.main)
    (htraces : (∀ i, (s.bodies i).active = false) → s'.traces = s.traces) : s'.Collected s'.main := by
  have hc := h.collected
  have hjoined := h.inv.joined
  rw [hmain]
  have hkeeps : s.main.isJoined = true → (∀ i, (s.bodies i).active = false) →
      s'.traces = s.traces ∧ ∀ i, (s'.bodies i).active = false := fun hj hidle =>
    ⟨htraces hidle, h.inv.idle_step (hjoined hj) hidle hs⟩
  rcases hm : s.main with k | _ | _ | ⟨error, traces⟩ | ⟨error, traces, common⟩ | res | res | res
  case submitting | awaiting | joined => trivial
  all_goals
    rw [hm] at hc hkeeps
    obtain ⟨heq, hidle⟩ := hkeeps rfl hc.2
    exact ⟨hc.1.trans heq.symm, hidle⟩

theorem node {i : Nat} {b b' : JavaBody ι} {eff : JavaEffect σ ι} (h : JavaCountInv env g s L) (hb : s.bodies i = b)
    (hstep : JavaBodyStep env g s i b eff b')
    (hfits : s.Counts (.node i eff) (s.move (env.node i).op.name i eff b')) :
    JavaCountInv env g (s.move (env.node i).op.name i eff b') (L.node env i b b') := by
  have hs : JavaStep env g (.node i eff) s (s.move (env.node i).op.name i eff b') := .node hb hstep
  have hbodies : (s.move (env.node i).op.name i eff b').bodies = Function.update s.bodies i b' :=
    JavaRunState.bodies_move
  have hb' : (s.move (env.node i).op.name i eff b').bodies i = b' := by rw [hbodies, Function.update_self]
  obtain ⟨hgauge, hcounts⟩ := hstep.counts hb hb' hfits L
  have hi : i < g.nodes.length := by
    by_contra hi
    have habsent := (h.inv.submitted i).mpr (h.inv.bound.trans (Nat.le_of_not_lt hi))
    rw [hb] at habsent
    exact hstep.task_ne_absent.1 habsent
  -- a trace is stored exactly where something is counted
  have htraces : (∀ t, eff ≠ .trace t) → (s.move (env.node i).op.name i eff b').traces = s.traces := by
    intro hnot
    rcases eff <;> first | rfl | exact absurd rfl (hnot _)
  refine ⟨h.inv.step hs, ?_, fun v => ?_, ?_, ?_, fun v => ?_, ?_⟩
  · rw [hgauge, h.gauge, hbodies, sum_range_update s.bodies JavaBody.gauged b' hi, hb]
  · rw [hbodies]
    by_cases hv : v = i
    · subst hv
      rw [Function.update_self]
      have hlogged := h.logged v
      rw [hb] at hlogged
      rcases hcounts with ⟨htally, hlog, -⟩ | ⟨hnone, t, ht, hlog, -⟩
      · rw [hlog, htally, hlogged]
      · rw [hlog, ht, List.filter_append, hlogged, hnone]
        simp
    · rw [Function.update_of_ne hv, ← h.logged v]
      rcases hcounts with ⟨-, hlog, -⟩ | ⟨-, t, -, hlog, -⟩
      · rw [hlog]
      · rw [hlog, List.filter_append]
        simp [Ne.symm hv]
  · rcases hcounts with ⟨-, hlog, hstats, -⟩ | ⟨-, t, -, hlog, hstats, -⟩
    · rw [hlog, hstats, h.stats]
    · rw [hlog, hstats, h.stats, List.map_append]
      rfl
  · rcases hcounts with ⟨-, hlog, -, hmetrics, -⟩ | ⟨-, t, -, hlog, -, hmetrics, -⟩
    · rw [hlog, hmetrics, h.metrics]
    · rw [hlog, hmetrics, h.metrics, List.map_append]
      rfl
  · rcases hcounts with ⟨htally, -, -, -, hnot⟩ | ⟨hnone, t, ht, -, -, -, rfl⟩
    · rw [htraces hnot, h.traces, hbodies]
      by_cases hv : v = i
      · rw [hv, Function.update_self, htally, hb]
      · rw [Function.update_of_ne hv]
    · show Function.update s.traces i (some _) v = _
      rw [hbodies]
      by_cases hv : v = i
      · rw [hv, Function.update_self, Function.update_self, ht]
        rfl
      · rw [Function.update_of_ne hv, Function.update_of_ne hv]
        exact h.traces v
  · refine h.collected_step hs JavaRunState.main_move fun hidle => ?_
    have hquiet := hstep.untouched (hb ▸ hidle i) (env.node i).op.name
    exact hquiet.2.2.1

theorem submit {i : Nat} (h : JavaCountInv env g s L) (hmain : s.main = .submitting i) (hi : i < g.nodes.length) :
    JavaCountInv env g { s with bodies := Function.update s.bodies i .queued, main := .submitting (i + 1) } L := by
  have habsent : (s.bodies i).task = .absent := (h.inv.submitted i).mpr (by rw [hmain]; exact Nat.le_refl i)
  obtain ⟨hgauged, htally⟩ := JavaBody.of_absent habsent
  have hsame : ∀ v, (Function.update s.bodies i .queued v).tally? = (s.bodies v).tally? := by
    intro v
    by_cases hv : v = i
    · rw [hv, Function.update_self, htally]
      rfl
    · rw [Function.update_of_ne hv]
  have hs : JavaStep env g (.submit i) s _ := .submit hmain hi
  refine ⟨h.inv.step hs, ?_, fun v => ?_, h.stats, h.metrics, fun v => ?_, trivial⟩
  · show L.activeOps = _
    rw [sum_range_update s.bodies JavaBody.gauged .queued hi, hgauged, h.gauge]
    simp [JavaBody.gauged]
  · show _ = (Function.update s.bodies i .queued v).tally?.toList.map _
    rw [hsame]
    exact h.logged v
  · show s.traces v = (Function.update s.bodies i .queued v).tally?.map _
    rw [hsame]
    exact h.traces v

theorem main (h : JavaCountInv env g s L) (hm : JavaMainStep env g s s') (hfits : s.Counts .main s') :
    JavaCountInv env g s' L := by
  have hinv : JavaRunInv g s' := h.inv.step (.main hm)
  have hc := h.collected
  obtain ⟨hbodies, -, -, -, -, htraces, -⟩ := hm.frame
  refine h.congr hinv hbodies htraces ?_
  rcases hm
  case submitted | join => trivial
  case collectCancelled hmain _ _ => exact ⟨rfl, hfits hmain⟩
  case collect hmain _ => exact ⟨rfl, hfits hmain⟩
  case projectCommon hmain | projectItems hmain | close hmain | release hmain =>
    rw [hmain] at hc
    exact hc

theorem step (h : JavaCountInv env g s L) (hs : JavaStep env g l s s') (hfits : s.Counts l s') :
    JavaCountInv env g s' (L.step env l s s') := by
  have hinv := h.inv.step hs
  rcases hs with ⟨hb, hstep⟩ | ⟨hsh, hstep⟩ | ⟨hmain, hi⟩ | hm | hcaller | ⟨hcaller, hc⟩ | ⟨hc, hsh, hsc⟩
  case node i b eff b' =>
    have hnode := h.node hb hstep hfits
    unfold JavaLedger.step
    dsimp only
    rwa [hb, JavaRunState.bodies_move, Function.update_self]
  case submit => exact h.submit hmain hi
  case main => exact h.main hm hfits
  all_goals exact h.congr hinv rfl rfl h.collected

end JavaCountInv

theorem JavaCounted.inv {f₀ : σ} {s : JavaRunState σ ι} {L : JavaLedger}
    (h : JavaCounted env g JavaRunState.Counts f₀ s L) : JavaCountInv env g s L := by
  induction h with
  | init => exact .init env g _
  | step _ hs hfits ih => exact ih.step hs hfits

/-! ## The requests of one engine -/

namespace JavaDone
variable {r : JavaDone env g JavaRunState.Counts}

theorem tally?_eq (r : JavaDone env g JavaRunState.Counts) {v : Nat} (hv : v < g.nodes.length) :
    (r.state.bodies v).tally? = (r.state.bodies v).exit?.bind JavaExit.class? := by
  obtain ⟨x, hx⟩ := r.ended v hv
  rw [hx]
  rfl

theorem activeOps_eq (r : JavaDone env g JavaRunState.Counts) : r.ledger.activeOps = 0 := by
  have hended : (List.range g.nodes.length).map (fun i => (r.state.bodies i).gauged) =
      (List.range g.nodes.length).map fun _ => 0 := by
    refine List.map_congr_left fun i hi => ?_
    obtain ⟨x, hx⟩ := r.ended i (List.mem_range.mp hi)
    rw [hx]
    rfl
  rw [r.run.inv.gauge, hended]
  simp

theorem events_perm (r : JavaDone env g JavaRunState.Counts) :
    (r.ledger.log.map fun e => (e.2, (env.node e.1).op.name)).Perm (r.state.due env g) := by
  have hlt : ∀ e ∈ r.ledger.log, e.1 < g.nodes.length := by
    intro e he
    have hmem : e ∈ r.ledger.log.filter fun e' => e'.1 = e.1 := List.mem_filter.mpr ⟨he, decide_eq_true rfl⟩
    rw [r.run.inv.logged e.1] at hmem
    by_contra hge
    have habsent := (r.run.inv.inv.submitted e.1).mpr (r.run.inv.inv.bound.trans (Nat.le_of_not_lt hge))
    rw [(JavaBody.of_absent habsent).2] at hmem
    cases hmem
  have hparts := (Parts.perm Prod.fst r.ledger.log g.nodes.length hlt).map fun e => (e.2, (env.node e.1).op.name)
  rw [List.map_flatMap] at hparts
  refine hparts.trans (List.Perm.of_eq (List.flatMap_congr fun v hv => ?_))
  rw [r.run.inv.logged v, r.tally?_eq (List.mem_range.mp hv), List.map_map]
  rfl

theorem traces_eq (r : JavaDone env g JavaRunState.Counts) : r.result.traces = r.state.traces := by
  have hcollected := r.run.inv.collected
  have hreturned := r.returned
  rcases hm : r.state.main with k | _ | _ | ⟨error, traces⟩ | ⟨error, traces, common⟩ | res | res | res
  case returned | released =>
    rw [hm] at hcollected hreturned
    cases hreturned
    exact hcollected.1
  all_goals
    rw [hm] at hreturned
    cases hreturned

end JavaDone

theorem JavaLedger.foldl_account (Ls : List JavaLedger) (acc : Accounts) :
    Ls.foldl JavaLedger.account acc =
      ⟨acc.stats.recordAll (Ls.flatMap JavaLedger.stats), acc.metrics.recordAll (Ls.flatMap JavaLedger.metrics)⟩ := by
  induction Ls generalizing acc with
  | nil => rfl
  | cons L rest ih =>
    rw [List.foldl_cons, ih, List.flatMap_cons, List.flatMap_cons, Stats.recordAll_append, Stats.recordAll_append]
    rfl

namespace JavaCounted
variable {Fits : JavaFits σ ι} {f₀ : σ} {s s' : JavaRunState σ ι}
  {L : JavaLedger}

theorem node {i : Nat} {b b' : JavaBody ι} {eff : JavaEffect σ ι} (h : JavaCounted env g Fits f₀ s L)
    (hb : s.bodies i = b) (hstep : JavaBodyStep env g s i b eff b')
    (hfits : Fits s (.node i eff) (s.move (env.node i).op.name i eff b')) :
    JavaCounted env g Fits f₀ (s.move (env.node i).op.name i eff b') (L.node env i b b') := by
  have hnext := h.step (.node hb hstep) hfits
  unfold JavaLedger.step at hnext
  dsimp only at hnext
  rwa [hb, JavaRunState.bodies_move, Function.update_self] at hnext

theorem main (h : JavaCounted env g Fits f₀ s L) (hm : JavaMainStep env g s s') (hfits : Fits s .main s') :
    JavaCounted env g Fits f₀ s' L := h.step (.main hm) hfits

theorem mono {Fits' : JavaFits σ ι} (h : JavaCounted env g Fits f₀ s L)
    (hmono : ∀ s l s', Fits s l s' → Fits' s l s') : JavaCounted env g Fits' f₀ s L := by
  induction h with
  | init => exact .init
  | step _ hs hfits ih => exact ih.step hs (hmono _ _ _ hfits)

end JavaCounted

namespace Lone

/-- Whose only operator ends with `res`. -/
def javaEnv (res : Except JavaThrown OperatorOutput) : JavaEnv Unit Unit where
  common _ _ := none
  buildInput _ _ := .ok ()
  itemCount _ := 1
  shard _ _ := ()
  resolve _ _ := .ok ∅
  apply _ _ _ _ := .ok ()
  resultCommon _ := ∅
  resultItems _ := []
  node _ := { op := { name := "a" } }
  exec _ _ _ r := r = res

theorem javaSkips (res : Except JavaThrown OperatorOutput) :
    (javaEnv res).shouldSkip ((javaEnv res).node 0) () = false := rfl

/-- The task has come to its operator, and nothing has failed. -/
structure JavaAt (res : Except JavaThrown OperatorOutput) (s : JavaRunState Unit Unit) : Prop where
  run : JavaCounted (javaEnv res) graph JavaRunState.Counts () s { activeOps := 1 }
  body : s.bodies 0 = .running () ∅
  others : ∀ i ≠ 0, s.bodies i = .unsubmitted
  fatal : s.fatal = none
  notRun : s.notRun = false
  main : s.main = .awaiting

theorem java_begins (res : Except JavaThrown OperatorOutput) : ∃ s, JavaAt res s := by
  have hinit : JavaCounted (javaEnv res) graph JavaRunState.Counts () { frame := () } {} := .init
  have hqueued := (hinit.step (.submit (i := 0) rfl Nat.zero_lt_one) trivial).main (.submitted rfl) fun h => by cases h
  have hentered := ((hqueued.node (i := 0) rfl .start trivial).node (i := 0) rfl (.check rfl) trivial).node (i := 0) rfl
    (.enter rfl) trivial
  have hbuilt := (hentered.node (i := 0) rfl (.goOn (javaSkips _)) trivial).node (i := 0) rfl (.build rfl) trivial
  have hready := hbuilt.node (i := 0) rfl (.resolve rfl) trivial
  have hrunning := hready.node (i := 0) rfl (.serial (.inr le_rfl)) trivial
  exact ⟨_, hrunning, rfl, fun i hi => by simp [hi], rfl, rfl, rfl⟩

theorem graph_cases {i : Nat} (h : i < graph.nodes.length) : i = 0 := Nat.lt_one_iff.mp h

theorem java_executes : ∃ r : JavaDone (javaEnv (.ok {})) graph JavaRunState.Counts,
    r.state.due (javaEnv (.ok {})) graph = [(.executed, "a")] := by
  obtain ⟨s, hs⟩ := java_begins (.ok {})
  have hexecuted := hs.run.node hs.body (.executed rfl nofun) (by simp [JavaRunState.Counts, hs.body])
  have hproduced := (hexecuted.node (i := 0) rfl (.gate rfl) trivial).node (i := 0) rfl (.noWarning rfl) trivial
  have hended := ((hproduced.node (i := 0) rfl (.apply rfl) trivial).node (i := 0) rfl .trace trivial).node (i := 0) rfl
    .finish trivial
  have hjoined := hended.main (.join hs.main fun i hi => by rw [graph_cases hi]; rfl) fun h => by
    cases hs.main.symm.trans h
  have hidle : ∀ i, ((Function.update s.bodies 0 (.ended (.applied {}))) i).active = false := by
    intro i
    by_cases hi : i = 0
    · rw [hi, Function.update_self]
      rfl
    · rw [Function.update_of_ne hi, hs.others i hi]
      rfl
  have hcollected := hjoined.main (.collect rfl (.inr hs.notRun)) fun _ i => by
    have := hidle i
    by_cases hi : i = 0 <;> simpa [hi] using this
  have hreturned := ((hcollected.main (.projectCommon rfl) (fun h => by cases h)).main (.projectItems rfl)
    (fun h => by cases h)).main (.close rfl) fun h => by cases h
  refine ⟨⟨(), _, _, _, hreturned, rfl, fun i hi => ⟨.applied {}, ?_⟩⟩, rfl⟩
  rw [graph_cases hi]
  rfl

theorem java_errors : ∃ r : JavaDone (javaEnv (.error (.error "StackOverflowError"))) graph (fun _ _ _ => True),
    r.ledger.activeOps = 1 := by
  obtain ⟨s, hs⟩ := java_begins (.error (.error "StackOverflowError"))
  have hrun : JavaCounted (javaEnv (.error (.error "StackOverflowError"))) graph (fun _ _ _ => True) () s
      { activeOps := 1 } := hs.run.mono fun _ _ _ _ => trivial
  have hraised := (hrun.node hs.body (.errors rfl rfl) trivial).node (i := 0) rfl (.raise hs.fatal) trivial
  have hended := (((hraised.node (i := 0) rfl .cancel trivial).node (i := 0) rfl .force trivial).node (i := 0) rfl
    .forced trivial).node (i := 0) rfl .finish trivial
  have hjoined := hended.main (.join hs.main fun i hi => by rw [graph_cases hi]; rfl) trivial
  have hcollected := hjoined.main (.collect rfl (.inr hs.notRun)) trivial
  have hreturned := ((hcollected.main (.projectCommon rfl) trivial).main (.projectItems rfl) trivial).main (.close rfl)
    trivial
  refine ⟨⟨(), _, _, _, hreturned, rfl, fun i hi => ⟨.failed (.panic "a" "StackOverflowError"), ?_⟩⟩, rfl⟩
  rw [graph_cases hi]
  rfl

end Lone

end Pineapple
