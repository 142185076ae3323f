import Pineapple.Lib.Parts
import Pineapple.RunVerdict

/-! # Counting what the operators did (`Stats` in `server.cpp` and `stats.go`, `EngineMetrics`)

The C++ server counts from the traces a request hands back, its engine counts at the exits of the node
bodies. The Go scheduler counts in both places at once. What is due for a request is one count for every
operator that was dispatched. -/

namespace Pineapple
open FanOut

/-! ## The counters -/

structure OpStats where
  execCount : Nat := 0
  skipCount : Nat := 0
  errorCount : Nat := 0
deriving DecidableEq

namespace OpStats

def get (st : OpStats) : Tally → Nat
  | .executed => st.execCount
  | .skipped => st.skipCount
  | .failed => st.errorCount

def bump (st : OpStats) : Tally → OpStats
  | .executed => { st with execCount := st.execCount + 1 }
  | .skipped => { st with skipCount := st.skipCount + 1 }
  | .failed => { st with errorCount := st.errorCount + 1 }

theorem get_bump (st : OpStats) (t u : Tally) : (st.bump t).get u = st.get u + if t = u then 1 else 0 := by
  cases t <;> cases u <;> rfl

end OpStats

/-- The server's `Stats`, in the order `/stats` prints the operators. The engine's three counter vectors are
kept in the same way. -/
structure Stats where
  ops : SortedMap String OpStats := ∅

namespace Stats

def preInit (st : Stats) (names : List String) : Stats :=
  names.foldl (fun st name => if st.ops.contains name then st else ⟨st.ops.insert name {}⟩) st

def getOrCreate (st : Stats) (name : String) : OpStats := (st.ops.find? name).getD {}

def record (st : Stats) (t : Tally) (name : String) : Stats := ⟨st.ops.insert name ((st.getOrCreate name).bump t)⟩

def recordExec (st : Stats) (name : String) : Stats := st.record .executed name
def recordSkip (st : Stats) (name : String) : Stats := st.record .skipped name
def recordError (st : Stats) (name : String) : Stats := st.record .failed name

def recordAll (st : Stats) (events : List (Tally × String)) : Stats := events.foldl (fun st e => st.record e.1 e.2) st

/-- What a snapshot shows for an operator. -/
def count (st : Stats) (t : Tally) (name : String) : Nat := (st.getOrCreate name).get t

theorem count_empty (t : Tally) (op : String) : ({} : Stats).count t op = 0 := by
  cases t <;> rfl

theorem count_record (st : Stats) (t u : Tally) (name op : String) :
    (st.record t name).count u op = st.count u op + if (t, name) = (u, op) then 1 else 0 := by
  unfold count getOrCreate record
  rw [SortedMap.find?_insert]
  by_cases hop : op = name
  · subst hop
    rw [if_pos rfl, Option.getD_some, OpStats.get_bump]
    simp only [Prod.mk.injEq, and_true]
    rfl
  · rw [if_neg hop, if_neg fun h => hop (congrArg Prod.snd h).symm, Nat.add_zero]

theorem count_recordAll (st : Stats) (events : List (Tally × String)) (u : Tally) (op : String) :
    (st.recordAll events).count u op = st.count u op + events.count (u, op) := by
  induction events generalizing st with
  | nil => rfl
  | cons e rest ih =>
    obtain ⟨t, name⟩ := e
    show ((st.record t name).recordAll rest).count u op = _
    rw [ih, count_record, List.count_cons]
    simp only [beq_iff_eq]
    omega

theorem count_preInit (st : Stats) (names : List String) (t : Tally) (op : String) :
    (st.preInit names).count t op = st.count t op := by
  induction names generalizing st with
  | nil => rfl
  | cons name rest ih =>
    show (preInit (if st.ops.contains name then st else ⟨st.ops.insert name {}⟩) rest).count t op = _
    rw [ih]
    split
    · rfl
    · next hfresh =>
      have hnone : st.ops.find? name = none := Option.not_isSome_iff_eq_none.mp hfresh
      unfold count getOrCreate
      rw [SortedMap.find?_insert]
      by_cases hop : op = name
      · rw [if_pos hop, hop, hnone]
        rfl
      · rw [if_neg hop]

end Stats

/-! ## The requests of one engine -/

structure Accounts where
  /-- what `/stats` reports -/
  stats : Stats := {}
  /-- the engine's own metrics -/
  metrics : Stats := {}

namespace Accounts

/-- Both register the operators' names before the first request. -/
def init (names : List String) : Accounts := ⟨({} : Stats).preInit names, ({} : Stats).preInit names⟩

/-- The counts are the due ones, on either side. -/
structure Right (acc : Accounts) (due : List (Tally × String)) : Prop where
  metrics : ∀ t op, acc.metrics.count t op = due.count (t, op)
  stats : ∀ t op, acc.stats.count t op = due.count (t, op)
  agree : ∀ t op, acc.stats.count t op = acc.metrics.count t op

end Accounts

/-- The loop of the execute handler. -/
def Stats.recordTrace (st : Stats) (traces : List OpTrace) : Stats :=
  traces.foldl (fun st t => if t.skipped then st.recordSkip t.name else st.recordExec t.name) st

section
variable {σ ι : Type}

def RunState.account (g : Graph) (acc : Accounts) (s : RunState σ) : Accounts where
  stats := acc.stats.recordTrace (s.returnedTraces g)
  metrics := acc.metrics.recordAll s.counted

def GoRunState.account (acc : Accounts) (s : GoRunState σ ι) : Accounts where
  stats := acc.stats.recordAll s.stats
  metrics := acc.metrics.recordAll s.metrics

/-- What is due for one node. -/
def RunState.dueOf (env : RunEnv σ) (s : RunState σ) (v : Nat) : List (Tally × String) :=
  ((s.bodies v).entryAt v).toList.map fun e => (e.tally, (env.node v).op.name)

/-- One count for every operator that was dispatched. -/
def RunState.due (env : RunEnv σ) (g : Graph) (s : RunState σ) : List (Tally × String) :=
  (List.range g.nodes.length).flatMap (s.dueOf env)

/-- What an operator that was dispatched did. -/
def GoExit.class? : GoExit → Option Tally
  | passed => none
  | skipped => some .skipped
  | applied _ => some .executed
  | failed _ _ => some .failed

def GoRunState.dueOf (env : GoEnv σ ι) (s : GoRunState σ ι) (v : Nat) : List (Tally × String) :=
  ((s.bodies v).exit?.bind GoExit.class?).toList.map fun t => (t, (env.node v).op.name)

def GoRunState.due (env : GoEnv σ ι) (g : Graph) (s : GoRunState σ ι) : List (Tally × String) :=
  (List.range g.nodes.length).flatMap (s.dueOf env)

end

namespace Stats

theorem recordAll_append (st : Stats) (xs ys : List (Tally × String)) :
    st.recordAll (xs ++ ys) = (st.recordAll xs).recordAll ys := List.foldl_append

def traceEvent (t : OpTrace) : Tally × String := (if t.skipped then .skipped else .executed, t.name)

theorem recordTrace_eq (st : Stats) (traces : List OpTrace) :
    st.recordTrace traces = st.recordAll (traces.map traceEvent) := by
  unfold recordTrace recordAll
  rw [List.foldl_map]
  congr 1
  funext st t
  unfold traceEvent recordSkip recordExec
  split <;> rfl

end Stats

theorem Accounts.count_init (names : List String) (events : List (Tally × String)) (t : Tally) (op : String) :
    ((({} : Stats).preInit names).recordAll events).count t op = events.count (t, op) := by
  rw [Stats.count_recordAll, Stats.count_preInit, Stats.count_empty, Nat.zero_add]

/-- After events on both sides the counts are right exactly when the events are the due ones. -/
theorem Accounts.right_iff (names : List String) (sEvents mEvents due : List (Tally × String)) :
    Right ⟨(init names).stats.recordAll sEvents, (init names).metrics.recordAll mEvents⟩ due ↔
      (∀ e, mEvents.count e = due.count e) ∧ ∀ e, sEvents.count e = due.count e := by
  constructor
  · intro h
    refine ⟨fun e => ?_, fun e => ?_⟩
    · rw [← h.metrics e.1 e.2]
      exact (count_init names mEvents e.1 e.2).symm
    · rw [← h.stats e.1 e.2]
      exact (count_init names sEvents e.1 e.2).symm
  · rintro ⟨hm, hs⟩
    have hmetrics : ∀ t op, ((({} : Stats).preInit names).recordAll mEvents).count t op = due.count (t, op) :=
      fun t op => (count_init names mEvents t op).trans (hm _)
    have hstats : ∀ t op, ((({} : Stats).preInit names).recordAll sEvents).count t op = due.count (t, op) :=
      fun t op => (count_init names sEvents t op).trans (hs _)
    exact ⟨hmetrics, hstats, fun t op => (hstats t op).trans (hmetrics t op).symm⟩

/-! ## The C++ engine and its server -/

section Cpp
variable {σ : Type} {env : RunEnv σ} {g : Graph} {f₀ : FrameState σ} {s : RunState σ}

theorem RunInv.lt_of_entry (h : RunInv env g f₀ s) {v : Nat} {e : Entry} (he : (s.bodies v).entryAt v = some e) :
    v < g.nodes.length := by
  have hmem : v ∈ s.sched.shared.dispatched := by
    by_contra hnot
    rw [h.fresh v hnot] at he
    exact absurd he nofun
  refine h.sched.place_lt v ?_
  rcases List.mem_append.mp (h.sched.dispatched.mem_iff.mp hmem) with ha | hr
  · exact List.mem_append_left _ (List.mem_append_right _ ha)
  · exact List.mem_append_right _ hr

/-- The engine counts what is due. -/
theorem RunInv.counted_perm (h : RunInv env g f₀ s) : s.counted.Perm (s.due env g) := by
  have hlt : ∀ e ∈ s.log, e.node < g.nodes.length := by
    intro e he
    have hmem : e ∈ s.log.filter fun e' => e'.node = e.node :=
      List.mem_filter.mpr ⟨he, decide_eq_true rfl⟩
    rw [h.logged e.node, Option.mem_toList] at hmem
    exact h.lt_of_entry hmem
  have hparts := (Parts.perm Entry.node s.log g.nodes.length hlt).map fun e => (e.tally, (env.node e.node).op.name)
  rw [← h.counted, List.map_flatMap] at hparts
  refine hparts.trans (List.Perm.of_eq (List.flatMap_congr fun v _ => ?_))
  rw [h.logged v]
  refine List.map_congr_left fun e he => ?_
  rw [Body.entryAt_node (Option.mem_toList.mp he)]

/-- What the server counts for one node of a run. -/
def RunState.reportedOf (env : RunEnv σ) (s : RunState σ) (v : Nat) : List (Tally × String) :=
  if s.flags.verdict = .success ∧ (env.node v).op.name ≠ "" then s.dueOf env v else []

theorem RunInv.reported (h : RunInv env g f₀ s) (hover : ∀ v < g.nodes.length, (s.exits v).isSome = true) :
    (s.returnedTraces g).map Stats.traceEvent = (List.range g.nodes.length).flatMap (s.reportedOf env) := by
  unfold RunState.returnedTraces
  by_cases hs : s.flags.verdict = .success
  · rw [if_pos hs]
    refine Parts.map_filter_filterMap fun v hv => ?_
    have hsucc := h.ended v
    rw [h.fits.success hs (hover v (List.mem_range.mp hv))] at hsucc
    unfold RunState.reportedOf RunState.dueOf
    rw [h.traces v]
    by_cases hname : (env.node v).op.name = ""
    · rw [if_neg fun hc => hc.2 hname]
      cases hb : s.bodies v with
      | skipped => simp [Body.trace?, hname]
      | applied out => simp [Body.trace?, hname]
      | _ => rfl
    · rw [if_pos ⟨hs, hname⟩]
      cases hb : s.bodies v with
      | skipped => simp [Body.trace?, Body.entryAt, hname, Stats.traceEvent, Entry.tally]
      | applied out => simp [Body.trace?, Body.entryAt, hname, Stats.traceEvent, Entry.tally]
      | failed e =>
        rw [hb] at hsucc
        exact absurd hsucc id
      | _ => rfl
  · rw [if_neg hs]
    refine (List.flatMap_eq_nil_iff.mpr fun v _ => ?_).symm
    exact if_neg fun hc => hs hc.1

theorem RunInv.success_iff (h : RunInv env g f₀ s) (hover : ∀ v < g.nodes.length, (s.exits v).isSome = true) :
    s.flags.verdict = .success ↔ ∀ v < g.nodes.length, s.exits v = some .completed := by
  constructor
  · exact fun hs v hv => h.fits.success hs (hover v hv)
  · intro hall
    cases hv : s.flags.verdict with
    | success => rfl
    | cancelled =>
      obtain ⟨-, v, hpass⟩ := h.fits.cancelled_iff.mp hv
      rw [hall v (h.exits_lt (by rw [hpass]; rfl))] at hpass
      exact absurd hpass nofun
    | failed v =>
      have hfail := h.fits.failed hv
      rw [hall v (h.exits_lt (by rw [hfail]; rfl))] at hfail
      exact absurd hfail nofun

/-- A node that was passed over is due nothing, any other one count. -/
theorem RunInv.dueOf_eq_nil (h : RunInv env g f₀ s) {v : Nat} (hv : (s.exits v).isSome = true) :
    s.dueOf env v = [] ↔ s.exits v = some .passed := by
  have hend := h.ended v
  unfold RunState.dueOf
  cases hx : s.exits v with
  | none => rw [hx] at hv; exact absurd hv Bool.false_ne_true
  | some x =>
    rw [hx] at hend
    cases x with
    | passed =>
      rw [show s.bodies v = .idle from hend]
      exact iff_of_true rfl rfl
    | completed =>
      refine iff_of_false (fun hnil => ?_) nofun
      cases hb : s.bodies v with
      | skipped => rw [hb] at hnil; exact absurd hnil nofun
      | applied out => rw [hb] at hnil; exact absurd hnil nofun
      | _ => rw [hb] at hend; exact absurd hend id
    | failed =>
      obtain ⟨e, he⟩ := hend
      rw [he]
      exact iff_of_false nofun nofun

theorem RunState.reportedOf_le (s : RunState σ) (v : Nat) (e : Tally × String) :
    (s.reportedOf env v).count e ≤ (s.dueOf env v).count e := by
  unfold reportedOf
  split
  · exact Nat.le_refl _
  · exact Nat.zero_le _

/-- The server's counts for one run. -/
theorem RunInv.reported_iff (h : RunInv env g f₀ s) (hover : ∀ v < g.nodes.length, (s.exits v).isSome = true) :
    (∀ e, ((s.returnedTraces g).map Stats.traceEvent).count e = (s.due env g).count e) ↔
      ∀ v < g.nodes.length, s.exits v ≠ some .passed →
        (env.node v).op.name ≠ "" ∧ ∀ w < g.nodes.length, s.exits w = some .completed := by
  rw [h.reported hover]
  refine (Parts.count_eq_iff fun v _ => s.reportedOf_le v).trans ?_
  simp only [List.mem_range]
  refine forall₂_congr fun v hv => ?_
  rw [← h.success_iff hover]
  have hnil := h.dueOf_eq_nil (hover v hv)
  unfold RunState.reportedOf
  constructor
  · intro hcount hpass
    by_contra hc
    rw [if_neg fun h => hc h.symm] at hcount
    refine hpass (hnil.mp (List.eq_nil_iff_forall_not_mem.mpr fun e he => ?_))
    exact absurd (hcount e).symm (Nat.ne_of_gt (List.count_pos_iff.mpr he))
  · intro hc e
    by_cases hpass : s.exits v = some .passed
    · rw [hnil.mpr hpass, ite_self]
    · rw [if_pos (hc hpass).symm]

theorem RunState.foldl_account (runs : List (RunState σ)) (acc : Accounts) :
    runs.foldl (RunState.account g) acc =
      ⟨acc.stats.recordAll (runs.flatMap fun s => (s.returnedTraces g).map Stats.traceEvent),
        acc.metrics.recordAll (runs.flatMap RunState.counted)⟩ := by
  induction runs generalizing acc with
  | nil => rfl
  | cons s rest ih =>
    rw [List.foldl_cons, ih, List.flatMap_cons, List.flatMap_cons, Stats.recordAll_append, Stats.recordAll_append,
      ← Stats.recordTrace_eq]
    rfl

theorem RunInv.reported_le (h : RunInv env g f₀ s) (hover : ∀ v < g.nodes.length, (s.exits v).isSome = true)
    (e : Tally × String) : ((s.returnedTraces g).map Stats.traceEvent).count e ≤ (s.due env g).count e := by
  rw [h.reported hover]
  exact Parts.count_le (fun v _ => s.reportedOf_le v) e

theorem RunReachable.account_iff {pool : Bool} {poolSize : Nat} {runs : List (RunState σ)} (names : List String)
    (hg : GraphInv g)
    (hruns : ∀ s ∈ runs, ∃ f₀, RunReachable env g pool poolSize f₀ s ∧ s.sched.mainReturned = true) :
    (∀ t op, (runs.foldl (RunState.account g) (.init names)).metrics.count t op =
        (runs.flatMap (RunState.due env g)).count (t, op)) ∧
      ((runs.foldl (RunState.account g) (.init names)).Right (runs.flatMap (RunState.due env g)) ↔
        ∀ s ∈ runs, ∀ v < g.nodes.length, s.exits v ≠ some .passed →
          (env.node v).op.name ≠ "" ∧ ∀ w < g.nodes.length, s.exits w = some .completed) := by
  have hinv : ∀ s ∈ runs, ∃ f₀, RunInv env g f₀ s ∧ ∀ v < g.nodes.length, (s.exits v).isSome = true := by
    intro s hs
    obtain ⟨f₀, hr, hret⟩ := hruns s hs
    have h := RunInv.reachable hg hr
    exact ⟨f₀, h, h.all_over hg hret⟩
  have hcounted : ∀ e, (runs.flatMap RunState.counted).count e = (runs.flatMap (RunState.due env g)).count e := by
    intro e
    refine List.Perm.count_eq (List.Perm.flatMap_left runs fun s hs => ?_) e
    obtain ⟨f₀, h, -⟩ := hinv s hs
    exact h.counted_perm
  have hle : ∀ s ∈ runs, ∀ e, ((s.returnedTraces g).map Stats.traceEvent).count e ≤ (s.due env g).count e := by
    intro s hs
    obtain ⟨f₀, h, hover⟩ := hinv s hs
    exact h.reported_le hover
  rw [RunState.foldl_account]
  refine ⟨fun t op => (Accounts.count_init names _ t op).trans (hcounted _), ?_⟩
  rw [Accounts.right_iff, and_iff_right hcounted, Parts.count_eq_iff hle]
  refine forall₂_congr fun s hs => ?_
  obtain ⟨f₀, h, hover⟩ := hinv s hs
  exact h.reported_iff hover

end Cpp

/-! ## The Go engine -/

section Go
variable {σ ι : Type} {env : GoEnv σ ι} {g : Graph} {f₀ : σ} {s : GoRunState σ ι}

/-- What the scheduler counts for one node. -/
def GoRunState.tallyOf (env : GoEnv σ ι) (s : GoRunState σ ι) (v : Nat) : List (Tally × String) :=
  ((s.bodies v).exit?.bind GoExit.tally?).toList.map fun t => (t, (env.node v).op.name)

theorem GoRunInv.stats_perm (h : GoRunInv env g f₀ s) :
    s.stats.Perm ((List.range g.nodes.length).flatMap (s.tallyOf env)) := by
  have hlt : ∀ e ∈ s.log, e.1 < g.nodes.length := by
    intro e he
    have hmem : e ∈ s.log.filter fun e' => e'.1 = e.1 := List.mem_filter.mpr ⟨he, decide_eq_true rfl⟩
    rw [h.logged e.1] at hmem
    obtain ⟨x, hx, -⟩ := List.mem_map.mp hmem
    refine h.bound e.1 ?_
    rw [← h.exits e.1, Option.mem_toList.mp hx]
    rfl
  have hparts := (Parts.perm Prod.fst s.log g.nodes.length hlt).flatMap_right
    fun e => e.2.tally?.toList.map fun t => (t, (env.node e.1).op.name)
  rw [← h.stats, List.flatMap_assoc] at hparts
  refine hparts.trans (List.Perm.of_eq (List.flatMap_congr fun v _ => ?_))
  rw [h.logged v]
  unfold GoRunState.tallyOf
  cases (s.bodies v).exit? with
  | none => rfl
  | some x => exact List.append_nil _

theorem GoRunState.tallyOf_le (s : GoRunState σ ι) (v : Nat) (e : Tally × String) :
    (s.tallyOf env v).count e ≤ (s.dueOf env v).count e := by
  unfold tallyOf dueOf
  cases (s.bodies v).exit? with
  | none => exact Nat.le_refl _
  | some x =>
    cases x with
    | failed _ counted =>
      cases counted with
      | true => exact Nat.le_refl _
      | false => exact Nat.zero_le _
    | _ => exact Nat.le_refl _

/-- Only a failure that is not counted is missing. -/
theorem GoRunState.tallyOf_eq_iff (s : GoRunState σ ι) (v : Nat) :
    (∀ e, (s.tallyOf env v).count e = (s.dueOf env v).count e) ↔ ∀ e, (s.bodies v).exit? ≠ some (.failed e false) := by
  unfold tallyOf dueOf
  cases hx : (s.bodies v).exit? with
  | none => exact iff_of_true (fun _ => rfl) fun _ => nofun
  | some x =>
    cases x with
    | failed err counted =>
      cases counted with
      | true => exact iff_of_true (fun _ => rfl) fun _ => nofun
      | false =>
        refine iff_of_false (fun hcount => ?_) fun hno => hno err rfl
        exact absurd ((hcount (.failed, (env.node v).op.name)).trans (List.count_singleton_self ..)) nofun
    | _ => exact iff_of_true (fun _ => rfl) fun _ => nofun

theorem GoRunState.foldl_account (runs : List (GoRunState σ ι)) (acc : Accounts) :
    runs.foldl GoRunState.account acc =
      ⟨acc.stats.recordAll (runs.flatMap GoRunState.stats), acc.metrics.recordAll (runs.flatMap GoRunState.metrics)⟩ := by
  induction runs generalizing acc with
  | nil => rfl
  | cons s rest ih =>
    rw [List.foldl_cons, ih, List.flatMap_cons, List.flatMap_cons, Stats.recordAll_append, Stats.recordAll_append]
    rfl

theorem GoRunReachable.account_iff {runs : List (GoRunState σ ι)} (names : List String)
    (hruns : ∀ s ∈ runs, ∃ f₀, GoRunReachable env g f₀ s) :
    (∀ t op, (runs.foldl GoRunState.account (.init names)).stats.count t op =
        (runs.foldl GoRunState.account (.init names)).metrics.count t op) ∧
      ((runs.foldl GoRunState.account (.init names)).Right (runs.flatMap (GoRunState.due env g)) ↔
        ∀ s ∈ runs, ∀ v < g.nodes.length, ∀ e, (s.bodies v).exit? ≠ some (.failed e false)) := by
  have hmetrics : runs.flatMap GoRunState.metrics = runs.flatMap GoRunState.stats := by
    refine List.flatMap_congr fun s hs => ?_
    obtain ⟨f₀, hr⟩ := hruns s hs
    exact (GoRunInv.reachable hr).metrics
  have hstats : ∀ s ∈ runs, ∀ e, s.stats.count e = ((List.range g.nodes.length).flatMap (s.tallyOf env)).count e := by
    intro s hs e
    obtain ⟨f₀, hr⟩ := hruns s hs
    exact (GoRunInv.reachable hr).stats_perm.count_eq e
  have hle : ∀ s ∈ runs, ∀ e, s.stats.count e ≤ (s.due env g).count e := by
    intro s hs e
    rw [hstats s hs e]
    exact Parts.count_le (fun v _ => s.tallyOf_le v) e
  rw [GoRunState.foldl_account, hmetrics]
  refine ⟨fun t op => rfl, ?_⟩
  rw [Accounts.right_iff, and_self, Parts.count_eq_iff hle]
  refine forall₂_congr fun s hs => ?_
  simp only [hstats s hs]
  refine (Parts.count_eq_iff fun v _ => s.tallyOf_le v).trans ?_
  simp only [List.mem_range]
  exact forall₂_congr fun v _ => s.tallyOf_eq_iff v

end Go

/-! ## Both engines -/

/-- Over any finished requests of an engine, what is counted is right exactly when, in C++, no request in which an
operator was dispatched left another one failed or passed over, or dispatched one without a name, and, in Go, no
operator failed before it was executed. -/
theorem counts_right_iff {config : Config} {expanded : ExpandedSequence} {g : Graph}
    (hg : buildDag config expanded = .ok g) :
    (∀ {σ : Type} (env : RunEnv σ) (pool : Bool) (poolSize : Nat) (runs : List (RunState σ)),
      (∀ s ∈ runs, ∃ f₀, RunReachable env g pool poolSize f₀ s ∧ s.sched.mainReturned = true) →
      (∀ t op, (runs.foldl (RunState.account g) (.init expanded.sequence)).metrics.count t op =
        (runs.flatMap (RunState.due env g)).count (t, op)) ∧
      ((runs.foldl (RunState.account g) (.init expanded.sequence)).Right (runs.flatMap (RunState.due env g)) ↔
        ∀ s ∈ runs, ∀ v < g.nodes.length, s.exits v ≠ some .passed →
          (env.node v).op.name ≠ "" ∧ ∀ w < g.nodes.length, s.exits w = some .completed)) ∧
    ∀ {σ ι : Type} (env : GoEnv σ ι) (runs : List (GoRunState σ ι)), (∀ s ∈ runs, ∃ f₀, GoRunReachable env g f₀ s) →
      (∀ t op, (runs.foldl GoRunState.account (.init expanded.sequence)).stats.count t op =
        (runs.foldl GoRunState.account (.init expanded.sequence)).metrics.count t op) ∧
      ((runs.foldl GoRunState.account (.init expanded.sequence)).Right (runs.flatMap (GoRunState.due env g)) ↔
        ∀ s ∈ runs, ∀ v < g.nodes.length, ∀ e, (s.bodies v).exit? ≠ some (.failed e false)) := by
  refine ⟨?_, ?_⟩
  · intro σ env pool poolSize runs hruns
    exact RunReachable.account_iff expanded.sequence (buildDag_spec hg).inv hruns
  · intro σ ι env runs hruns
    exact GoRunReachable.account_iff expanded.sequence hruns

/-- Two requests that execute one operator each, in either engine. -/
theorem counts_right_iff_twice :
    (∃ s, RunReachable (Lone.rowEnv ⟨{}, none⟩) Lone.graph false 0 Lone.noRows s ∧ s.sched.mainReturned = true ∧
      ([s, s].foldl (RunState.account Lone.graph) (.init ["a"])).Right [(.executed, "a"), (.executed, "a")]) ∧
    ∃ s, GoRunReachable Lone.goEnv Lone.graph () s ∧ s.returned = true ∧
      ([s, s].foldl GoRunState.account (.init ["a"])).Right [(.executed, "a"), (.executed, "a")] := by
  obtain ⟨hcpp, hgo⟩ := counts_right_iff Lone.buildDag_config
  refine ⟨?_, ?_⟩
  · obtain ⟨s, hr, hret, hbody, hexit, -⟩ := Lone.returns Lone.applies (Or.inl trivial)
    have hright := (hcpp (Lone.rowEnv ⟨{}, none⟩) false 0 [s, s] fun s' hs => by
      obtain rfl : s' = s := by simpa using hs
      exact ⟨Lone.noRows, hr, hret⟩).2
    have hdue : s.due (Lone.rowEnv ⟨{}, none⟩) Lone.graph = [(.executed, "a")] := by
      show ((s.bodies 0).entryAt 0).toList.map (fun e => (e.tally, "a")) ++ [] = _
      rw [hbody]
      rfl
    refine ⟨s, hr, hret, ?_⟩
    rw [List.flatMap_cons, List.flatMap_singleton, hdue] at hright
    have hname : "a" ≠ "" := by decide
    refine hright.mpr fun s' hs v hv _ => ⟨hname, fun w hw => ?_⟩
    obtain rfl : s' = s := by simpa using hs
    obtain rfl := Nat.lt_one_iff.mp hw
    exact hexit trivial
  · obtain ⟨s, hr, hret, hbody⟩ := Lone.go_returns
    have hright := (hgo Lone.goEnv [s, s] fun s' hs => by
      obtain rfl : s' = s := by simpa using hs
      exact ⟨(), hr⟩).2
    have hdue : s.due Lone.goEnv Lone.graph = [(.executed, "a")] := by
      show ((s.bodies 0).exit?.bind GoExit.class?).toList.map (fun t => (t, "a")) ++ [] = _
      rw [hbody]
      rfl
    refine ⟨s, hr, hret, ?_⟩
    rw [List.flatMap_cons, List.flatMap_singleton, hdue] at hright
    refine hright.mpr fun s' hs v hv e => ?_
    obtain rfl : s' = s := by simpa using hs
    obtain rfl := Nat.lt_one_iff.mp hv
    rw [hbody]
    exact nofun

/-- A request whose operator throws is in the engine's metrics and not in what `/stats` reports. -/
theorem failed_request_not_in_stats :
    let env := Lone.rowEnv ⟨{}, some (.std "boom")⟩
    ∃ s, RunReachable env Lone.graph false 0 Lone.noRows s ∧ s.sched.mainReturned = true ∧
      s.due env Lone.graph = [(.failed, "a")] ∧
      ([s].foldl (RunState.account Lone.graph) (.init ["a"])).stats.count .failed "a" = 0 ∧
      ¬ ([s].foldl (RunState.account Lone.graph) (.init ["a"])).Right (s.due env Lone.graph) := by
  intro env
  have hfailed : Lone.BodySteps env (Lone.noRows, .entered) (Lone.noRows, .failed (.panic "a" "boom")) :=
    (Lone.ready _).step (@BodyStep.serialFails _ env (env.node 0) false Lone.noRows ∅ _ {} (Or.inl Int.one_nonneg)
      (.throws (t := .std "boom") rfl rfl))
  obtain ⟨s, hr, hret, hbody, -, hfatal⟩ := Lone.returns hfailed (Or.inr ⟨_, rfl⟩)
  have hdue : s.due env Lone.graph = [(.failed, "a")] := by
    show ((s.bodies 0).entryAt 0).toList.map (fun e => (e.tally, "a")) ++ [] = _
    rw [hbody]
    rfl
  have htraces : s.returnedTraces Lone.graph = [] := by
    refine if_neg fun hs => ?_
    unfold RunState.flags Flags.verdict at hs
    rw [hfatal _ rfl] at hs
    exact absurd hs nofun
  have hstats : ([s].foldl (RunState.account Lone.graph) (.init ["a"])).stats.count .failed "a" = 0 := by
    rw [RunState.foldl_account, List.flatMap_singleton, htraces]
    exact Stats.count_preInit {} ["a"] .failed "a"
  refine ⟨s, hr, hret, hdue, hstats, fun hright => ?_⟩
  have := hright.stats .failed "a"
  rw [hstats, hdue] at this
  exact absurd this nofun

end Pineapple
