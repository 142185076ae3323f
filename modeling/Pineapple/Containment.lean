import Mathlib.Algebra.Order.BigOperators.Group.Finset
import Pineapple.Lib.Inevitable
import Pineapple.RunVerdict

/-! # Failures stay inside a run (`parallel.go`, `scheduler.go`, `engine.cpp`)

Whatever the operators do, a Go run comes to its end: each goroutine has only so much to do, and the first one in
the order of the graph that has not closed its channel can always move. Only a shard's output that cannot be merged
takes the process down. -/

namespace Pineapple
open FanOut

/-! ## The work that is left -/

def ShardPhase.left : ShardPhase → Nat
  | .waiting => 2
  | .running => 1
  | .passed | .done _ | .failed => 0

def Shards.left {ε : Type} (sh : Shards ε) : Nat := (sh.shards.map fun e => e.2.left).sum

theorem sum_modify_lt {α : Type} (m : α → Nat) (f : α → α) {l : List α} {k : Nat} {a : α} (hk : l[k]? = some a)
    (hlt : m (f a) < m a) : ((l.modify k f).map m).sum < (l.map m).sum := by
  induction l generalizing k with
  | nil => cases hk
  | cons x rest ih =>
    cases k with
    | zero =>
      cases hk
      simpa using hlt
    | succ k =>
      have := ih (k := k) (by simpa using hk)
      simpa using this

theorem Shards.left_set {ε : Type} {sh : Shards ε} {k : Nat} {w : Window} {phase phase' : ShardPhase}
    (hk : sh.shards[k]? = some (w, phase)) (hlt : phase'.left < phase.left) : (sh.set k phase').left < sh.left :=
  sum_modify_lt (fun e : Window × ShardPhase => e.2.left) (fun e => (e.1, phase')) hk hlt

theorem Shards.left_fail {ε : Type} (sh : Shards ε) (e : ε) : (sh.fail e).left = sh.left := by
  unfold Shards.fail
  split <;> rfl

theorem ShardStep.left_lt {ε : Type} {dispatch : Window → Outcome ε OperatorOutput → Prop} {cancelled : Bool}
    {sh sh' : Shards ε} (h : ShardStep dispatch cancelled sh sh') : sh'.left < sh.left := by
  cases h with
  | pass hk _ => exact Shards.left_set hk (by decide)
  | start hk _ => exact Shards.left_set hk (by decide)
  | done hk _ => exact Shards.left_set hk Nat.zero_lt_one
  | fail hk _ =>
    rw [Shards.left_fail]
    exact Shards.left_set hk Nat.zero_lt_one

theorem Shards.left_start {ε : Type} (windows : List Window) : (Shards.start windows : Shards ε).left = 2 * windows.length := by
  unfold left start
  rw [List.map_map]
  induction windows with
  | nil => rfl
  | cons w rest ih =>
    rw [List.map_cons, List.sum_cons, ih, List.length_cons]
    show 2 + _ = _
    omega

theorem length_windowsFrom (cursor : Nat) (sizes : List Nat) : (windowsFrom cursor sizes).length = sizes.length := by
  induction sizes generalizing cursor with
  | nil => rfl
  | cons size rest ih => exact congrArg (· + 1) (ih _)

theorem length_shardWindows_le (n total : Nat) : (shardWindows n total).length ≤ n := by
  unfold shardWindows shardSizes
  rw [length_windowsFrom, List.length_map, List.length_range]
  exact Nat.min_le_left _ _

variable {σ ι : Type}

/-- How many steps a goroutine has before it, at most. -/
def GoBody.left (p : NodePlan) : GoBody ι → Nat
  | .waiting preds => preds.length + 2 * p.op.dataParallel.toNat + 11
  | .entered => 2 * p.op.dataParallel.toNat + 10
  | .building => 2 * p.op.dataParallel.toNat + 9
  | .resolving _ => 2 * p.op.dataParallel.toNat + 8
  | .ready _ _ => 2 * p.op.dataParallel.toNat + 7
  | .sharding _ _ sh => sh.left + 6
  | .executed _ => 5
  | .produced _ => 4
  | .leaving _ => 1
  | .closed _ => 0

theorem GoBodyStep.left_lt {env : GoEnv σ ι} {p : NodePlan} {cancelled : Bool} {closed : Nat → Bool} {f f' : σ}
    {b b' : GoBody ι} (h : GoBodyStep env p cancelled closed f b f' b') : b'.left p < b.left p := by
  cases h with
  | await _ =>
    simp only [GoBody.left, List.length_cons]
    omega
  | @fork input _ hdp _ =>
    have hlen := length_shardWindows_le p.op.dataParallel.toNat (env.itemCount input)
    simp only [GoBody.left, Shards.left_start]
    omega
  | shard hs =>
    have hlt := hs.left_lt
    simp only [GoBody.left]
    omega
  | _ =>
    simp only [GoBody.left]
    omega

namespace GoRunState

/-- Every step but a caller's second cancellation lowers it. -/
def left (env : GoEnv σ ι) (g : Graph) (s : GoRunState σ ι) : Nat :=
  ∑ i ∈ Finset.range g.nodes.length, (s.bodies i).left (env.node i) +
    (if s.flags.cancelled && s.flags.callerDone then 0 else 1) + if s.returned then 0 else 1

end GoRunState

/-- A step that changes something. -/
def GoRunMove (env : GoEnv σ ι) (g : Graph) (s s' : GoRunState σ ι) : Prop := GoRunStep env g s s' ∧ s' ≠ s

namespace GoRunState
variable {env : GoEnv σ ι} {g : Graph} {s : GoRunState σ ι}

/-- The goroutine `i` has less to do, and nothing else has more. -/
theorem left_lt {s' : GoRunState σ ι} {i : Nat} {b : GoBody ι} (hi : i < g.nodes.length)
    (hb : s'.bodies = Function.update s.bodies i b) (hlt : b.left (env.node i) < (s.bodies i).left (env.node i))
    (hflags : (s.flags.cancelled && s.flags.callerDone) = true → (s'.flags.cancelled && s'.flags.callerDone) = true)
    (hret : s'.returned = s.returned) : s'.left env g < s.left env g := by
  have hsum : ∑ j ∈ Finset.range g.nodes.length, (s'.bodies j).left (env.node j) <
      ∑ j ∈ Finset.range g.nodes.length, (s.bodies j).left (env.node j) := by
    refine Finset.sum_lt_sum (fun j _ => ?_) ⟨i, Finset.mem_range.mpr hi, ?_⟩
    · rw [hb]
      by_cases hj : j = i
      · subst hj
        rw [Function.update_self]
        exact hlt.le
      · rw [Function.update_of_ne hj]
    · rw [hb, Function.update_self]
      exact hlt
  have hcancel : (if s'.flags.cancelled && s'.flags.callerDone then 0 else 1) ≤
      if s.flags.cancelled && s.flags.callerDone then 0 else 1 := by
    split
    · exact Nat.zero_le _
    · next hn =>
      rw [if_neg fun h => hn (hflags h)]
  unfold left
  rw [hret]
  omega

theorem leave_cancelled {fl : Flags Nat} {i : Nat} {x : GoExit} (h : (fl.cancelled && fl.callerDone) = true) :
    ((leave fl i x).cancelled && (leave fl i x).callerDone) = true := by
  cases x with
  | failed e counted =>
    show ((fl.fail i).cancelled && (fl.fail i).callerDone) = true
    unfold Flags.fail
    split
    · exact (Bool.and_eq_true_iff.mp h).2
    · exact h
  | _ => exact h

end GoRunState

namespace GoRunMove
variable {env : GoEnv σ ι} {g : Graph} {f₀ : σ} {s s' : GoRunState σ ι}

theorem left_lt (hr : GoRunReachable env g f₀ s) (hcrashed : s'.crashed = false) (hret : s.returned = false)
    (h : GoRunMove env g s s') : s'.left env g < s.left env g := by
  obtain ⟨hstep, hne⟩ := h
  cases hstep with
  | move _ hi _ hs => exact GoRunState.left_lt hi rfl hs.left_lt id rfl
  | leave _ hi hs => exact GoRunState.left_lt hi rfl hs.left_lt GoRunState.leave_cancelled rfl
  | @close i x _ hx =>
    have hinv := GoRunInv.reachable hr
    have hi : i < g.nodes.length := hinv.bound i (by rw [← hinv.exits i, hx]; rfl)
    refine GoRunState.left_lt hi rfl ?_ id rfl
    rw [hx]
    exact Nat.zero_lt_one
  | crash => cases hcrashed
  | cancel =>
    have hold : (s.flags.cancelled && s.flags.callerDone) = false := by
      refine Bool.eq_false_iff.mpr fun hold => hne ?_
      obtain ⟨hcancelled, hcaller⟩ := Bool.and_eq_true_iff.mp hold
      obtain ⟨frame, bodies, ⟨cancelled, notRun, callerDone, first⟩, exits, crashed, returned, log, stats, metrics,
        traces⟩ := s
      dsimp only at hcancelled hcaller
      subst hcancelled hcaller
      rfl
    unfold GoRunState.left
    simp [Flags.cancel, hold]
  | wait _ _ =>
    unfold GoRunState.left
    simp [hret]

end GoRunMove

/-! ## Somebody can move -/

/-- Operators come to an end, one way or another. -/
def GoEnv.Ends (env : GoEnv σ ι) (p : NodePlan) : Prop := ∀ input resolved, ∃ att, env.exec p.op input resolved att

theorem GoEnv.Ends.dispatches {env : GoEnv σ ι} {p : NodePlan} (h : env.Ends p) (resolved : Row) (input : ι) :
    ∃ res, env.Dispatches p resolved input res := by
  obtain ⟨att, hexec⟩ := h input resolved
  exact ⟨_, .intro hexec⟩

/-- Shards that are not over can move. -/
theorem Shards.progress {ε : Type} {dispatch : Window → Outcome ε OperatorOutput → Prop} {sh : Shards ε}
    (hd : ∀ w, ∃ res, dispatch w res) (cancelled : Bool) : sh.Over ∨ ∃ sh', ShardStep dispatch cancelled sh sh' := by
  by_cases hover : sh.Over
  · exact .inl hover
  · refine .inr ?_
    unfold Shards.Over at hover
    push Not at hover
    obtain ⟨⟨w, phase⟩, hmem, hphase⟩ := hover
    obtain ⟨k, hk⟩ := List.getElem?_of_mem hmem
    cases phase with
    | waiting =>
      cases hc : sh.cancelled || cancelled with
      | true => exact ⟨_, .pass hk hc⟩
      | false => exact ⟨_, .start hk hc⟩
    | running =>
      obtain ⟨res, hres⟩ := hd w
      cases res with
      | ok out => exact ⟨_, .done hk hres⟩
      | fail e out => exact ⟨_, .fail hk hres⟩
    | passed | done _ | failed => exact absurd (hphase nofun) nofun

/-- A goroutine that has not left, and that is not waiting for a channel, can move. -/
theorem GoBody.progress {env : GoEnv σ ι} {p : NodePlan} {b : GoBody ι} (hends : env.Ends p) (hsafe : env.ShardSafe p)
    (hb : GoBodyInv env p b) (cancelled : Bool) {closed : Nat → Bool}
    (hwait : ∀ v rest, b = .waiting (v :: rest) → closed v = true) (hunder : b.exit? = none) (f : σ) :
    ∃ f' b', GoBodyStep env p cancelled closed f b f' b' := by
  cases b with
  | waiting preds =>
    cases preds with
    | nil =>
      cases hc : cancelled with
      | true => exact ⟨_, _, .pass rfl⟩
      | false => exact ⟨_, _, .enter rfl⟩
    | cons v rest => exact ⟨_, _, .await (hwait v rest rfl)⟩
  | entered =>
    cases hs : env.shouldSkip p f with
    | true => exact ⟨_, _, .skip hs⟩
    | false => exact ⟨_, _, .goOn hs⟩
  | building =>
    cases hbuild : env.buildInput f p.spec with
    | ok input => exact ⟨_, _, .build hbuild⟩
    | error msg => exact ⟨_, _, .buildFails hbuild⟩
  | resolving input =>
    cases hr : env.resolve f p.template with
    | ok r => exact ⟨_, _, .resolve hr⟩
    | error msg => exact ⟨_, _, .resolveFails hr⟩
  | ready input r =>
    by_cases hserial : p.op.dataParallel ≤ 1 ∨ env.itemCount input ≤ 1
    · obtain ⟨res, hres⟩ := hends.dispatches r input
      exact ⟨_, _, .serial hserial hres⟩
    · rw [not_or, Int.not_le, Nat.not_le] at hserial
      exact ⟨_, _, .fork hserial.1 hserial.2⟩
  | sharding input r sh =>
    rcases Shards.progress (fun w => hends.dispatches r (env.shard input w)) cancelled with hover | ⟨sh', hs⟩
    · cases herr : sh.firstErr with
      | some e => exact ⟨_, _, .joinFails hover herr⟩
      | none =>
        cases hskip : sh.skipped with
        | true => exact ⟨_, _, @GoBodyStep.joinSkipped _ _ _ _ _ _ _ _ _ _ false hover herr hskip⟩
        | false =>
          cases hm : mergeShards p.op.name sh.outputs with
          | ok out => exact ⟨_, _, .join hover herr hskip hm⟩
          | fail e out => exact absurd hm (mergeShards_mergeable (hb.mergeable hsafe hover herr hskip))
    · exact ⟨_, _, .shard hs⟩
  | executed res =>
    cases res with
    | fail e out => exact ⟨_, _, .executeFails⟩
    | ok out =>
      cases hgate : goGateError p out with
      | some msg => exact ⟨_, _, .gateFails hgate⟩
      | none => exact ⟨_, _, .gate hgate⟩
  | produced out =>
    cases happly : env.apply out p.op.name p.op.recall f with
    | ok f' => exact ⟨_, _, .apply happly⟩
    | fail msg f' => exact ⟨_, _, .applyFails happly⟩
  | leaving x | closed x => cases hunder

section Run
variable {env : GoEnv σ ι} {g : Graph} {f₀ : σ} {s : GoRunState σ ι}

/-- A goroutine waits for predecessors of its own. -/
theorem GoRunReachable.waiting (hr : GoRunReachable env g f₀ s) :
    ∀ i rest, s.bodies i = .waiting rest → rest <:+ g.preds i := by
  induction hr with
  | refl =>
    intro i rest h
    cases h
    exact List.suffix_rfl
  | @tail t t' _ hstep ih =>
    intro j rest h
    cases hstep with
    | @move i f b _ _ _ hs =>
      change Function.update t.bodies i b j = .waiting rest at h
      by_cases hj : j = i
      · subst hj
        rw [Function.update_self] at h
        subst h
        generalize hbody : t.bodies j = b at hs
        cases hs with
        | await _ => exact (List.suffix_cons ..).trans (ih j _ hbody)
      · rw [Function.update_of_ne hj] at h
        exact ih j rest h
    | @leave i f x _ _ _ =>
      change Function.update t.bodies i (.leaving x) j = .waiting rest at h
      by_cases hj : j = i
      · subst hj
        rw [Function.update_self] at h
        cases h
      · rw [Function.update_of_ne hj] at h
        exact ih j rest h
    | @close i x _ _ =>
      change Function.update t.bodies i (.closed x) j = .waiting rest at h
      by_cases hj : j = i
      · subst hj
        rw [Function.update_self] at h
        cases h
      · rw [Function.update_of_ne hj] at h
        exact ih j rest h
    | crash _ _ _ _ _ _ _ => exact ih j rest h
    | cancel => exact ih j rest h
    | wait _ _ => exact ih j rest h

theorem isClosed_of_exit {b : GoBody ι} {x : GoExit} (h : b.exit? = some x) : b = .leaving x ∨ b = .closed x := by
  cases b with
  | leaving y =>
    cases h
    exact .inl rfl
  | closed y =>
    cases h
    exact .inr rfl
  | _ => cases h

theorem GoRunMove.of_body {s' : GoRunState σ ι} (h : GoRunStep env g s s') (i : Nat) (hb : s'.bodies i ≠ s.bodies i) :
    GoRunMove env g s s' := ⟨h, fun heq => hb (congrArg (·.bodies i) heq)⟩

/-- As long as the run has not returned, somebody can move. -/
theorem GoRunReachable.progress (hg : GraphInv g) (hr : GoRunReachable env g f₀ s)
    (hends : ∀ v < g.nodes.length, env.Ends (env.node v)) (hsafe : ∀ v < g.nodes.length, env.ShardSafe (env.node v))
    (hret : s.returned = false) : ∃ s', GoRunMove env g s s' := by
  have hcrashed := hr.not_crashed hsafe
  by_cases hall : ∀ i < g.nodes.length, s.isClosed i = true
  · refine ⟨_, .wait hcrashed hall, fun heq => ?_⟩
    rw [← heq] at hret
    cases hret
  · -- the first goroutine that has not closed its channel: those it waits for have closed theirs
    push Not at hall
    obtain ⟨i, ⟨hi, hopen⟩, hfirst⟩ := Nat.lt_wfRel.wf.has_min {i | i < g.nodes.length ∧ s.isClosed i ≠ true} hall
    cases hexit : (s.bodies i).exit? with
    | some x =>
      rcases isClosed_of_exit hexit with hx | hx
      · refine ⟨_, .of_body (.close hcrashed hx) i ?_⟩
        change Function.update s.bodies i (.closed x) i ≠ s.bodies i
        rw [Function.update_self, hx]
        exact nofun
      · exact absurd (by rw [GoRunState.isClosed, hx]; rfl) hopen
    | none =>
      have hwait : ∀ v rest, s.bodies i = .waiting (v :: rest) → s.isClosed v = true := by
        intro v rest hbody
        have hpred : v ∈ g.preds i := (hr.waiting i _ hbody).subset List.mem_cons_self
        have hlt : v < i := (hg.forward v i ((hg.dual v i).mp hpred)).1
        by_contra hv
        exact hfirst v ⟨hlt.trans hi, hv⟩ hlt
      obtain ⟨f', b', hs⟩ := GoBody.progress (hends i hi) (hsafe i hi) ((GoRunInv.reachable hr).body i)
        s.flags.cancelled hwait hexit s.frame
      have hne : b' ≠ s.bodies i := fun heq => absurd hs.left_lt (by rw [heq]; exact Nat.lt_irrefl _)
      cases hb' : b'.exit? with
      | none =>
        refine ⟨_, .of_body (.move hcrashed hi hb' hs) i ?_⟩
        change Function.update s.bodies i b' i ≠ s.bodies i
        rwa [Function.update_self]
      | some x =>
        rcases isClosed_of_exit hb' with rfl | rfl
        · refine ⟨_, .of_body (.leave hcrashed hi hs) i ?_⟩
          change Function.update s.bodies i (.leaving x) i ≠ s.bodies i
          rwa [Function.update_self]
        · generalize s.bodies i = b at hs
          cases hs

/-- A run returns, whatever order its goroutines move in. -/
theorem GoRunReachable.returns (hg : GraphInv g) (hr : GoRunReachable env g f₀ s)
    (hends : ∀ v < g.nodes.length, env.Ends (env.node v)) (hsafe : ∀ v < g.nodes.length, env.ShardSafe (env.node v)) :
    Inevitably (GoRunMove env g) (fun s => s.returned = true) s := by
  refine Inevitably.of_measure (I := GoRunReachable env g f₀) (GoRunState.left env g) (fun a b ha hp hab => ?_)
    (fun a ha hp => ha.progress hg hends hsafe (Bool.eq_false_iff.mpr hp)) hr
  have hb : GoRunReachable env g f₀ b := ha.tail hab.1
  exact ⟨hb, hab.left_lt ha (hb.not_crashed hsafe) (Bool.eq_false_iff.mpr hp)⟩

end Run

/-! ## What is reported -/

/-- The error is the caller's cancellation, or that of an operator of the plan under its name. -/
def Reported (n : Nat) (name : Nat → String) (failed : Nat → PineError → Prop) (callerDone : Prop)
    (err : Option PineError) : Prop :=
  ∀ e, err = some e → ((∃ d, e = .cancelled d) ∧ callerDone) ∨ ∃ v < n, failed v e ∧ e.Names (name v)

theorem RunEnds.reported {n : Nat} {name : Nat → String} {settled notRun : Nat → Prop} {failed : Nat → PineError → Prop}
    {callerDone : Prop} {err : Option PineError} (h : RunEnds n name settled notRun failed callerDone err) :
    Reported n name failed callerDone err := by
  intro e he
  by_cases hc : ∃ d, e = .cancelled d
  · obtain ⟨d, rfl⟩ := hc
    exact .inl ⟨⟨d, rfl⟩, h.caller ⟨d, he⟩⟩
  · exact .inr (h.failed e he fun d hd => hc ⟨d, hd⟩)

/-- A panic, an exception that is not the engine's own and a shard's output that cannot be merged are `PanicError`s
of the operator. -/
structure PanicsReported (op : String) : Prop where
  panicked : ∀ (att : GoAttempt) (value : String), att.ended = .panicked value →
    ∃ e out, att.recovered op = .fail e out ∧ e.fatal op = .panic op value
  std : ∀ what, dispatchError op (.std what) = .panic op what
  other : ∃ value, dispatchError op .other = .panic op value
  shard : ∀ (offset : Nat) (src dst : OperatorOutput), ¬src.Mergeable →
    ∃ value, mergeShardOutput op offset src dst = .fail (.panic op value) dst

theorem panicsReported (op : String) : PanicsReported op where
  panicked att value h := by
    unfold GoAttempt.recovered
    rw [h]
    exact ⟨_, _, rfl, rfl⟩
  std _ := rfl
  other := ⟨_, rfl⟩
  shard offset src dst h := by
    unfold mergeShardOutput
    split
    · exact ⟨_, rfl⟩
    · next hcalls =>
      refine (h ?_).elim
      simpa [OperatorOutput.Mergeable, and_assoc] using hcalls

/-- What a run of `run_dag` reports. -/
def RunState.Reports (env : RunEnv σ) (g : Graph) (s : RunState σ) (d : Bool) : Prop :=
  Reported g.nodes.length (fun v => (env.node v).op.name) (fun v e => s.exits v = some .failed ∧ s.errorOf v = some e)
    (s.callerDone = true) (s.error? d)

/-- What a run of `Run` reports. -/
def GoRunState.Reports (env : GoEnv σ ι) (g : Graph) (s : GoRunState σ ι) (d : Bool) : Prop :=
  Reported g.nodes.length (fun v => (env.node v).op.name) (fun v e => s.exits v = some .failed ∧ s.errorOf v = some e)
    (s.flags.callerDone = true) (s.error? d)

namespace Sharded

def op : OperatorConfig := { name := "a", operatorType := "transform", dataParallel := 2 }

def config : Config := { operators := SortedMap.ofList [("a", op)] }

def graph : Graph where
  nodes := [{ name := "a", subflow := "", config := op }]
  nameToIndex := SortedMap.ofList [("a", 0)]

theorem buildDag_config : buildDag config { sequence := ["a"] } = .ok graph := by decide +kernel

/-- Two items, and an operator that always writes a common field. -/
def env : GoEnv Unit Unit where
  common _ _ := none
  buildInput _ _ := .ok ()
  itemCount _ := 2
  shard _ _ := ()
  resolve _ _ := .ok ∅
  apply _ _ _ _ := .ok ()
  node _ := { op }
  exec _ _ _ att := att = ⟨{ commonWrites := SortedMap.ofList [("x", .null)] }, .ok⟩

/-- The goroutine has come to `b` before anything was cancelled. -/
def At (b : GoBody Unit) : Prop :=
  ∃ s, GoRunReachable env graph () s ∧ s.crashed = false ∧ s.flags.cancelled = false ∧ s.bodies 0 = b

theorem At.move {b b' : GoBody Unit} (h : At b)
    (hstep : ∀ closed, GoBodyStep env (env.node 0) false closed () b () b') (hb : b'.exit? = none) : At b' := by
  obtain ⟨s, hr, hcrashed, hcancelled, rfl⟩ := h
  refine ⟨s.move 0 () b', hr.tail (.move hcrashed Nat.zero_lt_one hb ?_), hcrashed, hcancelled, ?_⟩
  · rw [hcancelled]
    exact hstep _
  · show Function.update s.bodies 0 b' 0 = b'
    exact Function.update_self ..

def out : OperatorOutput := { commonWrites := SortedMap.ofList [("x", .null)] }

def shards (first second : ShardPhase) : Shards GoError := { shards := [(⟨0, 1⟩, first), (⟨1, 1⟩, second)] }

theorem At.shard {sh sh' : Shards GoError} (h : At (.sharding () ∅ sh))
    (hstep : ShardStep (fun w => env.Dispatches (env.node 0) ∅ (env.shard () w)) false sh sh') :
    At (.sharding () ∅ sh') :=
  h.move (fun _ => .shard hstep) rfl

theorem dispatches (w : Window) : env.Dispatches (env.node 0) ∅ (env.shard () w) (.ok out) :=
  @GoEnv.Dispatches.intro _ _ env (env.node 0) ∅ () ⟨out, .ok⟩ rfl

theorem crashes : ∃ s, GoRunReachable env graph () s ∧ s.crashed = true := by
  have hstart : At (.waiting []) := ⟨_, .refl, rfl, rfl, rfl⟩
  have hready : At (.ready () ∅) := (((hstart.move (fun _ => .enter rfl) rfl).move (fun _ => .goOn rfl) rfl).move
    (fun _ => .build rfl) rfl).move (fun _ => .resolve rfl) rfl
  have hforked : At (.sharding () ∅ (shards .waiting .waiting)) :=
    hready.move (fun _ => @GoBodyStep.fork _ _ env (env.node 0) _ _ () () ∅ (by decide) (by decide)) rfl
  have hfirst : At (.sharding () ∅ (shards (.done out) .waiting)) :=
    (hforked.shard (.start (k := 0) rfl rfl)).shard (.done (k := 0) rfl (dispatches _))
  have hover : At (.sharding () ∅ (shards (.done out) (.done out))) :=
    (hfirst.shard (.start (k := 1) rfl rfl)).shard (.done (k := 1) rfl (dispatches _))
  obtain ⟨s, hr, hcrashed, -, hbody⟩ := hover
  refine ⟨_, hr.tail (.crash hcrashed Nat.zero_lt_one hbody (fun e he => ?_) rfl rfl rfl), rfl⟩
  rcases List.mem_pair.mp he with rfl | rfl <;> exact ⟨nofun, nofun⟩

end Sharded

end Pineapple
