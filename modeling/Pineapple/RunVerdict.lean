import Pineapple.DagBuild
import Pineapple.GoRunInv
import Pineapple.RunDagInv

/-! # How a run ends (`run_dag`, `Run`)

A run that returns without an error has settled every operator. A cancelled one has failed none, and any other
error names an operator that failed, as long as the operators' own errors do and, in Go, no shard's output
takes the process down. -/

namespace Pineapple
open FanOut Relation

/-- What the end of a run owes its caller, given its error. -/
structure RunEnds (n : Nat) (name : Nat → String) (settled notRun : Nat → Prop) (failed : Nat → PineError → Prop)
    (callerDone : Prop) (err : Option PineError) : Prop where
  success : err = none → ∀ v < n, settled v
  cancelled : (∃ d, err = some (.cancelled d)) ↔ (∀ v < n, ∀ e, ¬ failed v e) ∧ ∃ v < n, notRun v
  caller : (∃ d, err = some (.cancelled d)) → callerDone
  failed : ∀ e, err = some e → (∀ d, e ≠ .cancelled d) → ∃ v < n, failed v e ∧ e.Names (name v)

theorem PineError.Names.ne_cancelled {e : PineError} {op : String} (h : e.Names op) (d : Bool) : e ≠ .cancelled d := by
  rcases h with ⟨_, rfl⟩ | ⟨_, rfl⟩ <;> exact nofun

/-- The verdict of flags that fit, where every task is over and every failure's error is known by name. -/
theorem runEnds_of_fits {n : Nat} {name : Nat → String} {settled : Nat → Prop} {error : Nat → Option PineError}
    {fl : Flags Nat} {exit : Nat → Option Exit} {err : Option PineError} {d : Bool} (hfits : Fits fl exit)
    (hbound : ∀ v, (exit v).isSome = true → v < n) (hover : ∀ v < n, (exit v).isSome = true)
    (hsettled : ∀ v < n, exit v = some .completed → settled v)
    (herror : ∀ v, exit v = some .failed → ∃ e, error v = some e ∧ e.Names (name v))
    (herr : err = match fl.verdict with
      | .success => none
      | .cancelled => some (.cancelled d)
      | .failed v => error v) :
    RunEnds n name settled (fun v => exit v = some .passed) (fun v e => exit v = some .failed ∧ error v = some e)
      (fl.callerDone = true) err := by
  have hfailed : ∀ v, fl.verdict = .failed v → ∃ e, err = some e ∧ v < n ∧ exit v = some .failed ∧ error v = some e ∧
      e.Names (name v) := by
    intro v hv
    have hexit := hfits.failed hv
    obtain ⟨e, he, hnames⟩ := herror v hexit
    rw [hv] at herr
    exact ⟨e, herr.trans he, hbound v (by rw [hexit]; rfl), hexit, he, hnames⟩
  have hcancelled : (∃ d, err = some (.cancelled d)) ↔ fl.verdict = .cancelled := by
    constructor
    · rintro ⟨d', hd⟩
      cases hv : fl.verdict with
      | success =>
        rw [hv] at herr
        rw [herr] at hd
        exact absurd hd nofun
      | cancelled => rfl
      | failed v =>
        obtain ⟨e, he, -, -, -, hnames⟩ := hfailed v hv
        exact absurd (Option.some.inj (he.symm.trans hd)) (hnames.ne_cancelled d')
    · intro hv
      rw [hv] at herr
      exact ⟨d, herr⟩
  refine ⟨fun hnone v hv => ?_, hcancelled.trans (hfits.cancelled_iff.trans (and_congr ?_ ?_)),
    fun hc => hfits.callerDone (hcancelled.mp hc), fun e he hne => ?_⟩
  · have hs : fl.verdict = .success := by
      cases hverdict : fl.verdict with
      | success => rfl
      | cancelled =>
        rw [hverdict] at herr
        rw [herr] at hnone
        exact absurd hnone nofun
      | failed w =>
        obtain ⟨e, he, -⟩ := hfailed w hverdict
        rw [hnone] at he
        exact absurd he nofun
    exact hsettled v hv (hfits.success hs (hover v hv))
  · constructor
    · exact fun hno v _ e he => hno v he.1
    · intro hno v hv
      obtain ⟨e, he, -⟩ := herror v hv
      exact hno v (hbound v (by rw [hv]; rfl)) e ⟨hv, he⟩
  · exact ⟨fun ⟨v, hv⟩ => ⟨v, hbound v (by rw [hv]; rfl), hv⟩, fun ⟨v, _, hv⟩ => ⟨v, hv⟩⟩
  · cases hv : fl.verdict with
    | success =>
      rw [hv] at herr
      rw [herr] at he
      exact absurd he nofun
    | cancelled =>
      rw [hv] at herr
      exact absurd (Option.some.inj (he.symm.trans herr)) (hne d)
    | failed v =>
      obtain ⟨e', he', hlt, hexit, herr', hnames⟩ := hfailed v hv
      obtain rfl := Option.some.inj (he.symm.trans he')
      exact ⟨v, hlt, ⟨hexit, herr'⟩, hnames⟩

/-! ## The C++ engine -/

section Cpp
variable {σ : Type} {env : RunEnv σ} {g : Graph} {f₀ : FrameState σ} {s : RunState σ}

theorem shouldSkip_eq_true {skip : List String} {env : String → Option Variant} :
    (shouldSkip skip).run env = true ↔ ∃ field ∈ skip, ((env field).getD .null).truthy = true := by
  induction skip with
  | nil => exact iff_of_false Bool.false_ne_true fun ⟨_, h, _⟩ => List.not_mem_nil h
  | cons field rest ih =>
    rw [shouldSkip, ReadProgram.run_read]
    by_cases ht : ((env field).getD .null).truthy = true
    · rw [if_pos ht]
      exact iff_of_true rfl ⟨field, List.mem_cons_self, ht⟩
    · rw [if_neg ht, ih]
      constructor
      · rintro ⟨f, hf, h⟩
        exact ⟨f, List.mem_cons_of_mem _ hf, h⟩
      · rintro ⟨f, hf, h⟩
        rcases List.mem_cons.mp hf with rfl | hf
        · exact absurd h ht
        · exact ⟨f, hf, h⟩

theorem RunEnv.deliver_ok {p : NodePlan} {out : OperatorOutput} {f f' : FrameState σ}
    (h : env.deliver p out f = .ok f') : validateOutputAgainstType p.op.name p.op.operatorType out = .ok () ∧
      validateDeclaredOutputs p.op.name p.op out = .ok () ∧
      applyOutputWith env.storage.store out p.op.name (p.op.operatorType = "recall") f = .ok f' := by
  unfold RunEnv.deliver at h
  split at h
  · exact absurd h nofun
  · next htype =>
    split at h
    · exact absurd h nofun
    · next hdeclared => exact ⟨htype, hdeclared, h⟩

/-- The node's operator was skipped at some point of the log for a truthy skip field, or applied its complete
output there. -/
def RunEnv.Settled (env : RunEnv σ) (f₀ : FrameState σ) (log : List Entry) (v : Nat) : Prop :=
  ∃ pre f, Replay env.EntryStep f₀ pre f ∧
    ((pre ++ [.skipped v] <+: log ∧ ∃ field ∈ (env.node v).op.skip, ((f.common.find? field).getD .null).truthy = true) ∨
      ∃ out f', pre ++ [.applied v out] <+: log ∧ CompleteOutput (env.node v).op (env.Returned (env.node v)) out ∧
        applyOutputWith env.storage.store out (env.node v).op.name ((env.node v).op.operatorType = "recall") f = .ok f')

theorem RunInv.mem_log (h : RunInv env g f₀ s) {v : Nat} {e : Entry} (he : (s.bodies v).entryAt v = some e) : e ∈ s.log := by
  have hmem : e ∈ s.log.filter (fun e => e.node = v) := by
    rw [h.logged v, he]
    exact List.mem_singleton_self e
  exact List.mem_of_mem_filter hmem

theorem RunInv.settled (h : RunInv env g f₀ s) {v : Nat} (hv : s.exits v = some .completed) :
    env.Settled f₀ s.log v := by
  have hend := h.ended v
  have hbody := h.body v
  rw [hv] at hend
  cases hb : s.bodies v with
  | skipped =>
    obtain ⟨pre, f, f', hpre, hreplay, -, hskip⟩ := h.replays.at_mem (h.mem_log (v := v) (by rw [hb]; rfl))
    exact ⟨pre, f, hreplay, Or.inl ⟨hpre, shouldSkip_eq_true.mp hskip⟩⟩
  | applied out =>
    obtain ⟨pre, f, f', hpre, hreplay, hdeliver⟩ := h.replays.at_mem (h.mem_log (v := v) (by rw [hb]; rfl))
    rw [hb] at hbody
    exact ⟨pre, f, hreplay, Or.inr ⟨out, f', hpre, hbody, (RunEnv.deliver_ok hdeliver).2.2⟩⟩
  | _ =>
    rw [hb] at hend
    exact absurd hend id

theorem RunInv.exits_lt (h : RunInv env g f₀ s) {v : Nat} (hv : (s.exits v).isSome = true) : v < g.nodes.length := by
  refine h.sched.place_lt v ?_
  rcases (h.sched.finished v).mp ((h.finished v).mpr hv) with hret | ⟨a, ha, rfl, -⟩
  · exact List.mem_append_right _ hret
  · exact List.mem_append_left _ (List.mem_append_right _ (List.mem_map_of_mem ha))

/-- When the calling thread goes on, every node is over. -/
theorem RunInv.all_over (h : RunInv env g f₀ s) (hg : GraphInv g) (hret : s.sched.mainReturned = true) :
    ∀ v < g.nodes.length, (s.exits v).isSome = true := by
  intro v hv
  have hne : g.nodes ≠ [] := List.ne_nil_of_length_pos (Nat.zero_lt_of_lt hv)
  have hall := (h.sched.safe hg hne).done_iff.mp (h.returned hret)
  exact (h.finished v).mp ((h.sched.finished v).mpr (Or.inl (hall v hv)))

/-- The error of a node that failed. -/
def RunState.errorOf (s : RunState σ) (v : Nat) : Option PineError :=
  match s.bodies v with
  | .failed e => some e
  | _ => none

/-- How a run of `run_dag` must end. -/
def RunState.Ends (env : RunEnv σ) (g : Graph) (f₀ : FrameState σ) (s : RunState σ) (deadlineExceeded : Bool) : Prop :=
  RunEnds g.nodes.length (fun v => (env.node v).op.name) (env.Settled f₀ s.log) (fun v => s.exits v = some .passed)
    (fun v e => s.exits v = some .failed ∧ s.errorOf v = some e) (s.callerDone = true) (s.error? deadlineExceeded)

theorem RunReachable.ends {pool : Bool} {poolSize : Nat} (hg : GraphInv g)
    (hr : RunReachable env g pool poolSize f₀ s) (hret : s.sched.mainReturned = true)
    (hnamed : ∀ v < g.nodes.length, env.Named (env.node v)) (d : Bool) : s.Ends env g f₀ d := by
  have h := RunInv.reachable hg hr
  refine runEnds_of_fits h.fits (fun v => h.exits_lt) (h.all_over hg hret) (fun v _ hv => h.settled hv) (fun v hv => ?_) rfl
  have hlt := h.exits_lt (v := v) (by rw [hv]; rfl)
  have hend := h.ended v
  have hbody := h.body v
  rw [hv] at hend
  obtain ⟨e, he⟩ := hend
  rw [he] at hbody
  exact ⟨e, by rw [RunState.errorOf, he], hbody (hnamed v hlt)⟩

end Cpp

/-! ## The Go engine -/

section Go
variable {σ ι : Type} {env : GoEnv σ ι} {g : Graph} {f₀ : σ} {s : GoRunState σ ι}

def GoEnv.Settled (env : GoEnv σ ι) (f₀ : σ) (log : List (Nat × GoExit)) (v : Nat) : Prop :=
  ∃ pre f, Replay env.EntryStep f₀ pre f ∧
    ((pre ++ [(v, .skipped)] <+: log ∧
        ∃ field ∈ (env.node v).op.skip, ((env.common f field).getD .null).truthy = true) ∨
      ∃ out f', pre ++ [(v, .applied out)] <+: log ∧ CompleteOutput (env.node v).op (env.Returned (env.node v)) out ∧
        env.apply out (env.node v).op.name (env.node v).op.recall f = .ok f')

theorem GoRunInv.exit_eq (h : GoRunInv env g f₀ s) {v : Nat} {e : Exit} (hv : s.exits v = some e) :
    ∃ x, (s.bodies v).exit? = some x ∧ x.exit = e := by
  have hexit := h.exits v
  rw [hv] at hexit
  exact Option.map_eq_some_iff.mp hexit

theorem GoRunInv.settled (h : GoRunInv env g f₀ s) {v : Nat} (hv : s.exits v = some .completed) :
    env.Settled f₀ s.log v := by
  obtain ⟨x, hx, hexit⟩ := h.exit_eq hv
  have hmem : (v, x) ∈ s.log := by
    have hfilter : (v, x) ∈ s.log.filter (fun e => e.1 = v) := by
      rw [h.logged v, hx]
      exact List.mem_singleton_self _
    exact List.mem_of_mem_filter hfilter
  obtain ⟨pre, f, f', hpre, hreplay, hstep⟩ := h.replays.at_mem hmem
  cases x with
  | skipped =>
    obtain ⟨field, hfield, ht⟩ := List.any_eq_true.mp hstep.2
    exact ⟨pre, f, hreplay, Or.inl ⟨hpre, field, hfield, ht⟩⟩
  | applied out =>
    have hbody := h.body v
    have hcomplete : CompleteOutput (env.node v).op (env.Returned (env.node v)) out := by
      cases hb : s.bodies v with
      | leaving y =>
        rw [hb] at hx hbody
        obtain rfl := Option.some.inj hx
        exact hbody
      | closed y =>
        rw [hb] at hx hbody
        obtain rfl := Option.some.inj hx
        exact hbody
      | _ =>
        rw [hb] at hx
        exact absurd hx nofun
    exact ⟨pre, f, hreplay, Or.inr ⟨out, f', hpre, hcomplete, hstep⟩⟩
  | passed => exact absurd hexit nofun
  | failed e counted => exact absurd hexit nofun

def GoRunState.errorOf (s : GoRunState σ ι) (v : Nat) : Option PineError :=
  match (s.bodies v).exit? with
  | some (.failed e _) => some e
  | _ => none

/-- How a run of `Run` must end. -/
def GoRunState.Ends (env : GoEnv σ ι) (g : Graph) (f₀ : σ) (s : GoRunState σ ι) (deadlineExceeded : Bool) : Prop :=
  RunEnds g.nodes.length (fun v => (env.node v).op.name) (env.Settled f₀ s.log) (fun v => s.exits v = some .passed)
    (fun v e => s.exits v = some .failed ∧ s.errorOf v = some e) (s.flags.callerDone = true) (s.error? deadlineExceeded)

theorem GoRunInv.failed_named (h : GoRunInv env g f₀ s) {v : Nat} (hv : s.exits v = some .failed)
    (hnamed : env.Named (env.node v)) : ∃ e, s.errorOf v = some e ∧ e.Names (env.node v).op.name := by
  obtain ⟨x, hx, hexit⟩ := h.exit_eq hv
  have hbody := h.body v
  cases x with
  | failed e counted =>
    refine ⟨e, by rw [GoRunState.errorOf, hx], ?_⟩
    cases hb : s.bodies v with
    | leaving y =>
      rw [hb] at hx hbody
      obtain rfl := Option.some.inj hx
      exact hbody hnamed
    | closed y =>
      rw [hb] at hx hbody
      obtain rfl := Option.some.inj hx
      exact hbody hnamed
    | _ =>
      rw [hb] at hx
      exact absurd hx nofun
  | _ => exact absurd hexit nofun

theorem GoRunReachable.ends (hr : GoRunReachable env g f₀ s) (hret : s.returned = true)
    (hnamed : ∀ v < g.nodes.length, env.Named (env.node v)) (d : Bool) : s.Ends env g f₀ d := by
  have h := GoRunInv.reachable hr
  refine runEnds_of_fits h.fits h.bound (fun v hv => ?_) (fun v _ hv => h.settled hv)
    (fun v hv => h.failed_named hv (hnamed v (h.bound v (by rw [hv]; rfl)))) rfl
  have hclosed := h.returned hret v hv
  unfold GoRunState.isClosed at hclosed
  rw [← h.exits v]
  cases hb : s.bodies v with
  | closed x => rfl
  | _ =>
    rw [hb] at hclosed
    exact absurd hclosed Bool.false_ne_true

end Go

/-! ## Both engines -/

namespace Lone

def config : Config := { operators := SortedMap.ofList [("a", { name := "a" })] }

def graph : Graph where
  nodes := [{ name := "a", subflow := "", config := { name := "a" } }]
  nameToIndex := SortedMap.ofList [("a", 0)]

theorem buildDag_config : buildDag config { sequence := ["a"] } = .ok graph := by decide +kernel

section Cpp
variable {σ : Type} {env : RunEnv σ} {f₀ f : FrameState σ} {b : Body}

/-- The calling thread in the operator's body. -/
def running : SchedState where
  shared := { (SchedState.init graph 0).shared with seeds := [], dispatched := [0] }
  main := [⟨0, .running⟩]
  workers := [[]]

/-- The body has come to `b`, the frame to `f`, and nothing else has happened. -/
structure At (s : RunState σ) (f : FrameState σ) (b : Body) : Prop where
  sched : s.sched = running
  frame : s.frame = f
  body : s.bodies 0 = b

def BodySteps (env : RunEnv σ) : FrameState σ × Body → FrameState σ × Body → Prop :=
  ReflTransGen fun x y => BodyStep env (env.node 0) false x.1 x.2 y.1 y.2

theorem BodySteps.step {x : FrameState σ × Body} {f' : FrameState σ} {b' : Body} (h : BodySteps env x (f, b))
    (hstep : BodyStep env (env.node 0) false f b f' b') : BodySteps env x (f', b') := ReflTransGen.tail h hstep

theorem entered (env : RunEnv σ) (f₀ : FrameState σ) : ∃ s, RunReachable env graph false 0 f₀ s ∧ At s f₀ .entered :=
  ⟨_, (ReflTransGen.single (.sched (.seedInline (i := 0) rfl rfl))).tail (.enter (.main rfl (.enter rfl))),
    rfl, rfl, Function.update_self ..⟩

theorem runs (h : BodySteps env (f₀, .entered) (f, b)) : ∃ s, RunReachable env graph false 0 f₀ s ∧ At s f b := by
  generalize hy : (f, b) = y at h
  induction h generalizing f b with
  | refl =>
    cases hy
    exact entered env f₀
  | tail _ hstep ih =>
    obtain ⟨s, hr, hs⟩ := ih rfl
    subst hy
    refine ⟨_, hr.tail (.body (i := 0) (f := f) (b := b) ?_), hs.sched, rfl, ?_⟩
    · rw [hs.sched, hs.frame, hs.body]
      exact hstep
    · show Function.update s.bodies 0 b 0 = b
      exact Function.update_self ..

/-- Once the body is over the run returns. -/
theorem returns (h : BodySteps env (f₀, .entered) (f, b)) (hb : b.Succeeded ∨ ∃ e, b = .failed e) :
    ∃ s, RunReachable env graph false 0 f₀ s ∧ s.sched.mainReturned = true ∧ s.bodies 0 = b ∧
      (b.Succeeded → s.exits 0 = some .completed) ∧ ∀ e, b = .failed e → s.sched.shared.fatalErr = some 0 := by
  obtain ⟨⟨sched, frame, bodies, exits, callerDone, log, counted, traces⟩, hr, hsched, hframe, hbody⟩ := runs h
  dsimp only at hsched hframe hbody
  subst hsched hframe
  rcases hb with hb | ⟨e, rfl⟩
  · refine ⟨_, (((hr.tail (.finish (.main rfl .finish) ?_)).tail (.sched (.main rfl (.last rfl)))).tail
      (.sched (.main rfl .signal))).tail (.sched (.wake rfl rfl rfl rfl)), rfl, hbody, ?_, ?_⟩
    · show (bodies 0).Succeeded
      rw [hbody]
      exact hb
    · intro _
      show Function.update exits 0 (some Exit.completed) 0 = some .completed
      exact Function.update_self ..
    · rintro e rfl
      exact absurd hb id
  · refine ⟨_, (((hr.tail (.fail (.main rfl .fail) hbody)).tail (.sched (.main rfl (.last rfl)))).tail
      (.sched (.main rfl .signal))).tail (.sched (.wake rfl rfl rfl rfl)), rfl, hbody, ?_, ?_⟩
    · exact fun h => absurd h id
    · exact fun _ _ => rfl

/-- Rows, and an operator without fields that always does the same. -/
def rowEnv (att : Attempt) : RunEnv (List Row) where
  storage := ⟨RowFrame.store, RowFrame.view, RowFrame.cell, fun _ _ v => v, RowFrame.store_lawful⟩
  text := ⟨fun _ => "", fun _ => "", fun _ => some .zero, rfl⟩
  node _ := { op := { name := "a" } }
  exec _ _ _ a := a = att

def noRows : RowFrame := ⟨∅, [], []⟩

theorem ready (att : Attempt) : BodySteps (rowEnv att) (noRows, .entered) (noRows, .ready ∅) :=
  (BodySteps.step .refl (.goOn rfl)).step (.resolve rfl)

theorem applies : BodySteps (rowEnv ⟨{}, none⟩) (noRows, .entered) (noRows, .applied {}) :=
  ((ready _).step (.serial (Or.inl Int.one_nonneg) (.returns rfl rfl))).step (.apply rfl)

end Cpp

def goEnv : GoEnv Unit Unit where
  common _ _ := none
  buildInput _ _ := .ok ()
  itemCount _ := 0
  shard _ _ := ()
  resolve _ _ := .ok ∅
  apply _ _ _ _ := .ok ()
  node _ := { op := { name := "a" } }
  exec _ _ _ att := att = ⟨{}, .ok⟩

/-- The goroutine has come to `b` before anything was cancelled. -/
def GoAt (b : GoBody Unit) : Prop :=
  ∃ s, GoRunReachable goEnv graph () s ∧ s.crashed = false ∧ s.flags.cancelled = false ∧ s.bodies 0 = b

theorem GoAt.move {b b' : GoBody Unit} (h : GoAt b)
    (hstep : ∀ closed, GoBodyStep goEnv (goEnv.node 0) false closed () b () b') (hb : b'.exit? = none) : GoAt b' := by
  obtain ⟨s, hr, hcrashed, hcancelled, rfl⟩ := h
  refine ⟨_, hr.tail (.move (i := 0) (f := ()) (b := b') hcrashed Nat.zero_lt_one hb ?_), hcrashed, hcancelled, ?_⟩
  · rw [hcancelled]
    exact hstep _
  · show Function.update s.bodies 0 b' 0 = b'
    exact Function.update_self ..

theorem go_returns : ∃ s, GoRunReachable goEnv graph () s ∧ s.returned = true ∧ s.bodies 0 = .closed (.applied {}) := by
  have hexec : goEnv.Dispatches (goEnv.node 0) ∅ () (GoAttempt.recovered "a" ⟨{}, .ok⟩) := .intro rfl
  have hstart : GoAt (.waiting []) := ⟨_, .refl, rfl, rfl, rfl⟩
  have hready : GoAt (.ready () ∅) := (((hstart.move (fun _ => .enter rfl) rfl).move (fun _ => .goOn rfl) rfl).move
    (fun _ => .build rfl) rfl).move (fun _ => .resolve rfl) rfl
  have hproduced : GoAt (.produced {}) := (hready.move (fun _ => .serial (Or.inl (by decide)) hexec) rfl).move
    (fun _ => .gate rfl) rfl
  obtain ⟨s, hr, hcrashed, hcancelled, hbody⟩ := hproduced
  have hleft := hr.tail (.leave (i := 0) (f := ()) (x := .applied {}) hcrashed Nat.zero_lt_one (by
    rw [hcancelled, hbody]
    exact .apply rfl))
  have hclosed := hleft.tail (.close (i := 0) (x := .applied {}) hcrashed (by
    show Function.update s.bodies 0 (GoBody.leaving (.applied {})) 0 = .leaving (.applied {})
    exact Function.update_self ..))
  have hbody : Function.update (Function.update s.bodies 0 (.leaving (.applied {}))) 0 (.closed (.applied {})) 0 =
      .closed (.applied {}) := Function.update_self ..
  refine ⟨_, hclosed.tail (.wait hcrashed fun i hi => ?_), rfl, hbody⟩
  obtain rfl := Nat.lt_one_iff.mp hi
  exact congrArg GoBody.isClosed hbody

end Lone

end Pineapple
