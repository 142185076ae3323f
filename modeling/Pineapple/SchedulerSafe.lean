import Mathlib.Algebra.Order.BigOperators.Group.List
import Pineapple.DagBuild
import Pineapple.SchedulerInv

/-! # The wait at the end of `run_dag`

With at least one node every run is bounded and can go on until the calling thread wakes. With none the
counter `remaining` is zero from the start, nothing ever takes it there, and `done` is never set. -/

namespace Pineapple
open Relation

/-! ## Every run is bounded -/

/-- The steps a call and its node have behind them. -/
def Activation.spent (g : Graph) (a : Activation) : Nat :=
  match a.phase with
  | .start => 2
  | .running => 3
  | .propagate rest | .ready _ rest => 4 + ((g.succs a.node).length - rest.length)
  | .signal => 5 + (g.succs a.node).length

/-- The steps of the run so far, cancellations left out. -/
def SchedState.spent (g : Graph) (s : SchedState) : Nat :=
  s.shared.queue.length + (s.activations.map (Activation.spent g)).sum +
    (s.shared.returned.map fun v => 6 + (g.succs v).length).sum + if s.mainReturned then 1 else 0

/-- A step of a call, seen from the whole state: what the shared queue and the log of returns gain covers
what the stack loses. -/
theorem Activation.Step.spent {g : Graph} {pool : Bool} {sh sh' : Shared} {a : Activation} {ev : Option RunEvent}
    {new : List Activation} (h : a.Step g pool sh ev sh' new) (hpend : a.pending g <:+ g.succs a.node) :
    sh.queue.length + a.spent g + (sh.returned.map fun v => 6 + (g.succs v).length).sum <
      sh'.queue.length + (new.map (Activation.spent g)).sum + (sh'.returned.map fun v => 6 + (g.succs v).length).sum := by
  have hfail : ∀ i, (sh.fail i).queue = sh.queue ∧ (sh.fail i).returned = sh.returned := by
    intro i; unfold Shared.fail; split <;> exact ⟨rfl, rfl⟩
  cases h with
  | decrement =>
    have hlen := hpend.length_le
    simp only [Activation.pending, List.length_cons] at hlen
    split <;> simp [Activation.spent] <;> omega
  | _ => simp [Activation.spent, hfail] <;> omega

theorem SchedStep.spent {g : Graph} {pool : Bool} {s s' : SchedState} {ev : Option RunEvent}
    (h : SchedInv g s.shared s.activations) (hstep : SchedStep g pool s ev s') (hev : ev ≠ some .cancel) :
    s.spent g < s'.spent g := by
  cases hstep with
  | @main a st _ sh new hmain ha =>
    have hact := ha.spent (h.pending a (by simp [SchedState.activations, hmain]))
    simp only [SchedState.spent, SchedState.activations, hmain, List.map_append, List.sum_append, List.map_cons,
      List.sum_cons]
    omega
  | @worker pre a st post _ sh new hw ha =>
    have hact := ha.spent (h.pending a (by simp [SchedState.activations, hw]))
    simp only [SchedState.spent, SchedState.activations, hw, List.flatten_append, List.flatten_cons, List.map_append,
      List.sum_append, List.map_cons, List.sum_cons]
    omega
  | @take pre post i rest hw hq =>
    simp only [SchedState.spent, SchedState.activations, hw, hq, List.flatten_append, List.flatten_cons,
      List.map_append, List.sum_append, List.map_cons, List.sum_cons, List.map_nil, List.sum_nil, List.length_cons,
      Activation.spent]
    omega
  | seedSubmit _ _ _ =>
    simp only [SchedState.spent, SchedState.activations, List.length_append, List.length_singleton]
    omega
  | seedInline hmain _ =>
    simp only [SchedState.spent, SchedState.activations, hmain, List.map_append, List.sum_append, List.map_cons,
      List.sum_cons, List.map_nil, List.sum_nil, Activation.spent]
    omega
  | cancel => exact absurd rfl hev
  | wake hret _ _ _ =>
    simp [SchedState.spent, SchedState.activations, hret]

/-- The steps any run of the graph can take. -/
def stepBound (g : Graph) : Nat := ((List.range g.nodes.length).map fun v => 6 + (g.succs v).length).sum + 1

theorem SchedInv.spent_le {g : Graph} {s : SchedState} (h : SchedInv g s.shared s.activations) :
    s.spent g ≤ stepBound g := by
  have hperm : (s.shared.queue ++ (s.activations.map Activation.node ++ s.shared.returned)).Nodup := by
    refine List.Nodup.sublist ?_ h.nodup
    simp only [places, List.append_assoc]
    refine (List.Sublist.append (List.Sublist.refl _) ?_).trans (List.sublist_append_right _ _)
    exact List.sublist_append_right _ _
  have hsub : (s.shared.queue ++ (s.activations.map Activation.node ++ s.shared.returned)) ⊆
      List.range g.nodes.length := by
    intro v hv
    refine List.mem_range.mpr (h.place_lt v ?_)
    simp only [places, List.mem_append] at hv ⊢
    tauto
  have hqueue : ∀ l : List Nat, l.length ≤ (l.map fun v => 6 + (g.succs v).length).sum := fun l => by
    induction l with
    | nil => simp
    | cons v l ih => simp only [List.length_cons, List.map_cons, List.sum_cons]; omega
  have hcalls : (s.activations.map (Activation.spent g)).sum ≤
      ((s.activations.map Activation.node).map fun v => 6 + (g.succs v).length).sum := by
    rw [List.map_map]
    refine List.sum_le_sum fun a _ => ?_
    simp only [Activation.spent, Function.comp]
    split <;> omega
  obtain ⟨l, hl, hsubl⟩ := List.subperm_of_subset hperm hsub
  have hcost := (hsubl.map fun v => 6 + (g.succs v).length).sum_le_sum fun _ _ => Nat.zero_le _
  rw [(hl.map _).sum_eq, List.map_append, List.map_append, List.sum_append, List.sum_append] at hcost
  have := hqueue s.shared.queue
  unfold SchedState.spent stepBound
  split <;> omega

/-! ## The wait is released -/

/-- A call always has a next step. -/
theorem Activation.Step.exists (g : Graph) (pool : Bool) (sh : Shared) (a : Activation) :
    ∃ ev sh' new, a.Step g pool sh ev sh' new ∧ ev ≠ some .cancel := by
  obtain ⟨i, ph⟩ := a
  cases ph with
  | start =>
    cases hc : sh.cancelled with
    | true => exact ⟨_, _, _, .notRun hc, nofun⟩
    | false => exact ⟨_, _, _, .enter hc, nofun⟩
  | running => exact ⟨_, _, _, .finish, nofun⟩
  | propagate rest =>
    cases rest with
    | nil =>
      by_cases h1 : sh.remaining = 1
      · exact ⟨_, _, _, .last h1, nofun⟩
      · exact ⟨_, _, _, .countDown h1, nofun⟩
    | cons v rest => exact ⟨_, _, _, .decrement, nofun⟩
  | ready v rest => exact ⟨_, _, _, .inline, nofun⟩
  | signal => exact ⟨_, _, _, .signal, nofun⟩

theorem SchedStep.length_workers {g : Graph} {pool : Bool} {s s' : SchedState} {ev : Option RunEvent}
    (h : SchedStep g pool s ev s') : s'.workers.length = s.workers.length := by
  cases h with
  | worker hw _ => simp [hw]
  | take hw _ => simp [hw]
  | _ => rfl

theorem SchedReachable.length_workers {g : Graph} {pool : Bool} {poolSize : Nat} {s : SchedState}
    (h : SchedReachable g pool poolSize s) : 0 < s.workers.length := by
  induction h with
  | refl => simp [SchedState.init]
  | tail _ hstep ih =>
    obtain ⟨ev, hstep⟩ := hstep
    rwa [hstep.length_workers]

/-- Until the calling thread has woken some step other than a cancellation is possible. As `spent` is bounded
(`SchedInv.spent_le`), the wait at the end of `run_dag` is released in every run. -/
theorem SchedReachable.progress {g : Graph} {pool : Bool} {poolSize : Nat} {s : SchedState} (hg : GraphInv g)
    (hne : g.nodes ≠ []) (h : SchedReachable g pool poolSize s) (hmain : s.mainReturned = false) :
    ∃ ev s', SchedStep g pool s ev s' ∧ ev ≠ some .cancel := by
  cases hstack : s.main with
  | cons a st =>
    obtain ⟨ev, sh', new, ha, hev⟩ := Activation.Step.exists g pool s.shared a
    exact ⟨ev, _, .main hstack ha, hev⟩
  | nil =>
    cases hseeds : s.shared.seeds with
    | cons i rest => exact ⟨_, _, .seedInline hstack hseeds, nofun⟩
    | nil =>
      by_cases hbusy : ∃ st ∈ s.workers, st ≠ []
      · obtain ⟨st, hst, hne'⟩ := hbusy
        obtain ⟨pre, post, hw⟩ := List.append_of_mem hst
        obtain ⟨a, st, rfl⟩ := List.exists_cons_of_ne_nil hne'
        obtain ⟨ev, sh', new, ha, hev⟩ := Activation.Step.exists g pool s.shared a
        exact ⟨ev, _, .worker hw ha, hev⟩
      · have hidle : ∀ st ∈ s.workers, st = [] := fun st hst => by_contra fun hc => hbusy ⟨st, hst, hc⟩
        cases hqueue : s.shared.queue with
        | cons i rest =>
          obtain ⟨st, hst⟩ := List.exists_mem_of_length_pos h.length_workers
          obtain ⟨pre, post, hw⟩ := List.append_of_mem hst
          rw [hidle st hst] at hw
          exact ⟨_, _, .take hw hqueue, nofun⟩
        | nil =>
          have hnil : s.activations = [] := by
            rw [SchedState.activations, hstack, List.nil_append, List.flatten_eq_nil_iff]
            exact hidle
          have hdone := ((SchedInv.reachable hg h).safe hg hne).not_stuck hseeds hqueue hnil
          exact ⟨_, _, .wake hmain hstack hseeds hdone, nofun⟩

/-- When the calling thread has woken no worker is still in a call, so none touches what `run_dag` owned. -/
theorem SchedReachable.quiescent {g : Graph} {pool : Bool} {poolSize : Nat} {s : SchedState} (hg : GraphInv g)
    (h : SchedReachable g pool poolSize s) (hdone : s.shared.done = true) : s.activations = [] := by
  have hinv := SchedInv.reachable hg h
  have hle := hinv.length_le
  rw [hinv.done hdone] at hle
  exact List.length_eq_zero_iff.mp (by omega)

/-! ## The empty sequence -/

/-- Without nodes nothing ever happens but the caller's cancellation. -/
theorem SchedReachable.of_empty {g : Graph} {pool : Bool} {poolSize : Nat} {s : SchedState} (hg : GraphInv g)
    (hnil : g.nodes = []) (h : SchedReachable g pool poolSize s) :
    s.shared.seeds = [] ∧ s.shared.queue = [] ∧ s.activations = [] ∧ s.shared.done = false := by
  have hplaces : ∀ s, SchedReachable g pool poolSize s → places s.shared s.activations = [] := by
    intro s hs
    refine List.eq_nil_iff_forall_not_mem.mpr fun v hv => ?_
    have := (SchedInv.reachable hg hs).place_lt v hv
    simp [hnil] at this
  have hidle : ∀ s, SchedReachable g pool poolSize s →
      s.shared.seeds = [] ∧ s.shared.queue = [] ∧ s.activations = [] := by
    intro s hs
    have := hplaces s hs
    simp only [places, List.append_eq_nil_iff, List.map_eq_nil_iff] at this
    exact ⟨this.1.1.1.1, this.1.1.1.2, this.1.2⟩
  refine ⟨(hidle s h).1, (hidle s h).2.1, (hidle s h).2.2, ?_⟩
  induction h with
  | refl => rfl
  | @tail s s' hs hstep ih =>
    obtain ⟨ev, hstep⟩ := hstep
    obtain ⟨hseeds, hqueue, hcalls⟩ := hidle s hs
    rw [SchedState.activations, List.append_eq_nil_iff, List.flatten_eq_nil_iff] at hcalls
    cases hstep with
    | main hmain _ => rw [hcalls.1] at hmain; cases hmain
    | worker hw _ => have := hcalls.2 _ (hw ▸ List.mem_append_right _ List.mem_cons_self); cases this
    | take _ hq => rw [hqueue] at hq; cases hq
    | seedSubmit _ _ hq => rw [hseeds] at hq; cases hq
    | seedInline _ hq => rw [hseeds] at hq; cases hq
    | cancel => exact ih
    | wake _ _ _ hdone => rw [ih] at hdone; cases hdone

/-- The calling thread has woken, or some step other than a cancellation is possible. -/
def CanGoOn (g : Graph) (pool : Bool) (s : SchedState) : Prop :=
  s.mainReturned = true ∨ ∃ ev s', SchedStep g pool s ev s' ∧ ev ≠ some .cancel

/-- The scheduler keeps its promises in every state of every run exactly where the sequence is not empty. -/
theorem runDag_safe_iff (config : Config) (expanded : ExpandedSequence) (g : Graph)
    (h : buildDag config expanded = .ok g) (pool : Bool) (poolSize : Nat) :
    (∀ s, SchedReachable g pool poolSize s → SchedSafe g s ∧ CanGoOn g pool s) ↔ expanded.sequence ≠ [] := by
  have hspec := buildDag_spec h
  have hlen := hspec.length
  constructor
  · intro hsafe hnil
    have hnodes : g.nodes = [] := List.length_eq_zero_iff.mp (by rw [hlen, hnil]; rfl)
    have hinit : SchedReachable g pool poolSize (SchedState.init g poolSize) := ReflTransGen.refl
    obtain ⟨hseeds, hqueue, hcalls, hdone⟩ := hinit.of_empty hspec.inv hnodes
    have := (hsafe _ hinit).1.not_stuck hseeds hqueue hcalls
    rw [hdone] at this
    cases this
  · intro hne s hs
    have hnodes : g.nodes ≠ [] := fun hnil => hne (List.length_eq_zero_iff.mp (by rw [← hlen, hnil]; rfl))
    refine ⟨(SchedInv.reachable hspec.inv hs).safe hspec.inv hnodes, ?_⟩
    cases hmain : s.mainReturned with
    | true => exact Or.inl hmain
    | false => exact Or.inr (hs.progress hspec.inv hnodes hmain)

/-- One operator on a pool of four workers. -/
theorem runDag_safe_iff_single :
    let a : OperatorConfig := { name := "a", metadata := { commonOutput := ["x"] } }
    let config : Config := { operators := SortedMap.ofList [("a", a)] }
    ∃ g, buildDag config { sequence := ["a"] } = .ok g ∧
      ∀ s, SchedReachable g true 4 s → SchedSafe g s ∧ CanGoOn g true s := by
  intro a config
  have hg : buildDag config { sequence := ["a"] } =
      .ok ((buildDag config { sequence := ["a"] }).toOption.getD {}) := by decide +kernel
  exact ⟨_, hg, (runDag_safe_iff config _ _ hg true 4).mpr (by decide)⟩

/-- A configuration with one operator and a main pipeline that lists none. -/
def idleConfigJson : Variant :=
  .object [
    ("pipeline_config", .object [
      ("operators", .object [
        ("a", .object [("$metadata", .object []), ("items", .array []), ("type_name", .string "recall_static")])])]),
    ("pipeline_group", .object [("main", .object [("pipeline", .array [])])])]

/-- The loader and `build_dag` accept that configuration, and from the first state on every run has nothing
seeded, queued or under way, and `done` is false: the calling thread waits for ever. -/
theorem runDag_stuck_on_idle_config :
    let registry : Registry := fun t => if t = "recall_static" then some { type := .recall, additiveWritesRowSet := true } else none
    ∃ config expanded g, loadConfigFromJson registry idleConfigJson = .ok config ∧
      expandOperatorSequenceWithSubflows config = .ok expanded ∧ buildDag config expanded = .ok g ∧
      ∀ pool poolSize s, SchedReachable g pool poolSize s →
        s.shared.seeds = [] ∧ s.shared.queue = [] ∧ s.activations = [] ∧ s.shared.done = false ∧ ¬ SchedSafe g s := by
  intro registry
  have hload : loadConfigFromJson registry idleConfigJson =
      .ok ((loadConfigFromJson registry idleConfigJson).toOption.getD {}) := by decide +kernel
  have hexp : expandOperatorSequenceWithSubflows ((loadConfigFromJson registry idleConfigJson).toOption.getD {}) =
      .ok {} := by decide +kernel
  have hg : buildDag ((loadConfigFromJson registry idleConfigJson).toOption.getD {}) {} = .ok {} := by decide +kernel
  refine ⟨_, _, _, hload, hexp, hg, fun pool poolSize s hs => ?_⟩
  obtain ⟨hseeds, hqueue, hcalls, hdone⟩ := hs.of_empty (buildDag_spec hg).inv rfl
  refine ⟨hseeds, hqueue, hcalls, hdone, fun hsafe => ?_⟩
  rw [hsafe.not_stuck hseeds hqueue hcalls] at hdone
  cases hdone

end Pineapple
