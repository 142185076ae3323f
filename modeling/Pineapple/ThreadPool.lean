import Mathlib.Algebra.Order.BigOperators.Group.List
import Mathlib.Algebra.Order.Ring.Nat
import Mathlib.Data.List.Perm.Basic
import Mathlib.Tactic.Common
import Pineapple.Lib.Inevitable

/-! # The threads behind the engine's pool (`thread_pool.cpp`)

Workers wait on one condition variable. `submit` queues a task and wakes one waiting worker afterwards, the destructor
sets `stopping_`, wakes all and joins the workers in their order. What is done under `mu_` is one step. -/

namespace Pineapple.ThreadPool
open Relation

inductive Worker where
  /-- about to look at the queue, under `mu_` -/
  | check
  /-- in `cv_.wait` -/
  | waiting
  | running (task : Nat)
  | exited
deriving DecidableEq

namespace Worker

def task? : Worker → Option Nat
  | running t => some t
  | _ => none

/-- Comes to look at the queue by itself. -/
def Awake : Worker → Prop
  | check | running _ => True
  | _ => False

def wake : Worker → Worker
  | waiting => check
  | w => w

end Worker

structure State where
  workers : List Worker
  tasks : List Nat := []
  /-- the calls of `submit` so far, which number the tasks -/
  submitted : Nat := 0
  stopping : Bool := false
  /-- calls of `submit` that have not notified yet -/
  notifies : Nat := 0
  /-- the destructor has not notified yet -/
  notifyAll : Bool := false
  /-- workers the destructor has joined -/
  joined : Nat := 0
  started : List Nat := []
  finished : List Nat := []

/-- The constructor makes a worker where it is asked for none. -/
def State.init (workerCount : Nat) : State := { workers := List.replicate (max 1 workerCount) .check }

/-- What the threads of the pool do, once they may. -/
inductive Step : State → State → Prop
  | sleep {s pre post} : s.workers = pre ++ .check :: post → s.stopping = false → s.tasks = [] →
      Step s { s with workers := pre ++ .waiting :: post }
  | exit {s pre post} : s.workers = pre ++ .check :: post → s.stopping = true → s.tasks = [] →
      Step s { s with workers := pre ++ .exited :: post }
  | take {s pre post t rest} : s.workers = pre ++ .check :: post → s.tasks = t :: rest →
      Step s { s with workers := pre ++ .running t :: post, tasks := rest, started := s.started ++ [t] }
  | finish {s pre post t} : s.workers = pre ++ .running t :: post →
      Step s { s with workers := pre ++ .check :: post, finished := s.finished ++ [t] }
  | notify {s pre post} : 0 < s.notifies → s.workers = pre ++ .waiting :: post →
      Step s { s with workers := pre ++ .check :: post, notifies := s.notifies - 1 }
  | notifyNobody {s} : 0 < s.notifies → .waiting ∉ s.workers → Step s { s with notifies := s.notifies - 1 }
  | notifyAll {s} : s.notifyAll = true → Step s { s with workers := s.workers.map Worker.wake, notifyAll := false }
  | join {s} : s.stopping = true → s.notifyAll = false → s.workers[s.joined]? = some .exited →
      Step s { s with joined := s.joined + 1 }

/-- What comes from outside: somebody submits, a running task too; the destructor begins; a wait ends without reason. -/
inductive Call : State → State → Prop
  | submit {s} : s.stopping = false ∨ (∃ t, .running t ∈ s.workers) →
      Call s { s with tasks := s.tasks ++ [s.submitted], submitted := s.submitted + 1, notifies := s.notifies + 1 }
  | stop {s} : s.stopping = false → Call s { s with stopping := true, notifyAll := true }
  | spurious {s pre post} : s.workers = pre ++ .waiting :: post → Call s { s with workers := pre ++ .check :: post }

def Reachable (workerCount : Nat) : State → Prop := ReflTransGen (fun s t => Step s t ∨ Call s t) (.init workerCount)

/-- The tasks under way. -/
def State.runningTasks (s : State) : List Nat := s.workers.filterMap Worker.task?

structure Inv (s : State) : Prop where
  /-- tasks are taken in the order they were submitted in -/
  order : s.started ++ s.tasks = List.range s.submitted
  held : (s.finished ++ s.runningTasks).Perm s.started
  nonempty : s.workers ≠ []
  /-- no wakeup is lost -/
  awake : s.tasks ≠ [] → (∃ w ∈ s.workers, w.Awake) ∨ (0 < s.notifies ∧ .waiting ∈ s.workers)
  leaving : .exited ∈ s.workers → s.stopping = true
  woken : s.stopping = true → s.notifyAll = true ∨ .waiting ∉ s.workers
  joined : ∀ i < s.joined, s.workers[i]? = some .exited

namespace Inv
variable {s t : State} {pre post : List Worker} {w w' : Worker}

theorem init (workerCount : Nat) : Inv (.init workerCount) where
  order := rfl
  held := by
    unfold State.runningTasks State.init
    rw [List.filterMap_replicate_of_none rfl]
    exact .nil
  nonempty := by
    show List.replicate (max 1 workerCount) Worker.check ≠ []
    rw [Ne, List.replicate_eq_nil_iff]
    omega
  awake h := absurd rfl h
  leaving h := absurd (List.eq_of_mem_replicate h) nofun
  woken h := absurd h nofun
  joined i hi := absurd hi (Nat.not_lt_zero i)

theorem runningTasks_eq (hw : s.workers = pre ++ w :: post) :
    s.runningTasks = pre.filterMap Worker.task? ++ (w.task?.toList ++ post.filterMap Worker.task?) := by
  unfold State.runningTasks
  rw [hw, List.filterMap_append]
  cases h : w.task? with
  | none => rw [List.filterMap_cons_none h, Option.toList_none, List.nil_append]
  | some t => rw [List.filterMap_cons_some h, Option.toList_some, List.singleton_append]

/-! One worker goes from `w` to `w'`. -/

theorem joined_set (h : Inv s) (hw : s.workers = pre ++ w :: post) (hne : w ≠ .exited) :
    ∀ i < s.joined, (pre ++ w' :: post)[i]? = some .exited := by
  intro i hi
  have hi' := h.joined i hi
  rw [hw] at hi'
  rcases Nat.lt_trichotomy i pre.length with hlt | rfl | hgt
  · rwa [List.getElem?_append_left hlt] at hi' ⊢
  · rw [List.getElem?_append_right le_rfl, Nat.sub_self, List.getElem?_cons_zero] at hi'
    exact absurd (Option.some.inj hi') hne
  · obtain ⟨k, hk⟩ : ∃ k, i - pre.length = k + 1 := ⟨i - pre.length - 1, by omega⟩
    rw [List.getElem?_append_right hgt.le, hk, List.getElem?_cons_succ] at hi' ⊢
    exact hi'

theorem mem_middle {x : Worker} (hw : s.workers = pre ++ w :: post) (hx : x ∈ pre ++ w' :: post) (hne : x ≠ w') :
    x ∈ s.workers := by
  rw [hw]
  simp only [List.mem_append, List.mem_cons] at hx ⊢
  tauto

theorem leaving_set (h : Inv s) (hw : s.workers = pre ++ w :: post) (hne : .exited ≠ w')
    (hx : .exited ∈ pre ++ w' :: post) : s.stopping = true :=
  h.leaving (mem_middle hw hx hne)

theorem woken_set (h : Inv s) (hw : s.workers = pre ++ w :: post) (hne : .waiting ≠ w') (hstop : s.stopping = true) :
    s.notifyAll = true ∨ .waiting ∉ pre ++ w' :: post :=
  (h.woken hstop).imp_right fun hno hx => hno (mem_middle hw hx hne)

theorem held_set (h : Inv s) (hw : s.workers = pre ++ w :: post) (htask : w'.task? = w.task?) :
    (s.finished ++ (pre ++ w' :: post).filterMap Worker.task?).Perm s.started := by
  have hheld := h.held
  rw [runningTasks_eq hw, ← htask] at hheld
  have hrun : (pre ++ w' :: post).filterMap Worker.task? = _ :=
    runningTasks_eq (s := { s with workers := pre ++ w' :: post }) rfl
  rw [hrun]
  exact hheld

theorem step (h : Inv s) (hstep : Step s t) : Inv t := by
  cases hstep with
  | sleep hw hstop htasks =>
    exact { h with
      held := h.held_set hw rfl
      nonempty := by simp
      awake := fun hne => absurd htasks hne
      leaving := h.leaving_set hw (by simp)
      woken := fun hs => absurd hs (by simp [hstop])
      joined := h.joined_set hw (by simp) }
  | exit hw hstop htasks =>
    exact { h with
      held := h.held_set hw rfl
      nonempty := by simp
      awake := fun hne => absurd htasks hne
      leaving := fun _ => hstop
      woken := h.woken_set hw (by simp)
      joined := h.joined_set hw (by simp) }
  | @take pre post t rest hw htasks =>
    refine { order := ?_, held := ?_, nonempty := by simp, awake := fun _ => Or.inl ⟨.running t, by simp, trivial⟩,
             leaving := h.leaving_set hw (by simp), woken := h.woken_set hw (by simp)
             joined := h.joined_set hw (by simp) }
    · have horder := h.order
      rw [htasks] at horder
      rw [List.append_assoc]
      exact horder
    · have hheld := h.held
      rw [runningTasks_eq hw] at hheld
      rw [runningTasks_eq rfl]
      show (s.finished ++ (_ ++ t :: _)).Perm _
      rw [← List.append_assoc]
      refine List.perm_middle.trans ?_
      rw [List.append_assoc]
      exact (List.Perm.cons t hheld).trans (List.perm_append_singleton t _).symm
  | @finish pre post t hw =>
    refine { h with
      held := ?_
      nonempty := by simp
      awake := fun _ => Or.inl ⟨.check, by simp, trivial⟩
      leaving := h.leaving_set hw (by simp)
      woken := h.woken_set hw (by simp)
      joined := h.joined_set hw (by simp) }
    have hheld := h.held
    rw [runningTasks_eq hw] at hheld
    rw [runningTasks_eq rfl]
    show ((s.finished ++ [t]) ++ (pre.filterMap Worker.task? ++ post.filterMap Worker.task?)).Perm _
    refine .trans ?_ hheld
    rw [List.append_assoc]
    exact List.Perm.append_left _ (@List.perm_middle _ _ (pre.filterMap Worker.task?) _).symm
  | notify hpos hw =>
    exact { h with
      held := h.held_set hw rfl
      nonempty := by simp
      awake := fun _ => Or.inl ⟨.check, by simp, trivial⟩
      leaving := h.leaving_set hw (by simp)
      woken := h.woken_set hw (by simp)
      joined := h.joined_set hw (by simp) }
  | notifyNobody hpos hno =>
    refine { h with awake := fun hne => Or.inl ?_ }
    exact (h.awake hne).resolve_right fun hwait => hno hwait.2
  | notifyAll hall =>
    have htask : ∀ w : Worker, w.wake.task? = w.task? := by intro w; cases w <;> rfl
    refine { h with held := ?_, nonempty := fun hnil => h.nonempty (List.map_eq_nil_iff.mp hnil), awake := fun hne => ?_
                    leaving := fun hx => ?_, woken := fun _ => Or.inr fun hx => ?_, joined := fun i hi => ?_ }
    · show (s.finished ++ (s.workers.map Worker.wake).filterMap Worker.task?).Perm s.started
      rw [List.filterMap_map]
      have hcomp : Worker.task? ∘ Worker.wake = Worker.task? := funext htask
      rw [hcomp]
      exact h.held
    · left
      rcases h.awake hne with ⟨w, hw, ha⟩ | ⟨-, hwait⟩
      · refine ⟨w.wake, List.mem_map_of_mem hw, ?_⟩
        cases w <;> first | exact trivial | exact absurd ha id
      · exact ⟨.check, List.mem_map.mpr ⟨_, hwait, rfl⟩, trivial⟩
    · obtain ⟨w, hw, heq⟩ := List.mem_map.mp hx
      cases w with
      | exited => exact h.leaving hw
      | _ => cases heq
    · obtain ⟨w, -, heq⟩ := List.mem_map.mp hx
      cases w <;> cases heq
    · rw [List.getElem?_map, h.joined i hi]
      rfl
  | join hstop _ hexited =>
    refine { h with joined := fun i hi => ?_ }
    rcases Nat.lt_succ_iff_lt_or_eq.mp hi with hi | rfl
    · exact h.joined i hi
    · exact hexited

theorem call (h : Inv s) (hcall : Call s t) : Inv t := by
  cases hcall with
  | submit hallowed =>
    refine { h with order := ?_, awake := fun _ => ?_ }
    · rw [← List.append_assoc, h.order, List.range_succ]
    · rcases hallowed with hstop | ⟨t, ht⟩
      · -- nobody has left, so that there is somebody to wake or to come by
        obtain ⟨w, hw⟩ := List.exists_mem_of_ne_nil _ h.nonempty
        cases w with
        | check => exact Or.inl ⟨_, hw, trivial⟩
        | waiting => exact Or.inr ⟨Nat.succ_pos _, hw⟩
        | running t => exact Or.inl ⟨_, hw, trivial⟩
        | exited =>
          rw [h.leaving hw] at hstop
          cases hstop
      · exact Or.inl ⟨_, ht, trivial⟩
  | stop hstop =>
    refine { h with leaving := fun _ => rfl, woken := fun _ => Or.inl rfl }
  | spurious hw =>
    exact { h with
      held := h.held_set hw rfl
      nonempty := by simp
      awake := fun _ => Or.inl ⟨.check, by simp, trivial⟩
      leaving := h.leaving_set hw (by simp)
      woken := h.woken_set hw (by simp)
      joined := h.joined_set hw (by simp) }

theorem reachable {workerCount : Nat} (h : Reachable workerCount s) : Inv s := by
  induction h with
  | refl => exact init workerCount
  | tail _ hstep ih => exact hstep.elim ih.step ih.call

end Inv

/-! ## What a pool comes to -/

def Worker.weight : Worker → Nat
  | .check => 1
  | .running _ => 2
  | _ => 0

/-- What is left to do. -/
def State.left (s : State) : Nat :=
  (s.workers.map Worker.weight).sum + 2 * s.tasks.length + 2 * s.notifies + (if s.notifyAll then s.workers.length + 1 else 0) +
    (s.workers.length - s.joined)

/-- Every task has run, and the destructor, if it has begun, has joined all workers. -/
structure State.Done (s : State) : Prop where
  finished : s.finished.Perm (List.range s.submitted)
  joined : s.stopping = true → s.joined = s.workers.length

theorem sum_wake_le (ws : List Worker) :
    ((ws.map Worker.wake).map Worker.weight).sum ≤ (ws.map Worker.weight).sum + ws.length := by
  induction ws with
  | nil => exact Nat.zero_le _
  | cons w ws ih =>
    have hw : w.wake.weight ≤ w.weight + 1 := by cases w <;> simp [Worker.wake, Worker.weight]
    rw [List.map_cons, List.map_cons, List.sum_cons, List.map_cons, List.sum_cons, List.length_cons]
    omega

/-- A step of the threads leaves less to do. -/
theorem Step.left_lt {s t : State} (h : Step s t) : t.left < s.left := by
  unfold State.left
  cases h with
  | sleep hw _ _ | exit hw _ _ | finish hw =>
    rw [hw]
    simp only [List.map_append, List.map_cons, List.sum_append, List.sum_cons, List.length_append, List.length_cons, Worker.weight]
    omega
  | take hw htasks =>
    rw [hw, htasks]
    simp only [List.map_append, List.map_cons, List.sum_append, List.sum_cons, List.length_append, List.length_cons, Worker.weight]
    omega
  | notify hpos hw =>
    rw [hw]
    simp only [List.map_append, List.map_cons, List.sum_append, List.sum_cons, List.length_append, List.length_cons, Worker.weight]
    omega
  | notifyNobody hpos _ =>
    dsimp only
    omega
  | notifyAll hall =>
    have hsum := sum_wake_le s.workers
    dsimp only
    rw [hall, if_pos rfl, if_neg Bool.false_ne_true, List.length_map]
    omega
  | join _ _ hexited =>
    have hlt : s.joined < s.workers.length := (List.getElem?_eq_some_iff.mp hexited).1
    dsimp only
    omega

/-- Some thread can go on until all is done. -/
theorem Inv.progress {s : State} (h : Inv s) (hnot : ¬ s.Done) : ∃ t, Step s t := by
  by_cases hcheck : .check ∈ s.workers
  · obtain ⟨pre, post, hw⟩ := List.append_of_mem hcheck
    cases htasks : s.tasks with
    | cons t rest => exact ⟨_, .take hw htasks⟩
    | nil =>
      cases hstop : s.stopping with
      | false => exact ⟨_, .sleep hw hstop htasks⟩
      | true => exact ⟨_, .exit hw hstop htasks⟩
  by_cases hrun : ∃ t, .running t ∈ s.workers
  · obtain ⟨t, ht⟩ := hrun
    obtain ⟨pre, post, hw⟩ := List.append_of_mem ht
    exact ⟨_, .finish hw⟩
  have hasleep : ∀ w ∈ s.workers, w = .waiting ∨ w = .exited := by
    intro w hw
    cases w with
    | check => exact absurd hw hcheck
    | waiting => exact Or.inl rfl
    | running t => exact absurd ⟨t, hw⟩ hrun
    | exited => exact Or.inr rfl
  by_cases htasks : s.tasks = []
  · have hfinished : s.finished.Perm (List.range s.submitted) := by
      have hnone : s.runningTasks = [] := List.filterMap_eq_nil_iff.mpr fun w hw => by
        rcases hasleep w hw with rfl | rfl <;> rfl
      have hheld := h.held
      have horder := h.order
      rw [hnone, List.append_nil] at hheld
      rw [htasks, List.append_nil] at horder
      exact horder ▸ hheld
    obtain ⟨hstop, hjoined⟩ : s.stopping = true ∧ s.joined ≠ s.workers.length := by
      by_contra hno
      exact hnot ⟨hfinished, fun hs => by_contra fun hj => hno ⟨hs, hj⟩⟩
    rcases h.woken hstop with hall | hnowait
    · exact ⟨_, .notifyAll hall⟩
    · cases hall : s.notifyAll with
      | true => exact ⟨_, .notifyAll hall⟩
      | false =>
        have hlt : s.joined < s.workers.length := by
          refine lt_of_le_of_ne (not_lt.mp fun hgt => ?_) hjoined
          have hout := h.joined _ hgt
          rw [List.getElem?_eq_none le_rfl] at hout
          cases hout
        refine ⟨_, .join hstop hall ?_⟩
        rw [List.getElem?_eq_getElem hlt]
        have hmem := List.getElem_mem hlt
        rcases hasleep _ hmem with hwait | hexited
        · exact absurd (hwait ▸ hmem) hnowait
        · rw [hexited]
  · rcases h.awake htasks with ⟨w, hw, ha⟩ | ⟨hpos, hwait⟩
    · rcases hasleep w hw with rfl | rfl
      · exact absurd ha id
      · exact absurd ha id
    · obtain ⟨pre, post, hw⟩ := List.append_of_mem hwait
      exact ⟨_, .notify hpos hw⟩

/-- In every run tasks begin in the order of their submission, each once; what has begun is under way or has run; and when
the destructor has joined every worker all have run. However the threads take turns from then on, with no more calls they
come to where every task has run and a destructor that has begun returns. -/
theorem pool_runs_every_task {workerCount : Nat} {s : State} (h : Reachable workerCount s) :
    s.started <+: List.range s.submitted ∧ (s.finished ++ s.runningTasks).Perm s.started ∧
      (s.joined = s.workers.length → s.finished.Perm (List.range s.submitted)) ∧ Inevitably Step State.Done s := by
  have hinv := Inv.reachable h
  refine ⟨⟨s.tasks, hinv.order⟩, hinv.held, fun hjoined => ?_, ?_⟩
  · have hexited : ∀ w ∈ s.workers, w = .exited := by
      intro w hw
      obtain ⟨i, hi, rfl⟩ := List.getElem_of_mem hw
      have hget := hinv.joined i (hjoined ▸ hi)
      rw [List.getElem?_eq_getElem hi] at hget
      exact Option.some.inj hget
    have htasks : s.tasks = [] := by
      by_contra hne
      rcases hinv.awake hne with ⟨w, hw, ha⟩ | ⟨-, hwait⟩
      · rw [hexited w hw] at ha
        exact ha
      · cases hexited _ hwait
    have hnone : s.runningTasks = [] := List.filterMap_eq_nil_iff.mpr fun w hw => by
      rw [hexited w hw]
      rfl
    have hheld := hinv.held
    have horder := hinv.order
    rw [hnone, List.append_nil] at hheld
    rw [htasks, List.append_nil] at horder
    exact horder ▸ hheld
  · exact Inevitably.of_measure State.left (fun a b ha _ hab => ⟨ha.step hab, hab.left_lt⟩)
      (fun a ha hnot => ha.progress hnot) hinv

/-- A pool of one, destroyed before its worker has seen the task. -/
def destroyed : State :=
  { workers := [.check], tasks := [0], submitted := 1, stopping := true, notifies := 1, notifyAll := true }

theorem pool_runs_every_task_destroyed :
    destroyed.started <+: List.range destroyed.submitted ∧
      (destroyed.finished ++ destroyed.runningTasks).Perm destroyed.started ∧
      (destroyed.joined = destroyed.workers.length → destroyed.finished.Perm (List.range destroyed.submitted)) ∧
      Inevitably Step State.Done destroyed := by
  have hsubmit : Call (.init 1) { State.init 1 with tasks := [0], submitted := 1, notifies := 1 } := .submit (Or.inl rfl)
  have hstop : Call { State.init 1 with tasks := [0], submitted := 1, notifies := 1 } destroyed := .stop rfl
  exact pool_runs_every_task (ReflTransGen.tail (.single (Or.inr hsubmit)) (Or.inr hstop))

end Pineapple.ThreadPool
