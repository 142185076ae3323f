import Mathlib.Data.List.Range
import Mathlib.Logic.Function.Basic
import Pineapple.JavaManager
import Pineapple.Lib.RefCount

/-! # The Java server's snapshots and reloads (`PineServer.java`)

A load of a configuration makes a resource manager, an engine and a snapshot of both, all under the number of the
load. Any number of loads, requests and stops are under way at a time; a step is one access of one of them, or of the
refresh thread of a manager. -/

namespace Pineapple.JavaServer

open JavaManager

/-! ## A load -/

/-- Where `loadConfig` stands. -/
inductive Loader
  /-- in `start`, with the `i`-th resource to fetch next -/
  | start (i : Nat)
  /-- the configuration is checked and the operators are made -/
  | build
  /-- the snapshot is made -/
  | publish
  /-- the snapshot is the server's; the release of the old one is a thread of the server's -/
  | published
  /-- the server is closed, and its own snapshot is about to be released -/
  | withdraw
  | withdrawing
  | giveUp
  /-- the exception is caught -/
  | stop (p : Stop)
  | failed
deriving DecidableEq

/-- Where `teardown` of the snapshot stands. -/
inductive Teardown
  | none
  | stop (p : Stop)
  /-- in `close` of the engine, at the `j`-th of the operators that are `Closer`s -/
  | close (j : Nat)
  | done
deriving DecidableEq

structure Load where
  manager : ResourceManager
  loader : Loader := .start 0
  /-- how many of the operators made are `Closer`s -/
  closers : Nat := 0
  /-- the log of the operators closed -/
  closedOperators : List Nat := []
  /-- the snapshot has been made -/
  made : Bool := false
  refs : Int := 0
  teardown : Teardown := .none

def Loader.afterStart : Start → Loader
  | .fetch i => start i
  | .started => build
  | .failed => stop .enter

def Loader.afterStop : Stop → Loader
  | .returned => failed
  | p => stop p

def Teardown.afterStop : Stop → Teardown
  | .returned => close 0
  | p => stop p

/-- What concerns one load only. -/
inductive Load.Step : Load → Event → Load → Prop
  | start {L i e m s} : L.loader = .start i → Start.Step L.manager (.fetch i) e m s →
      Step L e { L with manager := m, loader := .afterStart s }
  | refresh {L e m} : Refresh L.manager e m → Step L e { L with manager := m }
  | operator {L} : L.loader = .build → Step L .other { L with closers := L.closers + 1 }
  | createFails {L} : L.loader = .build → Step L .createFails { L with loader := .stop .enter }
  | catchStop {L p e m p'} : L.loader = .stop p → Stop.Step L.manager p e m p' →
      Step L e { L with manager := m, loader := .afterStop p' }
  | teardownStop {L p e m p'} : L.teardown = .stop p → Stop.Step L.manager p e m p' →
      Step L e { L with manager := m, teardown := .afterStop p' }
  | closeOperator {L j} : L.teardown = .close j → j < L.closers →
      Step L .other { L with closedOperators := j :: L.closedOperators, teardown := .close (j + 1) }
  | tornDown {L j} : L.teardown = .close j → L.closers ≤ j → Step L .other { L with teardown := .done }

/-! ## The server -/

/-- What the threads share. `published` and `tornDown` are logs, the newest first. -/
structure Shared where
  loads : Nat → Load := fun _ => { manager := register [] }
  count : Nat := 0
  snapshot : Option Nat := none
  /-- written and read in `stopLock` only -/
  closed : Bool := false
  stopLock : Bool := false
  published : List Nat := []
  tornDown : List Nat := []

def Shared.refs (sh : Shared) (k : Nat) : Int := (sh.loads k).refs

def Shared.Made (sh : Shared) (k : Nat) : Prop := k < sh.count ∧ (sh.loads k).made = true

def Shared.setLoad (sh : Shared) (k : Nat) (L : Load) : Shared := { sh with loads := Function.update sh.loads k L }

def Shared.setRefs (sh : Shared) (k : Nat) (n : Int) : Shared := sh.setLoad k { sh.loads k with refs := n }

/-- The last reference goes, and the snapshot is to be torn down by the thread that dropped it. -/
def Shared.tearDown (sh : Shared) (k : Nat) : Shared :=
  { sh.setLoad k { sh.loads k with refs := sh.refs k - 1, teardown := .stop .enter } with
    tornDown := k :: sh.tornDown }

/-- `register` and `start` up to the first fetch; nobody else has the manager. -/
def Shared.loadConfig (sh : Shared) (registered : List (String × Int)) : Shared :=
  { sh.setLoad sh.count { manager := { register registered with monitor := true } } with count := sh.count + 1 }

/-- Requests, stops, and loads that have published their snapshot. -/
inductive Thread
  /-- in `acquireSnapshot`, about to read the pointer -/
  | load
  /-- in `acquire`, about to read the counter -/
  | loadRefs (k : Nat)
  | compareAndSet (k : Nat) (n : Int)
  /-- a request that has the snapshot -/
  | holder (k : Nat)
  /-- in `release`, holding `stopLock` where `locked` -/
  | release (k : Nat) (locked : Bool)
  | tearing (k : Nat) (locked : Bool)
  /-- about to leave `stopLock` -/
  | unlock
  /-- in `stop` -/
  | shutdown
  | gone

def Thread.returns (locked : Bool) : Thread := if locked then unlock else gone

/-- What is left to do in `stopLock` with the snapshot that `getAndSet` gave back. -/
def Thread.retire : Option Nat → Thread
  | some k => release k true
  | none => unlock

inductive Thread.Step : Shared → Thread → Shared → Thread → Prop
  | loadNull {sh} : sh.snapshot = none → Step sh .load sh .gone
  | load {sh k} : sh.snapshot = some k → Step sh .load sh (.loadRefs k)
  | retired {sh k} : sh.refs k ≤ 0 → Step sh (.loadRefs k) sh .load
  | loadRefs {sh k} : 0 < sh.refs k → Step sh (.loadRefs k) sh (.compareAndSet k (sh.refs k))
  | swapped {sh k n} : sh.refs k = n → Step sh (.compareAndSet k n) (sh.setRefs k (n + 1)) (.holder k)
  | lost {sh k n} : sh.refs k ≠ n → Step sh (.compareAndSet k n) sh (.loadRefs k)
  | finish {sh k} : Step sh (.holder k) sh (.release k false)
  | drop {sh k locked} : sh.refs k ≠ 1 → Step sh (.release k locked) (sh.setRefs k (sh.refs k - 1)) (.returns locked)
  | dropLast {sh k locked} : sh.refs k = 1 → Step sh (.release k locked) (sh.tearDown k) (.tearing k locked)
  | tornDown {sh k locked} : (sh.loads k).teardown = .done → Step sh (.tearing k locked) sh (.returns locked)
  | unlock {sh} : Step sh .unlock { sh with stopLock := false } .gone
  | shutdown {sh} : sh.stopLock = false →
      Step sh .shutdown { sh with closed := true, snapshot := none, stopLock := true } (.retire sh.snapshot)

structure State where
  shared : Shared := {}
  threads : List Thread := []

inductive Step : State → Option (Nat × Event) → State → Prop
  | thread {sh pre t post sh' t'} : t.Step sh sh' t' → Step ⟨sh, pre ++ t :: post⟩ none ⟨sh', pre ++ t' :: post⟩
  | acquire {sh ts} : Step ⟨sh, ts⟩ none ⟨sh, .load :: ts⟩
  | shutdown {sh ts} : Step ⟨sh, ts⟩ none ⟨sh, .shutdown :: ts⟩
  | loadConfig {sh ts registered} : (registered.map Prod.fst).Nodup →
      Step ⟨sh, ts⟩ none ⟨sh.loadConfig registered, ts⟩
  | load {sh ts k e L} : k < sh.count → (sh.loads k).Step e L → Step ⟨sh, ts⟩ (some (k, e)) ⟨sh.setLoad k L, ts⟩
  | made {sh ts k} : k < sh.count → (sh.loads k).loader = .build →
      Step ⟨sh, ts⟩ none ⟨sh.setLoad k { sh.loads k with made := true, refs := 1, loader := .publish }, ts⟩
  | publish {sh ts k} : k < sh.count → (sh.loads k).loader = .publish → sh.stopLock = false → sh.closed = false →
      Step ⟨sh, ts⟩ none
        ⟨{ sh.setLoad k { sh.loads k with loader := .published } with
            snapshot := some k, published := k :: sh.published, stopLock := true },
          .retire sh.snapshot :: ts⟩
  /-- the server has been stopped during the reload -/
  | withdraw {sh ts k} : k < sh.count → (sh.loads k).loader = .publish → sh.stopLock = false → sh.closed = true →
      Step ⟨sh, ts⟩ none ⟨{ sh.setLoad k { sh.loads k with loader := .withdraw } with stopLock := true }, ts⟩
  | withdrawDrop {sh ts k} : k < sh.count → (sh.loads k).loader = .withdraw → sh.refs k ≠ 1 →
      Step ⟨sh, ts⟩ none ⟨sh.setLoad k { sh.loads k with refs := sh.refs k - 1, loader := .giveUp }, ts⟩
  | withdrawDropLast {sh ts k} : k < sh.count → (sh.loads k).loader = .withdraw → sh.refs k = 1 →
      Step ⟨sh, ts⟩ none ⟨(sh.setLoad k { sh.loads k with loader := .withdrawing }).tearDown k, ts⟩
  | withdrawn {sh ts k} : k < sh.count → (sh.loads k).loader = .withdrawing → (sh.loads k).teardown = .done →
      Step ⟨sh, ts⟩ none ⟨sh.setLoad k { sh.loads k with loader := .giveUp }, ts⟩
  | giveUp {sh ts k} : k < sh.count → (sh.loads k).loader = .giveUp →
      Step ⟨sh, ts⟩ none ⟨{ sh.setLoad k { sh.loads k with loader := .stop .enter } with stopLock := false }, ts⟩

/-- What steps reach from a new server, all of them meeting a condition on the state before. -/
inductive Reached (C : State → Option (Nat × Event) → Prop) : State → Prop
  | init : Reached C {}
  | step {s e s'} : Reached C s → C s e → Step s e s' → Reached C s'

/-! ## The account of one load -/

/-- An engine is rejected before any of its operators is a `Closer`. -/
def Load.Meets (L : Load) : Event → Prop
  | .createFails => L.closers = 0
  | e => L.manager.Meets e

def Meets (s : State) : Option (Nat × Event) → Prop
  | some (k, e) => (s.shared.loads k).Meets e
  | none => True

/-- The loader has the only reference to its snapshot. -/
def Loader.owns : Loader → Bool
  | publish | withdraw => true
  | _ => false

namespace Load

inductive Inv (L : Load) : Prop
  | starting {i} (hl : L.loader = .start i) (ht : L.teardown = .none) (hm : L.made = false)
      (h : L.manager.Starting i) (hc : L.closers = 0) (ho : L.closedOperators = [])
  | building (hl : L.loader = .build) (ht : L.teardown = .none) (hm : L.made = false) (h : L.manager.Live)
      (ho : L.closedOperators = [])
  | failing {p} (hl : L.loader = .afterStop p) (ht : L.teardown = .none) (hm : L.made = false)
      (h : L.manager.At p) (hc : L.closers = 0) (ho : L.closedOperators = [])
  | live (hl : L.loader.owns = true ∨ L.loader = .published) (ht : L.teardown = .none) (hm : L.made = true)
      (h : L.manager.Live) (ho : L.closedOperators = [])
  | tearing {p} (hl : L.loader = .withdrawing ∨ L.loader = .published) (ht : L.teardown = .stop p)
      (hm : L.made = true) (h : L.manager.At p) (ho : L.closedOperators = [])
  | closing {j} (hl : L.loader = .withdrawing ∨ L.loader = .published) (ht : L.teardown = .close j)
      (hm : L.made = true) (h : L.manager.Settled) (hj : j ≤ L.closers) (ho : L.closedOperators.Perm (List.range j))
  | tornDown (hl : L.loader = .withdrawing ∨ L.loader = .published ∨ L.loader = .giveUp) (ht : L.teardown = .done)
      (hm : L.made = true) (h : L.manager.Settled) (ho : L.closedOperators.Perm (List.range L.closers))
  /-- the manager is stopped once more after the teardown -/
  | abandoned {p} (hl : L.loader = .afterStop p) (hp : p = .enter ∨ p = .returned) (ht : L.teardown = .done)
      (hm : L.made = true) (h : L.manager.Settled) (ho : L.closedOperators.Perm (List.range L.closers))

end Load

/-- Every place a load can be at that `afterStop` names, apart. -/
theorem Loader.afterStop_cases (p : Stop) :
    (p = .returned ∧ afterStop p = failed) ∨ (p ≠ .returned ∧ afterStop p = stop p) := by
  cases p <;> simp [afterStop]

theorem Teardown.afterStop_cases (p : Stop) :
    (p = .returned ∧ afterStop p = close 0) ∨ (p ≠ .returned ∧ afterStop p = stop p) := by
  cases p <;> simp [afterStop]

namespace Load
variable {L L' : Load} {e : Event} {i j : Nat} {p : Stop}

/-! ### Where the load is, from its account -/

theorem Inv.of_start (h : L.Inv) (hl : L.loader = .start i) :
    L.teardown = .none ∧ L.made = false ∧ L.manager.Starting i ∧ L.closers = 0 ∧ L.closedOperators = [] := by
  cases h with
  | @starting j hl' ht hm h hc ho =>
    rw [hl] at hl'
    cases hl'
    exact ⟨ht, hm, h, hc, ho⟩
  | @failing p hl' _ => rcases Loader.afterStop_cases p with ⟨_, hp⟩ | ⟨_, hp⟩ <;> simp [hl, hp] at hl'
  | @abandoned p hl' _ => rcases Loader.afterStop_cases p with ⟨_, hp⟩ | ⟨_, hp⟩ <;> simp [hl, hp] at hl'
  | building hl' => simp [hl] at hl'
  | live hl' => simp [hl, Loader.owns] at hl'
  | tearing hl' => simp [hl] at hl'
  | closing hl' => simp [hl] at hl'
  | tornDown hl' => simp [hl] at hl'

theorem Inv.of_build (h : L.Inv) (hl : L.loader = .build) :
    L.teardown = .none ∧ L.made = false ∧ L.manager.Live ∧ L.closedOperators = [] := by
  cases h with
  | building _ ht hm h ho => exact ⟨ht, hm, h, ho⟩
  | @failing p hl' _ => rcases Loader.afterStop_cases p with ⟨_, hp⟩ | ⟨_, hp⟩ <;> simp [hl, hp] at hl'
  | @abandoned p hl' _ => rcases Loader.afterStop_cases p with ⟨_, hp⟩ | ⟨_, hp⟩ <;> simp [hl, hp] at hl'
  | starting hl' => simp [hl] at hl'
  | live hl' => simp [hl, Loader.owns] at hl'
  | tearing hl' => simp [hl] at hl'
  | closing hl' => simp [hl] at hl'
  | tornDown hl' => simp [hl] at hl'

/-- Where the manager is stopped after an exception. -/
theorem Inv.of_stop (h : L.Inv) (hl : L.loader = .stop p) :
    (L.teardown = .none ∧ L.made = false ∧ L.manager.At p ∧ L.closers = 0 ∧ L.closedOperators = []) ∨
      (p = .enter ∧ L.teardown = .done ∧ L.made = true ∧ L.manager.Settled ∧
        L.closedOperators.Perm (List.range L.closers)) := by
  cases h with
  | @failing q hl' ht hm h hc ho =>
    rcases Loader.afterStop_cases q with ⟨_, hq⟩ | ⟨_, hq⟩ <;> rw [hl, hq] at hl' <;> cases hl'
    exact Or.inl ⟨ht, hm, h, hc, ho⟩
  | @abandoned q hl' hp ht hm h ho =>
    rcases Loader.afterStop_cases q with ⟨_, hq⟩ | ⟨hne, hq⟩ <;> rw [hl, hq] at hl' <;> cases hl'
    exact Or.inr ⟨hp.resolve_right hne, ht, hm, h, ho⟩
  | starting hl' => simp [hl] at hl'
  | building hl' => simp [hl] at hl'
  | live hl' => simp [hl, Loader.owns] at hl'
  | tearing hl' => simp [hl] at hl'
  | closing hl' => simp [hl] at hl'
  | tornDown hl' => simp [hl] at hl'

/-- The snapshot has been made and nobody has begun to tear it down. -/
theorem Inv.of_made (h : L.Inv) (hm : L.made = true) (ht : L.teardown = .none) :
    (L.loader.owns = true ∨ L.loader = .published) ∧ L.manager.Live ∧ L.closedOperators = [] := by
  cases h with
  | live hl _ _ h ho => exact ⟨hl, h, ho⟩
  | starting _ _ hm' => simp [hm] at hm'
  | building _ _ hm' => simp [hm] at hm'
  | failing _ _ hm' => simp [hm] at hm'
  | tearing _ ht' => simp [ht] at ht'
  | closing _ ht' => simp [ht] at ht'
  | tornDown _ ht' => simp [ht] at ht'
  | abandoned _ _ ht' => simp [ht] at ht'

theorem Inv.of_tearing (h : L.Inv) (ht : L.teardown = .stop p) :
    (L.loader = .withdrawing ∨ L.loader = .published) ∧ L.made = true ∧ L.manager.At p ∧ L.closedOperators = [] := by
  cases h with
  | tearing hl ht' hm h ho =>
    rw [ht] at ht'
    cases ht'
    exact ⟨hl, hm, h, ho⟩
  | starting _ ht' => simp [ht] at ht'
  | building _ ht' => simp [ht] at ht'
  | failing _ ht' => simp [ht] at ht'
  | live _ ht' => simp [ht] at ht'
  | closing _ ht' => simp [ht] at ht'
  | tornDown _ ht' => simp [ht] at ht'
  | abandoned _ _ ht' => simp [ht] at ht'

theorem Inv.of_closing (h : L.Inv) (ht : L.teardown = .close j) :
    (L.loader = .withdrawing ∨ L.loader = .published) ∧ L.made = true ∧ L.manager.Settled ∧ j ≤ L.closers ∧
      L.closedOperators.Perm (List.range j) := by
  cases h with
  | closing hl ht' hm h hj ho =>
    rw [ht] at ht'
    cases ht'
    exact ⟨hl, hm, h, hj, ho⟩
  | starting _ ht' => simp [ht] at ht'
  | building _ ht' => simp [ht] at ht'
  | failing _ ht' => simp [ht] at ht'
  | live _ ht' => simp [ht] at ht'
  | tearing _ ht' => simp [ht] at ht'
  | tornDown _ ht' => simp [ht] at ht'
  | abandoned _ _ ht' => simp [ht] at ht'

theorem Inv.of_done (h : L.Inv) (ht : L.teardown = .done) :
    L.made = true ∧ L.manager.Settled ∧ L.closedOperators.Perm (List.range L.closers) := by
  cases h with
  | tornDown _ _ hm h ho => exact ⟨hm, h, ho⟩
  | abandoned _ _ _ hm h ho => exact ⟨hm, h, ho⟩
  | starting _ ht' => simp [ht] at ht'
  | building _ ht' => simp [ht] at ht'
  | failing _ ht' => simp [ht] at ht'
  | live _ ht' => simp [ht] at ht'
  | tearing _ ht' => simp [ht] at ht'
  | closing _ ht' => simp [ht] at ht'

theorem Inv.of_giveUp (h : L.Inv) (hl : L.loader = .giveUp) : L.teardown = .done := by
  cases h with
  | tornDown _ ht | abandoned _ _ ht => exact ht
  | starting hl' => simp [hl] at hl'
  | building hl' => simp [hl] at hl'
  | @failing p hl' _ => rcases Loader.afterStop_cases p with ⟨_, hp⟩ | ⟨_, hp⟩ <;> simp [hl, hp] at hl'
  | live hl' => simp [hl, Loader.owns] at hl'
  | tearing hl' => simp [hl] at hl'
  | closing hl' => simp [hl] at hl'

theorem Inv.made_of_published (h : L.Inv) (hl : L.loader = .published) : L.made = true := by
  cases h with
  | live _ _ hm | tearing _ _ hm | closing _ _ hm | tornDown _ _ hm | abandoned _ _ _ hm => exact hm
  | starting hl' => simp [hl] at hl'
  | building hl' => simp [hl] at hl'
  | @failing p hl' _ => rcases Loader.afterStop_cases p with ⟨_, hp⟩ | ⟨_, hp⟩ <;> simp [hl, hp] at hl'

theorem Inv.of_failed (h : L.Inv) (hl : L.loader = .failed) :
    L.manager.Settled ∧ L.closedOperators.Perm (List.range L.closers) := by
  cases h with
  | @failing q hl' ht hm h hc ho =>
    rcases Loader.afterStop_cases q with ⟨rfl, hq⟩ | ⟨_, hq⟩
    · exact ⟨h, by rw [ho, hc]; rfl⟩
    · simp [hl, hq] at hl'
  | abandoned _ _ _ _ h ho => exact ⟨h, ho⟩
  | starting hl' => simp [hl] at hl'
  | building hl' => simp [hl] at hl'
  | live hl' => simp [hl, Loader.owns] at hl'
  | tearing hl' => simp [hl] at hl'
  | closing hl' => simp [hl] at hl'
  | tornDown hl' => simp [hl] at hl'

theorem Inv.accounted (h : L.Inv) : L.manager.Accounted ∧ L.closedOperators.Nodup := by
  cases h with
  | starting _ _ _ h _ ho => exact ⟨h.accounted, by rw [ho]; exact List.nodup_nil⟩
  | building _ _ _ h ho => exact ⟨h.accounted, by rw [ho]; exact List.nodup_nil⟩
  | failing _ _ _ h _ ho => exact ⟨h.accounted, by rw [ho]; exact List.nodup_nil⟩
  | live _ _ _ h ho => exact ⟨h.accounted, by rw [ho]; exact List.nodup_nil⟩
  | tearing _ _ _ h ho => exact ⟨h.accounted, by rw [ho]; exact List.nodup_nil⟩
  | closing _ _ _ h _ ho => exact ⟨h.accounted, ho.nodup_iff.mpr List.nodup_range⟩
  | tornDown _ _ _ h ho => exact ⟨h.accounted, ho.nodup_iff.mpr List.nodup_range⟩
  | abandoned _ _ _ _ h ho => exact ⟨h.accounted, ho.nodup_iff.mpr List.nodup_range⟩

/-- The first `stop` of the manager has returned. -/
def Stopped (L : Load) : Prop := (∃ j, L.teardown = .close j) ∨ L.teardown = .done ∨ L.loader = .failed

theorem Inv.settled (h : L.Inv) (hstopped : L.Stopped) : L.manager.Settled := by
  rcases hstopped with ⟨j, ht⟩ | ht | hl
  · exact (h.of_closing ht).2.2.1
  · exact (h.of_done ht).2.1
  · exact (h.of_failed hl).1

/-! ### One step -/

theorem Inv.refresh {m : ResourceManager} (h : L.Inv) (hmeets : L.manager.Meets e) (hstep : Refresh L.manager e m) :
    Inv { L with manager := m } := by
  cases h with
  | starting _ _ _ h => exact (h.refresh hstep).elim
  | building hl ht hm h ho => exact .building hl ht hm (h.refresh hmeets hstep) ho
  | failing hl ht hm h hc ho => exact .failing hl ht hm (h.refresh hmeets hstep) hc ho
  | live hl ht hm h ho => exact .live hl ht hm (h.refresh hmeets hstep) ho
  | tearing hl ht hm h ho => exact .tearing hl ht hm (h.refresh hmeets hstep) ho
  | closing hl ht hm h hj ho => exact .closing hl ht hm (h.refresh hmeets hstep) hj ho
  | tornDown hl ht hm h ho => exact .tornDown hl ht hm (h.refresh hmeets hstep) ho
  | abandoned hl hp ht hm h ho => exact .abandoned hl hp ht hm (h.refresh hmeets hstep) ho

theorem Inv.setRefs (h : L.Inv) (n : Int) : Inv { L with refs := n } := by
  cases h with
  | starting hl ht hm h hc ho => exact .starting hl ht hm h hc ho
  | building hl ht hm h ho => exact .building hl ht hm h ho
  | failing hl ht hm h hc ho => exact .failing hl ht hm h hc ho
  | live hl ht hm h ho => exact .live hl ht hm h ho
  | tearing hl ht hm h ho => exact .tearing hl ht hm h ho
  | closing hl ht hm h hj ho => exact .closing hl ht hm h hj ho
  | tornDown hl ht hm h ho => exact .tornDown hl ht hm h ho
  | abandoned hl hp ht hm h ho => exact .abandoned hl hp ht hm h ho

theorem Meets.manager (hmeets : L.Meets e) (he : e ≠ .createFails) : L.manager.Meets e := by
  cases e with
  | createFails => exact absurd rfl he
  | _ => exact hmeets

theorem Inv.step (h : L.Inv) (hmeets : L.Meets e) (hstep : L.Step e L') : L'.Inv := by
  cases hstep with
  | @start i _ m s hl hs =>
    obtain ⟨ht, hm, hstarting, hc, ho⟩ := h.of_start hl
    have hafter := hstarting.step (hmeets.manager (by cases hs <;> simp)) hs
    cases s with
    | fetch j => exact .starting rfl ht hm hafter hc ho
    | started => exact .building rfl ht hm hafter ho
    | failed => exact .failing (p := .enter) rfl ht hm (Or.inr hafter) hc ho
  | refresh hr => exact h.refresh (hmeets.manager (by cases hr <;> simp)) hr
  | operator hl =>
    obtain ⟨ht, hm, hlive, ho⟩ := h.of_build hl
    exact .building hl ht hm hlive ho
  | createFails hl =>
    obtain ⟨ht, hm, hlive, ho⟩ := h.of_build hl
    exact .failing (p := .enter) rfl ht hm (Or.inl hlive) hmeets ho
  | catchStop hl hs =>
    rcases h.of_stop hl with ⟨ht, hm, hat, hc, ho⟩ | ⟨rfl, ht, hm, hsettled, ho⟩
    · exact .failing rfl ht hm (hat.step (hmeets.manager (by cases hs <;> simp)) hs) hc ho
    · cases hs with
      | idle => exact .abandoned (p := .returned) rfl (Or.inr rfl) ht hm hsettled ho
      | enter _ hstarted => simp [hsettled.started] at hstarted
      | enterNull _ hstarted => simp [hsettled.started] at hstarted
  | @teardownStop p _ m p' ht hs =>
    obtain ⟨hl, hm, hat, ho⟩ := h.of_tearing ht
    have hafter := hat.step (hmeets.manager (by cases hs <;> simp)) hs
    rcases Teardown.afterStop_cases p' with ⟨rfl, hp⟩ | ⟨_, hp⟩
    · exact .closing hl hp hm hafter (Nat.zero_le _) (by rw [ho]; rfl)
    · exact .tearing hl hp hm hafter ho
  | closeOperator ht hj =>
    obtain ⟨hl, hm, hsettled, _, ho⟩ := h.of_closing ht
    refine .closing hl rfl hm hsettled hj ?_
    rw [List.range_succ]
    exact (ho.cons _).trans (@List.perm_append_comm _ [_] _)
  | tornDown ht hj =>
    obtain ⟨hl, hm, hsettled, hle, ho⟩ := h.of_closing ht
    rw [Nat.le_antisymm hle hj] at ho
    exact .tornDown (hl.elim Or.inl fun h => Or.inr (Or.inl h)) rfl hm hsettled ho

/-- No value is published once the manager is stopped. -/
theorem Inv.resources_step (h : L.Inv) (hstopped : L.Stopped) (hmeets : L.Meets e) (hstep : L.Step e L') :
    L'.manager.resources = L.manager.resources := by
  have hsettled := h.settled hstopped
  cases hstep with
  | start hl _ =>
    have ht := (h.of_start hl).1
    rcases hstopped with ⟨j, ht'⟩ | ht' | hl'
    · simp [ht] at ht'
    · simp [ht] at ht'
    · simp [hl] at hl'
  | refresh hr =>
    rw [ResourceManager.refresh_after_wait hsettled.executor hsettled.refresher
      (hmeets.manager (by cases hr <;> simp)) hr]
  | catchStop _ hs => exact ResourceManager.resources_stop hs
  | teardownStop _ hs => exact ResourceManager.resources_stop hs
  | operator => rfl
  | createFails => rfl
  | closeOperator => rfl
  | tornDown => rfl

/-- What the server sees of a load is the same. -/
structure Same (L L' : Load) : Prop where
  made : L'.made = L.made
  refs : L'.refs = L.refs
  owns : L'.loader.owns = L.loader.owns
  published : L'.loader = .published ↔ L.loader = .published
  teardown : L'.teardown = .none ↔ L.teardown = .none

theorem Step.same (h : L.Step e L') : L.Same L' := by
  cases h with
  | @start i _ m s hl _ =>
    refine ⟨rfl, rfl, ?_, ?_, Iff.rfl⟩ <;> cases s <;> simp [Loader.afterStart, Loader.owns, hl]
  | refresh => exact ⟨rfl, rfl, rfl, Iff.rfl, Iff.rfl⟩
  | operator => exact ⟨rfl, rfl, rfl, Iff.rfl, Iff.rfl⟩
  | createFails hl => exact ⟨rfl, rfl, by rw [hl]; rfl, by rw [hl]; simp, Iff.rfl⟩
  | @catchStop p _ m p' hl _ =>
    rcases Loader.afterStop_cases p' with ⟨_, hp⟩ | ⟨_, hp⟩ <;>
      exact ⟨rfl, rfl, by rw [hl, hp]; rfl, by rw [hl, hp]; simp, Iff.rfl⟩
  | @teardownStop p _ m p' ht _ =>
    rcases Teardown.afterStop_cases p' with ⟨_, hp⟩ | ⟨_, hp⟩ <;>
      exact ⟨rfl, rfl, rfl, Iff.rfl, by rw [ht, hp]; simp⟩
  | closeOperator ht _ => exact ⟨rfl, rfl, rfl, Iff.rfl, by rw [ht]; simp⟩
  | tornDown ht _ => exact ⟨rfl, rfl, rfl, Iff.rfl, by rw [ht]; simp⟩

end Load

end Pineapple.JavaServer
