import Mathlib.Data.List.Perm.Basic
import Mathlib.Data.List.Nodup
import Mathlib.Logic.Function.Basic
import Mathlib.Logic.Relation

/-! # The Go resource manager (`pkg/resource/resource.go`)

A step is one access of one goroutine to a resource's slot, flag or counter, one critical section of the
manager's mutex that does nothing else, or a fetch, so every interleaving of `Start`, `Get`, `Release`, the
refresh loops and `Stop` is a run. A fetched value is named by its resource and the number of values fetched
for it before. -/

namespace Pineapple.GoResource

/-- The registered resources. -/
structure Manager where
  names : List String
  nodup : names.Nodup
  interval : String → Int

abbrev Value := String × Nat

/-- What a goroutine does after `refValue.release`. -/
inductive After
  | handle
  | rollback (name : String) (rest : List String)
  | stop (rest : List String)
  | refresh (name : String)

/-- Where a goroutine stands. -/
inductive Thread
  /-- `Start`, about to take the mutex -/
  | start
  /-- `Start` with the mutex: the resources to fetch and those loaded -/
  | fetch (todo loaded : List String)
  | store (v : Value) (todo loaded : List String)
  | setLoaded (name : String) (todo loaded : List String)
  | rollback (rest : List String)
  | clear (name : String) (rest : List String)
  | launch (todo : List String)
  /-- `Stop`, about to take the mutex -/
  | stop
  | cancel (alreadyRetired : Bool)
  | wait (alreadyRetired : Bool)
  | retire (rest : List String)
  /-- `Get`, about to look at the resource's `loaded` flag -/
  | get (name : String)
  | getLoad (name : String)
  /-- in `acquire`, about to load the counter -/
  | getRefs (name : String) (v : Value)
  | getSwap (name : String) (v : Value) (n : Int)
  | getRetired (name : String)
  /-- `Get` has returned this value and the handle is not released -/
  | handle (v : Value)
  /-- in `refValue.release` -/
  | drop (v : Value) (after : After)
  | close (v : Value) (after : After)
  /-- the refresh loop, in its select -/
  | tick (name : String)
  | refetch (name : String)
  | swap (name : String) (v : Value)
  | gone

def After.next : After → Thread
  | handle => .gone
  | rollback name rest => .clear name rest
  | stop rest => .retire rest
  | refresh name => .tick name

/-- What the goroutines share. `closed` logs the values whose `Close` ran, and `owned` the values that the
manager's own reference still counts; neither is in the source. -/
structure Shared where
  slot : String → Option Nat := fun _ => none
  loaded : String → Bool := fun _ => false
  refs : Value → Int := fun _ => 0
  fetched : String → Nat := fun _ => 0
  started : Bool := false
  retired : Bool := false
  locked : Bool := false
  cancelled : Bool := false
  wg : Nat := 0
  closed : List Value := []
  owned : List Value := []

/-- A fetch succeeds; the value goes into a `refValue`. -/
def Shared.fetch (sh : Shared) (name : String) : Shared :=
  { sh with
    fetched := Function.update sh.fetched name (sh.fetched name + 1)
    refs := Function.update sh.refs (name, sh.fetched name) 1 }

def Shared.setRefs (sh : Shared) (v : Value) (n : Int) : Shared := { sh with refs := Function.update sh.refs v n }

/-- The slot of a resource takes a value, with the manager's reference. -/
def Shared.put (sh : Shared) (v : Value) : Shared :=
  { sh with slot := Function.update sh.slot v.1 (some v.2), owned := v :: sh.owned }

@[simp] theorem slot_put_self (sh : Shared) (v : Value) : (sh.put v).slot v.1 = some v.2 := Function.update_self ..

theorem slot_put_of_ne (sh : Shared) (v : Value) {name : String} (h : name ≠ v.1) :
    (sh.put v).slot name = sh.slot name := Function.update_of_ne h ..

/-- The manager's reference to a value passes to a goroutine. -/
def Shared.disown (sh : Shared) (v : Value) : Shared := { sh with owned := sh.owned.erase v }

/-- What `Get` returned. -/
structure Got where
  value : Option Value

/-- One step of a goroutine: the goroutines that stand in its place afterwards. -/
inductive Thread.Step (m : Manager) : Shared → Thread → Option Got → Shared → List Thread → Prop
  -- `Start`
  | alreadyStarted {sh} : sh.locked = false → sh.started = true → Step m sh .start none sh [.gone]
  | begin {sh order} : sh.locked = false → sh.started = false → order.Perm m.names →
      Step m sh .start none { sh with locked := true } [.fetch order []]
  | fetchFails {sh name todo loaded} : Step m sh (.fetch (name :: todo) loaded) none sh [.rollback loaded]
  | fetch {sh name todo loaded} :
      Step m sh (.fetch (name :: todo) loaded) none (sh.fetch name) [.store (name, sh.fetched name) todo loaded]
  | store {sh v todo loaded} : Step m sh (.store v todo loaded) none (sh.put v) [.setLoaded v.1 todo loaded]
  | setLoaded {sh name todo loaded} :
      Step m sh (.setLoaded name todo loaded) none { sh with loaded := Function.update sh.loaded name true }
        [.fetch todo (loaded ++ [name])]
  | rollback {sh name n rest} : sh.slot name = some n →
      Step m sh (.rollback (name :: rest)) none (sh.disown (name, n)) [.drop (name, n) (.rollback name rest)]
  | rollbackEmpty {sh name rest} : sh.slot name = none →
      Step m sh (.rollback (name :: rest)) none sh [.clear name rest]
  | clear {sh name rest} :
      Step m sh (.clear name rest) none { sh with loaded := Function.update sh.loaded name false } [.rollback rest]
  | rolledBack {sh} : Step m sh (.rollback []) none { sh with locked := false } [.gone]
  | allLoaded {sh loaded order} : order.Perm m.names →
      Step m sh (.fetch [] loaded) none { sh with started := true, cancelled := false } [.launch order]
  | launch {sh name todo} :
      Step m sh (.launch (name :: todo)) none { sh with wg := sh.wg + 1 } [.launch todo, .tick name]
  | launched {sh} : Step m sh (.launch []) none { sh with locked := false } [.gone]
  -- `Stop`
  | notStarted {sh} : sh.locked = false → sh.started = false → Step m sh .stop none sh [.gone]
  | stop {sh} : sh.locked = false → sh.started = true →
      Step m sh .stop none { sh with retired := true } [.cancel sh.retired]
  | cancel {sh alreadyRetired} :
      Step m sh (.cancel alreadyRetired) none { sh with cancelled := true } [.wait alreadyRetired]
  | waitedAgain {sh} : sh.wg = 0 → Step m sh (.wait true) none sh [.gone]
  | waited {sh order} : sh.wg = 0 → order.Perm m.names → Step m sh (.wait false) none sh [.retire order]
  | retire {sh name n rest} : sh.slot name = some n →
      Step m sh (.retire (name :: rest)) none (sh.disown (name, n)) [.drop (name, n) (.stop rest)]
  | retireEmpty {sh name rest} : sh.slot name = none → Step m sh (.retire (name :: rest)) none sh [.retire rest]
  | stopped {sh} : Step m sh (.retire []) none sh [.gone]
  -- `Get`
  | getUnloaded {sh name} : name ∉ m.names ∨ sh.loaded name = false → Step m sh (.get name) (some ⟨none⟩) sh [.gone]
  | get {sh name} : name ∈ m.names → sh.loaded name = true → Step m sh (.get name) none sh [.getLoad name]
  | getEmpty {sh name} : sh.slot name = none → Step m sh (.getLoad name) (some ⟨none⟩) sh [.gone]
  | getLoad {sh name n} : sh.slot name = some n → Step m sh (.getLoad name) none sh [.getRefs name (name, n)]
  | getDead {sh name v} : sh.refs v ≤ 0 → Step m sh (.getRefs name v) none sh [.getRetired name]
  | getRefs {sh name v} : 0 < sh.refs v → Step m sh (.getRefs name v) none sh [.getSwap name v (sh.refs v)]
  | getLost {sh name v n} : sh.refs v ≠ n → Step m sh (.getSwap name v n) none sh [.getRefs name v]
  | getSwapped {sh name v n} : sh.refs v = n →
      Step m sh (.getSwap name v n) (some ⟨some v⟩) (sh.setRefs v (n + 1)) [.handle v]
  | getRetired {sh name} : sh.locked = false → sh.retired = true →
      Step m sh (.getRetired name) (some ⟨none⟩) sh [.gone]
  | getAgain {sh name} : sh.locked = false → sh.retired = false →
      Step m sh (.getRetired name) none sh [.getLoad name]
  -- `Release`
  | release {sh v} : Step m sh (.handle v) none sh [.drop v .handle]
  | drop {sh v after} : sh.refs v ≠ 1 → Step m sh (.drop v after) none (sh.setRefs v (sh.refs v - 1)) [after.next]
  | dropLast {sh v after} : sh.refs v = 1 →
      Step m sh (.drop v after) none (sh.setRefs v (sh.refs v - 1)) [.close v after]
  /-- `closeOnce.Do` -/
  | close {sh v after} :
      Step m sh (.close v after) none { sh with closed := if v ∈ sh.closed then sh.closed else v :: sh.closed }
        [after.next]
  -- `refreshLoop`
  | tickDone {sh name} : sh.cancelled = true → Step m sh (.tick name) none { sh with wg := sh.wg - 1 } [.gone]
  | tick {sh name} : 0 < m.interval name → Step m sh (.tick name) none sh [.refetch name]
  | refetchFails {sh name} : Step m sh (.refetch name) none sh [.tick name]
  | refetch {sh name} : Step m sh (.refetch name) none (sh.fetch name) [.swap name (name, sh.fetched name)]
  | swap {sh name v n} : sh.slot name = some n →
      Step m sh (.swap name v) none ((sh.disown (name, n)).put v) [.drop (name, n) (.refresh name)]
  | swapEmpty {sh name v} : sh.slot name = none → Step m sh (.swap name v) none (sh.put v) [.tick name]

structure ManagerState where
  shared : Shared := {}
  threads : List Thread := []

/-- One step of the whole: the goroutine that takes it, if it is one, and what a `Get` returns by it. -/
inductive ManagerStep (m : Manager) : ManagerState → Option Thread → Option Got → ManagerState → Prop
  | run {pre t post sh ev sh' ts} : t.Step m sh ev sh' ts →
      ManagerStep m ⟨sh, pre ++ t :: post⟩ (some t) ev ⟨sh', pre ++ ts ++ post⟩
  | start {sh ts} : ManagerStep m ⟨sh, ts⟩ none none ⟨sh, .start :: ts⟩
  | stop {sh ts} : ManagerStep m ⟨sh, ts⟩ none none ⟨sh, .stop :: ts⟩
  | get {sh ts name} : ManagerStep m ⟨sh, ts⟩ none none ⟨sh, .get name :: ts⟩
  /-- the context that `Start` was given ends -/
  | expire {sh ts} : ManagerStep m ⟨sh, ts⟩ none none ⟨{ sh with cancelled := true }, ts⟩

def ManagerReachable (m : Manager) : ManagerState → Prop :=
  Relation.ReflTransGen (fun s s' => ∃ actor ev, ManagerStep m s actor ev s') {}

end Pineapple.GoResource
