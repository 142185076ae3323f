import Pineapple.Variant
import Pineapple.Lib.RwLock

/-! # The C++ resource manager's start and stop (`resource.cpp`)

One caller registers, starts and stops; the refresh threads and the readers of values take steps in between. -/

namespace Pineapple.CppManager

inductive ResourceValue
  | data (v : Variant)
  | handle (id : Nat)

/-- The interval is in seconds, as `register_resource` has left it. -/
structure Managed where
  name : String
  interval : Int
  value : ResourceValue := .data .null
  loaded : Bool := false

structure Shared where
  /-- in the order of their names -/
  resources : List Managed := []
  started : Bool := false
  stopping : Bool := false
  mu : RwLock := {}
  /-- `stop_mu_` is held -/
  stopMu : Bool := false

/-- `snapshot` -/
def Shared.snapshot (sh : Shared) : List (String × Variant) :=
  sh.resources.filterMap fun r =>
    match r.value with
    | .data v => if r.loaded then some (r.name, v) else none
    | .handle _ => none

/-- `borrow` -/
def Shared.borrow (sh : Shared) (name : String) : Option Nat :=
  match sh.resources.find? (·.name = name) with
  | some r =>
    match r.value with
    | .handle id => if r.loaded then some id else none
    | .data _ => none
  | none => none

def Shared.publish (sh : Shared) (i : Nat) (v : ResourceValue) : Shared :=
  { sh with resources := sh.resources.modify i fun r => { r with value := v } }

def Shared.load (sh : Shared) (i : Nat) (v : ResourceValue) : Shared :=
  { sh with resources := sh.resources.modify i fun r => { r with value := v, loaded := true } }

def Managed.release (r : Managed) : Managed :=
  match r.value with
  | .handle _ => if r.loaded then { r with value := .data .null, loaded := false } else r
  | .data _ => r

/-- What `register_resource` makes of an interval: none is the default, a negative one means never. -/
def refreshInterval (interval : Int) : Int := if interval = 0 then 600 else if interval < 0 then -1 else interval

def Shared.register (sh : Shared) (name : String) (interval : Int) : Shared :=
  { sh with
    resources := sh.resources.takeWhile (·.name < name) ++
      { name, interval := refreshInterval interval } :: sh.resources.dropWhile (·.name < name) }

/-- What a step is, where it matters. -/
inductive Event
  | loadFails
  | notify
  | publish
  | other

/-! ## The refresh threads -/

/-- Where `refresh_loop` stands. -/
inductive Refresher
  /-- before the loop's test of `stopping_` -/
  | top
  | wantStopMu
  /-- from here to `asleep` `stop_mu_` is held -/
  | test
  /-- the predicate was false -/
  | decided
  | asleep
  /-- notified, timed out or woken for no reason, and about to take `stop_mu_` again -/
  | woken
  /-- holding `stop_mu_`, the interval being over -/
  | lastTest
  | fetch
  | publish (v : ResourceValue)
  | done

structure Thread where
  resource : Nat
  pc : Refresher

/-- `wait_for` tests its predicate before each sleep and once more when the interval is over. -/
inductive Refresher.Step (i : Nat) : Shared → Refresher → Event → Shared → Refresher → Prop
  | enter {sh} : sh.stopping = false → Step i sh .top .other sh .wantStopMu
  | leave {sh} : sh.stopping = true → Step i sh .top .other sh .done
  | lock {sh} : sh.stopMu = false → Step i sh .wantStopMu .other { sh with stopMu := true } .test
  | goOn {sh} : sh.stopping = false → Step i sh .test .other sh .decided
  | stop {sh} : sh.stopping = true → Step i sh .test .other { sh with stopMu := false } .done
  | sleep {sh} : Step i sh .decided .other { sh with stopMu := false } .asleep
  | wake {sh} : Step i sh .asleep .other sh .woken
  | lockAgain {sh} : sh.stopMu = false → Step i sh .woken .other { sh with stopMu := true } .test
  | timeOut {sh} : sh.stopMu = false → Step i sh .woken .other { sh with stopMu := true } .lastTest
  | stopLate {sh} : sh.stopping = true → Step i sh .lastTest .other { sh with stopMu := false } .done
  | unlock {sh} : sh.stopping = false → Step i sh .lastTest .other { sh with stopMu := false } .fetch
  | fetched {sh} (v : ResourceValue) : Step i sh .fetch .other sh (.publish v)
  | fetchFails {sh} : Step i sh .fetch .other sh .top
  | publish {sh v} : sh.mu.Free → Step i sh (.publish v) .publish (sh.publish i v) .top

/-- `notify_all` -/
def Thread.notified (t : Thread) : Thread :=
  match t.pc with
  | .asleep => { t with pc := .woken }
  | _ => t

/-! ## The caller -/

inductive Last
  | fresh
  | started
  | startFailed
  | stopped

inductive Caller
  /-- between two calls -/
  | ready (last : Last)
  /-- in `start`, holding `mu_`: the resource to fetch next and those to refresh -/
  | loading (next : Nat) (refresh : List Nat)
  | spawning (refresh : List Nat)
  /-- in `stop`, from here on, before the flag is set -/
  | setFlag
  | notify
  | join (next : Nat)
  | release

structure State where
  shared : Shared := {}
  threads : List Thread := []
  caller : Caller := .ready .fresh

inductive Step : State → Event → State → Prop
  | thread {sh pre i pc post c e sh' pc'} : pc.Step i sh e sh' pc' →
      Step ⟨sh, pre ++ ⟨i, pc⟩ :: post, c⟩ e ⟨sh', pre ++ ⟨i, pc'⟩ :: post, c⟩
  /-- `snapshot`, `borrow` and `names` in other threads -/
  | lockShared {sh ts c} : sh.mu.CanShare → Step ⟨sh, ts, c⟩ .other ⟨{ sh with mu := sh.mu.lockShared }, ts, c⟩
  | unlockShared {sh ts c} : 0 < sh.mu.readers →
      Step ⟨sh, ts, c⟩ .other ⟨{ sh with mu := sh.mu.unlockShared }, ts, c⟩
  | register {sh ts last name interval} : sh.mu.Free → sh.started = false → name ∉ sh.resources.map Managed.name →
      Step ⟨sh, ts, .ready last⟩ .other ⟨sh.register name interval, ts, .ready last⟩
  | start {sh ts last} : sh.mu.Free → sh.started = false →
      Step ⟨sh, ts, .ready last⟩ .other ⟨{ sh with mu := sh.mu.lock }, ts, .loading 0 []⟩
  | load {sh ts next refresh r} (v : ResourceValue) : sh.resources[next]? = some r →
      Step ⟨sh, ts, .loading next refresh⟩ .other
        ⟨sh.load next v, ts, .loading (next + 1) (if 0 < r.interval then refresh ++ [next] else refresh)⟩
  /-- the fetcher throws, or is not done in time -/
  | loadFails {sh ts next refresh} : next < sh.resources.length →
      Step ⟨sh, ts, .loading next refresh⟩ .loadFails ⟨{ sh with mu := sh.mu.unlock }, ts, .ready .startFailed⟩
  | loaded {sh ts next refresh} : sh.resources.length ≤ next →
      Step ⟨sh, ts, .loading next refresh⟩ .other
        ⟨{ sh with started := true, mu := sh.mu.unlock }, ts, .spawning refresh⟩
  | spawn {sh ts i refresh} :
      Step ⟨sh, ts, .spawning (i :: refresh)⟩ .other ⟨sh, ts ++ [⟨i, .top⟩], .spawning refresh⟩
  | startReturns {sh ts} : Step ⟨sh, ts, .spawning []⟩ .other ⟨sh, ts, .ready .started⟩
  | stopIdle {sh ts last} : sh.mu.Free → sh.started = false →
      Step ⟨sh, ts, .ready last⟩ .other ⟨sh, ts, .ready .stopped⟩
  | stop {sh ts last} : sh.mu.Free → sh.started = true → Step ⟨sh, ts, .ready last⟩ .other ⟨sh, ts, .setFlag⟩
  | setFlag {sh ts} : Step ⟨sh, ts, .setFlag⟩ .other ⟨{ sh with stopping := true }, ts, .notify⟩
  | notify {sh ts} : Step ⟨sh, ts, .notify⟩ .notify ⟨sh, ts.map Thread.notified, .join 0⟩
  | join {sh ts next i} : ts[next]? = some ⟨i, .done⟩ → Step ⟨sh, ts, .join next⟩ .other ⟨sh, ts, .join (next + 1)⟩
  | joined {sh ts next} : ts.length ≤ next → Step ⟨sh, ts, .join next⟩ .other ⟨sh, [], .release⟩
  | release {sh ts} : sh.mu.Free → Step ⟨sh, ts, .release⟩ .other
      ⟨{ sh with resources := sh.resources.map Managed.release, started := false, stopping := false }, ts,
        .ready .stopped⟩

/-- What steps reach from a new manager, all of them meeting a condition on the state before. -/
inductive Reached (C : State → Event → Prop) : State → Prop
  | init : Reached C {}
  | step {s e s'} : Reached C s → C s e → Step s e s' → Reached C s'

end Pineapple.CppManager
