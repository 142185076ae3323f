import Mathlib.Data.List.Basic
import Mathlib.Data.List.Count
import Pineapple.Lib.RwLock

/-! # The C++ server's engine and resources (`server.cpp`)

The handlers, the watcher with its reloads and the main thread with its shutdown take steps in any order. A
generation is the number of the configuration load it was made from. -/

namespace Pineapple.CppServer

/-- An engine: the load it was made from and the manager it hands to its operators (`resource_provider`). -/
structure Engine where
  config : Nat
  provider : Option Nat

/-- `engine_`, `resource_manager_` and `resource_metrics_`, or the local variables they are swapped with. -/
structure Pointers where
  engine : Option Engine := none
  manager : Option Nat := none
  metrics : Option Nat := none

/-- What requests see: `/execute` and the custom routes, `/dag` and `/stats` read nothing else of a load. -/
structure View where
  pointers : Pointers
  reloadCount : Nat

/-- What the threads share; the last four are logs. -/
structure Shared where
  pointers : Pointers
  lock : RwLock := {}
  running : Bool := true
  inFlight : Nat := 0
  runCount : Nat := 0
  reloadCount : Nat := 0
  reloadErrorCount : Nat := 0
  loads : Nat
  /-- the generations whose engine was closed or destroyed, and those whose manager was -/
  closed : List Nat := []
  stopped : List Nat := []
  /-- what requests saw as the last reload began, and whether that reload has failed -/
  attempt : View
  failed : Bool := false

def Shared.view (sh : Shared) : View := ⟨sh.pointers, sh.reloadCount⟩

def Shared.closeEngine (sh : Shared) (p : Pointers) : Shared :=
  { sh with closed := (p.engine.map Engine.config).toList ++ sh.closed }

def Shared.stopManager (sh : Shared) (p : Pointers) : Shared := { sh with stopped := p.manager.toList ++ sh.stopped }

/-- What local variables point to is destroyed as an exception leaves their scope. -/
def Shared.destroy (sh : Shared) (p : Pointers) : Shared := (sh.closeEngine p).stopManager p

/-! ## The handlers -/

inductive Request
  | execute
  | dag
  | stats

/-- Where the thread of a connection stands with `engine_mu_`. -/
inductive Handler
  | idle
  | want (r : Request)
  | inside (r : Request)
  /-- in `execute_with_trace`, the resource snapshot taken from a manager -/
  | snapped (resources : Option Nat)
  | executing (engine : Engine) (resources : Option Nat)
  | leave

/-- A `/stats` request comes back for each of its shared sections. -/
inductive Handler.Step : Shared → Handler → Shared → Handler → Prop
  | request {sh r} : Step sh .idle sh (.want r)
  | lockShared {sh r} : sh.lock.CanShare → Step sh (.want r) { sh with lock := sh.lock.lockShared } (.inside r)
  | notLoaded {sh} : sh.pointers.engine = none → Step sh (.inside .execute) sh .leave
  | snapshot {sh e} : sh.pointers.engine = some e →
      Step sh (.inside .execute) { sh with runCount := sh.runCount + 1 } (.snapped sh.pointers.manager)
  | execute {sh e m} : sh.pointers.engine = some e → Step sh (.snapped m) sh (.executing e m)
  | finish {sh e m} : Step sh (.executing e m) sh .leave
  | renderDag {sh e} : sh.pointers.engine = some e → Step sh (.inside .dag) sh .leave
  | stats {sh} : Step sh (.inside .stats) sh .leave
  | unlockShared {sh} : Step sh .leave { sh with lock := sh.lock.unlockShared } .idle

/-! ## The watcher -/

/-- The steps of `reload_config` before the swap, in order. -/
inductive Build
  | newMetrics
  | newManager
  | loadFromConfig
  | validateResourceDeps
  | start
  | newEngine
  | expand

def Build.apply (config : Nat) : Build → Pointers → Pointers
  | newMetrics, new => { new with metrics := some config }
  | newManager, new => { new with manager := some config }
  | newEngine, new => { new with engine := some { config, provider := new.manager } }
  | _, new => new

def builds : List Build :=
  [.newMetrics, .newManager, .loadFromConfig, .validateResourceDeps, .start, .newEngine, .expand]

/-- The moves of the swap: the server's pointers, the old ones and the new ones. -/
structure Swap where
  current : Pointers
  old : Pointers
  new : Pointers

inductive Move
  | takeEngine
  | putEngine
  | takeManager
  | putManager
  | takeMetrics
  | putMetrics

/-- A moved pointer leaves null behind. -/
def Move.apply : Move → Swap → Swap
  | takeEngine, s => { s with old.engine := s.current.engine, current.engine := none }
  | putEngine, s => { s with current.engine := s.new.engine, new.engine := none }
  | takeManager, s => { s with old.manager := s.current.manager, current.manager := none }
  | putManager, s => { s with current.manager := s.new.manager, new.manager := none }
  | takeMetrics, s => { s with old.metrics := s.current.metrics, current.metrics := none }
  | putMetrics, s => { s with current.metrics := s.new.metrics, new.metrics := none }

def moves : List Move := [.takeEngine, .putEngine, .takeManager, .putManager, .takeMetrics, .putMetrics]

inductive Watcher
  | sleep
  | loadConfig
  | build (todo : List Build) (config : Nat) (new : Pointers)
  | wantLock (new : Pointers)
  /-- holding `engine_mu_` -/
  | swap (todo : List Move) (old new : Pointers)
  | close (old : Pointers)
  | stop (old : Pointers)
  | preInit
  /-- `reload_config` has returned -/
  | count (ok : Bool)
  | joined

/-- The flag of a step tells that a `close` of the engine swapped out threw. `Manager::stop` and `pre_init`
throw nothing of their own. -/
inductive Watcher.Step : Shared → Watcher → Bool → Shared → Watcher → Prop
  | wake {sh} : sh.running = true →
      Step sh .sleep false { sh with attempt := sh.view, failed := false } .loadConfig
  | quit {sh} : sh.running = false → Step sh .sleep false sh .joined
  | loadConfig {sh} : Step sh .loadConfig false { sh with loads := sh.loads + 1 } (.build builds sh.loads {})
  | loadFails {sh} : Step sh .loadConfig false { sh with failed := true } (.count false)
  | build {sh b todo config new} :
      Step sh (.build (b :: todo) config new) false sh (.build todo config (b.apply config new))
  | buildFails {sh b todo config new} :
      Step sh (.build (b :: todo) config new) false { sh.destroy new with failed := true } (.count false)
  | built {sh config new} : Step sh (.build [] config new) false sh (.wantLock new)
  | lock {sh new} : sh.lock.Free → Step sh (.wantLock new) false { sh with lock := sh.lock.lock } (.swap moves {} new)
  | move {sh m todo old new} :
      Step sh (.swap (m :: todo) old new) false { sh with pointers := (m.apply ⟨sh.pointers, old, new⟩).current }
        (.swap todo (m.apply ⟨sh.pointers, old, new⟩).old (m.apply ⟨sh.pointers, old, new⟩).new)
  | unlock {sh old new} : Step sh (.swap [] old new) false { sh with lock := sh.lock.unlock } (.close old)
  | close {sh old} : Step sh (.close old) false (sh.closeEngine old) (.stop old)
  | closeThrows {sh old} : Step sh (.close old) true { sh.destroy old with failed := true } (.count false)
  | stop {sh old} : Step sh (.stop old) false (sh.stopManager old) .preInit
  | preInit {sh} : Step sh .preInit false sh (.count true)
  | reloaded {sh} : Step sh (.count true) false { sh with reloadCount := sh.reloadCount + 1 } .sleep
  | reloadError {sh} : Step sh (.count false) false { sh with reloadErrorCount := sh.reloadErrorCount + 1 } .sleep

/-! ## The main thread -/

inductive Main
  | accept
  | join
  | drain
  | wantLock
  /-- holding `engine_mu_` -/
  | close
  | stop
  | returned

structure ServerState where
  shared : Shared
  handlers : List Handler := []
  watcher : Watcher
  main : Main := .accept

inductive ServerStep : ServerState → Bool → ServerState → Prop
  | handler {pre h post sh w m sh' h'} : h.Step sh sh' h' →
      ServerStep ⟨sh, pre ++ h :: post, w, m⟩ false ⟨sh', pre ++ h' :: post, w, m⟩
  | watcher {sh hs w m threw sh' w'} : w.Step sh threw sh' w' → ServerStep ⟨sh, hs, w, m⟩ threw ⟨sh', hs, w', m⟩
  | accept {sh hs w} : ServerStep ⟨sh, hs, w, .accept⟩ false
      ⟨{ sh with inFlight := sh.inFlight + 1 }, .idle :: hs, w, .accept⟩
  | hangUp {sh pre post w m} : ServerStep ⟨sh, pre ++ .idle :: post, w, m⟩ false
      ⟨{ sh with inFlight := sh.inFlight - 1 }, pre ++ post, w, m⟩
  /-- `Server::stop`, from the signal handler or the host -/
  | signal {sh hs w m} : ServerStep ⟨sh, hs, w, m⟩ false ⟨{ sh with running := false }, hs, w, m⟩
  | endLoop {sh hs w} : sh.running = false → ServerStep ⟨sh, hs, w, .accept⟩ false ⟨sh, hs, w, .join⟩
  | join {sh hs} : ServerStep ⟨sh, hs, .joined, .join⟩ false ⟨sh, hs, .joined, .drain⟩
  | drain {sh hs w} : sh.inFlight = 0 → ServerStep ⟨sh, hs, w, .drain⟩ false ⟨sh, hs, w, .wantLock⟩
  | lock {sh hs w} : sh.lock.Free → ServerStep ⟨sh, hs, w, .wantLock⟩ false
      ⟨{ sh with lock := sh.lock.lock }, hs, w, .close⟩
  | close {sh hs w} : ServerStep ⟨sh, hs, w, .close⟩ false ⟨sh.closeEngine sh.pointers, hs, w, .stop⟩
  | closeThrows {sh hs w} : ServerStep ⟨sh, hs, w, .close⟩ false
      ⟨{ sh.closeEngine sh.pointers with lock := sh.lock.unlock }, hs, w, .returned⟩
  | stop {sh hs w} : ServerStep ⟨sh, hs, w, .stop⟩ false
      ⟨{ sh.stopManager sh.pointers with lock := sh.lock.unlock }, hs, w, .returned⟩

/-- The pointers to one generation's engine, manager and collector. -/
def Pointers.generation (g : Nat) : Pointers := { engine := some ⟨g, some g⟩, manager := some g, metrics := some g }

/-- `run` has loaded its configuration and is about to accept; `watch` of the server's configuration. -/
def loaded (watch : Bool) : ServerState where
  shared := { pointers := .generation 0, loads := 1, attempt := ⟨.generation 0, 0⟩ }
  watcher := if watch then .sleep else .joined

/-- A run: its steps with their flags and the states they lead to. -/
inductive ServerRun : ServerState → List (Bool × ServerState) → Prop
  | nil {s} : ServerRun s []
  | cons {s threw s' rest} : ServerStep s threw s' → ServerRun s' rest → ServerRun s ((threw, s') :: rest)

end Pineapple.CppServer
