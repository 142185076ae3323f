import Mathlib.Data.List.Basic
import Mathlib.Data.List.Nodup
import Mathlib.Data.List.TakeWhile
import Mathlib.Data.List.Enum
import Mathlib.Tactic.ByContra

/-! # Loading a configuration in Go (`server.go`, `pine.go`, `resource.go`)

`NewServer` and `reloadConfig` build an engine and a resource manager from one configuration text. A load is
modelled by the answers its steps get, in the order in which they ask; a ledger records what was made on the
way that has a `Close`, and what was closed. -/

namespace Pineapple.GoLoad

inductive Closable
  | engine
  /-- the operator instance at a position of the sequence -/
  | instance (i : Nat)
  /-- the value fetched at a position of the manager's resources -/
  | value (i : Nat)
deriving DecidableEq

structure Ledger where
  made : List Closable := []
  closed : List Closable := []

def Ledger.make (l : Ledger) (x : Closable) : Ledger := { l with made := l.made ++ [x] }

def Ledger.close (l : Ledger) (xs : List Closable) : Ledger := { l with closed := l.closed ++ xs }

/-! ## The answers -/

/-- How one round of the loop over the operators goes: the type is registered and its parameters pass, `Init`
succeeds, and the checks after that pass. -/
structure OperatorBuild where
  known : Bool
  init : Bool
  checks : Bool
  closer : Bool

structure Fetch where
  fetched : Bool
  closer : Bool

structure LoadAttempt where
  read : Bool
  /-- the operators of the sequence, when the text parses, expands and keeps the order of its sources -/
  operators : Option (List OperatorBuild)
  dag : Bool
  /-- `LoadFromRootConfig` -/
  register : Bool
  /-- the manager handed to `NewServer` was started before -/
  alreadyStarted : Bool
  /-- the resources in the order of the map -/
  fetches : List Fetch
  deps : Bool

/-! ## `NewEngine` and `Close` -/

/-- The loop of `NewEngine` over the sequence, from position `i` on. -/
def buildOperators : List OperatorBuild → Nat → Ledger → Ledger × Bool
  | [], _, l => (l, true)
  | op :: rest, i, l =>
    if !op.known then (l, false)
    else
      let l := if op.closer then l.make (.instance i) else l
      if !op.init then (l, false)
      else if !op.checks then (l, false)
      else buildOperators rest (i + 1) l

def newEngine (a : LoadAttempt) (l : Ledger) : Ledger × Bool :=
  match a.operators with
  | none => (l, false)
  | some ops =>
    let built := buildOperators ops 0 l
    if !built.2 then built
    else if !a.dag then (built.1, false)
    else (built.1.make .engine, true)

/-- The positions, from `i` on, whose flag is set. -/
def marked : List Bool → Nat → List Nat
  | [], _ => []
  | flag :: rest, i => if flag then i :: marked rest (i + 1) else marked rest (i + 1)

/-- The instances with a `Close` among operators from position `i` on. -/
def instances (ops : List OperatorBuild) (i : Nat) : List Closable :=
  (marked (ops.map OperatorBuild.closer) i).map .instance

/-- `Engine.Close`. -/
def engineClose (a : LoadAttempt) (l : Ledger) : Ledger :=
  l.close (instances (a.operators.getD []) 0 ++ [.engine])

/-! ## `Manager.Start` and `Stop` -/

/-- The loop of `Start` from position `i` on, with the values loaded so far; a fetch that fails rolls back. -/
def startLoop : List Fetch → Nat → List Closable → Ledger → Ledger × Option (List Closable)
  | [], _, loaded, l => (l, some loaded)
  | f :: rest, i, loaded, l =>
    if !f.fetched then (l.close loaded, none)
    else if f.closer then startLoop rest (i + 1) (loaded ++ [.value i]) (l.make (.value i))
    else startLoop rest (i + 1) loaded l

/-- `Start`: the values of a manager that has started. -/
def start (a : LoadAttempt) (l : Ledger) : Ledger × Option (List Closable) :=
  if a.alreadyStarted then (l, none) else startLoop a.fetches 0 [] l

/-- `Stop`, which does nothing to a manager that has not started. -/
def stop (values : Option (List Closable)) (l : Ledger) : Ledger := l.close (values.getD [])

/-! ## The two callers -/

/-- How a load ended, and the snapshot pointer after it. -/
structure Outcome where
  ledger : Ledger
  snapshot : Option Nat
  ok : Bool

/-- The deferred rollback of `NewServer`. What a manager that was started before holds is not of this load. -/
def rollback (a : LoadAttempt) (values : Option (List Closable)) (l : Ledger) : Outcome :=
  { ledger := engineClose a (stop values l), snapshot := none, ok := false }

/-- `NewServer`, up to the publishing of the snapshot `new`. -/
def newServer (a : LoadAttempt) (new : Nat) : Outcome :=
  if !a.read then { ledger := {}, snapshot := none, ok := false }
  else
    let engine := newEngine a {}
    if !engine.2 then { ledger := engine.1, snapshot := none, ok := false }
    else if !a.register then rollback a none engine.1
    else
      let started := start a engine.1
      match started.2 with
      | none => rollback a none started.1
      | some values =>
        if !a.deps then rollback a (some values) started.1
        else { ledger := started.1, snapshot := some new, ok := true }

/-- `reloadConfig` of a server that shows `old`; its manager is its own. -/
def reloadConfig (a : LoadAttempt) (old : Option Nat) (new : Nat) : Outcome :=
  if !a.read then { ledger := {}, snapshot := old, ok := false }
  else
    let engine := newEngine a {}
    if !engine.2 then { ledger := engine.1, snapshot := old, ok := false }
    else if !a.register then { ledger := engine.1, snapshot := old, ok := false }
    else
      let started := startLoop a.fetches 0 [] engine.1
      match started.2 with
      | none => { ledger := started.1, snapshot := old, ok := false }
      | some values =>
        if !a.deps then { ledger := stop (some values) started.1, snapshot := old, ok := false }
        else { ledger := started.1, snapshot := some new, ok := true }

/-! ## What the steps make and close -/

def OperatorBuild.passes (op : OperatorBuild) : Bool := op.known && op.init && op.checks

/-- The operators whose instances are made: those that pass, and one that fails later than its factory. -/
def reached (ops : List OperatorBuild) : List OperatorBuild :=
  ops.takeWhile OperatorBuild.passes ++ ((ops.dropWhile OperatorBuild.passes).take 1).filter OperatorBuild.known

theorem reached_of_all {ops : List OperatorBuild} (h : ops.all OperatorBuild.passes = true) : reached ops = ops := by
  have hall : ∀ op ∈ ops, op.passes = true := List.all_eq_true.mp h
  rw [reached, List.takeWhile_eq_self_iff.mpr hall, List.dropWhile_eq_nil_iff.mpr hall]
  exact List.append_nil ops

theorem instances_cons (op : OperatorBuild) (rest : List OperatorBuild) (i : Nat) :
    instances (op :: rest) i = instances [op] i ++ instances rest (i + 1) := by
  simp only [instances, List.map_cons, List.map_nil, marked]
  cases op.closer <;> rfl

theorem buildOperators_eq (ops : List OperatorBuild) (i : Nat) (l : Ledger) :
    buildOperators ops i l =
      ({ l with made := l.made ++ instances (reached ops) i }, ops.all OperatorBuild.passes) := by
  induction ops generalizing i l with
  | nil => simp [buildOperators, reached, instances, marked]
  | cons op rest ih =>
    have hmake : (if op.closer then l.make (.instance i) else l) =
        { l with made := l.made ++ instances [op] i } := by
      cases hc : op.closer <;> simp [instances, marked, hc, Ledger.make]
    rw [buildOperators, hmake]
    cases hk : op.known with
    | false =>
      have hp : op.passes = false := by simp [OperatorBuild.passes, hk]
      simp [reached, hp, hk, instances, marked]
    | true =>
      cases hi : op.init with
      | false =>
        have hp : op.passes = false := by simp [OperatorBuild.passes, hi]
        simp [reached, hp, hk]
      | true =>
        cases hc : op.checks with
        | false =>
          have hp : op.passes = false := by simp [OperatorBuild.passes, hc]
          simp [reached, hp, hk]
        | true =>
          have hp : op.passes = true := by simp [OperatorBuild.passes, hk, hi, hc]
          have hreached : reached (op :: rest) = op :: reached rest := by simp [reached, hp]
          simp only [Bool.not_true, Bool.false_eq_true, if_false]
          rw [ih, hreached, instances_cons op (reached rest), List.all_cons, hp, Bool.true_and, List.append_assoc]

/-- An operator does not pass, or the DAG is not built. -/
theorem newEngine_fails {a : LoadAttempt} {ops : List OperatorBuild} (hops : a.operators = some ops)
    (h : (ops.all OperatorBuild.passes && a.dag) = false) :
    newEngine a {} = ({ made := instances (reached ops) 0 }, false) := by
  unfold newEngine
  rw [hops]
  dsimp only
  rw [buildOperators_eq]
  cases hp : ops.all OperatorBuild.passes with
  | false => rfl
  | true =>
    rw [hp, Bool.true_and] at h
    rw [h]
    rfl

theorem newEngine_built {a : LoadAttempt} {ops : List OperatorBuild} (hops : a.operators = some ops)
    (h : (ops.all OperatorBuild.passes && a.dag) = true) :
    newEngine a {} = ({ made := instances ops 0 ++ [.engine] }, true) := by
  obtain ⟨hp, hd⟩ := Bool.and_eq_true_iff.mp h
  unfold newEngine
  rw [hops]
  dsimp only
  rw [buildOperators_eq, reached_of_all hp, hp, hd]
  rfl

/-- The values with a `Close` that `Start` loads before it fails, or all of them. -/
def values (fetches : List Fetch) (i : Nat) : List Closable :=
  (marked ((fetches.takeWhile Fetch.fetched).map Fetch.closer) i).map .value

theorem startLoop_eq (fetches : List Fetch) (i : Nat) (loaded : List Closable) (l : Ledger) :
    startLoop fetches i loaded l =
      if fetches.all Fetch.fetched then ({ l with made := l.made ++ values fetches i }, some (loaded ++ values fetches i))
      else ({ made := l.made ++ values fetches i, closed := l.closed ++ (loaded ++ values fetches i) }, none) := by
  induction fetches generalizing i loaded l with
  | nil => simp [startLoop, values, marked]
  | cons f rest ih =>
    rw [startLoop]
    cases hf : f.fetched with
    | false => simp [hf, values, marked, Ledger.close]
    | true =>
      cases hc : f.closer with
      | true =>
        have hvalues : values (f :: rest) i = .value i :: values rest (i + 1) := by simp [values, hf, hc, marked]
        simp [ih, hf, hvalues, Ledger.make]
      | false =>
        have hvalues : values (f :: rest) i = values rest (i + 1) := by simp [values, hf, hc, marked]
        simp [ih, hf, hvalues]

theorem le_of_mem_marked {flags : List Bool} {i j : Nat} (h : j ∈ marked flags i) : i ≤ j := by
  induction flags generalizing i with
  | nil => exact absurd h List.not_mem_nil
  | cons flag rest ih =>
    rw [marked] at h
    split at h
    · rcases List.mem_cons.mp h with rfl | h
      · exact Nat.le_refl _
      · exact Nat.le_of_succ_le (ih h)
    · exact Nat.le_of_succ_le (ih h)

theorem marked_nodup (flags : List Bool) (i : Nat) : (marked flags i).Nodup := by
  induction flags generalizing i with
  | nil => exact List.nodup_nil
  | cons flag rest ih =>
    rw [marked]
    split
    · exact List.nodup_cons.mpr ⟨fun h => Nat.not_succ_le_self i (le_of_mem_marked h), ih _⟩
    · exact ih _

theorem made_nodup (ops : List OperatorBuild) (fetches : List Fetch) :
    (instances ops 0 ++ [Closable.engine] ++ values fetches 0).Nodup := by
  have hi : (instances ops 0).Nodup := (marked_nodup _ 0).map fun _ _ h => Closable.instance.inj h
  have hv : (values fetches 0).Nodup := (marked_nodup _ 0).map fun _ _ h => Closable.value.inj h
  rw [List.nodup_append', List.nodup_append']
  refine ⟨⟨hi, List.nodup_singleton _, ?_⟩, hv, ?_⟩
  · simp [instances]
  · intro x hx hx'
    obtain ⟨j, -, rfl⟩ := List.mem_map.mp hx'
    rcases List.mem_append.mp hx with hx | hx
    · obtain ⟨k, -, hk⟩ := List.mem_map.mp hx
      cases hk
    · cases List.mem_singleton.mp hx

/-! ## What a failed load leaves behind -/

/-- Everything made is closed exactly once. -/
def Ledger.Clean (l : Ledger) : Prop := ∀ x ∈ l.made, l.closed.count x = 1

theorem Ledger.clean_of_perm {l : Ledger} (hnodup : l.made.Nodup) (h : l.closed.Perm l.made) : l.Clean := by
  intro x hx
  rw [h.count_eq]
  exact List.count_eq_one_of_mem hnodup hx

theorem Ledger.clean_iff_of_closed_nil {l : Ledger} (h : l.closed = []) : l.Clean ↔ l.made = [] := by
  constructor
  · intro hclean
    by_contra hne
    obtain ⟨x, hx⟩ := List.exists_mem_of_ne_nil _ hne
    have := hclean x hx
    rw [h] at this
    cases this
  · intro hnil x hx
    rw [hnil] at hx
    exact absurd hx List.not_mem_nil

/-- A load that fails leaves the snapshot as it was and nothing open. -/
def Outcome.LeavesNothing (o : Outcome) (old : Option Nat) : Prop :=
  o.ok = false → o.snapshot = old ∧ o.ledger.Clean

namespace LoadAttempt

/-- The text is read and the engine is made from it. -/
def buildsEngine (a : LoadAttempt) : Bool :=
  a.read && (a.operators.map fun ops => ops.all OperatorBuild.passes && a.dag).getD false

/-- No instance with a `Close` is made before the engine construction ends. -/
def makesNoCloser (a : LoadAttempt) : Bool :=
  !a.read || (a.operators.map fun ops => (reached ops).all fun op => !op.closer).getD true

/-- The steps of `reloadConfig` after the engine construction. -/
def buildsManager (a : LoadAttempt) : Bool := a.register && a.fetches.all Fetch.fetched && a.deps

end LoadAttempt

theorem instances_eq_nil_iff (ops : List OperatorBuild) (i : Nat) :
    instances ops i = [] ↔ (ops.all fun op => !op.closer) = true := by
  induction ops generalizing i with
  | nil => simp [instances, marked]
  | cons op rest ih =>
    rw [instances_cons, List.append_eq_nil_iff, ih, List.all_cons, Bool.and_eq_true]
    refine and_congr_left fun _ => ?_
    cases hc : op.closer <;> simp [instances, marked, hc]

variable {a : LoadAttempt} {ops : List OperatorBuild} {old : Option Nat} {new : Nat}

/-- The engine construction fails: nobody closes the instances made before. -/
theorem engine_fails_iff (hread : a.read = true) (hfails : a.buildsEngine = false) :
    (newEngine a {}).2 = false ∧ ((newEngine a {}).1.Clean ↔ a.makesNoCloser = true) := by
  unfold LoadAttempt.makesNoCloser
  rw [hread, Bool.not_true, Bool.false_or]
  cases hops : a.operators with
  | none =>
    have hnew : newEngine a {} = ({}, false) := by
      unfold newEngine
      rw [hops]
    rw [hnew]
    exact ⟨rfl, iff_of_true (fun _ hx => absurd hx List.not_mem_nil) rfl⟩
  | some ops =>
    have hb : (ops.all OperatorBuild.passes && a.dag) = false := by
      simpa [LoadAttempt.buildsEngine, hread, hops] using hfails
    rw [newEngine_fails hops hb]
    exact ⟨rfl, (Ledger.clean_iff_of_closed_nil rfl).trans (instances_eq_nil_iff _ 0)⟩

theorem engine_builds (h : a.buildsEngine = true) :
    a.read = true ∧ ∃ ops, a.operators = some ops ∧ newEngine a {} = ({ made := instances ops 0 ++ [.engine] }, true) := by
  unfold LoadAttempt.buildsEngine at h
  obtain ⟨hread, hb⟩ := Bool.and_eq_true_iff.mp h
  refine ⟨hread, ?_⟩
  cases hops : a.operators with
  | none =>
    rw [hops] at hb
    cases hb
  | some ops =>
    rw [hops] at hb
    exact ⟨ops, rfl, newEngine_built hops hb⟩

/-- The rollback of `NewServer` closes the engine and what `Start` made, if `Start` has not closed that itself. -/
theorem rollback_clean (hops : a.operators = some ops) {vs : Option (List Closable)} {l : Ledger}
    {loaded : List Closable} (hmade : l.made = instances ops 0 ++ [.engine] ++ loaded)
    (hclosed : l.closed ++ vs.getD [] = loaded) (hnodup : l.made.Nodup) : (rollback a vs l).ledger.Clean := by
  refine Ledger.clean_of_perm hnodup ?_
  show ((l.closed ++ vs.getD []) ++ (instances (a.operators.getD []) 0 ++ [Closable.engine])).Perm l.made
  rw [hclosed, hops, hmade]
  exact List.perm_append_comm

theorem newServer_clean (hb : a.buildsEngine = true) : (newServer a new).LeavesNothing none := by
  obtain ⟨hread, ops, hops, hnew⟩ := engine_builds hb
  have hnodup := made_nodup ops a.fetches
  have hnodup' : (instances ops 0 ++ [Closable.engine]).Nodup := hnodup.of_append_left
  have hearly : (rollback a none { made := instances ops 0 ++ [.engine] }).ledger.Clean :=
    rollback_clean hops (List.append_nil _).symm rfl hnodup'
  unfold newServer start
  rw [hread, hnew]
  simp only [Bool.not_true, Bool.false_eq_true, if_false]
  cases a.register with
  | false => exact fun _ => ⟨rfl, hearly⟩
  | true =>
    cases a.alreadyStarted with
    | true => exact fun _ => ⟨rfl, hearly⟩
    | false =>
      simp only [Bool.not_true, Bool.false_eq_true, if_false]
      rw [startLoop_eq]
      cases a.fetches.all Fetch.fetched with
      | false => exact fun _ => ⟨rfl, rollback_clean hops rfl (List.append_nil _) hnodup⟩
      | true =>
        cases a.deps with
        | false => exact fun _ => ⟨rfl, rollback_clean hops rfl rfl hnodup⟩
        | true => exact fun h => by cases h

/-- Once the engine is made, `reloadConfig` closes it on none of its ways out. -/
theorem reloadConfig_clean_iff (hb : a.buildsEngine = true) :
    (reloadConfig a old new).LeavesNothing old ↔ a.buildsManager = true := by
  obtain ⟨hread, ops, hops, hnew⟩ := engine_builds hb
  have hmem (vs : List Closable) : Closable.engine ∈ instances ops 0 ++ [.engine] ++ vs := by simp
  have hopen (vs : List Closable) (hvs : vs = [] ∨ vs = values a.fetches 0) : vs.count Closable.engine ≠ 1 := by
    have hnot : Closable.engine ∉ vs := by
      rcases hvs with rfl | rfl
      · exact List.not_mem_nil
      · simp [values]
    rw [List.count_eq_zero_of_not_mem hnot]
    exact Nat.zero_ne_one
  unfold reloadConfig LoadAttempt.buildsManager
  rw [hread, hnew]
  simp only [Bool.not_true, Bool.false_eq_true, if_false]
  cases a.register with
  | false => exact iff_of_false (fun h => hopen [] (.inl rfl) ((h rfl).2 _ (by simp))) (by simp)
  | true =>
    rw [startLoop_eq]
    cases a.fetches.all Fetch.fetched with
    | false => exact iff_of_false (fun h => hopen _ (.inr rfl) ((h rfl).2 _ (hmem _))) (by simp)
    | true =>
      cases a.deps with
      | false => exact iff_of_false (fun h => hopen _ (.inr rfl) ((h rfl).2 _ (hmem _))) (by simp)
      | true => exact iff_of_true (fun h => by cases h) rfl

/-- A load whose engine construction fails closes nothing, so it may not have made an instance with a `Close`. -/
theorem load_fails_iff (hb : a.buildsEngine = false) :
    ((newServer a new).LeavesNothing none ↔ a.makesNoCloser = true) ∧
      ((reloadConfig a old new).LeavesNothing old ↔ a.makesNoCloser = true) := by
  cases hread : a.read with
  | false =>
    have hnone : a.makesNoCloser = true := by simp [LoadAttempt.makesNoCloser, hread]
    have hclean : ({} : Ledger).Clean := fun _ hx => absurd hx List.not_mem_nil
    unfold newServer reloadConfig
    rw [hread]
    exact ⟨iff_of_true (fun _ => ⟨rfl, hclean⟩) hnone, iff_of_true (fun _ => ⟨rfl, hclean⟩) hnone⟩
  | true =>
    obtain ⟨hfails, hclean⟩ := engine_fails_iff hread hb
    unfold newServer reloadConfig
    rw [hread]
    simp only [Bool.not_true, Bool.false_eq_true, if_false]
    rw [hfails, ← hclean]
    exact ⟨⟨fun h => (h rfl).2, fun h _ => ⟨rfl, h⟩⟩, ⟨fun h => (h rfl).2, fun h _ => ⟨rfl, h⟩⟩⟩

/-- A failed load leaves nothing behind exactly when the engine was made and, on a reload, nothing after it
failed, or when no instance with a `Close` was made by an engine construction that fails. -/
theorem failed_load_leaves_nothing_iff (a : LoadAttempt) (old : Option Nat) (new : Nat) :
    ((newServer a new).LeavesNothing none ↔ a.buildsEngine = true ∨ a.makesNoCloser = true) ∧
      ((reloadConfig a old new).LeavesNothing old ↔
        if a.buildsEngine then a.buildsManager = true else a.makesNoCloser = true) := by
  cases hb : a.buildsEngine with
  | true => exact ⟨iff_of_true (newServer_clean hb) (.inl rfl), reloadConfig_clean_iff hb⟩
  | false =>
    obtain ⟨hserver, hreload⟩ := @load_fails_iff a old new hb
    simp only [Bool.false_eq_true, false_or, if_false]
    exact ⟨hserver, hreload⟩

/-- One operator with a `Close` that names a resource the configuration does not have. -/
def missingResource : LoadAttempt where
  read := true
  operators := some [{ known := true, init := true, checks := true, closer := true }]
  dag := true
  register := true
  alreadyStarted := false
  fetches := []
  deps := false

/-- The engine of the failed reload stays open; `NewServer` closes the one it made. -/
theorem reload_keeps_engine_open :
    ¬ (reloadConfig missingResource (some 0) 1).LeavesNothing (some 0) ∧
      (newServer missingResource 1).LeavesNothing none := by
  refine ⟨fun h => ?_, fun _ => ⟨rfl, fun x hx => ?_⟩⟩
  · have hclosed := (h rfl).2 Closable.engine (by decide)
    revert hclosed
    decide
  · have hone : ∀ x ∈ (newServer missingResource 1).ledger.made,
        (newServer missingResource 1).ledger.closed.count x = 1 := by decide
    exact hone x hx

end Pineapple.GoLoad
