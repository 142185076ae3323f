import Mathlib.Algebra.Order.Group.Nat
import Mathlib.Data.List.Basic
import Mathlib.Logic.Function.Basic
import Mathlib.Logic.Relation
import Mathlib.Tactic.Common

/-! # How the C++ request contexts are cancelled (`request_context.cpp`)

Contexts form a tree. A child's callback stands on its parent's stop source from `link` on, and a context with a deadline
of its own has an entry at the timer. A `cancel` call publishes the cause, requests the stop, which runs the children's
callbacks, drops the timer entry and then, unless it came from the parent, the link. Calls by users, by the timer and by
the parents run beside one another and beside the creation of further contexts; each access to an atomic, to the timer
under `mu_` or to the list of callbacks is one step. -/

namespace Pineapple.CancelTree
open Relation

inductive Cause where
  | canceled
  | deadlineExceeded
deriving DecidableEq

/-! ## The tree and its deadlines -/

/-- The contexts of a run: what each was made from, and the deadline it was asked for (none by `with_cancel`). -/
structure Tree where
  parent : Nat → Option Nat
  parent_lt : ∀ {i p}, parent i = some p → p < i
  requested : Nat → Option Nat

/-- `with_deadline` falls back to `with_cancel` where the parent's deadline is no later. -/
def ownDeadline (inherited requested : Option Nat) : Option Nat :=
  match requested with
  | none => none
  | some d => if inherited.any (· ≤ d) then none else some d

namespace Tree

def deadline (tree : Tree) (i : Nat) : Option Nat :=
  let inherited := match _h : tree.parent i with
    | none => none
    | some p => tree.deadline p
  (ownDeadline inherited (tree.requested i)).or inherited
termination_by i
decreasing_by exact tree.parent_lt ‹_›

def inherited (tree : Tree) (i : Nat) : Option Nat :=
  (tree.parent i).bind tree.deadline

/-- The deadline the context is armed with, if it is. -/
def own (tree : Tree) (i : Nat) : Option Nat :=
  ownDeadline (tree.inherited i) (tree.requested i)

/-- `a` is `i` or an ancestor of it. -/
def Above (tree : Tree) : Nat → Nat → Prop :=
  ReflTransGen fun p i => tree.parent i = some p

variable {tree : Tree} {i p a d e : Nat}

theorem deadline_eq (tree : Tree) (i : Nat) : tree.deadline i = (tree.own i).or (tree.inherited i) := by
  rw [deadline]
  unfold own inherited
  split <;> rename_i h <;> rw [h] <;> rfl

theorem inherited_of (h : tree.parent i = some p) : tree.inherited i = tree.deadline p := by
  rw [inherited, h]
  rfl

theorem inherited_root (h : tree.parent i = none) : tree.inherited i = none := by
  rw [inherited, h]
  rfl

theorem own_spec (h : tree.own i = some d) : tree.requested i = some d ∧ ∀ e, tree.inherited i = some e → d < e := by
  unfold own ownDeadline at h
  split at h
  · cases h
  · next hreq =>
    split at h
    · cases h
    · next hnot =>
      rw [Option.some.inj h] at hreq hnot
      refine ⟨hreq, fun e he => ?_⟩
      rw [he] at hnot
      exact not_le.mp fun hle => hnot (decide_eq_true hle)

theorem own_none (h : tree.own i = none) (hreq : tree.requested i = some d) :
    ∃ e, tree.inherited i = some e ∧ e ≤ d := by
  unfold own ownDeadline at h
  rw [hreq] at h
  dsimp only at h
  split at h
  · next hany =>
    obtain ⟨e, he, hle⟩ := (Option.any_eq_true ..).mp hany
    exact ⟨e, he, of_decide_eq_true hle⟩
  · cases h

theorem deadline_own (h : tree.own i = some d) : tree.deadline i = some d := by
  rw [deadline_eq, h]
  rfl

/-- A child's deadline is no later than its parent's. -/
theorem deadline_le_parent (hp : tree.parent i = some p) (h : tree.deadline p = some e) :
    ∃ d, tree.deadline i = some d ∧ d ≤ e := by
  rw [← inherited_of hp] at h
  cases hown : tree.own i with
  | some d => exact ⟨d, deadline_own hown, ((own_spec hown).2 e h).le⟩
  | none => exact ⟨e, by rw [deadline_eq, hown, h]; rfl, le_rfl⟩

theorem deadline_le_above (ha : tree.Above a i) (h : tree.deadline a = some e) :
    ∃ d, tree.deadline i = some d ∧ d ≤ e := by
  induction ha with
  | refl => exact ⟨e, h, le_rfl⟩
  | tail _ hp ih =>
    obtain ⟨d, hd, hle⟩ := ih
    obtain ⟨d', hd', hle'⟩ := deadline_le_parent hp hd
    exact ⟨d', hd', hle'.trans hle⟩

/-- The deadline comes from a context that is armed with it. -/
theorem deadline_armed (i : Nat) (h : tree.deadline i = some d) : ∃ a, tree.Above a i ∧ tree.own a = some d := by
  induction i using Nat.strong_induction_on with
  | h i ih =>
    cases hown : tree.own i with
    | some d' =>
      rw [deadline_own hown] at h
      exact ⟨i, .refl, hown.trans h⟩
    | none =>
      rw [deadline_eq, hown, Option.none_or] at h
      cases hp : tree.parent i with
      | none =>
        rw [inherited_root hp] at h
        cases h
      | some p =>
        rw [inherited_of hp] at h
        obtain ⟨a, ha, hown⟩ := ih p (tree.parent_lt hp) h
        exact ⟨a, ha.tail hp, hown⟩

/-- The effective deadline is the least of those asked for on the way to the root. -/
theorem deadline_least (tree : Tree) (i : Nat) :
    (∀ d, tree.deadline i = some d → ∃ a, tree.Above a i ∧ tree.requested a = some d) ∧
      ∀ a e, tree.Above a i → tree.requested a = some e → ∃ d, tree.deadline i = some d ∧ d ≤ e := by
  constructor
  · intro d h
    obtain ⟨a, ha, hown⟩ := deadline_armed i h
    exact ⟨a, ha, (own_spec hown).1⟩
  · intro a e ha hreq
    have hat : ∃ d, tree.deadline a = some d ∧ d ≤ e := by
      cases hown : tree.own a with
      | some d =>
        have hd := (own_spec hown).1
        rw [hreq] at hd
        exact ⟨d, deadline_own hown, (Option.some.inj hd).ge⟩
      | none =>
        obtain ⟨e', he', hle⟩ := own_none hown hreq
        exact ⟨e', by rw [deadline_eq, hown, he']; rfl, hle⟩
    obtain ⟨d, hd, hle⟩ := hat
    obtain ⟨d', hd', hle'⟩ := deadline_le_above ha hd
    exact ⟨d', hd', hle'.trans hle⟩

end Tree

/-! ## A signal -/

/-- How far the thread that makes the context has come. -/
inductive Stage where
  | absent
  /-- in `link` -/
  | linking
  /-- in `arm_deadline`: about to look whether the context is done -/
  | arming
  /-- about to look at the clock -/
  | timing
  /-- about to add the entry -/
  | adding
  /-- about to store the entry's id -/
  | storing
  /-- about to look again whether the context is done -/
  | rechecking
  | ready

/-- How far the `cancel` call has come that set the cause. -/
inductive Phase where
  | idle
  | stopping (fromParent : Bool)
  /-- in `request_stop`, which runs the callbacks -/
  | firing (fromParent : Bool)
  | untiming (fromParent : Bool)
  /-- in `release_link` -/
  | releasing
  | returned

namespace Phase

def Requested : Phase → Prop
  | firing _ | untiming _ | releasing | returned => True
  | _ => False

/-- The callbacks have run. -/
def Fired : Phase → Prop
  | untiming _ | releasing | returned => True
  | _ => False

theorem Fired.requested {phase : Phase} (h : phase.Fired) : phase.Requested := by
  cases phase <;> trivial

/-- The call does not release the link any more, or never does. -/
def Unlinking : Phase → Prop
  | stopping fromParent | firing fromParent | untiming fromParent => fromParent = true
  | returned => True
  | _ => False

def afterTimer (fromParent : Bool) : Phase :=
  if fromParent then returned else releasing

end Phase

structure Signal where
  stage : Stage := .absent
  cause : Option Cause := none
  phase : Phase := .idle
  /-- the stop was requested -/
  stopped : Bool := false
  /-- its callback is on the parent's list -/
  registered : Bool := false
  /-- it has an entry at the timer -/
  timer : Bool := false
  /-- `timer_id_` is set -/
  timerId : Bool := false

namespace Signal

/-- `link` has returned. -/
def Linked (g : Signal) : Prop :=
  g.stage ≠ .absent ∧ g.stage ≠ .linking

/-- What the maker and the `cancel` call do at the signal alone; `own` is the deadline it is armed with. -/
inductive Move (own : Option Nat) (now : Nat) : Signal → Signal → Prop
  | armLate {g} : g.stage = .arming → g.cause ≠ none → Move own now g { g with stage := .ready }
  | arm {g} : g.stage = .arming → g.cause = none → Move own now g { g with stage := .timing }
  | ahead {g d} : g.stage = .timing → own = some d → now < d → Move own now g { g with stage := .adding }
  | add {g} : g.stage = .adding → Move own now g { g with stage := .storing, timer := true }
  | store {g} : g.stage = .storing → Move own now g { g with stage := .rechecking, timerId := true }
  /-- a cancel that raced the add saw no id -/
  | recheckLate {g} : g.stage = .rechecking → g.cause ≠ none → Move own now g { g with stage := .ready, timer := false }
  | recheck {g} : g.stage = .rechecking → g.cause = none → Move own now g { g with stage := .ready }
  | requestStop {g fromParent} : g.phase = .stopping fromParent →
      Move own now g { g with phase := .firing fromParent, stopped := true }
  | removeTimer {g fromParent} : g.phase = .untiming fromParent → g.timerId = true →
      Move own now g { g with phase := .afterTimer fromParent, timer := false }
  | noTimer {g fromParent} : g.phase = .untiming fromParent → g.timerId = false →
      Move own now g { g with phase := .afterTimer fromParent }

end Signal

/-! ## All contexts -/

/-- A call of `cancel` that has not tried to set the cause yet. -/
structure Call where
  ctx : Nat
  cause : Cause
  fromParent : Bool

structure State where
  now : Nat
  signals : Nat → Signal := fun _ => {}
  pending : List Call := []
  /-- the contexts that a user cancelled or whose deadline the timer, or the maker, found passed -/
  struck : List (Nat × Cause) := []

namespace State

def set (s : State) (i : Nat) (g : Signal) : State :=
  { s with signals := Function.update s.signals i g }

def strike (s : State) (i : Nat) (cause : Cause) : State :=
  { s with pending := ⟨i, cause, false⟩ :: s.pending, struck := (i, cause) :: s.struck }

/-- No `cancel` call is under way. -/
def Quiet (s : State) : Prop :=
  s.pending = [] ∧ ∀ i, (s.signals i).phase = .idle ∨ (s.signals i).phase = .returned

/-- The context is done or about to be: a call for it is under way. -/
def Called (s : State) (i : Nat) : Prop :=
  (s.signals i).cause ≠ none ∨ ∃ call ∈ s.pending, call.ctx = i

end State

/-- Where `with_cancel` is through and `with_deadline` arms. -/
def Tree.afterLink (tree : Tree) (i : Nat) : Stage :=
  if (tree.own i).isSome then .arming else .ready

inductive Step (tree : Tree) : State → State → Prop
  | move {s i g} : (s.signals i).Move (tree.own i) s.now g → Step tree s (s.set i g)
  | create {s i} : (s.signals i).stage = .absent → (∀ p, tree.parent i = some p → (s.signals p).stage = .ready) →
      Step tree s (s.set i { s.signals i with stage := .linking })
  | linkRoot {s i} : (s.signals i).stage = .linking → tree.parent i = none →
      Step tree s (s.set i { s.signals i with stage := tree.afterLink i })
  | register {s i p} : (s.signals i).stage = .linking → tree.parent i = some p → (s.signals p).stopped = false →
      Step tree s (s.set i { s.signals i with stage := tree.afterLink i, registered := true })
  /-- the parent is done: the callback runs at once -/
  | runNow {s i p c} : (s.signals i).stage = .linking → tree.parent i = some p → (s.signals p).stopped = true →
      (s.signals p).cause = some c →
      Step tree s { s.set i { s.signals i with stage := tree.afterLink i } with pending := ⟨i, c, true⟩ :: s.pending }
  /-- `arm_deadline` finds the deadline passed -/
  | past {s i d} : (s.signals i).stage = .timing → tree.own i = some d → d ≤ s.now →
      Step tree s ((s.set i { s.signals i with stage := .ready }).strike i .deadlineExceeded)
  | cancel {s i} : (s.signals i).stage = .ready → Step tree s (s.strike i .canceled)
  | fire {s i d} : (s.signals i).timer = true → tree.own i = some d → d ≤ s.now →
      Step tree s ((s.set i { s.signals i with timer := false }).strike i .deadlineExceeded)
  | lose {s pre call post} : s.pending = pre ++ call :: post → (s.signals call.ctx).cause ≠ none →
      Step tree s { s with pending := pre ++ post }
  | win {s pre call post} : s.pending = pre ++ call :: post → (s.signals call.ctx).cause = none →
      Step tree s { s.set call.ctx { s.signals call.ctx with cause := some call.cause, phase := .stopping call.fromParent }
                    with pending := pre ++ post }
  | callback {s i p c fromParent} : tree.parent i = some p → (s.signals p).phase = .firing fromParent →
      (s.signals p).cause = some c → (s.signals i).registered = true →
      Step tree s { s.set i { s.signals i with registered := false } with pending := ⟨i, c, true⟩ :: s.pending }
  | fired {s p fromParent} : (s.signals p).phase = .firing fromParent →
      (∀ i, tree.parent i = some p → (s.signals i).registered = false) →
      Step tree s (s.set p { s.signals p with phase := .untiming fromParent })
  /-- waits for the callback where it is running -/
  | release {s i} : (s.signals i).phase = .releasing → (∀ call ∈ s.pending, call.ctx = i → call.fromParent = false) →
      Step tree s (s.set i { s.signals i with registered := false, phase := .returned })
  | tick {s} : Step tree s { s with now := s.now + 1 }

def Reachable (tree : Tree) (now : Nat) : State → Prop :=
  ReflTransGen (Step tree) { now }

/-! ## One signal -/

namespace Signal
variable {own : Option Nat} {now : Nat} {g g' : Signal}

structure Ok (g : Signal) : Prop where
  fresh : ¬ g.Linked → g.cause = none ∧ g.registered = false ∧ g.timer = false ∧ g.timerId = false
  idle : g.cause = none ↔ g.phase = .idle
  requested : g.phase.Requested → g.stopped = true
  entry : g.timer = true → g.stage = .storing ∨ g.timerId = true
  id : g.timerId = true → g.stage = .rechecking ∨ g.stage = .ready
  /-- where the call is through, the maker still looks after the entry it made -/
  late : g.phase = .releasing ∨ g.phase = .returned → g.timer = true → g.stage = .storing ∨ g.stage = .rechecking
  unlinked : g.phase.Unlinking → g.registered = false

theorem ok_new : Ok {} where
  fresh _ := ⟨rfl, rfl, rfl, rfl⟩
  idle := ⟨fun _ => rfl, fun _ => rfl⟩
  requested h := absurd h fun h => h
  entry h := absurd h nofun
  id h := absurd h nofun
  late _ h := absurd h nofun
  unlinked h := absurd h fun h => h

/-- What a move leaves as it was. -/
structure Same (g g' : Signal) : Prop where
  cause : g'.cause = g.cause
  registered : g'.registered = g.registered
  linked : g'.Linked ↔ g.Linked
  absent : g'.stage = .absent ↔ g.stage = .absent
  ready : g.stage = .ready → g'.stage = .ready
  fired : g'.phase.Fired ↔ g.phase.Fired
  stopped : g.stopped = true → g'.stopped = true

theorem Move.same (h : g.Move own now g') : Same g g' := by
  cases h <;> constructor <;> grind [Linked, Phase.Fired, Phase.afterTimer]

namespace Ok
variable {stage : Stage} {fromParent registered : Bool} {cause : Cause}

/-! What the maker does. -/

theorem create (h : g.Ok) (hstage : g.stage = .absent) : Ok { g with stage := .linking } := by
  constructor <;> grind [Ok, Linked]

theorem link (h : g.Ok) (hstage : g.stage = .linking) (hnext : stage = .arming ∨ stage = .ready) :
    Ok { g with stage := stage, registered := registered } := by
  have hnew := h.fresh (by simp [Linked, hstage])
  have hidle := h.idle.mp hnew.1
  constructor <;> grind [Ok, Linked, Phase.Unlinking]

/-- Before there is an entry. -/
theorem look (h : g.Ok) (hstage : g.stage = .arming ∨ g.stage = .timing)
    (hnext : stage = .timing ∨ stage = .adding ∨ stage = .ready) : Ok { g with stage := stage } := by
  constructor <;> grind [Ok, Linked]

theorem add (h : g.Ok) (hstage : g.stage = .adding) : Ok { g with stage := .storing, timer := true } := by
  constructor <;> grind [Ok, Linked]

theorem store (h : g.Ok) : Ok { g with stage := .rechecking, timerId := true } := by
  constructor <;> grind [Ok, Linked]

theorem recheckLate (h : g.Ok) : Ok { g with stage := .ready, timer := false } := by
  constructor <;> grind [Ok, Linked]

theorem recheck (h : g.Ok) (hstage : g.stage = .rechecking) (hcause : g.cause = none) :
    Ok { g with stage := .ready } := by
  have hidle := h.idle.mp hcause
  constructor <;> grind [Ok, Linked]

/-! What a `cancel` call does. -/

theorem win (h : g.Ok) (hlinked : g.Linked) (hregistered : fromParent = true → g.registered = false) :
    Ok { g with cause := some cause, phase := .stopping fromParent } := by
  constructor <;> grind [Ok, Linked, Phase.Requested, Phase.Unlinking]

theorem requestStop (h : g.Ok) (hphase : g.phase = .stopping fromParent) :
    Ok { g with phase := .firing fromParent, stopped := true } := by
  constructor <;> grind [Ok, Linked, Phase.Unlinking]

theorem fired (h : g.Ok) (hphase : g.phase = .firing fromParent) : Ok { g with phase := .untiming fromParent } := by
  constructor <;> grind [Ok, Linked, Phase.Requested, Phase.Unlinking]

theorem removeTimer (h : g.Ok) (hphase : g.phase = .untiming fromParent) :
    Ok { g with phase := .afterTimer fromParent, timer := false } := by
  constructor <;> grind [Ok, Linked, Phase.Requested, Phase.Unlinking, Phase.afterTimer]

theorem noTimer (h : g.Ok) (hphase : g.phase = .untiming fromParent) (hid : g.timerId = false) :
    Ok { g with phase := .afterTimer fromParent } := by
  constructor <;> grind [Ok, Linked, Phase.Requested, Phase.Unlinking, Phase.afterTimer]

theorem release (h : g.Ok) (hphase : g.phase = .releasing) :
    Ok { g with registered := false, phase := .returned } := by
  constructor <;> grind [Ok, Linked, Phase.Requested]

/-! What the timer and the parent do. -/

theorem fire (h : g.Ok) : Ok { g with timer := false } := by
  constructor <;> grind [Ok, Linked]

theorem callback (h : g.Ok) : Ok { g with registered := false } := by
  constructor <;> grind [Ok, Linked]

theorem move (h : g.Ok) (hmove : g.Move own now g') : g'.Ok := by
  cases hmove with
  | armLate hstage => exact h.look (Or.inl hstage) (Or.inr (Or.inr rfl))
  | arm hstage => exact h.look (Or.inl hstage) (Or.inl rfl)
  | ahead hstage => exact h.look (Or.inr hstage) (Or.inr (Or.inl rfl))
  | add hstage => exact h.add hstage
  | store => exact h.store
  | recheckLate => exact h.recheckLate
  | recheck hstage hcause => exact h.recheck hstage hcause
  | requestStop hphase => exact h.requestStop hphase
  | removeTimer hphase => exact h.removeTimer hphase
  | noTimer hphase hid => exact h.noTimer hphase hid

end Ok

end Signal

theorem Tree.afterLink_cases (tree : Tree) (i : Nat) : tree.afterLink i = .arming ∨ tree.afterLink i = .ready := by
  unfold afterLink
  split
  · exact Or.inl rfl
  · exact Or.inr rfl

/-! ## All signals -/

namespace State
variable (s : State) (i j : Nat) (g : Signal) (cause : Cause)

@[simp, grind =] theorem set_signals : (s.set i g).signals j = if j = i then g else s.signals j :=
  Function.update_apply ..

@[simp, grind =] theorem set_pending : (s.set i g).pending = s.pending := rfl
@[simp, grind =] theorem set_struck : (s.set i g).struck = s.struck := rfl
@[simp, grind =] theorem set_now : (s.set i g).now = s.now := rfl
@[simp, grind =] theorem strike_signals : (s.strike i cause).signals j = s.signals j := rfl
@[simp, grind =] theorem strike_pending : (s.strike i cause).pending = ⟨i, cause, false⟩ :: s.pending := rfl
@[simp, grind =] theorem strike_struck : (s.strike i cause).struck = (i, cause) :: s.struck := rfl
@[simp, grind =] theorem strike_now : (s.strike i cause).now = s.now := rfl

end State

/-- What no step takes back. -/
structure Grows (s t : State) : Prop where
  cause : ∀ {i c}, (s.signals i).cause = some c → (t.signals i).cause = some c
  called : ∀ {i}, s.Called i → t.Called i
  struck : ∀ {x}, x ∈ s.struck → x ∈ t.struck
  linked : ∀ {i}, (s.signals i).Linked → (t.signals i).Linked
  unregistered : ∀ {i}, (s.signals i).Linked → (s.signals i).registered = false → (t.signals i).registered = false
  ready : ∀ {i}, (s.signals i).stage = .ready → (t.signals i).stage = .ready
  now : s.now ≤ t.now

theorem Step.grows {tree : Tree} {s t : State} (h : Step tree s t) : Grows s t := by
  cases h with
  | move hmove =>
    have hsame := hmove.same
    constructor <;> grind [State.Called, Signal.Same]
  | _ => constructor <;> grind [State.Called, Signal.Linked]

/-! ## What holds in every run -/

/-- What the users, the timer and the parents call for. -/
structure Call.From (tree : Tree) (s : State) (call : Call) : Prop where
  linked : (s.signals call.ctx).Linked
  parent : call.fromParent = true → (s.signals call.ctx).registered = false ∧
    ∃ p, tree.parent call.ctx = some p ∧ (s.signals p).cause = some call.cause
  struck : call.fromParent = false → (call.ctx, call.cause) ∈ s.struck

/-- The maker is through with the timer. -/
def Stage.Armed : Stage → Prop
  | storing | rechecking | ready => True
  | _ => False

structure Inv (tree : Tree) (s : State) : Prop where
  ok : ∀ i, (s.signals i).Ok
  above : ∀ {i p}, tree.parent i = some p → (s.signals i).stage ≠ .absent → (s.signals p).stage = .ready
  calls : ∀ call ∈ s.pending, call.From tree s
  origin : ∀ {i c}, (s.signals i).cause = some c →
    (i, c) ∈ s.struck ∨ ∃ p, tree.parent i = some p ∧ (s.signals p).cause = some c
  heard : ∀ {i c}, (i, c) ∈ s.struck → s.Called i
  linked : ∀ {i p}, tree.parent i = some p → (s.signals i).Linked → (s.signals i).registered = true ∨ s.Called i
  cleared : ∀ {i p}, tree.parent i = some p → (s.signals p).phase.Fired → (s.signals i).registered = false
  due : ∀ {i}, (i, .deadlineExceeded) ∈ s.struck → ∃ d, tree.own i = some d ∧ d ≤ s.now
  armed : ∀ {i d}, tree.own i = some d → (s.signals i).stage.Armed → (s.signals i).timer = true ∨ s.Called i

namespace Inv
variable {tree : Tree} {s t : State}

theorem init (tree : Tree) (now : Nat) : Inv tree { now } where
  ok _ := Signal.ok_new
  above _ h := absurd rfl h
  calls _ h := absurd h List.not_mem_nil
  origin h := absurd h nofun
  heard h := absurd h List.not_mem_nil
  linked _ h := absurd rfl h.1
  cleared _ h := absurd h fun h => h
  due h := absurd h List.not_mem_nil
  armed _ h := absurd h fun h => h

theorem step_ok (h : Inv tree s) (hstep : Step tree s t) : ∀ i, (t.signals i).Ok := by
  have hset : ∀ {j : Nat} {g : Signal}, g.Ok → ∀ i, ((s.set j g).signals i).Ok := by
    intro j g hg i
    rw [State.set_signals]
    split
    · exact hg
    · exact h.ok i
  cases hstep with
  | move hmove => exact hset ((h.ok _).move hmove)
  | create hstage => exact hset ((h.ok _).create hstage)
  | linkRoot hstage | register hstage | runNow hstage => exact hset ((h.ok _).link hstage (tree.afterLink_cases _))
  | past hstage => exact hset ((h.ok _).look (Or.inr hstage) (Or.inr (Or.inr rfl)))
  | fire => exact hset (h.ok _).fire
  | win hpending =>
    have hfrom := h.calls _ (hpending ▸ List.mem_append_right _ List.mem_cons_self)
    exact hset ((h.ok _).win hfrom.linked fun hparent => (hfrom.parent hparent).1)
  | callback => exact hset (h.ok _).callback
  | fired hphase => exact hset ((h.ok _).fired hphase)
  | release hphase => exact hset ((h.ok _).release hphase)
  | cancel | lose | tick => exact h.ok

theorem step_above (h : Inv tree s) (hstep : Step tree s t) {i p : Nat} (hp : tree.parent i = some p)
    (hi : (t.signals i).stage ≠ .absent) : (t.signals p).stage = .ready := by
  refine hstep.grows.ready ?_
  cases hstep with
  | move hmove => grind [Inv, Signal.Same, hmove.same]
  | _ => grind [Inv]

theorem step_calls (h : Inv tree s) (hstep : Step tree s t) : ∀ call ∈ t.pending, call.From tree t := by
  have hgrows := hstep.grows
  have hkeep : ∀ call : Call, call.From tree s → call.From tree t := by
    intro call hcall
    refine ⟨hgrows.linked hcall.linked, fun hparent => ?_, fun hself => hgrows.struck (hcall.struck hself)⟩
    obtain ⟨hreg, p, hp, hc⟩ := hcall.parent hparent
    exact ⟨hgrows.unregistered hcall.linked hreg, p, hp, hgrows.cause hc⟩
  intro call hcall
  have hold := fun hmem => hkeep call (h.calls call hmem)
  cases hstep with
  | runNow hstage hp hstopped hc =>
    rcases List.mem_cons.mp hcall with rfl | hcall
    · constructor <;> grind [Signal.Linked, Tree.afterLink, Inv, Signal.Ok]
    · exact hold hcall
  | callback hp hphase hc hreg =>
    rcases List.mem_cons.mp hcall with rfl | hcall
    · constructor <;> grind [Signal.Linked, Inv, Signal.Ok]
    · exact hold hcall
  | past hstage hown hle =>
    rcases List.mem_cons.mp hcall with rfl | hcall
    · constructor <;> grind [Signal.Linked]
    · exact hold hcall
  | cancel hstage =>
    rcases List.mem_cons.mp hcall with rfl | hcall
    · constructor <;> grind [Signal.Linked]
    · exact hold hcall
  | fire htimer hown hle =>
    rcases List.mem_cons.mp hcall with rfl | hcall
    · constructor <;> grind [Signal.Linked, Inv, Signal.Ok]
    · exact hold hcall
  | lose hpending _ | win hpending _ => exact hold (by rw [hpending]; grind)
  | _ => exact hold hcall

theorem step_origin (h : Inv tree s) (hstep : Step tree s t) {i : Nat} {c : Cause} (hc : (t.signals i).cause = some c) :
    (i, c) ∈ t.struck ∨ ∃ p, tree.parent i = some p ∧ (t.signals p).cause = some c := by
  have hgrows := hstep.grows
  have hkeep : ((i, c) ∈ s.struck ∨ ∃ p, tree.parent i = some p ∧ (s.signals p).cause = some c) →
      (i, c) ∈ t.struck ∨ ∃ p, tree.parent i = some p ∧ (t.signals p).cause = some c :=
    Or.imp (fun hmem => hgrows.struck hmem) fun ⟨p, hp, hcause⟩ => ⟨p, hp, hgrows.cause hcause⟩
  refine hkeep ?_
  cases hstep with
  | move hmove => grind [Inv, Signal.Same, hmove.same]
  | @win pre call post hpending hnone =>
    have hfrom := h.calls call (hpending ▸ List.mem_append_right _ List.mem_cons_self)
    grind [Inv, Call.From]
  | _ => grind [Inv]

theorem step_heard (h : Inv tree s) (hstep : Step tree s t) {i : Nat} {c : Cause} (hmem : (i, c) ∈ t.struck) :
    t.Called i := by
  have hkeep : s.Called i → t.Called i := hstep.grows.called
  cases hstep with
  | past | cancel | fire =>
    rcases List.mem_cons.mp hmem with heq | hmem
    · exact Or.inr ⟨_, List.mem_cons_self, (Prod.mk.inj heq).1.symm⟩
    · exact hkeep (h.heard hmem)
  | _ => exact hkeep (h.heard hmem)

theorem step_linked (h : Inv tree s) (hstep : Step tree s t) {i p : Nat} (hp : tree.parent i = some p)
    (hlinked : (t.signals i).Linked) : (t.signals i).registered = true ∨ t.Called i := by
  have hkeep : s.Called i → t.Called i := hstep.grows.called
  cases hstep with
  | move hmove => grind [Inv, Signal.Same, hmove.same]
  | @runNow j | @callback j =>
    by_cases hj : j = i
    · exact Or.inr (Or.inr ⟨_, List.mem_cons_self, hj⟩)
    · grind [Inv, Signal.Linked]
  | _ => grind [Inv, Signal.Linked, State.Called, Signal.Ok]

theorem step_cleared (h : Inv tree s) (hstep : Step tree s t) {i p : Nat} (hp : tree.parent i = some p)
    (hfired : (t.signals p).phase.Fired) : (t.signals i).registered = false := by
  cases hstep with
  | move hmove => grind [Inv, Signal.Same, hmove.same]
  | @register j q hstage hq hstopped =>
    have hrequested := (h.ok p).requested
    have hnot : ¬ (s.signals p).phase.Fired ∨ q ≠ p := by
      by_cases heq : q = p
      · left
        intro hfired
        grind [hfired.requested]
      · exact Or.inr heq
    grind [Inv]
  | _ => grind [Inv, Signal.Linked, Signal.Ok, Phase.Fired, Phase.Requested]

theorem step_due (h : Inv tree s) (hstep : Step tree s t) {i : Nat} (hmem : (i, .deadlineExceeded) ∈ t.struck) :
    ∃ d, tree.own i = some d ∧ d ≤ t.now := by
  have hnow := hstep.grows.now
  have hkeep : (i, .deadlineExceeded) ∈ s.struck → ∃ d, tree.own i = some d ∧ d ≤ t.now := fun hold => by
    obtain ⟨d, hd, hle⟩ := h.due hold
    exact ⟨d, hd, hle.trans hnow⟩
  cases hstep with
  | past _ hown hle | fire _ hown hle =>
    rcases List.mem_cons.mp hmem with heq | hmem
    · exact ⟨_, (Prod.mk.inj heq).1 ▸ hown, hle⟩
    · exact hkeep hmem
  | cancel => exact hkeep (by grind)
  | _ => exact hkeep hmem

theorem step_armed (h : Inv tree s) (hstep : Step tree s t) {i d : Nat} (hown : tree.own i = some d)
    (harmed : (t.signals i).stage.Armed) : (t.signals i).timer = true ∨ t.Called i := by
  have hkeep : s.Called i → t.Called i := hstep.grows.called
  cases hstep with
  | @move j g hmove =>
    by_cases hj : i = j
    · subst hj
      have hi := h.ok i
      cases hmove <;> grind [Inv, Signal.Ok, Stage.Armed, State.Called]
    · grind [Inv]
  | @past j | @fire j =>
    by_cases hj : j = i
    · exact Or.inr (Or.inr ⟨_, List.mem_cons_self, hj⟩)
    · grind [Inv]
  | _ => grind [Inv, Stage.Armed, State.Called, Tree.afterLink]

theorem step (h : Inv tree s) (hstep : Step tree s t) : Inv tree t where
  ok := h.step_ok hstep
  above := h.step_above hstep
  calls := h.step_calls hstep
  origin := h.step_origin hstep
  heard := h.step_heard hstep
  linked := h.step_linked hstep
  cleared := h.step_cleared hstep
  due := h.step_due hstep
  armed := h.step_armed hstep

theorem reachable {now : Nat} (h : Reachable tree now s) : Inv tree s := by
  induction h with
  | refl => exact init tree now
  | tail _ hstep ih => exact ih.step hstep

end Inv

/-! ## Who is done -/

namespace Inv
variable {tree : Tree} {s : State} {i a p d : Nat} {c : Cause}

theorem traced (h : Inv tree s) (i : Nat) (hc : (s.signals i).cause = some c) : ∃ a, tree.Above a i ∧ (a, c) ∈ s.struck := by
  induction i using Nat.strong_induction_on with
  | h i ih =>
    rcases h.origin hc with hmem | ⟨p, hp, hcause⟩
    · exact ⟨i, .refl, hmem⟩
    · obtain ⟨a, ha, hmem⟩ := ih p (tree.parent_lt hp) hcause
      exact ⟨a, ha.tail hp, hmem⟩

theorem ready_above (h : Inv tree s) (ha : tree.Above a i) (hready : (s.signals i).stage = .ready) :
    (s.signals a).stage = .ready := by
  induction ha with
  | refl => exact hready
  | tail _ hp ih => exact ih (h.above hp (by simp [hready]))

theorem cause_of_called (hquiet : s.Quiet) (h : s.Called i) : (s.signals i).cause ≠ none := by
  refine h.resolve_right fun ⟨call, hmem, _⟩ => ?_
  rw [hquiet.1] at hmem
  exact absurd hmem List.not_mem_nil

theorem returned (h : Inv tree s) (hquiet : s.Quiet) (hc : (s.signals i).cause ≠ none) :
    (s.signals i).phase = .returned :=
  (hquiet.2 i).resolve_left fun hidle => hc ((h.ok i).idle.mpr hidle)

/-- Once no call is under way, whatever is below a context that is done is done. -/
theorem cause_below (h : Inv tree s) (hquiet : s.Quiet) (ha : tree.Above a i) (hready : (s.signals i).stage = .ready)
    (hc : (s.signals a).cause ≠ none) : (s.signals i).cause ≠ none := by
  induction ha with
  | refl => exact hc
  | @tail p i _ hp ih =>
    have hparent : (s.signals p).phase = .returned := h.returned hquiet (ih (h.above hp (by simp [hready])))
    have hunregistered : (s.signals i).registered = false := h.cleared hp (by rw [hparent]; trivial)
    have hlinked : (s.signals i).Linked := by simp [Signal.Linked, hready]
    exact cause_of_called hquiet ((h.linked hp hlinked).resolve_left (by simp [hunregistered]))

theorem cause_of_deadline (h : Inv tree s) (hquiet : s.Quiet) (hready : (s.signals i).stage = .ready)
    (hd : tree.deadline i = some d) (hpassed : d ≤ s.now)
    (hfired : ∀ a e, (s.signals a).timer = true → tree.own a = some e → s.now < e) : (s.signals i).cause ≠ none := by
  obtain ⟨a, ha, hown⟩ := Tree.deadline_armed i hd
  have harmed : (s.signals a).stage.Armed := by
    rw [h.ready_above ha hready]
    trivial
  refine h.cause_below hquiet ha hready (cause_of_called hquiet ((h.armed hown harmed).resolve_left fun htimer => ?_))
  exact absurd hpassed (not_le.mpr (hfired a d htimer hown))

end Inv

/-- In every run a cause is that of a `cancel` call, or of a deadline that has passed, at the context or at an ancestor,
and it never changes. Once no call is under way a context is done exactly if one of these was cancelled or struck by its
deadline; it has then left its parent's list and the timer; and when the timer has nothing due, a context whose effective
deadline, the least of those asked for on its path, has passed is done. -/
theorem contexts_cancelled {tree : Tree} {now : Nat} {s : State} (h : Reachable tree now s) (i : Nat) :
    (∀ c, (s.signals i).cause = some c → (∃ a, tree.Above a i ∧ (a, c) ∈ s.struck) ∧
      ∀ t, ReflTransGen (Step tree) s t → (t.signals i).cause = some c) ∧
    ((s.signals i).cause = some .deadlineExceeded → ∃ d, tree.deadline i = some d ∧ d ≤ s.now) ∧
    (s.Quiet → (s.signals i).stage = .ready →
      ((s.signals i).cause ≠ none ↔ ∃ a c, tree.Above a i ∧ (a, c) ∈ s.struck) ∧
      ((s.signals i).cause ≠ none → (s.signals i).registered = false ∧ (s.signals i).timer = false) ∧
      ∀ d, tree.deadline i = some d → d ≤ s.now →
        (∀ a e, (s.signals a).timer = true → tree.own a = some e → s.now < e) → (s.signals i).cause ≠ none) ∧
    (∀ d, tree.deadline i = some d → ∃ a, tree.Above a i ∧ tree.requested a = some d) ∧
    ∀ a e, tree.Above a i → tree.requested a = some e → ∃ d, tree.deadline i = some d ∧ d ≤ e := by
  have hinv := Inv.reachable h
  refine ⟨fun c hc => ⟨hinv.traced i hc, fun t hst => ?_⟩, fun hc => ?_, fun hquiet hready => ⟨⟨fun hc => ?_, ?_⟩, ?_, ?_⟩,
    tree.deadline_least i⟩
  · induction hst with
    | refl => exact hc
    | tail _ hstep ih => exact hstep.grows.cause ih
  · obtain ⟨a, ha, hmem⟩ := hinv.traced i hc
    obtain ⟨d, hown, hle⟩ := hinv.due hmem
    obtain ⟨d', hd', hle'⟩ := Tree.deadline_le_above ha (Tree.deadline_own hown)
    exact ⟨d', hd', hle'.trans hle⟩
  · obtain ⟨c, hc⟩ := Option.ne_none_iff_exists'.mp hc
    obtain ⟨a, ha, hmem⟩ := hinv.traced i hc
    exact ⟨a, c, ha, hmem⟩
  · rintro ⟨a, c, ha, hmem⟩
    exact hinv.cause_below hquiet ha hready (Inv.cause_of_called hquiet (hinv.heard hmem))
  · intro hc
    have hphase := hinv.returned hquiet hc
    refine ⟨(hinv.ok i).unlinked (by rw [hphase]; trivial), Bool.eq_false_iff.mpr fun htimer => ?_⟩
    have hlate := (hinv.ok i).late (Or.inr hphase) htimer
    rw [hready] at hlate
    rcases hlate with hlate | hlate <;> cases hlate
  · exact fun d hd hpassed hfired => hinv.cause_of_deadline hquiet hready hd hpassed hfired

/-! A request with a child context, cancelled by the caller. -/

namespace Pair

def tree : Tree where
  parent i := if i = 1 then some 0 else none
  parent_lt h := by
    split at h
    · cases h
      omega
    · cases h
  requested _ := none

theorem child {i p : Nat} (h : tree.parent i = some p) : i = 1 ∧ p = 0 := by
  unfold tree at h
  dsimp only at h
  split at h
  · next hi => exact ⟨hi, (Option.some.inj h).symm⟩
  · cases h

/-- The root, the child and the calls under way. -/
def both (root child : Signal) (pending : List Call) (struck : List (Nat × Cause)) : State where
  now := 0
  signals
    | 0 => root
    | 1 => child
    | _ => {}
  pending
  struck

theorem stepRoot {r c g : Signal} {pending pending' : List Call} {struck struck' : List (Nat × Cause)}
    (h : Step tree (both r c pending struck) ⟨0, Function.update (both r c pending struck).signals 0 g, pending', struck'⟩) :
    Step tree (both r c pending struck) (both g c pending' struck') := by
  have hset : Function.update (both r c pending struck).signals 0 g = (both g c pending' struck').signals := by
    funext i
    rcases i with _ | _ | i <;> rfl
  rw [hset] at h
  exact h

theorem stepChild {r c g : Signal} {pending pending' : List Call} {struck struck' : List (Nat × Cause)}
    (h : Step tree (both r c pending struck) ⟨0, Function.update (both r c pending struck).signals 1 g, pending', struck'⟩) :
    Step tree (both r c pending struck) (both r g pending' struck') := by
  have hset : Function.update (both r c pending struck).signals 1 g = (both r g pending' struck').signals := by
    funext i
    rcases i with _ | _ | i <;> rfl
  rw [hset] at h
  exact h

/-- The caller cancels the root, and its callback cancels the child. -/
theorem run : ∃ s, Reachable tree 0 s ∧ s.Quiet ∧ (s.signals 1).stage = .ready ∧ (s.signals 1).cause = some .canceled := by
  have hinit : ({ now := 0 } : State) = both {} {} [] [] := by
    have hsignals : (fun _ => {}) = (both {} {} [] []).signals := by
      funext i
      rcases i with _ | _ | i <;> rfl
    exact congrArg (State.mk 0 · [] []) hsignals
  have hlinked : Reachable tree 0 (both { stage := .ready } { stage := .ready, registered := true } [] []) := by
    unfold Reachable
    rw [hinit]
    exact (((ReflTransGen.single (stepRoot (.create (i := 0) rfl fun p hp => absurd (child hp).1 Nat.zero_ne_one))).tail
      (stepRoot (.linkRoot (i := 0) rfl rfl))).tail
        (stepChild (.create (i := 1) rfl fun p hp => by rw [(child hp).2]; rfl))).tail
          (stepChild (.register (i := 1) rfl rfl rfl))
  have hwon := (hlinked.tail (.cancel (i := 0) rfl)).tail (stepRoot (@Step.win _ _ [] ⟨0, .canceled, false⟩ [] rfl rfl))
  have hfiring := hwon.tail (stepRoot (.move (i := 0) (.requestStop rfl)))
  have hcalled := hfiring.tail (stepChild (.callback (i := 1) (p := 0) rfl rfl rfl rfl))
  have hbelow := hcalled.tail (stepChild (@Step.win _ _ [] ⟨1, .canceled, true⟩ [] rfl rfl))
  have hstopped := hbelow.tail (stepChild (.move (i := 1) (.requestStop rfl)))
  have hfired := hstopped.tail (stepChild (.fired (p := 1) rfl fun i hp => absurd (child hp).2 Nat.one_ne_zero))
  have hchild := hfired.tail (stepChild (.move (i := 1) (.noTimer rfl rfl)))
  have hend := hchild.tail (stepRoot (.fired (p := 0) rfl fun i hp => by rw [(child hp).1]; rfl))
  have hroot := hend.tail (stepRoot (.move (i := 0) (.noTimer rfl rfl)))
  refine ⟨_, hroot.tail (stepRoot (.release rfl nofun)), ⟨rfl, fun i => ?_⟩, rfl, rfl⟩
  rcases i with _ | _ | i
  · exact Or.inr rfl
  · exact Or.inr rfl
  · exact Or.inl rfl

end Pair

theorem contexts_cancelled_pair : ∃ s : State, s.Quiet ∧ (s.signals 1).registered = false ∧
    ∃ a, Pair.tree.Above a 1 ∧ (a, .canceled) ∈ s.struck := by
  obtain ⟨s, hs, hquiet, hready, hc⟩ := Pair.run
  have hall := contexts_cancelled hs 1
  have hgone := (hall.2.2.1 hquiet hready).2.1 (by simp [hc])
  exact ⟨s, hquiet, hgone.1, (hall.1 _ hc).1⟩

end Pineapple.CancelTree
