import Mathlib.Data.List.Basic
import Mathlib.Data.List.Nodup
import Mathlib.Data.List.Perm.Basic

/-! # The Java resource manager (`ResourceManager.java`)

`start` fetches the resources one after another, one refresh thread replaces their values afterwards, and `stop` ends
it and closes the values. A value that implements `AutoCloseable` is known by the number of its fetch. -/

namespace Pineapple.JavaManager

inductive Value
  | data
  | closeable (id : Nat)
deriving DecidableEq

def Value.closeable? : Value → Option Nat
  | data => none
  | closeable id => some id

structure ManagedResource where
  name : String
  intervalSeconds : Int
  value : Value := .data
  loaded : Bool := false

/-- `executor`: null before a start and once a stop has waited for it. -/
inductive Executor
  | absent
  | running
  | shutDown
deriving DecidableEq

/-- The thread of the executor. -/
inductive Refresher
  | idle
  /-- in the fetcher of the `i`-th resource -/
  | fetch (i : Nat)
  | publish (i : Nat) (v : Value)

structure ResourceManager where
  resources : List ManagedResource
  /-- the monitor is taken: `start` and `stop` are synchronized -/
  monitor : Bool := false
  started : Bool := false
  executor : Executor := .absent
  refresher : Refresher := .idle
  /-- how many of the fetched values were `AutoCloseable` -/
  fetched : Nat := 0
  /-- the log of the values closed -/
  closed : List Nat := []

/-- What `register` makes of an interval: none is the default, a negative one means never. -/
def intervalSeconds (interval : Int) : Int := if interval = 0 then 600 else if interval < 0 then -1 else interval

def register (registered : List (String × Int)) : ResourceManager :=
  { resources := registered.map fun r => { name := r.1, intervalSeconds := intervalSeconds r.2 } }

/-- `get`: the value and whether the resource has one. -/
def ResourceManager.get (m : ResourceManager) (name : String) : Option Value × Bool :=
  match m.resources.find? (·.name = name) with
  | some r => if r.loaded then (some r.value, true) else (none, false)
  | none => (none, false)

def ResourceManager.setValue (m : ResourceManager) (i : Nat) (v : Value) : ResourceManager :=
  { m with resources := m.resources.modify i fun r => { r with value := v } }

def ResourceManager.load (m : ResourceManager) (i : Nat) (v : Value) : ResourceManager :=
  { m with resources := m.resources.modify i fun r => { r with value := v, loaded := true } }

/-- What a fetch returns, and the count of closeable values after it. -/
inductive Fetched (n : Nat) : Value → Nat → Prop
  | data : Fetched n .data n
  | closeable : Fetched n (.closeable n) (n + 1)

/-- What a step is, where it matters. -/
inductive Event
  /-- a fetcher of `start` throws -/
  | startFails
  /-- a fetcher of a refresh returns -/
  | refetched
  /-- a refresh publishes its value in place of `old` -/
  | published (old : Value)
  /-- the wait of a stop is at its end: the executor has terminated, five seconds are over, or it was interrupted -/
  | awaited
  /-- the configuration or the engine of a reload is rejected -/
  | createFails
  | other

/-! ## `start` -/

/-- `start` with the `i`-th resource to fetch next; it ends started or by an exception. -/
inductive Start
  | fetch (i : Nat)
  | started
  | failed

inductive Start.Step : ResourceManager → Start → Event → ResourceManager → Start → Prop
  | fetch {m i r v n} : m.resources[i]? = some r → Fetched m.fetched v n →
      Step m (.fetch i) .other { m.load i v with fetched := n } (.fetch (i + 1))
  | fails {m i} : i < m.resources.length → Step m (.fetch i) .startFails { m with monitor := false } .failed
  | started {m i} : m.resources.length ≤ i →
      Step m (.fetch i) .other
        { m with started := true, monitor := false, executor := if m.resources.isEmpty then .absent else .running }
        .started

/-! ## `refresh` -/

inductive Refresh : ResourceManager → Event → ResourceManager → Prop
  | fetch {m i r} : m.executor = .running → m.refresher = .idle → m.resources[i]? = some r → 0 < r.intervalSeconds →
      Refresh m .other { m with refresher := .fetch i }
  | fetched {m i v n} : m.refresher = .fetch i → Fetched m.fetched v n →
      Refresh m .refetched { m with refresher := .publish i v, fetched := n }
  | failed {m i} : m.refresher = .fetch i → Refresh m .other { m with refresher := .idle }
  | publish {m i v r} : m.refresher = .publish i v → m.resources[i]? = some r →
      Refresh m (.published r.value) { m.setValue i v with refresher := .idle }

/-! ## `stop` -/

inductive Stop
  | enter
  | shutdownNow
  | awaitTermination
  /-- about to read the value of the `i`-th resource -/
  | read (i : Nat)
  | close (i : Nat) (id : Nat)
  | returned
deriving DecidableEq

inductive Stop.Step : ResourceManager → Stop → Event → ResourceManager → Stop → Prop
  | idle {m} : m.monitor = false → m.started = false → Step m .enter .other m .returned
  | enter {m} : m.monitor = false → m.started = true → m.executor ≠ .absent →
      Step m .enter .other { m with monitor := true } .shutdownNow
  | enterNull {m} : m.monitor = false → m.started = true → m.executor = .absent →
      Step m .enter .other { m with monitor := true } (.read 0)
  | shutdownNow {m} : Step m .shutdownNow .other { m with executor := .shutDown } .awaitTermination
  | awaited {m} : Step m .awaitTermination .awaited { m with executor := .absent } (.read 0)
  | data {m i r} : m.resources[i]? = some r → r.value = .data → Step m (.read i) .other m (.read (i + 1))
  | closeable {m i r id} : m.resources[i]? = some r → r.value = .closeable id →
      Step m (.read i) .other m (.close i id)
  | close {m i id} : Step m (.close i id) .other { m with closed := id :: m.closed } (.read (i + 1))
  | leave {m i} : m.resources.length ≤ i →
      Step m (.read i) .other { m with started := false, monitor := false } .returned

/-! ## What becomes of the values -/

def ManagedResource.closeable? (r : ManagedResource) : Option Nat := r.value.closeable?

/-- The closeable values the resources have. -/
def ResourceManager.current (m : ResourceManager) : List Nat := m.resources.filterMap ManagedResource.closeable?

/-- The closeable value a refresh has fetched and not published. -/
def Refresher.pending? : Refresher → Option Nat
  | publish _ v => v.closeable?
  | _ => none

def Refresher.Publishing : Refresher → Prop
  | publish _ _ => True
  | _ => False

namespace ResourceManager

/-- Started, and no stop has got past its wait. -/
structure Live (m : ResourceManager) : Prop where
  started : m.started = true
  closed : m.closed = []
  owned : (m.refresher.pending?.toList ++ m.current).Perm (List.range m.fetched)
  executor : m.refresher.Publishing → m.executor ≠ .absent

/-- `start` has fetched the resources before the `i`-th. -/
structure Starting (m : ResourceManager) (i : Nat) : Prop where
  started : m.started = false
  executor : m.executor = .absent
  refresher : m.refresher = .idle
  closed : m.closed = []
  owned : m.current.Perm (List.range m.fetched)
  rest : ∀ j r, i ≤ j → m.resources[j]? = some r → r.value = .data

/-- `stop` has closed the values of the resources before the `i`-th, and nobody publishes any more. -/
structure Closing (m : ResourceManager) (i : Nat) : Prop where
  started : m.started = true
  executor : m.executor = .absent
  refresher : ¬ m.refresher.Publishing
  closed : m.closed.Perm ((m.resources.take i).filterMap ManagedResource.closeable?)
  owned : m.current.Perm (List.range m.fetched)

/-- Every value that was fetched has been closed, and nobody publishes any more. -/
structure Settled (m : ResourceManager) : Prop where
  started : m.started = false
  executor : m.executor = .absent
  refresher : ¬ m.refresher.Publishing
  owned : m.current.Perm (List.range m.fetched)
  closed : m.closed.Perm (List.range m.fetched)

/-- What a manager is like where its stop stands. -/
def At (m : ResourceManager) : Stop → Prop
  | .enter => m.Live ∨ m.Settled
  | .shutdownNow | .awaitTermination => m.Live
  | .read i => m.Closing i
  | .close i id => m.Closing i ∧ ∃ r, m.resources[i]? = some r ∧ r.value = .closeable id
  | .returned => m.Settled

/-- No fetch comes back after the wait of a stop and none is to be published then, no `AutoCloseable` value is
superseded, and a start fails with none loaded. -/
def Meets (m : ResourceManager) : Event → Prop
  | .startFails => m.fetched = 0
  | .refetched => m.executor ≠ .absent
  | .published old => old = .data
  | .awaited => ¬ m.refresher.Publishing
  | _ => True

end ResourceManager

/-! ## The steps keep account -/

variable {m m' : ResourceManager} {e : Event} {i : Nat} {v : Value} {n : Nat}

theorem Refresher.pending?_eq_none {r : Refresher} (h : ¬ r.Publishing) : r.pending? = none := by
  cases r with
  | publish i v => exact absurd trivial h
  | _ => rfl

theorem Fetched.owned {l : List Nat} (h : Fetched n v i) (hl : l.Perm (List.range n)) :
    (v.closeable?.toList ++ l).Perm (List.range i) := by
  cases h with
  | data => exact hl
  | closeable =>
    rw [List.range_succ]
    exact (hl.cons n).trans (@List.perm_append_comm _ [n] _)

/-- A value in place of one that need not be closed. -/
theorem filterMap_modify {l : List ManagedResource} {r : ManagedResource} (f : ManagedResource → ManagedResource)
    (hr : l[i]? = some r) (hdata : r.value = .data) :
    ((l.modify i f).filterMap ManagedResource.closeable?).Perm
      ((f r).closeable?.toList ++ l.filterMap ManagedResource.closeable?) := by
  induction l generalizing i with
  | nil => simp at hr
  | cons x xs ih =>
    cases i with
    | zero =>
      rw [List.getElem?_cons_zero, Option.some.injEq] at hr
      subst hr
      have hnone : x.closeable? = none := by rw [ManagedResource.closeable?, hdata]; rfl
      rw [List.modify_zero_cons, List.filterMap_cons_none hnone]
      cases hf : (f x).closeable? with
      | none => rw [List.filterMap_cons_none hf]; rfl
      | some id => rw [List.filterMap_cons_some hf]; rfl
    | succ i =>
      rw [List.getElem?_cons_succ] at hr
      rw [List.modify_succ_cons, List.filterMap_cons, List.filterMap_cons]
      cases x.closeable? with
      | none => exact ih hr
      | some id => exact ((ih hr).cons id).trans List.perm_middle.symm

namespace ResourceManager

theorem starting_register (registered : List (String × Int)) : (register registered).Starting 0 where
  started := rfl
  executor := rfl
  refresher := rfl
  closed := rfl
  owned := by
    have hnil : (register registered).current = [] := by
      simp [current, register, ManagedResource.closeable?, Value.closeable?]
    rw [hnil]
    rfl
  rest j r _ hr := by
    rw [register, List.getElem?_map] at hr
    cases hj : registered[j]? with
    | none => rw [hj] at hr; cases hr
    | some p =>
      rw [hj] at hr
      cases hr
      rfl

theorem Starting.step {s : Start} (h : m.Starting i) (hmeets : m.Meets e)
    (hstep : Start.Step m (.fetch i) e m' s) :
    match s with
    | .fetch j => m'.Starting j
    | .started => m'.Live
    | .failed => m'.Settled := by
  cases hstep with
  | fetch hr hv =>
    refine ⟨h.started, h.executor, h.refresher, h.closed, ?_, fun j r hj hr' => ?_⟩
    · exact (filterMap_modify _ hr (h.rest i _ (Nat.le_refl i) hr)).trans (hv.owned h.owned)
    · refine h.rest j r (by omega) ?_
      rwa [load, List.getElem?_modify_ne _ _ (by omega)] at hr'
  | fails hlt =>
    have hnone : m.fetched = 0 := hmeets
    refine ⟨h.started, h.executor, ?_, h.owned, ?_⟩
    · show ¬ m.refresher.Publishing
      rw [h.refresher]
      exact id
    · show m.closed.Perm (List.range m.fetched)
      rw [h.closed, hnone]
      rfl
  | started hle =>
    refine ⟨rfl, h.closed, ?_, ?_⟩
    · show (m.refresher.pending?.toList ++ m.current).Perm _
      rw [h.refresher]
      exact h.owned
    · show m.refresher.Publishing → _
      rw [h.refresher]
      exact False.elim

theorem Live.refresh (h : m.Live) (hmeets : m.Meets e) (hstep : Refresh m e m') : m'.Live := by
  obtain ⟨hstarted, hclosed, howned, hexecutor⟩ := h
  cases hstep with
  | fetch hrun hidle hr hpos =>
    rw [hidle] at howned
    exact ⟨hstarted, hclosed, howned, False.elim⟩
  | fetched hf hv =>
    rw [hf] at howned
    exact ⟨hstarted, hclosed, hv.owned howned, fun _ => hmeets⟩
  | failed hf =>
    rw [hf] at howned
    exact ⟨hstarted, hclosed, howned, False.elim⟩
  | publish hp hr =>
    rw [hp] at howned
    exact ⟨hstarted, hclosed, (filterMap_modify _ hr hmeets).trans howned, False.elim⟩

/-- After the wait of a stop a refresh can only fail. -/
theorem refresh_after_wait (hexecutor : m.executor = .absent) (hquiet : ¬ m.refresher.Publishing)
    (hmeets : m.Meets e) (hstep : Refresh m e m') : m' = { m with refresher := .idle } := by
  cases hstep with
  | fetch hrun => rw [hexecutor] at hrun; cases hrun
  | fetched => exact absurd hexecutor hmeets
  | failed => rfl
  | publish hp =>
    rw [hp] at hquiet
    exact absurd trivial hquiet

theorem Closing.refresh (h : m.Closing i) (hmeets : m.Meets e) (hstep : Refresh m e m') : m'.Closing i := by
  rw [refresh_after_wait h.executor h.refresher hmeets hstep]
  exact ⟨h.started, h.executor, id, h.closed, h.owned⟩

theorem Settled.refresh (h : m.Settled) (hmeets : m.Meets e) (hstep : Refresh m e m') : m'.Settled := by
  rw [refresh_after_wait h.executor h.refresher hmeets hstep]
  exact ⟨h.started, h.executor, id, h.owned, h.closed⟩

theorem Starting.refresh (h : m.Starting i) (hstep : Refresh m e m') : False := by
  cases hstep with
  | fetch hrun => rw [h.executor] at hrun; cases hrun
  | fetched hf => rw [h.refresher] at hf; cases hf
  | failed hf => rw [h.refresher] at hf; cases hf
  | publish hp => rw [h.refresher] at hp; cases hp

theorem At.refresh {p : Stop} (h : m.At p) (hmeets : m.Meets e) (hstep : Refresh m e m') : m'.At p := by
  cases p with
  | enter =>
    rcases h with h | h
    · exact Or.inl (Live.refresh h hmeets hstep)
    · exact Or.inr (Settled.refresh h hmeets hstep)
  | shutdownNow => exact Live.refresh h hmeets hstep
  | awaitTermination => exact Live.refresh h hmeets hstep
  | read i => exact Closing.refresh h hmeets hstep
  | close i id =>
    obtain ⟨hclosing, hr⟩ := h
    refine ⟨hclosing.refresh hmeets hstep, ?_⟩
    rw [refresh_after_wait hclosing.executor hclosing.refresher hmeets hstep]
    exact hr
  | returned => exact Settled.refresh h hmeets hstep

theorem Live.closing (h : m.Live) (hquiet : ¬ m.refresher.Publishing) (hexecutor : m'.executor = .absent)
    (hsame : m' = { m with monitor := m'.monitor, executor := m'.executor }) : m'.Closing 0 := by
  have howned := h.owned
  rw [Refresher.pending?_eq_none hquiet] at howned
  rw [hsame] at hexecutor ⊢
  exact ⟨h.started, hexecutor, hquiet, by rw [h.closed]; rfl, howned⟩

theorem take_succ_closeable {r : ManagedResource} (hr : m.resources[i]? = some r) :
    (m.resources.take (i + 1)).filterMap ManagedResource.closeable? =
      (m.resources.take i).filterMap ManagedResource.closeable? ++ r.closeable?.toList := by
  rw [List.take_add_one, hr, List.filterMap_append]
  cases hv : r.closeable? <;> simp [hv]

theorem At.step {p p' : Stop} (h : m.At p) (hmeets : m.Meets e) (hstep : Stop.Step m p e m' p') : m'.At p' := by
  cases hstep with
  | idle _ hnot =>
    rcases h with h | h
    · rw [h.started] at hnot
      cases hnot
    · exact h
  | enter _ hstarted =>
    rcases h with h | h
    · exact ⟨h.started, h.closed, h.owned, h.executor⟩
    · rw [h.started] at hstarted
      cases hstarted
  | enterNull _ hstarted hnull =>
    rcases h with h | h
    · exact h.closing (fun hp => h.executor hp hnull) hnull rfl
    · rw [h.started] at hstarted
      cases hstarted
  | shutdownNow =>
    have h : m.Live := h
    exact ⟨h.started, h.closed, h.owned, fun _ => by simp⟩
  | awaited => exact Live.closing h hmeets rfl rfl
  | data hr hdata =>
    have h : m.Closing _ := h
    refine ⟨h.started, h.executor, h.refresher, ?_, h.owned⟩
    rw [take_succ_closeable hr, ManagedResource.closeable?, hdata]
    exact h.closed.trans (by simp [Value.closeable?])
  | closeable hr hv => exact ⟨h, _, hr, hv⟩
  | close =>
    obtain ⟨h, r, hr, hv⟩ := h
    refine ⟨h.started, h.executor, h.refresher, ?_, h.owned⟩
    show (_ :: m.closed).Perm ((m.resources.take (_ + 1)).filterMap _)
    rw [take_succ_closeable hr, ManagedResource.closeable?, hv]
    exact (h.closed.cons _).trans (@List.perm_append_comm _ [_] _)
  | leave hle =>
    have h : m.Closing _ := h
    refine ⟨rfl, h.executor, h.refresher, h.owned, ?_⟩
    have hclosed := h.closed
    rw [List.take_of_length_le hle] at hclosed
    exact hclosed.trans h.owned

/-! ### What the account says -/

/-- No value is closed twice, and one that is neither a resource's nor a refresh's is closed. -/
def Accounted (m : ResourceManager) : Prop :=
  m.closed.Nodup ∧ ∀ id < m.fetched, id ∉ m.current → m.refresher.pending? ≠ some id → id ∈ m.closed

theorem mem_of_owned {l : List Nat} (h : l.Perm (List.range n)) {id : Nat} (hid : id < n) : id ∈ l :=
  h.symm.subset (List.mem_range.mpr hid)

theorem Starting.accounted (h : m.Starting i) : m.Accounted :=
  ⟨by rw [h.closed]; exact List.nodup_nil, fun _ hid hnot _ => absurd (mem_of_owned h.owned hid) hnot⟩

theorem Live.accounted (h : m.Live) : m.Accounted := by
  refine ⟨by rw [h.closed]; exact List.nodup_nil, fun id hid hnot hpending => ?_⟩
  rcases List.mem_append.mp (mem_of_owned h.owned hid) with hid | hid
  · exact absurd (Option.mem_toList.mp hid) hpending
  · exact absurd hid hnot

theorem Closing.accounted (h : m.Closing i) : m.Accounted := by
  refine ⟨?_, fun _ hid hnot _ => absurd (mem_of_owned h.owned hid) hnot⟩
  have hnodup : m.current.Nodup := h.owned.nodup_iff.mpr List.nodup_range
  exact h.closed.nodup_iff.mpr (hnodup.sublist ((List.take_sublist i m.resources).filterMap _))

theorem Settled.accounted (h : m.Settled) : m.Accounted :=
  ⟨h.closed.nodup_iff.mpr List.nodup_range, fun _ hid _ _ => mem_of_owned h.closed hid⟩

theorem At.accounted {p : Stop} (h : m.At p) : m.Accounted := by
  cases p with
  | enter =>
    rcases h with h | h
    · exact Live.accounted h
    · exact Settled.accounted h
  | shutdownNow => exact Live.accounted h
  | awaitTermination => exact Live.accounted h
  | read i => exact Closing.accounted h
  | close i id => exact Closing.accounted h.1
  | returned => exact Settled.accounted h

theorem resources_stop {p p' : Stop} (h : Stop.Step m p e m' p') : m'.resources = m.resources := by
  cases h <;> rfl

end ResourceManager

end Pineapple.JavaManager
