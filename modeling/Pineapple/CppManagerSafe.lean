import Mathlib.Data.List.Basic
import Pineapple.CppManager

/-! # What a stop leaves behind

The refresh threads are awake once a stop has notified them, as long as none was about to sleep; none is left when it
returns. -/

namespace Pineapple.CppManager

def Caller.started : Caller → Bool
  | ready .started | spawning _ | setFlag | notify | join _ | release => true
  | _ => false

def Caller.stopping : Caller → Bool
  | notify | join _ | release => true
  | _ => false

/-- No thread has been started, or all have been joined. -/
def Caller.Quiet : Caller → Prop
  | ready last => last ≠ .started
  | loading _ _ | release => True
  | _ => False

/-- In a stop, after the notification. -/
def Caller.Notified : Caller → Prop
  | join _ | release => True
  | _ => False

/-- Out of `stop_mu_` and of the wait. -/
def Refresher.Awake (pc : Refresher) : Prop := pc ≠ .decided ∧ pc ≠ .asleep

/-- Nobody is between its test and its sleep as a stop notifies, and a start that fails does so at its first resource,
none having been loaded. -/
def Meets (s : State) : Event → Prop
  | .notify => ∀ t ∈ s.threads, t.pc ≠ .decided
  | .loadFails => (∃ refresh, s.caller = .loading 0 refresh) ∧ ∀ r ∈ s.shared.resources, r.loaded = false
  | _ => True

structure Inv (s : State) : Prop where
  started : s.shared.started = s.caller.started
  stopping : s.shared.stopping = s.caller.stopping
  quiet : s.caller.Quiet → s.threads = []
  awake : s.caller.Notified → ∀ t ∈ s.threads, t.pc.Awake
  rolledBack : s.caller = .ready .startFailed → ∀ r ∈ s.shared.resources, r.loaded = false

variable {s s' : State} {sh sh' : Shared} {pc pc' : Refresher} {e : Event} {i : Nat}

/-! ## The refresh threads -/

theorem Refresher.Step.flags (h : pc.Step i sh e sh' pc') :
    sh'.started = sh.started ∧ sh'.stopping = sh.stopping := by
  cases h <;> exact ⟨rfl, rfl⟩

/-- Once the flag is set, a thread that is awake does not go to sleep. -/
theorem Refresher.Step.awake (h : pc.Step i sh e sh' pc') (hstop : sh.stopping = true) (hpc : pc.Awake) :
    pc'.Awake := by
  cases h with
  | goOn hgo => exact absurd (hgo.symm.trans hstop) Bool.false_ne_true
  | sleep => exact absurd rfl hpc.1
  | _ => exact ⟨nofun, nofun⟩

theorem Thread.notified_awake {t : Thread} (h : t.pc ≠ .decided) : t.notified.pc.Awake := by
  obtain ⟨i, pc⟩ := t
  cases pc with
  | decided => exact absurd rfl h
  | _ => exact ⟨nofun, nofun⟩

/-! ## The invariant -/

theorem Caller.quiet_of_not_started {last : Last} (h : (Caller.ready last).started = false) :
    (Caller.ready last).Quiet := by
  rintro rfl
  exact absurd h nofun

theorem Caller.quiet_startFailed {c : Caller} (h : c = .ready .startFailed) : c.Quiet := by
  rw [h]
  exact nofun

theorem Caller.stopping_of_notified {c : Caller} (h : c.Notified) : c.stopping = true := by
  cases c with
  | join _ | release => rfl
  | _ => exact absurd h nofun

theorem mem_register {name : String} {interval : Int} {r : Managed} (h : r ∈ (sh.register name interval).resources) :
    r ∈ sh.resources ∨ r.loaded = false := by
  rcases List.mem_append.mp h with h | h
  · exact .inl (List.takeWhile_subset _ h)
  · rcases List.mem_cons.mp h with rfl | h
    · exact .inr rfl
    · exact .inl (List.dropWhile_subset _ h)

theorem Inv.step (hs : Inv s) (hmeets : Meets s e) (h : Step s e s') : Inv s' := by
  obtain ⟨hstarted, hstopping, hquiet, hawake, hrolled⟩ := hs
  cases h with
  | @thread sh pre i pc post c _ sh' pc' hstep =>
    obtain ⟨hstart, hstop⟩ := hstep.flags
    have hbusy : ¬ c.Quiet := fun h => List.append_ne_nil_of_right_ne_nil pre (List.cons_ne_nil _ _) (hquiet h)
    refine ⟨hstart.trans hstarted, hstop.trans hstopping, fun h => absurd h hbusy, fun h t ht => ?_,
      fun h => absurd (Caller.quiet_startFailed h) hbusy⟩
    rcases List.mem_append.mp ht with ht | ht
    · exact hawake h t (List.mem_append_left _ ht)
    · rcases List.mem_cons.mp ht with rfl | ht
      · have hset : sh.stopping = true := hstopping.trans (Caller.stopping_of_notified h)
        exact hstep.awake hset (hawake h ⟨i, pc⟩ (List.mem_append_right _ List.mem_cons_self))
      · exact hawake h t (List.mem_append_right _ (List.mem_cons_of_mem _ ht))
  | lockShared _ => exact ⟨hstarted, hstopping, hquiet, hawake, hrolled⟩
  | unlockShared _ => exact ⟨hstarted, hstopping, hquiet, hawake, hrolled⟩
  | register _ _ _ =>
    refine ⟨hstarted, hstopping, hquiet, hawake, fun hfailed r hr => ?_⟩
    rcases mem_register hr with hr | hr
    · exact hrolled hfailed r hr
    · exact hr
  | start _ hno =>
    exact ⟨hno, hstopping, fun _ => hquiet (Caller.quiet_of_not_started (hstarted.symm.trans hno)), nofun, nofun⟩
  | load v _ => exact ⟨hstarted, hstopping, hquiet, nofun, nofun⟩
  | loadFails _ => exact ⟨hstarted, hstopping, fun _ => hquiet trivial, nofun, fun _ => hmeets.2⟩
  | loaded _ => exact ⟨rfl, hstopping, nofun, nofun, nofun⟩
  | spawn => exact ⟨hstarted, hstopping, nofun, nofun, nofun⟩
  | startReturns => exact ⟨hstarted, hstopping, fun h => absurd rfl h, nofun, nofun⟩
  | stopIdle _ hno =>
    exact ⟨hno, hstopping, fun _ => hquiet (Caller.quiet_of_not_started (hstarted.symm.trans hno)), nofun, nofun⟩
  | stop _ hyes => exact ⟨hyes, hstopping, nofun, nofun, nofun⟩
  | setFlag => exact ⟨hstarted, rfl, nofun, nofun, nofun⟩
  | notify =>
    refine ⟨hstarted, hstopping, nofun, fun _ t ht => ?_, nofun⟩
    obtain ⟨u, hu, rfl⟩ := List.mem_map.mp ht
    exact Thread.notified_awake (hmeets u hu)
  | join _ => exact ⟨hstarted, hstopping, nofun, hawake, nofun⟩
  | joined _ => exact ⟨hstarted, hstopping, fun _ => rfl, fun _ t ht => absurd ht List.not_mem_nil, nofun⟩
  | release _ => exact ⟨rfl, rfl, fun _ => hquiet trivial, nofun, nofun⟩

theorem Reached.inv (h : Reached Meets s) : Inv s := by
  induction h with
  | init => exact ⟨rfl, rfl, fun _ => rfl, nofun, nofun⟩
  | step _ hmeets hstep ih => exact ih.step hmeets hstep

/-- What a stop and a failed start leave behind. -/
structure Clean (s : State) : Prop where
  /-- no thread sleeps through the interval while a stop waits for it -/
  awake : s.caller.Notified → ∀ t ∈ s.threads, t.pc ≠ .asleep
  /-- after a stop no thread is left, and none publishes -/
  stopped : s.caller = .ready .stopped → s.threads = [] ∧ ∀ s', ¬ Step s .publish s'
  rolledBack : s.caller = .ready .startFailed → s.threads = [] ∧ ∀ r ∈ s.shared.resources, r.loaded = false

theorem publish_thread (h : Step s .publish s') : s.threads ≠ [] := by
  cases h with
  | @thread _ pre => exact List.append_ne_nil_of_right_ne_nil pre (List.cons_ne_nil _ _)

/-- A manager is clean in every run whose stops notify while no thread is between its test and its sleep, and whose
starts fail at nothing but the first resource. -/
theorem clean_of_meets (h : Reached Meets s) : Clean s := by
  obtain ⟨-, -, hquiet, hawake, hrolled⟩ := h.inv
  refine ⟨fun hn t ht => (hawake hn t ht).2, fun hs => ?_, fun hf => ?_⟩
  · have hnone : s.threads = [] := hquiet (by rw [hs]; exact nofun)
    exact ⟨hnone, fun s' hp => publish_thread hp hnone⟩
  · exact ⟨hquiet (Caller.quiet_startFailed hf), hrolled hf⟩

/-! ## A stop that waits, a start that keeps values -/

/-- A manager of one resource that is refreshed each second. -/
def refreshed (stopping held : Bool) : Shared where
  resources := [{ name := "a", interval := 1, loaded := true }]
  started := true
  stopping := stopping
  stopMu := held

/-- The manager was started and its thread is about to sleep. -/
theorem reached_decided {C : State → Event → Prop} (hC : ∀ s, C s .other) :
    Reached C ⟨refreshed false true, [⟨0, .decided⟩], .ready .started⟩ := by
  have hregister := Reached.step .init (hC _) (@Step.register {} [] .fresh "a" 1 ⟨rfl, rfl⟩ rfl List.not_mem_nil)
  have hstart := Reached.step hregister (hC _) (.start ⟨rfl, rfl⟩ rfl)
  have hload := Reached.step hstart (hC _) (.load (.data .null) rfl)
  have hloaded := Reached.step hload (hC _) (.loaded (Nat.le_refl 1))
  have hspawn := Reached.step hloaded (hC _) .spawn
  have hreturns := Reached.step hspawn (hC _) .startReturns
  have henter := Reached.step hreturns (hC _) (@Step.thread _ [] 0 _ [] _ _ _ _ (.enter rfl))
  have hlock := Reached.step henter (hC _) (@Step.thread _ [] 0 _ [] _ _ _ _ (.lock rfl))
  exact Reached.step hlock (hC _) (@Step.thread _ [] 0 _ [] _ _ _ _ (.goOn rfl))

theorem clean_of_meets_stop : Reached Meets ⟨refreshed true false, [⟨0, .woken⟩], .join 0⟩ ∧
    Clean ⟨refreshed true false, [⟨0, .woken⟩], .join 0⟩ := by
  have hother : ∀ s, Meets s .other := fun _ => trivial
  have hsleep := Reached.step (reached_decided hother) (hother _) (@Step.thread _ [] 0 _ [] _ _ _ _ .sleep)
  have hstop := Reached.step hsleep (hother _) (.stop ⟨rfl, rfl⟩ rfl)
  have hflag := Reached.step hstop (hother _) .setFlag
  have hawake : ∀ t ∈ [(⟨0, .asleep⟩ : Thread)], t.pc ≠ .decided := fun t ht => by
    obtain rfl := List.mem_singleton.mp ht
    exact nofun
  have hnotify := @Reached.step _ _ .notify _ hflag hawake .notify
  exact ⟨hnotify, clean_of_meets hnotify⟩

def anyStep (_ : State) (_ : Event) : Prop := True

/-- A stop notifies a thread that is not asleep yet, and then waits while it sleeps; a start that fails at its second
resource leaves the first one loaded. -/
theorem not_clean : (¬ ∀ s, Reached anyStep s → s.caller.Notified → ∀ t ∈ s.threads, t.pc ≠ .asleep) ∧
    ¬ ∀ s, Reached anyStep s → s.caller = .ready .startFailed → s.shared.snapshot = [] := by
  refine ⟨fun h => ?_, fun h => ?_⟩
  · have hstop := @Reached.step anyStep _ _ _ (reached_decided fun _ => trivial) trivial (.stop ⟨rfl, rfl⟩ rfl)
    have hflag := Reached.step hstop trivial .setFlag
    have hnotify := Reached.step hflag trivial .notify
    have hsleep := Reached.step hnotify trivial (@Step.thread _ [] 0 _ [] _ _ _ _ .sleep)
    exact h _ hsleep trivial _ List.mem_cons_self rfl
  · have hone := @Reached.step anyStep _ _ _ .init trivial (@Step.register {} [] .fresh "a" 1 ⟨rfl, rfl⟩ rfl List.not_mem_nil)
    have htwo := Reached.step hone trivial (@Step.register _ [] .fresh "b" 1 ⟨rfl, rfl⟩ rfl (by decide))
    have hstart := Reached.step htwo trivial (.start ⟨rfl, rfl⟩ rfl)
    have hload := Reached.step hstart trivial (.load (.data .null) rfl)
    have hfails := Reached.step hload trivial (.loadFails (by decide))
    exact absurd (h _ hfails rfl) (by decide)

end Pineapple.CppManager
