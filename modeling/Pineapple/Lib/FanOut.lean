import Mathlib.Logic.Function.Basic

/-! # Tasks with a first error

Tasks end one by one: passed over because the whole was cancelled, completed, or failed. The first failure
is kept and cancels what has not begun; a caller may cancel as well. `Fits` relates the flags that are read
once at the end to how each task ended, so that the verdict they give is the right one. -/

namespace FanOut
universe u
variable {ν : Type u}

inductive Exit where
  | passed | completed | failed
deriving DecidableEq

structure Flags (ν : Type u) where
  cancelled : Bool := false
  /-- some task was passed over -/
  notRun : Bool := false
  callerDone : Bool := false
  first : Option ν := none

namespace Flags

def pass (fl : Flags ν) : Flags ν := { fl with notRun := true }

def fail (fl : Flags ν) (v : ν) : Flags ν :=
  if fl.first.isNone then { fl with first := some v, cancelled := true } else fl

def cancel (fl : Flags ν) : Flags ν := { fl with cancelled := true, callerDone := true }

end Flags

/-- The flags say what happened to the tasks. -/
structure Fits (fl : Flags ν) (exit : ν → Option Exit) : Prop where
  first_none : fl.first = none → ∀ v, exit v ≠ some .failed
  first_some : ∀ v, fl.first = some v → exit v = some .failed
  notRun : fl.notRun = true ↔ ∃ v, exit v = some .passed
  passed : ∀ v, exit v = some .passed → fl.cancelled = true
  cancelled : fl.cancelled = true → fl.callerDone = true ∨ fl.first.isSome = true

namespace Fits
variable {fl : Flags ν} {exit : ν → Option Exit}

theorem init : Fits ({} : Flags ν) fun _ => none :=
  ⟨fun _ _ => nofun, fun _ => nofun, iff_of_false Bool.false_ne_true (fun ⟨_, h⟩ => nomatch h), fun _ => nofun,
    fun h => absurd h Bool.false_ne_true⟩

theorem cancel (h : Fits fl exit) : Fits fl.cancel exit :=
  ⟨h.first_none, h.first_some, h.notRun, fun _ _ => rfl, fun _ => Or.inl rfl⟩

variable [DecidableEq ν] {v : ν}

theorem update_eq_some {e e' : Exit} {w : ν} (hv : exit v = none) (hw : exit w = some e') :
    Function.update exit v (some e) w = some e' := by
  have hne : w ≠ v := fun heq => by rw [heq, hv] at hw; exact nomatch hw
  rw [Function.update_of_ne hne, hw]

theorem of_update {e e' : Exit} {w : ν} (h : Function.update exit v (some e) w = some e') (hne : e ≠ e') :
    exit w = some e' := by
  by_cases hw : w = v
  · subst hw
    rw [Function.update_self] at h
    exact absurd (Option.some.inj h) hne
  · rwa [Function.update_of_ne hw] at h

theorem pass (h : Fits fl exit) (hv : exit v = none) (hc : fl.cancelled = true) :
    Fits fl.pass (Function.update exit v (some .passed)) := by
  refine ⟨fun hn w hw => ?_, fun w hw => ?_, ?_, fun _ _ => hc, h.cancelled⟩
  · exact h.first_none hn w (of_update hw nofun)
  · exact update_eq_some hv (h.first_some w hw)
  · exact iff_of_true rfl ⟨v, Function.update_self ..⟩

theorem complete (h : Fits fl exit) (hv : exit v = none) :
    Fits fl (Function.update exit v (some .completed)) := by
  refine ⟨fun hn w hw => ?_, fun w hw => ?_, ?_, fun w hw => ?_, h.cancelled⟩
  · exact h.first_none hn w (of_update hw nofun)
  · exact update_eq_some hv (h.first_some w hw)
  · rw [h.notRun]
    exact ⟨fun ⟨w, hw⟩ => ⟨w, update_eq_some hv hw⟩, fun ⟨w, hw⟩ => ⟨w, of_update hw nofun⟩⟩
  · exact h.passed w (of_update hw nofun)

theorem fail (h : Fits fl exit) (hv : exit v = none) :
    Fits (fl.fail v) (Function.update exit v (some .failed)) := by
  have hnotRun : fl.notRun = true ↔ ∃ w, Function.update exit v (some .failed) w = some .passed := by
    rw [h.notRun]
    exact ⟨fun ⟨w, hw⟩ => ⟨w, update_eq_some hv hw⟩, fun ⟨w, hw⟩ => ⟨w, of_update hw nofun⟩⟩
  unfold Flags.fail
  split
  · refine ⟨nofun, fun w hw => ?_, hnotRun, fun _ _ => rfl, fun _ => Or.inr rfl⟩
    rw [← Option.some.inj hw]
    exact Function.update_self ..
  · next hsome =>
    refine ⟨fun hn => absurd (by rw [hn]; rfl) hsome, fun w hw => update_eq_some hv (h.first_some w hw), hnotRun,
      fun w hw => h.passed w (of_update hw nofun), h.cancelled⟩

end Fits

/-! ## The verdict -/

inductive Verdict (ν : Type u) where
  | success
  | cancelled
  | failed (v : ν)
deriving DecidableEq

def Flags.verdict (fl : Flags ν) : Verdict ν :=
  match fl.first with
  | some v => .failed v
  | none => if fl.notRun then .cancelled else .success

namespace Fits
variable {fl : Flags ν} {exit : ν → Option Exit}

theorem success (h : Fits fl exit) (hs : fl.verdict = .success) {v : ν} (hv : (exit v).isSome = true) :
    exit v = some .completed := by
  unfold Flags.verdict at hs
  split at hs
  · exact nomatch hs
  · next hn =>
    split at hs
    · exact nomatch hs
    · next hrun =>
      obtain ⟨e, he⟩ := Option.isSome_iff_exists.mp hv
      cases e with
      | passed => exact absurd (h.notRun.mpr ⟨v, he⟩) hrun
      | completed => exact he
      | failed => exact absurd he (h.first_none hn v)

theorem cancelled_iff (h : Fits fl exit) :
    fl.verdict = .cancelled ↔ (∀ v, exit v ≠ some .failed) ∧ ∃ v, exit v = some .passed := by
  rw [← h.notRun]
  unfold Flags.verdict
  cases hfirst : fl.first with
  | some v => exact iff_of_false nofun fun hn => hn.1 v (h.first_some v hfirst)
  | none =>
    cases hrun : fl.notRun with
    | true => exact iff_of_true rfl ⟨h.first_none hfirst, rfl⟩
    | false => exact iff_of_false nofun fun hn => Bool.false_ne_true hn.2

/-- A cancelled verdict is the caller's doing. -/
theorem callerDone (h : Fits fl exit) (hc : fl.verdict = .cancelled) : fl.callerDone = true := by
  obtain ⟨hnone, v, hv⟩ := h.cancelled_iff.mp hc
  refine (h.cancelled (h.passed v hv)).resolve_right fun hsome => ?_
  obtain ⟨w, hw⟩ := Option.isSome_iff_exists.mp hsome
  exact hnone w (h.first_some w hw)

theorem failed (h : Fits fl exit) {v : ν} (hf : fl.verdict = .failed v) : exit v = some .failed := by
  unfold Flags.verdict at hf
  split at hf
  · next w hw =>
    cases hf
    exact h.first_some v hw
  · split at hf <;> exact nomatch hf

end Fits

end FanOut
