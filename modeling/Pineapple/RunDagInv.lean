import Mathlib.Logic.Function.Basic
import Pineapple.Lib.Replay
import Pineapple.RunDag

/-! # What holds in every state of a run

Every body that is over has one entry in the log, the frame is what the log makes of the request's frame,
and the flags fit how the nodes ended. -/

namespace Pineapple
open FanOut

variable {σ : Type} {env : RunEnv σ} {g : Graph} {pool : Bool}

/-! ## The log -/

/-- What a failing operator leaves on the frame: at most a part of its output, and its warning. -/
def RunEnv.Leaves (env : RunEnv σ) (p : NodePlan) (f : FrameState σ) (e : PineError) (f' : FrameState σ) : Prop :=
  ∃ out, f' = pushWarning p.op.name out f ∨ ∃ part, env.deliver p out f = .fail e part ∧ f' = pushWarning p.op.name out part

/-- What an entry does to the frame. -/
def RunEnv.EntryStep (env : RunEnv σ) : Entry → FrameState σ → FrameState σ → Prop
  | .skipped v, f, f' => f' = f ∧ (shouldSkip (env.node v).op.skip).run f.common.find? = true
  | .applied v out, f, f' => env.deliver (env.node v) out f = .ok f'
  | .failed v e, f, f' => env.Leaves (env.node v) f e f'

namespace BodyStep
variable {p : NodePlan} {cancelled : Bool} {f f' : FrameState σ} {b b' : Body}

/-- A body takes steps between its beginning and its end. -/
theorem under_way (h : BodyStep env p cancelled f b f' b') : b ≠ .idle ∧ ∀ v, b.entryAt v = none := by
  cases h <;> exact ⟨nofun, fun _ => rfl⟩

theorem not_idle (h : BodyStep env p cancelled f b f' b') : b' ≠ .idle := by
  cases h <;> exact nofun

theorem replays {v : Nat} {f₀ : FrameState σ} {log : List Entry}
    (h : BodyStep env (env.node v) cancelled f b f' b') (hr : Replay env.EntryStep f₀ log f) :
    Replay env.EntryStep f₀ (log ++ (b'.entryAt v).toList) f' := by
  have hquiet : Replay env.EntryStep f₀ (log ++ []) f := by
    rw [List.append_nil]
    exact hr
  cases h with
  | skip hs => exact hr.snoc ⟨rfl, hs⟩
  | goOn _ | resolve _ | serial _ _ | fork _ _ | shard _ | join _ _ => exact hquiet
  | resolveFails _ => exact hr.snoc ⟨{}, Or.inl rfl⟩
  | @serialFails _ _ out _ _ => exact hr.snoc ⟨out, Or.inl rfl⟩
  | @joinFails _ _ _ _ out _ _ => exact hr.snoc ⟨out, Or.inl rfl⟩
  | apply hd => exact hr.snoc hd
  | @applyFails part out _ hd => exact hr.snoc ⟨out, Or.inr ⟨part, hd, rfl⟩⟩

end BodyStep

theorem Body.entryAt_node {b : Body} {v : Nat} {e : Entry} (h : b.entryAt v = some e) : e.node = v := by
  cases b with
  | skipped => exact Option.some.inj h ▸ rfl
  | applied _ => exact Option.some.inj h ▸ rfl
  | failed _ => exact Option.some.inj h ▸ rfl
  | _ => exact absurd h nofun

/-! ## The invariant -/

/-- The body stands where the node's end says. -/
def Body.Ended (b : Body) : Option Exit → Prop
  | none => True
  | some .passed => b = .idle
  | some .completed => b.Succeeded
  | some .failed => ∃ e, b = .failed e

theorem Body.Ended.eq_none {b : Body} {x : Option Exit} (h : b.Ended x) (hidle : b ≠ .idle)
    (hover : ∀ v, b.entryAt v = none) : x = none := by
  cases x with
  | none => rfl
  | some e =>
    cases e with
    | passed => exact absurd h hidle
    | completed =>
      cases b with
      | skipped => exact absurd (hover 0) nofun
      | applied out => exact absurd (hover 0) nofun
      | _ => exact absurd h id
    | failed =>
      obtain ⟨e, rfl⟩ := h
      exact absurd (hover 0) nofun

theorem Body.filter_entry (b : Body) (i v : Nat) :
    (b.entryAt i).toList.filter (fun e => e.node = v) = if v = i then (b.entryAt i).toList else [] := by
  cases he : b.entryAt i with
  | none => rw [Option.toList_none, List.filter_nil, ite_self]
  | some e =>
    rw [Option.toList_some, List.filter_singleton, Body.entryAt_node he]
    by_cases hv : v = i
    · rw [if_pos hv, hv, decide_eq_true rfl, cond_true]
    · rw [if_neg hv, decide_eq_false fun h => hv h.symm, cond_false]

structure RunInv (env : RunEnv σ) (g : Graph) (f₀ : FrameState σ) (s : RunState σ) : Prop where
  sched : SchedInv g s.sched.shared s.sched.activations
  returned : s.sched.mainReturned = true → s.sched.shared.done = true
  /-- a body is idle until its node is entered -/
  starts : ∀ v, ⟨v, .start⟩ ∈ s.sched.activations → s.bodies v = .idle
  fresh : ∀ v, v ∉ s.sched.shared.dispatched → s.bodies v = .idle
  finished : ∀ v, v ∈ s.sched.shared.finished ↔ (s.exits v).isSome = true
  fits : Fits s.flags s.exits
  ended : ∀ v, (s.bodies v).Ended (s.exits v)
  body : ∀ v, BodyInv env (env.node v) (s.bodies v)
  replays : Replay env.EntryStep f₀ s.log s.frame
  logged : ∀ v, s.log.filter (fun e => e.node = v) = ((s.bodies v).entryAt v).toList
  counted : s.counted = s.log.map fun e => (e.tally, (env.node e.node).op.name)
  traces : ∀ v, s.traces v = (s.bodies v).trace? (env.node v).op.name

namespace RunInv
variable {f₀ : FrameState σ} {s : RunState σ}

theorem init (hg : GraphInv g) (poolSize : Nat) (f₀ : FrameState σ) : RunInv env g f₀ (.init g poolSize f₀) where
  sched := @SchedInv.reachable g true poolSize _ hg .refl
  returned := nofun
  starts _ _ := rfl
  fresh _ _ := rfl
  finished _ := iff_of_false List.not_mem_nil Bool.false_ne_true
  fits := .init
  ended _ := trivial
  body _ := trivial
  replays := .nil
  logged _ := rfl
  counted := rfl
  traces _ := rfl

/-- Bodies that are idle stay so until their node is entered. -/
theorem observed (h : RunInv env g f₀ s) {t : SchedState} {ev : Option RunEvent} (hg : GraphInv g)
    (hstep : SchedStep g pool s.sched ev t) : (∀ v, ⟨v, .start⟩ ∈ t.activations → s.bodies v = .idle) ∧
      ∀ v, v ∉ t.shared.dispatched → s.bodies v = .idle := by
  have hobs := hstep.observed
  have hinv := h.sched.step hg hstep
  refine ⟨fun v hv => ?_, fun v hv => ?_⟩
  · rcases hobs.starts v hv with hold | hnew
    · exact h.starts v hold
    · refine h.fresh v fun hmem => ?_
      have hnd := hinv.dispatched_nodup
      rw [hnew] at hnd
      exact List.disjoint_of_nodup_append hnd hmem (List.mem_singleton_self v)
  · obtain ⟨new, hnew⟩ := hobs.dispatched
    exact h.fresh v fun hmem => hv (hnew ▸ List.mem_append_left _ hmem)

theorem finished_append (h : RunInv env g f₀ s) {i : Nat} {e : Exit} {v : Nat} :
    v ∈ s.sched.shared.finished ++ [i] ↔ (Function.update s.exits i (some e) v).isSome = true := by
  rw [List.mem_append, List.mem_singleton, h.finished v]
  by_cases hv : v = i
  · subst hv
    rw [Function.update_self]
    exact iff_of_true (Or.inr rfl) rfl
  · rw [Function.update_of_ne hv]
    exact or_iff_left hv

theorem ended_update (h : RunInv env g f₀ s) {i : Nat} {e : Exit} (hi : (s.bodies i).Ended (some e)) (v : Nat) :
    (s.bodies v).Ended (Function.update s.exits i (some e) v) := by
  by_cases hv : v = i
  · subst hv
    rw [Function.update_self]
    exact hi
  · rw [Function.update_of_ne hv]
    exact h.ended v

theorem exit_none (h : RunInv env g f₀ s) {i : Nat} {ph : Phase} (ha : ⟨i, ph⟩ ∈ s.sched.activations)
    (hb : ¬ (⟨i, ph⟩ : Activation).bodyOver) : s.exits i = none := by
  have hnot := h.sched.not_finished ha hb
  rw [h.finished] at hnot
  exact Option.not_isSome_iff_eq_none.mp hnot

theorem step (h : RunInv env g f₀ s) {s' : RunState σ} (hg : GraphInv g) (hstep : RunStep env g pool s s') :
    RunInv env g f₀ s' := by
  cases hstep with
  | @sched t hs =>
    obtain ⟨hstarts, hfresh⟩ := h.observed hg hs
    obtain ⟨hfin, hc, hn, hf⟩ := hs.observed.event
    refine { h with
      sched := h.sched.step hg hs, returned := hs.done h.returned, starts := hstarts, fresh := hfresh, finished := fun v => ?_, fits := ?_ }
    · rw [hfin]
      exact h.finished v
    · unfold RunState.flags
      rw [hc, hn, hf]
      exact h.fits
  | @enter i t hs =>
    obtain ⟨hstarts, hfresh⟩ := h.observed hg hs
    obtain ⟨hstart, hrun, hsh⟩ := hs.observed.event
    have hinv := h.sched.step hg hs
    have hidle : s.bodies i = .idle := h.starts i hstart
    have hexit : s.exits i = none := h.exit_none hstart fun hb => hb.1 rfl
    refine { h with
      sched := hinv
      returned := hs.done h.returned
      starts := Function.forall_update_iff _ (p := fun v (b : Body) => ⟨v, .start⟩ ∈ t.activations → b = .idle) |>.mpr ?_
      fresh := Function.forall_update_iff _ (p := fun v (b : Body) => v ∉ t.shared.dispatched → b = .idle) |>.mpr ?_
      finished := fun v => ?_
      fits := ?_
      ended := Function.forall_update_iff _ (p := fun v (b : Body) => b.Ended (s.exits v)) |>.mpr ?_
      body := Function.forall_update_iff _ (p := fun v (b : Body) => BodyInv env (env.node v) b) |>.mpr ?_
      logged := Function.forall_update_iff _
        (p := fun v (b : Body) => s.log.filter (fun e => e.node = v) = (b.entryAt v).toList) |>.mpr ?_
      traces := Function.forall_update_iff _ (p := fun v (b : Body) => s.traces v = b.trace? (env.node v).op.name) |>.mpr ?_ }
    · exact ⟨fun hi => absurd (congrArg Activation.phase (hinv.unique hi hrun rfl)) nofun, fun v _ => hstarts v⟩
    · exact ⟨fun hi => absurd (hinv.mem_dispatched hrun) hi, fun v _ => hfresh v⟩
    · rw [hsh]
      exact h.finished v
    · unfold RunState.flags
      rw [hsh]
      exact h.fits
    · rw [hexit]
      exact ⟨trivial, fun v _ => h.ended v⟩
    · exact ⟨trivial, fun v _ => h.body v⟩
    · refine ⟨?_, fun v _ => h.logged v⟩
      rw [h.logged i, hidle]
      rfl
    · refine ⟨?_, fun v _ => h.traces v⟩
      rw [h.traces i, hidle]
      rfl
  | @body i f b hb =>
    obtain ⟨hidle, hunder⟩ := hb.under_way
    refine { h with
      starts := Function.forall_update_iff _ (p := fun v (b : Body) => ⟨v, .start⟩ ∈ s.sched.activations → b = .idle) |>.mpr ?_
      fresh := Function.forall_update_iff _ (p := fun v (b : Body) => v ∉ s.sched.shared.dispatched → b = .idle) |>.mpr ?_
      ended := Function.forall_update_iff _ (p := fun v (b : Body) => b.Ended (s.exits v)) |>.mpr ?_
      body := Function.forall_update_iff _ (p := fun v (b : Body) => BodyInv env (env.node v) b) |>.mpr ?_
      replays := hb.replays h.replays
      logged := fun v => ?_
      counted := ?_
      traces := fun v => ?_ }
    · exact ⟨fun hi => absurd (h.starts i hi) hidle, fun v _ => h.starts v⟩
    · exact ⟨fun hi => absurd (h.fresh i hi) hidle, fun v _ => h.fresh v⟩
    · rw [(h.ended i).eq_none hidle hunder]
      exact ⟨trivial, fun v _ => h.ended v⟩
    · exact ⟨hb.inv (h.body i), fun v _ => h.body v⟩
    · show _ = ((Function.update s.bodies i b v).entryAt v).toList
      rw [List.filter_append, h.logged v, Body.filter_entry]
      by_cases hv : v = i
      · subst hv
        rw [if_pos rfl, hunder, Function.update_self]
        rfl
      · rw [if_neg hv, Function.update_of_ne hv, List.append_nil]
    · rw [h.counted, List.map_append]
      cases he : b.entryAt i with
      | none => rfl
      | some e =>
        rw [Option.toList_some, List.map_singleton, List.map_singleton, Body.entryAt_node he]
    · show Function.update s.traces i _ v = (Function.update s.bodies i b v).trace? _
      by_cases hv : v = i
      · subst hv
        rw [Function.update_self, Function.update_self]
      · rw [Function.update_of_ne hv, Function.update_of_ne hv]
        exact h.traces v
  | @finish i t hs hsucc =>
    obtain ⟨hstarts, hfresh⟩ := h.observed hg hs
    obtain ⟨hrun, hsh⟩ := hs.observed.event
    refine { h with
      sched := h.sched.step hg hs, returned := hs.done h.returned, starts := hstarts, fresh := hfresh
      finished := fun v => ?_, fits := ?_, ended := h.ended_update hsucc }
    · rw [hsh]
      exact h.finished_append
    · unfold RunState.flags
      rw [hsh]
      exact h.fits.complete (h.exit_none hrun fun hb => hb.2 rfl)
  | @fail i t e hs hfail =>
    obtain ⟨hstarts, hfresh⟩ := h.observed hg hs
    obtain ⟨hrun, hsh⟩ := hs.observed.event
    refine { h with
      sched := h.sched.step hg hs, returned := hs.done h.returned, starts := hstarts, fresh := hfresh
      finished := fun v => ?_, fits := ?_, ended := h.ended_update ⟨e, hfail⟩ }
    · have hfin : t.shared.finished = s.sched.shared.finished ++ [i] := by rw [hsh]
      rw [hfin]
      exact h.finished_append
    · have hflags : ({ s with sched := t, exits := Function.update s.exits i (some .failed) } : RunState σ).flags =
          s.flags.fail i := by
        unfold RunState.flags Flags.fail
        rw [hsh]
        unfold Shared.fail
        split <;> rfl
      rw [hflags]
      exact h.fits.fail (h.exit_none hrun fun hb => hb.2 rfl)
  | @pass i t hs =>
    obtain ⟨hstarts, hfresh⟩ := h.observed hg hs
    obtain ⟨hstart, hc, hsh⟩ := hs.observed.event
    refine { h with
      sched := h.sched.step hg hs, returned := hs.done h.returned, starts := hstarts, fresh := hfresh
      finished := fun v => ?_, fits := ?_, ended := h.ended_update (h.starts i hstart) }
    · rw [hsh]
      exact h.finished_append
    · unfold RunState.flags
      rw [hsh]
      exact h.fits.pass (h.exit_none hstart fun hb => hb.1 rfl) hc
  | @cancel t hs =>
    obtain ⟨hstarts, hfresh⟩ := h.observed hg hs
    have hsh := hs.observed.event
    refine { h with
      sched := h.sched.step hg hs, returned := hs.done h.returned, starts := hstarts, fresh := hfresh, finished := fun v => ?_, fits := ?_ }
    · rw [hsh]
      exact h.finished v
    · unfold RunState.flags
      rw [hsh]
      exact h.fits.cancel

theorem reachable {poolSize : Nat} (hg : GraphInv g) (hr : RunReachable env g pool poolSize f₀ s) :
    RunInv env g f₀ s := by
  induction hr with
  | refl => exact init hg poolSize f₀
  | tail _ hstep ih => exact ih.step hg hstep

end RunInv

end Pineapple
