import Pineapple.EngineReads
import Pineapple.RunVerdict

/-! # What is ahead of a node that has begun

A node is entered when everything ahead of it in the graph is over and the run is not cancelled, so all of that ended
without an error. What was written to the common fields by then is there, for no output takes a common field away. -/

namespace Pineapple
open FanOut Relation

/-! ## Common fields stay -/

section
variable {σ : Type} {S : ItemStore σ} {op : String} {field : String}

/-- The frame has the common field. -/
def FrameState.Has (field : String) (f : FrameState σ) : Prop := f.common.contains field = true

theorem keeps_applyCommonWrites (writes : List (String × Variant)) :
    Outcome.Keeps (FrameState.Has field) (applyCommonWrites (σ := σ) op writes) := by
  refine Outcome.Keeps.forEach writes fun w _ => Outcome.Keeps.checked _ fun _ s hs => ?_
  show (s.common.insert w.1 w.2).contains field = true
  rw [SortedMap.contains, SortedMap.find?_insert]
  split_ifs
  · rfl
  · exact hs

/-- What comes after the common writes leaves the common fields alone. -/
theorem keeps_items {out : OperatorOutput} {isRecall : Bool} {o : Outcome PineError (FrameState σ)}
    (h : FrameState.Has field o.state) : FrameState.Has field (o
      |>.andThen (applyItemWrites S op out.itemWrites)
      |>.andThen (applyColumnWrites S op out.columnWrites)
      |>.andThen (applyRemovals S op out.removedItems.keys)
      |>.andThen (applyReorder S op out.itemOrder)
      |>.andThen (applyAdditions S op isRecall out.addedItems)
      |>.andThen (applyWarning op out.warning)).state := by
  -- the items change, the common fields do not
  have hchecked : ∀ (bad : Option PineError) (step : FrameState σ → FrameState σ), (∀ s, (step s).common = s.common) →
      Outcome.Keeps (FrameState.Has field) (Outcome.checked bad step) := by
    refine fun bad step hstep => Outcome.Keeps.checked bad fun _ s hs => ?_
    rw [FrameState.Has, hstep]
    exact hs
  have hitems : Outcome.Keeps (FrameState.Has field) (applyItemWrites S op out.itemWrites) := by
    refine Outcome.Keeps.forEach _ fun w _ s hs => hchecked _ _ ?_ s hs
    exact fun _ => rfl
  have hcolumns : Outcome.Keeps (FrameState.Has field) (applyColumnWrites S op out.columnWrites) := by
    refine Outcome.Keeps.forEach _ fun w _ s hs => hchecked _ _ ?_ s hs
    exact fun _ => rfl
  have hremovals : Outcome.Keeps (FrameState.Has field) (applyRemovals S op out.removedItems.keys) := by
    intro s hs
    unfold applyRemovals
    split_ifs
    · exact hs
    · refine hchecked _ _ ?_ s hs
      exact fun _ => rfl
  have hreorder : Outcome.Keeps (FrameState.Has field) (applyReorder S op out.itemOrder) := by
    intro s hs
    unfold applyReorder
    cases out.itemOrder with
    | none => exact hs
    | some order =>
      refine hchecked _ _ ?_ s hs
      exact fun _ => rfl
  have hadditions : Outcome.Keeps (FrameState.Has field) (applyAdditions S op isRecall out.addedItems) := by
    intro s hs
    unfold applyAdditions
    split_ifs
    · exact hs
    · rw [Outcome.state_map]
      exact hs
  have hwarning : Outcome.Keeps (FrameState.Has field) (applyWarning (σ := σ) op out.warning) := by
    intro s hs
    unfold applyWarning
    cases out.warning <;> exact hs
  exact hwarning.andThen (hadditions.andThen (hreorder.andThen (hremovals.andThen (hcolumns.andThen
    (hitems.andThen h)))))

theorem keeps_applyOutputWith (out : OperatorOutput) (isRecall : Bool) :
    Outcome.Keeps (FrameState.Has field) (applyOutputWith S out op isRecall) := fun s hs =>
  keeps_items (keeps_applyCommonWrites out.commonWrites.entries s hs)

theorem has_applyCommonWrites {writes : List (String × Variant)} {s s' : FrameState σ}
    (h : applyCommonWrites op writes s = .ok s') (hf : field ∈ writes.map Prod.fst) : s'.Has field := by
  induction writes generalizing s with
  | nil => cases hf
  | cons w writes ih =>
    rw [applyCommonWrites, Outcome.forEach] at h
    cases hbad : commonWriteError op w with
    | some e =>
      rw [hbad] at h
      cases h
    | none =>
      rw [hbad] at h
      rcases List.mem_cons.mp hf with rfl | hf
      · have hput : FrameState.Has w.1 { s with common := s.common.insert w.1 w.2 } := by
          show (s.common.insert w.1 w.2).contains w.1 = true
          rw [SortedMap.contains, SortedMap.find?_insert_self]
          rfl
        have hkept : (applyCommonWrites op writes { s with common := s.common.insert w.1 w.2 }).state.Has w.1 :=
          keeps_applyCommonWrites writes _ hput
        have hrun : applyCommonWrites op writes { s with common := s.common.insert w.1 w.2 } = .ok s' := h
        rw [hrun] at hkept
        exact hkept
      · exact ih h hf

/-- An applied output has put its common fields there. -/
theorem has_applyOutputWith {out : OperatorOutput} {isRecall : Bool} {s s' : FrameState σ}
    (h : applyOutputWith S out op isRecall s = .ok s') (hf : out.commonWrites.contains field = true) : s'.Has field := by
  have hcommon : (applyCommonWrites op out.commonWrites.entries s).state.Has field := by
    cases hrun : applyCommonWrites op out.commonWrites.entries s with
    | ok t => exact has_applyCommonWrites hrun (SortedMap.mem_keys.mpr hf)
    | fail e t =>
      unfold applyOutputWith at h
      rw [hrun] at h
      cases h
  have hitems : (applyOutputWith S out op isRecall s).state.Has field := keeps_items hcommon
  rw [h] at hitems
  exact hitems

/-- No entry of the log takes a common field away. -/
theorem RunEnv.EntryStep.keeps {env : RunEnv σ} {e : Entry} {f f' : FrameState σ} (h : env.EntryStep e f f')
    (hf : f.Has field) : f'.Has field := by
  have hwarning : ∀ {name : String} {out : OperatorOutput} {f : FrameState σ}, f.Has field →
      (pushWarning name out f).Has field := by
    intro name out f hf
    unfold pushWarning
    split <;> exact hf
  have hdeliver : ∀ (p : NodePlan) (out : OperatorOutput), (env.deliver p out f).state.Has field := by
    intro p out
    unfold RunEnv.deliver
    split
    · exact hf
    · split
      · exact hf
      · exact keeps_applyOutputWith out _ f hf
  cases e with
  | skipped v => exact h.1 ▸ hf
  | applied v out =>
    have hkept := hdeliver (env.node v) out
    rw [show env.deliver (env.node v) out f = .ok f' from h] at hkept
    exact hkept
  | failed v e =>
    obtain ⟨out, rfl | ⟨part, hpart, rfl⟩⟩ := h
    · exact hwarning hf
    · have hkept := hdeliver (env.node v) out
      rw [hpart] at hkept
      exact hwarning hkept

end

/-! ## What is ahead ended without an error -/

section
variable {σ : Type} {env : RunEnv σ} {g : Graph} {pool : Bool} {poolSize : Nat} {f₀ : FrameState σ} {s s' : RunState σ}

/-- The log says that the node's body ended without an error. -/
def Logged (log : List Entry) (v : Nat) : Prop := .skipped v ∈ log ∨ ∃ out, .applied v out ∈ log

theorem Logged.append {log : List Entry} {v : Nat} (h : Logged log v) (new : List Entry) : Logged (log ++ new) v :=
  h.imp (List.mem_append_left _) fun ⟨out, hout⟩ => ⟨out, List.mem_append_left _ hout⟩

/-- An error cancels the run, and everything ahead of a node that has begun is logged. -/
structure AheadInv (g : Graph) (s : RunState σ) : Prop where
  cancelled : s.sched.shared.fatalErr.isSome = true → s.sched.shared.cancelled = true
  ahead : ∀ v, s.bodies v ≠ .idle → ∀ u, TransGen g.Edge u v → Logged s.log u

/-- A step of the scheduler keeps to it that an error cancels the run. -/
theorem cancelled_of_step {t t' : SchedState} {ev : Option RunEvent} (h : SchedStep g pool t ev t')
    (hcancelled : t.shared.fatalErr.isSome = true → t.shared.cancelled = true) :
    t'.shared.fatalErr.isSome = true → t'.shared.cancelled = true := by
  have hevent := h.observed.event
  cases ev with
  | none =>
    obtain ⟨-, hc, -, hf⟩ := hevent
    rw [hc, hf]
    exact hcancelled
  | some ev =>
    cases ev with
    | enter i => rw [hevent.2.2]; exact hcancelled
    | finish i => rw [hevent.2]; exact hcancelled
    | fail i =>
      rw [hevent.2]
      show (t.shared.fail i).fatalErr.isSome = true → (t.shared.fail i).cancelled = true
      unfold Shared.fail
      split_ifs
      · exact fun _ => rfl
      · exact hcancelled
    | pass i => rw [hevent.2.2]; exact hcancelled
    | cancel =>
      rw [hevent]
      exact fun _ => rfl

theorem live_of_enter {t t' : SchedState} {i : Nat} (h : SchedStep g pool t (some (.enter i)) t') :
    t.shared.cancelled = false := by
  cases h with
  | main _ ha =>
    cases ha with
    | enter hlive => exact hlive
  | worker _ ha =>
    cases ha with
    | enter hlive => exact hlive

/-- Nothing that is over at a node's beginning failed or was passed over. -/
theorem RunInv.logged_of_finished (h : RunInv env g f₀ s)
    (hfatal : s.sched.shared.fatalErr.isSome = true → s.sched.shared.cancelled = true)
    (hlive : s.sched.shared.cancelled = false) {u : Nat} (hu : u ∈ s.sched.shared.finished) : Logged s.log u := by
  obtain ⟨e, he⟩ := Option.isSome_iff_exists.mp ((h.finished u).mp hu)
  have hended := h.ended u
  rw [he] at hended
  cases e with
  | passed =>
    have hcancelled : s.sched.shared.cancelled = true := h.fits.passed u he
    rw [hlive] at hcancelled
    cases hcancelled
  | failed =>
    have hfirst : s.sched.shared.fatalErr ≠ none := fun hnone => h.fits.first_none hnone u he
    rw [hfatal (Option.isSome_iff_ne_none.mpr hfirst)] at hlive
    cases hlive
  | completed =>
    cases hb : s.bodies u with
    | skipped => exact Or.inl (h.mem_log (v := u) (by rw [hb]; rfl))
    | applied out => exact Or.inr ⟨out, h.mem_log (v := u) (by rw [hb]; rfl)⟩
    | _ =>
      rw [hb] at hended
      exact absurd hended id

theorem AheadInv.step (hg : GraphInv g) (hinv : RunInv env g f₀ s) (h : AheadInv g s) (hstep : RunStep env g pool s s') :
    AheadInv g s' := by
  cases hstep with
  | sched hsched => exact ⟨cancelled_of_step hsched h.cancelled, h.ahead⟩
  | @enter i t hsched =>
    refine ⟨cancelled_of_step hsched h.cancelled, fun v hv u hu => ?_⟩
    by_cases hvi : v = i
    · subst hvi
      obtain ⟨hstart, -, -⟩ := hsched.observed.event
      exact hinv.logged_of_finished h.cancelled (live_of_enter hsched)
        (hinv.sched.finished_of_reach hg hu (hinv.sched.mem_dispatched hstart))
    · exact h.ahead v (fun hidle => hv ((Function.update_of_ne hvi ..).trans hidle)) u hu
  | @body i f b hbody =>
    refine ⟨h.cancelled, fun v hv u hu => (h.ahead v ?_ u hu).append _⟩
    by_cases hvi : v = i
    · exact hvi ▸ hbody.under_way.1
    · exact fun hidle => hv ((Function.update_of_ne hvi ..).trans hidle)
  | finish hsched _ => exact ⟨cancelled_of_step hsched h.cancelled, h.ahead⟩
  | fail hsched _ => exact ⟨cancelled_of_step hsched h.cancelled, h.ahead⟩
  | pass hsched => exact ⟨cancelled_of_step hsched h.cancelled, h.ahead⟩
  | cancel hsched => exact ⟨cancelled_of_step hsched h.cancelled, h.ahead⟩

theorem AheadInv.reachable (hg : GraphInv g) (h : RunReachable env g pool poolSize f₀ s) : AheadInv g s := by
  induction h with
  | refl => exact ⟨fun h => absurd h Bool.false_ne_true, fun v hv => absurd rfl hv⟩
  | tail hr hstep ih => exact ih.step hg (RunInv.reachable hg hr) hstep

end

end Pineapple
