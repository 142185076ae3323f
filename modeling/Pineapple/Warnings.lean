import Pineapple.RunVerdict

/-! # The warnings of a run (`node_body`, `Run`)

The C++ engine puts an operator's warning on the frame at the end of `apply_output`, or where it catches the
operator's exception. The Go engine takes it between the output checks and `ApplyOutput`. The runs here also
list how each node ended and which warning its output carried, so that two runs can be compared. -/

namespace Pineapple
open FanOut

/-- How a node that was run ended, and the warning on its output. -/
inductive NodeEnd where
  | skipped
  /-- the operator failed, or an output check refused what it returned -/
  | refused (warning : Option String)
  /-- the frame refused the output -/
  | unapplied (warning : Option String)
  | applied (warning : Option String)
deriving DecidableEq

namespace NodeEnd

def cppWarning : NodeEnd → Option String
  | skipped => none
  | refused w | unapplied w | applied w => w

def goWarning : NodeEnd → Option String
  | skipped | refused _ => none
  | unapplied w | applied w => w

end NodeEnd

/-- The warnings of the nodes in `told`, as one of the engines takes them. -/
def takenFrom (taken : NodeEnd → Option String) (told : List (Nat × NodeEnd)) : List (Nat × String) :=
  told.filterMap fun e => (taken e.2).map (e.1, ·)

/-- A warning in the result. -/
def warningText (name : Nat → String) (w : Nat × String) : String := "operator \"" ++ name w.1 ++ "\": " ++ w.2

/-- At most one warning of each node that ran, and none of another. -/
def OnePerRun (name : Nat → String) (ran : Nat → Prop) (warnings : List String) : Prop :=
  ∃ ws : List (Nat × String), (ws.map Prod.fst).Nodup ∧ (∀ w ∈ ws, ran w.1) ∧ warnings.Perm (ws.map (warningText name))

section Taken
variable {taken : NodeEnd → Option String} {told told' : List (Nat × NodeEnd)}

theorem takenFrom_append : takenFrom taken (told ++ told') = takenFrom taken told ++ takenFrom taken told' :=
  List.filterMap_append ..

theorem takenFrom_singleton (i : Nat) (e : NodeEnd) : takenFrom taken [(i, e)] = (taken e).toList.map (i, ·) := by
  unfold takenFrom
  cases h : taken e <;> simp [h]

theorem takenFrom_cons (e : Nat × NodeEnd) :
    takenFrom taken (e :: told) = (taken e.2).toList.map (e.1, ·) ++ takenFrom taken told := by
  rw [← takenFrom_singleton, ← takenFrom_append]
  rfl

theorem mem_takenFrom {w : Nat × String} (h : w ∈ takenFrom taken told) :
    ∃ e, (w.1, e) ∈ told ∧ taken e = some w.2 := by
  obtain ⟨⟨v, e⟩, hmem, htaken⟩ := List.mem_filterMap.mp h
  obtain ⟨msg, hmsg, rfl⟩ := Option.map_eq_some_iff.mp htaken
  exact ⟨e, hmem, hmsg⟩

theorem takenFrom_filter (v : Nat) :
    (takenFrom taken told).filter (fun w => w.1 = v) = takenFrom taken (told.filter fun e => e.1 = v) := by
  induction told with
  | nil => rfl
  | cons e rest ih =>
    rw [takenFrom_cons, List.filter_append, ih, List.filter_cons]
    by_cases he : e.1 = v
    · rw [if_pos (decide_eq_true he), takenFrom_cons]
      cases taken e.2 <;> simp [he]
    · rw [if_neg (by simp [he])]
      cases taken e.2 <;> simp [he]

theorem nodup_takenFrom (h : (told.map Prod.fst).Nodup) : ((takenFrom taken told).map Prod.fst).Nodup := by
  refine h.sublist ?_
  induction told with
  | nil => exact .refl _
  | cons e rest ih =>
    have hrest := ih (List.nodup_cons.mp h).2
    rw [takenFrom_cons, List.map_cons]
    cases taken e.2 with
    | none => exact hrest.cons e.1
    | some msg => exact hrest.cons_cons e.1

namespace NodeEnd

theorem goWarning_le (e : NodeEnd) : e.goWarning.toList.length ≤ e.cppWarning.toList.length := by
  cases e <;> simp [goWarning, cppWarning]

theorem warning_eq_iff (e : NodeEnd) :
    e.cppWarning.toList.length = e.goWarning.toList.length ↔ ∀ m, e ≠ .refused (some m) := by
  rcases e with - | (- | m) | w | w <;> simp [goWarning, cppWarning]

end NodeEnd

/-- Both engines take as many warnings only where no operator failed with one. -/
theorem length_taken_eq_iff :
    (takenFrom NodeEnd.cppWarning told).length = (takenFrom NodeEnd.goWarning told).length ↔
      ∀ e ∈ told, ∀ m, e.2 ≠ .refused (some m) := by
  have hle : ∀ l, (takenFrom NodeEnd.goWarning l).length ≤ (takenFrom NodeEnd.cppWarning l).length := by
    intro l
    induction l with
    | nil => exact Nat.le_refl _
    | cons e rest ih =>
      rw [takenFrom_cons, takenFrom_cons]
      simpa using Nat.add_le_add e.2.goWarning_le ih
  induction told with
  | nil => simp [takenFrom]
  | cons e rest ih =>
    have hrest := hle rest
    have hhead := e.2.goWarning_le
    rw [List.forall_mem_cons, takenFrom_cons, takenFrom_cons, List.length_append, List.length_append, List.length_map,
      List.length_map]
    refine Iff.trans ?_ (and_congr e.2.warning_eq_iff ih)
    omega

theorem taken_eq (h : ∀ e ∈ told, ∀ m, e.2 ≠ .refused (some m)) :
    takenFrom NodeEnd.cppWarning told = takenFrom NodeEnd.goWarning told := by
  refine List.filterMap_congr fun e he => ?_
  have hkept := h e he
  rcases e with ⟨v, - | (- | m) | w | w⟩
  · rfl
  · rfl
  · exact absurd rfl (hkept m)
  · rfl
  · rfl

end Taken

/-! ## The C++ engine -/

section Cpp
variable {σ : Type} {env : RunEnv σ} {g : Graph} {pool : Bool} {poolSize : Nat} {f₀ : FrameState σ}

/-- The output comes as far as `apply_output`. -/
def passesGates (p : NodePlan) (out : OperatorOutput) : Bool :=
  (validateOutputAgainstType p.op.name p.op.operatorType out).isOk && (validateDeclaredOutputs p.op.name p.op out).isOk

/-- The steps that end a body, and the end they mean. -/
inductive BodyEnds (env : RunEnv σ) (p : NodePlan) (cancelled : Bool) :
    FrameState σ → Body → FrameState σ → Body → NodeEnd → Prop
  | skip {f} : (shouldSkip p.op.skip).run f.common.find? = true →
      BodyEnds env p cancelled f .entered f .skipped .skipped
  | resolveFails {f e} : (env.text.resolveTemplatedParams p.template ∅).run f.common.find? = .error e →
      BodyEnds env p cancelled f .resolving f (.failed (promote p.op.name e)) (.refused none)
  | serialFails {f r e out} : p.op.dataParallel ≤ 1 ∨ (env.storage.view f none).itemCount = 0 →
      env.Dispatches p r f none (.fail e out) →
      BodyEnds env p cancelled f (.ready r) (pushWarning p.op.name out f) (.failed e) (.refused out.warning)
  | joinFails {f r sh deadlineExceeded e out} : sh.Over → joinShards sh p.op.name deadlineExceeded = .fail e out →
      BodyEnds env p cancelled f (.sharding r sh) (pushWarning p.op.name out f) (.failed e) (.refused out.warning)
  | apply {f f' out} : env.deliver p out f = .ok f' →
      BodyEnds env p cancelled f (.produced out) f' (.applied out) (.applied out.warning)
  | applyFails {f f' out e} : env.deliver p out f = .fail e f' →
      BodyEnds env p cancelled f (.produced out) (pushWarning p.op.name out f') (.failed e)
        (if passesGates p out then .unapplied out.warning else .refused out.warning)

/-- A run of the C++ engine up to a state, and the nodes that ended in it, in that order. -/
inductive CppTells (env : RunEnv σ) (g : Graph) (pool : Bool) (poolSize : Nat) (f₀ : FrameState σ) :
    RunState σ → List (Nat × NodeEnd) → Prop
  | init : CppTells env g pool poolSize f₀ (.init g poolSize f₀) []
  | quiet {s s' told} : CppTells env g pool poolSize f₀ s told → RunStep env g pool s s' → s'.log = s.log →
      CppTells env g pool poolSize f₀ s' told
  | ends {s i f b told e} : CppTells env g pool poolSize f₀ s told →
      BodyEnds env (env.node i) s.sched.shared.cancelled s.frame (s.bodies i) f b e →
      CppTells env g pool poolSize f₀ { s with
        frame := f
        bodies := Function.update s.bodies i b
        log := s.log ++ (b.entryAt i).toList
        counted := s.counted ++ (b.entryAt i).toList.map fun e => (e.tally, (env.node i).op.name)
        traces := Function.update s.traces i (b.trace? (env.node i).op.name) } (told ++ [(i, e)])

/-- The operator was run, or a step before it failed. -/
def Body.Ran : Body → Prop
  | applied _ | failed _ => True
  | _ => False

/-- The body ended this way. -/
def Body.Told : Body → NodeEnd → Prop
  | skipped, e => e = .skipped
  | applied _, e | failed _, e => e ≠ .skipped
  | _, _ => False

namespace BodyEnds
variable {p : NodePlan} {cancelled : Bool} {f f' : FrameState σ} {b b' : Body} {e : NodeEnd}

theorem step (h : BodyEnds env p cancelled f b f' b' e) : BodyStep env p cancelled f b f' b' := by
  cases h with
  | skip hs => exact .skip hs
  | resolveFails hr => exact .resolveFails hr
  | serialFails hcut hd => exact .serialFails hcut hd
  | joinFails hover hj => exact .joinFails hover hj
  | apply hd => exact .apply hd
  | applyFails hd => exact .applyFails hd

theorem told (h : BodyEnds env p cancelled f b f' b' e) : b'.Told e := by
  cases h with
  | skip _ => exact rfl
  | resolveFails _ | serialFails _ _ | joinFails _ _ | apply _ => exact nofun
  | applyFails _ =>
    show (if _ then _ else _ : NodeEnd) ≠ .skipped
    split <;> exact nofun

end BodyEnds

theorem Body.Told.entry {b : Body} {e : NodeEnd} (h : b.Told e) (v : Nat) : b.entryAt v ≠ none := by
  cases b with
  | skipped => exact nofun
  | applied out => exact nofun
  | failed err => exact nofun
  | _ => exact absurd h id

namespace BodyStep
variable {p : NodePlan} {cancelled : Bool} {f f' : FrameState σ} {b b' : Body}

/-- A step of a body ends it or leaves the frame alone. -/
theorem ends_or_quiet (h : BodyStep env p cancelled f b f' b') :
    (∃ e, BodyEnds env p cancelled f b f' b' e) ∨ f' = f ∧ ∀ v, b'.entryAt v = none := by
  cases h with
  | skip hs => exact Or.inl ⟨_, .skip hs⟩
  | resolveFails hr => exact Or.inl ⟨_, .resolveFails hr⟩
  | serialFails hcut hd => exact Or.inl ⟨_, .serialFails hcut hd⟩
  | joinFails hover hj => exact Or.inl ⟨_, .joinFails hover hj⟩
  | apply hd => exact Or.inl ⟨_, .apply hd⟩
  | applyFails hd => exact Or.inl ⟨_, .applyFails hd⟩
  | _ => exact Or.inr ⟨rfl, fun _ => rfl⟩

end BodyStep

/-! ### What a step adds to the frame's warnings -/

theorem pushWarning_warnings (op : String) (out : OperatorOutput) (f : FrameState σ) :
    (pushWarning op out f).warnings =
      f.warnings ++ out.warning.toList.map fun msg => "operator \"" ++ op ++ "\": " ++ msg := by
  unfold pushWarning
  cases out.warning with
  | none => exact (List.append_nil _).symm
  | some msg => rfl

theorem deliver_warnings (env : RunEnv σ) (p : NodePlan) (out : OperatorOutput) (f : FrameState σ) :
    match env.deliver p out f with
    | .ok f' => f'.warnings =
        f.warnings ++ out.warning.toList.map fun msg => "operator \"" ++ p.op.name ++ "\": " ++ msg
    | .fail _ f' => f'.warnings = f.warnings := by
  unfold RunEnv.deliver
  cases validateOutputAgainstType p.op.name p.op.operatorType out with
  | error e => rfl
  | ok _ =>
    cases validateDeclaredOutputs p.op.name p.op out with
    | error e => rfl
    | ok _ =>
      have hends := applyOutputWith_ends env.storage.lawful out p.op.name (p.op.operatorType = "recall") f
      dsimp only
      generalize applyOutputWith env.storage.store out p.op.name (p.op.operatorType = "recall") f = res at hends
      cases hends with
      | ok _ _ _ _ =>
        show f.warnings ++ (out.warning.map _).toList = _
        cases out.warning <;> rfl
      | _ => rfl

theorem BodyEnds.warnings {i : Nat} {cancelled : Bool} {f f' : FrameState σ} {b b' : Body} {e : NodeEnd}
    (h : BodyEnds env (env.node i) cancelled f b f' b' e) :
    f'.warnings =
      f.warnings ++ (takenFrom NodeEnd.cppWarning [(i, e)]).map (warningText fun v => (env.node v).op.name) := by
  rw [takenFrom_singleton, List.map_map]
  cases h with
  | skip _ => exact (List.append_nil _).symm
  | resolveFails _ => exact (List.append_nil _).symm
  | serialFails _ _ => exact pushWarning_warnings ..
  | joinFails _ _ => exact pushWarning_warnings ..
  | @apply _ out hd =>
    have hwarn := deliver_warnings env (env.node i) out f
    rw [hd] at hwarn
    exact hwarn
  | @applyFails _ out _ hd =>
    have hwarn := deliver_warnings env (env.node i) out f
    rw [hd] at hwarn
    have hend : NodeEnd.cppWarning
        (if passesGates (env.node i) out then .unapplied out.warning else .refused out.warning) = out.warning := by
      split <;> rfl
    rw [hend, pushWarning_warnings]
    exact congrArg (· ++ _) hwarn

/-! ### Every run tells its ends -/

structure CppTold (env : RunEnv σ) (f₀ : FrameState σ) (s : RunState σ) (told : List (Nat × NodeEnd)) : Prop where
  warnings : s.frame.warnings =
    f₀.warnings ++ (takenFrom NodeEnd.cppWarning told).map (warningText fun v => (env.node v).op.name)
  ended : ∀ e ∈ told, (s.bodies e.1).Told e.2
  once : (told.map Prod.fst).Nodup

namespace CppTold
variable {s : RunState σ} {told : List (Nat × NodeEnd)}

/-- The bodies that are over stay, and the frame's warnings are those already told. -/
theorem keep (h : CppTold env f₀ s told) {s' : RunState σ} (hframe : s'.frame.warnings = s.frame.warnings)
    (hbodies : ∀ v, s'.bodies v = s.bodies v ∨ ∀ w, (s.bodies v).entryAt w = none) : CppTold env f₀ s' told := by
  refine ⟨hframe.trans h.warnings, fun e he => ?_, h.once⟩
  have hend := h.ended e he
  rcases hbodies e.1 with hsame | hopen
  · rw [hsame]
    exact hend
  · exact absurd (hopen 0) (hend.entry 0)

theorem ends (h : CppTold env f₀ s told) {s' : RunState σ} {i : Nat} {e : NodeEnd} {cancelled : Bool} {f : FrameState σ}
    {b : Body} (hb : BodyEnds env (env.node i) cancelled s.frame (s.bodies i) f b e) (hframe : s'.frame = f)
    (hbodies : s'.bodies = Function.update s.bodies i b) : CppTold env f₀ s' (told ++ [(i, e)]) := by
  have hfresh : ∀ e' ∈ told, e'.1 ≠ i := by
    rintro ⟨v, e'⟩ hmem rfl
    exact (h.ended _ hmem).entry 0 (hb.step.under_way.2 0)
  refine ⟨?_, fun e' he' => ?_, ?_⟩
  · rw [hframe, hb.warnings, h.warnings, takenFrom_append, List.map_append, List.append_assoc]
  · rw [hbodies]
    rcases List.mem_append.mp he' with hold | hnew
    · rw [Function.update_of_ne (hfresh e' hold)]
      exact h.ended e' hold
    · rw [List.mem_singleton.mp hnew, Function.update_self]
      exact hb.told
  · rw [List.map_append, List.nodup_append]
    refine ⟨h.once, List.nodup_singleton _, ?_⟩
    intro v hv w hw
    obtain ⟨e', he', rfl⟩ := List.mem_map.mp hv
    rw [List.mem_singleton.mp hw]
    exact hfresh e' he'

end CppTold

namespace CppTells
variable {s : RunState σ} {told : List (Nat × NodeEnd)}

theorem reachable (h : CppTells env g pool poolSize f₀ s told) : RunReachable env g pool poolSize f₀ s := by
  induction h with
  | init => exact .refl
  | quiet _ hstep _ ih => exact ih.tail hstep
  | ends _ hb ih => exact ih.tail (.body hb.step)

theorem exists_of_reachable (hr : RunReachable env g pool poolSize f₀ s) :
    ∃ told, CppTells env g pool poolSize f₀ s told := by
  induction hr with
  | refl => exact ⟨[], .init⟩
  | tail _ hstep ih =>
    obtain ⟨told, htold⟩ := ih
    cases hstep with
    | @body i f b hb =>
      rcases hb.ends_or_quiet with ⟨e, he⟩ | ⟨-, hquiet⟩
      · exact ⟨_, .ends htold he⟩
      · refine ⟨told, .quiet htold (.body hb) ?_⟩
        show _ ++ (b.entryAt i).toList = _
        rw [hquiet i]
        exact List.append_nil _
    | sched hs => exact ⟨told, .quiet htold (.sched hs) rfl⟩
    | enter hs => exact ⟨told, .quiet htold (.enter hs) rfl⟩
    | finish hs hb => exact ⟨told, .quiet htold (.finish hs hb) rfl⟩
    | fail hs hb => exact ⟨told, .quiet htold (.fail hs hb) rfl⟩
    | pass hs => exact ⟨told, .quiet htold (.pass hs) rfl⟩
    | cancel hs => exact ⟨told, .quiet htold (.cancel hs) rfl⟩

theorem inv (hg : GraphInv g) (h : CppTells env g pool poolSize f₀ s told) : CppTold env f₀ s told := by
  induction h with
  | init => exact ⟨(List.append_nil _).symm, fun _ he => absurd he List.not_mem_nil, List.nodup_nil⟩
  | ends htold hb ih => exact ih.ends hb rfl rfl
  | quiet htold hstep hlog ih =>
    cases hstep with
    | @enter i t hs =>
      have hinv := RunInv.reachable hg htold.reachable
      have hidle := hinv.starts i hs.observed.event.1
      refine ih.keep rfl fun v => ?_
      by_cases hv : v = i
      · right
        rw [hv, hidle]
        exact fun _ => rfl
      · exact Or.inl (Function.update_of_ne hv ..)
    | @body i f b hb =>
      rcases hb.ends_or_quiet with ⟨e, he⟩ | ⟨hframe, -⟩
      · have hentry : (b.entryAt i).toList = [] := List.append_right_eq_self.mp hlog
        exact absurd (Option.toList_eq_nil_iff.mp hentry) (he.told.entry i)
      · refine ih.keep (congrArg _ hframe) fun v => ?_
        by_cases hv : v = i
        · exact Or.inr (hv ▸ hb.under_way.2)
        · exact Or.inl (Function.update_of_ne hv ..)
    | _ => exact ih.keep rfl fun _ => Or.inl rfl

end CppTells

theorem CppTold.onePerRun {s : RunState σ} {told : List (Nat × NodeEnd)} (h : CppTold env f₀ s told)
    (hf : f₀.warnings = []) :
    OnePerRun (fun v => (env.node v).op.name) (fun v => (s.bodies v).Ran) s.frame.warnings := by
  refine ⟨takenFrom NodeEnd.cppWarning told, nodup_takenFrom h.once, fun w hw => ?_, ?_⟩
  · obtain ⟨e, hmem, htaken⟩ := mem_takenFrom hw
    have hend := h.ended _ hmem
    cases hb : s.bodies w.1 with
    | applied out => exact trivial
    | failed err => exact trivial
    | skipped =>
      rw [hb] at hend
      rw [show e = .skipped from hend] at htaken
      exact absurd htaken nofun
    | _ =>
      rw [hb] at hend
      exact absurd hend id
  · rw [h.warnings, hf]
    exact .refl _

end Cpp

/-! ## The Go engine -/

section Go
variable {σ ι : Type} {env : GoEnv σ ι} {g : Graph} {f₀ : σ}

/-- The end of a goroutine that leaves `b` with `x`; nothing when its node was not run. -/
def GoBody.endsAs : GoBody ι → GoExit → Option NodeEnd
  | _, .passed => none
  | _, .skipped => some .skipped
  | .executed (.ok out), .failed _ _ => some (.refused out.warning)
  | .executed (.fail _ out), .failed _ _ => some (.refused out.warning)
  | .produced out, .failed _ _ => some (.unapplied out.warning)
  | _, .failed _ _ => some (.refused none)
  | _, .applied out => some (.applied out.warning)

/-- A run of the Go engine up to a state, the warnings in `warnings`, each with its node in place of the
operator's name, and the nodes that ended. -/
inductive GoTells (env : GoEnv σ ι) (g : Graph) (f₀ : σ) :
    GoRunState σ ι → List (Nat × String) → List (Nat × NodeEnd) → Prop
  | init : GoTells env g f₀ (.init g f₀) [] []
  /-- past the output checks a goroutine takes the warning -/
  | gate {s i out ws told} : GoTells env g f₀ s ws told → s.crashed = false → i < g.nodes.length →
      s.bodies i = .executed (.ok out) → goGateError (env.node i) out = none →
      GoTells env g f₀ (s.move i s.frame (.produced out)) (ws ++ out.warning.toList.map (i, ·)) told
  | leave {s i f x ws told} : GoTells env g f₀ s ws told → s.crashed = false → i < g.nodes.length →
      GoBodyStep env (env.node i) s.flags.cancelled s.isClosed s.frame (s.bodies i) f (.leaving x) →
      GoTells env g f₀ (s.exitWith (env.node i).op.name i f x) ws (told ++ ((s.bodies i).endsAs x).toList.map (i, ·))
  | quiet {s s' ws told} : GoTells env g f₀ s ws told → GoRunStep env g s s' → s'.log = s.log →
      (∀ i out, s'.bodies i = .produced out → s.bodies i = .produced out) → GoTells env g f₀ s' ws told

/-- The operator was run, or a step before it failed. -/
def GoBody.Ran (b : GoBody ι) : Prop := match b.exit? with
  | some (.applied _) | some (.failed _ _) => True
  | _ => False

def GoExit.Told : GoExit → NodeEnd → Prop
  | passed, _ => False
  | skipped, e => e = .skipped
  | applied _, e | failed _ _, e => e ≠ .skipped

/-- The warning of an output that is being applied. -/
def GoBody.pending : GoBody ι → Option String
  | produced out => out.warning
  | _ => none

theorem GoBodyStep.told {p : NodePlan} {cancelled : Bool} {closed : Nat → Bool} {f f' : σ} {b : GoBody ι} {x : GoExit}
    (h : GoBodyStep env p cancelled closed f b f' (.leaving x)) :
    ∀ e, b.endsAs x = some e → x.Told e ∧ e.goWarning = b.pending := by
  cases h with
  | pass _ => exact nofun
  | skip _ => exact fun e he => Option.some.inj he ▸ ⟨rfl, rfl⟩
  | _ => exact fun e he => Option.some.inj he ▸ ⟨nofun, rfl⟩

theorem GoBodyStep.pending_of_passed {p : NodePlan} {cancelled : Bool} {closed : Nat → Bool} {f f' : σ} {b : GoBody ι}
    {x : GoExit} (h : GoBodyStep env p cancelled closed f b f' (.leaving x)) (hx : b.endsAs x = none) :
    b.pending = none := by
  cases h with
  | pass _ => rfl
  | _ => exact absurd hx nofun

theorem GoBodyStep.pending_none {p : NodePlan} {cancelled : Bool} {closed : Nat → Bool} {f f' : σ} {b b' : GoBody ι}
    (h : GoBodyStep env p cancelled closed f b f' b') (hb : b'.exit? = none) : b.pending = none := by
  cases h with
  | apply _ => exact absurd hb nofun
  | applyFails _ => exact absurd hb nofun
  | _ => rfl

/-- A goroutine comes to an output only past the output checks. -/
theorem GoBodyStep.gate_or_other {p : NodePlan} {cancelled : Bool} {closed : Nat → Bool} {f f' : σ} {b b' : GoBody ι}
    (h : GoBodyStep env p cancelled closed f b f' b') (hb : b'.exit? = none) :
    (∃ out, b = .executed (.ok out) ∧ goGateError p out = none ∧ f' = f ∧ b' = .produced out) ∨
      ∀ out, b' ≠ .produced out := by
  cases h with
  | gate hgate => exact Or.inl ⟨_, rfl, hgate, rfl, rfl⟩
  | _ => exact Or.inr nofun

structure GoTold (g : Graph) (s : GoRunState σ ι) (ws : List (Nat × String)) (told : List (Nat × NodeEnd)) : Prop where
  taken : ∀ v, ws.filter (fun w => w.1 = v) =
    takenFrom NodeEnd.goWarning (told.filter fun e => e.1 = v) ++ (s.bodies v).pending.toList.map (v, ·)
  ended : ∀ e ∈ told, ∃ x, (s.bodies e.1).exit? = some x ∧ x.Told e.2
  once : (told.map Prod.fst).Nodup
  bound : ∀ v, g.nodes.length ≤ v → ∃ preds, s.bodies v = .waiting preds

theorem filter_tagged (i v : Nat) (msg : Option String) :
    (msg.toList.map (i, ·)).filter (fun w => w.1 = v) = if v = i then msg.toList.map (v, ·) else [] := by
  by_cases hv : v = i
  · subst hv
    cases msg <;> simp
  · cases msg <;> simp [hv, Ne.symm hv]

namespace GoTold
variable {s : GoRunState σ ι} {ws : List (Nat × String)} {told : List (Nat × NodeEnd)}

theorem of_bodies (h : GoTold g s ws told) {s' : GoRunState σ ι} (hs : s'.bodies = s.bodies) : GoTold g s' ws told := by
  refine ⟨fun v => ?_, fun e he => ?_, h.once, fun v hv => ?_⟩
  · rw [hs, h.taken]
  · rw [hs]
    exact h.ended e he
  · rw [hs]
    exact h.bound v hv

/-- A goroutine moves on without taking a warning. -/
theorem set (h : GoTold g s ws told) {s' : GoRunState σ ι} {i : Nat} {b : GoBody ι}
    (hs : s'.bodies = Function.update s.bodies i b) (hpending : b.pending = (s.bodies i).pending)
    (hexit : ∀ x, (s.bodies i).exit? = some x → b.exit? = some x) (hi : i < g.nodes.length) : GoTold g s' ws told := by
  refine ⟨fun v => ?_, fun e he => ?_, h.once, fun v hv => ?_⟩
  · rw [h.taken, hs]
    by_cases hv : v = i
    · rw [hv, Function.update_self, hpending]
    · rw [Function.update_of_ne hv]
  · obtain ⟨x, hx, htold⟩ := h.ended e he
    refine ⟨x, ?_, htold⟩
    rw [hs]
    by_cases hv : e.1 = i
    · rw [hv] at hx ⊢
      rw [Function.update_self]
      exact hexit x hx
    · rw [Function.update_of_ne hv]
      exact hx
  · rw [hs, Function.update_of_ne (Nat.ne_of_gt (Nat.lt_of_lt_of_le hi hv))]
    exact h.bound v hv

theorem lt (h : GoTold g s ws told) {e : Nat × NodeEnd} (he : e ∈ told) : e.1 < g.nodes.length := by
  refine Nat.lt_of_not_le fun hge => ?_
  obtain ⟨x, hx, -⟩ := h.ended e he
  obtain ⟨preds, hpreds⟩ := h.bound e.1 hge
  rw [hpreds] at hx
  exact absurd hx nofun

/-- A goroutine that is under way has told nothing. -/
theorem untold (h : GoTold g s ws told) {i : Nat} (hi : (s.bodies i).exit? = none) : ∀ e ∈ told, e.1 ≠ i := by
  rintro e he rfl
  obtain ⟨x, hx, -⟩ := h.ended e he
  exact absurd (hi.symm.trans hx) nofun

theorem gate (h : GoTold g s ws told) {i : Nat} {f : σ} {out : OperatorOutput} (hi : i < g.nodes.length)
    (hb : s.bodies i = .executed (.ok out)) :
    GoTold g (s.move i f (.produced out)) (ws ++ out.warning.toList.map (i, ·)) told := by
  have huntold := h.untold (i := i) (by rw [hb]; rfl)
  refine ⟨fun v => ?_, fun e he => ?_, h.once, fun v hv => ?_⟩
  · show _ = _ ++ (Function.update s.bodies i (.produced out) v).pending.toList.map (v, ·)
    rw [List.filter_append, h.taken, filter_tagged]
    by_cases hv : v = i
    · subst hv
      rw [if_pos rfl, Function.update_self, hb]
      exact congrArg (· ++ _) (List.append_nil _)
    · rw [if_neg hv, Function.update_of_ne hv, List.append_nil]
  · obtain ⟨x, hx, htold⟩ := h.ended e he
    refine ⟨x, ?_, htold⟩
    show (Function.update s.bodies i (.produced out) e.1).exit? = some x
    rw [Function.update_of_ne (huntold e he)]
    exact hx
  · show ∃ preds, Function.update s.bodies i (.produced out) v = .waiting preds
    rw [Function.update_of_ne (Nat.ne_of_gt (Nat.lt_of_lt_of_le hi hv))]
    exact h.bound v hv

theorem leave (h : GoTold g s ws told) {i : Nat} {f : σ} {x : GoExit} {name : String} (hi : i < g.nodes.length)
    (hstep : GoBodyStep env (env.node i) s.flags.cancelled s.isClosed s.frame (s.bodies i) f (.leaving x)) :
    GoTold g (s.exitWith name i f x) ws (told ++ ((s.bodies i).endsAs x).toList.map (i, ·)) := by
  have huntold := h.untold hstep.under_way
  have hmem : ∀ e ∈ ((s.bodies i).endsAs x).toList.map (i, ·), e.1 = i ∧ x.Told e.2 := by
    intro e he
    obtain ⟨e', he', rfl⟩ := List.mem_map.mp he
    exact ⟨rfl, (hstep.told e' (Option.mem_toList.mp he')).1⟩
  refine ⟨fun v => ?_, fun e he => ?_, ?_, fun v hv => ?_⟩
  · show _ = _ ++ (Function.update s.bodies i (.leaving x) v).pending.toList.map (v, ·)
    rw [h.taken, List.filter_append, takenFrom_append]
    by_cases hv : v = i
    · subst hv
      rw [Function.update_self, List.append_assoc]
      refine congrArg (takenFrom _ _ ++ ·) ?_
      cases hend : (s.bodies v).endsAs x with
      | none =>
        rw [hstep.pending_of_passed hend]
        rfl
      | some e =>
        rw [← (hstep.told e hend).2, Option.toList_some, List.map_singleton, List.filter_singleton,
          decide_eq_true rfl]
        exact (takenFrom_singleton v e).symm.trans (List.append_nil _).symm
    · have hother : (((s.bodies i).endsAs x).toList.map (i, ·)).filter (fun e => e.1 = v) = [] :=
        List.filter_eq_nil_iff.mpr fun e he => by simp [(hmem e he).1, Ne.symm hv]
      rw [Function.update_of_ne hv, hother]
      exact congrArg (· ++ _) (List.append_nil _).symm
  · show ∃ y, (Function.update s.bodies i (.leaving x) e.1).exit? = some y ∧ y.Told e.2
    rcases List.mem_append.mp he with hold | hnew
    · rw [Function.update_of_ne (huntold e hold)]
      exact h.ended e hold
    · rw [(hmem e hnew).1, Function.update_self]
      exact ⟨x, rfl, (hmem e hnew).2⟩
  · rw [List.map_append, List.nodup_append]
    refine ⟨h.once, ?_, fun v hv w hw => ?_⟩
    · cases (s.bodies i).endsAs x <;> simp
    · obtain ⟨e, he, rfl⟩ := List.mem_map.mp hv
      obtain ⟨e', he', rfl⟩ := List.mem_map.mp hw
      rw [(hmem e' he').1]
      exact huntold e he
  · show ∃ preds, Function.update s.bodies i (.leaving x) v = .waiting preds
    rw [Function.update_of_ne (Nat.ne_of_gt (Nat.lt_of_lt_of_le hi hv))]
    exact h.bound v hv

end GoTold

namespace GoTells
variable {s : GoRunState σ ι} {ws : List (Nat × String)} {told : List (Nat × NodeEnd)}

theorem reachable (h : GoTells env g f₀ s ws told) : GoRunReachable env g f₀ s := by
  induction h with
  | init => exact .refl
  | gate _ hc hi hb hg ih => exact ih.tail (.move hc hi rfl (hb ▸ .gate hg))
  | leave _ hc hi hstep ih => exact ih.tail (.leave hc hi hstep)
  | quiet _ hstep _ _ ih => exact ih.tail hstep

theorem inv (h : GoTells env g f₀ s ws told) : GoTold g s ws told := by
  induction h with
  | init => exact ⟨fun _ => rfl, fun _ he => absurd he List.not_mem_nil, List.nodup_nil, fun v _ => ⟨_, rfl⟩⟩
  | gate _ _ hi hb _ ih => exact ih.gate hi hb
  | leave _ _ hi hstep ih => exact ih.leave hi hstep
  | quiet _ hstep hlog hproduced ih =>
    cases hstep with
    | @move i f b _ hi hb hbody =>
      have hopen := hbody.under_way
      refine ih.set rfl ?_ (fun x hx => absurd (hopen.symm.trans hx) nofun) hi
      cases hnew : b with
      | produced out => rw [hproduced i out (hnew ▸ Function.update_self ..)]
      | _ => exact (hbody.pending_none hb).symm
    | leave _ _ _ => exact absurd (List.append_right_eq_self.mp hlog) nofun
    | @close i x _ hb =>
      refine ih.set rfl (by rw [hb]; rfl) (fun y hy => by rw [hb] at hy; exact hy) (Nat.lt_of_not_le fun hi => ?_)
      obtain ⟨preds, hpreds⟩ := ih.bound i hi
      exact absurd (hb.symm.trans hpreds) nofun
    | crash _ _ _ _ _ _ _ => exact ih.of_bodies rfl
    | cancel => exact ih.of_bodies rfl
    | wait _ _ => exact ih.of_bodies rfl

theorem exists_of_reachable (hr : GoRunReachable env g f₀ s) : ∃ ws told, GoTells env g f₀ s ws told := by
  induction hr with
  | refl => exact ⟨[], [], .init⟩
  | @tail s s' _ hstep ih =>
    obtain ⟨ws, told, h⟩ := ih
    cases hstep with
    | @move i f b hc hi hb hbody =>
      rcases hbody.gate_or_other hb with ⟨out, hexec, hgate, rfl, rfl⟩ | hother
      · exact ⟨_, _, .gate h hc hi hexec hgate⟩
      · refine ⟨_, _, .quiet h (.move hc hi hb hbody) rfl fun j out hj => ?_⟩
        have hbodies : Function.update s.bodies i b j = .produced out := hj
        by_cases hji : j = i
        · rw [hji, Function.update_self] at hbodies
          exact absurd hbodies (hother out)
        · rwa [Function.update_of_ne hji] at hbodies
    | leave hc hi hbody => exact ⟨_, _, .leave h hc hi hbody⟩
    | @close i x hc hb =>
      refine ⟨_, _, .quiet h (.close hc hb) rfl fun j out hj => ?_⟩
      have hbodies : Function.update s.bodies i (.closed x) j = .produced out := hj
      by_cases hji : j = i
      · rw [hji, Function.update_self] at hbodies
        exact absurd hbodies nofun
      · rwa [Function.update_of_ne hji] at hbodies
    | crash hc hi hb hover herr hskip hm =>
      exact ⟨_, _, .quiet h (.crash hc hi hb hover herr hskip hm) rfl fun _ _ hx => hx⟩
    | cancel => exact ⟨_, _, .quiet h .cancel rfl fun _ _ hx => hx⟩
    | wait hc hall => exact ⟨_, _, .quiet h (.wait hc hall) rfl fun _ _ hx => hx⟩

end GoTells

/-- Once `Run` returns, the warnings are those of the nodes that ended. -/
theorem GoTold.perm {s : GoRunState σ ι} {ws : List (Nat × String)} {told : List (Nat × NodeEnd)}
    (h : GoTold g s ws told) (hclosed : ∀ v < g.nodes.length, s.isClosed v = true) : ws.Perm (takenFrom NodeEnd.goWarning told) := by
  have hpending : ∀ v, (s.bodies v).pending = none := by
    intro v
    rcases Nat.lt_or_ge v g.nodes.length with hv | hv
    · have hc := hclosed v hv
      unfold GoRunState.isClosed at hc
      cases hb : s.bodies v with
      | closed x => rfl
      | _ =>
        rw [hb] at hc
        exact absurd hc Bool.false_ne_true
    · obtain ⟨preds, hpreds⟩ := h.bound v hv
      rw [hpreds]
      rfl
  refine List.perm_iff_count.mpr fun w => ?_
  have hfilter : ws.filter (fun u => u.1 = w.1) = (takenFrom NodeEnd.goWarning told).filter fun u => u.1 = w.1 := by
    rw [h.taken, hpending, takenFrom_filter]
    exact List.append_nil _
  have hcount : ∀ l : List (Nat × String), (l.filter fun u => u.1 = w.1).count w = l.count w :=
    fun l => List.count_filter (decide_eq_true rfl)
  rw [← hcount ws, hfilter, hcount]

theorem GoTold.onePerRun {s : GoRunState σ ι} {ws : List (Nat × String)} {told : List (Nat × NodeEnd)}
    (h : GoTold g s ws told) (hperm : ws.Perm (takenFrom NodeEnd.goWarning told)) :
    OnePerRun (fun v => (env.node v).op.name) (fun v => (s.bodies v).Ran)
      (ws.map (warningText fun v => (env.node v).op.name)) := by
  refine ⟨ws, ((hperm.map _).nodup_iff).mpr (nodup_takenFrom h.once), fun w hw => ?_, .refl _⟩
  obtain ⟨e, hmem, htaken⟩ := mem_takenFrom (hperm.mem_iff.mp hw)
  obtain ⟨x, hx, htold⟩ := h.ended _ hmem
  show match (s.bodies w.1).exit? with | some (.applied _) | some (.failed _ _) => True | _ => False
  rw [hx]
  cases x with
  | applied out => exact trivial
  | failed err counted => exact trivial
  | passed => exact htold
  | skipped =>
    rw [show e = .skipped from htold] at htaken
    exact absurd htaken nofun

end Go

/-! ## Both engines -/

namespace Lone

section Cpp
variable {σ : Type} {env : RunEnv σ} {f₀ f f' : FrameState σ} {b b' : Body} {e : NodeEnd}

/-- The only body of a run ends, and the run returns. -/
theorem tells (h : BodySteps env (f₀, .entered) (f, b)) (hend : BodyEnds env (env.node 0) false f b f' b' e)
    (hb : b'.Succeeded ∨ ∃ e, b' = .failed e) :
    ∃ s, CppTells env graph false 0 f₀ s [(0, e)] ∧ s.sched.mainReturned = true ∧ s.frame = f' := by
  obtain ⟨⟨sched, frame, bodies, exits, callerDone, log, counted, traces⟩, hr, hsched, hframe, hbody⟩ := runs h
  dsimp only at hsched hframe hbody
  subst hsched hframe hbody
  obtain ⟨told, htold⟩ := CppTells.exists_of_reachable hr
  have hinv := RunInv.reachable (buildDag_spec buildDag_config).inv hr
  have hnone : told = [] := by
    refine List.eq_nil_iff_forall_not_mem.mpr fun e' he' => ?_
    have hold := (htold.inv (buildDag_spec buildDag_config).inv).ended e' he'
    by_cases hv : e'.1 = 0
    · rw [hv] at hold
      exact absurd (hend.step.under_way.2 0) (hold.entry 0)
    · have hidle : bodies e'.1 = .idle := hinv.fresh e'.1 (by simpa [running] using hv)
      rw [show (_ : RunState σ).bodies e'.1 = .idle from hidle] at hold
      exact absurd hold id
  subst hnone
  have hended := htold.ends hend
  have hnow : Function.update bodies 0 b' 0 = b' := Function.update_self ..
  rcases hb with hb | ⟨err, rfl⟩
  · exact ⟨_, (((hended.quiet (.finish (.main rfl .finish) (hnow.symm ▸ hb)) rfl).quiet
      (.sched (.main rfl (.last rfl))) rfl).quiet (.sched (.main rfl .signal)) rfl).quiet
      (.sched (.wake rfl rfl rfl rfl)) rfl, rfl, rfl⟩
  · exact ⟨_, (((hended.quiet (.fail (.main rfl .fail) hnow) rfl).quiet
      (.sched (.main rfl (.last rfl))) rfl).quiet (.sched (.main rfl .signal)) rfl).quiet
      (.sched (.wake rfl rfl rfl rfl)) rfl, rfl, rfl⟩

end Cpp

/-- The Go engine on an operator without fields that always does the same. -/
def goEnvOf (att : GoAttempt) : GoEnv Unit Unit := { goEnv with exec := fun _ _ _ a => a = att }

/-- The goroutine has come to `b`, with these warnings taken. -/
def GoTellsAt (att : GoAttempt) (b : GoBody Unit) (ws : List (Nat × String)) : Prop :=
  ∃ s, GoTells (goEnvOf att) graph () s ws [] ∧ s.crashed = false ∧ s.flags.cancelled = false ∧ s.bodies 0 = b

section Go
variable {att : GoAttempt} {b b' : GoBody Unit} {ws : List (Nat × String)}

theorem GoTellsAt.move (h : GoTellsAt att b ws)
    (hstep : ∀ closed, GoBodyStep (goEnvOf att) ((goEnvOf att).node 0) false closed () b () b') (hb : b'.exit? = none)
    (hb' : ∀ out, b' ≠ .produced out) : GoTellsAt att b' ws := by
  obtain ⟨s, hs, hcrashed, hcancelled, rfl⟩ := h
  refine ⟨_, .quiet hs (.move (i := 0) (f := ()) (b := b') hcrashed Nat.zero_lt_one hb ?_) rfl fun j out hj => ?_,
    hcrashed, hcancelled, ?_⟩
  · rw [hcancelled]
    exact hstep _
  · have hbodies : Function.update s.bodies 0 b' j = .produced out := hj
    by_cases hj0 : j = 0
    · rw [hj0, Function.update_self] at hbodies
      exact absurd hbodies (hb' out)
    · rwa [Function.update_of_ne hj0] at hbodies
  · show Function.update s.bodies 0 b' 0 = b'
    exact Function.update_self ..

theorem executed (att : GoAttempt) : GoTellsAt att (.executed (att.recovered "a")) [] := by
  have hstart : GoTellsAt att (.waiting []) [] := ⟨_, .init, rfl, rfl, rfl⟩
  have hready : GoTellsAt att (.ready () ∅) [] := (((hstart.move (fun _ => .enter rfl) rfl nofun).move
    (fun _ => .goOn rfl) rfl nofun).move (fun _ => .build rfl) rfl nofun).move (fun _ => .resolve rfl) rfl nofun
  exact hready.move (fun _ => .serial (Or.inl Int.one_nonneg) (.intro rfl)) rfl nofun

theorem GoTellsAt.leave {x : GoExit} (h : GoTellsAt att b ws)
    (hstep : ∀ closed, GoBodyStep (goEnvOf att) ((goEnvOf att).node 0) false closed () b () (.leaving x)) :
    ∃ s, GoTells (goEnvOf att) graph () s ws ((b.endsAs x).toList.map (0, ·)) ∧ s.returned = true := by
  obtain ⟨s, hs, hcrashed, hcancelled, rfl⟩ := h
  have hleft := hs.leave (i := 0) (f := ()) (x := x) hcrashed Nat.zero_lt_one (by
    rw [hcancelled]
    exact hstep _)
  have hnow : Function.update s.bodies 0 (.leaving x) 0 = .leaving x := Function.update_self ..
  have hclosed := hleft.quiet (.close (i := 0) (x := x) hcrashed hnow) rfl fun j out hj => by
    have hbodies : Function.update (Function.update s.bodies 0 (.leaving x)) 0 (.closed x) j = .produced out := hj
    by_cases hj0 : j = 0
    · rw [hj0, Function.update_self] at hbodies
      exact absurd hbodies nofun
    · rwa [Function.update_of_ne hj0] at hbodies
  refine ⟨_, hclosed.quiet (.wait hcrashed fun i hi => ?_) rfl fun _ _ hx => hx, rfl⟩
  obtain rfl := Nat.lt_one_iff.mp hi
  show (Function.update (Function.update s.bodies 0 (.leaving x)) 0 (.closed x) 0).isClosed = true
  rw [Function.update_self]
  rfl

end Go

end Lone

end Pineapple
