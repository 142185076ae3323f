import Pineapple.DagBuild
import Pineapple.JavaRunInv

/-! # When `execute` of the Java engine returns

A task that is not inside `runOperator` touches nothing of the run. As long as the fatal path completes no future of
a task that is, whoever waits for the futures finds every operator's body and every shard over. -/

namespace Pineapple

variable {σ ι : Type} {env : JavaEnv σ ι} {g : Graph} {f₀ : σ}

/-! ## Idle tasks -/

theorem JavaShards.phase?_cancel (sh : JavaShards ι) (k : Nat) : sh.cancel.phase? k = sh.phase? k := rfl

namespace JavaBodyStep
variable {s : JavaRunState σ ι} {i : Nat} {b b' : JavaBody ι} {eff : JavaEffect σ ι}

theorem untouched (h : JavaBodyStep env g s i b eff b') (hb : b.active = false) (name : String) :
    (s.move name i eff b').frame = s.frame ∧ (s.move name i eff b').warnings = s.warnings ∧
      (s.move name i eff b').traces = s.traces ∧ (s.move name i eff b').shards = s.shards ∧
      (s.move name i eff b').begun = s.begun := by
  cases h with
  | start | join | joinStops | check | checkStops | pass | enter | raise | late | cancel | cancelThrows | force | forced
  | finish => exact ⟨rfl, rfl, rfl, rfl, rfl⟩
  | _ => cases hb

/-- Coming out of `runShards`, by its end or by an exception. -/
theorem leaves_sharding (h : JavaBodyStep env g s i b eff b') (hb : b.sharding = true) (hb' : b'.sharding = false) :
    eff.onShards (s.shards i) = s.shards i ∧ (eff = .abandon ∨ ∃ n merged, b = .merging n n merged) := by
  cases h with
  | getPanics => exact ⟨rfl, .inl rfl⟩
  | mergeFails | mergeSkipped | merge => exact ⟨rfl, .inr ⟨_, _, rfl⟩⟩
  | submit | submitted | get | getNull | interrupt => cases hb'
  | _ => cases hb

/-- Outside `runShards` a task does not change its shards, but for cancelling their context. -/
theorem shards_outside (h : JavaBodyStep env g s i b eff b') (hb : b.sharding = false) (hb' : b'.sharding = false) :
    eff.onShards (s.shards i) = s.shards i ∨ eff.onShards (s.shards i) = (s.shards i).map JavaShards.cancel := by
  cases h with
  | leaveShards => exact .inr rfl
  | fork => cases hb'
  | submit | submitted | get | getNull | getPanics | interrupt | mergeFails | mergeSkipped | merge => cases hb
  | _ => exact .inl rfl

end JavaBodyStep

/-- No operator's body and no shard is executing, and none will start. -/
structure JavaRunState.Quiet (s : JavaRunState σ ι) : Prop where
  idle : ∀ i, (s.bodies i).active = false
  ended : ∀ i sh, s.shards i = some sh → sh.Over

/-- Every future is complete and everything is quiet. -/
structure JavaRunState.Finished (g : Graph) (s : JavaRunState σ ι) : Prop where
  inv : JavaRunInv g s
  completed : ∀ i < g.nodes.length, s.completed i = true
  quiet : s.Quiet

/-- What the operators could have touched is as before. -/
structure JavaRunState.Untouched (s s' : JavaRunState σ ι) : Prop where
  frame : s'.frame = s.frame
  warnings : s'.warnings = s.warnings
  traces : s'.traces = s.traces
  begun : s'.begun = s.begun

theorem JavaRunState.Untouched.trans {s s' s'' : JavaRunState σ ι} (h : s.Untouched s') (h' : s'.Untouched s'') :
    s.Untouched s'' :=
  ⟨h'.frame.trans h.frame, h'.warnings.trans h.warnings, h'.traces.trans h.traces, h'.begun.trans h.begun⟩

/-- Once all futures are complete and no operator is at work, none begins. -/
theorem JavaRunInv.idle_step {s s' : JavaRunState σ ι} {l : JavaLabel σ ι} (h : JavaRunInv g s)
    (hall : ∀ i < g.nodes.length, s.completed i = true) (hidle : ∀ i, (s.bodies i).active = false)
    (hs : JavaStep env g l s s') (i : Nat) : (s'.bodies i).active = false := by
  refine Bool.eq_false_iff.mpr fun hact => ?_
  rcases hs.body i with ⟨hsame, -⟩ | ⟨eff, rfl, hb⟩ | ⟨-, -, hq⟩
  · rw [hsame, hidle i] at hact
    cases hact
  · rcases hb.active hact with hold | ⟨hold, hc⟩
    · rw [hidle i] at hold
      cases hold
    · -- whoever looks at the context only now finds it cancelled
      have hi : i < g.nodes.length := by
        by_contra hi
        have := (h.submitted i).mpr (h.bound.trans (Nat.le_of_not_lt hi))
        rw [hold] at this
        cases this
      rcases h.completed i (hall i hi) with ⟨x, hx⟩ | ⟨-, hcancelled⟩
      · rw [hold] at hx
        cases hx
      · rw [hc] at hcancelled
        cases hcancelled
  · rw [hq] at hact
    cases hact

namespace JavaRunState.Finished
variable {s s' : JavaRunState σ ι} {l : JavaLabel σ ι}

theorem untouched (h : s.Finished g) (hs : JavaStep env g l s s') : s.Untouched s' := by
  cases hs with
  | node hb hstep =>
    obtain ⟨hframe, hwarnings, htraces, -, hbegun⟩ := hstep.untouched (hb ▸ h.quiet.idle _) (env.node _).op.name
    exact ⟨hframe, hwarnings, htraces, hbegun⟩
  | shard hsh hstep => exact (hstep.not_over (h.quiet.ended _ _ hsh)).elim
  | main hm =>
    obtain ⟨-, -, -, hbegun, hframe, htraces, hwarnings⟩ := hm.frame
    exact ⟨hframe, hwarnings, htraces, hbegun⟩
  | _ => exact ⟨rfl, rfl, rfl, rfl⟩

theorem idle (h : s.Finished g) (hs : JavaStep env g l s s') (i : Nat) : (s'.bodies i).active = false :=
  h.inv.idle_step h.completed h.quiet.idle hs i

theorem sharding_of_active {b : JavaBody ι} (h : b.active = false) : b.sharding = false := by
  cases b <;> first | rfl | cases h

theorem ended (h : s.Finished g) (hs : JavaStep env g l s s') (i : Nat) (sh : JavaShards ι) (hsh : s'.shards i = some sh) :
    sh.Over := by
  have hcancel : s'.shards i = (s.shards i).map JavaShards.cancel → sh.Over := by
    intro heq
    rw [heq] at hsh
    obtain ⟨sh₀, hsh₀, rfl⟩ := Option.map_eq_some_iff.mp hsh
    exact h.quiet.ended i sh₀ hsh₀
  rcases hs.shards i with hsame | ⟨eff, rfl, hb, heq⟩ | ⟨k, act, sh₀, sh', rfl, hsh₀, -, hstep⟩ | ⟨-, heq⟩
  · exact h.quiet.ended i sh (hsame ▸ hsh)
  · rcases hb.shards_outside (sharding_of_active (h.quiet.idle i)) (sharding_of_active (h.idle hs i)) with hsame | hc
    · exact h.quiet.ended i sh (hsame ▸ heq ▸ hsh)
    · exact hcancel (heq.trans hc)
  · exact (hstep.not_over (h.quiet.ended i sh₀ hsh₀)).elim
  · exact hcancel heq

theorem step (h : s.Finished g) (hs : JavaStep env g l s s') : s'.Finished g :=
  ⟨h.inv.step hs, fun i hi => hs.completed_mono (h.completed i hi), ⟨h.idle hs, h.ended hs⟩⟩

theorem run (h : s.Finished g) (hr : Relation.ReflTransGen (JavaMove env g) s s') : s'.Quiet ∧ s.Untouched s' := by
  have hall : s'.Finished g ∧ s.Untouched s' := by
    induction hr with
    | refl => exact ⟨h, rfl, rfl, rfl, rfl⟩
    | tail _ hs ih =>
      obtain ⟨l, hs⟩ := hs
      exact ⟨ih.1.step hs, ih.2.trans (ih.1.untouched hs)⟩
  exact ⟨hall.1.quiet, hall.2⟩

end JavaRunState.Finished

/-! ## Orderly runs -/

/-- The fatal path completes no future of a task inside `runOperator`, an exception leaves the loop over the shards
only when they are over, no wait for a shard is interrupted, and a failed `applyOutput` leaves the frame alone. -/
def JavaRunState.Orderly (s : JavaRunState σ ι) : JavaLabel σ ι → Prop
  | .node _ (.force j) => (s.bodies j).active = false
  | .node i .abandon => ∀ sh, s.shards i = some sh → sh.Over
  | .node _ .interrupted => False
  | .node _ (.unapplied f) => f = s.frame
  | _ => True

def OrderlyMove (env : JavaEnv σ ι) (g : Graph) (s s' : JavaRunState σ ι) : Prop :=
  ∃ l, s.Orderly l ∧ JavaStep env g l s s'

def OrderlyReachable (env : JavaEnv σ ι) (g : Graph) (f₀ : σ) : JavaRunState σ ι → Prop :=
  Relation.ReflTransGen (OrderlyMove env g) { frame := f₀ }

section
variable {s s' : JavaRunState σ ι}

theorem JavaReachable.node (h : JavaReachable env g f₀ s) {i : Nat} {b b' : JavaBody ι} {eff : JavaEffect σ ι}
    (hb : s.bodies i = b) (hstep : JavaBodyStep env g s i b eff b') :
    JavaReachable env g f₀ (s.move (env.node i).op.name i eff b') := h.tail ⟨_, .node hb hstep⟩

theorem JavaReachable.main (h : JavaReachable env g f₀ s) (hm : JavaMainStep env g s s') : JavaReachable env g f₀ s' :=
  h.tail ⟨_, .main hm⟩

theorem OrderlyReachable.node (h : OrderlyReachable env g f₀ s) {i : Nat} {b b' : JavaBody ι} {eff : JavaEffect σ ι}
    (hb : s.bodies i = b) (hstep : JavaBodyStep env g s i b eff b') (ho : s.Orderly (.node i eff)) :
    OrderlyReachable env g f₀ (s.move (env.node i).op.name i eff b') := h.tail ⟨_, ho, .node hb hstep⟩

theorem OrderlyReachable.main (h : OrderlyReachable env g f₀ s) (hm : JavaMainStep env g s s') :
    OrderlyReachable env g f₀ s' := h.tail ⟨.main, trivial, .main hm⟩

theorem OrderlyReachable.reachable (h : OrderlyReachable env g f₀ s) : JavaReachable env g f₀ s := by
  induction h with
  | refl => exact .refl
  | tail _ hs ih =>
    obtain ⟨l, -, hs⟩ := hs
    exact ih.tail ⟨l, hs⟩

end

/-- What the caller of `execute` has read so far is what is there. -/
def JavaRunState.Projected (env : JavaEnv σ ι) (s : JavaRunState σ ι) : JavaMain → Prop
  | .collected _ traces => traces = s.traces
  | .projected _ traces common => traces = s.traces ∧ common = env.resultCommon s.frame
  | .closing res | .returned res | .released res =>
    res.traces = s.traces ∧ res.common = env.resultCommon s.frame ∧ res.items = env.resultItems s.frame
  | _ => True

structure OrderlyInv (env : JavaEnv σ ι) (g : Graph) (f₀ : σ) (s : JavaRunState σ ι) : Prop where
  fork : JavaForkInv g s
  idle : ∀ i, s.completed i = true → (s.bodies i).active = false
  merging : ∀ i n k merged, s.bodies i = .merging n k merged → ∀ sh, s.shards i = some sh →
    ∀ j < k, ∀ phase, sh.phase? j = some phase → phase.task = .ended
  ended : ∀ i sh, s.shards i = some sh → (s.bodies i).sharding = false → sh.Over
  whole : env.Whole f₀ s.frame
  projected : s.Projected env s.main

namespace OrderlyInv
variable {s s' : JavaRunState σ ι} {l : JavaLabel σ ι}

theorem init (env : JavaEnv σ ι) (g : Graph) (f₀ : σ) : OrderlyInv env g f₀ { frame := f₀ } where
  fork := .init g f₀
  idle _ := nofun
  merging _ _ _ _ := nofun
  ended _ _ := nofun
  whole := .refl
  projected := trivial

/-- Once the caller has joined the futures, nothing is at work any more. -/
theorem finished (h : OrderlyInv env g f₀ s) (hj : s.main.isJoined = true) : s.Finished g := by
  have hall := h.fork.inv.joined hj
  have hidle : ∀ i, (s.bodies i).active = false := by
    intro i
    by_cases hi : i < g.nodes.length
    · exact h.idle i (hall i hi)
    · have := (h.fork.inv.submitted i).mpr (h.fork.inv.bound.trans (Nat.le_of_not_lt hi))
      generalize s.bodies i = b at this ⊢
      cases b <;> first | rfl | cases this
  exact ⟨h.fork.inv, hall, hidle, fun i sh hsh =>
    h.ended i sh hsh (JavaRunState.Finished.sharding_of_active (hidle i))⟩

theorem idle_step (h : OrderlyInv env g f₀ s) (ho : s.Orderly l) (hs : JavaStep env g l s s') (i : Nat)
    (hi : s'.completed i = true) : (s'.bodies i).active = false := by
  refine Bool.eq_false_iff.mpr fun hact => ?_
  rcases hs.completed hi with hold | ⟨k, rfl⟩ | rfl
  · have hidle := h.idle i hold
    rcases hs.body i with ⟨hsame, -⟩ | ⟨eff, rfl, hb⟩ | ⟨-, -, hq⟩
    · rw [hsame, hidle] at hact
      cases hact
    · rcases hb.active hact with hb' | ⟨hb', hc⟩
      · rw [hidle] at hb'
        cases hb'
      · rcases h.fork.inv.completed i hold with ⟨x, hx⟩ | ⟨-, hcancelled⟩
        · rw [hb'] at hx
          cases hx
        · rw [hc] at hcancelled
          cases hcancelled
    · rw [hq] at hact
      cases hact
  · have hidle : (s.bodies i).active = false := ho
    rcases hs.body i with ⟨hsame, -⟩ | ⟨eff, heq, hb⟩ | ⟨heq, -⟩
    · rw [hsame, hidle] at hact
      cases hact
    · cases heq
      generalize s.bodies i = b at hb
      generalize s'.bodies i = b' at hb hact
      cases hb
      cases hact
    · cases heq
  · rcases hs.body i with ⟨hsame, -⟩ | ⟨eff, heq, hb⟩ | ⟨heq, -⟩
    · cases hs with
      | node hb hstep =>
        cases hstep with
        | finish =>
          rw [JavaRunState.bodies_move, Function.update_self] at hact
          cases hact
    · cases heq
      generalize s.bodies i = b at hb
      generalize s'.bodies i = b' at hb hact
      cases hb
      cases hact
    · cases heq

theorem merging_step (h : OrderlyInv env g f₀ s) (ho : s.Orderly l) (hs : JavaStep env g l s s') (i n k : Nat)
    (merged : OperatorOutput) (hi : s'.bodies i = .merging n k merged) (sh' : JavaShards ι)
    (hsh' : s'.shards i = some sh') : ∀ j < k, ∀ phase, sh'.phase? j = some phase → phase.task = .ended := by
  rcases hs.body i with ⟨hsame, hl⟩ | ⟨eff, rfl, hb⟩ | ⟨-, -, hq⟩
  · rw [hsame] at hi
    obtain ⟨-, sh, hsh, -⟩ := h.fork.loop i n k (by rw [hi]; rfl)
    obtain ⟨sh₁, hsh₁, -, hphases⟩ := hs.keeps hsh fun eff heq => (hl eff heq).elim
    rw [hsh'] at hsh₁
    cases hsh₁
    intro j hj phase hphase
    rcases hphases j with hsame | ⟨act, old, new, -, hold, -, hmove⟩
    · exact h.merging i n k merged hi sh hsh j hj phase (hsame ▸ hphase)
    · have := h.merging i n k merged hi sh hsh j hj old hold
      rw [hmove.before] at this
      cases act <;> cases this
  · rw [hi] at hb
    have hshards := hs.shards_node
    rw [hsh'] at hshards
    have hnext : ∀ {k : Nat} {merged : OperatorOutput} {sh : JavaShards ι} {phase : JavaShardPhase},
        s.bodies i = .merging n k merged → some sh' = s.shards i → s.shards i = some sh → sh.phase? k = some phase →
        phase.task = .ended → ∀ j < k + 1, ∀ phase, sh'.phase? j = some phase → phase.task = .ended := by
      intro k merged sh phase hold hkeep hsh hk htask j hj phase' hphase'
      rw [hsh] at hkeep
      cases hkeep
      rcases Nat.lt_succ_iff_lt_or_eq.mp hj with hlt | rfl
      · exact h.merging i n k merged hold sh' hsh j hlt phase' hphase'
      · rw [hk] at hphase'
        cases hphase'
        exact htask
    generalize hold : s.bodies i = b at hb
    cases hb with
    | submitted => exact fun j hj => absurd hj (Nat.not_lt_zero j)
    | get hsh hk _ _ => exact hnext hold hshards hsh (JavaShards.phase?_eq_of_get hk) rfl
    | @getNull _ _ _ phase _ hsh hk hout _ =>
      refine hnext hold hshards hsh hk ?_
      cases phase <;> first | rfl | cases hout
    | interrupt _ _ _ _ => exact ho.elim
  · rw [hq] at hi
    cases hi

theorem over_step (h : OrderlyInv env g f₀ s) (ho : s.Orderly l) (hs : JavaStep env g l s s') (i : Nat)
    (sh : JavaShards ι) (hsh : s'.shards i = some sh) (hi : (s'.bodies i).sharding = false) : sh.Over := by
  rcases hs.body i with ⟨hsame, hl⟩ | ⟨eff, rfl, hb⟩ | ⟨-, hmain, hq⟩
  · rw [hsame] at hi
    cases hold : s.shards i with
    | none =>
      rcases hs.shards i with heq | ⟨eff, heq, -⟩ | ⟨_, _, sh₀, _, -, hsh₀, -⟩ | ⟨-, heq⟩
      · rw [heq, hold] at hsh
        cases hsh
      · exact (hl eff heq).elim
      · rw [hold] at hsh₀
        cases hsh₀
      · rw [heq, hold] at hsh
        cases hsh
    | some sh₀ =>
      obtain ⟨sh', hsh', -, hphases⟩ := hs.keeps hold fun eff heq => (hl eff heq).elim
      rw [hsh] at hsh'
      cases hsh'
      intro k phase hphase
      rcases hphases k with hsame | ⟨act, old, new, -, hk, -, hmove⟩
      · exact h.ended i sh₀ hold hi k phase (hsame ▸ hphase)
      · have := h.ended i sh₀ hold hi k old hk
        rw [hmove.before] at this
        cases act <;> cases this
  · have hshards : s'.shards i = eff.onShards (s.shards i) := hs.shards_node
    rw [hsh] at hshards
    cases hsharding : (s.bodies i).sharding with
    | true =>
      obtain ⟨hkeep, habandon | ⟨n, merged, hmerging⟩⟩ := hb.leaves_sharding hsharding hi
      · subst habandon
        exact ho sh (hkeep.symm.trans hshards.symm)
      · obtain ⟨-, sh₀, hsh₀, hlen⟩ := h.fork.loop i n n (by rw [hmerging]; rfl)
        rw [hkeep, hsh₀] at hshards
        cases hshards
        intro k phase hk
        exact h.merging i n n merged hmerging sh hsh₀ k (by rw [← hlen, ← JavaShards.phase?_isSome, hk]; rfl) phase hk
    | false =>
      rcases hb.shards_outside hsharding hi with heq | heq
      · exact h.ended i sh (heq.symm.trans hshards.symm) hsharding
      · rw [heq] at hshards
        obtain ⟨sh₀, hsh₀, rfl⟩ := Option.map_eq_some_iff.mp hshards.symm
        exact h.ended i sh₀ hsh₀ hsharding
  · have habsent := (h.fork.inv.submitted i).mpr (by rw [hmain]; exact le_refl i)
    have hold : (s.bodies i).sharding = false := by
      generalize s.bodies i = b at habsent
      cases b <;> first | rfl | cases habsent
    rcases hs.shards i with heq | ⟨eff, heq, hb, -⟩ | ⟨_, _, sh₀, _, -, hsh₀, -, hstep⟩ | ⟨-, heq⟩
    · exact h.ended i sh (heq ▸ hsh) hold
    · exact (hb.task_ne_absent.1 habsent).elim
    · exact (hstep.not_over (h.ended i sh₀ hsh₀ hold)).elim
    · rw [heq] at hsh
      obtain ⟨sh₀, hsh₀, rfl⟩ := Option.map_eq_some_iff.mp hsh
      exact h.ended i sh₀ hsh₀ hold

theorem whole_step (h : OrderlyInv env g f₀ s) (ho : s.Orderly l) (hs : JavaStep env g l s s') :
    env.Whole f₀ s'.frame := by
  cases hs with
  | node hb hstep =>
    rcases JavaRunState.frame_move with hsame | heq | heq
    · rw [hsame]
      exact h.whole
    · rw [heq] at hstep
      cases hstep with
      | apply ha => exact h.whole.tail ⟨_, _, _, ha⟩
    · rw [heq] at ho
      rw [show _ = s.frame from ho]
      exact h.whole
  | main hm =>
    rw [hm.frame.2.2.2.2.1]
    exact h.whole
  | _ => exact h.whole

theorem projected_congr (hu : s.Untouched s') {m : JavaMain} (h : s.Projected env m) : s'.Projected env m := by
  cases m with
  | collected _ _ => exact h.trans hu.traces.symm
  | projected _ _ _ => exact ⟨h.1.trans hu.traces.symm, h.2.trans (congrArg env.resultCommon hu.frame.symm)⟩
  | closing res | returned res | released res =>
    exact ⟨h.1.trans hu.traces.symm, h.2.1.trans (congrArg env.resultCommon hu.frame.symm),
      h.2.2.trans (congrArg env.resultItems hu.frame.symm)⟩
  | _ => trivial

theorem projected_step (h : OrderlyInv env g f₀ s) (hs : JavaStep env g l s s') : s'.Projected env s'.main := by
  by_cases hj : s.main.isJoined = true
  · have hu := (h.finished hj).untouched hs
    cases hs with
    | main hm =>
      have hp := h.projected
      cases hm with
      | submitted _ | join _ _ => trivial
      | collectCancelled _ _ _ | collect _ _ => exact rfl
      | projectCommon heq =>
        rw [heq] at hp
        exact ⟨hp, rfl⟩
      | projectItems heq =>
        rw [heq] at hp
        exact ⟨hp.1, hp.2, rfl⟩
      | close heq | release heq =>
        rw [heq] at hp
        exact hp
    | node _ _ =>
      rw [JavaRunState.main_move]
      exact projected_congr hu h.projected
    | submit _ _ => trivial
    | _ => exact projected_congr hu h.projected
  · have htrivial : ∀ s : JavaRunState σ ι, s.main.isJoined ≠ true → s.Projected env s.main := by
      intro s hs
      generalize s.main = m at hs
      cases m <;> trivial
    cases hs with
    | node _ _ =>
      rw [JavaRunState.main_move]
      generalize s.main = m at hj
      cases m <;> trivial
    | submit _ _ => trivial
    | main hm =>
      cases hm with
      | submitted _ | join _ _ => trivial
      | collectCancelled heq _ _ | collect heq _ | projectCommon heq | projectItems heq | close heq | release heq =>
        rw [heq] at hj
        exact (hj rfl).elim
    | _ => exact htrivial _ hj

theorem step (h : OrderlyInv env g f₀ s) (ho : s.Orderly l) (hs : JavaStep env g l s s') : OrderlyInv env g f₀ s' where
  fork := h.fork.step hs
  idle := h.idle_step ho hs
  merging := h.merging_step ho hs
  ended := h.over_step ho hs
  whole := h.whole_step ho hs
  projected := h.projected_step hs

theorem reachable (hr : OrderlyReachable env g f₀ s) : OrderlyInv env g f₀ s := by
  induction hr with
  | refl => exact init env g f₀
  | tail _ hs ih =>
    obtain ⟨l, ho, hs⟩ := hs
    exact ih.step ho hs

end OrderlyInv

/-! ## What `execute` returns -/

/-- `execute` has returned `res` and its run is over: nothing is executing, nothing will be and nothing touches what
the run shared, whose frame is between two whole applies and is the one `res` shows. -/
structure JavaRunState.Settled (env : JavaEnv σ ι) (g : Graph) (f₀ : σ) (s : JavaRunState σ ι) (res : JavaResult) :
    Prop where
  quiet : s.Quiet
  lasting : ∀ s', Relation.ReflTransGen (JavaMove env g) s s' → s'.Quiet ∧ s.Untouched s'
  whole : env.Whole f₀ s.frame
  common : res.common = env.resultCommon s.frame
  items : res.items = env.resultItems s.frame
  traces : res.traces = s.traces

/-- In an orderly run this holds as soon as `execute` has returned, and when the snapshot is given back. -/
theorem execute_settled {s : JavaRunState σ ι} {res : JavaResult} (hr : OrderlyReachable env g f₀ s)
    (hres : s.main.result? = some res) : s.Settled env g f₀ res := by
  have h := OrderlyInv.reachable hr
  have hjoined : s.main.isJoined = true := by
    generalize s.main = m at hres
    cases m <;> first | rfl | cases hres
  have hprojected : s.Projected env (.returned res) := by
    have hp := h.projected
    generalize s.main = m at hp hres
    cases m with
    | returned _ | released _ =>
      cases hres
      exact hp
    | _ => cases hres
  have hfinished := h.finished hjoined
  exact ⟨hfinished.quiet, fun _ hrun => hfinished.run hrun, h.whole, hprojected.2.1, hprojected.2.2, hprojected.1⟩

/-! ### Two operators and no edge -/

namespace Pair

def opA : OperatorConfig := { name := "a", operatorType := "transform" }

def opB : OperatorConfig := { name := "b", operatorType := "transform" }

def config : Config := { operators := SortedMap.ofList [("a", opA), ("b", opB)] }

def graph : Graph where
  nodes := [{ name := "a", subflow := "", config := opA }, { name := "b", subflow := "", config := opB }]
  nameToIndex := SortedMap.ofList [("a", 0), ("b", 1)]

theorem buildDag_config : buildDag config { sequence := ["a", "b"] } = .ok graph := by decide +kernel

/-- `a` writes nothing and `b` throws. -/
def javaEnv : JavaEnv Unit Unit where
  common _ _ := none
  buildInput _ _ := .ok ()
  itemCount _ := 1
  shard _ _ := ()
  resolve _ _ := .ok ∅
  apply _ _ _ _ := .ok ()
  resultCommon _ := ∅
  resultItems _ := []
  node i := { op := if i = 0 then opA else opB }
  exec op _ _ res := res = if op.name = "a" then .ok {} else .error (.operator "no")

abbrev Run : JavaRunState Unit Unit → Prop := OrderlyReachable javaEnv graph ()

/-- The tasks have come to `b` in an orderly run, and nothing has failed. -/
structure At (b : Nat → JavaBody Unit) (s : JavaRunState Unit Unit) : Prop where
  run : OrderlyReachable javaEnv graph () s
  bodies : s.bodies = b
  fatal : s.fatal = none
  cancelled : s.cancelled = false
  main : s.main = .awaiting

variable {b : Nat → JavaBody Unit}

theorem started : ∃ s, At (Function.update (Function.update (fun _ => .unsubmitted) 0 .queued) 1 .queued) s :=
  ⟨_, OrderlyReachable.main ((Relation.ReflTransGen.refl.tail ⟨.submit 0, trivial, .submit rfl Nat.zero_lt_two⟩).tail
    ⟨.submit 1, trivial, .submit rfl Nat.one_lt_two⟩) (.submitted rfl), rfl, rfl, rfl, rfl⟩

/-- Neither failing nor cancelling. -/
def Mild : JavaEffect Unit Unit → Prop
  | .raise _ | .cancel | .force _ | .abandon | .interrupted | .unapplied _ => False
  | _ => True

/-- A step the task `i` can make as long as nothing has failed. -/
def Calm (i : Nat) (b b' : JavaBody Unit) : Prop := ∃ eff, (∀ s : JavaRunState Unit Unit,
  s.fatal = none → s.cancelled = false → JavaBodyStep javaEnv graph s i b eff b') ∧ Mild eff

theorem At.step (h : ∃ s, At b s) {i : Nat} {b' : JavaBody Unit} (hstep : Calm i (b i) b') :
    ∃ s, At (Function.update b i b') s := by
  obtain ⟨s, hs⟩ := h
  obtain ⟨eff, hstep, hm⟩ := hstep
  refine ⟨_, hs.run.node (congrFun hs.bodies i) (hstep s hs.fatal hs.cancelled) ?_, ?_, ?_, ?_, ?_⟩
  · cases eff <;> trivial
  · rw [JavaRunState.bodies_move, hs.bodies]
  · cases eff <;> first | exact hs.fatal | exact hm.elim
  · cases eff <;> first | exact hs.cancelled | exact hm.elim
  · rw [JavaRunState.main_move]
    exact hs.main

theorem At.steps (h : ∃ s, At b s) {i : Nat} {b' : JavaBody Unit} (hsteps : Relation.ReflTransGen (Calm i) (b i) b') :
    ∃ s, At (Function.update b i b') s := by
  induction hsteps with
  | refl =>
    rw [Function.update_eq_self]
    exact h
  | @tail b₁ b₂ _ hstep ih =>
    have hnext : Calm i (Function.update b i b₁ i) b₂ := by
      rw [Function.update_self]
      exact hstep
    have := At.step ih hnext
    rwa [Function.update_idem] at this

theorem skips_nothing (i : Nat) : javaEnv.shouldSkip (javaEnv.node i) () = false := by
  unfold JavaEnv.shouldSkip javaEnv
  dsimp only
  split <;> rfl

/-- The task `i`, which waits for nobody, comes to its operator. -/
theorem enters {i : Nat} (hp : graph.preds i = []) : Relation.ReflTransGen (Calm i) .queued (.running () ∅) := by
  have hwaiting : Relation.ReflTransGen (Calm i) .queued (.waiting []) :=
    .single ⟨.start, fun _ _ _ => hp ▸ .start, trivial⟩
  exact (((((hwaiting.tail ⟨_, fun _ hf _ => .check hf, trivial⟩).tail ⟨_, fun _ _ hc => .enter hc, trivial⟩).tail
    ⟨_, fun _ _ _ => .goOn (skips_nothing i), trivial⟩).tail ⟨_, fun _ _ _ => .build rfl, trivial⟩).tail
    ⟨_, fun _ _ _ => .resolve rfl, trivial⟩).tail ⟨_, fun _ _ _ => .serial (.inr le_rfl), trivial⟩

/-- Both operators are executing. -/
theorem running : ∃ s, At (Function.update (Function.update (Function.update (Function.update (fun _ => .unsubmitted)
    0 .queued) 1 .queued) 0 (.running () ∅)) 1 (.running () ∅)) s :=
  At.steps (At.steps started (i := 0) (enters rfl)) (i := 1) (enters rfl)

/-- The operator of `a` returns and its output is applied. -/
theorem a_applied : Relation.ReflTransGen (Calm 0) (.running () ∅) (.ended (.applied {})) := by
  have hexecuted : Relation.ReflTransGen (Calm 0) (.running () ∅) (.executed (.ok {})) :=
    .single ⟨_, fun _ _ _ => .executed rfl nofun, trivial⟩
  exact ((((hexecuted.tail ⟨_, fun _ _ _ => .gate rfl, trivial⟩).tail ⟨_, fun _ _ _ => .noWarning rfl, trivial⟩).tail
    ⟨_, fun _ _ _ => .apply rfl, trivial⟩).tail ⟨_, fun _ _ _ => .trace, trivial⟩).tail ⟨_, fun _ _ _ => .finish, trivial⟩

/-- The operator of `b` throws. -/
theorem b_failing : Relation.ReflTransGen (Calm 1) (.running () ∅) (.failing (.execution "b" "no")) := by
  have hexecuted : Relation.ReflTransGen (Calm 1) (.running () ∅) (.executed (.error (.operator "no"))) := by
    refine .single ⟨_, fun _ _ _ => .executed ?_ fun _ h => by cases h; rfl, trivial⟩
    simp [javaEnv, opB]
  exact hexecuted.tail ⟨_, fun _ _ _ => .executeFails, trivial⟩

/-- `b` fails while `a` is still executing, and `execute` returns. -/
theorem returns_early : ∃ s res, JavaReachable javaEnv graph () s ∧ s.main.result? = some res ∧
    s.bodies 0 = .running () ∅ := by
  obtain ⟨s, hs⟩ := At.steps running (i := 1) b_failing
  have hraised := hs.run.reachable.node (congrFun hs.bodies 1) (.raise hs.fatal)
  have hforced := (((hraised.node (i := 1) rfl .cancel).node (i := 1) rfl .force).node (i := 1) rfl .force).main
    (.join hs.main fun i hi => by
      rcases Nat.lt_succ_iff_lt_or_eq.mp hi with h | rfl
      · rw [Nat.lt_one_iff.mp h]
        rfl
      · rfl)
  have hreturned := (((hforced.main (.collect rfl (.inl ((Option.isSome_or ..).trans (Bool.or_true _))))).main
    (.projectCommon rfl)).main (.projectItems rfl)).main (.close rfl)
  exact ⟨_, _, hreturned, rfl, congrFun hs.bodies 0⟩

/-- `b` fails once `a` is over. -/
theorem returns : ∃ s res, OrderlyReachable javaEnv graph () s ∧ s.main.result? = some res ∧
    res.error = some (.execution "b" "no") := by
  obtain ⟨s, hs⟩ := At.steps (At.steps running (i := 0) a_applied) (i := 1) b_failing
  have hraised := hs.run.node (congrFun hs.bodies 1) (.raise hs.fatal) trivial
  have hforced := (((hraised.node (i := 1) rfl .cancel trivial).node (i := 1) rfl .force
    (congrArg JavaBody.active (congrFun hs.bodies 0))).node (i := 1) rfl .force rfl).main (.join hs.main fun i hi => by
      rcases Nat.lt_succ_iff_lt_or_eq.mp hi with h | rfl
      · rw [Nat.lt_one_iff.mp h]
        rfl
      · rfl)
  have hreturned := (((hforced.main (.collect rfl (.inl ((Option.isSome_or ..).trans (Bool.or_true _))))).main
    (.projectCommon rfl)).main (.projectItems rfl)).main (.close rfl)
  refine ⟨_, _, hreturned, rfl, ?_⟩
  show s.fatal.or _ = _
  rw [hs.fatal]
  rfl

end Pair

theorem execute_settled_pair : ∃ (s : JavaRunState Unit Unit) (res : JavaResult),
    res.error = some (.execution "b" "no") ∧ s.Settled Pair.javaEnv Pair.graph () res := by
  obtain ⟨s, res, hr, hres, herror⟩ := Pair.returns
  exact ⟨s, res, herror, execute_settled hr hres⟩

/-- A fatal error lets `execute` return while another operator is executing. -/
theorem not_execute_settled : ¬∀ (config : Config) (expanded : ExpandedSequence) (g : Graph),
    buildDag config expanded = .ok g → ∀ (env : JavaEnv Unit Unit) (s : JavaRunState Unit Unit) (res : JavaResult),
      JavaReachable env g () s → s.main.result? = some res → s.Settled env g () res := by
  intro hall
  obtain ⟨s, res, hr, hres, hbody⟩ := Pair.returns_early
  have := (hall _ _ _ Pair.buildDag_config _ s res hr hres).quiet.idle 0
  rw [hbody] at this
  cases this

end Pineapple
