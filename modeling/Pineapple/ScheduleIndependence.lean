import Pineapple.Lib.Independence
import Pineapple.NodeSight
import Pineapple.RunVerdict

/-! # The schedule does not show in the result

Nodes run at once and in many orders. What a node looks at is settled when it begins: whoever writes a place it reads, or
reads a place it writes, lies behind it or ahead of it in the DAG. So in every run without an error each operator produces
the same output, and the frame ends as if the operators had run one after the other. -/

namespace Pineapple
open Relation FanOut

variable {σ π : Type}

/-! ## What a node has seen -/

/-- The output of the node, all of whose steps look at the frame `F`. -/
inductive RunEnv.Makes (env : RunEnv σ) (p : NodePlan) (F : FrameState σ) : OperatorOutput → Prop
  | serial {resolved out} : (shouldSkip p.op.skip).run F.common.find? = false →
      (env.text.resolveTemplatedParams p.template ∅).run F.common.find? = .ok resolved →
      p.op.dataParallel ≤ 1 ∨ (env.storage.view F none).itemCount = 0 →
      env.Dispatches p resolved F none (.ok out) → Makes env p F out
  | parallel {resolved outs out} : (shouldSkip p.op.skip).run F.common.find? = false →
      (env.text.resolveTemplatedParams p.template ∅).run F.common.find? = .ok resolved →
      1 < p.op.dataParallel → (env.storage.view F none).itemCount ≠ 0 →
      outs.map Prod.fst = shardWindows p.op.dataParallel.toNat (env.storage.view F none).itemCount →
      (∀ e ∈ outs, env.Dispatches p resolved F (some e.1) (.ok e.2)) → mergeShards p.op.name outs = .ok out →
      Makes env p F out

/-- The shards are those of the frame `F`, and each output is one of an execution on it. -/
structure RunEnv.ShardsOf (env : RunEnv σ) (p : NodePlan) (resolved : Row) (F : FrameState σ) (sh : Shards PineError) :
    Prop where
  known : ShardsInv (shardWindows p.op.dataParallel.toNat (env.storage.view F none).itemCount) (fun _ => True)
    (fun _ => True) sh
  done : ∀ w out, (w, ShardPhase.done out) ∈ sh.shards → env.Dispatches p resolved F (some w) (.ok out)

/-- The node stands where it would stand had it looked at `F` all the time. -/
def RunEnv.Sees (env : RunEnv σ) (p : NodePlan) (F : FrameState σ) : Body → Prop
  | .idle | .entered | .failed _ => True
  | .resolving => (shouldSkip p.op.skip).run F.common.find? = false
  | .ready resolved => (shouldSkip p.op.skip).run F.common.find? = false ∧
      (env.text.resolveTemplatedParams p.template ∅).run F.common.find? = .ok resolved
  | .sharding resolved sh => (shouldSkip p.op.skip).run F.common.find? = false ∧
      (env.text.resolveTemplatedParams p.template ∅).run F.common.find? = .ok resolved ∧
      1 < p.op.dataParallel ∧ (env.storage.view F none).itemCount ≠ 0 ∧ env.ShardsOf p resolved F sh
  | .skipped => (shouldSkip p.op.skip).run F.common.find? = true
  | .produced out | .applied out => env.Makes p F out

section Sees
variable {env : RunEnv σ} {c : OperatorConfig} {p : NodePlan} {F f f' : FrameState σ} {b b' : Body}

/-- A shard's step over a frame that looks like `F`. -/
theorem RunEnv.ShardsOf.step {resolved : Row} {sh sh' : Shards PineError} {cancelled : Bool}
    (h : env.ShardsOf p resolved F sh) (halike : env.Alike p f F)
    (hs : ShardStep (fun w => env.Dispatches p resolved f (some w)) cancelled sh sh') : env.ShardsOf p resolved F sh' := by
  refine ⟨h.known.step (fun _ _ _ => trivial) (fun _ _ _ _ => trivial) hs, fun w out hmem => ?_⟩
  -- an output that is not there yet is the one of this step
  have hset : ∀ {k : Nat} {phase : ShardPhase} {w' : Window}, sh.shards[k]?.map Prod.fst = some w' →
      (w, ShardPhase.done out) ∈ (sh.set k phase).shards →
      (w, ShardPhase.done out) ∈ sh.shards ∨ (w = w' ∧ phase = .done out) := by
    intro k phase w' hk hmem
    obtain ⟨j, hj⟩ := List.getElem?_of_mem hmem
    unfold Shards.set at hj
    rw [List.getElem?_modify] at hj
    obtain ⟨e, he, heq⟩ := Option.map_eq_some_iff.mp hj
    by_cases hkj : k = j
    · rw [if_pos hkj] at heq
      obtain ⟨hw, hphase⟩ := Prod.mk.inj heq
      rw [hkj, he] at hk
      exact Or.inr ⟨hw.symm.trans (Option.some.inj hk), hphase⟩
    · rw [if_neg hkj] at heq
      exact Or.inl (heq ▸ List.mem_of_getElem? he)
  cases hs with
  | pass hk _ =>
    rcases hset (by rw [hk]; rfl) hmem with hold | ⟨-, hnew⟩
    · exact h.done w out hold
    · cases hnew
  | start hk _ =>
    rcases hset (by rw [hk]; rfl) hmem with hold | ⟨-, hnew⟩
    · exact h.done w out hold
    · cases hnew
  | done hk hd =>
    rcases hset (by rw [hk]; rfl) hmem with hold | ⟨rfl, hnew⟩
    · exact h.done w out hold
    · cases hnew
      exact halike.dispatches _ _ _ hd
  | @fail k _ e _ hk _ =>
    have hmem : (w, ShardPhase.done out) ∈ (sh.set k .failed).shards := by
      unfold Shards.fail at hmem
      split at hmem <;> exact hmem
    rcases hset (by rw [hk]; rfl) hmem with hold | ⟨-, hnew⟩
    · exact h.done w out hold
    · cases hnew

/-- A node's step over a frame that looks like `F`. -/
theorem RunEnv.Sees.step {cancelled : Bool} (hs : env.Sees p F b) (halike : env.Alike p f F)
    (hstep : BodyStep env p cancelled f b f' b') : env.Sees p F b' := by
  have hcount : 1 < p.op.dataParallel → (env.storage.view f none).itemCount = (env.storage.view F none).itemCount :=
    halike.itemCount
  cases hstep with
  | skip h => exact halike.skip.symm.trans h
  | goOn h => exact halike.skip.symm.trans h
  | resolve h => exact ⟨hs, halike.resolve.symm.trans h⟩
  | resolveFails _ => exact trivial
  | serial hser hd =>
    refine .serial hs.1 hs.2 ?_ (halike.dispatches _ _ _ hd)
    by_cases hdp : 1 < p.op.dataParallel
    · rw [← hcount hdp]
      exact hser
    · exact Or.inl (Int.not_lt.mp hdp)
  | serialFails _ _ => exact trivial
  | fork hdp hne =>
    rw [hcount hdp] at hne ⊢
    refine ⟨hs.1, hs.2, hdp, hne, .start _, fun w out hmem => ?_⟩
    obtain ⟨_, -, heq⟩ := List.mem_map.mp hmem
    exact absurd (congrArg Prod.snd heq) nofun
  | shard hsh => exact ⟨hs.1, hs.2.1, hs.2.2.1, hs.2.2.2.1, hs.2.2.2.2.step halike hsh⟩
  | join hover hj =>
    obtain ⟨hskip, hresolve, hdp, hne, hsh⟩ := hs
    unfold joinShards at hj
    split at hj
    · cases hj
    · next herr =>
      split at hj
      · cases hj
      · next hskipped =>
        obtain ⟨hfst, -⟩ := hsh.known.complete hover herr (Bool.eq_false_of_not_eq_true hskipped)
        exact .parallel hskip hresolve hdp hne hfst (fun e he => hsh.done e.1 e.2 (ShardsInv.mem_outputs he)) hj
  | joinFails _ _ => exact trivial
  | apply _ => exact hs
  | applyFails _ => exact trivial

/-- Outputs for the same windows, each determined by its window. -/
theorem eq_of_map_fst {α β : Type} {D : α → β → Prop} (hD : ∀ a b b', D a b → D a b' → b = b') {l l' : List (α × β)}
    (hfst : l.map Prod.fst = l'.map Prod.fst) (h : ∀ e ∈ l, D e.1 e.2) (h' : ∀ e ∈ l', D e.1 e.2) : l = l' := by
  induction l generalizing l' with
  | nil => exact (List.map_eq_nil_iff.mp hfst.symm).symm
  | cons e l ih =>
    rcases l' with _ | ⟨e', l'⟩
    · cases hfst
    · obtain ⟨he, hrest⟩ := List.cons.inj hfst
      have hsnd : e.2 = e'.2 := by
        refine hD e.1 e.2 e'.2 (h e List.mem_cons_self) ?_
        rw [he]
        exact h' e' List.mem_cons_self
      rw [Prod.ext he hsnd, ih hrest (fun x hx => h x (List.mem_cons_of_mem _ hx))
        fun x hx => h' x (List.mem_cons_of_mem _ hx)]

/-- Frames that look alike give one output. -/
theorem RunEnv.Makes.unique (hdecl : env.Declared c p) {out out' : OperatorOutput} (h : env.Makes p f out)
    (halike : env.Alike p f F) (h' : env.Makes p F out') : out = out' := by
  have hresolve : ∀ {r r'}, (env.text.resolveTemplatedParams p.template ∅).run f.common.find? = .ok r →
      (env.text.resolveTemplatedParams p.template ∅).run F.common.find? = .ok r' → r = r' := by
    intro r r' hr hr'
    rw [halike.resolve, hr'] at hr
    exact (Except.ok.inj hr).symm
  cases h with
  | serial _ hr hser hd =>
    cases h' with
    | serial _ hr' _ hd' =>
      obtain rfl := hresolve hr hr'
      exact hdecl.dispatches_once (halike.dispatches _ _ _ hd) hd'
    | parallel _ _ hdp hne _ _ _ =>
      rw [← halike.itemCount hdp] at hne
      exact absurd hser (not_or.mpr ⟨Int.not_le.mpr hdp, hne⟩)
  | @parallel r outs _ _ hr hdp hne hfst hds hm =>
    cases h' with
    | serial _ _ hser _ =>
      rw [halike.itemCount hdp] at hne
      exact absurd hser (not_or.mpr ⟨Int.not_le.mpr hdp, hne⟩)
    | @parallel _ outs' _ _ hr' _ _ hfst' hds' hm' =>
      obtain rfl := hresolve hr hr'
      rw [halike.itemCount hdp] at hfst
      have houts : outs = outs' := eq_of_map_fst (D := fun w out => env.Dispatches p r F (some w) (.ok out))
        (fun _ _ _ hd hd' => hdecl.dispatches_once hd hd') (hfst.trans hfst'.symm)
        (fun e he => halike.dispatches _ _ _ (hds e he)) hds'
      rw [houts, hm'] at hm
      exact (Outcome.ok.inj hm).symm

/-- A node that made an output is not skipped. -/
theorem RunEnv.Makes.not_skipped {out : OperatorOutput} (h : env.Makes p F out) :
    (shouldSkip p.op.skip).run F.common.find? = false := by
  cases h with
  | serial h => exact h
  | parallel h => exact h

end Sees

/-! ## Logs without a failure -/

/-- What an entry of one of `n` nodes does to the frame, a failure excluded. -/
def RunEnv.CleanStep (env : RunEnv σ) (n : Nat) : Entry → FrameState σ → FrameState σ → Prop
  | .failed _ _, _, _ => False
  | .skipped v, f, f' => v < n ∧ env.EntryStep (.skipped v) f f'
  | .applied v out, f, f' => v < n ∧ env.EntryStep (.applied v out) f f'

/-- The entries work place by place, each on the places its operator writes. -/
theorem RunEnv.placeWise {env : RunEnv σ} {part : String → σ → π} {c : Nat → OperatorConfig} {n : Nat}
    (hdecl : ∀ v < n, env.Declared (c v) (env.node v)) (hS : env.storage.Fieldwise part) :
    PlaceWise (env.CleanStep n) (fun e x => (c e.node).WritesPlace x) (FrameState.SameAt part) where
  refl x s := by cases x <;> exact rfl
  symm x s t h := by
    cases x with
    | common f => exact Eq.symm h
    | item f => exact Eq.symm h
  trans x s t u h h' := by
    cases x with
    | common f => exact Eq.trans h h'
    | item f => exact Eq.trans h h'
  keeps x e s s' hnot h := by
    cases e with
    | skipped v =>
      rw [h.2.1]
      cases x <;> exact rfl
    | applied v out =>
      obtain ⟨htype, hdeclared, happly⟩ := RunEnv.deliver_ok h.2
      exact hS.apply_keeps (fun hreach => hnot (((hdecl v h.1).covers out htype hdeclared).writes hreach)) happly
    | failed v e => exact absurd h id
  agrees x e s s' t t' h h' hsame := by
    cases e with
    | skipped v =>
      rw [h.2.1, h'.2.1]
      exact hsame
    | applied v out => exact hS.apply_agrees (RunEnv.deliver_ok h.2).2.2 (RunEnv.deliver_ok h'.2).2.2 hsame
    | failed v e => exact absurd h id

/-- The body an entry of the log speaks of. -/
def Entry.body : Entry → Body
  | .skipped _ => .skipped
  | .applied _ out => .applied out
  | .failed _ e => .failed e

theorem Body.body_of_entryAt {b : Body} {v : Nat} {e : Entry} (h : b.entryAt v = some e) : e.body = b := by
  cases b with
  | skipped => exact Option.some.inj h ▸ rfl
  | applied _ => exact Option.some.inj h ▸ rfl
  | failed _ => exact Option.some.inj h ▸ rfl
  | _ => exact absurd h nofun

/-- What is known of the node `v`: the frame `F` it began on, made by the entries `pre`. Who meets it and stands before it
in the sequence is among them, and nobody who stands behind it. -/
structure RunEnv.BeganOn (env : RunEnv σ) (c : Nat → OperatorConfig) (n : Nat) (f₀ : FrameState σ) (v : Nat) (b : Body)
    (pre : List Entry) (F : FrameState σ) : Prop where
  replays : Replay (env.CleanStep n) f₀ pre F
  behind : ∀ w < v, (c w).Meets (c v) → ∃ e ∈ pre, e.node = w
  clear : ∀ e ∈ pre, (c e.node).Meets (c v) → e.node < v
  sees : env.Sees (env.node v) F b

/-- The log of nodes that have met in the order of the sequence, each settled by the frame it began on. -/
structure RunEnv.Record (env : RunEnv σ) (c : Nat → OperatorConfig) (n : Nat) (f₀ : FrameState σ) (log : List Entry)
    (frame : FrameState σ) : Prop where
  replays : Replay (env.CleanStep n) f₀ log frame
  ordered : log.Pairwise fun a b => (c a.node).Meets (c b.node) → a.node < b.node
  total : ∀ v < n, ∃ e ∈ log, e.node = v
  unique : ∀ a ∈ log, ∀ b ∈ log, a.node = b.node → a = b
  began : ∀ e ∈ log, ∃ pre F, pre.Sublist log ∧ env.BeganOn c n f₀ e.node e.body pre F

section Record
variable {env : RunEnv σ} {part : String → σ → π} {c : Nat → OperatorConfig} {n : Nat} {f₀ g₀ f g : FrameState σ}
  {log log' : List Entry}

theorem RunEnv.Record.clean (h : env.Record c n f₀ log f) {e : Entry} (he : e ∈ log) : ∀ v err, e ≠ .failed v err := by
  rintro v err rfl
  obtain ⟨-, s, s', -, -, hstep⟩ := h.replays.at_mem he
  exact hstep

theorem RunEnv.Record.bound (h : env.Record c n f₀ log f) {e : Entry} (he : e ∈ log) : e.node < n := by
  obtain ⟨-, s, s', -, -, hstep⟩ := h.replays.at_mem he
  cases e with
  | skipped v => exact hstep.1
  | applied v out => exact hstep.1
  | failed v err => exact absurd hstep id

/-- The writers of a place that a node reads stand alike in the beginnings of two logs. -/
theorem RunEnv.Record.same_at_begin (hp : PlaceWise (env.CleanStep n) (fun e x => (c e.node).WritesPlace x)
      (FrameState.SameAt part)) (h : env.Record c n f₀ log f) (h' : env.Record c n g₀ log' g)
    (h₀ : ∀ x, FrameState.SameAt part x f₀ g₀) {v : Nat} (ih : ∀ e : Entry, e.node < v → (e ∈ log ↔ e ∈ log'))
    {b b' : Body} {pre pre' : List Entry} {F G : FrameState σ} (hsub : pre.Sublist log) (hsub' : pre'.Sublist log')
    (hF : env.BeganOn c n f₀ v b pre F) (hG : env.BeganOn c n g₀ v b' pre' G) {x : Place} (hx : (c v).ReadsPlace x) :
    FrameState.SameAt part x F G := by
  have hmeets : ∀ e : Entry, (c e.node).WritesPlace x → (c e.node).Meets (c v) :=
    fun e he => OperatorConfig.meets_of_place he (Or.inl hx)
  have hordered : ∀ {l : List Entry}, (l.Pairwise fun a b => (c a.node).Meets (c b.node) → a.node < b.node) →
      l.Pairwise fun a b => (c a.node).WritesPlace x → (c b.node).WritesPlace x → a.node < b.node := by
    intro l hl
    exact hl.imp fun hab ha hb => hab (OperatorConfig.meets_of_place ha (Or.inr hb))
  classical
  refine hp.same_of_ordered (h₀ x) hF.replays hG.replays (hordered (h.ordered.sublist hsub))
    (hordered (h'.ordered.sublist hsub')) fun e he => ⟨fun hmem => ?_, fun hmem => ?_⟩
  · have hlt := hF.clear e hmem (hmeets e he)
    obtain ⟨e', he', hnode⟩ := hG.behind e.node hlt (hmeets e he)
    have hlog := (ih e hlt).mp (hsub.subset hmem)
    rwa [h'.unique e hlog e' (hsub'.subset he') hnode.symm]
  · have hlt := hG.clear e hmem (hmeets e he)
    obtain ⟨e', he', hnode⟩ := hF.behind e.node hlt (hmeets e he)
    have hlog := (ih e hlt).mpr (hsub'.subset hmem)
    rwa [h.unique e hlog e' (hsub.subset he') hnode.symm]

/-- Two logs of all nodes have the same entries. -/
theorem RunEnv.Record.mem_iff (hdecl : ∀ v < n, env.Declared (c v) (env.node v)) (hS : env.storage.Fieldwise part)
    (h : env.Record c n f₀ log f) (h' : env.Record c n g₀ log' g) (h₀ : ∀ x, FrameState.SameAt part x f₀ g₀)
    (e : Entry) : e ∈ log ↔ e ∈ log' := by
  have hp := RunEnv.placeWise hdecl hS
  obtain ⟨v, hv⟩ : ∃ v, v = e.node := ⟨_, rfl⟩
  induction v using Nat.strong_induction_on generalizing e with
  | _ v ih =>
    by_cases hlt : v < n
    · obtain ⟨a, ha, hna⟩ := h.total v hlt
      obtain ⟨b, hb, hnb⟩ := h'.total v hlt
      obtain ⟨pre, F, hsub, hF⟩ := h.began a ha
      obtain ⟨pre', G, hsub', hG⟩ := h'.began b hb
      rw [hna] at hF
      rw [hnb] at hG
      have hsame : ∀ x, (c v).ReadsPlace x → FrameState.SameAt part x F G := fun x hx =>
        h.same_at_begin hp h' h₀ (fun e he => ih e.node he e rfl) hsub hsub' hF hG hx
      have halike := (hdecl v hlt).alike hS hsame
      have hab : a = b := by
        have hsees := hF.sees
        have hsees' := hG.sees
        cases a with
        | failed w err => exact absurd rfl (h.clean ha w err)
        | skipped w =>
          obtain rfl : w = v := hna
          cases b with
          | failed w' err => exact absurd rfl (h'.clean hb w' err)
          | skipped w' => exact congrArg Entry.skipped hnb.symm
          | applied w' out =>
            have hnot := RunEnv.Makes.not_skipped hsees'
            rw [← halike.skip] at hnot
            exact absurd (hnot.symm.trans hsees) Bool.false_ne_true
        | applied w out =>
          obtain rfl : w = v := hna
          cases b with
          | failed w' err => exact absurd rfl (h'.clean hb w' err)
          | skipped w' =>
            have hnot := RunEnv.Makes.not_skipped hsees
            rw [halike.skip] at hnot
            exact absurd (hnot.symm.trans hsees') Bool.false_ne_true
          | applied w' out' =>
            obtain rfl : w' = w := hnb
            rw [RunEnv.Makes.unique (hdecl w' hlt) hsees halike hsees']
      constructor
      · intro he
        rw [h.unique e he a ha (hv.symm.trans hna.symm), hab]
        exact hb
      · intro he
        rw [h'.unique e he b hb (hv.symm.trans hnb.symm), ← hab]
        exact ha
    · constructor
      · exact fun he => absurd (hv ▸ h.bound he) hlt
      · exact fun he => absurd (hv ▸ h'.bound he) hlt

/-- And they leave the same frame. -/
theorem RunEnv.Record.same (hdecl : ∀ v < n, env.Declared (c v) (env.node v)) (hS : env.storage.Fieldwise part)
    (h : env.Record c n f₀ log f) (h' : env.Record c n g₀ log' g) (h₀ : ∀ x, FrameState.SameAt part x f₀ g₀) (x : Place) :
    FrameState.SameAt part x f g := by
  have hp := RunEnv.placeWise hdecl hS
  have hordered : ∀ {l : List Entry}, (l.Pairwise fun a b => (c a.node).Meets (c b.node) → a.node < b.node) →
      l.Pairwise fun a b => (c a.node).WritesPlace x → (c b.node).WritesPlace x → a.node < b.node := by
    intro l hl
    exact hl.imp fun hab ha hb => hab (OperatorConfig.meets_of_place ha (Or.inr hb))
  classical
  exact hp.same_of_ordered (h₀ x) h.replays h'.replays (hordered h.ordered) (hordered h'.ordered)
    fun e _ => h.mem_iff hdecl hS h' h₀ e

end Record

/-! ## The runs -/

/-- A node that is entered is entered while nothing is cancelled. -/
theorem Activation.Step.enter_live {g : Graph} {pool : Bool} {sh sh' : Shared} {a : Activation} {i : Nat}
    {new : List Activation} (h : a.Step g pool sh (some (.enter i)) sh' new) : sh.cancelled = false := by
  cases h with
  | enter hc => exact hc

theorem SchedStep.enter_live {g : Graph} {pool : Bool} {s s' : SchedState} {i : Nat}
    (h : SchedStep g pool s (some (.enter i)) s') : s.shared.cancelled = false := by
  cases h with
  | main _ ha => exact ha.enter_live
  | worker _ ha => exact ha.enter_live

/-- A body's step without a failure: it leaves the frame alone, or it ends with an entry. -/
theorem BodyStep.clean {env : RunEnv σ} {cancelled : Bool} {i n : Nat} {f f' : FrameState σ} {b b' : Body} (hi : i < n)
    (h : BodyStep env (env.node i) cancelled f b f' b') : (∃ e, b' = .failed e) ∨
      ((∀ v, b'.entryAt v = none) ∧ f' = f) ∨ ∃ e, b'.entryAt i = some e ∧ e.body = b' ∧ env.CleanStep n e f f' := by
  cases h with
  | skip hs => exact Or.inr (Or.inr ⟨.skipped i, rfl, rfl, hi, rfl, hs⟩)
  | goOn _ | resolve _ | serial _ _ | fork _ _ | shard _ | join _ _ => exact Or.inr (Or.inl ⟨fun _ => rfl, rfl⟩)
  | resolveFails _ | serialFails _ _ | joinFails _ _ | applyFails _ => exact Or.inl ⟨_, rfl⟩
  | apply hd => exact Or.inr (Or.inr ⟨.applied i _, rfl, rfl, hi, hd⟩)

/-- What holds in a run in which nothing has failed. -/
structure CleanInv (env : RunEnv σ) (c : Nat → OperatorConfig) (n : Nat) (f₀ : FrameState σ) (s : RunState σ) : Prop where
  replays : Replay (env.CleanStep n) f₀ s.log s.frame
  ordered : s.log.Pairwise fun a b => (c a.node).Meets (c b.node) → a.node < b.node
  began : ∀ v, s.bodies v ≠ .idle → ∃ pre post F, s.log = pre ++ post ∧ Replay (env.CleanStep n) F post s.frame ∧
    env.BeganOn c n f₀ v (s.bodies v) pre F ∧
    ((∀ i, (s.bodies v).entryAt i = none) → ∀ e ∈ post, ¬ (c e.node).Meets (c v))

section Runs
variable {env : RunEnv σ} {part : String → σ → π} {c : Nat → OperatorConfig} {g : Graph} {pool : Bool}
  {f₀ : FrameState σ} {s s' : RunState σ}

theorem RunInv.entry_of_mem (h : RunInv env g f₀ s) {e : Entry} (he : e ∈ s.log) :
    (s.bodies e.node).entryAt e.node = some e := by
  have hmem : e ∈ s.log.filter (fun e' => e'.node = e.node) := List.mem_filter.mpr ⟨he, decide_eq_true rfl⟩
  rw [h.logged] at hmem
  exact Option.mem_toList.mp hmem

/-- Whom the DAG puts behind a node that is entered has an entry, unless something failed. -/
theorem RunInv.logged_of_reach (h : RunInv env g f₀ s) (hg : GraphInv g) {i w : Nat} {t : SchedState}
    (hs : SchedStep g pool s.sched (some (.enter i)) t) (hreach : TransGen g.Edge w i)
    (hclean : ∀ v e, s.bodies v ≠ .failed e) : ∃ e ∈ s.log, e.node = w := by
  obtain ⟨hstart, -, -⟩ := hs.observed.event
  have hfin := (h.finished w).mp (h.sched.finished_of_reach hg hreach (h.sched.mem_dispatched hstart))
  obtain ⟨x, hx⟩ := Option.isSome_iff_exists.mp hfin
  have hend := h.ended w
  rw [hx] at hend
  cases x with
  | passed =>
    have hc := h.fits.passed w hx
    exact absurd (hc.symm.trans hs.enter_live) nofun
  | failed =>
    obtain ⟨e, he⟩ := hend
    exact absurd he (hclean w e)
  | completed =>
    cases hb : s.bodies w with
    | skipped => exact ⟨_, h.mem_log (v := w) (by rw [hb]; rfl), rfl⟩
    | applied out => exact ⟨_, h.mem_log (v := w) (by rw [hb]; rfl), rfl⟩
    | _ =>
      rw [hb] at hend
      exact absurd hend id

theorem CleanInv.init (poolSize : Nat) : CleanInv env c g.nodes.length f₀ (.init g poolSize f₀) :=
  ⟨.nil, List.Pairwise.nil, fun _ hne => absurd rfl hne⟩

/-- The step that enters a node. -/
theorem CleanInv.enter (h : CleanInv env c g.nodes.length f₀ s) (hinv : RunInv env g f₀ s) (hg : GraphInv g)
    (hahead : ∀ i j, i < j → j < g.nodes.length → (c i).Meets (c j) → TransGen g.Edge i j)
    (hclean : ∀ v e, s.bodies v ≠ .failed e) {i : Nat} {t : SchedState}
    (hs : SchedStep g pool s.sched (some (.enter i)) t) :
    CleanInv env c g.nodes.length f₀ { s with sched := t, bodies := Function.update s.bodies i .entered } := by
  obtain ⟨hstart, -, -⟩ := hs.observed.event
  have hidle := hinv.starts i hstart
  have hlt : i < g.nodes.length := by
    refine hinv.sched.place_lt i ?_
    exact List.mem_append_left _ (List.mem_append_right _ (List.mem_map_of_mem hstart))
  refine ⟨h.replays, h.ordered, fun v hv => ?_⟩
  by_cases hvi : v = i
  · subst hvi
    refine ⟨s.log, [], s.frame, (List.append_nil _).symm, .nil, ⟨h.replays, fun w hw hmeets => ?_, fun e he hmeets => ?_, ?_⟩,
      fun _ e he => absurd he List.not_mem_nil⟩
    · exact hinv.logged_of_reach hg hs (hahead w v hw hlt hmeets) hclean
    · have hentry := hinv.entry_of_mem he
      rcases Nat.lt_trichotomy e.node v with hw | hw | hw
      · exact hw
      · rw [hw, hidle] at hentry
        cases hentry
      · -- who stands ahead of `v` would not have begun without it
        have hbegun : s.bodies e.node ≠ .idle := by
          intro hno
          rw [hno] at hentry
          cases hentry
        obtain ⟨pre, post, F, hlog, -, hF, -⟩ := h.began e.node hbegun
        obtain ⟨e', he', hnode⟩ := hF.behind v hw hmeets.symm
        have hentry' := hinv.entry_of_mem (e := e') (by rw [hlog]; exact List.mem_append_left _ he')
        rw [hnode, hidle] at hentry'
        cases hentry'
    · show env.Sees _ _ (Function.update s.bodies v .entered v)
      rw [Function.update_self]
      exact trivial
  · have hbody : Function.update s.bodies i Body.entered v = s.bodies v := Function.update_of_ne hvi _ _
    dsimp only at hv ⊢
    rw [hbody] at hv ⊢
    exact h.began v hv

/-- Nodes that meet are not under way at once. -/
theorem CleanInv.apart (h : CleanInv env c g.nodes.length f₀ s) (hinv : RunInv env g f₀ s) {i v : Nat} (hne : v ≠ i)
    (hi : s.bodies i ≠ .idle) (hiu : ∀ w, (s.bodies i).entryAt w = none) (hv : s.bodies v ≠ .idle)
    (hvu : ∀ w, (s.bodies v).entryAt w = none) : ¬ (c i).Meets (c v) := by
  have hnone : ∀ {a b : Nat}, a < b → s.bodies b ≠ .idle → (∀ w, (s.bodies a).entryAt w = none) →
      ¬ (c a).Meets (c b) := by
    intro a b hab hb hau hmeets
    obtain ⟨pre, post, F, hlog, -, hF, -⟩ := h.began b hb
    obtain ⟨e, he, hnode⟩ := hF.behind a hab hmeets
    have hentry := hinv.entry_of_mem (e := e) (by rw [hlog]; exact List.mem_append_left _ he)
    rw [hnode, hau] at hentry
    cases hentry
  intro hmeets
  rcases Nat.lt_or_gt_of_ne hne with hlt | hlt
  · exact hnone hlt hi hvu hmeets.symm
  · exact hnone hlt hv hiu hmeets

/-- A step of a body. -/
theorem CleanInv.body (h : CleanInv env c g.nodes.length f₀ s) (hinv : RunInv env g f₀ s)
    (hdecl : ∀ v < g.nodes.length, env.Declared (c v) (env.node v)) (hS : env.storage.Fieldwise part) {i : Nat}
    {f : FrameState σ} {b : Body} {counted : List (Tally × String)} {traces : Nat → Option OpTrace}
    (hi : i < g.nodes.length)
    (hb : BodyStep env (env.node i) s.sched.shared.cancelled s.frame (s.bodies i) f b) (hnot : ∀ e, b ≠ .failed e) :
    CleanInv env c g.nodes.length f₀ { s with
      frame := f
      bodies := Function.update s.bodies i b
      log := s.log ++ (b.entryAt i).toList
      counted := counted
      traces := traces } := by
  obtain ⟨hidle, hunder⟩ := hb.under_way
  obtain ⟨pre, post, F, hlog, hpost, hF, hquiet⟩ := h.began i hidle
  have hquiet := hquiet hunder
  have hp := RunEnv.placeWise hdecl hS
  -- the node still sees the frame it began on
  have halike : env.Alike (env.node i) s.frame F := by
    refine (hdecl i hi).alike hS fun x hx => hp.symm x _ _ (hp.unwritten hpost fun e he hw => ?_)
    exact hquiet e he (OperatorConfig.meets_of_place hw (Or.inl hx))
  have hsees := hF.sees.step halike hb
  have hentries : Replay (env.CleanStep g.nodes.length) s.frame (b.entryAt i).toList f := by
    rcases hb.clean hi with ⟨e, he⟩ | ⟨hnone, rfl⟩ | ⟨e, he, -, hstep⟩
    · exact absurd he (hnot e)
    · rw [hnone]
      exact .nil
    · rw [he]
      have hnil : Replay (env.CleanStep g.nodes.length) s.frame [] s.frame := .nil
      exact hnil.snoc hstep
  have hnode : ∀ e ∈ (b.entryAt i).toList, e.node = i := fun e he => Body.entryAt_node (Option.mem_toList.mp he)
  refine ⟨h.replays.trans hentries, ?_, fun v hv => ?_⟩
  · refine List.pairwise_append.mpr ⟨h.ordered, ?_, fun a ha e he hmeets => ?_⟩
    · cases b.entryAt i with
      | none => exact List.Pairwise.nil
      | some e => exact List.pairwise_singleton _ _
    · rw [hnode e he] at hmeets ⊢
      rw [hlog] at ha
      rcases List.mem_append.mp ha with ha | ha
      · exact hF.clear a ha hmeets
      · exact absurd hmeets (hquiet a ha)
  · by_cases hvi : v = i
    · subst hvi
      have hbody : Function.update s.bodies v b v = b := Function.update_self ..
      dsimp only at hv ⊢
      rw [hbody] at hv ⊢
      refine ⟨pre, post ++ (b.entryAt v).toList, F, ?_, hpost.trans hentries, ⟨hF.replays, hF.behind, hF.clear, hsees⟩, ?_⟩
      · rw [hlog, List.append_assoc]
      · intro hnone e he
        rw [hnone v, Option.toList_none, List.append_nil] at he
        exact hquiet e he
    · have hbody : Function.update s.bodies i b v = s.bodies v := Function.update_of_ne hvi _ _
      dsimp only at hv ⊢
      rw [hbody] at hv ⊢
      obtain ⟨pre', post', G, hlog', hpost', hG, hquiet'⟩ := h.began v hv
      refine ⟨pre', post' ++ (b.entryAt i).toList, G, ?_, hpost'.trans hentries, hG, fun hvu e he => ?_⟩
      · rw [hlog', List.append_assoc]
      · rcases List.mem_append.mp he with he | he
        · exact hquiet' hvu e he
        · rw [hnode e he]
          exact h.apart hinv hvi hidle hunder hv hvu

/-- A node under way is one of the graph. -/
theorem RunInv.bound_of_begun (h : RunInv env g f₀ s) {i : Nat} (hi : s.bodies i ≠ .idle) : i < g.nodes.length := by
  have hmem : i ∈ s.sched.shared.dispatched := by
    by_contra hno
    exact hi (h.fresh i hno)
  refine h.sched.place_lt i ?_
  rcases List.mem_append.mp (h.sched.dispatched.mem_iff.mp hmem) with hmem | hmem
  · exact List.mem_append_left _ (List.mem_append_right _ hmem)
  · exact List.mem_append_right _ hmem

/-- A step of a run keeps the invariant, or a body fails. -/
theorem CleanInv.step (h : CleanInv env c g.nodes.length f₀ s) (hinv : RunInv env g f₀ s) (hg : GraphInv g)
    (hdecl : ∀ v < g.nodes.length, env.Declared (c v) (env.node v)) (hS : env.storage.Fieldwise part)
    (hahead : ∀ i j, i < j → j < g.nodes.length → (c i).Meets (c j) → TransGen g.Edge i j)
    (hclean : ∀ v e, s.bodies v ≠ .failed e) (hstep : RunStep env g pool s s') :
    (∃ v e, s'.bodies v = .failed e) ∨ CleanInv env c g.nodes.length f₀ s' := by
  cases hstep with
  | sched _ => exact Or.inr ⟨h.replays, h.ordered, h.began⟩
  | enter hs => exact Or.inr (h.enter hinv hg hahead hclean hs)
  | @body i f b hb =>
    by_cases hfail : ∃ e, b = .failed e
    · obtain ⟨e, rfl⟩ := hfail
      exact Or.inl ⟨i, e, Function.update_self ..⟩
    · have hi := hinv.bound_of_begun hb.under_way.1
      exact Or.inr (h.body hinv hdecl hS hi hb fun e he => hfail ⟨e, he⟩)
  | finish _ _ => exact Or.inr ⟨h.replays, h.ordered, h.began⟩
  | fail _ _ => exact Or.inr ⟨h.replays, h.ordered, h.began⟩
  | pass _ => exact Or.inr ⟨h.replays, h.ordered, h.began⟩
  | cancel _ => exact Or.inr ⟨h.replays, h.ordered, h.began⟩

/-- A body that failed stays failed. -/
theorem RunStep.failed {v : Nat} {e : PineError} (h : RunStep env g pool s s') (hinv : RunInv env g f₀ s)
    (hv : s.bodies v = .failed e) : s'.bodies v = .failed e := by
  cases h with
  | @enter i t hs =>
    have hidle := hinv.starts i hs.observed.event.1
    have hne : v ≠ i := by
      rintro rfl
      rw [hidle] at hv
      cases hv
    exact (Function.update_of_ne hne ..).trans hv
  | @body i f b hb =>
    have hne : v ≠ i := by
      rintro rfl
      have hunder := hb.under_way.2 v
      rw [hv] at hunder
      cases hunder
    exact (Function.update_of_ne hne ..).trans hv
  | _ => exact hv

theorem CleanInv.reachable {poolSize : Nat} (hg : GraphInv g)
    (hdecl : ∀ v < g.nodes.length, env.Declared (c v) (env.node v)) (hS : env.storage.Fieldwise part)
    (hahead : ∀ i j, i < j → j < g.nodes.length → (c i).Meets (c j) → TransGen g.Edge i j)
    (hr : RunReachable env g pool poolSize f₀ s) :
    (∃ v e, s.bodies v = .failed e) ∨ CleanInv env c g.nodes.length f₀ s := by
  induction hr with
  | refl => exact Or.inr (.init poolSize)
  | @tail t u hr hstep ih =>
    have hinv := RunInv.reachable hg hr
    rcases ih with ⟨v, e, hv⟩ | hclean
    · exact Or.inl ⟨v, e, hstep.failed hinv hv⟩
    · by_cases hfail : ∃ v e, t.bodies v = .failed e
      · obtain ⟨v, e, hv⟩ := hfail
        exact Or.inl ⟨v, e, hstep.failed hinv hv⟩
      · exact hclean.step hinv hg hdecl hS hahead (fun v e hv => hfail ⟨v, e, hv⟩) hstep

/-- A run that returns without an error has completed every node. -/
theorem RunInv.completed (h : RunInv env g f₀ s) (hg : GraphInv g) (hret : s.sched.mainReturned = true) {d : Bool}
    (hok : s.error? d = none) : ∀ v < g.nodes.length, s.exits v = some .completed := by
  have hverdict : s.flags.verdict = .success := by
    unfold RunState.error? at hok
    cases hv : s.flags.verdict with
    | success => rfl
    | cancelled =>
      rw [hv] at hok
      cases hok
    | failed v =>
      have hend := h.ended v
      rw [h.fits.failed hv] at hend
      obtain ⟨e, he⟩ := hend
      rw [hv] at hok
      dsimp only at hok
      rw [he] at hok
      cases hok
  exact fun v hv => h.fits.success hverdict (h.all_over hg hret v hv)

/-- It leaves a record of all nodes, whose entries tell what the bodies came to. -/
theorem RunReachable.record {poolSize : Nat} (hg : GraphInv g)
    (hdecl : ∀ v < g.nodes.length, env.Declared (c v) (env.node v)) (hS : env.storage.Fieldwise part)
    (hahead : ∀ i j, i < j → j < g.nodes.length → (c i).Meets (c j) → TransGen g.Edge i j)
    (hr : RunReachable env g pool poolSize f₀ s) (hret : s.sched.mainReturned = true) {d : Bool} (hok : s.error? d = none) :
    env.Record c g.nodes.length f₀ s.log s.frame ∧ ∀ v < g.nodes.length, (s.bodies v).entryAt v ≠ none := by
  have hinv := RunInv.reachable hg hr
  have hcompleted := hinv.completed hg hret hok
  have hsucceeded : ∀ v < g.nodes.length, (s.bodies v).Succeeded := by
    intro v hv
    have hend := hinv.ended v
    rw [hcompleted v hv] at hend
    exact hend
  have hentry : ∀ v < g.nodes.length, (s.bodies v).entryAt v ≠ none := by
    intro v hv hnone
    have hs := hsucceeded v hv
    cases hb : s.bodies v with
    | skipped =>
      rw [hb] at hnone
      cases hnone
    | applied out =>
      rw [hb] at hnone
      cases hnone
    | _ =>
      rw [hb] at hs
      exact hs
  refine ⟨?_, hentry⟩
  rcases CleanInv.reachable hg hdecl hS hahead hr with ⟨v, e, hv⟩ | hclean
  · have hbound := hinv.bound_of_begun (i := v) (by rw [hv]; exact nofun)
    have hs := hsucceeded v hbound
    rw [hv] at hs
    exact absurd hs id
  · refine ⟨hclean.replays, hclean.ordered, fun v hv => ?_, fun a ha b hb hab => ?_, fun e he => ?_⟩
    · obtain ⟨e, he⟩ := Option.ne_none_iff_exists'.mp (hentry v hv)
      exact ⟨e, hinv.mem_log he, Body.entryAt_node he⟩
    · have hea := hinv.entry_of_mem ha
      rw [hab, hinv.entry_of_mem hb] at hea
      exact (Option.some.inj hea).symm
    · have hb := hinv.entry_of_mem he
      obtain ⟨pre, post, F, hlog, -, hF, -⟩ := hclean.began e.node fun hno => by
        rw [hno] at hb
        cases hb
      rw [Body.body_of_entryAt hb]
      exact ⟨pre, F, hlog ▸ List.sublist_append_left pre post, hF⟩

end Runs

end Pineapple
