import Pineapple.GoRun
import Pineapple.Lib.Replay
import Pineapple.NodeBody

/-! # What holds in every state of a Go run

As for the C++ run: every goroutine that left has one entry in the log, the frame is what the log makes of
the request's frame, the flags fit how the goroutines left, and the counters are those of the log. -/

namespace Pineapple
open FanOut

variable {σ ι : Type} {env : GoEnv σ ι} {g : Graph}

/-! ## Errors and merges -/

theorem GoAttempt.recovered_named {op : String} {att : GoAttempt} {e : GoError} {out : OperatorOutput}
    (h : att.recovered op = .fail e out) (hn : att.ended.Named op) : (e.fatal op).Names op := by
  unfold recovered at h
  split at h
  · exact absurd h nofun
  · next e' he =>
    obtain ⟨rfl, -⟩ := Outcome.fail.inj h
    cases e' with
    | text s => exact Or.inl ⟨s, rfl⟩
    | panic name value =>
      rw [he] at hn
      exact Or.inr ⟨value, congrArg (PineError.panic · value) hn⟩
  · next value _ =>
    obtain ⟨rfl, -⟩ := Outcome.fail.inj h
    exact Or.inr ⟨value, rfl⟩

theorem GoAttempt.recovered_ok {op : String} {att : GoAttempt} {out : OperatorOutput} (h : att.recovered op = .ok out) :
    att = ⟨out, .ok⟩ := by
  unfold recovered at h
  split at h
  · next hended => exact congrArg₂ GoAttempt.mk (Outcome.ok.inj h) hended
  · exact absurd h nofun
  · exact absurd h nofun

namespace GoEnv.Dispatches
variable {p : NodePlan} {resolved : Row} {input : ι}

theorem named {e : GoError} {out : OperatorOutput} (h : env.Dispatches p resolved input (.fail e out))
    (hn : env.Named p) : (e.fatal p.op.name).Names p.op.name := by
  generalize hres : Outcome.fail e out = res at h
  cases h with
  | intro hexec => exact GoAttempt.recovered_named hres.symm (hn _ _ _ hexec)

theorem returned {out : OperatorOutput} (h : env.Dispatches p resolved input (.ok out)) : env.Returned p resolved out := by
  generalize hres : Outcome.ok out = res at h
  cases h with
  | intro hexec =>
    rw [GoAttempt.recovered_ok hres.symm] at hexec
    exact ⟨input, hexec⟩

end GoEnv.Dispatches

theorem mergeShards_mergeable {op : String} {outs : List (Window × OperatorOutput)} (h : ∀ e ∈ outs, e.2.Mergeable)
    {e : PineError} {out : OperatorOutput} : mergeShards op outs ≠ .fail e out := by
  unfold mergeShards
  generalize ({} : OperatorOutput) = dst
  induction outs generalizing dst with
  | nil => exact nofun
  | cons s rest ih =>
    obtain ⟨hadd, horder, hcommon⟩ := h s List.mem_cons_self
    have hmerge : ∃ dst', mergeShardOutput op s.1.offset s.2 dst = .ok dst' := by
      unfold mergeShardOutput
      rw [hadd, horder, hcommon]
      exact ⟨_, rfl⟩
    obtain ⟨dst', hdst⟩ := hmerge
    rw [Outcome.forEach, hdst]
    exact ih (fun e he => h e (List.mem_cons_of_mem _ he)) dst'

/-! ## The log -/

/-- What an entry does to the frame. A failing operator leaves it alone, or as a failed `ApplyOutput` made it. -/
def GoEnv.EntryStep (env : GoEnv σ ι) (e : Nat × GoExit) (f f' : σ) : Prop :=
  match e.2 with
  | .passed => f' = f
  | .skipped => f' = f ∧ env.shouldSkip (env.node e.1) f = true
  | .applied out => env.apply out (env.node e.1).op.name (env.node e.1).op.recall f = .ok f'
  | .failed _ _ => f' = f ∨ ∃ out msg, env.apply out (env.node e.1).op.name (env.node e.1).op.recall f = .fail msg f'

/-- What is known of a goroutine. -/
def GoBodyInv (env : GoEnv σ ι) (p : NodePlan) : GoBody ι → Prop
  | .sharding _ resolved sh => 1 < p.op.dataParallel ∧ ∃ total, ShardsInv (shardWindows p.op.dataParallel.toNat total)
      (env.Returned p resolved) (fun e => env.Named p → (e.fatal p.op.name).Names p.op.name) sh
  | .executed (.ok out) | .produced out | .leaving (.applied out) | .closed (.applied out) =>
    CompleteOutput p.op (env.Returned p) out
  | .executed (.fail e _) => env.Named p → (e.fatal p.op.name).Names p.op.name
  | .leaving (.failed e _) | .closed (.failed e _) => env.Named p → e.Names p.op.name
  | _ => True

namespace GoBodyStep
variable {p : NodePlan} {cancelled : Bool} {closed : Nat → Bool} {f f' : σ} {b b' : GoBody ι}

theorem under_way (h : GoBodyStep env p cancelled closed f b f' b') : b.exit? = none := by
  cases h <;> rfl

theorem inv (h : GoBodyStep env p cancelled closed f b f' b') (hb : GoBodyInv env p b) : GoBodyInv env p b' := by
  cases h with
  | await _ | pass _ | enter _ | skip _ | goOn _ | build _ | resolve _ => exact trivial
  | buildFails _ | resolveFails _ | gateFails _ | applyFails _ => exact fun _ => Or.inl ⟨_, rfl⟩
  | @serial input r res _ hd =>
    cases res with
    | ok out => exact .serial hd.returned
    | fail e out => exact hd.named
  | fork hdp _ => exact ⟨hdp, _, .start _⟩
  | shard hs =>
    obtain ⟨hdp, total, hsh⟩ := hb
    exact ⟨hdp, total, hsh.step (fun _ _ hd => hd.returned) (fun _ _ _ hd => hd.named) hs⟩
  | joinFails _ herr =>
    obtain ⟨-, total, hsh⟩ := hb
    exact hsh.error _ herr
  | joinSkipped _ _ _ => exact fun _ => Or.inl ⟨_, rfl⟩
  | join hover herr hskip hm =>
    obtain ⟨-, total, hsh⟩ := hb
    obtain ⟨hwindows, hdone⟩ := hsh.complete hover herr hskip
    exact .parallel hwindows hdone hm
  | executeFails => exact hb
  | gate _ => exact hb
  | apply _ => exact hb

theorem entryStep {v : Nat} {x : GoExit} (h : GoBodyStep env (env.node v) cancelled closed f b f' (.leaving x)) :
    env.EntryStep (v, x) f f' := by
  cases h with
  | pass _ => exact rfl
  | skip hs => exact ⟨rfl, hs⟩
  | buildFails _ | resolveFails _ | executeFails | gateFails _ => exact Or.inl rfl
  | apply ha => exact ha
  | applyFails ha => exact Or.inr ⟨_, _, ha⟩

/-- Without leaving, a goroutine does not touch the frame. -/
theorem frame_eq (h : GoBodyStep env p cancelled closed f b f' b') (hb : b'.exit? = none) : f' = f := by
  cases h with
  | apply _ => exact absurd hb nofun
  | applyFails _ => exact absurd hb nofun
  | _ => rfl

theorem cancelled_of_passed (h : GoBodyStep env p cancelled closed f b f' (.leaving .passed)) : cancelled = true := by
  cases h with
  | pass hc => exact hc

end GoBodyStep

/-! ## The invariant -/

structure GoRunInv (env : GoEnv σ ι) (g : Graph) (f₀ : σ) (s : GoRunState σ ι) : Prop where
  exits : ∀ v, (s.bodies v).exit?.map GoExit.exit = s.exits v
  bound : ∀ v, (s.exits v).isSome = true → v < g.nodes.length
  fits : Fits s.flags s.exits
  body : ∀ v, GoBodyInv env (env.node v) (s.bodies v)
  replays : Replay env.EntryStep f₀ s.log s.frame
  logged : ∀ v, s.log.filter (fun e => e.1 = v) = (s.bodies v).exit?.toList.map fun x => (v, x)
  stats : s.stats = s.log.flatMap fun e => e.2.tally?.toList.map fun t => (t, (env.node e.1).op.name)
  metrics : s.metrics = s.stats
  traces : ∀ v, s.traces v = (s.bodies v).exit?.bind (GoExit.trace? (env.node v).op.name)
  returned : s.returned = true → ∀ v < g.nodes.length, s.isClosed v = true

namespace GoRunInv
variable {f₀ : σ} {s : GoRunState σ ι}

theorem init (g : Graph) (f₀ : σ) : GoRunInv env g f₀ (.init g f₀) where
  exits _ := rfl
  bound _ h := absurd h Bool.false_ne_true
  fits := .init
  body _ := trivial
  replays := .nil
  logged _ := rfl
  stats := rfl
  metrics := rfl
  traces _ := rfl
  returned h := absurd h Bool.false_ne_true

theorem not_closed {i : Nat} (hb : (s.bodies i).exit? = none) : s.isClosed i = false := by
  unfold GoRunState.isClosed
  cases hbody : s.bodies i with
  | closed x => rw [hbody] at hb; exact absurd hb nofun
  | _ => rfl

theorem move (h : GoRunInv env g f₀ s) {i : Nat} {f : σ} {b : GoBody ι} (hb : b.exit? = none)
    (hstep : GoBodyStep env (env.node i) s.flags.cancelled s.isClosed s.frame (s.bodies i) f b)
    (hi : i < g.nodes.length) : GoRunInv env g f₀ (s.move i f b) := by
  have hold := hstep.under_way
  have hframe := hstep.frame_eq hb
  refine { h with
    exits := Function.forall_update_iff _ (p := fun v (b : GoBody ι) => b.exit?.map GoExit.exit = s.exits v) |>.mpr
      ⟨?_, fun v _ => h.exits v⟩
    body := Function.forall_update_iff _ (p := fun v (b : GoBody ι) => GoBodyInv env (env.node v) b) |>.mpr
      ⟨hstep.inv (h.body i), fun v _ => h.body v⟩
    replays := ?_
    logged := Function.forall_update_iff _
      (p := fun v (b : GoBody ι) => s.log.filter (fun e => e.1 = v) = b.exit?.toList.map fun x => (v, x)) |>.mpr
      ⟨?_, fun v _ => h.logged v⟩
    traces := Function.forall_update_iff _
      (p := fun v (b : GoBody ι) => s.traces v = b.exit?.bind (GoExit.trace? (env.node v).op.name)) |>.mpr
      ⟨?_, fun v _ => h.traces v⟩
    returned := fun hr => ?_ }
  · rw [hb, ← h.exits i, hold]
  · show Replay env.EntryStep f₀ s.log f
    rw [hframe]
    exact h.replays
  · rw [h.logged i, hold, hb]
  · rw [h.traces i, hold, hb]
  · have hclosed := h.returned hr i hi
    rw [not_closed hold] at hclosed
    exact absurd hclosed Bool.false_ne_true

theorem leave (h : GoRunInv env g f₀ s) {i : Nat} {f : σ} {x : GoExit}
    (hstep : GoBodyStep env (env.node i) s.flags.cancelled s.isClosed s.frame (s.bodies i) f (.leaving x))
    (hi : i < g.nodes.length) : GoRunInv env g f₀ (s.exitWith (env.node i).op.name i f x) := by
  have hold := hstep.under_way
  have hnone : s.exits i = none := by rw [← h.exits i, hold]; rfl
  refine {
    exits := fun v => ?_
    bound := fun v hv => ?_
    fits := ?_
    body := Function.forall_update_iff _ (p := fun v (b : GoBody ι) => GoBodyInv env (env.node v) b) |>.mpr
      ⟨hstep.inv (h.body i), fun v _ => h.body v⟩
    replays := h.replays.snoc hstep.entryStep
    logged := fun v => ?_
    stats := ?_
    metrics := ?_
    traces := fun v => ?_
    returned := fun hr => ?_ }
  · show (Function.update s.bodies i (.leaving x) v).exit?.map GoExit.exit = Function.update s.exits i (some x.exit) v
    by_cases hv : v = i
    · subst hv
      rw [Function.update_self, Function.update_self]
      rfl
    · rw [Function.update_of_ne hv, Function.update_of_ne hv]
      exact h.exits v
  · by_cases hv' : v = i
    · exact hv' ▸ hi
    · refine h.bound v ?_
      have hsome : (Function.update s.exits i (some x.exit) v).isSome = true := hv
      rwa [Function.update_of_ne hv'] at hsome
  · show Fits (GoRunState.leave s.flags i x) (Function.update s.exits i (some x.exit))
    cases x with
    | passed => exact h.fits.pass hnone hstep.cancelled_of_passed
    | skipped => exact h.fits.complete hnone
    | applied out => exact h.fits.complete hnone
    | failed e counted => exact h.fits.fail hnone
  · show (s.log ++ [(i, x)]).filter _ = (Function.update s.bodies i (.leaving x) v).exit?.toList.map _
    rw [List.filter_append, h.logged v, List.filter_singleton]
    by_cases hv : v = i
    · subst hv
      rw [hold, Function.update_self, decide_eq_true rfl]
      rfl
    · rw [Function.update_of_ne hv, decide_eq_false fun heq => hv heq.symm]
      exact List.append_nil _
  · show s.stats ++ _ = (s.log ++ [(i, x)]).flatMap _
    rw [h.stats, List.flatMap_append, List.flatMap_singleton]
  · show s.metrics ++ _ = s.stats ++ _
    rw [h.metrics]
  · show Function.update s.traces i _ v = (Function.update s.bodies i (.leaving x) v).exit?.bind _
    by_cases hv : v = i
    · subst hv
      rw [Function.update_self, Function.update_self]
      rfl
    · rw [Function.update_of_ne hv, Function.update_of_ne hv]
      exact h.traces v
  · have hclosed := h.returned hr i hi
    rw [not_closed hold] at hclosed
    exact absurd hclosed Bool.false_ne_true

theorem close (h : GoRunInv env g f₀ s) {i : Nat} {x : GoExit} (hx : s.bodies i = .leaving x) :
    GoRunInv env g f₀ { s with bodies := Function.update s.bodies i (.closed x) } := by
  have hexit : (s.bodies i).exit? = (GoBody.closed x : GoBody ι).exit? := by rw [hx]; rfl
  have hinv := h.body i
  rw [hx] at hinv
  refine { h with
    exits := Function.forall_update_iff _ (p := fun v (b : GoBody ι) => b.exit?.map GoExit.exit = s.exits v) |>.mpr
      ⟨by rw [← hexit]; exact h.exits i, fun v _ => h.exits v⟩
    body := Function.forall_update_iff _ (p := fun v (b : GoBody ι) => GoBodyInv env (env.node v) b) |>.mpr
      ⟨by cases x <;> exact hinv, fun v _ => h.body v⟩
    logged := Function.forall_update_iff _
      (p := fun v (b : GoBody ι) => s.log.filter (fun e => e.1 = v) = b.exit?.toList.map fun x => (v, x)) |>.mpr
      ⟨by rw [← hexit]; exact h.logged i, fun v _ => h.logged v⟩
    traces := Function.forall_update_iff _
      (p := fun v (b : GoBody ι) => s.traces v = b.exit?.bind (GoExit.trace? (env.node v).op.name)) |>.mpr
      ⟨by rw [← hexit]; exact h.traces i, fun v _ => h.traces v⟩
    returned := fun hr => Function.forall_update_iff _
      (p := fun v (b : GoBody ι) => v < g.nodes.length → b.isClosed = true) |>.mpr
      ⟨fun _ => rfl, fun v _ => h.returned hr v⟩ }

theorem step (h : GoRunInv env g f₀ s) {s' : GoRunState σ ι} (hstep : GoRunStep env g s s') : GoRunInv env g f₀ s' := by
  cases hstep with
  | move _ hi hb hs => exact h.move hb hs hi
  | leave _ hi hs => exact h.leave hs hi
  | close _ hx => exact h.close hx
  | crash _ _ _ _ _ _ _ => exact { h with }
  | cancel => exact { h with fits := h.fits.cancel }
  | wait _ hall => exact { h with returned := fun _ => hall }

theorem reachable (hr : GoRunReachable env g f₀ s) : GoRunInv env g f₀ s := by
  induction hr with
  | refl => exact init g f₀
  | tail _ hstep ih => exact ih.step hstep

end GoRunInv

/-- The outputs of the shards of an operator that writes items only. -/
theorem GoBodyInv.mergeable {p : NodePlan} {input : ι} {r : Row} {sh : Shards GoError}
    (h : GoBodyInv env p (.sharding input r sh)) (hsafe : env.ShardSafe p) (hover : sh.Over) (herr : sh.firstErr = none)
    (hskip : sh.skipped = false) : ∀ e ∈ sh.outputs, e.2.Mergeable := by
  intro e he
  obtain ⟨hdp, total, hsh⟩ := h
  obtain ⟨input, hexec⟩ := (hsh.complete hover herr hskip).2 e he
  exact hsafe hdp input r e.2 hexec

/-- Where every shard's output can be merged, no panic reaches the process. -/
theorem GoRunReachable.not_crashed {f₀ : σ} {s : GoRunState σ ι} (hr : GoRunReachable env g f₀ s)
    (hsafe : ∀ v < g.nodes.length, env.ShardSafe (env.node v)) : s.crashed = false := by
  induction hr with
  | refl => rfl
  | tail hprev hstep ih =>
    cases hstep with
    | @crash i input r sh e out _ hi hbody hover herr hskip hm =>
      have hinv := (GoRunInv.reachable hprev).body i
      rw [hbody] at hinv
      exact absurd hm (mergeShards_mergeable (hinv.mergeable (hsafe i hi) hover herr hskip))
    | _ => exact ih

end Pineapple
