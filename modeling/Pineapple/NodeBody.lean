import Pineapple.ApplyOutput
import Pineapple.Engine
import Pineapple.Shards

/-! # The body of a node (`node_body`, `parallel_execute`, `dispatch_with_recovery` in `engine.cpp`)

A body looks at the skip fields, resolves the templated parameters, runs the operator on the whole frame or
on its shards, checks the output and applies it. Other bodies apply their outputs in between, so a body is a
sequence of steps over the shared frame. The operators are arbitrary: a relation says what an execution may
write and throw. -/

namespace Pineapple

/-! ## Executing an operator -/

/-- What `execute` may throw. -/
inductive Thrown where
  | pine (e : PineError)
  | std (what : String)
  | other
deriving DecidableEq

/-- What a call of `execute` wrote, and what it threw, if anything. -/
structure Attempt where
  out : OperatorOutput
  thrown : Option Thrown := none

/-- The name an execution error without one is given. -/
def promote (op : String) : PineError → PineError
  | .execution name inner =>
    if name = "" then .execution op (if inner = "" then (PineError.execution name inner).what else inner)
    else .execution name inner
  | e => e

/-- The catch clauses of `dispatch_with_recovery`. -/
def dispatchError (op : String) : Thrown → PineError
  | .pine e => promote op e
  | .std what => .panic op what
  | .other => .panic op "unknown exception"

/-- The error names the operator. -/
def PineError.Names (e : PineError) (op : String) : Prop :=
  (∃ inner, e = .execution op inner) ∨ ∃ value, e = .panic op value

/-- An exception the engine reports under the operator's name. -/
def Thrown.Named (op : String) : Thrown → Prop
  | .pine (.execution name _) => name = "" ∨ name = op
  | .pine (.panic name _) => name = op
  | .pine _ => False
  | .std _ | .other => True

theorem promote_named {op name inner : String} (h : name = "" ∨ name = op) :
    (promote op (.execution name inner)).Names op := by
  show (if name = "" then PineError.execution op _ else .execution name inner).Names op
  by_cases hname : name = ""
  · rw [if_pos hname]
    exact Or.inl ⟨_, rfl⟩
  · rw [if_neg hname, h.resolve_left hname]
    exact Or.inl ⟨inner, rfl⟩

theorem Thrown.Named.dispatchError {op : String} {t : Thrown} (h : t.Named op) : (dispatchError op t).Names op := by
  cases t with
  | std what => exact Or.inr ⟨what, rfl⟩
  | other => exact Or.inr ⟨_, rfl⟩
  | pine e =>
    cases e with
    | execution name inner => exact promote_named h
    | panic name value => exact Or.inr ⟨value, congrArg (PineError.panic · value) h⟩
    | error _ | config _ | validation _ | registry _ | cancelled _ => exact absurd h id

/-! ## The body -/

/-- A kind of frame: how it is read, through a window or whole, and how it is written. -/
structure Storage (σ : Type) where
  store : ItemStore σ
  view : FrameState σ → Option Window → Frame
  cell : σ → Nat → String → Option Variant
  reads : σ → String → Variant → Variant
  lawful : store.Lawful cell reads

structure RunEnv (σ : Type) where
  storage : Storage σ
  text : ScalarText
  node : Nat → NodePlan
  /-- what the operators may do with an input and the resolved parameters -/
  exec : OperatorConfig → OperatorInput → Row → Attempt → Prop

variable {σ : Type}

/-- A call of `dispatch_with_recovery` after the input is built. -/
inductive RunEnv.Dispatches (env : RunEnv σ) (p : NodePlan) (resolved : Row) (frame : FrameState σ)
    (window : Option Window) : Outcome PineError OperatorOutput → Prop
  | input {e} : buildOperatorInput (env.storage.view frame window) p.op.name p.spec = .error e →
      Dispatches env p resolved frame window (.fail e {})
  | returns {input out} : buildOperatorInput (env.storage.view frame window) p.op.name p.spec = .ok input →
      env.exec p.op input resolved ⟨out, none⟩ → Dispatches env p resolved frame window (.ok out)
  | throws {input out t} : buildOperatorInput (env.storage.view frame window) p.op.name p.spec = .ok input →
      env.exec p.op input resolved ⟨out, some t⟩ →
      Dispatches env p resolved frame window (.fail (dispatchError p.op.name t) out)

/-- The end of `parallel_execute`, after the last shard. -/
def joinShards (sh : Shards PineError) (op : String) (deadlineExceeded : Bool) : Outcome PineError OperatorOutput :=
  match sh.firstErr with
  | some e => .fail e {}
  | none =>
    if sh.skipped then .fail (.execution op (contextError deadlineExceeded)) {} else mergeShards op sh.outputs

inductive Body where
  /-- `node_body` has not come here -/
  | idle
  | entered
  | resolving
  | ready (resolved : Row)
  | sharding (resolved : Row) (sh : Shards PineError)
  /-- the operator's output is in hand -/
  | produced (out : OperatorOutput)
  | skipped
  | applied (out : OperatorOutput)
  | failed (e : PineError)

/-- The gates and `apply_output`. -/
def RunEnv.deliver (env : RunEnv σ) (p : NodePlan) (out : OperatorOutput) (frame : FrameState σ) :
    Outcome PineError (FrameState σ) :=
  match validateOutputAgainstType p.op.name p.op.operatorType out with
  | .error e => .fail e frame
  | .ok () => match validateDeclaredOutputs p.op.name p.op out with
    | .error e => .fail e frame
    | .ok () => applyOutputWith env.storage.store out p.op.name (p.op.operatorType = "recall") frame

/-- `push_warning`, for an operator that fails with a warning set. -/
def pushWarning (op : String) (out : OperatorOutput) (frame : FrameState σ) : FrameState σ :=
  match out.warning with
  | none => frame
  | some msg => { frame with warnings := frame.warnings ++ ["operator \"" ++ op ++ "\": " ++ msg] }

/-- One step of a body, over the frame the run shares; `cancelled` is the run's context. -/
inductive BodyStep (env : RunEnv σ) (p : NodePlan) (cancelled : Bool) :
    FrameState σ → Body → FrameState σ → Body → Prop
  | skip {f} : (shouldSkip p.op.skip).run f.common.find? = true → BodyStep env p cancelled f .entered f .skipped
  | goOn {f} : (shouldSkip p.op.skip).run f.common.find? = false → BodyStep env p cancelled f .entered f .resolving
  | resolve {f r} : (env.text.resolveTemplatedParams p.template ∅).run f.common.find? = .ok r →
      BodyStep env p cancelled f .resolving f (.ready r)
  | resolveFails {f e} : (env.text.resolveTemplatedParams p.template ∅).run f.common.find? = .error e →
      BodyStep env p cancelled f .resolving f (.failed (promote p.op.name e))
  | serial {f r out} : p.op.dataParallel ≤ 1 ∨ (env.storage.view f none).itemCount = 0 →
      env.Dispatches p r f none (.ok out) → BodyStep env p cancelled f (.ready r) f (.produced out)
  | serialFails {f r e out} : p.op.dataParallel ≤ 1 ∨ (env.storage.view f none).itemCount = 0 →
      env.Dispatches p r f none (.fail e out) →
      BodyStep env p cancelled f (.ready r) (pushWarning p.op.name out f) (.failed e)
  | fork {f r} : 1 < p.op.dataParallel → (env.storage.view f none).itemCount ≠ 0 →
      BodyStep env p cancelled f (.ready r) f
        (.sharding r (.start (shardWindows p.op.dataParallel.toNat (env.storage.view f none).itemCount)))
  | shard {f r sh sh'} : ShardStep (fun w => env.Dispatches p r f (some w)) cancelled sh sh' →
      BodyStep env p cancelled f (.sharding r sh) f (.sharding r sh')
  | join {f r sh deadlineExceeded out} : sh.Over → joinShards sh p.op.name deadlineExceeded = .ok out →
      BodyStep env p cancelled f (.sharding r sh) f (.produced out)
  | joinFails {f r sh deadlineExceeded e out} : sh.Over → joinShards sh p.op.name deadlineExceeded = .fail e out →
      BodyStep env p cancelled f (.sharding r sh) (pushWarning p.op.name out f) (.failed e)
  | apply {f f' out} : env.deliver p out f = .ok f' → BodyStep env p cancelled f (.produced out) f' (.applied out)
  | applyFails {f f' out e} : env.deliver p out f = .fail e f' →
      BodyStep env p cancelled f (.produced out) (pushWarning p.op.name out f') (.failed e)

/-! ## What a body's end says -/

/-- An output of an execution that returned. -/
def RunEnv.Returned (env : RunEnv σ) (p : NodePlan) (resolved : Row) (out : OperatorOutput) : Prop :=
  ∃ input, env.exec p.op input resolved ⟨out, none⟩

/-- Every exception of the operator is one the engine reports under its name. -/
def RunEnv.Named (env : RunEnv σ) (p : NodePlan) : Prop :=
  ∀ input resolved att t, env.exec p.op input resolved att → att.thrown = some t → t.Named p.op.name

def BodyInv (env : RunEnv σ) (p : NodePlan) : Body → Prop
  | .sharding resolved sh => ∃ total, ShardsInv (shardWindows p.op.dataParallel.toNat total)
      (env.Returned p resolved) (fun e => env.Named p → e.Names p.op.name) sh
  | .produced out | .applied out => CompleteOutput p.op (env.Returned p) out
  | .failed e => env.Named p → e.Names p.op.name
  | _ => True

/-! ## The engine's own errors name the operator -/

section Errors
variable {op : String}

theorem findSome?_named {α : Type} {l : List α} {f : α → Option PineError} {e : PineError}
    (hf : ∀ a e, f a = some e → e.Names op) (h : l.findSome? f = some e) : e.Names op := by
  obtain ⟨a, -, ha⟩ := List.exists_of_findSome?_eq_some h
  exact hf a e ha

theorem map_execution_named {α : Type} {o : Option α} {g : α → String} {e : PineError}
    (h : (o.map fun v => PineError.execution op (g v)) = some e) : e.Names op := by
  obtain ⟨v, -, rfl⟩ := Option.map_eq_some_iff.mp h
  exact Or.inl ⟨_, rfl⟩

/-- A check that refuses with an execution error of the operator, or leaves it to another check. -/
theorem ite_named {c : Prop} [Decidable c] {msg : String} {rest : Option PineError} {e : PineError}
    (hrest : rest = some e → e.Names op) (h : (if c then some (.execution op msg) else rest) = some e) : e.Names op := by
  split at h
  · exact Or.inl ⟨msg, (Option.some.inj h).symm⟩
  · exact hrest h

theorem writeError_named {out : OperatorOutput} {n : Nat} {e : PineError} (h : out.writeError op n = some e) :
    e.Names op := by
  unfold OperatorOutput.writeError at h
  rcases Option.or_eq_some_iff.mp h with h | ⟨-, h⟩
  · exact findSome?_named (fun _ _ => map_execution_named) h
  · rcases Option.or_eq_some_iff.mp h with h | ⟨-, h⟩
    · exact findSome?_named (fun _ _ => ite_named map_execution_named) h
    · exact findSome?_named (fun _ _ => ite_named map_execution_named) h

theorem removeError_named {out : OperatorOutput} {n : Nat} {e : PineError} (h : out.removeError op n = some e) :
    e.Names op := by
  unfold OperatorOutput.removeError at h
  split at h
  · exact absurd h nofun
  · exact findSome?_named (fun _ _ => ite_named fun hnone => absurd hnone.symm (Option.some_ne_none _)) h

theorem scanOrder_named {n : Nat} {e : PineError} {order : List Int} {seen : List Bool}
    (h : scanOrder op n seen order = some e) : e.Names op := by
  induction order generalizing seen with
  | nil => exact absurd h nofun
  | cons idx rest ih => exact ite_named (ite_named ih) h

theorem reorderError_named {out : OperatorOutput} {n : Nat} {e : PineError} (h : out.reorderError op n = some e) :
    e.Names op := by
  obtain ⟨order, -, h⟩ := Option.bind_eq_some_iff.mp h
  exact ite_named scanOrder_named h

theorem additionError_named {out : OperatorOutput} {e : PineError} (h : out.additionError op = some e) : e.Names op :=
  findSome?_named (fun _ _ h => findSome?_named (fun _ _ => map_execution_named) h) h

theorem applyOutputWith_named {storage : Storage σ} {out : OperatorOutput} {isRecall : Bool} {f f' : FrameState σ}
    {e : PineError} (h : applyOutputWith storage.store out op isRecall f = .fail e f') : e.Names op := by
  have hends := applyOutputWith_ends storage.lawful out op isRecall f
  rw [h] at hends
  cases hends with
  | writes _ hw => exact writeError_named hw
  | removals _ _ hr => exact removeError_named hr
  | order _ _ _ ho => exact reorderError_named ho
  | additions _ _ _ _ ha => exact additionError_named ha

theorem validateOutputAgainstType_named {opType : String} {out : OperatorOutput} {e : PineError}
    (h : validateOutputAgainstType op opType out = .error e) : e.Names op := by
  unfold validateOutputAgainstType at h
  split at h
  · exact absurd h nofun
  · exact Or.inl ⟨_, (Except.error.inj h).symm⟩

theorem validateDeclaredOutputs_named {config : OperatorConfig} {out : OperatorOutput} {e : PineError}
    (h : validateDeclaredOutputs op config out = .error e) : e.Names op := by
  unfold validateDeclaredOutputs at h
  split at h
  · exact absurd h nofun
  · exact Or.inl ⟨_, (Except.error.inj h).symm⟩

theorem buildOperatorInput_named {frame : Frame} {spec : InputFieldSpec} {e : PineError}
    (h : buildOperatorInput frame op spec = .error e) : e.Names op := by
  unfold buildOperatorInput at h
  split at h
  · exact Or.inl ⟨_, (Except.error.inj h).symm⟩
  · exact absurd h nofun

/-- The resolver's errors are execution errors without a name. -/
theorem coerceScalar_error {text : ScalarText} {param scalarType s : String} {e : PineError}
    (h : text.coerceScalar param scalarType s = .error e) : ∃ inner, e = .execution "" inner := by
  unfold ScalarText.coerceScalar at h
  dsimp only at h
  repeat' split at h
  all_goals first | exact ⟨_, (Except.error.inj h).symm⟩ | exact absurd h nofun

theorem resolve_error {text : ScalarText} {plan : List TemplatedParam} {out : Row} {env : String → Option Variant}
    {e : PineError} (h : (text.resolveTemplatedParams plan out).run env = .error e) : ∃ inner, e = .execution "" inner := by
  induction plan generalizing out with
  | nil => exact absurd h nofun
  | cons p rest ih =>
    rw [ScalarText.resolveTemplatedParams, ReadProgram.run_read] at h
    split at h
    · exact ⟨_, (Except.error.inj h).symm⟩
    · split at h
      · next he =>
        rw [ReadProgram.run_ret] at h
        exact coerceScalar_error (he.trans (congrArg _ (Except.error.inj h)))
      · exact ih h

theorem mergeShards_named {outs : List (Window × OperatorOutput)} {e : PineError} {dst out : OperatorOutput}
    (h : Outcome.forEach (fun e => mergeShardOutput op e.1.offset e.2) outs dst = .fail e out) : e.Names op := by
  induction outs generalizing dst with
  | nil => cases h
  | cons s rest ih =>
    rw [Outcome.forEach] at h
    cases hm : mergeShardOutput op s.1.offset s.2 dst with
    | ok dst' =>
      rw [hm] at h
      exact ih h
    | fail e' dst' =>
      rw [hm] at h
      obtain ⟨rfl, -⟩ := Outcome.fail.inj h
      unfold mergeShardOutput at hm
      split at hm
      · exact Or.inr ⟨_, (Outcome.fail.inj hm).1.symm⟩
      · cases hm

end Errors

variable {env : RunEnv σ} {p : NodePlan}

theorem RunEnv.deliver_named {out : OperatorOutput} {f f' : FrameState σ} {e : PineError}
    (h : env.deliver p out f = .fail e f') : e.Names p.op.name := by
  unfold RunEnv.deliver at h
  split at h
  · next htype =>
    obtain ⟨rfl, -⟩ := Outcome.fail.inj h
    exact validateOutputAgainstType_named htype
  · split at h
    · next hdeclared =>
      obtain ⟨rfl, -⟩ := Outcome.fail.inj h
      exact validateDeclaredOutputs_named hdeclared
    · exact applyOutputWith_named h

theorem RunEnv.Dispatches.named {resolved : Row} {f : FrameState σ} {w : Option Window} {e : PineError}
    {out : OperatorOutput} (h : env.Dispatches p resolved f w (.fail e out)) (hn : env.Named p) : e.Names p.op.name := by
  cases h with
  | input hbuild => exact buildOperatorInput_named hbuild
  | throws _ hexec => exact (hn _ _ _ _ hexec rfl).dispatchError

theorem RunEnv.Dispatches.returned {resolved : Row} {f : FrameState σ} {w : Option Window} {out : OperatorOutput}
    (h : env.Dispatches p resolved f w (.ok out)) : env.Returned p resolved out := by
  cases h with
  | returns _ hexec => exact ⟨_, hexec⟩

/-! ## Joining the shards -/

theorem joinShards_ok {windows : List Window} {resolved : Row} {Q : PineError → Prop} {sh : Shards PineError}
    {total : Nat} {deadlineExceeded : Bool} {out : OperatorOutput}
    (h : ShardsInv windows (env.Returned p resolved) Q sh)
    (hw : windows = shardWindows p.op.dataParallel.toNat total) (hover : sh.Over)
    (hj : joinShards sh p.op.name deadlineExceeded = .ok out) :
    CompleteOutput p.op (env.Returned p) out := by
  unfold joinShards at hj
  split at hj
  · exact absurd hj nofun
  · next herr =>
    split at hj
    · exact absurd hj nofun
    · next hskip =>
      obtain ⟨hwindows, hdone⟩ := h.complete hover herr (Bool.eq_false_of_not_eq_true hskip)
      exact .parallel (hwindows.trans hw) hdone hj

theorem joinShards_fail {windows : List Window} {P : OperatorOutput → Prop} {sh : Shards PineError}
    {deadlineExceeded : Bool} {e : PineError} {out : OperatorOutput}
    (h : ShardsInv windows P (fun e => env.Named p → e.Names p.op.name) sh)
    (hj : joinShards sh p.op.name deadlineExceeded = .fail e out) (hn : env.Named p) : e.Names p.op.name := by
  unfold joinShards at hj
  split at hj
  · next e' herr =>
    obtain ⟨rfl, -⟩ := Outcome.fail.inj hj
    exact h.error _ herr hn
  · split at hj
    · exact Or.inl ⟨_, (Outcome.fail.inj hj).1.symm⟩
    · exact mergeShards_named hj

/-- Every step of a body keeps what is known of it. -/
theorem BodyStep.inv {cancelled : Bool} {f f' : FrameState σ} {b b' : Body} (h : BodyStep env p cancelled f b f' b')
    (hb : BodyInv env p b) : BodyInv env p b' := by
  cases h with
  | skip _ => exact trivial
  | goOn _ => exact trivial
  | resolve _ => exact trivial
  | resolveFails hr =>
    obtain ⟨inner, rfl⟩ := resolve_error hr
    exact fun _ => promote_named (Or.inl rfl)
  | serial _ hd =>
    exact .serial hd.returned
  | serialFails _ hd => exact hd.named
  | fork _ _ => exact ⟨_, .start _⟩
  | shard hs =>
    obtain ⟨total, hsh⟩ := hb
    exact ⟨total, hsh.step (fun _ _ hd => hd.returned) (fun _ _ _ hd => hd.named) hs⟩
  | join hover hj =>
    obtain ⟨total, hsh⟩ := hb
    exact joinShards_ok hsh rfl hover hj
  | joinFails _ hj =>
    obtain ⟨total, hsh⟩ := hb
    exact joinShards_fail hsh hj
  | apply _ => exact hb
  | applyFails hd => exact fun _ => RunEnv.deliver_named hd

end Pineapple
