import Pineapple.OutputGates

/-! # Data-parallel shards (`parallel_execute` in `engine.cpp`, `parallel.go`)

The items are cut into windows, one shard for each. The shards run at once and share three things: the
first error, a context the first error cancels, and whether some shard was not run because of that context. -/

namespace Pineapple

def shardSizes (n total : Nat) : List Nat :=
  (List.range n).map fun i => total / n + if i < total % n then 1 else 0

/-- Windows of these sizes, one after the other. -/
def windowsFrom (cursor : Nat) : List Nat → List Window
  | [] => []
  | size :: rest => ⟨cursor, size⟩ :: windowsFrom (cursor + size) rest

/-- The windows of at most `n` shards over `total` items. -/
def shardWindows (n total : Nat) : List Window := windowsFrom 0 (shardSizes (min n total) total)

/-- A shard may only write and remove items and warn. -/
def OperatorOutput.Mergeable (out : OperatorOutput) : Prop :=
  out.calls .addItem = false ∧ out.calls .setItemOrder = false ∧ out.calls .setCommon = false

/-- `merge_shard_output`. -/
def mergeShardOutput (op : String) (offset : Nat) (src dst : OperatorOutput) : Outcome PineError OperatorOutput :=
  if src.calls .addItem || src.calls .setItemOrder || src.calls .setCommon then
    .fail (.panic op ("data_parallel shard emitted added_items, item_order, or common writes; " ++
      "only item_writes / removed_items / warnings are allowed")) dst
  else .ok { dst with
    itemWrites := dst.itemWrites ++ src.itemWrites.map (fun w => { w with index := w.index + offset }) ++
      src.columnWrites.flatMap fun cw => cw.vals.zipIdx.map fun e => ⟨(e.2 : Int) + offset, cw.field, .number e.1⟩
    removedItems := src.removedItems.keys.foldl (fun m idx => m.insert (idx + offset) ()) dst.removedItems
    warning := dst.warning.or src.warning }

def mergeShards (op : String) (outs : List (Window × OperatorOutput)) : Outcome PineError OperatorOutput :=
  Outcome.forEach (fun e => mergeShardOutput op e.1.offset e.2) outs {}

/-- An operator's complete output: what one execution on the whole frame returned, or the merged outputs of the
executions on all shards. `returned` says which outputs an execution may return. -/
inductive CompleteOutput (op : OperatorConfig) (returned : Row → OperatorOutput → Prop) : OperatorOutput → Prop
  | serial {resolved out} : returned resolved out → CompleteOutput op returned out
  | parallel {total resolved outs out} : outs.map Prod.fst = shardWindows op.dataParallel.toNat total →
      (∀ e ∈ outs, returned resolved e.2) → mergeShards op.name outs = .ok out → CompleteOutput op returned out

inductive ShardPhase where
  | waiting
  | running
  /-- not run, the context being cancelled -/
  | passed
  | done (out : OperatorOutput)
  | failed

/-- What the shards of one operator share. -/
structure Shards (ε : Type) where
  shards : List (Window × ShardPhase)
  firstErr : Option ε := none
  /-- the shards' own context, apart from the run's -/
  cancelled : Bool := false

namespace Shards
variable {ε : Type}

def start (windows : List Window) : Shards ε where
  shards := windows.map fun w => (w, .waiting)

def set (sh : Shards ε) (k : Nat) (phase : ShardPhase) : Shards ε :=
  { sh with shards := sh.shards.modify k fun e => (e.1, phase) }

def fail (sh : Shards ε) (e : ε) : Shards ε :=
  if sh.firstErr.isNone then { sh with firstErr := some e, cancelled := true } else sh

/-- Every shard is over. -/
def Over (sh : Shards ε) : Prop := ∀ e ∈ sh.shards, e.2 ≠ .waiting ∧ e.2 ≠ .running

def outputs (sh : Shards ε) : List (Window × OperatorOutput) :=
  sh.shards.filterMap fun e => match e.2 with
    | .done out => some (e.1, out)
    | _ => none

def skipped (sh : Shards ε) : Bool := sh.shards.any fun e => match e.2 with
  | .passed => true
  | _ => false

end Shards

/-- One step of one shard: `cancelled` is the run's context, and `dispatch` says how an execution over a window
may end. -/
inductive ShardStep {ε : Type} (dispatch : Window → Outcome ε OperatorOutput → Prop) (cancelled : Bool) :
    Shards ε → Shards ε → Prop
  | pass {sh k w} : sh.shards[k]? = some (w, .waiting) → (sh.cancelled || cancelled) = true →
      ShardStep dispatch cancelled sh (sh.set k .passed)
  | start {sh k w} : sh.shards[k]? = some (w, .waiting) → (sh.cancelled || cancelled) = false →
      ShardStep dispatch cancelled sh (sh.set k .running)
  | done {sh k w out} : sh.shards[k]? = some (w, .running) → dispatch w (.ok out) →
      ShardStep dispatch cancelled sh (sh.set k (.done out))
  | fail {sh k w e out} : sh.shards[k]? = some (w, .running) → dispatch w (.fail e out) →
      ShardStep dispatch cancelled sh ((sh.set k .failed).fail e)

/-- `ctx.Err()` as a text. -/
def contextError (deadlineExceeded : Bool) : String :=
  if deadlineExceeded then "context deadline exceeded" else "context canceled"

/-! ## What the shards have done so far -/

/-- The shards are those of `windows`, their outputs satisfy `P` and the first error satisfies `Q`. -/
structure ShardsInv {ε : Type} (windows : List Window) (P : OperatorOutput → Prop) (Q : ε → Prop) (sh : Shards ε) :
    Prop where
  windows : sh.shards.map Prod.fst = windows
  done : ∀ w out, (w, ShardPhase.done out) ∈ sh.shards → P out
  failed : ∀ w, (w, ShardPhase.failed) ∈ sh.shards → sh.firstErr.isSome = true
  error : ∀ e, sh.firstErr = some e → Q e

namespace ShardsInv
variable {ε : Type} {windows : List Window} {P : OperatorOutput → Prop} {Q : ε → Prop} {sh sh' : Shards ε}

theorem start (windows : List Window) : ShardsInv windows P Q (.start windows) := by
  refine ⟨?_, fun w out h => ?_, fun w h => ?_, fun _ => nofun⟩
  · unfold Shards.start
    rw [List.map_map]
    exact List.map_id _
  all_goals
    obtain ⟨_, -, heq⟩ := List.mem_map.mp h
    exact absurd (congrArg Prod.snd heq) nofun

theorem map_fst_set (sh : Shards ε) (k : Nat) (phase : ShardPhase) :
    (sh.set k phase).shards.map Prod.fst = sh.shards.map Prod.fst := by
  refine List.ext_getElem? fun j => ?_
  unfold Shards.set
  rw [List.getElem?_map, List.getElem?_map, List.getElem?_modify]
  cases sh.shards[j]? with
  | none => rfl
  | some e =>
    show some (if k = j then (e.1, phase) else e).1 = some e.1
    rw [apply_ite Prod.fst, ite_self]

theorem mem_set {k : Nat} {phase : ShardPhase} {e : Window × ShardPhase} (h : e ∈ (sh.set k phase).shards) :
    e ∈ sh.shards ∨ e.2 = phase := by
  obtain ⟨j, hj⟩ := List.getElem?_of_mem h
  unfold Shards.set at hj
  rw [List.getElem?_modify] at hj
  obtain ⟨e', he', rfl⟩ := Option.map_eq_some_iff.mp hj
  by_cases hk : k = j
  · rw [if_pos hk]
    exact Or.inr rfl
  · rw [if_neg hk]
    exact Or.inl (List.mem_of_getElem? he')

/-- A shard moves on to a phase that is neither of the two the invariant speaks of. -/
theorem move (h : ShardsInv windows P Q sh) (k : Nat) {phase : ShardPhase} (hd : ∀ out, phase ≠ .done out)
    (hf : phase ≠ .failed) : ShardsInv windows P Q (sh.set k phase) := by
  refine ⟨?_, fun w out hmem => ?_, fun w hmem => ?_, h.error⟩
  · rw [map_fst_set]
    exact h.windows
  · exact (mem_set hmem).elim (h.done w out) fun heq => absurd heq.symm (hd out)
  · exact (mem_set hmem).elim (h.failed w) fun heq => absurd heq.symm hf

theorem finish (h : ShardsInv windows P Q sh) (k : Nat) {out : OperatorOutput} (hout : P out) :
    ShardsInv windows P Q (sh.set k (.done out)) := by
  refine ⟨?_, fun w out' hmem => ?_, fun w hmem => ?_, h.error⟩
  · rw [map_fst_set]
    exact h.windows
  · exact (mem_set hmem).elim (h.done w out') fun heq => by cases heq; exact hout
  · exact (mem_set hmem).elim (h.failed w) fun heq => absurd heq nofun

theorem fail (h : ShardsInv windows P Q sh) (k : Nat) {e : ε} (he : Q e) :
    ShardsInv windows P Q ((sh.set k .failed).fail e) := by
  have hdone : ∀ w out, (w, ShardPhase.done out) ∈ (sh.set k .failed).shards → P out := fun w out hmem =>
    (mem_set hmem).elim (h.done w out) fun heq => absurd heq nofun
  have hwindows := h.windows
  rw [← map_fst_set sh k .failed] at hwindows
  unfold Shards.fail
  split
  · exact ⟨hwindows, hdone, fun _ _ => rfl, fun e' he' => Option.some.inj he' ▸ he⟩
  · next hsome =>
    exact ⟨hwindows, hdone, fun _ _ => Option.isSome_iff_ne_none.mpr fun hnone => hsome (by rw [hnone]; rfl), h.error⟩

theorem step {dispatch : Window → Outcome ε OperatorOutput → Prop} {cancelled : Bool} (h : ShardsInv windows P Q sh)
    (hok : ∀ w out, dispatch w (.ok out) → P out) (hfail : ∀ w e out, dispatch w (.fail e out) → Q e)
    (hs : ShardStep dispatch cancelled sh sh') : ShardsInv windows P Q sh' := by
  cases hs with
  | pass _ _ => exact h.move _ (fun _ => nofun) nofun
  | start _ _ => exact h.move _ (fun _ => nofun) nofun
  | done _ hd => exact h.finish _ (hok _ _ hd)
  | fail _ hd => exact h.fail _ (hfail _ _ _ hd)

/-- Without an error and without a shard passed over, every shard has an output. -/
theorem all_done (h : ShardsInv windows P Q sh) (hover : sh.Over) (herr : sh.firstErr = none)
    (hskip : sh.skipped = false) : ∀ e ∈ sh.shards, ∃ out, e.2 = .done out := by
  intro e he
  cases hphase : e.2 with
  | done out => exact ⟨out, rfl⟩
  | waiting => exact absurd hphase (hover e he).1
  | running => exact absurd hphase (hover e he).2
  | failed =>
    have hfailed := h.failed e.1 (by rw [← hphase]; exact he)
    rw [herr] at hfailed
    exact absurd hfailed Bool.false_ne_true
  | passed =>
    unfold Shards.skipped at hskip
    have := List.any_eq_false.mp hskip e he
    rw [hphase] at this
    exact absurd rfl this

theorem map_fst_outputs {shards : List (Window × ShardPhase)} (hall : ∀ e ∈ shards, ∃ out, e.2 = .done out) :
    ({ shards } : Shards ε).outputs.map Prod.fst = shards.map Prod.fst := by
  unfold Shards.outputs
  induction shards with
  | nil => rfl
  | cons e rest ih =>
    obtain ⟨w, phase⟩ := e
    obtain ⟨out, rfl⟩ := hall (w, phase) List.mem_cons_self
    exact congrArg (w :: ·) (ih fun e he => hall e (List.mem_cons_of_mem _ he))

theorem mem_outputs {e : Window × OperatorOutput} (h : e ∈ sh.outputs) : (e.1, ShardPhase.done e.2) ∈ sh.shards := by
  obtain ⟨⟨w, phase⟩, hmem, he⟩ := List.mem_filterMap.mp h
  cases phase with
  | done out =>
    obtain rfl := Option.some.inj he
    exact hmem
  | _ => exact absurd he nofun

/-- What is merged when every shard is done: an output for each window. -/
theorem complete (h : ShardsInv windows P Q sh) (hover : sh.Over) (herr : sh.firstErr = none)
    (hskip : sh.skipped = false) : sh.outputs.map Prod.fst = windows ∧ ∀ e ∈ sh.outputs, P e.2 := by
  have hfst : sh.outputs.map Prod.fst = sh.shards.map Prod.fst :=
    @map_fst_outputs ε sh.shards (h.all_done hover herr hskip)
  exact ⟨hfst.trans h.windows, fun e he => h.done e.1 e.2 (mem_outputs he)⟩

end ShardsInv

end Pineapple
