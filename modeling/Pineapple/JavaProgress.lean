import Mathlib.Algebra.Order.BigOperators.Group.Finset
import Pineapple.Containment
import Pineapple.JavaOrder

/-! # The tasks of a Java run

What a step of the run is to the executor, how much every task has before it, and what a task that a worker has
taken can be waiting for: the future of a predecessor, or that of one of its own shards. -/

namespace Pineapple
open WorkerPool (Move Advances)

variable {σ ι : Type} {env : JavaEnv σ ι} {g : Graph}

/-! ## What a step is to the executor -/

def JavaRunState.phase (s : JavaRunState σ ι) : JavaTask → WorkerPool.Phase
  | .node i => (s.bodies i).task
  | .shard i k => (((s.shards i).bind (·.phase? k)).map JavaShardPhase.task).getD .absent

def JavaLabel.move? : JavaLabel σ ι → Option (Move JavaTask)
  | submit i => some (.submit (.node i))
  | node i .start => some (.start (.node i))
  | node i (.submit k) => some (.submit (.shard i k))
  | node i .finish => some (.finish (.node i))
  | shard i k .start => some (.start (.shard i k))
  | shard i k .finish => some (.finish (.shard i k))
  | _ => none

namespace JavaRunState
variable {s s' : JavaRunState σ ι}

theorem phase_shard {i k : Nat} {sh : JavaShards ι} {phase : JavaShardPhase} (hsh : s.shards i = some sh)
    (hk : sh.phase? k = some phase) : s.phase (.shard i k) = phase.task := by
  show (((s.shards i).bind _).map _).getD _ = _
  rw [hsh, Option.bind_some, hk]
  rfl

theorem phase_shard_none {i k : Nat} (h : (s.shards i).bind (·.phase? k) = none) : s.phase (.shard i k) = .absent := by
  show (((s.shards i).bind _).map _).getD _ = _
  rw [h]
  rfl

theorem of_phase_shard {i k : Nat} (h : s.phase (.shard i k) ≠ .absent) :
    ∃ sh phase, s.shards i = some sh ∧ sh.phase? k = some phase ∧ phase.task = s.phase (.shard i k) := by
  cases hk : (s.shards i).bind (·.phase? k) with
  | none => exact (h (phase_shard_none hk)).elim
  | some phase =>
    obtain ⟨sh, hsh, hk⟩ := Option.bind_eq_some_iff.mp hk
    exact ⟨sh, phase, hsh, hk, (phase_shard hsh hk).symm⟩

theorem phase_shard_congr {i k : Nat} (h : (s'.shards i).bind (·.phase? k) = (s.shards i).bind (·.phase? k)) :
    s'.phase (.shard i k) = s.phase (.shard i k) := by
  show (((s'.shards i).bind _).map _).getD _ = (((s.shards i).bind _).map _).getD _
  rw [h]

end JavaRunState

namespace JavaBodyStep
variable {s : JavaRunState σ ι} {i : Nat} {b b' : JavaBody ι} {eff : JavaEffect σ ι}

/-- Apart from its first and its last step a task keeps its worker. -/
theorem tasks (h : JavaBodyStep env g s i b eff b') : (eff = .start ∧ b.task = .queued ∧ b'.task = .running) ∨
    (eff = .finish ∧ b.task = .running ∧ b'.task = .ended) ∨
    eff ≠ .start ∧ eff ≠ .finish ∧ b.task = .running ∧ b'.task = .running := by
  cases h with
  | start => exact .inl ⟨rfl, rfl, rfl⟩
  | finish => exact .inr (.inl ⟨rfl, rfl, rfl⟩)
  | _ => exact .inr (.inr ⟨nofun, nofun, rfl, rfl⟩)

end JavaBodyStep

namespace JavaStep
variable {s s' : JavaRunState σ ι} {l : JavaLabel σ ι}

theorem node_phase {i : Nat} {eff : JavaEffect σ ι} (hs : JavaStep env g (.node i eff) s s') (t : JavaTask)
    (ht : t.owner ≠ i) : s'.phase t = s.phase t := by
  cases t with
  | node j =>
    rcases hs.body j with ⟨hsame, -⟩ | ⟨_, heq, -⟩ | ⟨heq, -⟩
    · exact congrArg JavaBody.task hsame
    · cases heq
      exact (ht rfl).elim
    · cases heq
  | shard j k =>
    rcases hs.shards j with heq | ⟨_, heq, -⟩ | ⟨_, _, _, _, heq, -⟩ | ⟨heq, -⟩
    · exact JavaRunState.phase_shard_congr (by rw [heq])
    · cases heq
      exact (ht rfl).elim
    · cases heq
    · cases heq

/-- Among the shards of a node, its own steps change only the one they submit. -/
theorem node_shard_phase (h : JavaForkInv g s) {i k : Nat} {eff : JavaEffect σ ι}
    (hs : JavaStep env g (.node i eff) s s') (hk : eff ≠ .submit k) : s'.phase (.shard i k) = s.phase (.shard i k) := by
  obtain ⟨_, heq, hb⟩ : ∃ eff', JavaLabel.node i eff = JavaLabel.node i eff' ∧
      JavaBodyStep env g s i (s.bodies i) eff' (s'.bodies i) := by
    rcases hs.body i with ⟨-, hl⟩ | ⟨eff', heq, hb⟩ | ⟨heq, -⟩
    · exact (hl eff rfl).elim
    · exact ⟨eff', heq, hb⟩
    · cases heq
  cases heq
  have hshards := hs.shards_node
  rcases JavaForkInv.node_shards hb with ⟨sh, n, rfl, hstage, -, -, hphases⟩ | ⟨n, j, rfl, -, hbody, -⟩ | ⟨⟨hf, hsub⟩, -⟩
  · have hold := h.unforked i (by rw [hstage]; exact Nat.lt_succ_of_le (Nat.le_succ 7))
    rw [@JavaRunState.phase_shard_none σ ι s i k (by rw [hold]; rfl)]
    cases hk : sh.phase? k with
    | none => exact JavaRunState.phase_shard_none (by rw [hshards]; exact hk)
    | some phase =>
      rw [JavaRunState.phase_shard hshards hk, hphases k phase hk]
      rfl
  · obtain ⟨-, sh, hsh, -⟩ := h.loop i n j (by rw [hbody]; rfl)
    refine JavaRunState.phase_shard_congr ?_
    rw [hshards, hsh]
    show (sh.set j .queued).phase? k = sh.phase? k
    rw [JavaShards.phase?_set, if_neg fun heq => hk (congrArg _ heq)]
  · cases hold : s.shards i with
    | none =>
      refine JavaRunState.phase_shard_congr ?_
      rw [hshards, hold]
      cases eff with
      | fork sh => exact (hf sh rfl).elim
      | _ => rfl
    | some sh =>
      obtain ⟨sh', hsh', -, hphases⟩ := hs.keeps hold fun eff' heq => by
        cases heq
        exact ⟨hf, hsub⟩
      rcases hphases k with hsame | ⟨_, _, _, heq, -⟩
      · refine JavaRunState.phase_shard_congr ?_
        rw [hsh', hold]
        exact hsame
      · cases heq

theorem eq_update {phase phase' : JavaTask → WorkerPool.Phase} {t : JavaTask} {x : WorkerPool.Phase} (ht : phase' t = x)
    (hne : ∀ u ≠ t, phase' u = phase u) : phase' = Function.update phase t x := by
  funext u
  by_cases hu : u = t
  · rw [hu, Function.update_self, ht]
  · rw [Function.update_of_ne hu, hne u hu]

/-- A step is to the executor what its label says. -/
theorem advances (h : JavaForkInv g s) (hs : JavaStep env g l s s') : Advances l.move? s.phase s'.phase := by
  cases l with
  | caller =>
    refine funext fun t => ?_
    cases t with
    | node i =>
      rcases hs.body i with ⟨hsame, -⟩ | ⟨_, heq, -⟩ | ⟨heq, -⟩
      · exact congrArg JavaBody.task hsame
      · cases heq
      · cases heq
    | shard i k =>
      refine JavaRunState.phase_shard_congr ?_
      rcases hs.shards i with heq | ⟨_, heq, -⟩ | ⟨_, _, _, _, heq, -⟩ | ⟨-, heq⟩
      · rw [heq]
      · cases heq
      · cases heq
      · rw [heq]
        cases s.shards i <;> rfl
  | main =>
    cases hs with
    | main hm =>
      refine funext fun t => ?_
      obtain ⟨hbodies, hshards, -⟩ := hm.frame
      cases t with
      | node i => exact congrArg JavaBody.task (congrFun hbodies i)
      | shard i k => exact JavaRunState.phase_shard_congr (by rw [hshards])
  | submit i =>
    cases hs with
    | submit hmain hi =>
      refine ⟨(h.inv.submitted i).mpr (by rw [hmain]; exact le_refl i), eq_update ?_ fun u hu => ?_⟩
      · show (Function.update s.bodies i .queued i).task = _
        rw [Function.update_self]
        rfl
      · cases u with
        | node j =>
          show (Function.update s.bodies i .queued j).task = _
          rw [Function.update_of_ne fun heq => hu (congrArg _ heq)]
          rfl
        | shard j k => rfl
  | shard i k act =>
    cases hs with
    | @shard _ _ _ sh _ sh' hsh hstep =>
      obtain ⟨phase, phase', hk, hk', hmove⟩ := hstep.phase_self
      have hold := JavaRunState.phase_shard hsh hk
      have hnew : JavaRunState.phase { s with
          shards := Function.update s.shards i (some sh')
          begun := if act = .begin then s.begun ++ [.shard i k] else s.begun } (.shard i k) = phase'.task :=
        JavaRunState.phase_shard (Function.update_self ..) hk'
      have hother : ∀ u ≠ JavaTask.shard i k, JavaRunState.phase { s with
          shards := Function.update s.shards i (some sh')
          begun := if act = .begin then s.begun ++ [.shard i k] else s.begun } u = s.phase u := by
        intro u hu
        cases u with
        | node j => rfl
        | shard j m =>
          refine JavaRunState.phase_shard_congr ?_
          show (Function.update s.shards i (some sh') j).bind _ = _
          by_cases hj : j = i
          · subst hj
            rw [Function.update_self, hsh]
            exact hstep.phase_of_ne fun heq => hu (by rw [heq])
          · rw [Function.update_of_ne hj]
      rw [hmove.before] at hold
      rw [hmove.after] at hnew
      cases act with
      | start => exact ⟨hold, eq_update hnew hother⟩
      | finish => exact ⟨hold, eq_update hnew hother⟩
      | begin | inner =>
        refine funext fun u => ?_
        by_cases hu : u = .shard i k
        · rw [hu, hnew, hold]
          rfl
        · exact hother u hu
  | node i eff =>
    have hbody : JavaBodyStep env g s i (s.bodies i) eff (s'.bodies i) := by
      rcases hs.body i with ⟨-, hl⟩ | ⟨eff', heq, hb⟩ | ⟨heq, -⟩
      · exact (hl eff rfl).elim
      · cases heq
        exact hb
      · cases heq
    -- the other tasks of the node
    have hshards : (∀ k, eff ≠ .submit k) → ∀ u ≠ JavaTask.node i, s'.phase u = s.phase u := by
      intro heff u hu
      by_cases howner : u.owner = i
      · cases u with
        | node j => exact (hu (congrArg _ howner)).elim
        | shard j k =>
          cases howner
          exact hs.node_shard_phase h (heff k)
      · exact hs.node_phase u howner
    rcases hbody.tasks with ⟨rfl, hold, hnew⟩ | ⟨rfl, hold, hnew⟩ | ⟨hstart, hfinish, hold, hnew⟩
    · exact ⟨hold, eq_update hnew (hshards fun _ => nofun)⟩
    · exact ⟨hold, eq_update hnew (hshards fun _ => nofun)⟩
    · have hnode : s'.phase (.node i) = s.phase (.node i) := hnew.trans hold.symm
      have hinner : (∀ k, eff ≠ .submit k) → s'.phase = s.phase := by
        intro heff
        refine funext fun u => ?_
        by_cases hu : u = .node i
        · rw [hu, hnode]
        · exact hshards heff u hu
      cases eff with
      | start => exact (hstart rfl).elim
      | finish => exact (hfinish rfl).elim
      | submit k =>
        rcases JavaForkInv.node_shards hbody with ⟨_, _, heq, -⟩ | ⟨n, j, heq, hlt, hb, -⟩ | ⟨⟨-, hsub⟩, -⟩
        · cases heq
        · cases heq
          obtain ⟨-, sh, hsh, hlen⟩ := h.loop i n k (by rw [hb]; rfl)
          obtain ⟨phase, hk⟩ := Option.isSome_iff_exists.mp (JavaShards.phase?_isSome.mpr (by rw [hlen]; exact hlt))
          have hnew : s'.shards i = some (sh.set k .queued) := by
            rw [hs.shards_node, hsh]
            rfl
          have hqueued : (sh.set k .queued).phase? k = some .queued := by
            rw [JavaShards.phase?_set, if_pos rfl, hk]
            rfl
          refine ⟨?_, eq_update (JavaRunState.phase_shard hnew hqueued) fun u hu => ?_⟩
          · rw [JavaRunState.phase_shard hsh hk]
            exact (h.absent i sh hsh k phase hk).mpr ⟨n, k, hb, le_refl k⟩
          · by_cases howner : u.owner = i
            · cases u with
              | node j => exact (congrArg s'.phase (congrArg _ howner)).trans (hnode.trans (by rw [← howner]; rfl))
              | shard j m =>
                cases howner
                exact hs.node_shard_phase h fun heq => hu (by cases heq; rfl)
            · exact hs.node_phase u howner
        · exact (hsub k rfl).elim
      | _ => exact hinner fun _ => nofun

end JavaStep

/-! ## The work that is left -/

def JavaShardPhase.left : JavaShardPhase → Nat
  | unsubmitted => 5
  | queued => 4
  | started => 3
  | running => 2
  | failing => 1
  | done _ | failed | passed => 0

namespace JavaShards
variable {sh : JavaShards ι} {k : Nat}

def left (sh : JavaShards ι) : Nat := (sh.shards.map fun e => e.2.left).sum + if sh.cancelled then 0 else 1

theorem left_set_lt {phase phase' : JavaShardPhase} (hk : sh.phase? k = some phase) (hlt : phase'.left < phase.left) :
    (sh.set k phase').left < sh.left := by
  unfold phase? at hk
  obtain ⟨e, he, rfl⟩ := Option.map_eq_some_iff.mp hk
  have := sum_modify_lt (fun e : Window × JavaShardPhase => e.2.left) (fun e => (e.1, phase')) he hlt
  exact Nat.add_lt_add_right this _

theorem left_set_le (sh : JavaShards ι) (k : Nat) (phase : JavaShardPhase) : (sh.set k phase).left ≤ sh.left + phase.left := by
  have hsum : ∀ (l : List (Window × JavaShardPhase)) (k : Nat),
      ((l.modify k fun e => (e.1, phase)).map fun e => e.2.left).sum ≤ (l.map fun e => e.2.left).sum + phase.left := by
    intro l
    induction l with
    | nil => intro k; cases k <;> exact Nat.zero_le _
    | cons e rest ih =>
      intro k
      cases k with
      | zero =>
        simp only [List.modify_zero_cons, List.map_cons, List.sum_cons]
        omega
      | succ k =>
        have := ih k
        simp only [List.modify_succ_cons, List.map_cons, List.sum_cons]
        omega
  have := hsum sh.shards k
  unfold left
  show (List.map _ (List.modify _ _ _)).sum + (if sh.cancelled then 0 else 1) ≤ _
  omega

theorem left_cancel_le (sh : JavaShards ι) : sh.cancel.left ≤ sh.left := by
  unfold left cancel
  simp

theorem left_start (input : ι) (r : Row) (windows : List Window) : (start input r windows).left = 5 * windows.length + 1 := by
  have hsum : (windows.map fun _ => 5).sum = 5 * windows.length := by
    simp [Nat.mul_comm]
  unfold left start
  rw [List.map_map]
  exact congrArg (· + 1) hsum

end JavaShards

theorem JavaShardStep.left_lt {p : NodePlan} {k : Nat} {act : JavaShardAct} {sh sh' : JavaShards ι}
    (h : JavaShardStep env p k sh act sh') : sh'.left < sh.left := by
  cases h with
  | start hk => exact JavaShards.left_set_lt hk (Nat.lt_succ_self 3)
  | pass hk _ => exact JavaShards.left_set_lt hk (Nat.zero_lt_succ 2)
  | begin hk _ => exact JavaShards.left_set_lt hk (Nat.lt_succ_self 2)
  | done hk _ | failLate hk _ _ => exact JavaShards.left_set_lt (JavaShards.phase?_eq_of_get hk) Nat.zero_lt_two
  | @fail w e hk _ _ =>
    have hraise : (sh.raise (e.ofShard p.op.name)).left = sh.left := rfl
    rw [← hraise]
    exact JavaShards.left_set_lt (JavaShards.phase?_eq_of_get hk) Nat.one_lt_two
  | cancel hk =>
    exact Nat.lt_of_lt_of_le (@JavaShards.left_set_lt ι sh.cancel k _ _ hk Nat.zero_lt_one) sh.left_cancel_le

/-- How many steps a task has before it, at most: `n` futures to force, `d` shards at most, `m` predecessors. -/
def JavaBody.left (n d m : Nat) : JavaBody ι → Nat
  | unsubmitted => 12 * d + n + m + 20
  | queued => 12 * d + n + m + 19
  | waiting rest => 12 * d + n + rest.length + 18
  | unfailed => 12 * d + n + 17
  | entered => 12 * d + n + 16
  | building => 12 * d + n + 15
  | resolving _ => 12 * d + n + 14
  | ready _ _ => 12 * d + n + 13
  | running _ _ => n + 9
  | forking total k => 6 * (total - k) + total + n + 11
  | merging total k _ => total - k + n + 10
  | joined _ => n + 9
  | executed _ => n + 8
  | produced _ => n + 7
  | warned _ => n + 6
  | applied _ => 2
  | unapplied _ => n + 5
  | failing _ => n + 4
  | cancelling _ => n + 3
  | forcing _ rest => rest.length + 2
  | leaving _ => 1
  | ended _ => 0

def JavaMain.left (n : Nat) : JavaMain → Nat
  | submitting k => n - k + 7
  | awaiting => 6
  | joined => 5
  | collected _ _ => 4
  | projected _ _ _ => 3
  | closing _ => 2
  | returned _ => 1
  | released _ => 0

namespace JavaRunState

/-- What the task of a node and its shards have before them. -/
def nodeLeft (env : JavaEnv σ ι) (g : Graph) (s : JavaRunState σ ι) (i : Nat) : Nat :=
  (s.bodies i).left g.nodes.length (env.node i).op.dataParallel.toNat (g.preds i).length +
    ((s.shards i).map JavaShards.left).getD 0

def left (env : JavaEnv σ ι) (g : Graph) (s : JavaRunState σ ι) : Nat :=
  ∑ i ∈ Finset.range g.nodes.length, s.nodeLeft env g i + s.main.left g.nodes.length +
    (if s.callerDone then 0 else 1) + if s.cancelled then 0 else 1

variable {s s' : JavaRunState σ ι}

theorem left_lt_of_node {i : Nat} (hi : i < g.nodes.length) (hlt : s'.nodeLeft env g i < s.nodeLeft env g i)
    (hne : ∀ j ≠ i, s'.nodeLeft env g j = s.nodeLeft env g j) (hmain : s'.main.left g.nodes.length ≤ s.main.left g.nodes.length)
    (hcaller : s'.callerDone = s.callerDone) (hcancelled : s.cancelled = true → s'.cancelled = true) :
    s'.left env g < s.left env g := by
  have hsum : ∑ j ∈ Finset.range g.nodes.length, s'.nodeLeft env g j < ∑ j ∈ Finset.range g.nodes.length, s.nodeLeft env g j := by
    refine Finset.sum_lt_sum (fun j _ => ?_) ⟨i, Finset.mem_range.mpr hi, hlt⟩
    by_cases hj : j = i
    · subst hj
      exact hlt.le
    · exact (hne j hj).le
  have hflag : (if s'.cancelled then 0 else 1) ≤ if s.cancelled then 0 else 1 := by
    cases hc : s.cancelled with
    | true => rw [hcancelled hc]
    | false => cases s'.cancelled <;> simp
  unfold left
  rw [hcaller]
  omega

end JavaRunState

theorem JavaBodyStep.left_lt {s : JavaRunState σ ι} {i : Nat} {b b' : JavaBody ι} {eff : JavaEffect σ ι}
    (h : JavaBodyStep env g s i b eff b') (hnone : b.stage < 9 → s.shards i = none) :
    b'.left g.nodes.length (env.node i).op.dataParallel.toNat (g.preds i).length +
        ((eff.onShards (s.shards i)).map JavaShards.left).getD 0 <
      b.left g.nodes.length (env.node i).op.dataParallel.toNat (g.preds i).length +
        ((s.shards i).map JavaShards.left).getD 0 := by
  cases h with
  | @fork input _ _ hdp hcount hwindows =>
    have hlen := length_shardWindows_le (env.node i).op.dataParallel.toNat (env.itemCount input)
    rw [← hwindows] at hlen
    rw [hnone (Nat.lt_succ_of_le (Nat.le_succ 7))]
    show _ + (JavaShards.start _ _ _).left < _ + 0
    rw [JavaShards.left_start]
    simp only [JavaBody.left]
    omega
  | @submit n k hk =>
    have hset : (((s.shards i).map fun sh => sh.set k .queued).map JavaShards.left).getD 0 ≤
        ((s.shards i).map JavaShards.left).getD 0 + 4 := by
      cases s.shards i with
      | none => exact Nat.zero_le _
      | some sh => exact sh.left_set_le k .queued
    change _ + (((s.shards i).map fun sh => sh.set k .queued).map JavaShards.left).getD 0 < _
    simp only [JavaBody.left]
    omega
  | interrupt _ _ _ hk =>
    have hle : (((s.shards i).map fun sh => if sh.firstError.isNone then (sh.raise JavaRunState.interruption).cancel
        else sh).map JavaShards.left).getD 0 ≤ ((s.shards i).map JavaShards.left).getD 0 := by
      cases s.shards i with
      | none => exact le_refl 0
      | some sh =>
        simp only [Option.map_some, Option.getD_some]
        split
        · exact (sh.raise JavaRunState.interruption).left_cancel_le
        · exact le_refl _
    change _ + (((s.shards i).map _).map JavaShards.left).getD 0 < _
    simp only [JavaBody.left]
    omega
  | leaveShards =>
    have hle : (((s.shards i).map JavaShards.cancel).map JavaShards.left).getD 0 ≤
        ((s.shards i).map JavaShards.left).getD 0 := by
      cases s.shards i with
      | none => exact le_refl 0
      | some sh => exact sh.left_cancel_le
    change _ + (((s.shards i).map JavaShards.cancel).map JavaShards.left).getD 0 < _
    simp only [JavaBody.left]
    omega
  | _ =>
    simp only [JavaBody.left, JavaEffect.onShards, List.length_cons, List.length_range]
    omega

namespace JavaStep
variable {s s' : JavaRunState σ ι} {l : JavaLabel σ ι}

theorem lt_of_not_absent (h : JavaRunInv g s) {i : Nat} (hi : (s.bodies i).task ≠ .absent) : i < g.nodes.length := by
  by_contra hge
  exact hi ((h.submitted i).mpr (h.bound.trans (Nat.le_of_not_lt hge)))

theorem lt_of_shards (h : JavaForkInv g s) {i : Nat} {sh : JavaShards ι} (hsh : s.shards i = some sh) :
    i < g.nodes.length := by
  refine lt_of_not_absent h.inv fun habsent => ?_
  have hnone := h.unforked i (by
    generalize s.bodies i = b at habsent
    cases b <;> first | exact Nat.zero_lt_succ 8 | cases habsent)
  rw [hsh] at hnone
  cases hnone

/-- Every step leaves less to do. -/
theorem left_lt (h : JavaForkInv g s) (hs : JavaStep env g l s s') : s'.left env g < s.left env g := by
  cases hs with
  | @node _ i b eff b' hb hstep =>
    have hi : i < g.nodes.length := lt_of_not_absent h.inv (by rw [hb]; exact hstep.task_ne_absent.1)
    refine JavaRunState.left_lt_of_node hi ?_ (fun j hj => ?_) (by rw [JavaRunState.main_move])
      JavaRunState.callerDone_move JavaRunState.cancelled_mono
    · unfold JavaRunState.nodeLeft
      rw [JavaRunState.bodies_move, JavaRunState.shards_move, Function.update_self, Function.update_self, hb]
      exact hstep.left_lt fun hstage => h.unforked i (by rw [hb]; exact hstage)
    · unfold JavaRunState.nodeLeft
      rw [JavaRunState.bodies_move, JavaRunState.shards_move, Function.update_of_ne hj, Function.update_of_ne hj]
  | @shard _ i k sh act sh' hsh hstep =>
    refine JavaRunState.left_lt_of_node (lt_of_shards h hsh) ?_ (fun j hj => ?_) (le_refl _) rfl id
    · show _ + ((Function.update s.shards i (some sh') i).map _).getD 0 < _ + _
      rw [Function.update_self, hsh]
      exact Nat.add_lt_add_left hstep.left_lt _
    · show _ + ((Function.update s.shards i (some sh') j).map _).getD 0 = _
      rw [Function.update_of_ne hj]
      rfl
  | @submit _ i hmain hi =>
    have habsent := (h.inv.submitted i).mpr (by rw [hmain]; exact le_refl i)
    refine JavaRunState.left_lt_of_node hi ?_ (fun j hj => ?_) ?_ rfl id
    · show (Function.update s.bodies i .queued i).left _ _ _ + _ < (s.bodies i).left _ _ _ + _
      rw [Function.update_self]
      generalize s.bodies i = b at habsent
      cases b <;> first | exact Nat.add_lt_add_right (Nat.lt_succ_self _) _ | cases habsent
    · show (Function.update s.bodies i .queued j).left _ _ _ + _ = _
      rw [Function.update_of_ne hj]
      rfl
    · rw [hmain]
      simp only [JavaMain.left]
      omega
  | main hm =>
    have hnode : ∀ i, s'.nodeLeft env g i = s.nodeLeft env g i := by
      intro i
      unfold JavaRunState.nodeLeft
      rw [hm.frame.1, hm.frame.2.1]
    have hmain : s'.main.left g.nodes.length < s.main.left g.nodes.length := by
      cases hm with
      | submitted heq | join heq _ | collectCancelled heq _ _ | collect heq _ | projectCommon heq | projectItems heq
      | close heq | release heq =>
        rw [heq]
        simp [JavaMain.left]
    have hflags : s'.callerDone = s.callerDone ∧ ((if s'.cancelled then 0 else 1) ≤ if s.cancelled then 0 else 1) := by
      cases hm with
      | close _ => exact ⟨rfl, Nat.zero_le _⟩
      | _ => exact ⟨rfl, le_refl _⟩
    have hsum : ∑ i ∈ Finset.range g.nodes.length, s'.nodeLeft env g i =
        ∑ i ∈ Finset.range g.nodes.length, s.nodeLeft env g i := Finset.sum_congr rfl fun i _ => hnode i
    unfold JavaRunState.left
    rw [hsum, hflags.1]
    have := hflags.2
    omega
  | callerCancel hd =>
    show _ + _ + 0 + _ < _ + _ + _ + _
    rw [hd]
    show _ < _ + _ + 1 + _
    exact Nat.add_lt_add_right (Nat.lt_succ_self _) _
  | runCancel _ hc =>
    show _ + 0 < _ + _
    rw [hc]
    exact Nat.lt_succ_self _
  | @shardsCancel _ i sh _ hsh hc =>
    refine JavaRunState.left_lt_of_node (lt_of_shards h hsh) ?_ (fun j hj => ?_) (le_refl _) rfl id
    · show _ + ((Function.update s.shards i _ i).map _).getD 0 < _ + _
      rw [Function.update_self, hsh]
      refine Nat.add_lt_add_left ?_ _
      show sh.cancel.left < sh.left
      unfold JavaShards.left
      rw [hc]
      exact Nat.lt_succ_self _
    · show _ + ((Function.update s.shards i _ j).map _).getD 0 = _
      rw [Function.update_of_ne hj]
      rfl

end JavaStep

/-! ## What a task waits for -/

/-- Operators come to an end, one way or another. -/
def JavaEnv.Ends (env : JavaEnv σ ι) (p : NodePlan) : Prop := ∀ input resolved, ∃ res, env.exec p.op input resolved res

/-- Neither the caller's doing nor an interruption. -/
def JavaLabel.isWork : JavaLabel σ ι → Bool
  | node _ .interrupted | caller => false
  | _ => true

/-- A step that needs no other worker than the one of `t`. -/
def Own (t : JavaTask) (m : Option (Move JavaTask)) : Prop := m = none ∨ m = some (.finish t) ∨ ∃ u, m = some (.submit u)

/-- Some step of `t` itself can be made. -/
def JavaRunState.Moves (env : JavaEnv σ ι) (g : Graph) (s : JavaRunState σ ι) (t : JavaTask) : Prop :=
  ∃ l s', JavaStep env g l s s' ∧ l.isWork = true ∧ Own t l.move?

namespace JavaRunState
variable {s : JavaRunState σ ι}

theorem starts {t : JavaTask} (ht : s.phase t = .queued) :
    ∃ l s', JavaStep env g l s s' ∧ l.isWork = true ∧ l.move? = some (.start t) := by
  cases t with
  | node i =>
    have hb : s.bodies i = .queued := by
      change (s.bodies i).task = .queued at ht
      generalize s.bodies i = b at ht
      cases b <;> first | rfl | cases ht
    exact ⟨_, _, .node hb .start, rfl, rfl⟩
  | shard i k =>
    obtain ⟨sh, phase, hsh, hk, htask⟩ := of_phase_shard (s := s) (i := i) (k := k) (by rw [ht]; exact nofun)
    rw [ht] at htask
    have hphase : phase = .queued := by
      cases phase <;> first | rfl | cases htask
    rw [hphase] at hk
    exact ⟨_, _, .shard hsh (.start hk), rfl, rfl⟩

theorem shard_moves {i k : Nat} (hends : env.Ends (env.node i)) (ht : s.phase (.shard i k) = .running) :
    s.Moves env g (.shard i k) := by
  obtain ⟨sh, phase, hsh, hk, htask⟩ := of_phase_shard (s := s) (i := i) (k := k) (by rw [ht]; exact nofun)
  rw [ht] at htask
  obtain ⟨⟨w, phase⟩, hget, rfl⟩ := Option.map_eq_some_iff.mp hk
  cases phase with
  | started =>
    cases hc : sh.cancelled with
    | true => exact ⟨_, _, .shard hsh (.pass hk hc), rfl, .inr (.inl rfl)⟩
    | false => exact ⟨_, _, .shard hsh (.begin hk hc), rfl, .inl rfl⟩
  | running =>
    obtain ⟨res, hres⟩ := hends (env.shard sh.input w) sh.resolved
    cases res with
    | ok out => exact ⟨_, _, .shard hsh (.done hget hres), rfl, .inr (.inl rfl)⟩
    | error e =>
      cases herr : sh.firstError with
      | none => exact ⟨_, _, .shard hsh (.fail hget hres herr), rfl, .inl rfl⟩
      | some _ => exact ⟨_, _, .shard hsh (.failLate hget hres (by rw [herr]; rfl)), rfl, .inr (.inl rfl)⟩
  | failing => exact ⟨_, _, .shard hsh (.cancel hk), rfl, .inr (.inl rfl)⟩
  | _ => cases htask

theorem mergeShardOutput_panics {op : String} {offset : Nat} {src dst out : OperatorOutput} {e : PineError}
    (h : mergeShardOutput op offset src dst = .fail e out) : ∃ value, e = .panic op value := by
  unfold mergeShardOutput at h
  split at h
  · cases h
    exact ⟨_, rfl⟩
  · cases h

/-- The loop over the futures of the shards goes on, or waits for one that is not over. -/
theorem merging_moves (h : JavaForkInv g s) {i n k : Nat} {merged : OperatorOutput}
    (hb : s.bodies i = .merging n k merged) : s.Moves env g (.node i) ∨
      ∃ k, s.phase (.shard i k) = .queued ∨ s.phase (.shard i k) = .running := by
  obtain ⟨hle, sh, hsh, hlen⟩ := h.loop i n k (by rw [hb]; rfl)
  rcases Nat.lt_or_eq_of_le hle with hlt | rfl
  · obtain ⟨phase, hk⟩ := Option.isSome_iff_exists.mp (JavaShards.phase?_isSome.mpr (by rw [hlen]; exact hlt))
    have hphase := phase_shard hsh hk
    obtain ⟨⟨w, phase⟩, hget, rfl⟩ := Option.map_eq_some_iff.mp hk
    cases phase with
    | unsubmitted =>
      obtain ⟨_, _, heq, -⟩ := (h.absent i sh hsh k _ hk).mp rfl
      rw [hb] at heq
      cases heq
    | queued => exact .inr ⟨k, .inl hphase⟩
    | started | running | failing => exact .inr ⟨k, .inr hphase⟩
    | done out =>
      cases hm : mergeShardOutput (env.node i).op.name w.offset out merged with
      | ok merged' => exact .inl ⟨_, _, .node hb (.get hsh hget hm hlt), rfl, .inl rfl⟩
      | fail e dst =>
        obtain ⟨value, rfl⟩ := mergeShardOutput_panics hm
        exact .inl ⟨_, _, .node hb (.getPanics hsh hget hm hlt), rfl, .inl rfl⟩
    | failed | passed => exact .inl ⟨_, _, .node hb (.getNull hsh hk rfl hlt), rfl, .inl rfl⟩
  · cases herr : sh.firstError with
    | some e => exact .inl ⟨_, _, .node hb (.mergeFails hsh herr), rfl, .inl rfl⟩
    | none =>
      cases hskip : sh.skipped with
      | true => exact .inl ⟨_, _, .node hb (@JavaBodyStep.mergeSkipped _ _ _ _ _ _ _ _ _ false hsh herr hskip), rfl, .inl rfl⟩
      | false => exact .inl ⟨_, _, .node hb (.merge hsh herr hskip), rfl, .inl rfl⟩

/-- A task with a worker can go on, or joins a future that is not complete, or waits for one of its shards. -/
theorem node_moves (h : JavaForkInv g s) {i : Nat} (hends : env.Ends (env.node i))
    (ht : s.phase (.node i) = .running) : s.Moves env g (.node i) ∨
      (∃ v rest, s.bodies i = .waiting (v :: rest) ∧ s.completed v = false) ∨
      ∃ k, s.phase (.shard i k) = .queued ∨ s.phase (.shard i k) = .running := by
  have hgo : ∀ {b b' eff}, s.bodies i = b → JavaBodyStep env g s i b eff b' →
      (JavaLabel.node i eff : JavaLabel σ ι).isWork = true → Own (.node i) (JavaLabel.node i eff : JavaLabel σ ι).move? →
      s.Moves env g (.node i) := fun hb hstep hwork hown => ⟨_, _, .node hb hstep, hwork, hown⟩
  change (s.bodies i).task = .running at ht
  cases hb : s.bodies i with
  | unsubmitted | queued | ended _ =>
    rw [hb] at ht
    cases ht
  | waiting rest =>
    cases rest with
    | nil =>
      cases hf : s.fatal with
      | none => exact .inl (hgo hb (.check hf) rfl (.inl rfl))
      | some _ => exact .inl (hgo hb (.checkStops (by rw [hf]; rfl)) rfl (.inl rfl))
    | cons v rest =>
      cases hc : s.completed v with
      | false => exact .inr (.inl ⟨v, rest, rfl, hc⟩)
      | true =>
        cases hf : s.fatal with
        | none => exact .inl (hgo hb (.join hc hf) rfl (.inl rfl))
        | some _ => exact .inl (hgo hb (.joinStops hc (by rw [hf]; rfl)) rfl (.inl rfl))
  | unfailed =>
    cases hc : s.cancelled with
    | true => exact .inl (hgo hb (.pass hc) rfl (.inl rfl))
    | false => exact .inl (hgo hb (.enter hc) rfl (.inl rfl))
  | entered =>
    cases hskip : env.shouldSkip (env.node i) s.frame with
    | true => exact .inl (hgo hb (.skip hskip) rfl (.inl rfl))
    | false => exact .inl (hgo hb (.goOn hskip) rfl (.inl rfl))
  | building =>
    cases hbuild : env.buildInput s.frame (env.node i).spec with
    | ok input => exact .inl (hgo hb (.build hbuild) rfl (.inl rfl))
    | error msg => exact .inl (hgo hb (.buildFails hbuild) rfl (.inl rfl))
  | resolving input =>
    cases hr : env.resolve s.frame (env.node i).template with
    | ok r => exact .inl (hgo hb (.resolve hr) rfl (.inl rfl))
    | error msg => exact .inl (hgo hb (.resolveFails hr) rfl (.inl rfl))
  | ready input r =>
    by_cases hserial : (env.node i).op.dataParallel ≤ 1 ∨ env.itemCount input ≤ 1
    · exact .inl (hgo hb (.serial hserial) rfl (.inl rfl))
    · rw [not_or, Int.not_le, Nat.not_le] at hserial
      exact .inl (hgo hb (.fork hserial.1 hserial.2 rfl) rfl (.inl rfl))
  | running input r =>
    obtain ⟨res, hres⟩ := hends input r
    by_cases herr : ∀ e, res = .error e → e.isError = false
    · exact .inl (hgo hb (.executed hres herr) rfl (.inl rfl))
    · push Not at herr
      obtain ⟨e, rfl, he⟩ := herr
      exact .inl (hgo hb (.errors hres (Bool.eq_true_of_not_eq_false he)) rfl (.inl rfl))
  | forking n k =>
    rcases Nat.lt_or_eq_of_le (h.loop i n k (by rw [hb]; rfl)).1 with hlt | rfl
    · exact .inl (hgo hb (.submit hlt) rfl (.inr (.inr ⟨_, rfl⟩)))
    · exact .inl (hgo hb .submitted rfl (.inl rfl))
  | merging n k merged => exact (merging_moves h hb).imp_right .inr
  | joined res => exact .inl (hgo hb .leaveShards rfl (.inl rfl))
  | executed res =>
    cases res with
    | error e => exact .inl (hgo hb .executeFails rfl (.inl rfl))
    | ok out =>
      cases hgate : goGateError (env.node i) out with
      | some msg => exact .inl (hgo hb (.gateFails hgate) rfl (.inl rfl))
      | none => exact .inl (hgo hb (.gate hgate) rfl (.inl rfl))
  | produced out =>
    cases hw : out.warning with
    | some message => exact .inl (hgo hb (.warn hw) rfl (.inl rfl))
    | none => exact .inl (hgo hb (.noWarning hw) rfl (.inl rfl))
  | warned out =>
    cases ha : env.apply out (env.node i).op.name (env.node i).op.recall s.frame with
    | ok f => exact .inl (hgo hb (.apply ha) rfl (.inl rfl))
    | fail e f => exact .inl (hgo hb (.applyFails ha) rfl (.inl rfl))
  | applied out => exact .inl (hgo hb .trace rfl (.inl rfl))
  | unapplied e => exact .inl (hgo hb .traceFailed rfl (.inl rfl))
  | failing e =>
    cases hf : s.fatal with
    | none => exact .inl (hgo hb (.raise hf) rfl (.inl rfl))
    | some _ => exact .inl (hgo hb (.late (by rw [hf]; rfl)) rfl (.inl rfl))
  | cancelling e => exact .inl (hgo hb .cancel rfl (.inl rfl))
  | forcing e rest =>
    cases rest with
    | nil => exact .inl (hgo hb .forced rfl (.inl rfl))
    | cons j rest => exact .inl (hgo hb .force rfl (.inl rfl))
  | leaving x => exact .inl (hgo hb .finish rfl (.inr (.inl rfl)))

/-- The caller of `execute` has returned, can go on, or waits for a future that is not complete. -/
theorem main_moves (h : JavaRunInv g s) : s.main.result?.isSome = true ∨
    (∃ l s', JavaStep env g l s s' ∧ l.isWork = true ∧ (l.move? = none ∨ ∃ u, l.move? = some (.submit u))) ∨
    s.main = .awaiting ∧ ∃ i < g.nodes.length, s.completed i = false := by
  have hgo : ∀ {s'}, JavaMainStep env g s s' → ∃ l s', JavaStep env g l s s' ∧ l.isWork = true ∧
      (l.move? = none ∨ ∃ u, l.move? = some (.submit u)) := fun hm => ⟨_, _, .main hm, rfl, .inl rfl⟩
  cases hmain : s.main with
  | submitting k =>
    have hle := h.bound
    rw [hmain] at hle
    rcases Nat.lt_or_eq_of_le hle with hlt | heq
    · exact .inr (.inl ⟨_, _, .submit hmain hlt, rfl, .inr ⟨_, rfl⟩⟩)
    · exact .inr (.inl (hgo (.submitted (hmain.trans (congrArg _ heq)))))
  | awaiting =>
    by_cases hall : ∀ i < g.nodes.length, s.completed i = true
    · exact .inr (.inl (hgo (.join hmain hall)))
    · push Not at hall
      obtain ⟨i, hi, hc⟩ := hall
      exact .inr (.inr ⟨rfl, i, hi, Bool.eq_false_iff.mpr hc⟩)
  | joined =>
    cases hf : s.fatal with
    | some _ => exact .inr (.inl (hgo (.collect hmain (.inl (by rw [hf]; rfl)))))
    | none =>
      cases hn : s.notRun with
      | true => exact .inr (.inl (hgo (.collectCancelled (d := false) hmain hf hn)))
      | false => exact .inr (.inl (hgo (.collect hmain (.inr hn))))
  | collected _ _ => exact .inr (.inl (hgo (.projectCommon hmain)))
  | projected _ _ _ => exact .inr (.inl (hgo (.projectItems hmain)))
  | closing _ => exact .inr (.inl (hgo (.close hmain)))
  | returned _ | released _ => exact .inl rfl

end JavaRunState

end Pineapple
