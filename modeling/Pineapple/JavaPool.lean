import Pineapple.DagBuild
import Pineapple.JavaProgress

/-! # Requests of the Java engine on one executor

Tasks of nodes block their workers, in the futures of predecessors or of their own shards. The joins alone never
block them all, since predecessors are submitted first; the shards may, being submitted last. -/

namespace Pineapple
open WorkerPool (Move Pool Advances Holds InOrder Roomy)

variable {σ ι : Type} {env : JavaEnv σ ι} {g : Graph} {workers : Option Nat} {requests : Nat}

/-- A task of a request. -/
abbrev Work : Type := Nat × JavaTask

structure JavaServe (σ ι : Type) where
  runs : Nat → JavaRunState σ ι
  pool : Pool Work := {}

def JavaLabel.poolMove (r : Nat) (l : JavaLabel σ ι) : Option (Move Work) := l.move?.map (Move.map fun t => (r, t))

namespace JavaServe
variable (s : JavaServe σ ι)

def phase (t : Work) : WorkerPool.Phase := (s.runs t.1).phase t.2

/-- The request has returned. -/
def Returned (r : Nat) : Prop := (s.runs r).main.result?.isSome = true

/-- The task of `i` has the future of `v` to join, and it is not complete. -/
def Joins (g : Graph) (r i v : Nat) : Prop := v ∈ g.preds i ∧ (s.runs r).completed v = false

/-- The task of a node waits for a shard, of its own or of a node whose future it joins, directly or not. -/
def Waits (g : Graph) (t u : Work) : Prop :=
  ∃ r i v k, t = (r, .node i) ∧ u = (r, .shard v k) ∧ Relation.ReflTransGen (s.Joins g r) i v

/-- When a shard is submitted there is room for it: wherever the queue it then ends is cut, fewer nodes than workers,
of those that run and those in front of the cut, wait for shards behind it. -/
def HasRoom (g : Graph) (workers : Option Nat) (r : Nat) : JavaLabel σ ι → Prop
  | .node i (.submit k) => Roomy workers (s.Waits g) { s.pool with queue := s.pool.queue ++ [(r, .shard i k)] }
  | _ => True

end JavaServe

/-- A step of the request `r`. -/
inductive ServeStep (env : JavaEnv σ ι) (g : Graph) (workers : Option Nat) (requests r : Nat) (l : JavaLabel σ ι) :
    JavaServe σ ι → JavaServe σ ι → Prop
  | intro {s s' pool'} : r < requests → JavaStep env g l (s.runs r) s' →
      WorkerPool.Step workers s.pool (l.poolMove r) pool' →
      ServeStep env g workers requests r l s ⟨Function.update s.runs r s', pool'⟩

def ServeMove (env : JavaEnv σ ι) (g : Graph) (workers : Option Nat) (requests : Nat) (s s' : JavaServe σ ι) : Prop :=
  ∃ r l, ServeStep env g workers requests r l s s'

/-- A step with room for what it submits. -/
def RoomyMove (env : JavaEnv σ ι) (g : Graph) (workers : Option Nat) (requests : Nat) (s s' : JavaServe σ ι) : Prop :=
  ∃ r l, s.HasRoom g workers r l ∧ ServeStep env g workers requests r l s s'

def JavaServe.init (f₀ : Nat → σ) : JavaServe σ ι := { runs := fun r => { frame := f₀ r } }

/-! ## The invariant -/

/-- Tasks of one request are submitted in the order of their nodes. -/
def Earlier (a b : Work) : Prop := ∃ r i j, a = (r, .node i) ∧ b = (r, .node j) ∧ i < j

structure ServeInv (g : Graph) (workers : Option Nat) (requests : Nat) (s : JavaServe σ ι) : Prop where
  runs : ∀ r, JavaOrderInv g (s.runs r)
  idle : ∀ r, requests ≤ r → ∀ t, (s.runs r).phase t = .absent
  holds : Holds s.phase s.pool
  order : ∀ k, workers = some k → InOrder Earlier s.phase s.pool

namespace ServeInv
variable {s s' : JavaServe σ ι} {r : Nat} {l : JavaLabel σ ι}

theorem init (g : Graph) (workers : Option Nat) (requests : Nat) (f₀ : Nat → σ) :
    ServeInv g workers requests (JavaServe.init f₀ : JavaServe σ ι) where
  runs r := .init g (f₀ r)
  idle _ _ t := by cases t <;> rfl
  holds := .init fun t => by cases t with | mk _ t => cases t <;> rfl
  order _ _ := .init fun t => by cases t with | mk _ t => cases t <;> rfl

theorem advances (h : ServeInv g workers requests s) (hs : ServeStep env g workers requests r l s s') :
    Advances (l.poolMove r) s.phase s'.phase := by
  cases hs with
  | @intro s₁ _ _ hstep _ =>
    have hadv := @Advances.tag Nat JavaTask _ _ l.move? (fun r => (s.runs r).phase) _ r (hstep.advances (h.runs r).fork)
    have heq : (fun t : Work => Function.update (fun r => (s.runs r).phase) r s₁.phase t.1 t.2) =
        fun t : Work => (Function.update s.runs r s₁ t.1).phase t.2 := by
      refine funext fun t => ?_
      by_cases ht : t.1 = r
      · rw [ht, Function.update_self, Function.update_self]
      · rw [Function.update_of_ne ht, Function.update_of_ne ht]
    rw [heq] at hadv
    exact hadv

theorem earlier_absent (h : ServeInv g workers requests s) (a b : Work) (hab : Earlier a b)
    (ha : s.phase a = .absent) : s.phase b = .absent := by
  obtain ⟨r, i, j, rfl, rfl, hlt⟩ := hab
  exact ((h.runs r).fork.inv.submitted j).mpr ((((h.runs r).fork.inv.submitted i).mp ha).trans hlt.le)

theorem step (h : ServeInv g workers requests s) (hs : ServeStep env g workers requests r l s s') :
    ServeInv g workers requests s' := by
  have hadv := h.advances hs
  cases hs with
  | @intro s₁ _ hr hstep hpool =>
    refine ⟨fun r' => ?_, fun r' hr' t => ?_, h.holds.step hpool hadv, ?_⟩
    · show JavaOrderInv g (Function.update s.runs r s₁ r')
      by_cases heq : r' = r
      · rw [heq, Function.update_self]
        exact (h.runs r).step hstep
      · rw [Function.update_of_ne heq]
        exact h.runs r'
    · show (Function.update s.runs r s₁ r').phase t = .absent
      rw [Function.update_of_ne (by omega)]
      exact h.idle r' hr' t
    · rintro k rfl
      exact (h.order k rfl).step h.holds h.earlier_absent hpool hadv

theorem reachable {f₀ : Nat → σ} (hr : Relation.ReflTransGen (ServeMove env g workers requests) (.init f₀) s) :
    ServeInv g workers requests s := by
  induction hr with
  | refl => exact init g workers requests f₀
  | tail _ hs ih =>
    obtain ⟨r, l, hs⟩ := hs
    exact ih.step hs

end ServeInv

/-! ## Room -/

namespace ServeStep
variable {s s' : JavaServe σ ι} {r : Nat} {l : JavaLabel σ ι}

/-- Futures stay complete: nobody comes to wait for more. -/
theorem waits_mono (hs : ServeStep env g workers requests r l s s') {t u : Work} (h : s'.Waits g t u) : s.Waits g t u := by
  obtain ⟨r', i, v, k, rfl, rfl, hjoins⟩ := h
  refine ⟨r', i, v, k, rfl, rfl, hjoins.lift id fun a b hab => ⟨hab.1, Bool.eq_false_iff.mpr fun hc => ?_⟩⟩
  have hc' : (s'.runs r').completed b = true := by
    cases hs with
    | @intro s₁ _ _ hstep _ =>
      show (Function.update s.runs r s₁ r').completed b = true
      by_cases heq : r' = r
      · subst heq
        rw [Function.update_self]
        exact hstep.completed_mono hc
      · rwa [Function.update_of_ne heq]
  rw [hab.2] at hc'
  cases hc'

theorem roomy (hs : ServeStep env g workers requests r l s s') (h : Roomy workers (s.Waits g) s.pool)
    (hpos : ∀ k, workers = some k → 0 < k) (hroom : s.HasRoom g workers r l) : Roomy workers (s'.Waits g) s'.pool := by
  refine Roomy.mono ?_ fun t u => hs.waits_mono
  cases hs with
  | intro _ _ hpool =>
    unfold JavaLabel.poolMove at hpool
    cases l with
    | submit i =>
      cases hpool with
      | submit =>
        refine h.submit (fun u hu => ?_) hpos
        obtain ⟨_, _, _, _, -, heq, -⟩ := hu
        cases heq
    | node i eff =>
      cases eff with
      | submit k =>
        cases hpool with
        | submit => exact hroom
      | _ => exact h.step hpool nofun
    | shard i k act => cases act <;> exact h.step hpool nofun
    | main | caller => exact h.step hpool nofun

end ServeStep

/-! ## Somebody can move -/

/-- Some step other than the caller's and an interruption can be made. -/
def JavaServe.CanWork (env : JavaEnv σ ι) (g : Graph) (workers : Option Nat) (requests : Nat) (s : JavaServe σ ι) : Prop :=
  ∃ r l s', l.isWork = true ∧ ServeStep env g workers requests r l s s'

namespace ServeInv
variable {s : JavaServe σ ι}

theorem lt_of_phase (h : ServeInv g workers requests s) {t : Work} (ht : s.phase t ≠ .absent) : t.1 < requests := by
  by_contra hge
  exact ht (h.idle t.1 (Nat.le_of_not_lt hge) t.2)

/-- A task with a worker that can go on by itself goes on. -/
theorem canWork_of_moves (h : ServeInv g workers requests s) {t : Work} (ht : t ∈ s.pool.running)
    (hm : (s.runs t.1).Moves env g t.2) : s.CanWork env g workers requests := by
  have hr : t.1 < requests := h.lt_of_phase (by rw [(h.holds.running t).mp ht]; exact nofun)
  obtain ⟨l, s', hstep, hwork, hown⟩ := hm
  refine ⟨t.1, l, ?_⟩
  rcases hown with hnone | hfinish | ⟨u, hsubmit⟩
  · exact ⟨_, hwork, .intro hr hstep (by rw [JavaLabel.poolMove, hnone]; exact .stay)⟩
  · exact ⟨_, hwork, .intro hr hstep (by rw [JavaLabel.poolMove, hfinish]; exact .finish ht)⟩
  · exact ⟨_, hwork, .intro hr hstep (by rw [JavaLabel.poolMove, hsubmit]; exact .submit)⟩

/-- When nothing moves and there are tasks in the queue, every worker has one. -/
theorem full_of_stuck (h : ServeInv g workers requests s) (hstuck : ¬s.CanWork env g workers requests)
    (hq : s.pool.queue ≠ []) : ∃ k, workers = some k ∧ k ≤ s.pool.running.length := by
  obtain ⟨t, rest, hq⟩ := List.exists_cons_of_ne_nil hq
  have ht : s.phase t = .queued := (h.holds.queued t).mp (by rw [hq]; exact List.mem_cons_self)
  have hr : t.1 < requests := h.lt_of_phase (by rw [ht]; exact nofun)
  obtain ⟨l, s', hstep, hwork, hm⟩ := @JavaRunState.starts σ ι env g (s.runs t.1) t.2 ht
  have hmove : l.poolMove t.1 = some (.start t) := by
    rw [JavaLabel.poolMove, hm]
    rfl
  cases workers with
  | none =>
    have hpool : WorkerPool.Step none s.pool (some (.start t)) ⟨[] ++ rest, t :: s.pool.running⟩ := .startAny rfl hq
    exact (hstuck ⟨t.1, l, _, hwork, .intro hr hstep (by rw [hmove]; exact hpool)⟩).elim
  | some k =>
    refine ⟨k, rfl, Nat.le_of_not_lt fun hlt => ?_⟩
    have hpool : WorkerPool.Step (some k) s.pool (some (.start t)) ⟨rest, t :: s.pool.running⟩ := .startFirst rfl hlt hq
    exact hstuck ⟨t.1, l, _, hwork, .intro hr hstep (by rw [hmove]; exact hpool)⟩

/-- When nothing moves, no shard is running. -/
theorem no_shard_of_stuck (h : ServeInv g workers requests s) (hends : ∀ v < g.nodes.length, env.Ends (env.node v))
    (hstuck : ¬s.CanWork env g workers requests) (r i k : Nat) : (r, .shard i k) ∉ s.pool.running := by
  intro hmem
  have ht : (s.runs r).phase (.shard i k) = .running := (h.holds.running _).mp hmem
  obtain ⟨sh, _, hsh, -⟩ := JavaRunState.of_phase_shard (s := s.runs r) (i := i) (k := k) (by rw [ht]; exact nofun)
  have hi : i < g.nodes.length := JavaStep.lt_of_shards (h.runs r).fork hsh
  exact hstuck (h.canWork_of_moves hmem (JavaRunState.shard_moves (hends i hi) ht))

/-- When nothing moves, every task with a worker waits for a shard in the queue. -/
theorem waits_of_stuck (h : ServeInv g workers requests s) (hg : GraphInv g)
    (hends : ∀ v < g.nodes.length, env.Ends (env.node v)) (hstuck : ¬s.CanWork env g workers requests) (r i : Nat)
    (hmem : (r, .node i) ∈ s.pool.running) : ∃ b ∈ s.pool.queue, s.Waits g (r, .node i) b := by
  induction i using Nat.strongRecOn with
  | ind i ih =>
    have ht : (s.runs r).phase (.node i) = .running := (h.holds.running _).mp hmem
    have hinv := (h.runs r).fork.inv
    have hi : i < g.nodes.length := JavaStep.lt_of_not_absent hinv (by
      intro habsent
      rw [show (s.runs r).phase (.node i) = _ from habsent] at ht
      cases ht)
    rcases JavaRunState.node_moves (h.runs r).fork (hends i hi) ht with hmoves | ⟨v, rest, hb, hc⟩ | ⟨k, hk | hk⟩
    · exact (hstuck (h.canWork_of_moves hmem hmoves)).elim
    · -- the predecessor was submitted first: it has a worker
      have hpred : v ∈ g.preds i := ((h.runs r).suffix i _ hb).subset List.mem_cons_self
      have hlt : v < i := (hg.forward v i ((hg.dual v i).mp hpred)).1
      have hv : (r, .node v) ∈ s.pool.running := by
        refine (h.holds.running _).mpr ?_
        cases hphase : s.phase (r, .node v) with
        | running => rfl
        | ended =>
          have hover : ∃ x, (s.runs r).bodies v = .ended x := by
            change ((s.runs r).bodies v).task = .ended at hphase
            generalize (s.runs r).bodies v = b at hphase
            cases b <;> first | exact ⟨_, rfl⟩ | cases hphase
          obtain ⟨x, hx⟩ := hover
          rw [hinv.ended v x hx] at hc
          cases hc
        | absent =>
          rw [show (s.runs r).phase (.node i) = _ from h.earlier_absent _ _ ⟨r, v, i, rfl, rfl, hlt⟩ hphase] at ht
          cases ht
        | queued =>
          obtain ⟨k, hk, -⟩ := h.full_of_stuck hstuck
            (List.ne_nil_of_mem ((h.holds.queued (r, .node v)).mpr hphase))
          rcases (h.order k hk).taken _ _ ⟨r, v, i, rfl, rfl, hlt⟩ hphase with h' | h' <;>
            rw [show (s.runs r).phase (.node i) = _ from h'] at ht <;> cases ht
      obtain ⟨b, hb, r', _, u, k, heq, rfl, hjoins⟩ := ih v hlt hv
      cases heq
      exact ⟨_, hb, r, i, u, k, rfl, rfl, .head ⟨hpred, hc⟩ hjoins⟩
    · exact ⟨(r, .shard i k), (h.holds.queued _).mpr hk, r, i, i, k, rfl, rfl, .refl⟩
    · exact (h.no_shard_of_stuck hends hstuck r i k ((h.holds.running _).mpr hk)).elim

/-- With room in the queue there is always something to do until every request has returned. -/
theorem progress (h : ServeInv g workers requests s) (hroom : Roomy workers (s.Waits g) s.pool) (hg : GraphInv g)
    (hpos : ∀ k, workers = some k → 0 < k) (hends : ∀ v < g.nodes.length, env.Ends (env.node v)) :
    (∀ r < requests, s.Returned r) ∨ s.CanWork env g workers requests := by
  by_contra hnot
  rw [not_or] at hnot
  obtain ⟨hreturned, hstuck⟩ := hnot
  have hwaits : ∀ t ∈ s.pool.running, ∃ b ∈ s.pool.queue, s.Waits g t b := by
    rintro ⟨r, t⟩ ht
    cases t with
    | node i => exact h.waits_of_stuck hg hends hstuck r i ht
    | shard i k => exact (h.no_shard_of_stuck hends hstuck r i k ht).elim
  -- some task has a worker
  have hbusy : ∃ t, t ∈ s.pool.running := by
    push Not at hreturned
    obtain ⟨r, hr, hret⟩ := hreturned
    rcases @JavaRunState.main_moves σ ι env g _ (h.runs r).fork.inv with hdone | ⟨l, s', hstep, hwork, hm⟩ | ⟨hmain, i, hi, hc⟩
    · exact (hret hdone).elim
    · refine (hstuck ⟨r, l, ?_⟩).elim
      rcases hm with hnone | ⟨u, hsubmit⟩
      · exact ⟨_, hwork, .intro hr hstep (by rw [JavaLabel.poolMove, hnone]; exact .stay)⟩
      · exact ⟨_, hwork, .intro hr hstep (by rw [JavaLabel.poolMove, hsubmit]; exact .submit)⟩
    · have hnotAbsent : s.phase (r, .node i) ≠ .absent := by
        intro habsent
        have := ((h.runs r).fork.inv.submitted i).mp habsent
        rw [hmain] at this
        exact absurd hi (Nat.not_lt.mpr this)
      cases hphase : s.phase (r, .node i) with
      | absent => exact (hnotAbsent hphase).elim
      | running => exact ⟨_, (h.holds.running _).mpr hphase⟩
      | queued =>
        obtain ⟨k, hk, hfull⟩ := h.full_of_stuck hstuck (List.ne_nil_of_mem ((h.holds.queued (r, .node i)).mpr hphase))
        exact List.exists_mem_of_length_pos (Nat.lt_of_lt_of_le (hpos k hk) hfull)
      | ended =>
        have hover : ∃ x, (s.runs r).bodies i = .ended x := by
          change ((s.runs r).bodies i).task = .ended at hphase
          generalize (s.runs r).bodies i = b at hphase
          cases b <;> first | exact ⟨_, rfl⟩ | cases hphase
        obtain ⟨x, hx⟩ := hover
        rw [(h.runs r).fork.inv.ended i x hx] at hc
        cases hc
  obtain ⟨t, ht⟩ := hbusy
  obtain ⟨b, hb, -⟩ := hwaits t ht
  obtain ⟨k, rfl, hfull⟩ := h.full_of_stuck hstuck (List.ne_nil_of_mem hb)
  obtain ⟨u, hu, hfree⟩ := hroom.free hfull
  obtain ⟨b, hb, hwait⟩ := hwaits u hu
  exact hfree b hb hwait

end ServeInv

/-! ## Every run -/

namespace JavaServe

/-- Every execution of the request `r` began once, after those of all predecessors were over and applied. -/
structure Ordered (g : Graph) (s : JavaServe σ ι) (r : Nat) : Prop where
  once : (s.runs r).begun.Nodup
  after : ∀ t ∈ (s.runs r).begun, ∀ v ∈ g.preds t.owner, (s.runs r).Applied v

/-- All requests have returned. -/
def AllReturned (requests : Nat) (s : JavaServe σ ι) : Prop := ∀ r < requests, s.Returned r

/-- There is no room for some shard that can be submitted now. -/
def Cramped (env : JavaEnv σ ι) (g : Graph) (workers : Option Nat) (requests : Nat) (s : JavaServe σ ι) : Prop :=
  ∃ r l s', ServeStep env g workers requests r l s s' ∧ ¬s.HasRoom g workers r l

def left (env : JavaEnv σ ι) (g : Graph) (requests : Nat) (s : JavaServe σ ι) : Nat :=
  ∑ r ∈ Finset.range requests, (s.runs r).left env g

end JavaServe

theorem ServeStep.left_lt {s s' : JavaServe σ ι} {r : Nat} {l : JavaLabel σ ι} (h : ServeInv g workers requests s)
    (hs : ServeStep env g workers requests r l s s') : s'.left env g requests < s.left env g requests := by
  cases hs with
  | @intro s₁ _ hr hstep _ =>
    have hlt := hstep.left_lt (h.runs r).fork
    refine Finset.sum_lt_sum (fun r' _ => ?_) ⟨r, Finset.mem_range.mpr hr, ?_⟩
    · show (Function.update s.runs r s₁ r').left env g ≤ _
      by_cases heq : r' = r
      · rw [heq, Function.update_self]
        exact hlt.le
      · rw [Function.update_of_ne heq]
    · show (Function.update s.runs r s₁ r).left env g < _
      rwa [Function.update_self]

/-- What holds in a run whose shards found room. -/
structure RoomyInv (g : Graph) (workers : Option Nat) (requests : Nat) (s : JavaServe σ ι) : Prop where
  inv : ServeInv g workers requests s
  room : Roomy workers (s.Waits g) s.pool

namespace RoomyInv
variable {s s' : JavaServe σ ι} {f₀ : Nat → σ}

theorem init (hpos : ∀ k, workers = some k → 0 < k) (f₀ : Nat → σ) :
    RoomyInv g workers requests (JavaServe.init f₀ : JavaServe σ ι) := ⟨.init g workers requests f₀, .init hpos⟩

theorem step (h : RoomyInv g workers requests s) (hpos : ∀ k, workers = some k → 0 < k)
    (hs : RoomyMove env g workers requests s s') : RoomyInv g workers requests s' := by
  obtain ⟨r, l, hroom, hs⟩ := hs
  exact ⟨h.inv.step hs, hs.roomy h.room hpos hroom⟩

theorem reachable (hpos : ∀ k, workers = some k → 0 < k)
    (hr : Relation.ReflTransGen (RoomyMove env g workers requests) (.init f₀) s) : RoomyInv g workers requests s := by
  induction hr with
  | refl => exact init hpos f₀
  | tail _ hs ih => exact ih.step hpos hs

theorem returns (h : RoomyInv g workers requests s) (hg : GraphInv g) (hpos : ∀ k, workers = some k → 0 < k)
    (hends : ∀ v < g.nodes.length, env.Ends (env.node v)) : Inevitably (ServeMove env g workers requests)
      (fun s => s.AllReturned requests ∨ s.Cramped env g workers requests) s := by
  refine Inevitably.of_measure (I := RoomyInv g workers requests) (JavaServe.left env g requests) (fun a b ha hp hab => ?_)
    (fun a ha hp => ?_) h
  · obtain ⟨r, l, hstep⟩ := hab
    have hroom : a.HasRoom g workers r l := by
      by_contra hroom
      exact hp (.inr ⟨r, l, b, hstep, hroom⟩)
    exact ⟨ha.step hpos ⟨r, l, hroom, hstep⟩, hstep.left_lt ha.inv⟩
  · rcases ha.inv.progress ha.room hg hpos hends with hret | ⟨r, l, b, -, hstep⟩
    · exact (hp (.inl hret)).elim
    · exact ⟨b, r, l, hstep⟩

end RoomyInv

/-- As long as the shards found room: executions begin once and after those of all predecessors, there is always
something to do until all requests have returned, and whatever is done, they return, unless shards that find no room
come in between. -/
theorem requests_return {config : Config} {expanded : ExpandedSequence} {s : JavaServe σ ι} {f₀ : Nat → σ}
    (hg : buildDag config expanded = .ok g) (hpos : ∀ k, workers = some k → 0 < k)
    (hends : ∀ v < g.nodes.length, env.Ends (env.node v))
    (hr : Relation.ReflTransGen (RoomyMove env g workers requests) (.init f₀) s) :
    (∀ r, s.Ordered g r) ∧ (s.AllReturned requests ∨ s.CanWork env g workers requests) ∧
      Inevitably (ServeMove env g workers requests)
        (fun s => s.AllReturned requests ∨ s.Cramped env g workers requests) s := by
  have h := RoomyInv.reachable hpos hr
  have hinv := (buildDag_spec hg).inv
  exact ⟨fun r => ⟨(h.inv.runs r).nodup, (h.inv.runs r).begunSettled⟩, h.inv.progress h.room hinv hpos hends,
    h.returns hinv hpos hends⟩

/-- With a worker of its own for every task there is always room. -/
theorem requests_return_unbounded {config : Config} {expanded : ExpandedSequence} (f₀ : Nat → σ)
    (hg : buildDag config expanded = .ok g) (hends : ∀ v < g.nodes.length, env.Ends (env.node v)) :
    Inevitably (ServeMove env g none requests) (JavaServe.AllReturned requests) (.init f₀) := by
  have h := (@RoomyInv.init σ ι g none requests (fun _ => nofun) f₀).returns (buildDag_spec hg).inv (fun _ => nofun) hends
  refine h.mono fun s hs => hs.resolve_right ?_
  rintro ⟨r, l, s', -, hroom⟩
  refine hroom ?_
  cases l with
  | node i eff =>
    cases eff with
    | submit k => exact fun _ => nofun
    | _ => trivial
  | _ => trivial

/-! ### One operator with two shards -/

namespace Narrow
open Sharded (op graph)

/-- Two items, and an operator that writes nothing. -/
def javaEnv : JavaEnv Unit Unit where
  common _ _ := none
  buildInput _ _ := .ok ()
  itemCount _ := 2
  shard _ _ := ()
  resolve _ _ := .ok ∅
  apply _ _ _ _ := .ok ()
  resultCommon _ := ∅
  resultItems _ := []
  node _ := { op }
  exec _ _ _ res := res = .ok {}

/-- A step of the only request. With `strict`, shards are only submitted with room. -/
def Step (workers : Nat) (strict : Bool) (s s' : JavaServe Unit Unit) : Prop :=
  ∃ l, (strict = true → s.HasRoom graph (some workers) 0 l) ∧ ServeStep javaEnv graph (some workers) 1 0 l s s'

/-- The task has come to `b` and its shards to `sh`. -/
structure At (workers : Nat) (strict : Bool) (b : JavaBody Unit) (sh : Option (JavaShards Unit)) (pool : Pool Work)
    (s : JavaServe Unit Unit) : Prop where
  run : Relation.ReflTransGen (Step workers strict) (.init fun _ => ()) s
  body : (s.runs 0).bodies 0 = b
  shards : (s.runs 0).shards 0 = sh
  fatal : (s.runs 0).fatal = none
  cancelled : (s.runs 0).cancelled = false
  completed : (s.runs 0).completed 0 = false
  main : (s.runs 0).main = .awaiting
  pool : s.pool = pool

variable {workers : Nat} {strict : Bool} {b b' : JavaBody Unit} {sh : Option (JavaShards Unit)} {pool pool' : Pool Work}

theorem started : ∃ s, At (workers + 1) strict (.waiting []) none ⟨[], [(0, .node 0)]⟩ s := by
  have hsubmit : Relation.ReflTransGen (Step (workers + 1) strict) (.init fun _ => ()) _ := .single
    ⟨.submit 0, fun _ => trivial, .intro Nat.zero_lt_one (.submit rfl Nat.zero_lt_one) .submit⟩
  have hsubmitted := hsubmit.tail ⟨.main, fun _ => trivial, .intro Nat.zero_lt_one (.main (.submitted rfl)) .stay⟩
  have hstart := hsubmitted.tail ⟨.node 0 .start, fun _ => trivial, .intro Nat.zero_lt_one (.node rfl .start)
    (.startFirst rfl (Nat.zero_lt_succ _) rfl)⟩
  exact ⟨_, hstart, rfl, rfl, rfl, rfl, rfl, rfl, rfl⟩

/-- The steps of the task that neither fail nor end it. -/
def Plain : JavaEffect Unit Unit → Prop
  | .none | .fork _ | .submit _ => True
  | _ => False

theorem At.step {eff : JavaEffect Unit Unit} (h : ∃ s, At workers strict b sh pool s)
    (hstep : ∀ s : JavaRunState Unit Unit, s.shards 0 = sh → s.fatal = none → s.cancelled = false →
      JavaBodyStep javaEnv graph s 0 b eff b') (hplain : Plain eff)
    (hpool : WorkerPool.Step (some workers) pool ((JavaLabel.node 0 eff : JavaLabel Unit Unit).poolMove 0) pool')
    (hroom : ∀ s : JavaServe Unit Unit, s.pool = pool → strict = true → s.HasRoom graph (some workers) 0 (.node 0 eff)) :
    ∃ s, At workers strict b' (eff.onShards sh) pool' s := by
  obtain ⟨s, hs⟩ := h
  have hmove : Step workers strict s _ := ⟨.node 0 eff, hroom s hs.pool, .intro Nat.zero_lt_one
    (.node hs.body (hstep _ hs.shards hs.fatal hs.cancelled)) (hs.pool.symm ▸ hpool)⟩
  refine ⟨_, hs.run.tail hmove, ?_, ?_, ?_, ?_, ?_, ?_, rfl⟩ <;> dsimp only <;> rw [Function.update_self]
  · rw [JavaRunState.bodies_move, Function.update_self]
  · rw [JavaRunState.shards_move, Function.update_self, hs.shards]
  · cases eff <;> first | exact hs.fatal | exact hplain.elim
  · cases eff <;> first | exact hs.cancelled | exact hplain.elim
  · cases eff <;> first | exact hs.completed | exact hplain.elim
  · rw [JavaRunState.main_move]
    exact hs.main

theorem At.inner {eff : JavaEffect Unit Unit} (h : ∃ s, At workers strict b sh pool s)
    (hstep : ∀ s : JavaRunState Unit Unit, s.shards 0 = sh → s.fatal = none → s.cancelled = false →
      JavaBodyStep javaEnv graph s 0 b eff b') (hplain : Plain eff) (heff : ∀ k, eff ≠ .submit k) :
    ∃ s, At workers strict b' (eff.onShards sh) pool s := by
  refine At.step h hstep hplain ?_ fun s _ _ => ?_
  · cases eff <;> first | exact .stay | exact (heff _ rfl).elim | exact hplain.elim
  · cases eff <;> first | trivial | exact (heff _ rfl).elim

def shards (first second : JavaShardPhase) : JavaShards Unit where
  input := ()
  resolved := ∅
  shards := [(⟨0, 1⟩, first), (⟨1, 1⟩, second)]

theorem forked : ∃ s, At (workers + 1) strict (.forking 2 0) (some (shards .unsubmitted .unsubmitted))
    ⟨[], [(0, .node 0)]⟩ s := by
  have hready : ∃ s, At (workers + 1) strict (.ready () ∅) none ⟨[], [(0, .node 0)]⟩ s :=
    At.inner (At.inner (At.inner (At.inner (At.inner started (fun _ _ hf _ => .check hf) trivial fun _ => nofun)
      (fun _ _ _ hc => .enter hc) trivial fun _ => nofun) (fun _ _ _ _ => .goOn rfl) trivial fun _ => nofun)
      (fun _ _ _ _ => .build rfl) trivial fun _ => nofun) (fun _ _ _ _ => .resolve rfl) trivial fun _ => nofun
  exact At.inner hready (fun _ _ _ _ => .fork one_lt_two Nat.one_lt_two rfl) trivial fun _ => nofun

/-- One task with a worker, and only shards in the queue: there is room from two workers on. -/
theorem roomy (hw : 2 ≤ workers) {queue : List Work} (hq : ∀ t ∈ queue, ∃ i k, t = (0, .shard i k))
    (s : JavaServe Unit Unit) : Roomy (some workers) (s.Waits graph) ⟨queue, [(0, .node 0)]⟩ := by
  classical
  intro k hk ahead behind hsplit
  obtain rfl := Option.some.inj hk
  rw [List.countP_append, List.countP_eq_zero (l := ahead) |>.mpr]
  · exact Nat.lt_of_le_of_lt List.countP_le_length hw
  · intro t ht hw
    obtain ⟨u, -, r, i, v, k, heq, -⟩ := of_decide_eq_true hw
    obtain ⟨j, m, rfl⟩ := hq t (by rw [show queue = _ from hsplit]; exact List.mem_append_left _ ht)
    cases heq

theorem merging (hw : strict = true → 2 ≤ workers + 1) : ∃ s, At (workers + 1) strict (.merging 2 0 {})
    (some (shards .queued .queued)) ⟨[(0, .shard 0 0), (0, .shard 0 1)], [(0, .node 0)]⟩ s := by
  have hfirst : ∃ s, At (workers + 1) strict (.forking 2 1) (some (shards .queued .unsubmitted))
      ⟨[(0, .shard 0 0)], [(0, .node 0)]⟩ s := by
    refine At.step forked (fun _ _ _ _ => .submit Nat.zero_lt_two) trivial .submit fun s hpool hstrict => ?_
    unfold JavaServe.HasRoom
    rw [hpool]
    exact roomy (hw hstrict) (fun t ht => ⟨0, 0, List.mem_singleton.mp ht⟩) s
  have hsecond : ∃ s, At (workers + 1) strict (.forking 2 2) (some (shards .queued .queued))
      ⟨[(0, .shard 0 0), (0, .shard 0 1)], [(0, .node 0)]⟩ s := by
    refine At.step hfirst (fun _ _ _ _ => .submit Nat.one_lt_two) trivial .submit fun s hpool hstrict => ?_
    unfold JavaServe.HasRoom
    rw [hpool]
    refine roomy (hw hstrict) (fun t ht => ?_) s
    rcases List.mem_pair.mp ht with rfl | rfl
    · exact ⟨0, 0, rfl⟩
    · exact ⟨0, 1, rfl⟩
  exact At.inner hsecond (fun _ _ _ _ => .submitted) trivial fun _ => nofun

theorem phase?_queued {k : Nat} {phase : JavaShardPhase} (h : (shards .queued .queued).phase? k = some phase) :
    phase = .queued := by
  obtain ⟨e, he, rfl⟩ := Option.map_eq_some_iff.mp h
  rcases List.mem_pair.mp (List.mem_of_getElem? he) with rfl | rfl <;> rfl

/-- The task waits for a shard that no worker will take. -/
theorem stuck {s s' : JavaServe Unit Unit} {r : Nat} {l : JavaLabel Unit Unit}
    (hs : At 1 strict (.merging 2 0 {}) (some (shards .queued .queued))
      ⟨[(0, .shard 0 0), (0, .shard 0 1)], [(0, .node 0)]⟩ s) (hinv : ServeInv graph (some 1) 1 s)
    (hwork : l.isWork = true) : ¬ServeStep javaEnv graph (some 1) 1 r l s s' := by
  intro hstep
  cases hstep with
  | @intro s₁ _ hr hstep hpool =>
    obtain rfl := Nat.lt_one_iff.mp hr
    have hfork := (hinv.runs 0).fork
    cases hstep with
    | @node _ i b eff b' hb hstep =>
      have hi := JavaStep.lt_of_not_absent hfork.inv (by rw [hb]; exact hstep.task_ne_absent.1)
      obtain rfl := Nat.lt_one_iff.mp hi
      rw [hs.body] at hb
      subst hb
      cases hstep with
      | get hsh hk _ _ | getPanics hsh hk _ _ =>
        rw [hs.shards] at hsh
        cases hsh
        cases phase?_queued (JavaShards.phase?_eq_of_get hk)
      | getNull hsh hk hout _ =>
        rw [hs.shards] at hsh
        cases hsh
        rw [phase?_queued hk] at hout
        cases hout
      | interrupt _ _ _ _ => cases hwork
    | @shard _ i k sh act sh' hsh hstep =>
      obtain rfl := Nat.lt_one_iff.mp (JavaStep.lt_of_shards hfork hsh)
      rw [hs.shards] at hsh
      cases hsh
      obtain ⟨phase, _, hk, -, hmove⟩ := hstep.phase_self
      have hbefore := hmove.before
      rw [phase?_queued hk] at hbefore
      cases act with
      | start =>
        rw [hs.pool] at hpool
        cases hpool with
        | startFirst hk hlt _ =>
          cases hk
          exact Nat.lt_irrefl 1 hlt
        | startAny hnone _ => cases hnone
      | _ => cases hbefore
    | submit hmain _ =>
      rw [hs.main] at hmain
      cases hmain
    | main hm =>
      cases hm with
      | join _ hall =>
        have := hall 0 Nat.zero_lt_one
        rw [hs.completed] at this
        cases this
      | submitted heq | collectCancelled heq _ _ | collect heq _ | projectCommon heq | projectItems heq | close heq
      | release heq =>
        rw [hs.main] at heq
        cases heq
    | callerCancel _ | runCancel _ _ | shardsCancel _ _ _ => cases hwork

theorem ends (v : Nat) : javaEnv.Ends (javaEnv.node v) := fun _ _ => ⟨_, rfl⟩

end Narrow

/-- With two workers the shards of the operator find room. -/
theorem requests_return_narrow : ∃ s : JavaServe Unit Unit, (s.runs 0).bodies 0 = .merging 2 0 {} ∧
    Inevitably (ServeMove Narrow.javaEnv Sharded.graph (some 2) 1)
      (fun s => s.AllReturned 1 ∨ s.Cramped Narrow.javaEnv Sharded.graph (some 2) 1) s := by
  obtain ⟨s, hs⟩ := @Narrow.merging 1 true fun _ => le_refl 2
  have hrun : Relation.ReflTransGen (RoomyMove Narrow.javaEnv Sharded.graph (some 2) 1) (.init fun _ => ()) s :=
    hs.run.lift id fun _ _ ⟨l, hroom, hstep⟩ => ⟨0, l, hroom rfl, hstep⟩
  refine ⟨s, hs.body, (requests_return Sharded.buildDag_config (fun k hk => ?_) (fun v _ => Narrow.ends v) hrun).2.2⟩
  obtain rfl := Option.some.inj hk
  exact Nat.zero_lt_two

/-- With threads enough the two shards never wait. -/
theorem requests_return_unbounded_narrow :
    Inevitably (ServeMove Narrow.javaEnv Sharded.graph none 1) (JavaServe.AllReturned 1) (.init fun _ => ()) :=
  requests_return_unbounded _ Sharded.buildDag_config fun v _ => Narrow.ends v

/-- A single worker waits for the shards it has submitted, for ever. -/
theorem not_requests_return : ¬∀ (config : Config) (expanded : ExpandedSequence) (g : Graph),
    buildDag config expanded = .ok g → ∀ (env : JavaEnv Unit Unit) (workers : Option Nat) (requests : Nat)
      (s : JavaServe Unit Unit), (∀ k, workers = some k → 0 < k) → (∀ v < g.nodes.length, env.Ends (env.node v)) →
      Relation.ReflTransGen (ServeMove env g workers requests) (.init fun _ => ()) s →
      s.AllReturned requests ∨ s.CanWork env g workers requests := by
  intro hall
  obtain ⟨s, hs⟩ := @Narrow.merging 0 false nofun
  have hrun : Relation.ReflTransGen (ServeMove Narrow.javaEnv Sharded.graph (some 1) 1) (.init fun _ => ()) s :=
    hs.run.lift id fun _ _ ⟨l, _, hstep⟩ => ⟨0, l, hstep⟩
  rcases hall _ _ _ Sharded.buildDag_config Narrow.javaEnv (some 1) 1 s (fun k hk => by cases hk; exact Nat.zero_lt_one)
    (fun v _ => Narrow.ends v) hrun with hret | ⟨r, l, s', hwork, hstep⟩
  · have := hret 0 Nat.zero_lt_one
    unfold JavaServe.Returned at this
    rw [hs.main] at this
    cases this
  · exact Narrow.stuck hs (.reachable hrun) hwork hstep

end Pineapple
