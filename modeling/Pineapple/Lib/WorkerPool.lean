import Mathlib.Data.List.Basic
import Mathlib.Data.List.Nodup
import Mathlib.Logic.Function.Basic

/-! # Tasks on a pool of workers

A pool either starts tasks in the order they were submitted on so many workers, or gives every task a worker of its
own. Running tasks may wait for tasks that no worker has taken yet. `Roomy` says that wherever the queue is cut in
two, fewer tasks than there are workers, of those running and those in front of the cut, wait for one behind it; then
some running task does not wait for a queued one. -/

namespace WorkerPool
universe u

inductive Phase where
  | absent | queued | running | ended
deriving DecidableEq

/-- What becomes of a task `t`: `submit` puts it on the queue, a worker takes it, and is free again. -/
inductive Move (τ : Type u) where
  | submit (t : τ)
  | start (t : τ)
  | finish (t : τ)

variable {τ : Type u}

def Move.map {υ : Type u} (f : τ → υ) : Move τ → Move υ
  | submit t => .submit (f t)
  | start t => .start (f t)
  | finish t => .finish (f t)

structure Pool (τ : Type u) where
  queue : List τ := []
  running : List τ := []

/-- `workers` is none for a worker of its own for every task. -/
inductive Step [DecidableEq τ] (workers : Option Nat) : Pool τ → Option (Move τ) → Pool τ → Prop
  | stay {p} : Step workers p none p
  | submit {p t} : Step workers p (some (.submit t)) { p with queue := p.queue ++ [t] }
  | startFirst {p t rest k} : workers = some k → p.running.length < k → p.queue = t :: rest →
      Step workers p (some (.start t)) ⟨rest, t :: p.running⟩
  | startAny {p t ahead behind} : workers = none → p.queue = ahead ++ t :: behind →
      Step workers p (some (.start t)) ⟨ahead ++ behind, t :: p.running⟩
  | finish {p t} : t ∈ p.running → Step workers p (some (.finish t)) { p with running := p.running.erase t }

/-- What a move does to the phases of the tasks. -/
def Advances [DecidableEq τ] : Option (Move τ) → (τ → Phase) → (τ → Phase) → Prop
  | none, phase, phase' => phase' = phase
  | some (.submit t), phase, phase' => phase t = .absent ∧ phase' = Function.update phase t .queued
  | some (.start t), phase, phase' => phase t = .queued ∧ phase' = Function.update phase t .running
  | some (.finish t), phase, phase' => phase t = .running ∧ phase' = Function.update phase t .ended

variable {workers : Option Nat} {p p' : Pool τ} {m : Option (Move τ)} {phase phase' : τ → Phase}

/-- Tasks of several sources on one pool: a source's move is the pool's. -/
theorem Advances.tag {ρ τ : Type u} [DecidableEq ρ] [DecidableEq τ] {m : Option (Move τ)} {phases : ρ → τ → Phase}
    {phase' : τ → Phase} {r : ρ} (h : Advances m (phases r) phase') :
    Advances (m.map (Move.map fun t => (r, t))) (fun t : ρ × τ => phases t.1 t.2)
      fun t => Function.update phases r phase' t.1 t.2 := by
  have hlift : ∀ (t : τ) (x : Phase), phase' = Function.update (phases r) t x →
      (fun u : ρ × τ => Function.update phases r phase' u.1 u.2) = Function.update (fun u => phases u.1 u.2) (r, t) x := by
    rintro t x rfl
    refine funext fun ⟨r', u⟩ => ?_
    by_cases hr : r' = r
    · subst hr
      dsimp only
      rw [Function.update_self]
      by_cases hu : u = t
      · subst hu
        rw [Function.update_self, Function.update_self]
      · rw [Function.update_of_ne hu, Function.update_of_ne fun heq => hu (congrArg Prod.snd heq)]
    · dsimp only
      rw [Function.update_of_ne hr, Function.update_of_ne fun heq => hr (congrArg Prod.fst heq)]
  cases m with
  | none =>
    rw [show phase' = phases r from h]
    show (fun u : ρ × τ => Function.update phases r (phases r) u.1 u.2) = _
    rw [Function.update_eq_self]
  | some m =>
    cases m with
    | submit t | start t | finish t => exact ⟨h.1, hlift t _ h.2⟩

/-! ## The pool and the phases -/

/-- The queue and the workers hold the tasks that are queued and running. -/
structure Holds (phase : τ → Phase) (p : Pool τ) : Prop where
  queued : ∀ t, t ∈ p.queue ↔ phase t = .queued
  running : ∀ t, t ∈ p.running ↔ phase t = .running
  queue_nodup : p.queue.Nodup
  running_nodup : p.running.Nodup

namespace Holds

theorem init (h : ∀ t, phase t = .absent) : Holds phase {} := by
  refine ⟨fun t => ?_, fun t => ?_, List.nodup_nil, List.nodup_nil⟩ <;>
    exact iff_of_false List.not_mem_nil (by rw [h t]; exact nofun)

theorem update_iff [DecidableEq τ] {t u : τ} (x y : Phase) (hne : x ≠ y) : Function.update phase t x u = y ↔ u ≠ t ∧ phase u = y := by
  by_cases hu : u = t
  · rw [hu, Function.update_self]
    exact iff_of_false hne fun h => h.1 rfl
  · rw [Function.update_of_ne hu]
    exact ⟨fun h => ⟨hu, h⟩, fun h => h.2⟩

theorem update_self_iff [DecidableEq τ] {t u : τ} {x : Phase} : Function.update phase t x u = x ↔ u = t ∨ phase u = x := by
  by_cases hu : u = t
  · rw [hu, Function.update_self]
    exact iff_of_true rfl (.inl rfl)
  · rw [Function.update_of_ne hu]
    exact ⟨.inr, fun h => h.resolve_left hu⟩

/-- The task `t` leaves the queue for a worker. -/
theorem start [DecidableEq τ] (h : Holds phase p) {t : τ} {queue : List τ} (hperm : p.queue.Perm (t :: queue)) (ht : phase t = .queued) :
    Holds (Function.update phase t .running) ⟨queue, t :: p.running⟩ := by
  have hnodup : (t :: queue).Nodup := hperm.nodup_iff.mp h.queue_nodup
  refine ⟨fun u => ?_, fun u => ?_, (List.nodup_cons.mp hnodup).2, List.nodup_cons.mpr ⟨fun hr => ?_, h.running_nodup⟩⟩
  · rw [update_iff .running .queued nofun, ← h.queued u, hperm.mem_iff, List.mem_cons]
    constructor
    · intro hu
      exact ⟨fun heq => (List.nodup_cons.mp hnodup).1 (heq ▸ hu), .inr hu⟩
    · rintro ⟨hne, hu⟩
      exact hu.resolve_left hne
  · rw [update_self_iff, List.mem_cons, h.running u]
  · rw [h.running t, ht] at hr
    cases hr

theorem step [DecidableEq τ] (h : Holds phase p) (hs : Step workers p m p') (ha : Advances m phase phase') : Holds phase' p' := by
  cases hs with
  | stay =>
    rw [show phase' = phase from ha]
    exact h
  | @submit t =>
    obtain ⟨ht, rfl⟩ := ha
    refine ⟨fun u => ?_, fun u => ?_, ?_, h.running_nodup⟩
    · rw [update_self_iff, List.mem_append, List.mem_singleton, h.queued u, or_comm]
    · rw [update_iff .queued .running nofun, h.running u]
      refine ⟨fun hu => ⟨?_, hu⟩, fun hu => hu.2⟩
      rintro rfl
      rw [ht] at hu
      cases hu
    · refine List.nodup_append'.mpr ⟨h.queue_nodup, List.nodup_singleton t, ?_⟩
      rw [List.disjoint_singleton, h.queued t, ht]
      exact nofun
  | startFirst _ _ hq =>
    obtain ⟨ht, rfl⟩ := ha
    exact h.start (by rw [hq]) ht
  | startAny _ hq =>
    obtain ⟨ht, rfl⟩ := ha
    exact h.start (by rw [hq]; exact List.perm_middle) ht
  | @finish t hmem =>
    obtain ⟨ht, rfl⟩ := ha
    refine ⟨fun u => ?_, fun u => ?_, h.queue_nodup, h.running_nodup.erase t⟩
    · rw [update_iff .ended .queued nofun, h.queued u]
      refine ⟨fun hu => ⟨?_, hu⟩, fun hu => hu.2⟩
      rintro rfl
      rw [ht] at hu
      cases hu
    · rw [update_iff .ended .running nofun, h.running_nodup.mem_erase_iff, h.running u]

end Holds

/-! ## First in, first out -/

/-- Of two tasks that are submitted in this order, the later one is not taken before the earlier one. -/
structure InOrder (before : τ → τ → Prop) (phase : τ → Phase) (p : Pool τ) : Prop where
  queue : p.queue.Pairwise fun a b => ¬before b a
  taken : ∀ a b, before a b → phase a = .queued → phase b = .absent ∨ phase b = .queued

namespace InOrder
variable {before : τ → τ → Prop}

theorem init (h : ∀ t, phase t = .absent) : InOrder before phase {} :=
  ⟨.nil, fun a _ _ ha => by rw [h a] at ha; cases ha⟩

/-- A task that `before` puts in front is submitted first. -/
theorem step [DecidableEq τ] {k : Nat} (h : InOrder before phase p) (hh : Holds phase p)
    (hsubmit : ∀ a b, before a b → phase a = .absent → phase b = .absent) (hs : Step (some k) p m p')
    (ha : Advances m phase phase') : InOrder before phase' p' := by
  cases hs with
  | stay =>
    rw [show phase' = phase from ha]
    exact h
  | @submit t =>
    obtain ⟨ht, rfl⟩ := ha
    refine ⟨List.pairwise_append.mpr ⟨h.queue, List.pairwise_singleton _ _, ?_⟩, fun a b hab hq => ?_⟩
    · intro a hmem b hb hba
      obtain rfl := List.mem_singleton.mp hb
      have := hsubmit b a hba ht
      rw [(hh.queued a).mp hmem] at this
      cases this
    · by_cases hb : b = t
      · rw [hb, Function.update_self]
        exact .inr rfl
      · rw [Function.update_of_ne hb]
        rcases Holds.update_self_iff.mp hq with rfl | hq
        · exact .inl (hsubmit a b hab ht)
        · exact h.taken a b hab hq
  | @startFirst t rest _ _ _ hq =>
    obtain ⟨ht, rfl⟩ := ha
    have hpair := h.queue
    rw [hq, List.pairwise_cons] at hpair
    refine ⟨hpair.2, fun a b hab hqa => ?_⟩
    obtain ⟨hne, hqa⟩ := (Holds.update_iff .running .queued nofun).mp hqa
    have hmem : a ∈ rest := by
      have := (hh.queued a).mpr hqa
      rw [hq] at this
      exact (List.mem_cons.mp this).resolve_left hne
    by_cases hb : b = t
    · subst hb
      exact (hpair.1 a hmem hab).elim
    · rw [Function.update_of_ne hb]
      exact h.taken a b hab hqa
  | startAny hnone _ => cases hnone
  | @finish t _ =>
    obtain ⟨ht, rfl⟩ := ha
    refine ⟨h.queue, fun a b hab hqa => ?_⟩
    have hold := ((Holds.update_iff .ended .queued nofun).mp hqa).2
    by_cases hb : b = t
    · subst hb
      rcases h.taken a b hab hold with h' | h' <;> rw [ht] at h' <;> cases h'
    · rw [Function.update_of_ne hb]
      exact h.taken a b hab hold

end InOrder

/-! ## Room -/

open Classical in
/-- Wherever the queue is cut, fewer tasks than workers wait across the cut. -/
def Roomy (workers : Option Nat) (waits : τ → τ → Prop) (p : Pool τ) : Prop :=
  ∀ k, workers = some k → ∀ ahead behind, p.queue = ahead ++ behind →
    (p.running ++ ahead).countP (fun t => ∃ b ∈ behind, waits t b) < k

namespace Roomy
variable {waits waits' : τ → τ → Prop}

theorem init (h : ∀ k, workers = some k → 0 < k) : Roomy workers waits {} := by
  intro k hk ahead behind hq
  obtain ⟨rfl, rfl⟩ := List.append_eq_nil_iff.mp hq.symm
  exact h k hk

theorem mono (h : Roomy workers waits p) (hw : ∀ t b, waits' t b → waits t b) : Roomy workers waits' p := by
  classical
  intro k hk ahead behind hq
  refine Nat.lt_of_le_of_lt (List.countP_mono_left fun t _ ht => ?_) (h k hk ahead behind hq)
  obtain ⟨b, hb, hwaits⟩ := of_decide_eq_true ht
  exact decide_eq_true ⟨b, hb, hw t b hwaits⟩

/-- A task that nobody waits for takes no room. -/
theorem submit (h : Roomy workers waits p) {t : τ} (ht : ∀ u, ¬waits u t) (hpos : ∀ k, workers = some k → 0 < k) :
    Roomy workers waits { p with queue := p.queue ++ [t] } := by
  classical
  intro k hk ahead behind hq
  rcases List.eq_nil_or_concat behind with rfl | ⟨behind, u, rfl⟩
  · rw [List.countP_eq_zero.mpr]
    · exact hpos k hk
    · intro u _ hu
      obtain ⟨b, hb, -⟩ := of_decide_eq_true hu
      cases hb
  · rw [List.concat_eq_append, ← List.append_assoc] at hq
    obtain ⟨hold, hu⟩ := List.append_inj' hq rfl
    obtain rfl := List.singleton_inj.mp hu
    refine Nat.lt_of_le_of_lt (List.countP_mono_left fun v _ hv => ?_) (h k hk ahead behind hold)
    obtain ⟨b, hb, hwaits⟩ := of_decide_eq_true hv
    rw [List.concat_eq_append, List.mem_append, List.mem_singleton] at hb
    rcases hb with hb | rfl
    · exact decide_eq_true ⟨b, hb, hwaits⟩
    · exact (ht v hwaits).elim

/-- Only a submission can take room. -/
theorem step [DecidableEq τ] (h : Roomy workers waits p) (hs : Step workers p m p') (hm : ∀ t, m ≠ some (.submit t)) :
    Roomy workers waits p' := by
  classical
  cases hs with
  | stay => exact h
  | submit => exact (hm _ rfl).elim
  | @startFirst t rest _ _ _ hq =>
    intro k hk ahead behind hsplit
    have hlt := h k hk (t :: ahead) behind (hq.trans (congrArg (t :: ·) hsplit))
    rwa [List.Perm.countP_eq _ List.perm_middle] at hlt
  | startAny hnone _ =>
    intro k hk
    rw [hnone] at hk
    cases hk
  | finish _ =>
    intro k hk ahead behind hsplit
    refine Nat.lt_of_le_of_lt ?_ (h k hk ahead behind hsplit)
    exact (List.Sublist.append (List.erase_sublist ..) (List.Sublist.refl ahead)).countP_le

/-- When every worker has a task, one of them does not wait for a queued one. -/
theorem free {k : Nat} (h : Roomy (some k) waits p) (hfull : k ≤ p.running.length) :
    ∃ t ∈ p.running, ∀ b ∈ p.queue, ¬waits t b := by
  classical
  by_contra hall
  push Not at hall
  have hlt := h k rfl [] p.queue rfl
  rw [List.append_nil, List.countP_eq_length.mpr fun t ht => decide_eq_true (hall t ht)] at hlt
  omega

end Roomy

end WorkerPool
