import Mathlib.Data.List.Perm.Subperm
import Pineapple.DagInv
import Pineapple.Scheduler

/-! # What holds in every state of a run

`SchedInv` relates the counters to the calls under way. Every node is in at most one place (to be seeded,
queued, ready, under way, returned), it is in one exactly if its in-degree is zero, its in-degree counts the
predecessors that have not reached it yet, and `remaining` counts the nodes that have not returned. The order
of the stacks does not matter, so the invariant speaks of the list of all calls. -/

namespace Pineapple
open Relation

namespace Activation

/-- The successors the call has still to reach. -/
def pending (g : Graph) (a : Activation) : List Nat :=
  match a.phase with
  | .start | .running => g.succs a.node
  | .propagate rest | .ready _ rest => rest
  | .signal => []

/-- The successor the call has found ready and not handed out yet. -/
def ready? (a : Activation) : Option Nat :=
  match a.phase with
  | .ready v _ => some v
  | _ => none

def isSignal (a : Activation) : Bool := a.phase = .signal

/-- The operator's body is over. -/
def bodyOver (a : Activation) : Prop := a.phase ≠ .start ∧ a.phase ≠ .running

end Activation

/-- The places of the nodes that are ready or past that. -/
def places (sh : Shared) (as : List Activation) : List Nat :=
  sh.seeds ++ sh.queue ++ as.filterMap Activation.ready? ++ as.map Activation.node ++ sh.returned

/-- `p` has counted down the in-degree of its successor `v`. -/
def delivered (g : Graph) (sh : Shared) (as : List Activation) (p v : Nat) : Bool :=
  p ∈ sh.returned ∨ ∃ a ∈ as, a.node = p ∧ v ∉ a.pending g

structure SchedInv (g : Graph) (sh : Shared) (as : List Activation) : Prop where
  nodup : (places sh as).Nodup
  place_lt : ∀ v ∈ places sh as, v < g.nodes.length
  place_iff : ∀ v < g.nodes.length, v ∈ places sh as ↔ sh.inDegree v = 0
  degree : ∀ v < g.nodes.length, sh.inDegree v = (g.preds v).countP fun p => !delivered g sh as p v
  pending : ∀ a ∈ as, a.pending g <:+ g.succs a.node
  dispatched : sh.dispatched.Perm (as.map Activation.node ++ sh.returned)
  finished : ∀ v, v ∈ sh.finished ↔ v ∈ sh.returned ∨ ∃ a ∈ as, a.node = v ∧ a.bodyOver
  remaining : sh.remaining + sh.returned.length + as.countP Activation.isSignal = g.nodes.length
  signal_le : as.countP Activation.isSignal ≤ 1
  signal : 0 < as.countP Activation.isSignal → sh.remaining = 0
  done : sh.done = true → sh.returned.length = g.nodes.length
  latched : sh.remaining = 0 → 0 < g.nodes.length → sh.done = true ∨ 0 < as.countP Activation.isSignal

theorem count_places (sh : Shared) (as : List Activation) (w : Nat) :
    (places sh as).count w = sh.seeds.count w + sh.queue.count w + (as.filterMap Activation.ready?).count w +
      (as.map Activation.node).count w + sh.returned.count w := by
  simp only [places, List.count_append]

theorem countP_flip {α : Type} {l : List α} {P Q : α → Bool} {x : α} (hnd : l.Nodup) (hx : x ∈ l) (hP : P x = true)
    (hQ : Q x = false) (h : ∀ y ∈ l, y ≠ x → P y = Q y) : l.countP P = l.countP Q + 1 := by
  obtain ⟨l₁, l₂, rfl⟩ := List.append_of_mem hx
  have hnot := List.nodup_middle.mp hnd
  rw [List.nodup_cons, List.mem_append, not_or] at hnot
  have h₁ : l₁.countP P = l₁.countP Q := List.countP_congr fun y hy => by
    rw [h y (by simp [hy]) (fun he => hnot.1.1 (he ▸ hy))]
  have h₂ : l₂.countP P = l₂.countP Q := List.countP_congr fun y hy => by
    rw [h y (by simp [hy]) (fun he => hnot.1.2 (he ▸ hy))]
  simp only [List.countP_append, List.countP_cons, hP, hQ, h₁, h₂]
  simp; omega

namespace SchedInv
variable {g : Graph} {sh : Shared} {as bs : List Activation}

theorem places_perm (h : as.Perm bs) : (places sh as).Perm (places sh bs) :=
  ((((List.Perm.refl _).append (h.filterMap _))).append (h.map _)).append_right _

theorem delivered_perm (h : as.Perm bs) (p v : Nat) : delivered g sh as p v = delivered g sh bs p v := by
  simp only [delivered, h.mem_iff]

theorem perm (hp : as.Perm bs) (h : SchedInv g sh as) : SchedInv g sh bs where
  nodup := (places_perm hp).nodup_iff.mp h.nodup
  place_lt v hv := h.place_lt v ((places_perm hp).mem_iff.mpr hv)
  place_iff v hv := by rw [← (places_perm hp).mem_iff]; exact h.place_iff v hv
  degree v hv := by simpa only [delivered_perm hp] using h.degree v hv
  pending a ha := h.pending a (hp.mem_iff.mpr ha)
  dispatched := h.dispatched.trans ((hp.map _).append_right _)
  finished v := by simpa only [hp.mem_iff] using h.finished v
  remaining := by rw [← hp.countP_eq]; exact h.remaining
  signal_le := by rw [← hp.countP_eq]; exact h.signal_le
  signal := by rw [← hp.countP_eq]; exact h.signal
  done := h.done
  latched := by rw [← hp.countP_eq]; exact h.latched

/-! ## Consequences -/

theorem under_way_nodup (h : SchedInv g sh as) : (as.map Activation.node ++ sh.returned).Nodup := by
  have := h.nodup
  simp only [places, List.append_assoc] at this
  exact (List.nodup_append'.mp (List.nodup_append'.mp (List.nodup_append'.mp this).2.1).2.1).2.1

theorem length_le (h : SchedInv g sh as) : as.length + sh.returned.length ≤ g.nodes.length := by
  have hsub : (as.map Activation.node ++ sh.returned) ⊆ List.range g.nodes.length := by
    intro v hv
    refine List.mem_range.mpr (h.place_lt v ?_)
    simp only [places, List.mem_append] at hv ⊢
    tauto
  have := (List.subperm_of_subset h.under_way_nodup hsub).length_le
  simpa using this

/-- A node that has a place has all its predecessors' bodies behind it. -/
theorem preds_finished (hg : GraphInv g) (h : SchedInv g sh as) {v p : Nat} (hv : v ∈ places sh as)
    (hp : p ∈ g.preds v) : p ∈ sh.finished := by
  have hlt := h.place_lt v hv
  have hdeg := h.degree v hlt
  rw [(h.place_iff v hlt).mp hv] at hdeg
  have hzero : (g.preds v).countP (fun p => !delivered g sh as p v) = 0 := by omega
  have hdel := List.countP_eq_zero.mp hzero p hp
  simp only [Bool.not_eq_true', Bool.not_eq_false, delivered, decide_eq_true_eq] at hdel
  refine (h.finished p).mpr (hdel.imp_right ?_)
  rintro ⟨a, ha, rfl, hnot⟩
  refine ⟨a, ha, rfl, ?_, ?_⟩ <;> intro hphase <;>
    exact hnot (by simpa only [Activation.pending, hphase] using (hg.dual _ _).mp hp)

theorem remaining_pos (h : SchedInv g sh as) {a : Activation} (ha : a ∈ as) (hsig : a.isSignal = false) :
    0 < sh.remaining := by
  have hlt : as.countP Activation.isSignal < as.length := by
    refine lt_of_le_of_ne List.countP_le_length fun he => ?_
    have := List.countP_eq_length.mp he a ha
    rw [hsig] at this
    cases this
  have := h.length_le
  have := h.remaining
  omega

/-- The calls are pairwise calls of different nodes, and none of them is a call of a node that returned. -/
theorem not_mem_of_cons {a : Activation} (h : SchedInv g sh (a :: as)) :
    a.node ∉ sh.returned ∧ ∀ b ∈ as, b.node ≠ a.node := by
  have hnd := h.under_way_nodup
  rw [List.map_cons, List.cons_append, List.nodup_cons, List.mem_append, not_or] at hnd
  exact ⟨hnd.1.2, fun b hb he => hnd.1.1 (he ▸ List.mem_map_of_mem hb)⟩

/-! ## The steps -/

theorem delivered_iff {p v : Nat} :
    delivered g sh as p v = true ↔ p ∈ sh.returned ∨ ∃ a ∈ as, a.node = p ∧ v ∉ a.pending g := by
  simp [delivered]

/-- Delivery is a matter of the calls' pending lists, as far as actual successors go. -/
theorem delivered_congr {sh' : Shared} (hg : GraphInv g) {v p : Nat} (hp : p ∈ g.preds v)
    (h : v ∈ g.succs p → ((p ∈ sh'.returned ∨ ∃ a ∈ bs, a.node = p ∧ v ∉ a.pending g) ↔
      (p ∈ sh.returned ∨ ∃ a ∈ as, a.node = p ∧ v ∉ a.pending g))) :
    delivered g sh' bs p v = delivered g sh as p v := by
  rw [Bool.eq_iff_iff, delivered_iff, delivered_iff]
  exact h ((hg.dual p v).mp hp)

/-- A step that moves nodes between places, or changes no place at all: in-degrees and the countdown stay. -/
theorem move {sh' : Shared} (h : SchedInv g sh as) (hplaces : (places sh' bs).Perm (places sh as))
    (hdeg : sh'.inDegree = sh.inDegree)
    (hdel : ∀ v p, p ∈ g.preds v → delivered g sh' bs p v = delivered g sh as p v)
    (hpend : ∀ a ∈ bs, a.pending g <:+ g.succs a.node)
    (hdisp : sh'.dispatched.Perm (bs.map Activation.node ++ sh'.returned))
    (hfin : ∀ v, v ∈ sh'.finished ↔ v ∈ sh'.returned ∨ ∃ a ∈ bs, a.node = v ∧ a.bodyOver)
    (hret : sh'.returned = sh.returned) (hrem : sh'.remaining = sh.remaining) (hdone : sh'.done = sh.done)
    (hsig : bs.countP Activation.isSignal = as.countP Activation.isSignal) : SchedInv g sh' bs where
  nodup := hplaces.nodup_iff.mpr h.nodup
  place_lt v hv := h.place_lt v (hplaces.mem_iff.mp hv)
  place_iff v hv := by rw [hplaces.mem_iff, hdeg]; exact h.place_iff v hv
  degree v hv := by
    rw [hdeg, h.degree v hv]
    exact congrArg _ (List.countP_congr fun p hp => by rw [hdel v p hp])
  pending := hpend
  dispatched := hdisp
  finished := hfin
  remaining := by rw [hrem, hret, hsig]; exact h.remaining
  signal_le := by rw [hsig]; exact h.signal_le
  signal := by rw [hsig, hrem]; exact h.signal
  done := by rw [hdone, hret]; exact h.done
  latched := by rw [hrem, hdone, hsig]; exact h.latched

/-- The body of a node goes on or ends: the call keeps all its successors to reach. -/
theorem bodyStep {sh' : Shared} {i : Nat} {ph ph' : Phase} (hg : GraphInv g) (h : SchedInv g sh (⟨i, ph⟩ :: as))
    (hph : ph = .start ∨ ph = .running) (hph' : ph' = .running ∨ ph' = .propagate (g.succs i))
    (hdeg : sh'.inDegree = sh.inDegree) (hrem : sh'.remaining = sh.remaining) (hdone : sh'.done = sh.done)
    (hqueue : sh'.queue = sh.queue) (hseeds : sh'.seeds = sh.seeds) (hdisp : sh'.dispatched = sh.dispatched)
    (hret : sh'.returned = sh.returned)
    (hfin : sh'.finished = if ph' = .running then sh.finished else sh.finished ++ [i]) :
    SchedInv g sh' (⟨i, ph'⟩ :: as) := by
  have hpend : Activation.pending g ⟨i, ph⟩ = g.succs i := by rcases hph with rfl | rfl <;> rfl
  have hpend' : Activation.pending g ⟨i, ph'⟩ = g.succs i := by rcases hph' with rfl | rfl <;> rfl
  have hready : Activation.ready? ⟨i, ph⟩ = none := by rcases hph with rfl | rfl <;> rfl
  have hready' : Activation.ready? ⟨i, ph'⟩ = none := by rcases hph' with rfl | rfl <;> rfl
  have hsig : Activation.isSignal ⟨i, ph⟩ = false := by rcases hph with rfl | rfl <;> rfl
  have hsig' : Activation.isSignal ⟨i, ph'⟩ = false := by rcases hph' with rfl | rfl <;> rfl
  have hover : ¬ Activation.bodyOver ⟨i, ph⟩ := by rcases hph with rfl | rfl <;> simp [Activation.bodyOver]
  refine h.move ?_ hdeg ?_ ?_ ?_ ?_ hret hrem hdone ?_
  · simp [places, hqueue, hseeds, hret, hready, hready']
  · intro v p hp
    refine delivered_congr hg hp fun _ => ?_
    simp [hret, hpend, hpend']
  · intro b hb
    rcases List.mem_cons.mp hb with rfl | hb
    · exact ⟨[], hpend'⟩
    · exact h.pending b (List.mem_cons_of_mem _ hb)
  · rw [hdisp, hret]; exact h.dispatched
  · intro v
    have hold := h.finished v
    rw [hfin, hret]
    simp only [List.mem_cons, exists_eq_or_imp, hover, and_false, false_or] at hold ⊢
    rcases hph' with rfl | rfl
    · rw [if_pos rfl, hold]
      simp [Activation.bodyOver]
    · have hover' : Activation.bodyOver ⟨i, .propagate (g.succs i)⟩ := ⟨nofun, nofun⟩
      rw [if_neg nofun, List.mem_append, hold, List.mem_singleton]
      simp only [hover', and_true]
      constructor
      · rintro ((hr | ha) | rfl)
        · exact Or.inl hr
        · exact Or.inr (Or.inr ha)
        · exact Or.inr (Or.inl rfl)
      · rintro (hr | rfl | ha)
        · exact Or.inl (Or.inl hr)
        · exact Or.inr rfl
        · exact Or.inl (Or.inr ha)
  · simp [hsig, hsig']

/-- A node goes from a place outside the stacks onto one: its `node_body` is entered. -/
theorem begin {sh' : Shared} {v : Nat} (hg : GraphInv g) (h : SchedInv g sh as)
    (hplaces : (places sh' (⟨v, .start⟩ :: as)).Perm (places sh as)) (hdeg : sh'.inDegree = sh.inDegree)
    (hrem : sh'.remaining = sh.remaining) (hdone : sh'.done = sh.done) (hret : sh'.returned = sh.returned)
    (hdisp : sh'.dispatched = sh.dispatched ++ [v]) (hfin : sh'.finished = sh.finished) :
    SchedInv g sh' (⟨v, .start⟩ :: as) := by
  refine h.move hplaces hdeg ?_ ?_ ?_ ?_ hret hrem hdone ?_
  · intro w p hp
    refine delivered_congr hg hp fun hw => ?_
    rw [hret]
    simp only [List.mem_cons, exists_eq_or_imp, Activation.pending]
    constructor
    · rintro (hr | ⟨rfl, hnot⟩ | ha)
      · exact Or.inl hr
      · exact absurd hw hnot
      · exact Or.inr ha
    · rintro (hr | ha)
      · exact Or.inl hr
      · exact Or.inr (Or.inr ha)
  · intro b hb
    rcases List.mem_cons.mp hb with rfl | hb
    · exact List.suffix_refl _
    · exact h.pending b hb
  · rw [hdisp, hret, List.map_cons]
    exact (h.dispatched.append_right _).trans (List.perm_append_singleton _ _)
  · intro w
    rw [hfin, hret, h.finished w]
    simp only [List.mem_cons, exists_eq_or_imp, Activation.bodyOver]
    simp
  · simp [Activation.isSignal]

/-- A call hands its ready successor out: the successor leaves the call's place for another. -/
theorem handOut {sh' : Shared} {i v : Nat} {rest : List Nat} (hg : GraphInv g)
    (h : SchedInv g sh (⟨i, .ready v rest⟩ :: as)) (hsh : sh' = { sh with queue := sh.queue ++ [v] }) :
    SchedInv g sh' (⟨i, .propagate rest⟩ :: as) := by
  subst hsh
  refine h.move ?_ rfl ?_ ?_ h.dispatched ?_ rfl rfl rfl ?_
  · refine List.perm_iff_count.mpr fun w => ?_
    simp only [count_places, List.count_append, List.filterMap_cons, Activation.ready?, List.map_cons,
      List.count_cons, List.count_nil]
    omega
  · intro w p hp
    exact delivered_congr hg hp fun _ => by simp [Activation.pending]
  · intro b hb
    rcases List.mem_cons.mp hb with rfl | hb
    · exact h.pending ⟨i, .ready v rest⟩ List.mem_cons_self
    · exact h.pending b (List.mem_cons_of_mem _ hb)
  · intro w
    have := h.finished w
    simpa [Activation.bodyOver] using this
  · simp [Activation.isSignal]

/-- One in-degree is counted down; the node whose last predecessor this was becomes ready. -/
theorem decrement {sh' : Shared} {i v : Nat} {rest : List Nat} (hg : GraphInv g)
    (h : SchedInv g sh (⟨i, .propagate (v :: rest)⟩ :: as))
    (hsh : sh' = { sh with inDegree := Function.update sh.inDegree v (sh.inDegree v - 1) }) :
    SchedInv g sh' (⟨i, if sh.inDegree v = 1 then .ready v rest else .propagate rest⟩ :: as) := by
  obtain ⟨hret, hother⟩ := h.not_mem_of_cons
  have hsuff : (v :: rest) <:+ g.succs i := h.pending _ List.mem_cons_self
  have hv : v ∈ g.succs i := hsuff.mem List.mem_cons_self
  have hvlt : v < g.nodes.length := (hg.forward i v hv).2
  have hnot : v ∉ rest := (List.nodup_cons.mp (hsuff.sublist.nodup (hg.succs_nodup i))).1
  have hin : sh'.inDegree = Function.update sh.inDegree v (sh.inDegree v - 1) := hsh ▸ rfl
  have hret' : sh'.returned = sh.returned := hsh ▸ rfl
  generalize hph : (if sh.inDegree v = 1 then Phase.ready v rest else Phase.propagate rest) = ph
  have hpend : Activation.pending g ⟨i, ph⟩ = rest := by subst hph; split <;> rfl
  have hsig : Activation.isSignal ⟨i, ph⟩ = false := by subst hph; split <;> rfl
  have hover : Activation.bodyOver ⟨i, ph⟩ := by subst hph; split <;> exact ⟨nofun, nofun⟩
  -- The only pair whose delivery changes is `(i, v)`.
  have hdel : ∀ p w, ¬ (p = i ∧ w = v) →
      delivered g sh' (⟨i, ph⟩ :: as) p w = delivered g sh (⟨i, .propagate (v :: rest)⟩ :: as) p w := by
    intro p w hne
    rw [Bool.eq_iff_iff, delivered_iff, delivered_iff, hret']
    simp only [List.mem_cons, exists_eq_or_imp, hpend]
    have : (i = p ∧ w ∉ rest) ↔ (i = p ∧ w ∉ Activation.pending g ⟨i, .propagate (v :: rest)⟩) := by
      simp only [Activation.pending, List.mem_cons, not_or]
      constructor
      · rintro ⟨rfl, hw⟩; exact ⟨rfl, fun he => hne ⟨rfl, he⟩, hw⟩
      · rintro ⟨rfl, -, hw⟩; exact ⟨rfl, hw⟩
    rw [this]
  have hbefore : delivered g sh (⟨i, .propagate (v :: rest)⟩ :: as) i v = false := by
    rw [Bool.eq_false_iff, Ne, delivered_iff]
    rintro (hr | ⟨a, ha, hai, hav⟩)
    · exact hret hr
    · rcases List.mem_cons.mp ha with rfl | ha
      · exact hav List.mem_cons_self
      · exact hother a ha hai
  have hafter : delivered g sh' (⟨i, ph⟩ :: as) i v = true :=
    delivered_iff.mpr (Or.inr ⟨_, List.mem_cons_self, rfl, by rwa [hpend]⟩)
  have hcount : (g.preds v).countP (fun p => !delivered g sh (⟨i, .propagate (v :: rest)⟩ :: as) p v) =
      (g.preds v).countP (fun p => !delivered g sh' (⟨i, ph⟩ :: as) p v) + 1 :=
    countP_flip (hg.preds_nodup v) ((hg.dual i v).mpr hv) (by rw [hbefore]; rfl) (by rw [hafter]; rfl)
      fun p _ hp => by rw [hdel p v fun hc => hp hc.1]
  have hdegv := h.degree v hvlt
  have hvplace : v ∉ places sh (⟨i, .propagate (v :: rest)⟩ :: as) := by
    rw [h.place_iff v hvlt]; omega
  have hperm : (places sh' (⟨i, ph⟩ :: as)).Perm
      ((if sh.inDegree v = 1 then [v] else []) ++ places sh (⟨i, .propagate (v :: rest)⟩ :: as)) := by
    refine List.perm_iff_count.mpr fun w => ?_
    subst hph hsh
    split <;> simp only [count_places, List.count_append, List.filterMap_cons, Activation.ready?, List.map_cons,
      List.count_cons, List.count_nil] <;> omega
  constructor
  · rw [hperm.nodup_iff]
    split
    · exact List.nodup_cons.mpr ⟨hvplace, h.nodup⟩
    · exact h.nodup
  · intro w hw
    rw [hperm.mem_iff, List.mem_append] at hw
    rcases hw with hw | hw
    · split at hw
      · exact List.mem_singleton.mp hw ▸ hvlt
      · cases hw
    · exact h.place_lt w hw
  · intro w hw
    rw [hperm.mem_iff, List.mem_append, h.place_iff w hw, hin]
    by_cases hwv : w = v
    · subst hwv
      rw [Function.update_self]
      split
      · next h1 => simp [h1]
      · next h1 => simp; omega
    · rw [Function.update_of_ne hwv]
      split <;> simp [hwv]
  · intro w hw
    rw [hin]
    by_cases hwv : w = v
    · subst hwv; rw [Function.update_self]; omega
    · rw [Function.update_of_ne hwv, h.degree w hw]
      exact congrArg _ (List.countP_congr fun p _ => by rw [hdel p w fun hc => hwv hc.2])
  · intro b hb
    rcases List.mem_cons.mp hb with rfl | hb
    · rw [hpend]; exact (List.suffix_cons v rest).trans hsuff
    · exact h.pending b (List.mem_cons_of_mem _ hb)
  · subst hsh; exact h.dispatched
  · intro w
    have hfin := h.finished w
    have hover' : Activation.bodyOver ⟨i, .propagate (v :: rest)⟩ := ⟨nofun, nofun⟩
    subst hsh
    simp only [List.mem_cons, exists_eq_or_imp, hover, hover', and_true] at hfin ⊢
    exact hfin
  all_goals subst hsh; simp only [List.countP_cons, hsig]
  · exact h.remaining
  · exact h.signal_le
  · exact h.signal
  · exact h.done
  · exact h.latched

/-- A call that has reached all successors returns; the countdown is settled by the last five facts. -/
theorem leave {sh' : Shared} {a : Activation} (hg : GraphInv g) (h : SchedInv g sh (a :: as))
    (hpend : a.pending g = []) (hready : a.ready? = none) (hover : a.bodyOver)
    (hin : sh'.inDegree = sh.inDegree) (hseeds : sh'.seeds = sh.seeds) (hqueue : sh'.queue = sh.queue)
    (hdisp : sh'.dispatched = sh.dispatched) (hfin : sh'.finished = sh.finished)
    (hret : sh'.returned = sh.returned ++ [a.node])
    (remaining : sh'.remaining + sh'.returned.length + as.countP Activation.isSignal = g.nodes.length)
    (signal_le : as.countP Activation.isSignal ≤ 1) (signal : 0 < as.countP Activation.isSignal → sh'.remaining = 0)
    (done : sh'.done = true → sh'.returned.length = g.nodes.length)
    (latched : sh'.remaining = 0 → 0 < g.nodes.length → sh'.done = true ∨ 0 < as.countP Activation.isSignal) :
    SchedInv g sh' as := by
  have hplaces : (places sh' as).Perm (places sh (a :: as)) := by
    refine List.perm_iff_count.mpr fun w => ?_
    simp only [count_places, hseeds, hqueue, hret, List.count_append, List.filterMap_cons, hready, List.map_cons,
      List.count_cons, List.count_nil]
    omega
  refine ⟨hplaces.nodup_iff.mpr h.nodup, fun v hv => h.place_lt v (hplaces.mem_iff.mp hv), fun v hv => ?_,
    fun v hv => ?_, fun b hb => h.pending b (List.mem_cons_of_mem _ hb), ?_, fun v => ?_, remaining, signal_le,
    signal, done, latched⟩
  · rw [hplaces.mem_iff, hin]; exact h.place_iff v hv
  · rw [hin, h.degree v hv]
    refine congrArg _ (List.countP_congr fun p hp => ?_)
    have hdel : delivered g sh' as p v = delivered g sh (a :: as) p v := delivered_congr hg hp fun _ => by
      simp only [List.mem_cons, exists_eq_or_imp, hret, List.mem_append, hpend, List.not_mem_nil, not_false_eq_true,
        and_true, or_false]
      rw [or_assoc, @eq_comm _ p a.node]
    rw [hdel]
  · rw [hdisp, hret, ← List.append_assoc]
    refine h.dispatched.trans (List.Perm.trans ?_ (List.perm_append_singleton _ _).symm)
    rw [List.map_cons, List.cons_append]
  · rw [hfin, hret, h.finished v]
    simp only [List.mem_cons, exists_eq_or_imp, List.mem_append, hover, and_true, List.not_mem_nil, or_false]
    rw [or_assoc, @eq_comm _ v a.node]

theorem countDown {i : Nat} (hg : GraphInv g) (h : SchedInv g sh (⟨i, .propagate []⟩ :: as)) (h1 : sh.remaining ≠ 1) :
    SchedInv g { sh with remaining := sh.remaining - 1, returned := sh.returned ++ [i] } as := by
  have hpos := h.remaining_pos List.mem_cons_self rfl
  have hrem := h.remaining
  have hsig := h.signal
  have hle := h.length_le
  have hdone := h.done
  rw [List.countP_cons_of_neg (by simp [Activation.isSignal])] at hrem hsig
  have hzero : as.countP Activation.isSignal = 0 := by
    by_contra hne
    have := hsig (Nat.pos_of_ne_zero hne)
    omega
  refine h.leave hg rfl rfl ⟨nofun, nofun⟩ rfl rfl rfl rfl rfl rfl ?_ ?_ ?_ ?_ ?_
  · simp only [List.length_append, List.length_singleton]; omega
  · omega
  · omega
  · intro hd
    have := hdone hd
    simp only [List.length_cons] at hle
    omega
  · intro h0
    simp only at h0
    omega

theorem signalDone {i : Nat} (hg : GraphInv g) (h : SchedInv g sh (⟨i, .signal⟩ :: as)) :
    SchedInv g { sh with done := true, returned := sh.returned ++ [i] } as := by
  have hrem := h.remaining
  have hsig := h.signal
  have hle := h.signal_le
  rw [List.countP_cons_of_pos (by simp [Activation.isSignal])] at hrem hsig hle
  have h0 := hsig (by omega)
  refine h.leave hg rfl rfl ⟨nofun, nofun⟩ rfl rfl rfl rfl rfl rfl ?_ ?_ ?_ ?_ ?_
  · simp only [List.length_append, List.length_singleton]; omega
  · omega
  · exact fun _ => h0
  · intro _
    simp only [List.length_append, List.length_singleton]; omega
  · exact fun _ _ => Or.inl rfl

theorem last {i : Nat} (hg : GraphInv g) (h : SchedInv g sh (⟨i, .propagate []⟩ :: as)) (h1 : sh.remaining = 1) :
    SchedInv g { sh with remaining := sh.remaining - 1 } (⟨i, .signal⟩ :: as) := by
  have hrem := h.remaining
  have hsig := h.signal
  rw [List.countP_cons_of_neg (by simp [Activation.isSignal])] at hrem hsig
  have hzero : as.countP Activation.isSignal = 0 := by
    by_contra hne
    have := hsig (Nat.pos_of_ne_zero hne)
    omega
  have hcount : List.countP Activation.isSignal (⟨i, .signal⟩ :: as) = 1 := by
    rw [List.countP_cons_of_pos (by simp [Activation.isSignal]), hzero]
  refine ⟨h.nodup, h.place_lt, h.place_iff, fun v hv => ?_, fun b hb => ?_, h.dispatched, fun v => ?_, ?_, ?_, ?_, h.done, ?_⟩
  · rw [h.degree v hv]
    refine congrArg _ (List.countP_congr fun p hp => ?_)
    have hdel : delivered g { sh with remaining := sh.remaining - 1 } (⟨i, .signal⟩ :: as) p v =
        delivered g sh (⟨i, .propagate []⟩ :: as) p v :=
      delivered_congr hg hp fun _ => by simp [Activation.pending]
    rw [hdel]
  · rcases List.mem_cons.mp hb with rfl | hb
    · exact List.nil_suffix
    · exact h.pending b (List.mem_cons_of_mem _ hb)
  · have := h.finished v
    simpa [Activation.bodyOver] using this
  · rw [hcount]; simp only; omega
  · rw [hcount]
  · intro _; simp only; omega
  · intro _ _; rw [hcount]; exact Or.inr one_pos

/-- Every step of a call keeps the invariant. -/
theorem activation {pool : Bool} {sh' : Shared} {a : Activation} {ev : Option RunEvent} {new : List Activation}
    (hg : GraphInv g) (h : SchedInv g sh (a :: as)) (hstep : a.Step g pool sh ev sh' new) : SchedInv g sh' (new ++ as) := by
  cases hstep with
  | notRun _ => exact h.bodyStep hg (Or.inl rfl) (Or.inr rfl) rfl rfl rfl rfl rfl rfl rfl (if_neg nofun).symm
  | enter _ => exact h.bodyStep hg (Or.inl rfl) (Or.inl rfl) rfl rfl rfl rfl rfl rfl rfl (if_pos rfl).symm
  | finish => exact h.bodyStep hg (Or.inr rfl) (Or.inr rfl) rfl rfl rfl rfl rfl rfl rfl (if_neg nofun).symm
  | @fail i =>
    have hfail : ∀ {α} (f : Shared → α), (∀ e c, f { sh with fatalErr := e, cancelled := c } = f sh) → f (sh.fail i) = f sh := by
      intro α f hf
      unfold Shared.fail
      split
      · exact hf _ _
      · rfl
    refine h.bodyStep hg (Or.inr rfl) (Or.inr rfl) ?_ ?_ ?_ ?_ ?_ ?_ ?_ (if_neg nofun).symm
    · exact hfail Shared.inDegree fun _ _ => rfl
    · exact hfail Shared.remaining fun _ _ => rfl
    · exact hfail Shared.done fun _ _ => rfl
    · exact hfail Shared.queue fun _ _ => rfl
    · exact hfail Shared.seeds fun _ _ => rfl
    · exact hfail Shared.dispatched fun _ _ => rfl
    · exact hfail Shared.returned fun _ _ => rfl
  | decrement => exact h.decrement hg rfl
  | submit _ => exact h.handOut hg rfl
  | @inline i v rest =>
    -- As if the successor went through the queue.
    refine (h.handOut hg rfl).begin hg (List.perm_iff_count.mpr fun w => ?_) rfl rfl rfl rfl rfl rfl
    simp only [count_places, List.count_append, List.filterMap_cons, Activation.ready?, List.map_cons, List.count_cons,
      List.count_nil]
    omega
  | countDown h1 => exact h.countDown hg h1
  | last h1 => exact h.last hg h1
  | signal => exact h.signalDone hg

theorem init (g : Graph) (poolSize : Nat) : SchedInv g (SchedState.init g poolSize).shared [] where
  nodup := by simpa [places, SchedState.init] using List.nodup_range.filter _
  place_lt v hv := by simp [places, SchedState.init] at hv; exact hv.1
  place_iff v hv := by simp [places, SchedState.init, hv]
  degree v hv := by
    have : (g.preds v).countP (fun p => !delivered g (SchedState.init g poolSize).shared [] p v) = (g.preds v).length :=
      List.countP_eq_length.mpr fun p _ => by simp [delivered, SchedState.init]
    rw [this]; rfl
  pending := nofun
  dispatched := List.Perm.refl _
  finished v := by simp [SchedState.init]
  remaining := by simp [SchedState.init]
  signal_le := by simp
  signal := nofun
  done := nofun
  latched h0 hpos := by
    have h0' : (g.nodes.length : Int) = 0 := h0
    omega

/-- Every step of the system keeps the invariant. -/
theorem step {pool : Bool} {s s' : SchedState} {ev : Option RunEvent} (hg : GraphInv g)
    (h : SchedInv g s.shared s.activations) (hstep : SchedStep g pool s ev s') :
    SchedInv g s'.shared s'.activations := by
  cases hstep with
  | @main a st _ sh new hmain ha =>
    rw [SchedState.activations, hmain, List.cons_append] at h
    simpa [SchedState.activations] using h.activation hg ha
  | @worker pre a st post _ sh new hw ha =>
    have hp : s.activations.Perm (a :: (s.main ++ pre.flatten ++ st ++ post.flatten)) := by
      rw [SchedState.activations, hw]
      simp only [List.flatten_append, List.flatten_cons, List.cons_append]
      rw [← List.append_assoc]
      exact List.perm_middle.trans (by simp)
    refine ((h.perm hp).activation hg ha).perm ?_
    simp only [SchedState.activations, List.flatten_append, List.flatten_cons]
    refine List.perm_iff_count.mpr fun b => ?_
    simp only [List.count_append]
    omega
  | @take pre post i rest hw hq =>
    have hp : (⟨i, .start⟩ :: s.activations).Perm
        (s.main ++ (pre ++ [⟨i, .start⟩] :: post).flatten) := by
      rw [SchedState.activations, hw]
      refine List.perm_iff_count.mpr fun b => ?_
      simp only [List.flatten_append, List.flatten_cons, List.count_append, List.count_cons, List.count_nil]
      omega
    have hb : SchedInv g { s.shared with queue := rest, dispatched := s.shared.dispatched ++ [i] }
        (⟨i, .start⟩ :: s.activations) := by
      refine h.begin hg (List.perm_iff_count.mpr fun w => ?_) rfl rfl rfl rfl rfl rfl
      simp only [count_places, hq, List.filterMap_cons, Activation.ready?, List.map_cons, List.count_cons]
      omega
    exact hb.perm hp
  | @seedSubmit i rest _ hmain hseeds =>
    refine h.move (List.perm_iff_count.mpr fun w => ?_) rfl (fun _ _ _ => rfl) h.pending h.dispatched h.finished rfl rfl
      rfl rfl
    simp only [count_places, hseeds, SchedState.activations, List.count_append, List.count_cons, List.count_nil]
    omega
  | @seedInline i rest hmain hseeds =>
    have hp : (⟨i, .start⟩ :: s.activations) = [⟨i, .start⟩] ++ s.workers.flatten := by
      rw [SchedState.activations, hmain]; rfl
    rw [SchedState.activations, ← hp]
    refine h.begin hg (List.perm_iff_count.mpr fun w => ?_) rfl rfl rfl rfl rfl rfl
    simp only [count_places, hseeds, List.filterMap_cons, Activation.ready?, List.map_cons, List.count_cons]
    omega
  | cancel =>
    exact h.move (List.Perm.refl _) rfl (fun _ _ _ => rfl) h.pending h.dispatched h.finished rfl rfl rfl rfl
  | wake _ _ _ _ => exact h

theorem reachable {pool : Bool} {poolSize : Nat} {s : SchedState} (hg : GraphInv g)
    (hr : SchedReachable g pool poolSize s) : SchedInv g s.shared s.activations := by
  induction hr with
  | refl =>
    have hnil : (SchedState.init g poolSize).activations = [] := by simp [SchedState.activations, SchedState.init]
    rw [hnil]; exact init g poolSize
  | tail _ hstep ih =>
    obtain ⟨ev, hstep⟩ := hstep
    exact ih.step hg hstep

/-- With every stack and queue empty every node has returned: the first that has not would have no
predecessor left to wait for. -/
theorem returned_of_idle (hg : GraphInv g) (h : SchedInv g sh []) (hseeds : sh.seeds = []) (hqueue : sh.queue = []) :
    ∀ v < g.nodes.length, v ∈ sh.returned := by
  intro v
  induction v using Nat.strong_induction_on with
  | _ v ih =>
    intro hv
    have hplaces : places sh [] = sh.returned := by simp [places, hseeds, hqueue]
    have hdel : ∀ p ∈ g.preds v, delivered g sh [] p v = true := fun p hp =>
      delivered_iff.mpr (Or.inl (ih p (hg.forward p v ((hg.dual p v).mp hp)).1
        ((hg.forward p v ((hg.dual p v).mp hp)).1.trans hv)))
    have hzero : (g.preds v).countP (fun p => !delivered g sh [] p v) = 0 :=
      List.countP_eq_zero.mpr fun p hp => by simp [hdel p hp]
    have := (h.place_iff v hv).mpr (by rw [h.degree v hv, hzero]; rfl)
    rwa [hplaces] at this

theorem length_returned (h : SchedInv g sh as) (hall : ∀ v < g.nodes.length, v ∈ sh.returned) :
    sh.returned.length = g.nodes.length := by
  have hle := h.length_le
  have hsub := List.subperm_of_subset (List.nodup_range (n := g.nodes.length))
    (fun v hv => hall v (List.mem_range.mp hv) : List.range g.nodes.length ⊆ sh.returned)
  have := hsub.length_le
  simp only [List.length_range] at this
  omega

end SchedInv

/-! ## Safety and the wait -/

/-- What the scheduler owes in one state. -/
structure SchedSafe (g : Graph) (s : SchedState) : Prop where
  /-- no node is dispatched twice -/
  once : s.shared.dispatched.Nodup
  /-- a node is dispatched after the bodies of its predecessors -/
  after_preds : ∀ v ∈ s.shared.dispatched, ∀ p ∈ g.preds v, p ∈ s.shared.finished
  counters : ∀ v < g.nodes.length, 0 ≤ s.shared.inDegree v
  done_iff : s.shared.done = true ↔ ∀ v < g.nodes.length, v ∈ s.shared.returned
  /-- at the end every node has been dispatched -/
  all_dispatched : s.shared.done = true → ∀ v < g.nodes.length, v ∈ s.shared.dispatched
  not_stuck : s.shared.seeds = [] → s.shared.queue = [] → s.activations = [] → s.shared.done = true

theorem SchedInv.safe {g : Graph} {s : SchedState} (hg : GraphInv g) (hne : g.nodes ≠ [])
    (h : SchedInv g s.shared s.activations) : SchedSafe g s := by
  have hpos : 0 < g.nodes.length := List.length_pos_iff.mpr hne
  have hdone : (∀ v < g.nodes.length, v ∈ s.shared.returned) → s.shared.done = true := by
    intro hall
    have hlen := h.length_returned hall
    have hle := h.length_le
    have hnil : s.activations = [] := List.length_eq_zero_iff.mp (by omega)
    have hrem := h.remaining
    rw [hnil, List.countP_nil] at hrem
    have := h.latched (by omega) hpos
    rw [hnil] at this
    simpa using this
  have hall : s.shared.done = true → ∀ v < g.nodes.length, v ∈ s.shared.returned := by
    intro hd v hv
    have hsub : s.shared.returned ⊆ List.range g.nodes.length := fun w hw =>
      List.mem_range.mpr (h.place_lt w (List.mem_append_right _ hw))
    have hperm := (List.subperm_of_subset (List.nodup_append'.mp h.under_way_nodup).2.1 hsub).perm_of_length_le
      (by rw [h.done hd, List.length_range])
    exact hperm.mem_iff.mpr (List.mem_range.mpr hv)
  refine ⟨h.dispatched.nodup_iff.mpr h.under_way_nodup, fun v hv p hp => ?_, fun v hv => ?_, ⟨hall, hdone⟩,
    fun hd v hv => ?_, fun hseeds hqueue hnil => ?_⟩
  · refine h.preds_finished hg ?_ hp
    have := h.dispatched.mem_iff.mp hv
    simp only [places, List.mem_append] at this ⊢
    tauto
  · rw [h.degree v hv]; exact Int.natCast_nonneg _
  · exact h.dispatched.mem_iff.mpr (List.mem_append_right _ (hall hd v hv))
  · rw [hnil] at h
    exact hdone (h.returned_of_idle hg hseeds hqueue)

end Pineapple
