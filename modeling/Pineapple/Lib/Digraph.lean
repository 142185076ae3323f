import Mathlib.Logic.Relation
import Mathlib.Data.List.Nodup
import Mathlib.Order.Basic
import Mathlib.Algebra.Order.Ring.Nat

/-! # Reachability in finite directed graphs

Two facts about edge relations: edges that other paths cover can be dropped from an acyclic relation
without changing what is reachable, and a breadth-first search decides reachability. -/

namespace Digraph
open Relation

universe u
variable {α : Type u}

/-! ## Transitive reduction -/

/-- Let `E` increase `rank`, and let every edge of `E` be an edge of `E'` or have another way round. Then
`E'` reaches all that `E` reaches. -/
theorem reach_of_reduction {E E' : α → α → Prop} {rank : α → Nat} (hrank : ∀ u v, E u v → rank u < rank v)
    (hred : ∀ u v, E u v → E' u v ∨ ∃ w, E u w ∧ w ≠ v ∧ ReflTransGen E w v) {u v : α}
    (h : ReflTransGen E u v) : ReflTransGen E' u v := by
  have hle : ∀ {a b}, ReflTransGen E a b → rank a ≤ rank b := fun hab => by
    induction hab with
    | refl => exact le_rfl
    | tail _ hbc ih => exact ih.trans (hrank _ _ hbc).le
  -- Edges are covered shortest first: both halves of a detour are made of shorter edges.
  have hedge : ∀ n a b, rank b - rank a ≤ n → E a b → ReflTransGen E' a b := by
    intro n
    induction n with
    | zero => intro a b hn hab; have := hrank _ _ hab; omega
    | succ n ih =>
      intro a b hn hab
      rcases hred a b hab with h | ⟨w, haw, hne, hwb⟩
      · exact .single h
      · have hpath : ∀ {x y}, ReflTransGen E x y → rank y - rank x ≤ n → ReflTransGen E' x y := by
          intro x y hxy
          induction hxy with
          | refl => exact fun _ => .refl
          | @tail y z hxy hyz ihxy =>
            intro hz
            have hy := hle hxy
            have hyz' := hrank _ _ hyz
            exact (ihxy (by omega)).trans (ih y z (by omega) hyz)
        have h₁ := hrank _ _ haw
        obtain rfl | ⟨c, hwc, hcb⟩ := ReflTransGen.cases_tail_iff E w b |>.mp hwb |>.imp Eq.symm id
        · exact absurd rfl hne
        · have h₂ := hle hwc
          have h₃ := hrank _ _ hcb
          exact (ih a w (by omega) haw).trans (hpath hwb (by omega))
  induction h with
  | refl => exact .refl
  | tail _ hbc ih => exact ih.trans (hedge _ _ _ le_rfl hbc)

/-- Let `E` increase `rank`, and let `E'` be the edges of `E` that no other way covers. Then no edge of `E'` is
covered by the others. -/
theorem minimal_of_reduction {E E' : α → α → Prop} {rank : α → Nat} (hrank : ∀ u v, E u v → rank u < rank v)
    (hred : ∀ u v, E' u v → E u v ∧ ¬ ∃ w, E u w ∧ w ≠ v ∧ ReflTransGen E w v) {u v : α} (h : E' u v) :
    ¬ ReflTransGen (fun a b => E' a b ∧ (a, b) ≠ (u, v)) u v := by
  obtain ⟨huv, hnone⟩ := hred u v h
  intro hpath
  rcases ReflTransGen.cases_head hpath with rfl | ⟨w, ⟨huw, hne⟩, hwv⟩
  · exact absurd (hrank u u huv) (lt_irrefl _)
  · exact hnone ⟨w, (hred u w huw).1, fun heq => hne (heq ▸ rfl),
      ReflTransGen.mono (fun a b hab => (hred a b hab.1).1) w v hwv⟩

/-! ## Breadth-first search -/

variable [DecidableEq α]

/-- Mark and enqueue the nodes of `ns` that are not marked yet. -/
def enqueue (visited queue : List α) : List α → List α × List α
  | [] => (visited, queue)
  | n :: ns => if n ∈ visited then enqueue visited queue ns else enqueue (n :: visited) (queue ++ [n]) ns

/-- Take nodes off the queue, for at most `fuel` rounds, until `goal` comes up. -/
def search (next : α → List α) (goal : α) : Nat → List α → List α → Bool
  | 0, _, _ => false
  | _ + 1, _, [] => false
  | fuel + 1, visited, current :: queue =>
    if current = goal then true
    else
      let vq := enqueue visited queue (next current)
      search next goal fuel vq.1 vq.2

theorem mem_enqueue_visited {ns visited queue : List α} {x : α} :
    x ∈ (enqueue visited queue ns).1 ↔ x ∈ visited ∨ x ∈ ns := by
  induction ns generalizing visited queue with
  | nil => simp [enqueue]
  | cons n ns ih =>
    simp only [enqueue]
    split
    · next hn =>
      rw [ih, List.mem_cons]
      constructor
      · rintro (h | h)
        · exact Or.inl h
        · exact Or.inr (Or.inr h)
      · rintro (h | rfl | h)
        · exact Or.inl h
        · exact Or.inl hn
        · exact Or.inr h
    · rw [ih, List.mem_cons, List.mem_cons]; tauto

theorem mem_enqueue_queue {ns visited queue : List α} {x : α} :
    x ∈ (enqueue visited queue ns).2 ↔ x ∈ queue ∨ x ∈ ns ∧ x ∉ visited := by
  induction ns generalizing visited queue with
  | nil => simp [enqueue]
  | cons n ns ih =>
    simp only [enqueue]
    split
    · next hn =>
      rw [ih, List.mem_cons]
      constructor
      · rintro (h | h)
        · exact Or.inl h
        · exact Or.inr ⟨Or.inr h.1, h.2⟩
      · rintro (h | ⟨rfl | h, hx⟩)
        · exact Or.inl h
        · exact absurd hn hx
        · exact Or.inr ⟨h, hx⟩
    · next hn =>
      rw [ih, List.mem_append, List.mem_singleton, List.mem_cons, List.mem_cons]
      by_cases hxn : x = n
      · subst hxn; simp [hn]
      · simp [hxn]

/-- What the search finds lies ahead of a node of the queue. -/
theorem search_sound {next : α → List α} {goal : α} {fuel : Nat} {visited queue : List α}
    (h : search next goal fuel visited queue = true) :
    ∃ q ∈ queue, ReflTransGen (fun a b => b ∈ next a) q goal := by
  induction fuel generalizing visited queue with
  | zero => simp [search] at h
  | succ fuel ih =>
    cases queue with
    | nil => simp [search] at h
    | cons current queue =>
      rw [search] at h
      split at h
      · next hc => exact ⟨current, List.mem_cons_self, hc ▸ .refl⟩
      · obtain ⟨q, hq, hreach⟩ := ih h
        rcases mem_enqueue_queue.mp hq with hq | ⟨hq, -⟩
        · exact ⟨q, List.mem_cons_of_mem _ hq, hreach⟩
        · exact ⟨current, List.mem_cons_self, .head hq hreach⟩

/-- The nodes still to be marked, of those the graph has. -/
def unvisited (univ visited : List α) : List α := univ.filter (· ∉ visited)

theorem length_enqueue {univ ns : List α} (visited queue : List α) (hns : ∀ n ∈ ns, n ∈ univ) :
    (enqueue visited queue ns).2.length + (unvisited univ (enqueue visited queue ns).1).length ≤
      queue.length + (unvisited univ visited).length := by
  induction ns generalizing visited queue with
  | nil => exact le_rfl
  | cons n ns ih =>
    have hns' : ∀ m ∈ ns, m ∈ univ := fun m hm => hns m (List.mem_cons_of_mem _ hm)
    simp only [enqueue]
    split
    · exact ih _ _ hns'
    · next hn =>
      refine (ih _ _ hns').trans ?_
      have hlt : (unvisited univ (n :: visited)).length < (unvisited univ visited).length := by
        have hsub : (unvisited univ (n :: visited)).Sublist (unvisited univ visited) :=
          List.monotone_filter_right _ (by simp)
        refine lt_of_le_of_ne hsub.length_le fun he => ?_
        have hmem : n ∈ unvisited univ visited := by simp [unvisited, hn, hns]
        rw [← hsub.eq_of_length he] at hmem
        simp [unvisited] at hmem
      simp only [List.length_append, List.length_singleton]
      omega

/-- With a round for every node queued or still to come, a search that fails has marked all there is to
reach without passing a node of `barred`. -/
theorem search_complete {next : α → List α} {goal : α} (univ barred : List α) {fuel : Nat}
    {visited queue : List α} (huniv : ∀ a, ∀ n ∈ next a, n ∈ univ)
    (hfuel : queue.length + (unvisited univ visited).length < fuel)
    (hqueue : ∀ q ∈ queue, q ∈ visited)
    (hdone : ∀ a ∈ visited, a ∈ queue ∨ a ∈ barred ∨ a ≠ goal ∧ ∀ n ∈ next a, n ∈ visited)
    (h : search next goal fuel visited queue = false) :
    ∃ closed : List α, (∀ a ∈ visited, a ∈ closed) ∧
      ∀ a ∈ closed, a ∈ barred ∨ a ≠ goal ∧ ∀ n ∈ next a, n ∈ closed := by
  induction fuel generalizing visited queue with
  | zero => omega
  | succ fuel ih =>
    cases queue with
    | nil => exact ⟨visited, fun _ h => h, fun a ha => (hdone a ha).resolve_left List.not_mem_nil⟩
    | cons current queue =>
      rw [search] at h
      split at h
      · cases h
      · next hc =>
        have hlen := length_enqueue visited queue (huniv current)
        obtain ⟨closed, hsub, hclosed⟩ := ih (by simp only [List.length_cons] at hfuel; omega)
          (by
            intro q hq
            rcases mem_enqueue_queue.mp hq with hq | ⟨hq, -⟩
            · exact mem_enqueue_visited.mpr (Or.inl (hqueue q (List.mem_cons_of_mem _ hq)))
            · exact mem_enqueue_visited.mpr (Or.inr hq))
          (by
            intro a ha
            by_cases hav : a ∈ visited
            · rcases hdone a hav with h | h | ⟨h₁, h₂⟩
              · rcases List.mem_cons.mp h with rfl | h
                · exact Or.inr (Or.inr ⟨hc, fun n hn => mem_enqueue_visited.mpr (Or.inr hn)⟩)
                · exact Or.inl (mem_enqueue_queue.mpr (Or.inl h))
              · exact Or.inr (Or.inl h)
              · exact Or.inr (Or.inr ⟨h₁, fun n hn => mem_enqueue_visited.mpr (Or.inl (h₂ n hn))⟩)
            · have han := (mem_enqueue_visited.mp ha).resolve_left hav
              exact Or.inl (mem_enqueue_queue.mpr (Or.inr ⟨han, hav⟩)))
          h
        exact ⟨closed, fun a ha => hsub a (mem_enqueue_visited.mpr (Or.inl ha)), hclosed⟩

/-- On an acyclic graph the search that starts from the successors of `u` other than `v`, with `u` marked, finds
out whether there is a way from `u` to `v` besides the direct edge. -/
theorem search_detour_iff {next : α → List α} {rank : α → Nat} (hrank : ∀ a, ∀ b ∈ next a, rank a < rank b)
    {univ : List α} (huniv : ∀ a, ∀ n ∈ next a, n ∈ univ) {u v : α} {fuel : Nat} {visited queue : List α}
    (hfuel : queue.length + (unvisited univ visited).length < fuel)
    (hqueue : ∀ q, q ∈ queue ↔ q ∈ next u ∧ q ≠ v) (hvisited : ∀ a, a ∈ visited ↔ a ∈ queue ∨ a = u) :
    search next v fuel visited queue = true ↔
      ∃ w, w ∈ next u ∧ w ≠ v ∧ ReflTransGen (fun a b => b ∈ next a) w v := by
  constructor
  · intro hr
    obtain ⟨w, hw, hwv⟩ := search_sound hr
    obtain ⟨hw, hne⟩ := (hqueue w).mp hw
    exact ⟨w, hw, hne, hwv⟩
  · rintro ⟨w, huw, hne, hwv⟩
    by_contra hfalse
    rw [Bool.not_eq_true] at hfalse
    obtain ⟨closed, hsub, hclosed⟩ := search_complete univ [u] huniv hfuel
      (fun q hq => (hvisited q).mpr (Or.inl hq))
      (fun a ha => ((hvisited a).mp ha).imp_right fun h => Or.inl (List.mem_singleton.mpr h)) hfalse
    have hmem : w ∈ closed := hsub w ((hvisited w).mpr (Or.inl ((hqueue w).mpr ⟨huw, hne⟩)))
    -- The detour stays past `u`, the one node whose successors the search leaves out.
    have hpast : ∀ x, ReflTransGen (fun a b => b ∈ next a) w x → x ∈ closed ∧ rank u < rank x := by
      intro x hx
      induction hx with
      | refl => exact ⟨hmem, hrank u w huw⟩
      | @tail y z _ hyz ih =>
        rcases hclosed y ih.1 with hy | ⟨-, hy⟩
        · rw [List.mem_singleton.mp hy] at ih
          exact absurd ih.2 (lt_irrefl _)
        · exact ⟨hy z hyz, ih.2.trans (hrank y z hyz)⟩
    obtain ⟨hv, huv⟩ := hpast v hwv
    rcases hclosed v hv with hv | ⟨hv, -⟩
    · rw [List.mem_singleton.mp hv] at huv
      exact lt_irrefl _ huv
    · exact hv rfl

end Digraph
