import Mathlib.Data.List.Basic
import Mathlib.Tactic.Cases

/-! # Texts that diverge

Two texts diverge where each has an element of its own behind a common beginning. Nothing that is written after them
makes them equal, so that joined texts are compared part by part. -/

universe u v
variable {α : Type u} {β : Type v}

/-- Neither text is the beginning of the other. -/
inductive Diverge : List α → List α → Prop
  | here {a b : α} (s t : List α) : a ≠ b → Diverge (a :: s) (b :: t)
  | there (a : α) {s t : List α} : Diverge s t → Diverge (a :: s) (a :: t)

/-- Equal texts, or texts that diverge. -/
def EqOrDiverge (s t : List α) : Prop := s = t ∨ Diverge s t

namespace Diverge
variable {s t : List α}

theorem ne (h : Diverge s t) : s ≠ t := by
  induction h with
  | here s t hab => exact fun h => hab (List.cons.inj h).1
  | there a _ ih => exact fun h => ih (List.cons.inj h).2

theorem append (h : Diverge s t) (s' t' : List α) : Diverge (s ++ s') (t ++ t') := by
  induction h with
  | here s t hab => exact .here _ _ hab
  | there a _ ih => exact .there a ih

theorem append_left (h : Diverge s t) (p : List α) : Diverge (p ++ s) (p ++ t) := by
  induction p with
  | nil => exact h
  | cons a p ih => exact .there a ih

theorem flatMap {f : α → List β} (hf : ∀ {a b}, a ≠ b → Diverge (f a) (f b)) (h : Diverge s t) :
    Diverge (s.flatMap f) (t.flatMap f) := by
  induction h with
  | here s t hab =>
    rw [List.flatMap_cons, List.flatMap_cons]
    exact (hf hab).append _ _
  | there a _ ih =>
    rw [List.flatMap_cons, List.flatMap_cons]
    exact ih.append_left _

/-- Different texts of one length. -/
theorem of_length_eq (hlen : s.length = t.length) (hne : s ≠ t) : Diverge s t := by
  induction s generalizing t with
  | nil => exact absurd (List.length_eq_zero_iff.mp hlen.symm).symm hne
  | cons a s ih =>
    rcases t with _ | ⟨b, t⟩
    · cases hlen
    · by_cases hab : a = b
      · subst hab
        exact .there a (ih (Nat.succ.inj hlen) fun h => hne (congrArg _ h))
      · exact .here s t hab

end Diverge

namespace EqOrDiverge
variable {s t : List α}

theorem eq_iff_not (h : EqOrDiverge s t) : s = t ↔ ¬ Diverge s t :=
  ⟨fun heq hdiverge => hdiverge.ne heq, h.resolve_right⟩

/-- What follows is compared where the first texts are equal. -/
theorem append (h : EqOrDiverge s t) {s' t' : List α} (h' : EqOrDiverge s' t') :
    EqOrDiverge (s ++ s') (t ++ t') ∧ (s ++ s' = t ++ t' ↔ s = t ∧ s' = t') := by
  rcases h with rfl | h
  · refine ⟨?_, by rw [List.append_right_inj, eq_self, true_and]⟩
    rcases h' with rfl | h'
    · exact Or.inl rfl
    · exact Or.inr (h'.append_left s)
  · exact ⟨Or.inr (h.append _ _), iff_of_false (h.append _ _).ne fun heq => h.ne heq.1⟩

/-- A wrapped text. -/
theorem wrap (h : EqOrDiverge s t) (p q : List α) :
    EqOrDiverge (p ++ s ++ q) (p ++ t ++ q) ∧ (p ++ s ++ q = p ++ t ++ q ↔ s = t) := by
  have hp : EqOrDiverge p p := Or.inl rfl
  have hq : EqOrDiverge q q := Or.inl rfl
  obtain ⟨hleft, hleft'⟩ := hp.append h
  obtain ⟨hall, hall'⟩ := hleft.append hq
  refine ⟨hall, hall'.trans ?_⟩
  rw [hleft']
  exact ⟨fun h => h.1.2, fun h => ⟨⟨rfl, h⟩, rfl⟩⟩

/-- Joined texts are equal exactly if their parts are. -/
theorem intercalate (sep : List α) {ps : List (List α × List α)} (h : ∀ p ∈ ps, EqOrDiverge p.1 p.2) :
    EqOrDiverge (sep.intercalate (ps.map Prod.fst)) (sep.intercalate (ps.map Prod.snd)) ∧
      (sep.intercalate (ps.map Prod.fst) = sep.intercalate (ps.map Prod.snd) ↔ ∀ p ∈ ps, p.1 = p.2) := by
  induction ps with
  | nil => exact ⟨Or.inl rfl, iff_of_true rfl nofun⟩
  | cons p ps ih =>
    obtain ⟨hp, hps⟩ := List.forall_mem_cons.mp h
    obtain ⟨ih, ih'⟩ := ih hps
    rw [List.forall_mem_cons]
    rcases ps with _ | ⟨q, ps⟩
    · simp only [List.map_cons, List.map_nil, List.intercalate_singleton]
      exact ⟨hp, ⟨fun h => ⟨h, nofun⟩, fun h => h.1⟩⟩
    · have hsep : EqOrDiverge sep sep := Or.inl rfl
      obtain ⟨hrest, hrest'⟩ := hsep.append ih
      obtain ⟨hall, hall'⟩ := hp.append hrest
      simp only [List.map_cons, List.intercalate_cons_cons, List.append_assoc] at hall hall' hrest' ih' ⊢
      refine ⟨hall, hall'.trans (and_congr_right fun _ => hrest'.trans ?_)⟩
      rw [← ih', true_and]

end EqOrDiverge
