import Mathlib.Logic.Relation

/-! # What every run comes to

A state from which every way to go on leads to `P`: somebody can always move, and no run goes on for ever before
`P` holds. -/

universe u

inductive Inevitably {α : Type u} (R : α → α → Prop) (P : α → Prop) : α → Prop
  | now {a : α} : P a → Inevitably R P a
  | later {a : α} : (∃ b, R a b) → (∀ b, R a b → Inevitably R P b) → Inevitably R P a

namespace Inevitably
variable {α : Type u} {R : α → α → Prop} {P I : α → Prop}

/-- An invariant, a measure that every step lowers, and a step wherever `P` does not hold yet. -/
theorem of_measure (m : α → Nat) (hstep : ∀ a b, I a → ¬P a → R a b → I b ∧ m b < m a)
    (hprogress : ∀ a, I a → ¬P a → ∃ b, R a b) {a : α} (ha : I a) : Inevitably R P a := by
  induction hm : m a using Nat.strongRecOn generalizing a with
  | ind n ih =>
    by_cases hp : P a
    · exact .now hp
    · refine .later (hprogress a ha hp) fun b hab => ?_
      obtain ⟨hb, hlt⟩ := hstep a b ha hp hab
      exact ih (m b) (hm ▸ hlt) hb rfl

theorem mono {Q : α → Prop} (hpq : ∀ a, P a → Q a) {a : α} (h : Inevitably R P a) : Inevitably R Q a := by
  induction h with
  | now hp => exact .now (hpq _ hp)
  | later hex _ ih => exact .later hex ih

/-- There is such a run. -/
theorem reaches {a : α} (h : Inevitably R P a) : ∃ b, Relation.ReflTransGen R a b ∧ P b := by
  induction h with
  | now hp => exact ⟨_, .refl, hp⟩
  | later hex _ ih =>
    obtain ⟨b, hab⟩ := hex
    obtain ⟨c, hbc, hc⟩ := ih b hab
    exact ⟨c, .head hab hbc, hc⟩

end Inevitably
