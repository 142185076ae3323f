/-! # Logs of what was done to a state

A log replays from one state to another when its entries, done in order, lead there. What an entry needs of
the state it was done in is found again at the entry's place in the log. -/

universe u v
variable {α : Type u} {σ : Type v}

/-- `log`, done on `s₀` entry by entry, leads to the state. -/
inductive Replay (step : α → σ → σ → Prop) (s₀ : σ) : List α → σ → Prop
  | nil : Replay step s₀ [] s₀
  | snoc {log s s' a} : Replay step s₀ log s → step a s s' → Replay step s₀ (log ++ [a]) s'

namespace Replay
variable {step : α → σ → σ → Prop} {s₀ s : σ} {log : List α}

/-- The states on both sides of an entry. -/
theorem at_mem (h : Replay step s₀ log s) {a : α} (ha : a ∈ log) :
    ∃ pre s₁ s₂, pre ++ [a] <+: log ∧ Replay step s₀ pre s₁ ∧ step a s₁ s₂ := by
  induction h with
  | nil => exact absurd ha List.not_mem_nil
  | @snoc log s₁ s₂ b hlog hstep ih =>
    rcases List.mem_append.mp ha with ha | ha
    · obtain ⟨pre, t₁, t₂, hpre, hreplay, ht⟩ := ih ha
      exact ⟨pre, t₁, t₂, hpre.trans (List.prefix_append log [b]), hreplay, ht⟩
    · obtain rfl := List.mem_singleton.mp ha
      exact ⟨log, s₁, s₂, List.prefix_refl _, hlog, hstep⟩

/-- What every entry keeps. -/
theorem keeps {P : σ → Prop} (hkeeps : ∀ a s s', step a s s' → P s → P s') (h : Replay step s₀ log s) (hP : P s₀) :
    P s := by
  induction h with
  | nil => exact hP
  | snoc _ hstep ih => exact hkeeps _ _ _ hstep ih

/-- What one entry brings about and every entry keeps. -/
theorem of_mem {P : σ → Prop} (hkeeps : ∀ a s s', step a s s' → P s → P s') (h : Replay step s₀ log s) {a : α}
    (ha : a ∈ log) (hP : ∀ s s', step a s s' → P s') : P s := by
  induction h with
  | nil => exact absurd ha List.not_mem_nil
  | snoc _ hstep ih =>
    rcases List.mem_append.mp ha with ha | ha
    · exact hkeeps _ _ _ hstep (ih ha)
    · obtain rfl := List.mem_singleton.mp ha
      exact hP _ _ hstep

end Replay
