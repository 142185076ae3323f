/-! # Runs of fallible code

What a successful `Except` computation tells: the parts of a bind, and an invariant along a fold. -/

namespace Except
universe u v
variable {ε : Type u} {α β σ : Type v}

theorem bind_eq_ok {x : Except ε α} {f : α → Except ε β} {b : β} :
    x >>= f = .ok b ↔ ∃ a, x = .ok a ∧ f a = .ok b := by
  cases x with
  | error e => exact ⟨nofun, nofun⟩
  | ok a => exact ⟨fun h => ⟨a, rfl, h⟩, fun ⟨_, ha, h⟩ => by cases ha; exact h⟩

theorem ok_bind (a : α) (f : α → Except ε β) : (.ok a : Except ε α) >>= f = f a := rfl

theorem map_eq_ok {x : Except ε α} {f : α → β} {b : β} : f <$> x = .ok b ↔ ∃ a, x = .ok a ∧ f a = b := by
  cases x with
  | error e => exact ⟨nofun, nofun⟩
  | ok a => exact ⟨fun h => ⟨a, rfl, by cases h; rfl⟩, fun ⟨_, ha, h⟩ => by cases ha; exact h ▸ rfl⟩

theorem error_ne_ok {e : ε} {a : α} : (.error e : Except ε α) ≠ .ok a := nofun

theorem pure_eq_ok {a b : α} : (pure a : Except ε α) = .ok b ↔ a = b :=
  ⟨fun h => by cases h; rfl, fun h => h ▸ rfl⟩

theorem eq_ok_getD {x : Except ε α} (h : x.toOption.isSome = true) (a : α) : x = .ok (x.toOption.getD a) := by
  cases x with
  | error e => cases h
  | ok b => rfl

/-- A fold that succeeds keeps what its rounds keep. The step sees which part of the list is behind it. -/
theorem foldlM_invariant {f : σ → α → Except ε σ} {P : List α → σ → Prop} {l : List α} {s s' : σ}
    (h : l.foldlM f s = .ok s') (h0 : P [] s)
    (hstep : ∀ pre a t t', a ∈ l → P pre t → f t a = .ok t' → P (pre ++ [a]) t') : P l s' := by
  suffices H : ∀ (l pre : List α) (s : σ), l.foldlM f s = .ok s' → P pre s →
      (∀ pre a t t', a ∈ l → P pre t → f t a = .ok t' → P (pre ++ [a]) t') → P (pre ++ l) s' by
    simpa using H l [] s h h0 hstep
  intro l
  induction l with
  | nil =>
    intro pre s h h0 _
    rw [List.foldlM_nil, pure_eq_ok] at h
    simpa [← h] using h0
  | cons a l ih =>
    intro pre s h h0 hstep
    rw [List.foldlM_cons, bind_eq_ok] at h
    obtain ⟨t, ht, h⟩ := h
    have := ih (pre ++ [a]) t h (hstep pre a s t List.mem_cons_self h0 ht)
      fun pre b t t' hb => hstep pre b t t' (List.mem_cons_of_mem _ hb)
    simpa using this

theorem forM_eq_ok {f : α → Except ε PUnit} {l : List α} {u : PUnit} : l.forM f = .ok u ↔ ∀ a ∈ l, f a = .ok u := by
  induction l with
  | nil => simp [List.forM, pure, Except.pure]
  | cons a l ih =>
    show (f a >>= fun _ => l.forM f) = _ ↔ _
    rw [bind_eq_ok, List.forall_mem_cons]
    constructor
    · rintro ⟨u', ha, hl⟩
      exact ⟨ha, ih.mp hl⟩
    · rintro ⟨ha, hl⟩
      exact ⟨u, ha, ih.mpr hl⟩

/-- A fold whose rounds only check their element: it succeeds where every check does. -/
theorem foldlM_guarded {f : σ → α → Except ε σ} {next : σ → α → σ} {P : σ → Prop} {ok : α → Prop} {l : List α}
    (hnext : ∀ s, ∀ a ∈ l, P s → P (next s a))
    (hf : ∀ s, ∀ a ∈ l, P s → ∀ s', f s a = .ok s' ↔ ok a ∧ s' = next s a) {s s' : σ} (h : P s) :
    l.foldlM f s = .ok s' ↔ (∀ a ∈ l, ok a) ∧ s' = l.foldl next s := by
  induction l generalizing s with
  | nil => simpa [eq_comm] using pure_eq_ok (a := s) (b := s')
  | cons a l ih =>
    have hnext' : ∀ s, ∀ b ∈ l, P s → P (next s b) := fun s b hb => hnext s b (List.mem_cons_of_mem _ hb)
    have hf' : ∀ s, ∀ b ∈ l, P s → ∀ s', f s b = .ok s' ↔ ok b ∧ s' = next s b :=
      fun s b hb => hf s b (List.mem_cons_of_mem _ hb)
    have ha := hf s a List.mem_cons_self h
    rw [List.foldlM_cons, bind_eq_ok, List.forall_mem_cons, List.foldl_cons]
    constructor
    · rintro ⟨t, ht, hrest⟩
      obtain ⟨hok, rfl⟩ := (ha t).mp ht
      obtain ⟨hall, hs'⟩ := (ih hnext' hf' (hnext s a List.mem_cons_self h)).mp hrest
      exact ⟨⟨hok, hall⟩, hs'⟩
    · rintro ⟨⟨hok, hall⟩, hs'⟩
      exact ⟨_, (ha _).mpr ⟨hok, rfl⟩, (ih hnext' hf' (hnext s a List.mem_cons_self h)).mpr ⟨hall, hs'⟩⟩

end Except
