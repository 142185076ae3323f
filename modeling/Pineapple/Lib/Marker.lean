import Mathlib.Data.List.TakeWhile
import Pineapple.Lib.LineReader

/-! # Marked words

The texts that the regular expression `\x7b\x7b(\w+)\x7d\x7d` finds, over any alphabet, and what an encoding of the
alphabet does to them. -/

namespace Marker
open LineReader

universe u v
variable {α : Type u} {β : Type v} [DecidableEq α] [DecidableEq β]

structure Alphabet (α : Type u) where
  opening : α
  closing : α
  word : α → Bool
  opening_ne_closing : opening ≠ closing
  word_opening : word opening = false
  word_closing : word closing = false

def Alphabet.mark (A : Alphabet α) (field : List α) : List α :=
  A.opening :: A.opening :: (field ++ [A.closing, A.closing])

/-- The word of a marker at the start of the text, and the text after the marker. -/
def at? (A : Alphabet α) (s : List α) : Option (List α × List α) := do
  let s ← literal [A.opening, A.opening] s
  let (field, s) := run A.word s
  let rest ← literal [A.closing, A.closing] s
  if field = [] then none else return (field, rest)

/-- The text has a marker. -/
def search (A : Alphabet α) : List α → Bool
  | [] => false
  | x :: s => (at? A (x :: s)).isSome || search A s

/-- The word of a text that is a marker as a whole. -/
def whole (A : Alphabet α) (s : List α) : Option (List α) :=
  match at? A s with
  | some (field, []) => some field
  | _ => none

variable {A : Alphabet α} {B : Alphabet β} {s field rest : List α}

theorem literal_eq_some {p s t : List α} : literal p s = some t ↔ s = p ++ t := by
  constructor
  · intro h
    induction p generalizing s with
    | nil =>
      rw [literal_nil] at h
      cases h
      rfl
    | cons c p ih =>
      rcases s with _ | ⟨d, s⟩
      · cases h
      · rw [literal] at h
        split at h
        · next hcd => rw [hcd, List.cons_append, ih h]
        · cases h
  · rintro rfl
    exact literal_append p t

theorem at?_eq_some : at? A s = some (field, rest) ↔
    field ≠ [] ∧ (∀ x ∈ field, A.word x = true) ∧ s = A.mark field ++ rest := by
  unfold at?
  simp only [Option.bind_eq_bind, Option.bind_eq_some_iff, literal_eq_some]
  constructor
  · rintro ⟨t, rfl, u, hu, h⟩
    split at h
    · cases h
    · next hne =>
      cases h
      refine ⟨hne, fun x hx => List.mem_takeWhile_imp hx, ?_⟩
      have hsplit := List.takeWhile_append_dropWhile (p := A.word) (l := t)
      rw [run] at hu
      simp only at hu
      rw [hu] at hsplit
      simp only [Alphabet.mark, run, List.cons_append, List.append_assoc, List.nil_append]
      conv_lhs => rw [← hsplit]
      rfl
  · rintro ⟨hne, hword, rfl⟩
    have hrun : run A.word (field ++ A.closing :: A.closing :: rest) = (field, A.closing :: A.closing :: rest) :=
      run_append hword A.word_closing _
    refine ⟨field ++ A.closing :: A.closing :: rest, by simp [Alphabet.mark], rest, ?_, ?_⟩ <;> rw [hrun]
    · rfl
    · rw [if_neg hne]
      rfl

theorem whole_eq_some : whole A s = some field ↔ field ≠ [] ∧ (∀ x ∈ field, A.word x = true) ∧ s = A.mark field := by
  unfold whole
  constructor
  · intro h
    split at h
    · next heq =>
      cases h
      simpa using at?_eq_some.mp heq
    · cases h
  · rintro ⟨hne, hword, rfl⟩
    have : at? A (A.mark field) = some (field, []) := at?_eq_some.mpr ⟨hne, hword, (List.append_nil _).symm⟩
    rw [this]

/-- The text has a marker exactly when it can be taken apart around one. -/
theorem search_iff : search A s = true ↔
    ∃ a field b, s = a ++ (A.mark field ++ b) ∧ field ≠ [] ∧ ∀ x ∈ field, A.word x = true := by
  induction s with
  | nil => simp [search, Alphabet.mark]
  | cons x s ih =>
    rw [search, Bool.or_eq_true, ih, Option.isSome_iff_exists]
    constructor
    · rintro (⟨⟨field, b⟩, h⟩ | ⟨a, field, b, rfl, h⟩)
      · obtain ⟨hne, hword, hs⟩ := at?_eq_some.mp h
        exact ⟨[], field, b, hs, hne, hword⟩
      · exact ⟨x :: a, field, b, rfl, h⟩
    · rintro ⟨a, field, b, hs, hne, hword⟩
      rcases a with _ | ⟨y, a⟩
      · exact .inl ⟨(field, b), at?_eq_some.mpr ⟨hne, hword, hs⟩⟩
      · rw [List.cons_append, List.cons.injEq] at hs
        exact .inr ⟨a, field, b, hs.2, hne, hword⟩

omit [DecidableEq α] in
/-- A marker holds no other. -/
theorem eq_of_mark {W : Alphabet α} (hopening : W.opening = A.opening) (hclosing : W.closing = A.closing)
    (hsub : ∀ x, A.word x = true → W.word x = true) {a b g : List α} (hfield : ∀ x ∈ field, W.word x = true)
    (hg : ∀ x ∈ g, A.word x = true) (h : W.mark field = a ++ (A.mark g ++ b)) : a = [] ∧ g = field ∧ b = [] := by
  -- a word has no opening symbol, so the marker's two are the first ones
  have ha : a = [] := by
    have hsecond : (W.mark field)[a.length + 1]? = some W.opening := by
      rw [h, List.getElem?_append_right (Nat.le_succ _), hopening]
      simp [Alphabet.mark]
    rcases a with _ | ⟨y, a⟩
    · rfl
    · rw [Alphabet.mark, List.length_cons, List.getElem?_cons_succ, List.getElem?_cons_succ] at hsecond
      have hin := List.mem_of_getElem? hsecond
      rcases List.mem_append.mp hin with hin | hin
      · have := hfield _ hin
        rw [W.word_opening] at this
        cases this
      · simp [W.opening_ne_closing] at hin
  subst ha
  rw [List.nil_append, Alphabet.mark, Alphabet.mark, hopening, List.cons_append, List.cons_append, List.cons_inj_right,
    List.cons_inj_right, List.append_assoc, ← hclosing] at h
  have hrun := run_append hfield W.word_closing [W.closing]
  have hrun' : run W.word (g ++ W.closing :: W.closing :: b) = (g, W.closing :: W.closing :: b) :=
    run_append (fun x hx => hsub x (hg x hx)) W.word_closing _
  have heq : (field, [W.closing, W.closing]) = (g, W.closing :: W.closing :: b) := by
    rw [← hrun, ← hrun']
    exact congrArg _ h
  simp only [Prod.mk.injEq, List.cons.injEq, true_and] at heq
  exact ⟨rfl, heq.1.symm, heq.2.symm⟩

/-! ## Encodings -/

/-- The symbols of a marker are encoded as single symbols of their kind, and no other symbol's code has one. -/
structure Encodes (A : Alphabet α) (B : Alphabet β) (e : α → List β) : Prop where
  opening : e A.opening = [B.opening]
  closing : e A.closing = [B.closing]
  word : ∀ x, A.word x = true → ∃ y, e x = [y] ∧ B.word y = true
  other : ∀ x, x ≠ A.opening → x ≠ A.closing → A.word x = false →
    e x ≠ [] ∧ ∀ y ∈ e x, y ≠ B.opening ∧ y ≠ B.closing ∧ B.word y = false

variable {e : α → List β}

omit [DecidableEq β] in
theorem Encodes.ne_nil (h : Encodes A B e) (x : α) : e x ≠ [] := by
  by_cases ho : x = A.opening
  · simp [ho, h.opening]
  by_cases hc : x = A.closing
  · simp [hc, h.closing]
  by_cases hw : A.word x = true
  · obtain ⟨y, hy, -⟩ := h.word x hw
    simp [hy]
  · exact (h.other x ho hc (Bool.eq_false_iff.mpr hw)).1

omit [DecidableEq β] in
/-- The code of no symbol but the opening one has the opening symbol. -/
theorem Encodes.ne_opening (h : Encodes A B e) {x : α} (ho : x ≠ A.opening) : ∀ y ∈ e x, y ≠ B.opening := by
  intro y hy
  by_cases hc : x = A.closing
  · rw [hc, h.closing, List.mem_singleton] at hy
    exact hy ▸ B.opening_ne_closing.symm
  by_cases hw : A.word x = true
  · obtain ⟨z, hz, hzword⟩ := h.word x hw
    rw [hz, List.mem_singleton] at hy
    rintro rfl
    rw [← hy, B.word_opening] at hzword
    cases hzword
  · exact ((h.other x ho hc (Bool.eq_false_iff.mpr hw)).2 y hy).1

omit [DecidableEq β] in
theorem Encodes.ne_closing (h : Encodes A B e) {x : α} (hc : x ≠ A.closing) : ∀ y ∈ e x, y ≠ B.closing := by
  intro y hy
  by_cases ho : x = A.opening
  · rw [ho, h.opening, List.mem_singleton] at hy
    exact hy ▸ B.opening_ne_closing
  by_cases hw : A.word x = true
  · obtain ⟨z, hz, hzword⟩ := h.word x hw
    rw [hz, List.mem_singleton] at hy
    rintro rfl
    rw [← hy, B.word_closing] at hzword
    cases hzword
  · exact ((h.other x ho hc (Bool.eq_false_iff.mpr hw)).2 y hy).2.1

theorem literal_flatMap {x : α} {y : β} (hx : e x = [y]) (hother : ∀ z, z ≠ x → e z ≠ [] ∧ ∀ w ∈ e z, w ≠ y)
    (p : List β) (s : List α) :
    literal (y :: p) (s.flatMap e) = (literal [x] s).bind fun t => literal p (t.flatMap e) := by
  rcases s with _ | ⟨z, s⟩
  · rfl
  · by_cases hz : z = x
    · subst hz
      simp [hx]
    · obtain ⟨hne, hall⟩ := hother z hz
      obtain ⟨w, l, hw⟩ := List.exists_cons_of_ne_nil hne
      have hwy : y ≠ w := Ne.symm (hall w (by simp [hw]))
      rw [List.flatMap_cons, hw, List.cons_append, literal, if_neg hwy, literal, if_neg (Ne.symm hz)]
      rfl

theorem literal_pair {x : α} {y : β} (hx : e x = [y]) (hother : ∀ z, z ≠ x → e z ≠ [] ∧ ∀ w ∈ e z, w ≠ y) (s : List α) :
    literal [y, y] (s.flatMap e) = (literal [x, x] s).map (List.flatMap e) := by
  have hone : ∀ t : List α, literal [y] (t.flatMap e) = (literal [x] t).map (List.flatMap e) := fun t => by
    rw [literal_flatMap hx hother]
    rcases literal [x] t with _ | t <;> rfl
  have hcons : literal [x, x] s = (literal [x] s).bind (literal [x]) := by
    rcases s with _ | ⟨z, s⟩
    · rfl
    · by_cases hz : x = z
      · simp [hz]
      · simp [literal, hz]
  rw [literal_flatMap hx hother, hcons]
  simp only [hone]
  exact (Option.map_bind ..).symm

omit [DecidableEq β] in
theorem Encodes.run (h : Encodes A B e) (s : List α) :
    run B.word (s.flatMap e) = ((run A.word s).1.flatMap e, (run A.word s).2.flatMap e) := by
  induction s with
  | nil => rfl
  | cons x s ih =>
    rw [List.flatMap_cons]
    by_cases hw : A.word x = true
    · obtain ⟨y, hy, hyword⟩ := h.word x hw
      simp only [LineReader.run, Prod.mk.injEq] at ih ⊢
      simp [hy, hyword, hw, ih]
    · have hfirst : ∃ y l, e x = y :: l ∧ B.word y = false := by
        obtain ⟨y, l, hy⟩ := List.exists_cons_of_ne_nil (h.ne_nil x)
        refine ⟨y, l, hy, ?_⟩
        by_cases ho : x = A.opening
        · rw [ho, h.opening] at hy
          cases hy
          exact B.word_opening
        by_cases hc : x = A.closing
        · rw [hc, h.closing] at hy
          cases hy
          exact B.word_closing
        exact ((h.other x ho hc (Bool.eq_false_iff.mpr hw)).2 y (by simp [hy])).2.2
      obtain ⟨y, l, hy, hyword⟩ := hfirst
      simp [LineReader.run, hy, hyword, hw]

theorem Encodes.at? (h : Encodes A B e) (s : List α) :
    at? B (s.flatMap e) = (at? A s).map fun r => (r.1.flatMap e, r.2.flatMap e) := by
  have hopen := literal_pair h.opening fun z hz => ⟨h.ne_nil z, h.ne_opening hz⟩
  have hclose := literal_pair h.closing fun z hz => ⟨h.ne_nil z, h.ne_closing hz⟩
  have hnil : ∀ field : List α, field.flatMap e = [] ↔ field = [] := fun field => by
    rcases field with _ | ⟨x, field⟩
    · simp
    · simp [h.ne_nil x]
  unfold Marker.at?
  rw [hopen]
  rcases literal [A.opening, A.opening] s with _ | t
  · rfl
  simp only [Option.map_some, Option.bind_eq_bind, Option.bind_some, h.run, hclose]
  rcases literal [A.closing, A.closing] (LineReader.run A.word t).2 with _ | rest
  · rfl
  simp only [Option.map_some, Option.bind_some, hnil]
  split <;> rfl

theorem search_append {l t : List α} (hl : ∀ x ∈ l, x ≠ A.opening) : search A (l ++ t) = search A t := by
  induction l with
  | nil => rfl
  | cons x l ih =>
    rw [List.forall_mem_cons] at hl
    have hnone : at? A (x :: (l ++ t)) = none := by
      rw [at?, literal, if_neg (Ne.symm hl.1)]
      rfl
    rw [List.cons_append, search, hnone, ih hl.2]
    rfl

theorem Encodes.search (h : Encodes A B e) (s : List α) : search B (s.flatMap e) = search A s := by
  induction s with
  | nil => rfl
  | cons x s ih =>
    by_cases hx : x = A.opening
    · have hat := h.at? (x :: s)
      rw [List.flatMap_cons, hx, h.opening, List.singleton_append] at hat ⊢
      rw [Marker.search, Marker.search, hat, ih, Option.isSome_map]
    · rw [List.flatMap_cons, search_append (h.ne_opening hx), ih]
      exact (search_append (l := [x]) (by simpa using hx)).symm

theorem Encodes.whole (h : Encodes A B e) (s : List α) : whole B (s.flatMap e) = (whole A s).map (List.flatMap e) := by
  rw [Marker.whole, Marker.whole, h.at?]
  rcases Marker.at? A s with _ | ⟨field, _ | ⟨x, rest⟩⟩
  · rfl
  · rfl
  · obtain ⟨y, l, hy⟩ := List.exists_cons_of_ne_nil (h.ne_nil x)
    simp [hy]

end Marker
