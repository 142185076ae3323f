import Pineapple.Lib.NumberText

/-! # Where the readers of C, Go and Java agree

The texts that one reader takes and another refuses, for doubles and for integers. -/

namespace NumberText

/-! ## Blanks -/

theorem dropWhile_eq_self {p : Char → Bool} {s : List Char} (h : ∀ c ∈ s, p c = false) : s.dropWhile p = s := by
  cases s with
  | nil => rfl
  | cons c s => exact List.dropWhile_cons_of_neg (by simp [h c List.mem_cons_self])

theorem isSpace_le {c : Char} (h : isSpace c = true) : c.toNat ≤ 32 := by
  have hall : ∀ d ∈ [' ', '\t', '\n', '\x0b', '\x0c', '\r'], d.toNat ≤ 32 := of_all (by decide)
  exact hall c (of_decide_eq_true h)

/-- A text without blanks is what `strtod` and `parseDouble` read. -/
theorem unblanked {s : List Char} (h : ∀ c ∈ s, 32 < c.toNat) : s.dropWhile isSpace = s ∧ trim s = s := by
  refine ⟨dropWhile_eq_self fun c hc => Bool.eq_false_of_not_eq_true fun hs => ?_, ?_⟩
  · have := isSpace_le hs
    have := h c hc
    omega
  · have hblank : ∀ c ∈ s, decide (c.toNat ≤ 32) = false := by
      intro c hc
      have := h c hc
      exact decide_eq_false (by omega)
    unfold trim
    dsimp only
    rw [dropWhile_eq_self hblank, dropWhile_eq_self, List.reverse_reverse]
    exact fun c hc => hblank c (List.mem_reverse.mp hc)

theorem unblanked_of_signed {s : List Char} (h : ∀ c ∈ (signed s).2, 32 < c.toNat) : ∀ c ∈ s, 32 < c.toNat := by
  obtain ⟨pre, hs, -, hpre⟩ := signed_text s
  intro c hc
  rw [hs] at hc
  rcases List.mem_append.mp hc with hc | hc
  · exact (inked_of_sign (hpre c hc)).1
  · exact h c hc

theorem unblanked_letters {s : List Char} (h : ∀ c ∈ s, 97 ≤ c.toLower.toNat ∧ c.toLower.toNat ≤ 122) :
    ∀ c ∈ s, 32 < c.toNat := fun c hc => (inked_of_toLower (h c hc)).1

theorem lt_of_isAlphanum {c : Char} (h : c.isAlphanum = true) : 32 < c.toNat := by
  rcases Bool.or_eq_true_iff.mp (show (c.isAlpha || c.isDigit) = true from h) with h | h
  · rcases Bool.or_eq_true_iff.mp (show (c.isUpper || c.isLower) = true from h) with h | h
    · have hlow : 65 ≤ c.toNat := (of_decide_eq_true h).1
      omega
    · have hlow : 97 ≤ c.toNat := of_decide_eq_true (Bool.and_eq_true_iff.mp h).1
      omega
  · exact (inked_of_isDigit h).1

theorem unblanked_nanForm {s : List Char} (h : isNanForm s = true) : ∀ c ∈ s, 32 < c.toNat := by
  obtain ⟨a, b, c, t, rfl, hlower, ht⟩ := isNanForm_take h
  have hword := unblanked_letters (letter_of_lower (of_all (by decide)) hlower)
  have htail : ∀ d ∈ t, 32 < d.toNat := by
    rcases ht with rfl | ⟨u, rfl, hu⟩
    · exact nofun
    · intro d hd
      rcases List.mem_cons.mp hd with rfl | hd
      · decide
      · rcases List.mem_append.mp hd with hd | hd
        · rcases hu d hd with hd | rfl
          · exact lt_of_isAlphanum hd
          · decide
        · rw [List.mem_singleton.mp hd]
          decide
  intro d hd
  rcases List.mem_append.mp (show d ∈ [a, b, c] ++ t from hd) with hd | hd
  · exact hword d hd
  · exact htail d hd

theorem strtodBody_unblanked {s : List Char} {v : Binary64} (h : strtodBody s = some v) : ∀ c ∈ s, 32 < c.toNat := by
  refine unblanked_of_signed ?_
  unfold strtodBody at h
  dsimp only at h
  split at h
  · next hinf => exact unblanked_letters (isInfWord_letters hinf)
  · split at h
    · next hnan => exact unblanked_nanForm hnan
    · exact fun c hc => (literal_inked h c hc).1

theorem parseFloat_unblanked {s : List Char} {v : Binary64} (h : parseFloat s = some v) : ∀ c ∈ s, 32 < c.toNat := by
  refine unblanked_of_signed ?_
  unfold parseFloat at h
  dsimp only at h
  split at h
  · next hinf => exact unblanked_letters (isInfWord_letters hinf)
  · split at h
    · next hnan => exact unblanked_letters (letter_of_lower (of_all (by decide)) hnan.2)
    · split at h
      · intro c hc
        by_cases hu : c = '_'
        · rw [hu]
          decide
        · have hliteral := (Option.filter_eq_some_iff.mp h).1
          exact (literal_inked hliteral c (List.mem_filter.mpr ⟨hc, decide_eq_true hu⟩)).1
      · exact absurd h nofun

theorem parseDoubleBody_unblanked {s : List Char} {v : Binary64} (h : parseDoubleBody s = some v) :
    ∀ c ∈ s, 32 < c.toNat := by
  refine unblanked_of_signed ?_
  unfold parseDoubleBody at h
  dsimp only at h
  split at h
  · next hnan => exact hnan ▸ of_all (by decide)
  · split at h
    · next hinf => exact hinf ▸ of_all (by decide)
    · have hinked := literal_inked h
      unfold dropSuffix at hinked
      split at hinked
      · next c hlast =>
        split at hinked
        · next hsuffix =>
          obtain ⟨ys, hys⟩ := List.getLast?_eq_some_iff.mp hlast
          rw [hys, List.dropLast_concat] at hinked
          rw [hys]
          intro d hd
          rcases List.mem_append.mp hd with hd | hd
          · exact (hinked d hd).1
          · rw [List.mem_singleton.mp hd]
            have hall : ∀ d ∈ ['f', 'F', 'd', 'D'], 32 < d.toNat := of_all (by decide)
            exact hall c hsuffix
        · exact fun d hd => (hinked d hd).1
      · exact fun d hd => (hinked d hd).1

/-! ## Underscores -/

theorem underscoreLoop_of_not_mem (hex : Bool) {saw : Char} (hsaw : saw ≠ '_') {s : List Char} (h : '_' ∉ s) :
    underscoreLoop hex saw s = true := by
  induction s generalizing saw with
  | nil => exact bne_iff_ne.mpr hsaw
  | cons c s ih =>
    have hc : '_' ≠ c := fun heq => h (List.mem_cons.mpr (Or.inl heq))
    have hs : '_' ∉ s := fun hm => h (List.mem_cons_of_mem _ hm)
    unfold underscoreLoop
    split
    · exact ih (by decide) hs
    · rw [if_neg (Ne.symm hc), ih (by decide) hs, Bool.and_true]
      exact bne_iff_ne.mpr hsaw

theorem underscoreOK_of_not_mem {s : List Char} (h : '_' ∉ s) : underscoreOK s = true := by
  unfold underscoreOK
  split
  · next s =>
    split
    · exact underscoreLoop_of_not_mem _ (by decide) fun hm => h (List.mem_cons_of_mem _ (List.mem_cons_of_mem _ hm))
    · exact underscoreLoop_of_not_mem _ (by decide) h
  · exact underscoreLoop_of_not_mem _ (by decide) h

theorem filter_of_not_mem {s : List Char} (h : '_' ∉ s) : s.filter (· ≠ '_') = s :=
  List.filter_eq_self.mpr fun _ hc => decide_eq_true fun heq => h (heq ▸ hc)

/-! ## Doubles -/

/-- The three readers take the text as the same value, or all refuse it. -/
def DoubleAgrees (s : List Char) : Prop := strtod s = parseFloat s ∧ parseDouble s = parseFloat s

/-- The texts on which two readers differ. -/
inductive DoubleGap (s : List Char) : Prop
  /-- C skips white space -/
  | led : (∃ c r, s = c :: r ∧ isSpace c = true) → (strtodBody (s.dropWhile isSpace)).isSome = true → DoubleGap s
  /-- Java trims at both ends -/
  | padded : trim s ≠ s → (parseDoubleBody (trim s)).isSome = true → DoubleGap s
  /-- Java spells infinity in one way only -/
  | infWord : isInfWord (signed s).2 = true → (signed s).2 ≠ "Infinity".toList → DoubleGap s
  /-- Java spells NaN in one way, Go takes no sign with it, and C takes more letters in brackets -/
  | nanForm : isNanForm (signed s).2 = true → ¬ ((signed s).1 = none ∧ (signed s).2 = "NaN".toList) → DoubleGap s
  /-- Go takes underscores -/
  | underscored {v} : '_' ∈ (signed s).2 → underscoreOK (signed s).2 = true →
      literal (isNeg (signed s).1) true ((signed s).2.filter (· ≠ '_')) = some v → v.isFinite = true → DoubleGap s
  /-- C takes hexadecimal digits without an exponent -/
  | noExponent {v} : literal (isNeg (signed s).1) false (signed s).2 = some v →
      literal (isNeg (signed s).1) true (signed s).2 = none → DoubleGap s
  /-- Java takes a type suffix -/
  | suffixed {v} : dropSuffix (signed s).2 ≠ (signed s).2 →
      literal (isNeg (signed s).1) true (dropSuffix (signed s).2) = some v → DoubleGap s
  /-- Go refuses what is out of range -/
  | overflow {v} : literal (isNeg (signed s).1) true (signed s).2 = some v → v.isFinite = false → DoubleGap s

/-- A literal is no word. -/
theorem not_word_of_literal {neg needed : Bool} {b : List Char} {v : Binary64} (h : literal neg needed b = some v) :
    isInfWord b = false ∧ isNanForm b = false ∧ lower b ≠ "nan".toList ∧ b ≠ "NaN".toList ∧ b ≠ "Infinity".toList := by
  obtain ⟨c, t, rfl, hc⟩ := literal_head h
  refine ⟨Bool.eq_false_of_not_eq_true fun hw => ?_, Bool.eq_false_of_not_eq_true fun hw => ?_, fun hw => ?_, ?_, ?_⟩
  · have := letter_not_low (isInfWord_letters hw c List.mem_cons_self).1
    omega
  · obtain ⟨a, b, d, u, heq, hlower, -⟩ := isNanForm_take hw
    obtain ⟨rfl, -⟩ := List.cons.inj heq
    have := letter_not_low (letter_of_lower (of_all (by decide)) hlower c List.mem_cons_self).1
    omega
  · have := head_of_lower (of_all (by decide)) hw c t rfl
    omega
  · intro heq
    rw [(List.cons.inj heq).1] at hc
    exact absurd hc (by decide)
  · intro heq
    rw [(List.cons.inj heq).1] at hc
    exact absurd hc (by decide)

section Readers
variable {s : List Char} {v : Binary64}

theorem strtodBody_of_literal (h : literal (isNeg (signed s).1) false (signed s).2 = some v) : strtodBody s = some v := by
  obtain ⟨hinf, hnan, -⟩ := not_word_of_literal h
  unfold strtodBody
  dsimp only
  rw [hinf, hnan, h]
  rfl

theorem parseFloat_of_literal (h : literal (isNeg (signed s).1) true (signed s).2 = some v) :
    parseFloat s = (some v).filter Binary64.isFinite := by
  obtain ⟨hinf, -, hnan, -⟩ := not_word_of_literal h
  have hplain : '_' ∉ (signed s).2 := fun hm => (literal_inked h _ hm).2 rfl
  unfold parseFloat
  dsimp only
  rw [hinf, if_neg Bool.false_ne_true, if_neg fun hc => hnan hc.2, underscoreOK_of_not_mem hplain, if_pos rfl,
    filter_of_not_mem hplain, h]

theorem parseDoubleBody_of_literal (h : literal (isNeg (signed s).1) true (signed s).2 = some v) :
    parseDoubleBody s = some v := by
  obtain ⟨-, -, -, hnan, hinf⟩ := not_word_of_literal h
  unfold parseDoubleBody
  dsimp only
  rw [if_neg hnan, if_neg hinf, literal_dropSuffix h, h]

theorem parseFloat_blanked (h : ¬ ∀ c ∈ s, 32 < c.toNat) : parseFloat s = none := by
  cases hv : parseFloat s with
  | none => rfl
  | some v => exact absurd (parseFloat_unblanked hv) h

/-- A text that begins with no digit is no literal, whatever is dropped from it. -/
theorem literal_none_of_head {neg needed : Bool} {b : List Char} (h : ∀ c t, b = c :: t → 57 < c.toNat) :
    literal neg needed b = none := by
  cases hv : literal neg needed b with
  | none => rfl
  | some v =>
    obtain ⟨c, t, hb, hc⟩ := literal_head hv
    have := h c t hb
    omega

theorem dropSuffix_prefix (b : List Char) : dropSuffix b <+: b := by
  unfold dropSuffix
  split
  · split
    · exact List.dropLast_prefix b
    · exact List.prefix_refl b
  · exact List.prefix_refl b

theorem literal_dropSuffix_none {neg needed : Bool} {b : List Char} (h : ∀ c t, b = c :: t → 57 < c.toNat) :
    literal neg needed (dropSuffix b) = none := by
  refine literal_none_of_head fun c t hb => ?_
  obtain ⟨u, hu⟩ := dropSuffix_prefix b
  rw [hb] at hu
  exact h c (t ++ u) hu.symm

theorem literal_filter_none {neg needed : Bool} {b : List Char} (h : ∀ c ∈ b.head?, 57 < c.toNat ∧ c ≠ '_') :
    literal neg needed (b.filter (· ≠ '_')) = none := by
  refine literal_none_of_head fun c t hb => ?_
  cases b with
  | nil => cases hb
  | cons d b =>
    obtain ⟨hd, hne⟩ := h d rfl
    rw [List.filter_cons_of_pos (by simpa using hne)] at hb
    rw [← (List.cons.inj hb).1]
    exact hd

/-- What the three readers do with a text that is no word. -/
theorem strtodBody_of_not_word (hinf : isInfWord (signed s).2 = false) (hnan : isNanForm (signed s).2 = false) :
    strtodBody s = literal (isNeg (signed s).1) false (signed s).2 := by
  unfold strtodBody
  dsimp only
  rw [hinf, hnan]
  rfl

theorem head_of_infWord {b : List Char} (h : isInfWord b = true) : ∀ c t, b = c :: t → 57 < c.toNat ∧ c ≠ '_' := by
  rintro c t rfl
  have hletter := isInfWord_letters h c List.mem_cons_self
  exact ⟨letter_not_low hletter.1, (inked_of_toLower hletter).2⟩

theorem head_of_nanForm {b : List Char} (h : isNanForm b = true) : ∀ c t, b = c :: t → 57 < c.toNat ∧ c ≠ '_' := by
  rintro c t rfl
  obtain ⟨a, b, d, u, heq, hlower, -⟩ := isNanForm_take h
  obtain ⟨rfl, -⟩ := List.cons.inj heq
  have hletter := letter_of_lower (of_all (by decide)) hlower c List.mem_cons_self
  exact ⟨letter_not_low hletter.1, (inked_of_toLower hletter).2⟩

theorem not_infWord_of_nanForm {b : List Char} (h : isNanForm b = true) : isInfWord b = false := by
  obtain ⟨x, y, z, t, rfl, hlower, -⟩ := isNanForm_take h
  refine Bool.eq_false_of_not_eq_true fun hw => ?_
  have hx : x.toLower = 'n' := (List.cons.inj hlower).1
  rcases isInfWord_iff.mp hw with hw | hw
  · have hi : x.toLower = 'i' := (List.cons.inj hw).1
    exact absurd (hx.symm.trans hi) (by decide)
  · have hi : x.toLower = 'i' := (List.cons.inj hw).1
    exact absurd (hx.symm.trans hi) (by decide)

/-- A text of which a literal is left once something at its end or its underscores are dropped is no word. -/
theorem not_word_of_head {b : List Char} (h : ∃ c t, b = c :: t ∧ (c.toNat ≤ 57 ∨ c = '_')) :
    isInfWord b = false ∧ isNanForm b = false := by
  obtain ⟨c, t, hb, hc⟩ := h
  refine ⟨Bool.eq_false_of_not_eq_true fun hw => ?_, Bool.eq_false_of_not_eq_true fun hw => ?_⟩
  · obtain ⟨h1, h2⟩ := head_of_infWord hw c t hb
    rcases hc with hc | hc
    · omega
    · exact h2 hc
  · obtain ⟨h1, h2⟩ := head_of_nanForm hw c t hb
    rcases hc with hc | hc
    · omega
    · exact h2 hc

theorem nanForm_of_lower {b : List Char} (h : lower b = "nan".toList) : isNanForm b = true := by
  have hlen : b.length = 3 := by
    have := congrArg List.length h
    unfold lower at this
    rw [List.length_map] at this
    exact this
  unfold isNanForm
  rw [List.take_of_length_le (by omega), List.drop_of_length_le (by omega), h]
  rfl

theorem parseFloat_of_not_word (hinf : isInfWord (signed s).2 = false) (hnan : isNanForm (signed s).2 = false) :
    parseFloat s = if underscoreOK (signed s).2 then
      (literal (isNeg (signed s).1) true ((signed s).2.filter (· ≠ '_'))).filter Binary64.isFinite else none := by
  have hne : ¬ ((signed s).1 = none ∧ lower (signed s).2 = "nan".toList) := by
    intro hc
    rw [nanForm_of_lower hc.2] at hnan
    cases hnan
  unfold parseFloat
  dsimp only
  rw [hinf, if_neg Bool.false_ne_true, if_neg hne]

theorem parseDoubleBody_of_not_word (hinf : isInfWord (signed s).2 = false) (hnan : isNanForm (signed s).2 = false) :
    parseDoubleBody s = literal (isNeg (signed s).1) true (dropSuffix (signed s).2) := by
  have h1 : (signed s).2 ≠ "NaN".toList := by
    intro heq
    rw [heq] at hnan
    exact absurd hnan (by decide)
  have h2 : (signed s).2 ≠ "Infinity".toList := by
    intro heq
    rw [heq] at hinf
    exact absurd hinf (by decide)
  unfold parseDoubleBody
  dsimp only
  rw [if_neg h1, if_neg h2]

/-! ## The gaps -/

theorem strtod_eq (h : ∀ c ∈ s, 32 < c.toNat) : strtod s = strtodBody s := by
  unfold strtod
  rw [(unblanked h).1]

theorem parseDouble_eq (h : ∀ c ∈ s, 32 < c.toNat) : parseDouble s = parseDoubleBody s := by
  unfold parseDouble
  rw [(unblanked h).2]

theorem not_agrees_of_strtod {v : Binary64} (hc : strtod s = some v) (hgo : parseFloat s = none) : ¬ DoubleAgrees s := by
  intro h
  rw [h.1, hgo] at hc
  cases hc

theorem not_agrees_of_parseDouble {v : Binary64} (hjava : parseDouble s = some v) (hgo : parseFloat s = none) :
    ¬ DoubleAgrees s := by
  intro h
  rw [h.2, hgo] at hjava
  cases hjava

theorem not_agrees_of_infWord (hinf : isInfWord (signed s).2 = true) (hne : (signed s).2 ≠ "Infinity".toList) :
    ¬ DoubleAgrees s := by
  have hhead := head_of_infWord hinf
  have hgo : parseFloat s = some (.inf (isNeg (signed s).1)) := by
    unfold parseFloat
    dsimp only
    rw [if_pos hinf]
  have hnan : (signed s).2 ≠ "NaN".toList := by
    intro heq
    rw [heq] at hinf
    exact absurd hinf (by decide)
  have hjava : parseDoubleBody s = none := by
    unfold parseDoubleBody
    dsimp only
    rw [if_neg hnan, if_neg hne]
    exact literal_dropSuffix_none fun c t hb => (hhead c t hb).1
  intro h
  have h2 := h.2
  rw [parseDouble_eq (parseFloat_unblanked hgo), hjava, hgo] at h2
  cases h2

theorem not_agrees_of_nanForm (hnan : isNanForm (signed s).2 = true)
    (hne : ¬ ((signed s).1 = none ∧ (signed s).2 = "NaN".toList)) : ¬ DoubleAgrees s := by
  have hhead := head_of_nanForm hnan
  have hinf := not_infWord_of_nanForm hnan
  have hc : strtodBody s = some .nan := by
    unfold strtodBody
    dsimp only
    rw [hinf, hnan]
    rfl
  have hplain := strtodBody_unblanked hc
  intro h
  have hgo : parseFloat s = some .nan := by rw [← h.1, strtod_eq hplain, hc]
  have hjava : parseDoubleBody s = some .nan := by rw [← parseDouble_eq hplain, h.2, hgo]
  by_cases hsign : (signed s).1 = none
  · have h1 : (signed s).2 ≠ "NaN".toList := fun heq => hne ⟨hsign, heq⟩
    have h2 : (signed s).2 ≠ "Infinity".toList := by
      intro heq
      rw [heq] at hinf
      exact absurd hinf (by decide)
    unfold parseDoubleBody at hjava
    dsimp only at hjava
    rw [if_neg h1, if_neg h2, literal_dropSuffix_none fun c t hb => (hhead c t hb).1] at hjava
    cases hjava
  · unfold parseFloat at hgo
    dsimp only at hgo
    have hfilter : literal (isNeg (signed s).1) true ((signed s).2.filter (· ≠ '_')) = none := by
      refine literal_filter_none fun c hc => ?_
      obtain ⟨t, ht⟩ := List.head?_eq_some_iff.mp hc
      exact hhead c t ht
    rw [hinf, if_neg Bool.false_ne_true, if_neg fun hc => hsign hc.1, hfilter] at hgo
    split at hgo
    · cases hgo
    · cases hgo

theorem not_agrees_of_underscored {v : Binary64} (hmem : '_' ∈ (signed s).2) (hok : underscoreOK (signed s).2 = true)
    (hlit : literal (isNeg (signed s).1) true ((signed s).2.filter (· ≠ '_')) = some v) (hfin : v.isFinite = true) :
    ¬ DoubleAgrees s := by
  have hword : isInfWord (signed s).2 = false ∧ isNanForm (signed s).2 = false := by
    refine not_word_of_head ?_
    obtain ⟨c, t, hc, hlow⟩ := literal_head hlit
    cases hb : (signed s).2 with
    | nil =>
      rw [hb] at hmem
      exact absurd hmem List.not_mem_nil
    | cons d b =>
      refine ⟨d, b, rfl, ?_⟩
      by_cases hd : d = '_'
      · exact Or.inr hd
      · rw [hb, List.filter_cons_of_pos (by simpa using hd)] at hc
        rw [(List.cons.inj hc).1]
        exact Or.inl hlow
  have hgo : parseFloat s = some v := by
    rw [parseFloat_of_not_word hword.1 hword.2, if_pos hok, hlit]
    exact Option.filter_eq_some_iff.mpr ⟨rfl, hfin⟩
  intro h
  have hc := h.1
  rw [strtod_eq (parseFloat_unblanked hgo), strtodBody_of_not_word hword.1 hword.2, hgo] at hc
  exact (literal_inked hc _ hmem).2 rfl

theorem not_agrees_of_noExponent {v : Binary64} (h : literal (isNeg (signed s).1) false (signed s).2 = some v)
    (hnone : literal (isNeg (signed s).1) true (signed s).2 = none) : ¬ DoubleAgrees s := by
  have hplain : '_' ∉ (signed s).2 := fun hm => (literal_inked h _ hm).2 rfl
  obtain ⟨hinf, hnan, -⟩ := not_word_of_literal h
  have hc := strtodBody_of_literal h
  have hgo : parseFloat s = none := by
    rw [parseFloat_of_not_word hinf hnan, filter_of_not_mem hplain, hnone]
    split <;> rfl
  refine not_agrees_of_strtod (v := v) ?_ hgo
  rw [strtod_eq (strtodBody_unblanked hc), hc]

theorem not_agrees_of_suffixed {v : Binary64} (hne : dropSuffix (signed s).2 ≠ (signed s).2)
    (h : literal (isNeg (signed s).1) true (dropSuffix (signed s).2) = some v) : ¬ DoubleAgrees s := by
  obtain ⟨u, hu⟩ := dropSuffix_prefix (signed s).2
  have hword : isInfWord (signed s).2 = false ∧ isNanForm (signed s).2 = false := by
    obtain ⟨c, t, hc, hlow⟩ := literal_head h
    refine not_word_of_head ⟨c, t ++ u, ?_, Or.inl hlow⟩
    rw [← hu, hc]
    rfl
  have hplain : '_' ∉ (signed s).2 := by
    intro hm
    have hd : ∀ c ∈ (signed s).2, c ∈ dropSuffix (signed s).2 ∨ c ∈ ['f', 'F', 'd', 'D'] := by
      unfold dropSuffix
      split
      · next c hlast =>
        split
        · next hsuffix =>
          obtain ⟨ys, hys⟩ := List.getLast?_eq_some_iff.mp hlast
          rw [hys, List.dropLast_concat]
          intro d hd
          rcases List.mem_append.mp hd with hd | hd
          · exact Or.inl hd
          · rw [List.mem_singleton.mp hd]
            exact Or.inr hsuffix
        · exact fun d hd => Or.inl hd
      · exact fun d hd => Or.inl hd
    rcases hd _ hm with hm | hm
    · exact (literal_inked h _ hm).2 rfl
    · exact absurd hm (by decide)
  have hjava : parseDoubleBody s = some v := by
    rw [parseDoubleBody_of_not_word hword.1 hword.2, h]
  have hgo : parseFloat s = none := by
    rw [parseFloat_of_not_word hword.1 hword.2, filter_of_not_mem hplain]
    cases hv : literal (isNeg (signed s).1) true (signed s).2 with
    | none => split <;> rfl
    | some w => exact absurd (literal_dropSuffix hv) hne
  refine not_agrees_of_parseDouble (v := v) ?_ hgo
  rw [parseDouble_eq (parseDoubleBody_unblanked hjava), hjava]

theorem not_agrees_of_overflow {v : Binary64} (h : literal (isNeg (signed s).1) true (signed s).2 = some v)
    (hfin : v.isFinite = false) : ¬ DoubleAgrees s := by
  have hjava := parseDoubleBody_of_literal h
  refine not_agrees_of_parseDouble (v := v) ?_ ?_
  · rw [parseDouble_eq (parseDoubleBody_unblanked hjava), hjava]
  · rw [parseFloat_of_literal h, Option.filter_some, hfin]
    rfl

theorem not_agrees_of_gap (h : DoubleGap s) : ¬ DoubleAgrees s := by
  cases h with
  | led hspace hc =>
    obtain ⟨v, hv⟩ := Option.isSome_iff_exists.mp hc
    obtain ⟨c, r, rfl, hblank⟩ := hspace
    refine not_agrees_of_strtod (v := v) hv (parseFloat_blanked fun hplain => ?_)
    have := hplain c List.mem_cons_self
    have := isSpace_le hblank
    omega
  | padded htrim hjava =>
    obtain ⟨v, hv⟩ := Option.isSome_iff_exists.mp hjava
    exact not_agrees_of_parseDouble (v := v) hv (parseFloat_blanked fun hplain => htrim (unblanked hplain).2)
  | infWord hinf hne => exact not_agrees_of_infWord hinf hne
  | nanForm hnan hne => exact not_agrees_of_nanForm hnan hne
  | underscored hmem hok hlit hfin => exact not_agrees_of_underscored hmem hok hlit hfin
  | noExponent h hnone => exact not_agrees_of_noExponent h hnone
  | suffixed hne h => exact not_agrees_of_suffixed hne h
  | overflow h hfin => exact not_agrees_of_overflow h hfin

/-! ## No gap -/

theorem agrees_of_blanked (hgap : ¬ DoubleGap s) (h : ¬ ∀ c ∈ s, 32 < c.toNat) : DoubleAgrees s := by
  have hgo := parseFloat_blanked h
  constructor
  · rw [hgo]
    cases hv : strtod s with
    | none => rfl
    | some v =>
      exfalso
      cases s with
      | nil => exact h nofun
      | cons c r =>
        by_cases hc : isSpace c = true
        · exact hgap (.led ⟨c, r, rfl, hc⟩ (Option.isSome_iff_exists.mpr ⟨v, hv⟩))
        · unfold strtod at hv
          rw [List.dropWhile_cons_of_neg hc] at hv
          exact h (strtodBody_unblanked hv)
  · rw [hgo]
    cases hv : parseDouble s with
    | none => rfl
    | some v =>
      have htrim : trim s ≠ s := by
        intro heq
        unfold parseDouble at hv
        rw [heq] at hv
        exact h (parseDoubleBody_unblanked hv)
      exact absurd (.padded htrim (Option.isSome_iff_exists.mpr ⟨v, hv⟩)) hgap

theorem agrees_of_unblanked (hgap : ¬ DoubleGap s) (h : ∀ c ∈ s, 32 < c.toNat) : DoubleAgrees s := by
  unfold DoubleAgrees
  rw [strtod_eq h, parseDouble_eq h]
  by_cases hinf : isInfWord (signed s).2 = true
  · have hword : (signed s).2 = "Infinity".toList := by
      by_contra hne
      exact hgap (.infWord hinf hne)
    unfold strtodBody parseFloat parseDoubleBody
    dsimp only
    rw [if_pos hinf, if_pos hinf, hword]
    exact ⟨rfl, rfl⟩
  · replace hinf := Bool.eq_false_of_not_eq_true hinf
    by_cases hnan : isNanForm (signed s).2 = true
    · have hword : (signed s).1 = none ∧ (signed s).2 = "NaN".toList := by
        by_contra hne
        exact hgap (.nanForm hnan hne)
      unfold strtodBody parseFloat parseDoubleBody
      dsimp only
      rw [hinf, hnan, hword.1, hword.2]
      exact ⟨rfl, rfl⟩
    · replace hnan := Bool.eq_false_of_not_eq_true hnan
      cases hlit : literal (isNeg (signed s).1) true (signed s).2 with
      | some v =>
        rw [strtodBody_of_literal (literal_mono hlit), parseFloat_of_literal hlit, parseDoubleBody_of_literal hlit,
          Option.filter_some]
        cases hfin : v.isFinite with
        | false => exact absurd (.overflow hlit hfin) hgap
        | true => exact ⟨rfl, rfl⟩
      | none =>
        have hgo : parseFloat s = none := by
          rw [parseFloat_of_not_word hinf hnan]
          split
          · next hok =>
            by_cases hmem : '_' ∈ (signed s).2
            · refine Option.eq_none_iff_forall_ne_some.mpr fun v hv => ?_
              obtain ⟨hv, hfin⟩ := Option.filter_eq_some_iff.mp hv
              exact hgap (.underscored hmem hok hv hfin)
            · rw [filter_of_not_mem hmem, hlit]
              rfl
          · rfl
        rw [hgo, strtodBody_of_not_word hinf hnan, parseDoubleBody_of_not_word hinf hnan]
        constructor
        · cases hc : literal (isNeg (signed s).1) false (signed s).2 with
          | none => rfl
          | some v => exact absurd (.noExponent hc hlit) hgap
        · by_cases hsuffix : dropSuffix (signed s).2 = (signed s).2
          · rw [hsuffix, hlit]
          · cases hj : literal (isNeg (signed s).1) true (dropSuffix (signed s).2) with
            | none => rfl
            | some v => exact absurd (.suffixed hsuffix hj) hgap

theorem doubleAgrees_iff (s : List Char) : DoubleAgrees s ↔ ¬ DoubleGap s := by
  constructor
  · exact fun h hgap => not_agrees_of_gap hgap h
  · intro hgap
    by_cases h : ∀ c ∈ s, 32 < c.toNat
    · exact agrees_of_unblanked hgap h
    · exact agrees_of_blanked hgap h

end Readers

/-! ## Integers -/

/-- The three readers take the text as the same integer, or all refuse it. -/
def IntAgrees (s : List Char) : Prop := strtoll s = parseInt s ∧ parseLong s = parseInt s

inductive IntGap (s : List Char) : Prop
  /-- C skips white space -/
  | led : (∃ c r, s = c :: r ∧ isSpace c = true) → (strtoll s).isSome = true → IntGap s
  /-- Java takes the decimal digits of other scripts -/
  | script : (∃ c ∈ (signed s).2, c.isDigit = false) → (parseLong s).isSome = true → IntGap s

section Integers
variable {s : List Char}

theorem parseInt_none (h : ∃ c ∈ (signed s).2, c.isDigit = false) : parseInt s = none := by
  obtain ⟨c, hc, hdigit⟩ := h
  unfold parseInt
  refine if_neg fun hall => ?_
  have := List.all_eq_true.mp hall.2 c hc
  rw [hdigit] at this
  cases this

theorem signed_of_space {c : Char} {r : List Char} (h : isSpace c = true) : signed (c :: r) = (none, c :: r) := by
  have hle := isSpace_le h
  refine signed_plain ?_ ?_
  · intro t heq
    rw [(List.cons.inj heq).1] at hle
    exact absurd hle (by decide)
  · intro t heq
    rw [(List.cons.inj heq).1] at hle
    exact absurd hle (by decide)

theorem parseInt_of_space {c : Char} {r : List Char} (h : isSpace c = true) : parseInt (c :: r) = none := by
  have hle := isSpace_le h
  refine parseInt_none ⟨c, ?_, ?_⟩
  · rw [signed_of_space h]
    exact List.mem_cons_self
  · refine Bool.eq_false_of_not_eq_true fun hdigit => ?_
    rw [isDigit_iff] at hdigit
    omega

theorem strtoll_of_not_space (h : ∀ c r, s = c :: r → isSpace c = false) : strtoll s = parseInt s := by
  unfold strtoll
  cases s with
  | nil => rfl
  | cons c r => rw [List.dropWhile_cons_of_neg (by rw [h c r rfl]; exact Bool.false_ne_true)]

theorem characterDigit_of_isDigit {c : Char} (h : c.isDigit = true) : characterDigit c = some (c.toNat - 48) := by
  rw [isDigit_iff] at h
  have hfind : digitZeros.find? (fun z => z ≤ c.toNat && c.toNat ≤ z + 9) = some 48 := by
    unfold digitZeros
    refine List.find?_cons_of_pos ?_
    rw [Bool.and_eq_true, decide_eq_true_eq, decide_eq_true_eq]
    omega
  unfold characterDigit
  rw [hfind]
  rfl

theorem digitsValue_congr {base : Nat} {f g : Char → Nat} {digits : List Char} (h : ∀ c ∈ digits, f c = g c) :
    digitsValue base f digits = digitsValue base g digits := by
  unfold digitsValue
  generalize 0 = n
  induction digits generalizing n with
  | nil => rfl
  | cons c digits ih =>
    rw [List.foldl_cons, List.foldl_cons, h c List.mem_cons_self]
    exact ih (fun d hd => h d (List.mem_cons_of_mem _ hd)) _

theorem parseLong_of_digits (h : (signed s).2.all Char.isDigit = true) : parseLong s = parseInt s := by
  have hdigit : ∀ c ∈ (signed s).2, characterDigit c = some (c.toNat - 48) := fun c hc =>
    characterDigit_of_isDigit (List.all_eq_true.mp h c hc)
  have hall : (signed s).2.all (fun c => (characterDigit c).isSome) = true := by
    refine List.all_eq_true.mpr fun c hc => ?_
    rw [hdigit c hc]
    rfl
  have hvalue : digitsValue 10 (fun c => (characterDigit c).getD 0) (signed s).2 = decimalValue (signed s).2 := by
    refine digitsValue_congr fun c hc => ?_
    rw [hdigit c hc]
    rfl
  unfold parseLong parseInt
  dsimp only
  rw [hall, h, hvalue]

theorem not_intAgrees_of_gap (h : IntGap s) : ¬ IntAgrees s := by
  rintro ⟨hc, hjava⟩
  cases h with
  | led hspace hsome =>
    obtain ⟨c, r, rfl, hblank⟩ := hspace
    rw [hc, parseInt_of_space hblank] at hsome
    cases hsome
  | script hother hsome =>
    rw [hjava, parseInt_none hother] at hsome
    cases hsome

theorem intAgrees_of_no_gap (hgap : ¬ IntGap s) : IntAgrees s := by
  constructor
  · by_cases hspace : ∃ c r, s = c :: r ∧ isSpace c = true
    · have hnone : strtoll s = none := by
        by_contra hne
        exact hgap (.led hspace (Option.isSome_iff_ne_none.mpr hne))
      obtain ⟨c, r, rfl, hblank⟩ := hspace
      rw [hnone, parseInt_of_space hblank]
    · exact strtoll_of_not_space fun c r heq => Bool.eq_false_of_not_eq_true fun hblank => hspace ⟨c, r, heq, hblank⟩
  · by_cases hother : ∃ c ∈ (signed s).2, c.isDigit = false
    · have hnone : parseLong s = none := by
        by_contra hne
        exact hgap (.script hother (Option.isSome_iff_ne_none.mpr hne))
      rw [hnone, parseInt_none hother]
    · refine parseLong_of_digits (List.all_eq_true.mpr fun c hc => ?_)
      cases hd : c.isDigit with
      | true => rfl
      | false => exact absurd ⟨c, hc, hd⟩ hother

theorem intAgrees_iff (s : List Char) : IntAgrees s ↔ ¬ IntGap s :=
  ⟨fun h hgap => not_intAgrees_of_gap hgap h, intAgrees_of_no_gap⟩

end Integers

end NumberText
