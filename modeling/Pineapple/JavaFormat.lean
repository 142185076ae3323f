import Pineapple.JavaValue

/-! # What `GoFormat.formatG` makes of `Double.toString`

The text of `Double.toString` is taken apart and put together again as Go's `%g` writes it, with the digits it came
with. -/

namespace Pineapple.GoFormat

open Json (plain)

/-! ## Trailing zeros -/

theorem dropWhile_zeros {s : List Char} (h : s.getLast? ≠ some '0') :
    (s.reverse.dropWhile (· = '0')).reverse = s := by
  rw [← List.head?_reverse] at h
  cases hs : s.reverse with
  | nil =>
    rw [List.dropWhile_nil, ← hs, List.reverse_reverse]
  | cons c t =>
    rw [hs] at h
    have hc : ¬ c = '0' := fun hc => h (congrArg some hc)
    rw [List.dropWhile_cons_of_neg (by simpa using hc), ← hs, List.reverse_reverse]

theorem dropWhile_zeros_append {s : List Char} (h : s.getLast? ≠ some '0') (k : Nat) :
    ((s ++ List.replicate k '0').reverse.dropWhile (· = '0')).reverse = s := by
  have hzeros : ∀ c ∈ List.replicate k '0', decide (c = '0') = true := fun c hc =>
    decide_eq_true (List.eq_of_mem_replicate hc)
  rw [List.reverse_append, List.reverse_replicate, List.dropWhile_append_of_pos hzeros, dropWhile_zeros h]

theorem stripZeros_self {s : List Char} (hzero : s.getLast? ≠ some '0') (hdot : s.getLast? ≠ some '.') :
    stripZeros s = s := by
  unfold stripZeros
  dsimp only
  rw [dropWhile_zeros hzero, if_neg hdot]

/-- A fraction of one zero goes with its point. -/
theorem stripZeros_point (s : List Char) : stripZeros (s ++ ['.', '0']) = s := by
  have hlast : (s ++ ['.']).getLast? = some '.' := List.getLast?_concat
  have hstrip : ((s ++ ['.', '0']).reverse.dropWhile (· = '0')).reverse = s ++ ['.'] := by
    have := dropWhile_zeros_append (s := s ++ ['.']) (by rw [hlast]; decide) 1
    rwa [List.append_assoc] at this
  unfold stripZeros
  dsimp only
  rw [hstrip, if_pos hlast, List.dropLast_concat]

theorem significant_append {digits : List Char} (hne : digits ≠ []) (h : digits.getLast? ≠ some '0') (k : Nat) :
    significant (digits ++ List.replicate k '0') = digits := by
  rcases digits with _ | ⟨c, digits⟩
  · exact absurd rfl hne
  · have hlast : digits.getLast? ≠ some '0' := by
      rcases digits with _ | ⟨d, digits⟩
      · exact nofun
      · rwa [List.getLast?_cons_cons] at h
    rw [List.cons_append, significant, dropWhile_zeros_append hlast]

theorem getLast?_append_right {s t : List Char} (ht : t ≠ []) : (s ++ t).getLast? = t.getLast? := by
  rw [List.getLast?_append, Option.or_of_isSome]
  exact List.getLast?_isSome.mpr ht

/-! ## The digits of `Double.toString` -/

variable {f : FiniteBinary64}

theorem javaDigits_last (hf : f.mant ≠ 0) : (javaDigits f).1 % 10 ≠ 0 := by
  have hlast := (FiniteBinary64.shortest_spec hf).2
  unfold javaDigits
  split
  · next hlt =>
    have hnonzero : ∀ c ∈ f.readBack 2, 0 < c.1 ∧ c.1 < 100 := by
      intro c hc
      obtain ⟨⟨m, e⟩, hfind, hcd⟩ := Option.map_eq_some_iff.mp (Option.mem_def.mp hc)
      obtain ⟨hm, -⟩ := FiniteBinary64.mem_neighbours.mp (List.mem_of_find?_eq_some hfind)
      obtain ⟨hlo, hhi⟩ := FiniteBinary64.lower_bounds (k := 2) hf (by decide)
      dsimp only at hm hcd
      split at hcd
      · rw [← hcd]
        exact ⟨Nat.one_pos, Nat.lt_of_sub_eq_succ rfl⟩
      · rw [← hcd]
        dsimp only
        omega
    dsimp only
    rcases hc : f.readBack 2 with _ | c
    · rw [Option.getD_none, if_neg hlast]
      exact hlast
    · have := hnonzero c hc
      rw [Option.getD_some]
      split
      · dsimp only
        omega
      · assumption
  · exact hlast

/-! ## Parts of the text -/

section Digits
variable {digits : List Char}

theorem not_mem_of_digits (hdigits : digits.all Char.isDigit = true) {c : Char} (hc : c.isDigit = false) :
    c ∉ digits := fun hm => digit_ne (List.all_eq_true.mp hdigits c hm) hc rfl

theorem last_of_digits (hdigits : digits.all Char.isDigit = true) : digits.getLast? ≠ some '.' := fun h =>
  not_mem_of_digits hdigits (c := '.') (by decide) (List.mem_of_getLast? h)

/-- A plain text with a fraction ends with the last digit. -/
theorem plain_last (hne : digits ≠ []) {dp : Int} (hdp : dp < digits.length) :
    (plain digits dp).getLast? = digits.getLast? := by
  unfold plain
  split
  · rw [← List.cons_append, ← List.cons_append]
    exact getLast?_append_right hne
  · rw [if_neg (by omega)]
    have hdrop : digits.drop dp.toNat ≠ [] := fun h => by
      have := List.drop_eq_nil_iff.mp h
      omega
    rw [getLast?_append_right (List.cons_ne_nil _ _), ← List.singleton_append, getLast?_append_right hdrop,
      List.getLast?_drop, if_neg (by omega)]

theorem plain_filter (hdigits : digits.all Char.isDigit = true) {dp : Int} (hdp : 0 < dp) :
    (plain digits dp).filter (· ≠ '.') = digits ++ List.replicate (dp - digits.length).toNat '0' := by
  have hplain : ∀ c ∈ digits, decide (c ≠ '.') = true := fun c hc =>
    decide_eq_true (digit_ne (List.all_eq_true.mp hdigits c hc) (by decide))
  unfold plain
  rw [if_neg (by omega)]
  split
  · rw [List.filter_eq_self.mpr]
    intro c hc
    rcases List.mem_append.mp hc with hc | hc
    · exact hplain c hc
    · rw [List.eq_of_mem_replicate hc]
      decide
  · rw [List.filter_append, List.filter_eq_self.mpr fun c hc => hplain c (List.mem_of_mem_take hc),
      List.filter_cons_of_neg (by decide), List.filter_eq_self.mpr fun c hc => hplain c (List.mem_of_mem_drop hc),
      List.take_append_drop, show (dp - digits.length).toNat = 0 by omega, List.replicate_zero, List.append_nil]

/-- The length of the part before the point. -/
theorem plain_intPart (hdigits : digits.all Char.isDigit = true) {dp : Int} {tail : List Char}
    (htail : tail.head? = some '.' ∨ dp < digits.length) :
    ((plain digits dp ++ tail).takeWhile (· ≠ '.')).length = (max dp 1).toNat := by
  have hrun : ∀ (s rest : List Char), '.' ∉ s → ((s ++ '.' :: rest).takeWhile (· ≠ '.')) = s := by
    intro s rest hs
    have hne : ∀ c ∈ s, decide (c ≠ '.') = true := fun c hc => decide_eq_true (ne_of_mem_of_not_mem hc hs)
    exact (takeWhile_before hne (by decide)).1
  have hdot := not_mem_of_digits hdigits (c := '.') (by decide)
  unfold plain
  split
  · rw [List.cons_append, List.cons_append]
    have := hrun ['0'] (List.replicate (-dp).toNat '0' ++ digits ++ tail) (by decide)
    rw [List.singleton_append] at this
    rw [this, List.length_singleton]
    omega
  · split
    · next hle =>
      rcases htail with htail | hlt
      · rcases tail with _ | ⟨c, tail⟩
        · cases htail
        · obtain rfl : c = '.' := Option.some.inj htail
          rw [hrun]
          · rw [List.length_append, List.length_replicate]
            omega
          · intro hm
            rcases List.mem_append.mp hm with hm | hm
            · exact hdot hm
            · exact absurd (List.eq_of_mem_replicate hm) (by decide)
      · omega
    · rw [List.append_assoc, List.cons_append, hrun _ _ fun hm => hdot (List.mem_of_mem_take hm), List.length_take]
      omega

end Digits

/-! ## Taken apart -/

theorem signOf_append_head {s : List Char} (hs : s.head? ≠ some '-') (neg : Bool) :
    ((signOf neg ++ s).head? = some '-' ↔ neg = true) ∧
      (if (signOf neg ++ s).head? = some '-' then (signOf neg ++ s).drop 1 else signOf neg ++ s) = s := by
  cases neg with
  | true => exact ⟨⟨fun _ => rfl, fun _ => rfl⟩, rfl⟩
  | false =>
    show (s.head? = some '-' ↔ _) ∧ (if s.head? = some '-' then s.drop 1 else s) = s
    rw [if_neg hs]
    exact ⟨⟨fun h => absurd h hs, nofun⟩, rfl⟩

theorem decimal_head_ne (n : Nat) : (decimal n).head? ≠ some '-' := by
  obtain ⟨c, t, htext, hc⟩ := decimal_head n
  rw [htext]
  exact fun h => digit_ne hc (by decide) (Option.some.inj h)

theorem exponentOf_decimalInt (e : Int) : exponentOf (decimalInt e) = e := by
  obtain ⟨hsign, hdrop⟩ := signOf_append_head (decimal_head_ne e.natAbs) (decide (e < 0))
  unfold exponentOf
  rw [decimalInt_eq]
  by_cases he : e < 0
  · rw [if_pos (hsign.mpr (decide_eq_true he))]
    rw [if_pos (hsign.mpr (decide_eq_true he))] at hdrop
    rw [hdrop, digitsValue_decimal]
    omega
  · have hne := fun h => he (of_decide_eq_true (hsign.mp h))
    rw [if_neg hne] at hdrop ⊢
    rw [hdrop, digitsValue_decimal]
    omega

theorem decimal_length_two (n : Nat) : (decimal n).length < 2 ↔ n < 10 := by
  have := decimal_length_le n 0
  rw [pow_one] at this
  rw [← this]
  omega

/-- The exponent is padded to two digits and gets its sign. -/
theorem exponentText_of_decimalInt (e : Int) :
    (let neg := (decimalInt e).head? = some '-'
    let digits := if neg then (decimalInt e).drop 1 else decimalInt e
    let digits := if digits.length < 2 then '0' :: digits else digits
    'e' :: (if neg then '-' else '+') :: digits) = exponentText e := by
  obtain ⟨hsign, hdrop⟩ := signOf_append_head (decimal_head_ne e.natAbs) (decide (e < 0))
  dsimp only
  rw [decimalInt_eq, hdrop]
  unfold exponentText
  simp only [hsign, decide_eq_true_eq, decimal_length_two]

section Texts
variable {digits : List Char}

/-- The mantissa of `Double.toString`, without a fraction that is zero. -/
theorem stripZeros_mantissa (hdigits : digits.all Char.isDigit = true)
    (hlast : digits.getLast? ≠ some '0') (sign : List Char) :
    stripZeros (sign ++ (digits.take 1 ++ '.' :: if 1 < digits.length then digits.drop 1 else ['0'])) =
      sign ++ pointed digits := by
  unfold pointed
  by_cases hlen : 1 < digits.length
  · rw [if_pos hlen, if_pos hlen]
    have hdrop : digits.drop 1 ≠ [] := fun h => by
      have := List.drop_eq_nil_iff.mp h
      omega
    have hend : (sign ++ (digits.take 1 ++ '.' :: digits.drop 1)).getLast? = digits.getLast? := by
      rw [getLast?_append_right (List.append_ne_nil_of_right_ne_nil _ (List.cons_ne_nil _ _)),
        getLast?_append_right (List.cons_ne_nil _ _), ← List.singleton_append, getLast?_append_right hdrop,
        List.getLast?_drop, if_neg (by omega)]
    exact stripZeros_self (by rwa [hend]) (by rw [hend]; exact last_of_digits hdigits)
  · rw [if_neg hlen, if_neg hlen, List.append_nil, ← List.append_assoc]
    exact stripZeros_point _

/-- A text with an exponent. -/
theorem formatText_scientific (hdigits : digits.all Char.isDigit = true)
    (hlast : digits.getLast? ≠ some '0') (neg : Bool) (exp : Int) :
    formatText (signOf neg ++ (digits.take 1 ++ '.' :: ((if 1 < digits.length then digits.drop 1 else ['0']) ++
        'E' :: decimalInt exp))) (signOf neg ++ plain digits (exp + 1)) =
      signOf neg ++ placed digits exp := by
  have hmantissa : ∀ c ∈ signOf neg ++ (digits.take 1 ++ '.' :: if 1 < digits.length then digits.drop 1 else ['0']),
      decide (c ≠ 'E') = true := by
    have hdigit := not_mem_of_digits hdigits (c := 'E') (by decide)
    intro c hc
    refine decide_eq_true ?_
    rintro rfl
    rcases List.mem_append.mp hc with hc | hc
    · cases neg <;> simp [signOf] at hc
    · rcases List.mem_append.mp hc with hc | hc
      · exact hdigit (List.mem_of_mem_take hc)
      · rcases List.mem_cons.mp hc with hc | hc
        · exact absurd hc (by decide)
        · split at hc
          · exact hdigit (List.mem_of_mem_drop hc)
          · exact absurd hc (by decide)
  have hsplit : signOf neg ++ (digits.take 1 ++ '.' :: ((if 1 < digits.length then digits.drop 1 else ['0']) ++
      'E' :: decimalInt exp)) =
        signOf neg ++ (digits.take 1 ++ '.' :: if 1 < digits.length then digits.drop 1 else ['0']) ++
          'E' :: decimalInt exp := by
    simp only [List.append_assoc, List.cons_append]
  obtain ⟨htake, hdrop⟩ := takeWhile_before (r := decimalInt exp) hmantissa (c := 'E') (by decide)
  have hmark : 'E' ∈ signOf neg ++ (digits.take 1 ++ '.' :: if 1 < digits.length then digits.drop 1 else ['0']) ++
      'E' :: decimalInt exp := List.mem_append_right _ List.mem_cons_self
  have hdot : '.' ∈ signOf neg ++ (digits.take 1 ++ '.' :: if 1 < digits.length then digits.drop 1 else ['0']) :=
    List.mem_append_right _ (List.mem_append_right _ List.mem_cons_self)
  unfold formatText
  rw [hsplit, if_pos hmark]
  dsimp only
  rw [htake, hdrop, List.drop_one, List.tail_cons, exponentOf_decimalInt, Json.placed_eq]
  by_cases hfour : -4 ≤ exp ∧ exp ≤ 5
  · rw [if_pos hfour, if_neg (by omega)]
  · have hout : exp < -4 ∨ 6 ≤ exp := by omega
    rw [if_neg hfour, if_pos hdot, if_pos hout, stripZeros_mantissa hdigits hlast, List.append_assoc,
      ← exponentText_of_decimalInt exp]

/-- A text without exponent. -/
theorem formatText_plain (hdigits : digits.all Char.isDigit = true) (hne : digits ≠ [])
    (hlast : digits.getLast? ≠ some '0') (neg : Bool) {exp : Int} (hexp : -3 ≤ exp ∧ exp < 7) (text : List Char) :
    formatText (signOf neg ++ (plain digits (exp + 1) ++
        if (digits.length : Int) ≤ exp + 1 then ['.', '0'] else [])) text =
      signOf neg ++ placed digits exp := by
  have hlen := List.length_pos_iff.mpr hne
  have hchar : ∀ c ∈ plain digits (exp + 1) ++ (if (digits.length : Int) ≤ exp + 1 then ['.', '0'] else []),
      c.isDigit = true ∨ c = '.' := by
    intro c hc
    rcases List.mem_append.mp hc with hc | hc
    · exact plain_chars hdigits _ c hc
    · split at hc
      · rcases List.mem_cons.mp hc with rfl | hc
        · exact Or.inr rfl
        · exact Or.inl (by rw [List.mem_singleton.mp hc]; rfl)
      · cases hc
  have hmark : 'E' ∉ signOf neg ++ (plain digits (exp + 1) ++
      if (digits.length : Int) ≤ exp + 1 then ['.', '0'] else []) := by
    intro hm
    rcases List.mem_append.mp hm with hm | hm
    · cases neg <;> simp [signOf] at hm
    · exact absurd (hchar _ hm) (by decide)
  have hhead : (plain digits (exp + 1) ++
      if (digits.length : Int) ≤ exp + 1 then ['.', '0'] else []).head? ≠ some '-' := fun h =>
    absurd (hchar _ (List.mem_of_mem_head? h)) (by decide)
  obtain ⟨hsign, habs⟩ := signOf_append_head hhead neg
  have hint : ((plain digits (exp + 1) ++ if (digits.length : Int) ≤ exp + 1 then ['.', '0'] else []).takeWhile
      (· ≠ '.')).length = (max (exp + 1) 1).toNat := by
    refine plain_intPart hdigits ?_
    split
    · exact Or.inl rfl
    · exact Or.inr (by omega)
  have hdot : '.' ∈ signOf neg ++ (plain digits (exp + 1) ++
      if (digits.length : Int) ≤ exp + 1 then ['.', '0'] else []) := by
    refine List.mem_append_right _ ?_
    split
    · exact List.mem_append_right _ List.mem_cons_self
    · refine List.mem_append_left _ ?_
      unfold plain
      split
      · exact List.mem_cons_of_mem _ List.mem_cons_self
      · exact List.mem_append_right _ List.mem_cons_self
  have hstripped : stripZeros (signOf neg ++ (plain digits (exp + 1) ++
      if (digits.length : Int) ≤ exp + 1 then ['.', '0'] else [])) = signOf neg ++ plain digits (exp + 1) := by
    split
    · rw [← List.append_assoc]
      exact stripZeros_point _
    · have hnil : plain digits (exp + 1) ≠ [] := fun h => by
        have : (plain digits (exp + 1)).getLast? = digits.getLast? := plain_last hne (by omega)
        rw [h, List.getLast?_nil, eq_comm, List.getLast?_eq_none_iff] at this
        exact hne this
      have hend : (signOf neg ++ (plain digits (exp + 1) ++ [])).getLast? = digits.getLast? := by
        rw [List.append_nil, getLast?_append_right hnil, plain_last hne (by omega)]
      rw [stripZeros_self (by rwa [hend]) (by rw [hend]; exact last_of_digits hdigits), List.append_nil]
  unfold formatText
  rw [if_neg hmark]
  dsimp only
  rw [habs, hint, Json.placed_eq]
  by_cases hsix : exp = 6
  · subst hsix
    have hzeros : ∃ k, (plain digits (6 + 1) ++ if (digits.length : Int) ≤ 6 + 1 then ['.', '0'] else []).filter
        (· ≠ '.') = digits ++ List.replicate k '0' := by
      rw [List.filter_append, plain_filter hdigits (by decide)]
      split
      · exact ⟨(6 + 1 - digits.length : Int).toNat + 1, by rw [List.replicate_succ', ← List.append_assoc]; rfl⟩
      · exact ⟨_, by rw [List.filter_nil, List.append_nil]⟩
    obtain ⟨k, hk⟩ := hzeros
    have hpointed : (if digits.length = 1 then digits else digits.take 1 ++ '.' :: digits.drop 1) = pointed digits := by
      unfold pointed
      split
      · next hone => rw [if_neg (by omega), List.append_nil, List.take_of_length_le hone.le]
      · rw [if_pos (by omega)]
    have hexponent : exponentText 6 = 'e' :: '+' :: '0' :: decimal 6 := rfl
    rw [hk, significant_append hne hlast, hpointed, if_pos (Or.inr (le_refl _)), hexponent]
    simp only [hsign]
    cases neg <;> rfl
  · have hshort : ¬ 6 < (max (exp + 1) 1).toNat := by omega
    have hout : ¬ (exp < -4 ∨ 6 ≤ exp) := by omega
    rw [if_neg hshort, if_pos hdot, hstripped, if_neg hout]


end Texts

/-- The exponent of the first digit of `Double.toString`. -/
def javaExponent (f : FiniteBinary64) : Int := (javaDigits f).2 + (decimal (javaDigits f).1).length - 1

/-- `formatG` writes the digits of `Double.toString` as `%g` does. -/
theorem formatG_eq (hf : f.mant ≠ 0) :
    formatG (.finite f) = signOf f.neg ++ placed (decimal (javaDigits f).1) (javaExponent f) := by
  have hdigits := decimal_digits (javaDigits f).1
  have hne := decimal_ne_nil (javaDigits f).1
  have hlast := Json.decimal_last (javaDigits_last hf)
  have hexp : (javaDigits f).2 + (decimal (javaDigits f).1).length = javaExponent f + 1 := by
    unfold javaExponent
    omega
  unfold formatG plainString finiteText doubleToString
  dsimp only
  rw [if_neg hf, if_neg hf, hexp, Int.add_sub_cancel]
  by_cases hplain : -3 ≤ javaExponent f ∧ javaExponent f < 7
  · have hwhole : 0 ≤ (javaDigits f).2 ↔ ((decimal (javaDigits f).1).length : Int) ≤ javaExponent f + 1 := by omega
    rw [if_pos hplain]
    simp only [hwhole]
    exact formatText_plain hdigits hne hlast f.neg hplain _
  · rw [if_neg hplain]
    dsimp only
    rw [hexp, Int.add_sub_cancel]
    exact formatText_scientific hdigits hlast f.neg _

end Pineapple.GoFormat
