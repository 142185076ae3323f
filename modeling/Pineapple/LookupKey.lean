import Pineapple.NumberRendering

/-! # Lookup keys of numbers (`go_format_lookup_key`, `ResourceLookupOp.Execute`, `toKeyString`)

A number that a 64-bit integer holds is looked up under its decimal digits, any other one under a plain decimal
numeral. Each engine has its own way to that numeral. -/

namespace Pineapple

/-! ## Conversions -/

def IsInt64 (n : Int) : Prop := -(int64Bound : Int) ≤ n ∧ n < int64Bound

instance (n : Int) : Decidable (IsInt64 n) := inferInstanceAs (Decidable (_ ∧ _))

/-- A conversion to a 64-bit integer cuts off the fraction; C++ and Go leave open what it gives out of range. -/
def castInt64 (undefined : FiniteBinary64 → Int) (f : FiniteBinary64) : Int :=
  if IsInt64 f.toInt then f.toInt else undefined f

/-- `(long) d` of Java, which saturates. -/
def javaLong (f : FiniteBinary64) : Int := max (-(int64Bound : Int)) (min f.toInt (int64Bound - 1))

/-- `==` on a finite double: the two zeros are equal. -/
def equalsDouble (f : FiniteBinary64) : Binary64 → Bool
  | .finite g => decide (f = g ∨ f.mant = 0 ∧ g.mant = 0)
  | _ => false

/-! ## The C++ key -/

/-- The digits of the shortest decimal, with the point among them. -/
def plainText (f : FiniteBinary64) : List Char :=
  let digits := decimal f.shortest.1
  signOf f.neg ++ Json.plain digits (f.shortest.2 + digits.length)

/-- `std::to_chars` with `chars_format::fixed`: a whole number exactly, any other one in its shortest digits. -/
def toCharsFixed (f : FiniteBinary64) : List Char :=
  if f.IsIntegral then signOf f.neg ++ decimal f.truncNat else plainText f

/-- `sizeof(buf)`. -/
def keyBuffer : Nat := 64

/-- `go_format_lookup_key` on a finite number; both ends of the range are `2 ^ 63` as doubles. -/
def goFormatLookupKey (undefined : FiniteBinary64 → Int) (f : FiniteBinary64) : List Char :=
  let n := castInt64 undefined f
  if equalsDouble f (.ofInt n) ∧ f.units ≤ int64Bound * Binary64.unitsPerOne then decimalInt n
  else if (toCharsFixed f).length ≤ keyBuffer then toCharsFixed f
  else (goFormatG (.finite f)).toList

/-! ## The Go key -/

/-- The key of a `float64` in `ResourceLookupOp.Execute`. -/
def goLookupKey (undefined : FiniteBinary64 → Int) (f : FiniteBinary64) : List Char :=
  let n := castInt64 undefined f
  if equalsDouble f (.ofInt n) then decimalInt n else Json.strconvFormat .f f

/-! ## The Java key -/

/-- The decimal that `Double.toString` renders: where one digit is enough, the nearest of those of one and of two. -/
def javaDigits (f : FiniteBinary64) : Nat × Int :=
  if f.shortest.1 < 10 then
    let c := (f.readBack 2).getD f.shortest
    if c.1 % 10 = 0 then (c.1 / 10, c.2 + 1) else c
  else f.shortest

/-- `Double.toString`: a text without exponent, or the decimal that is written with one. -/
def doubleToString (f : FiniteBinary64) : List Char ⊕ Nat × Int :=
  let c := javaDigits f
  let digits := decimal c.1
  let exp := c.2 + digits.length - 1
  if -3 ≤ exp ∧ exp < 7 then
    .inl (signOf f.neg ++ (Json.plain digits (c.2 + digits.length) ++ if 0 ≤ c.2 then ['.', '0'] else []))
  else .inr c

/-- `formatFloatF`: a `BigDecimal` read from a text with an exponent, without zeros at its end, as plain text. -/
def formatFloatF (f : FiniteBinary64) : List Char :=
  if f = .zero true then ['-', '0']
  else if f.IsIntegral ∧ f.units < 10 ^ 18 * Binary64.unitsPerOne then decimalInt f.toInt
  else match doubleToString f with
    | .inl text => text
    | .inr c =>
      let digits := decimal c.1
      signOf f.neg ++ Json.plain digits (c.2 + digits.length)

/-- `toKeyString` on a number. -/
def toKeyString (f : FiniteBinary64) : List Char :=
  let n := javaLong f
  if equalsDouble f (.ofInt n) then decimalInt n else formatFloatF f

/-! ## The keys agree -/

/-- The key is a plain numeral that is read back as the number, and all engines look it up. -/
structure KeyAgrees (cpp go : FiniteBinary64 → Int) (f : FiniteBinary64) : Prop where
  numeral : ∃ n : Json.Numeral, n.Rfc ∧ n.exp = none ∧ (goFormatLookupKey cpp f).map Json.ascii = n.text ∧
    ∃ g, n.value = some (.finite g) ∧ equalsDouble f (.finite g) = true
  go : goFormatLookupKey cpp f = goLookupKey go f
  java : goFormatLookupKey cpp f = toKeyString f

/-- Where they do: a whole number of 64 bits; a plain numeral that the buffer holds and that is exact where the number
is a whole one; and `2 ^ 63` where both conversions saturate. -/
inductive KeyFits (cpp go : FiniteBinary64 → Int) (f : FiniteBinary64) : Prop
  | int64 : f.IsIntegral → IsInt64 f.toInt → KeyFits cpp go f
  | plain : (plainText f).length ≤ keyBuffer →
      (f.IsIntegral → 0 ≤ f.shortest.2 ∧ f.shortest.1 * 10 ^ f.shortest.2.toNat = f.truncNat) → KeyFits cpp go f
  | saturated : f.IsIntegral → f.toInt = int64Bound → cpp f = int64Bound - 1 → go f = int64Bound - 1 →
      KeyFits cpp go f

section
variable {f : FiniteBinary64}
open Json FiniteBinary64 Binary64

/-! ## Whole numbers -/

theorem equalsDouble_self (f : FiniteBinary64) : equalsDouble f (.finite f) = true := decide_eq_true (Or.inl rfl)

theorem equalsDouble_toInt (h : f.IsIntegral) : equalsDouble f (.ofInt f.toInt) = true := by
  by_cases hzero : f = zero true
  · rw [hzero, toInt_zero]
    have hzeros : zero true = zero false ∨ (zero true).mant = 0 ∧ (zero false).mant = 0 := Or.inr ⟨rfl, rfl⟩
    exact decide_eq_true hzeros
  · rw [ofInt_toInt h hzero]
    exact equalsDouble_self f

/-- No integer of 64 bits is converted to a fraction, or to a whole number past `2 ^ 63`. -/
theorem not_equalsDouble (hf : f.IsIntegral → 2 ^ 63 < f.truncNat) {n : Int} (hn : IsInt64 n) :
    equalsDouble f (.ofInt n) = false := by
  unfold IsInt64 int64Bound at hn
  obtain ⟨g, hg, hint, hle⟩ := ofInt_isIntegral (n := n) (by omega)
  rw [hg]
  refine decide_eq_false ?_
  rintro (rfl | ⟨hzero, -⟩)
  · have := hf hint
    omega
  · have hf := hf (Or.inr (by rw [hzero]; exact Nat.dvd_zero _))
    unfold truncNat at hf
    rw [hzero, Nat.zero_mul, Nat.zero_div, ite_self] at hf
    omega

theorem signOf_false : signOf false = [] := rfl

theorem decimal_inj {a b : Nat} (h : decimal a = decimal b) : a = b := by
  rw [← digitsValue_decimal a, h, digitsValue_decimal]

theorem not_mem_decimal {c : Char} (hc : c.isDigit = false) (a : Nat) : c ∉ decimal a := fun hm =>
  digit_ne (List.all_eq_true.mp (decimal_digits a) c hm) hc rfl

theorem decimalInt_inj {a b : Int} (h : decimalInt a = decimalInt b) : a = b := by
  have hminus : ∀ n, '-' ∉ decimal n := not_mem_decimal (by decide)
  unfold decimalInt at h
  split at h
  · split at h
    · have := decimal_inj (List.cons.inj h).2
      omega
    · exact absurd (h ▸ List.mem_cons_self) (hminus _)
  · split at h
    · exact absurd (h ▸ List.mem_cons_self) (hminus _)
    · have := decimal_inj h
      omega

/-- An integer is a plain numeral. -/
theorem decimalInt_numeral (n : Int) : ∃ N : Numeral, N.Rfc ∧ N.exp = none ∧ (decimalInt n).map ascii = N.text ∧
    N.value = ofDecimal (decide (n < 0)) n.natAbs 0 := by
  obtain ⟨hvalue, hdigits⟩ := digitsValue_toBytes n.natAbs
  have hne : toBytes n.natAbs ≠ [] := fun h => decimal_ne_nil _ (List.map_eq_nil_iff.mp h)
  refine ⟨⟨decide (n < 0), toBytes n.natAbs, none, none⟩, ⟨Scientific.scanned_of_digits hdigits nofun, ?_, nofun, nofun⟩,
    rfl, ?_, ?_⟩
  · by_cases hzero : n.natAbs = 0
    · rw [hzero]
      refine Or.inl ?_
      unfold toBytes
      rw [decimal]
      rfl
    · obtain ⟨c, t, htext, hc⟩ := decimal_head n.natAbs
      have hhead := decimal_pos hzero
      refine Or.inr ⟨ascii c, t.map ascii, congrArg (List.map ascii) htext, fun h => hhead ?_⟩
      rw [htext, ascii_inj hc rfl h]
      rfl
  · rw [decimalInt_eq, List.map_append, signOf_map]
    exact congrArg _ (List.append_nil _).symm
  · rw [Scientific.integral_value hne, hvalue]

theorem ofDecimal_whole {neg : Bool} {a : Nat} (h : ofRatio neg a 1 = .finite f) (hmant : f.mant ≠ 0) :
    ofDecimal neg a 0 = some (.finite f) := by
  have hratio : ofDecimal neg a 0 = inRange a (ofRatio neg (a * 10 ^ 0) 1) := ofDecimal_nonneg neg a 0
  rw [hratio, pow_zero, Nat.mul_one, h]
  exact if_neg fun h => hmant h.1

/-! ## Plain numerals -/

theorem plainText_numeral (hf : f.mant ≠ 0) : ∃ N : Numeral, N.Rfc ∧ N.exp = none ∧ (plainText f).map ascii = N.text ∧
    N.value = some (.finite f) := by
  obtain ⟨w⟩ := exists_rendering hf
  refine ⟨w.r.fixedNumeral, w.r.fixedNumeral_rfc, ?_, (fixedNumeral_text w).symm, w.r.fixed_value.trans (w.value hf)⟩
  unfold Scientific.fixedNumeral
  dsimp only
  split
  · rfl
  · split <;> rfl

theorem plain_chars {digits : List Char} (h : digits.all Char.isDigit = true) (dp : Int) :
    ∀ c ∈ plain digits dp, c.isDigit = true ∨ c = '.' := by
  have hdigit := List.all_eq_true.mp h
  have hzeros : ∀ n, ∀ c ∈ List.replicate n '0', c.isDigit = true ∨ c = '.' := fun n c hc =>
    Or.inl (by rw [List.eq_of_mem_replicate hc]; rfl)
  intro c hc
  unfold plain at hc
  split at hc
  · rcases List.mem_cons.mp hc with rfl | hc
    · exact Or.inl rfl
    · rcases List.mem_cons.mp hc with rfl | hc
      · exact Or.inr rfl
      · exact (List.mem_append.mp hc).elim (hzeros _ c) fun hc => Or.inl (hdigit c hc)
  · split at hc
    · exact (List.mem_append.mp hc).elim (fun hc => Or.inl (hdigit c hc)) (hzeros _ c)
    · rcases List.mem_append.mp hc with hc | hc
      · exact Or.inl (hdigit c (List.mem_of_mem_take hc))
      · rcases List.mem_cons.mp hc with rfl | hc
        · exact Or.inr rfl
        · exact Or.inl (hdigit c (List.mem_of_mem_drop hc))

theorem not_mem_plainText : 'e' ∉ plainText f := by
  intro hmem
  unfold plainText at hmem
  rcases List.mem_append.mp hmem with hmem | hmem
  · unfold signOf at hmem
    split at hmem
    · exact absurd (List.mem_singleton.mp hmem) (by decide)
    · exact List.not_mem_nil hmem
  · rcases plain_chars (decimal_digits _) _ _ hmem with h | h
    · exact absurd h (by decide)
    · exact absurd h (by decide)

/-- A plain numeral is a whole number where no digit is behind the point. -/
theorem plain_eq_decimal {m : Nat} (hm : m ≠ 0) (e : Int) (a : Nat) :
    plain (decimal m) (e + (decimal m).length) = decimal a ↔ 0 ≤ e ∧ m * 10 ^ e.toNat = a := by
  have hpos := List.length_pos_iff.mpr (decimal_ne_nil m)
  by_cases he : 0 ≤ e
  · have hplain : plain (decimal m) (e + (decimal m).length) = decimal (m * 10 ^ e.toNat) := by
      unfold plain
      rw [if_neg (by omega), if_pos (by omega), decimal_mul_pow hm]
      congr 2
      omega
    rw [hplain, and_iff_right he]
    exact ⟨decimal_inj, congrArg decimal⟩
  · refine iff_of_false (fun h => ?_) fun h => he h.1
    have hdot : '.' ∈ plain (decimal m) (e + (decimal m).length) := by
      unfold plain
      split
      · exact List.mem_cons_of_mem _ List.mem_cons_self
      · rw [if_neg (by omega)]
        exact List.mem_append_right _ List.mem_cons_self
    exact not_mem_decimal (by decide) a (h ▸ hdot)

theorem shortest_ne_zero (hf : f.mant ≠ 0) : f.shortest.1 ≠ 0 := by
  rintro h
  have hlast := (shortest_spec hf).2
  rw [h] at hlast
  exact hlast rfl

/-- A plain numeral that the buffer holds is no subnormal number. -/
theorem normal_of_length (hf : f.mant ≠ 0) (h : (plainText f).length ≤ keyBuffer) : 2 ^ 52 ≤ f.mant := by
  by_contra hlt
  have hexp := f.normal.resolve_left hlt
  have hunits : f.units = f.mant := by
    unfold units
    rw [hexp]
    exact Nat.mul_one _
  have hsmall : f.units * 10 ^ 300 < unitsPerOne := by
    have hbound : 2 ^ 52 * 10 ^ 300 < unitsPerOne := by decide +kernel
    rw [hunits]
    exact (Nat.mul_lt_mul_of_pos_right (by omega) (by positivity)).trans hbound
  have hlow := decimalExponent_lt (units_pos hf) hsmall
  have hexponent := exponent_eq hf
  unfold plainText keyBuffer plain at h
  dsimp only at h
  rw [if_pos (by omega), List.length_append, List.length_cons, List.length_cons, List.length_append,
    List.length_replicate] at h
  omega

/-- The exponent of a number written without exponent, but with too many characters for the buffer. -/
theorem exponent_of_length (hf : f.mant ≠ 0) (h : keyBuffer < (plainText f).length) :
    f.shortest.2 + (decimal f.shortest.1).length - 1 < -4 ∨ 6 ≤ f.shortest.2 + (decimal f.shortest.1).length - 1 := by
  by_contra hexp
  have hlen := (decimal_length_le _ 16).mpr (shortest_lt hf)
  have hsign : (signOf f.neg).length ≤ 1 := by cases f.neg <;> decide
  unfold plainText keyBuffer plain at h
  dsimp only at h
  rw [List.length_append] at h
  split at h
  · rw [List.length_cons, List.length_cons, List.length_append, List.length_replicate] at h
    omega
  · split at h
    · rw [List.length_append, List.length_replicate] at h
      omega
    · rw [List.length_append, List.length_cons, List.length_take, List.length_drop] at h
      omega

theorem mem_goFormatG (hf : f.mant ≠ 0)
    (hexp : f.shortest.2 + (decimal f.shortest.1).length - 1 < -4 ∨
      6 ≤ f.shortest.2 + (decimal f.shortest.1).length - 1) : 'e' ∈ (goFormatG (.finite f)).toList := by
  rw [goFormatG_eq]
  unfold formatFloat
  dsimp only
  rw [if_neg hf, String.toList_ofList]
  unfold placed
  rw [if_pos hexp]
  exact List.mem_append_right _ (List.mem_append_right _ List.mem_cons_self)

/-! ## Java -/

theorem javaDigits_eq (hn : 2 ^ 52 ≤ f.mant) : javaDigits f = f.shortest := by
  have hf : f.mant ≠ 0 := by omega
  have hlast := (shortest_spec hf).2
  unfold javaDigits
  split
  · next hlt =>
    rcases readBack_two hn hlt with h | h
    · rw [h]
      dsimp only [Option.getD_some]
      rw [if_pos (Nat.mul_mod_left ..), Nat.mul_div_cancel _ (by decide), Int.sub_add_cancel]
    · rw [h]
      dsimp only [Option.getD_some]
      rw [if_neg hlast]
  · rfl

theorem exponent_of_large (hf : f.mant ≠ 0) (h : 10 ^ 18 * unitsPerOne ≤ f.units) :
    18 ≤ f.shortest.2 + (decimal f.shortest.1).length - 1 := by
  have hlow := le_decimalExponent unitsPerOne_pos h
  have := exponent_eq hf
  omega

theorem formatFloatF_eq (hn : 2 ^ 52 ≤ f.mant) (hlarge : f.IsIntegral → 10 ^ 18 * unitsPerOne ≤ f.units) :
    formatFloatF f = plainText f := by
  have hf : f.mant ≠ 0 := by omega
  have hzero : f ≠ zero true := fun h => hf (by rw [h]; rfl)
  unfold formatFloatF
  rw [if_neg hzero, if_neg fun h => absurd (hlarge h.1) (Nat.not_le.mpr h.2)]
  unfold doubleToString
  rw [javaDigits_eq hn]
  dsimp only
  split
  · next text htext =>
    split at htext
    · next hrange =>
      have hint : ¬ f.IsIntegral := fun hint => by
        have := exponent_of_large hf (hlarge hint)
        omega
      have he : ¬ 0 ≤ f.shortest.2 := fun he => by
        have hback := (shortest_spec hf).1
        unfold NumberText.scaled at hback
        rw [if_pos he] at hback
        exact hint (isIntegral_of_ofRatio hback)
      rw [if_neg he, List.append_nil] at htext
      exact (Sum.inl.inj htext).symm
    · exact absurd htext nofun
  · next c htext =>
    split at htext
    · exact absurd htext nofun
    · obtain rfl := Sum.inr.inj htext
      rfl

/-! ## A whole number of 64 bits -/

variable {cpp go : FiniteBinary64 → Int}

theorem units_of_isIntegral (h : f.IsIntegral) : f.units = f.toInt.natAbs * unitsPerOne := by
  rw [natAbs_toInt]
  exact h.isWhole

theorem isInt64_natAbs {n : Int} (h : IsInt64 n) : n.natAbs ≤ int64Bound := by
  unfold IsInt64 at h
  omega

theorem keyAgrees_int64 (h : f.IsIntegral) (hrange : IsInt64 f.toInt) : KeyAgrees cpp go f := by
  have hequal := equalsDouble_toInt h
  have hunits : f.units ≤ int64Bound * unitsPerOne := by
    rw [units_of_isIntegral h]
    exact Nat.mul_le_mul_right _ (isInt64_natAbs hrange)
  have hcpp : goFormatLookupKey cpp f = decimalInt f.toInt := by
    unfold goFormatLookupKey castInt64
    rw [if_pos hrange]
    exact if_pos ⟨hequal, hunits⟩
  have hgo : goLookupKey go f = decimalInt f.toInt := by
    unfold goLookupKey castInt64
    rw [if_pos hrange]
    exact if_pos hequal
  have hjava : toKeyString f = decimalInt f.toInt := by
    have hlong : javaLong f = f.toInt := by
      unfold IsInt64 at hrange
      unfold javaLong
      omega
    unfold toKeyString
    rw [hlong]
    exact if_pos hequal
  refine ⟨?_, hcpp.trans hgo.symm, hcpp.trans hjava.symm⟩
  obtain ⟨N, hrfc, hexp, htext, hvalue⟩ := decimalInt_numeral f.toInt
  refine ⟨N, hrfc, hexp, hcpp ▸ htext, ?_⟩
  rw [hvalue, natAbs_toInt]
  by_cases hmant : f.mant = 0
  · have hzero : f.truncNat = 0 := by
      rw [eq_zero_of_mant hmant, ← natAbs_toInt, toInt_zero]
      rfl
    rw [hzero, ofDecimal_zero]
    exact ⟨_, rfl, decide_eq_true (Or.inr ⟨hmant, rfl⟩)⟩
  · have hne : f.truncNat ≠ 0 := fun h0 => hmant (truncNat_eq_zero h h0)
    have hneg : decide (f.toInt < 0) = f.neg := by
      rw [Bool.eq_iff_iff, decide_eq_true_iff, toInt_neg_iff hne]
    have hratio := h.isWhole.ofRatio_eq
    refine ⟨f, ?_, equalsDouble_self f⟩
    rw [hneg]
    exact ofDecimal_whole hratio hmant

/-! ## The end of the range -/

theorem toInt_of_int64Bound (hend : f.toInt = int64Bound) :
    f.neg = false ∧ f.truncNat = int64Bound ∧ f.mant ≠ 0 ∧ f ≠ zero true := by
  have htrunc : f.truncNat = int64Bound := by
    rw [← natAbs_toInt, hend]
    rfl
  have hmant : f.mant ≠ 0 := fun hmant => by
    rw [eq_zero_of_mant hmant, toInt_zero] at hend
    exact absurd hend (by decide)
  have hneg : ¬ f.neg = true := fun hneg => by
    have := (toInt_neg_iff (f := f) (by rw [htrunc]; decide)).mpr hneg
    rw [hend] at this
    exact absurd this (by decide)
  exact ⟨by simpa using hneg, htrunc, hmant, fun hzero => hmant (by rw [hzero]; rfl)⟩

/-- The largest integer of 64 bits is rounded to `2 ^ 63`. -/
theorem ofInt_last (h : f.IsIntegral) (hend : f.toInt = int64Bound) : Binary64.ofInt (int64Bound - 1) = .finite f := by
  have hround : Binary64.ofInt (int64Bound - 1) = Binary64.ofInt int64Bound := by decide +kernel
  rw [hround, ← hend]
  exact ofInt_toInt h (toInt_of_int64Bound hend).2.2.2

theorem toKeyString_end (h : f.IsIntegral) (hend : f.toInt = int64Bound) :
    toKeyString f = decimalInt (int64Bound - 1) := by
  have hlong : javaLong f = int64Bound - 1 := by
    unfold javaLong
    rw [hend]
    decide
  have hequal : equalsDouble f (.ofInt (int64Bound - 1)) = true := by
    rw [ofInt_last h hend]
    exact equalsDouble_self f
  unfold toKeyString
  rw [hlong]
  exact if_pos hequal

theorem castInt64_end (undefined : FiniteBinary64 → Int) (hend : f.toInt = int64Bound) :
    castInt64 undefined f = undefined f := by
  unfold castInt64
  rw [hend]
  exact if_neg (by decide)

theorem decimalInt_last : decimalInt (int64Bound - 1) = decimal (int64Bound - 1) := by
  have hcast : (int64Bound - 1 : Int) = (int64Bound - 1 : Nat) := by decide
  unfold decimalInt
  rw [hcast, if_neg (by omega), Int.natAbs_natCast]

/-- At the end of the range no plain numeral is exact. -/
theorem not_exact_end (hmant : f.mant ≠ 0) {a : Nat} (ha : a = int64Bound ∨ a = int64Bound - 1) :
    ¬ (0 ≤ f.shortest.2 ∧ f.shortest.1 * 10 ^ f.shortest.2.toNat = a) := by
  rintro ⟨-, hexact⟩
  have hlt := shortest_lt hmant
  unfold int64Bound at ha
  rcases hk : f.shortest.2.toNat with _ | k
  · rw [hk, pow_zero] at hexact
    omega
  · rw [hk, pow_succ, ← Nat.mul_assoc] at hexact
    omega

theorem units_end (h : f.IsIntegral) (hend : f.toInt = int64Bound) : f.units = int64Bound * unitsPerOne := by
  rw [units_of_isIntegral h, hend, Int.natAbs_natCast]

theorem goFormatLookupKey_end (h : f.IsIntegral) (hend : f.toInt = int64Bound)
    (hlast : goFormatLookupKey cpp f = decimalInt (int64Bound - 1)) : cpp f = int64Bound - 1 := by
  obtain ⟨hneg, htrunc, -⟩ := toInt_of_int64Bound hend
  unfold goFormatLookupKey at hlast
  rw [castInt64_end cpp hend] at hlast
  dsimp only at hlast
  split at hlast
  · exact decimalInt_inj hlast
  · have hfixed : toCharsFixed f = decimal int64Bound := by
      unfold toCharsFixed
      rw [if_pos h, hneg, htrunc, signOf_false, List.nil_append]
    have hlen : (decimal int64Bound).length ≤ keyBuffer :=
      ((decimal_length_le int64Bound 18).mpr (by decide)).trans (by decide)
    rw [hfixed, if_pos hlen, decimalInt_last] at hlast
    exact absurd (decimal_inj hlast) (by decide)

theorem goLookupKey_end (hend : f.toInt = int64Bound) (hlast : goLookupKey go f = decimalInt (int64Bound - 1)) :
    go f = int64Bound - 1 := by
  obtain ⟨hneg, -, hmant, -⟩ := toInt_of_int64Bound hend
  unfold goLookupKey at hlast
  rw [castInt64_end go hend] at hlast
  dsimp only at hlast
  split at hlast
  · exact decimalInt_inj hlast
  · rw [strconvFormat_f hmant, hneg, signOf_false, List.nil_append, decimalInt_last,
      plain_eq_decimal (shortest_ne_zero hmant)] at hlast
    exact absurd hlast (not_exact_end hmant (Or.inr rfl))

theorem keyAgrees_saturated (h : f.IsIntegral) (hend : f.toInt = int64Bound) (hcpp : cpp f = int64Bound - 1)
    (hgo : go f = int64Bound - 1) : KeyAgrees cpp go f := by
  obtain ⟨hneg, -, hmant, -⟩ := toInt_of_int64Bound hend
  have hunits := units_end h hend
  have hequal : equalsDouble f (.ofInt (int64Bound - 1)) = true := by
    rw [ofInt_last h hend]
    exact equalsDouble_self f
  have hkey : goFormatLookupKey cpp f = decimalInt (int64Bound - 1) := by
    unfold goFormatLookupKey
    rw [castInt64_end cpp hend, hcpp]
    exact if_pos ⟨hequal, hunits.le⟩
  have hkey' : goLookupKey go f = decimalInt (int64Bound - 1) := by
    unfold goLookupKey
    rw [castInt64_end go hend, hgo]
    exact if_pos hequal
  refine ⟨?_, hkey.trans hkey'.symm, hkey.trans (toKeyString_end h hend).symm⟩
  obtain ⟨N, hrfc, hexp, htext, hvalue⟩ := decimalInt_numeral (int64Bound - 1)
  refine ⟨N, hrfc, hexp, hkey ▸ htext, f, ?_, equalsDouble_self f⟩
  have hlast : (int64Bound - 1 : Int).natAbs = int64Bound - 1 := by decide
  have hratio : ofRatio f.neg (int64Bound - 1) 1 = .finite f := by
    have hpos := unitsPerOne_pos
    unfold int64Bound at hunits ⊢
    refine ofRatio_near Nat.one_pos ?_ ?_
    · rw [hunits]
      omega
    · rw [hunits]
      omega
  have hsign : decide ((int64Bound - 1 : Int) < 0) = f.neg := by
    rw [hneg]
    decide
  rw [hvalue, hlast, hsign]
  exact ofDecimal_whole hratio hmant

theorem keyAgrees_end_iff (h : f.IsIntegral) (hend : f.toInt = int64Bound) :
    KeyAgrees cpp go f ↔ cpp f = int64Bound - 1 ∧ go f = int64Bound - 1 := by
  have hjava := toKeyString_end h hend
  constructor
  · rintro ⟨-, hgo, hjava'⟩
    have hlast := hjava'.trans hjava
    exact ⟨goFormatLookupKey_end h hend hlast, goLookupKey_end hend (hgo.symm.trans hlast)⟩
  · rintro ⟨hcpp, hgo⟩
    exact keyAgrees_saturated h hend hcpp hgo

/-! ## Every other number -/

theorem keyAgrees_plain_iff (hcpp : ∀ f, IsInt64 (cpp f)) (hgo : ∀ f, IsInt64 (go f)) (hmant : f.mant ≠ 0)
    (hout : f.IsIntegral → int64Bound < f.truncNat) :
    KeyAgrees cpp go f ↔ (plainText f).length ≤ keyBuffer ∧
      (f.IsIntegral → 0 ≤ f.shortest.2 ∧ f.shortest.1 * 10 ^ f.shortest.2.toNat = f.truncNat) := by
  have hcast : ∀ {undefined : FiniteBinary64 → Int}, (∀ f, IsInt64 (undefined f)) → IsInt64 (castInt64 undefined f) := by
    intro undefined hundefined
    unfold castInt64
    split
    · assumption
    · exact hundefined f
  have hlong : IsInt64 (javaLong f) := by
    unfold IsInt64 javaLong int64Bound
    omega
  have hequal : ∀ {n}, IsInt64 n → ¬ equalsDouble f (.ofInt n) = true := fun hn => by
    rw [not_equalsDouble hout hn]
    exact Bool.false_ne_true
  have hkey : goFormatLookupKey cpp f =
      if (toCharsFixed f).length ≤ keyBuffer then toCharsFixed f else (goFormatG (.finite f)).toList :=
    if_neg fun h => hequal (hcast hcpp) h.1
  have hkey' : goLookupKey go f = plainText f := (if_neg (hequal (hcast hgo))).trans (strconvFormat_f hmant)
  have hjava : toKeyString f = formatFloatF f := if_neg (hequal hlong)
  have hlarge : f.IsIntegral → 10 ^ 18 * unitsPerOne ≤ f.units := fun hint => by
    have hlt := hout hint
    rw [hint.isWhole]
    refine Nat.mul_le_mul_right _ ?_
    unfold int64Bound at hlt
    omega
  have hfixed : toCharsFixed f = plainText f ↔
      (f.IsIntegral → 0 ≤ f.shortest.2 ∧ f.shortest.1 * 10 ^ f.shortest.2.toNat = f.truncNat) := by
    unfold toCharsFixed
    split
    · next hint =>
      unfold plainText
      rw [List.append_right_inj, eq_comm, plain_eq_decimal (shortest_ne_zero hmant)]
      exact (imp_iff_right hint).symm
    · next hint => exact iff_of_true rfl fun h => absurd h hint
  constructor
  · rintro ⟨-, hgo', -⟩
    rw [hkey, hkey'] at hgo'
    split at hgo'
    · next hlen => exact ⟨hgo' ▸ hlen, hfixed.mp hgo'⟩
    · next hlen =>
      refine absurd (hgo' ▸ mem_goFormatG hmant ?_) not_mem_plainText
      by_cases hint : f.IsIntegral
      · have := exponent_of_large hmant (hlarge hint)
        omega
      · refine exponent_of_length hmant ?_
        rw [← hfixed.mpr fun h => absurd h hint]
        omega
  · rintro ⟨hlen, hexact⟩
    have hsame := hfixed.mpr hexact
    rw [hsame, if_pos hlen] at hkey
    refine ⟨?_, hkey.trans hkey'.symm, ?_⟩
    · obtain ⟨N, hrfc, hexp, htext, hvalue⟩ := plainText_numeral hmant
      exact ⟨N, hrfc, hexp, hkey ▸ htext, f, hvalue, equalsDouble_self f⟩
    · rw [hkey, hjava, formatFloatF_eq (normal_of_length hmant hlen) hlarge]

theorem outside_of_not_int64 (hrange : ¬ (f.IsIntegral ∧ IsInt64 f.toInt)) :
    f.mant ≠ 0 ∧ (f.IsIntegral → f.toInt = int64Bound ∨ int64Bound < f.truncNat) := by
  refine ⟨fun hmant => hrange ⟨Or.inr (by rw [hmant]; exact Nat.dvd_zero _), ?_⟩, fun hint => ?_⟩
  · rw [eq_zero_of_mant hmant, toInt_zero]
    decide
  · have hout : ¬ IsInt64 f.toInt := fun h => hrange ⟨hint, h⟩
    rw [← natAbs_toInt]
    unfold IsInt64 at hout
    omega

/-- Exactly when the three engines look up a finite number under the same plain numeral, which is the number's. -/
theorem keyAgrees_iff (hcpp : ∀ f, IsInt64 (cpp f)) (hgo : ∀ f, IsInt64 (go f)) (f : FiniteBinary64) :
    KeyAgrees cpp go f ↔ KeyFits cpp go f := by
  by_cases hrange : f.IsIntegral ∧ IsInt64 f.toInt
  · exact iff_of_true (keyAgrees_int64 hrange.1 hrange.2) (.int64 hrange.1 hrange.2)
  obtain ⟨hmant, hout⟩ := outside_of_not_int64 hrange
  by_cases hend : f.IsIntegral ∧ f.toInt = int64Bound
  · obtain ⟨hint, hend⟩ := hend
    have htrunc := (toInt_of_int64Bound hend).2.1
    rw [keyAgrees_end_iff hint hend]
    constructor
    · exact fun h => .saturated hint hend h.1 h.2
    · rintro (⟨hint, h64⟩ | ⟨-, hexact⟩ | ⟨-, -, hc, hg⟩)
      · exact absurd ⟨hint, h64⟩ hrange
      · exact absurd (hexact hint) (not_exact_end hmant (Or.inl htrunc))
      · exact ⟨hc, hg⟩
  · have hout : f.IsIntegral → int64Bound < f.truncNat := fun hint =>
      (hout hint).resolve_left fun h => hend ⟨hint, h⟩
    rw [keyAgrees_plain_iff hcpp hgo hmant hout]
    constructor
    · exact fun h => .plain h.1 h.2
    · rintro (⟨hint, h64⟩ | ⟨hlen, hexact⟩ | ⟨hint, h, -, -⟩)
      · exact absurd ⟨hint, h64⟩ hrange
      · exact ⟨hlen, hexact⟩
      · exact absurd ⟨hint, h⟩ hend

end

/-- The conversion of x86 processors, which gives the smallest integer out of range. -/
def indefinite (_ : FiniteBinary64) : Int := -int64Bound

theorem isInt64_indefinite (f : FiniteBinary64) : IsInt64 (indefinite f) := by
  unfold indefinite
  decide

def three : FiniteBinary64 :=
  ⟨false, 6755399441055744, -51, by decide, by decide, by decide, Or.inl (by decide)⟩

theorem keyAgrees_iff_three : three.toInt = 3 ∧ KeyAgrees indefinite indefinite three :=
  ⟨by decide +kernel, (keyAgrees_iff isInt64_indefinite isInt64_indefinite three).mpr
    (.int64 (by decide +kernel) (by decide +kernel))⟩

/-- `2 ^ 64`. -/
def pastInt64 : FiniteBinary64 := ⟨false, 2 ^ 52, 12, by decide, by decide, by decide, Or.inl (by decide)⟩

/-- The C++ engine writes `18446744073709551616`, which is not what Go makes of the shortest digits. -/
theorem not_keyAgrees_pastInt64 : pastInt64.truncNat = 2 ^ 64 ∧ ¬ KeyAgrees indefinite indefinite pastInt64 := by
  have htrunc : pastInt64.truncNat = 2 ^ 64 := by decide +kernel
  have hint : pastInt64.IsIntegral := by decide +kernel
  have hmant : pastInt64.mant ≠ 0 := by decide
  have hout : pastInt64.IsIntegral → int64Bound < pastInt64.truncNat := fun _ => by
    rw [htrunc]
    decide
  refine ⟨htrunc, ?_⟩
  rw [keyAgrees_plain_iff isInt64_indefinite isInt64_indefinite hmant hout]
  rintro ⟨-, hexact⟩
  obtain ⟨-, hexact⟩ := hexact hint
  have hlt := FiniteBinary64.shortest_lt hmant
  rw [htrunc] at hexact
  rcases hk : pastInt64.shortest.2.toNat with _ | k
  · rw [hk, pow_zero] at hexact
    omega
  · rw [hk, pow_succ, ← Nat.mul_assoc] at hexact
    omega

end Pineapple
