import Pineapple.JavaFormat
import Pineapple.Reorder
import Pineapple.Lib.Divergence

/-! # One text for a value in Java and in Go (`GoFormat.sprint`, `fmt.Sprint`)

Where the two texts of a value differ, neither is the beginning of the other, so that what is made of them (keys,
members, arrays) agrees exactly if every text does. -/

namespace Pineapple.GoFormat

open FiniteBinary64
open Json (Numeral plain)
open Reorder (HasSign ofRatio_hasSign)

/-! ## Where the texts agree -/

/-- A number with one text: an integer of less than seven digits, or one that no `long` holds; in another spelling, one
for which `Double.toString` has the shortest decimal. A zero of an integer spelling has no sign. -/
inductive NumberAlike (n : Numeral) : Prop
  | small : n.IsInteger → n.integer.natAbs < 10 ^ 6 → (n.integer = 0 → n.minus = false) → NumberAlike n
  | large : n.IsInteger → ¬ IsInt64 n.integer → NumberAlike n
  | fraction (f : FiniteBinary64) : ¬ n.IsInteger → n.nearest = .finite f → (f.mant ≠ 0 → javaDigits f = f.shortest) →
      NumberAlike n

/-- A value with one text: it has no object, and no string with an unpaired surrogate. -/
inductive SprintsAlike : Spelled → Prop
  | null : SprintsAlike .null
  | bool (b : Bool) : SprintsAlike (.bool b)
  | number {n : {n : Numeral // n.Rfc}} : NumberAlike n.val → SprintsAlike (.number n)
  | string (t : List Char) : SprintsAlike (.string (utf16 t))
  | array {xs : List Spelled} : (∀ x ∈ xs, SprintsAlike x) → SprintsAlike (.array xs)

/-! ## Doubles -/

variable {f : FiniteBinary64}

theorem formatFloat_finite (hf : f.mant ≠ 0) : (formatFloat (.finite f)).toList =
    signOf f.neg ++ placed (decimal f.shortest.1) (f.shortest.2 + (decimal f.shortest.1).length - 1) := by
  unfold formatFloat
  dsimp only
  rw [if_neg hf, String.toList_ofList]

theorem formatFloat_zero (neg : Bool) : (formatFloat (.finite (zero neg))).toList = signOf neg ++ ['0'] := by
  unfold formatFloat
  dsimp only
  rw [if_pos (show (zero neg).mant = 0 from rfl), String.toList_ofList]
  rfl

/-- A whole number below a million. -/
theorem formatFloat_small {a : Nat} (hf : f.IsWhole a) (hsmall : a < 10 ^ 6) :
    (formatFloat (.finite f)).toList = signOf f.neg ++ decimal a := by
  rw [← goFormatG_eq, goFormatG_small hf hsmall, String.toList_ofList]

theorem exponentText_length {e : Int} (hlo : -999 ≤ e) (hhi : e ≤ -100) : (exponentText e).length = 5 := by
  have hlen : (decimal e.natAbs).length = 3 := by
    refine Nat.le_antisymm ((decimal_length_le _ 2).mpr (by omega)) ?_
    have := mt (decimal_length_le e.natAbs 1).mp (by omega)
    omega
  unfold exponentText
  rw [if_neg (show ¬ e.natAbs < 10 by omega), List.length_cons, List.length_cons, hlen]

theorem exponentText_inj {e e' : Int} (h : exponentText e = exponentText e') : e = e' := by
  obtain ⟨sign, digits, htext, -, -, hsign⟩ := exponentText_value e
  obtain ⟨sign', digits', htext', -, -, hsign'⟩ := exponentText_value e'
  rw [htext, htext', List.cons.injEq, List.cons.injEq] at h
  obtain ⟨-, rfl, rfl⟩ := h
  rcases hsign with ⟨rfl, rfl⟩ | ⟨rfl, rfl⟩
  · rcases hsign' with ⟨-, rfl⟩ | ⟨h, -⟩
    · rfl
    · exact absurd h (by decide)
  · rcases hsign' with ⟨h, -⟩ | ⟨-, rfl⟩
    · exact absurd h (by decide)
    · rfl

theorem decimal_one {m : Nat} (h : m < 10) : decimal m = [digitChar m] := by
  rw [decimal, if_pos h]

theorem decimal_two {m : Nat} (hlo : 10 ≤ m) (hhi : m < 100) : decimal m = [digitChar (m / 10), digitChar m] := by
  rw [decimal, if_neg (by omega), decimal_one (by omega)]
  rfl

theorem digitChar_inj {a b : Nat} (ha : a < 10) (hb : b < 10) (h : digitChar a = digitChar b) : a = b := by
  have := congrArg Char.toNat h
  rw [toNat_digitChar, toNat_digitChar] at this
  omega

/-- Where one digit is enough, `Double.toString` has one or two, and the exponent is that of the number. -/
theorem javaDigits_short (hf : f.mant ≠ 0) (hlt : f.shortest.1 < 10) :
    (javaDigits f).1 < 100 ∧ (javaExponent f = decimalExponent f.units Binary64.unitsPerOne ∨
      javaExponent f = decimalExponent f.units Binary64.unitsPerOne + 1) := by
  have hone : ∀ m < 10, (decimal m).length = 1 := fun m hm => by rw [decimal_one hm]; rfl
  have htwo : ∀ m, 10 ≤ m → m < 100 → (decimal m).length = 2 := fun m hlo hhi => by rw [decimal_two hlo hhi]; rfl
  have hread : ∀ c ∈ f.readBack 2, c.1 < 100 ∧ ((c.1 = 1 ∧ c.2 = f.digitExponent 2 + 2) ∨
      (10 ≤ c.1 ∧ c.2 = f.digitExponent 2)) := by
    intro c hc
    obtain ⟨⟨m, e⟩, hfind, hcd⟩ := Option.map_eq_some_iff.mp (Option.mem_def.mp hc)
    obtain ⟨hm, he⟩ := mem_neighbours.mp (List.mem_of_find?_eq_some hfind)
    obtain ⟨hlo, hhi⟩ := lower_bounds (k := 2) hf (by decide)
    dsimp only at hm he hcd
    split at hcd
    · rw [← hcd, he]
      exact ⟨Nat.lt_of_sub_eq_succ rfl, Or.inl ⟨rfl, rfl⟩⟩
    · rw [← hcd]
      dsimp only
      omega
  have hexp := Json.exponent_eq hf
  have hdigit : f.digitExponent 2 = decimalExponent f.units Binary64.unitsPerOne - 1 := by
    unfold digitExponent
    push_cast
    omega
  unfold javaExponent javaDigits
  rw [if_pos hlt]
  dsimp only
  rcases hc : f.readBack 2 with _ | c
  · have hlast := (shortest_spec hf).2
    rw [Option.getD_none, if_neg hlast]
    exact ⟨by omega, hexp⟩
  · obtain ⟨hc100, hcase⟩ := hread c hc
    rw [Option.getD_some]
    split
    · next hten =>
      have := hone (c.1 / 10) (by omega)
      dsimp only
      rw [this]
      omega
    · rcases hcase with ⟨h1, he⟩ | ⟨hlo, he⟩
      · rw [hone _ (by omega)]
        omega
      · rw [htwo _ hlo hc100]
        omega

/-- The exponent of a subnormal number has three digits. -/
theorem decimalExponent_subnormal (hf : f.mant ≠ 0) (hn : f.mant < 2 ^ 52) :
    -324 ≤ decimalExponent f.units Binary64.unitsPerOne ∧ decimalExponent f.units Binary64.unitsPerOne < -307 := by
  have hunits : f.units = f.mant := by
    unfold units
    rw [f.normal.resolve_left (by omega)]
    exact Nat.mul_one _
  have hpos := units_pos hf
  have hone : Binary64.unitsPerOne ≤ 1 * 10 ^ 324 := by decide +kernel
  have hbound : 2 ^ 52 * 10 ^ 307 < Binary64.unitsPerOne := by decide +kernel
  have hlow := neg_le_decimalExponent hpos Binary64.unitsPerOne_pos
    (hone.trans (Nat.mul_le_mul_right (10 ^ 324) (Nat.succ_le_of_lt hpos)))
  have hhigh := decimalExponent_lt (k := 307) hpos
    ((Nat.mul_lt_mul_of_pos_right (by omega) (by positivity)).trans hbound)
  exact ⟨by exact_mod_cast hlow, by exact_mod_cast hhigh⟩

/-- Other digits make another text. -/
theorem placed_diverge (hf : f.mant ≠ 0) (hne : javaDigits f ≠ f.shortest) :
    Diverge (placed (decimal (javaDigits f).1) (javaExponent f))
      (placed (decimal f.shortest.1) (f.shortest.2 + (decimal f.shortest.1).length - 1)) := by
  have hn : f.mant < 2 ^ 52 := by
    by_contra hn
    exact hne (javaDigits_eq (Nat.le_of_not_lt hn))
  have hlt : f.shortest.1 < 10 := by
    by_contra hlt
    exact hne (if_neg hlt)
  obtain ⟨hjava, hexp⟩ := javaDigits_short hf hlt
  obtain ⟨hlow, hhigh⟩ := decimalExponent_subnormal hf hn
  have hexp' := Json.exponent_eq hf
  have hjexp : javaExponent f = (javaDigits f).2 + (decimal (javaDigits f).1).length - 1 := rfl
  obtain ⟨x, hx⟩ : ∃ x, x = javaExponent f := ⟨_, rfl⟩
  obtain ⟨y, hy⟩ : ∃ y, y = f.shortest.2 + (decimal f.shortest.1).length - 1 := ⟨_, rfl⟩
  rw [← hx] at hexp hjexp ⊢
  rw [← hy] at hexp' ⊢
  rw [Json.placed_eq, Json.placed_eq, if_pos (by omega), if_pos (by omega), decimal_one hlt]
  rw [decimal_one hlt] at hy
  by_cases hone : (javaDigits f).1 < 10
  · rw [decimal_one hone] at hjexp ⊢
    by_cases hdigit : digitChar (javaDigits f).1 = digitChar f.shortest.1
    · have hm := digitChar_inj hone hlt hdigit
      have hxy : exponentText x ≠ exponentText y := fun h => by
        have := exponentText_inj h
        refine hne (Prod.ext hm ?_)
        rw [List.length_singleton] at hjexp hy
        omega
      rw [hdigit]
      exact (Diverge.of_length_eq (by rw [exponentText_length, exponentText_length] <;> omega) hxy).append_left _
    · exact .here _ _ hdigit
  · rw [decimal_two (Nat.le_of_not_lt hone) hjava]
    by_cases hdigit : digitChar ((javaDigits f).1 / 10) = digitChar f.shortest.1
    · rw [hdigit]
      exact .there _ (.here _ _ (by decide))
    · exact .here _ _ hdigit

/-- A double that is not the negative zero has one text where `Double.toString` has the shortest decimal. -/
theorem sprintDouble_alike (hzero : f ≠ zero true) :
    EqOrDiverge (sprintDouble (.finite f)) (formatFloat (.finite f)).toList ∧
      (sprintDouble (.finite f) = (formatFloat (.finite f)).toList ↔ (f.mant ≠ 0 → javaDigits f = f.shortest)) := by
  unfold sprintDouble smallWhole
  dsimp only
  by_cases hsmall : f.IsIntegral ∧ f.truncNat < 10 ^ 6
  · rw [if_pos hsmall]
    have heq : decimalInt f.toInt = (formatFloat (.finite f)).toList := by
      rw [decimalInt_eq, natAbs_toInt, formatFloat_small hsmall.1.isWhole hsmall.2]
      by_cases hf : f.mant = 0
      · have hneg : f.neg = false := by
          by_contra hneg
          rw [Bool.not_eq_false] at hneg
          exact hzero (by rw [eq_zero_of_mant hf, hneg])
        rw [eq_zero_of_mant hf, hneg, toInt_zero]
        rfl
      · rw [Bool.eq_iff_iff.mpr (decide_eq_true_iff.trans
          (toInt_neg_iff fun h => hf (truncNat_eq_zero hsmall.1 h)))]
    exact ⟨Or.inl heq, iff_of_true heq fun hf => javaDigits_eq (hsmall.1.normal hf)⟩
  · have hf : f.mant ≠ 0 := by
      intro hf
      refine hsmall ⟨Or.inr (by rw [hf]; exact Nat.dvd_zero _), ?_⟩
      rw [← natAbs_toInt, eq_zero_of_mant hf, toInt_zero]
      decide
    rw [if_neg hsmall]
    dsimp only
    rw [formatG_eq hf, formatFloat_finite hf]
    by_cases hdigits : javaDigits f = f.shortest
    · have hexp : javaExponent f = f.shortest.2 + (decimal f.shortest.1).length - 1 := by
        unfold javaExponent
        rw [hdigits]
      rw [hexp, hdigits]
      exact ⟨Or.inl rfl, iff_of_true rfl fun _ => rfl⟩
    · have hdiverge := (placed_diverge hf hdigits).append_left (signOf f.neg)
      exact ⟨Or.inr hdiverge, iff_of_false hdiverge.ne fun h => hdigits (h hf)⟩

/-! ## Integers -/

theorem neg_of_ofRatio {neg : Bool} {p q : Nat} (h : Binary64.ofRatio neg p q = .finite f) : f.neg = neg := by
  rcases ofRatio_hasSign neg p q with hinf | ⟨g, hg, hneg⟩
  · rw [h] at hinf
    cases hinf
  · rw [h] at hg
    rw [Binary64.finite.inj hg, hneg]

/-- An integer below `2 ^ 53` is exact, a larger one stays large. -/
theorem whole_or_large {neg : Bool} {a : Nat} (h : Binary64.ofRatio neg a 1 = .finite f) :
    f.IsWhole a ∨ 2 ^ 53 ≤ a ∧ 2 ^ 53 * Binary64.unitsPerOne ≤ f.units := by
  by_cases ha : a < 2 ^ 53
  · obtain ⟨g, -, hneg, hg⟩ := exists_isWhole neg ha
    have hratio := hg.ofRatio_eq
    rw [hneg, h] at hratio
    rw [Binary64.finite.inj hratio]
    exact Or.inl hg
  · exact Or.inr ⟨Nat.le_of_not_lt ha, le_units_of_ofRatio (Nat.le_of_not_lt ha) h⟩

theorem mant_of_ofRatio {neg : Bool} {a : Nat} (h : Binary64.ofRatio neg a 1 = .finite f) (ha : a ≠ 0) : f.mant ≠ 0 := by
  rcases whole_or_large h with hwhole | ⟨-, hlarge⟩
  · exact mant_ne_zero hwhole ha
  · intro hf
    have hunits : f.units = 0 := by
      unfold units
      rw [hf, Nat.zero_mul]
    have := Binary64.unitsPerOne_pos
    omega

theorem nearestInt_ne_negZero (n : Int) : JavaNumber.nearestInt n ≠ .negZero := by
  intro h
  have hneg : true = decide (n < 0) := neg_of_ofRatio (f := zero true) h
  refine mant_of_ofRatio (f := zero true) h ?_ rfl
  have := of_decide_eq_true hneg.symm
  omega

theorem sprintNumber_integer (n : Int32) : sprintNumber (.integer n) = decimalInt n.toInt :=
  if_neg (nearestInt_ne_negZero _)

theorem sprintNumber_long (n : Int64) : sprintNumber (.long n) = decimalInt n.toInt :=
  if_neg (nearestInt_ne_negZero _)

/-- `int` and `long` have every digit. -/
theorem sprintNumber_int64 {n : Numeral} (hint : n.IsInteger) (hrange : IsInt64 n.integer) :
    sprintNumber (jacksonNumber n) = decimalInt n.integer := by
  unfold jacksonNumber
  rw [if_pos hint]
  have hbounds := hrange
  unfold IsInt64 int64Bound at hbounds
  split
  · next h =>
    unfold int32Bound at h
    rw [sprintNumber_integer, Int32.toInt_ofInt_of_le (by omega) (by omega)]
  · rw [sprintNumber_long, Int64.toInt_ofInt_of_le (by omega) (by omega)]

theorem nearest_integer {n : Numeral} (hint : n.IsInteger) :
    n.nearest = Binary64.ofRatio n.minus n.integer.natAbs 1 := by
  have habs : n.integer.natAbs = Json.digitsValue n.int := by
    unfold Json.Numeral.integer
    split <;> omega
  unfold Json.Numeral.nearest NumberText.scaled
  rw [hint.1, hint.2, habs]
  show (if 0 ≤ (0 : Int) - (0 : Nat) then Binary64.ofRatio n.minus (Json.digitsValue (n.int ++ []) * 10 ^ 0) 1 else _) = _
  rw [if_pos (by decide), List.append_nil, pow_zero, Nat.mul_one]

theorem minus_of_ne {n : Numeral} (h : n.integer ≠ 0) : decide (n.integer < 0) = n.minus := by
  unfold Json.Numeral.integer at h ⊢
  cases hm : n.minus with
  | true =>
    rw [hm, if_pos rfl] at h
    rw [if_pos rfl]
    exact decide_eq_true (by omega)
  | false => exact decide_eq_false (by simp)

theorem pointed_second {digits : List Char} (hne : digits ≠ []) (tail : List Char) :
    ∃ c t, pointed digits ++ 'e' :: tail = digits.head hne :: c :: t ∧ c.isDigit = false := by
  rcases digits with _ | ⟨d, rest⟩
  · exact absurd rfl hne
  · unfold pointed
    split
    · exact ⟨'.', _, rfl, by decide⟩
    · exact ⟨'e', _, rfl, by decide⟩

/-- The second character of a large integer is a digit, of Go's text it is the point or the `e`. -/
theorem large_diverge {a : Nat} (ha : 10 ^ 6 ≤ a) (hf : f.mant ≠ 0) (hunits : 10 ^ 6 * Binary64.unitsPerOne ≤ f.units) :
    Diverge (decimal a)
      (placed (decimal f.shortest.1) (f.shortest.2 + (decimal f.shortest.1).length - 1)) := by
  have hlow := le_decimalExponent Binary64.unitsPerOne_pos hunits
  have hexp := Json.exponent_eq hf
  have hlen : 2 ≤ (decimal a).length := by
    have := mt (decimal_length_le a 0).mp (by omega)
    omega
  rw [Json.placed_eq, if_pos (by omega)]
  unfold exponentText
  obtain ⟨c, t, htext, hc⟩ := pointed_second (decimal_ne_nil f.shortest.1) _
  rw [htext]
  have hdigits := List.all_eq_true.mp (decimal_digits a)
  rcases hd : decimal a with _ | ⟨x, _ | ⟨y, rest⟩⟩
  · exact absurd hd (decimal_ne_nil a)
  · rw [hd, List.length_singleton] at hlen
    omega
  · rw [hd] at hdigits
    have hy := hdigits y (List.mem_cons_of_mem _ List.mem_cons_self)
    by_cases hx : x = (decimal f.shortest.1).head (decimal_ne_nil _)
    · rw [hx]
      exact .there _ (.here _ _ (digit_ne hy hc))
    · exact .here _ _ hx

/-- An integer of a `long`. -/
theorem int64_alike {n : Numeral} (hint : n.IsInteger) (hf : n.nearest = .finite f) :
    EqOrDiverge (decimalInt n.integer) (formatFloat (.finite f)).toList ∧
      (decimalInt n.integer = (formatFloat (.finite f)).toList ↔
        n.integer.natAbs < 10 ^ 6 ∧ (n.integer = 0 → n.minus = false)) := by
  rw [nearest_integer hint] at hf
  have hneg := neg_of_ofRatio hf
  rw [decimalInt_eq]
  by_cases hsmall : n.integer.natAbs < 10 ^ 6
  · have hwhole : f.IsWhole n.integer.natAbs := (whole_or_large hf).resolve_right fun h => by omega
    rw [formatFloat_small hwhole hsmall, hneg, and_iff_right hsmall]
    by_cases hzero : n.integer = 0
    · rw [hzero, decimal_one (by decide)]
      cases n.minus with
      | false => exact ⟨Or.inl rfl, iff_of_true rfl fun _ => rfl⟩
      | true =>
        have hdiverge : Diverge (signOf (decide ((0 : Int) < 0)) ++ [digitChar (Int.natAbs 0)])
            (signOf true ++ [digitChar (Int.natAbs 0)]) := .here _ _ (by decide)
        exact ⟨Or.inr hdiverge, iff_of_false hdiverge.ne nofun⟩
    · rw [minus_of_ne hzero]
      exact ⟨Or.inl rfl, iff_of_true rfl fun h => absurd h hzero⟩
  · have hne : n.integer ≠ 0 := fun h => hsmall (by rw [h]; decide)
    have hmant := mant_of_ofRatio hf (Int.natAbs_ne_zero.mpr hne)
    have hunits : 10 ^ 6 * Binary64.unitsPerOne ≤ f.units := by
      rcases whole_or_large hf with hwhole | ⟨-, hlarge⟩
      · rw [hwhole]
        exact Nat.mul_le_mul_right _ (Nat.le_of_not_lt hsmall)
      · exact (Nat.mul_le_mul_right _ (by decide)).trans hlarge
    rw [formatFloat_finite hmant, hneg, minus_of_ne hne]
    have hdiverge := (large_diverge (Nat.le_of_not_lt hsmall) hmant hunits).append_left (signOf n.minus)
    exact ⟨Or.inr hdiverge, iff_of_false hdiverge.ne fun h => hsmall h.1⟩

/-! ## Numbers -/

theorem goNumber_eq_some {n : Numeral} {d : Binary64} (h : goNumber n = some d) :
    ∃ f, n.nearest = .finite f ∧ d = .finite f := by
  unfold goNumber at h
  split at h
  · next f hf => exact ⟨f, hf, (Option.some.inj h).symm⟩
  · cases h

theorem sprintNumber_alike {n : Numeral} {d : Binary64} (h : goNumber n = some d) :
    EqOrDiverge (sprintNumber (jacksonNumber n)) (formatFloat d).toList ∧
      (sprintNumber (jacksonNumber n) = (formatFloat d).toList ↔ NumberAlike n) := by
  obtain ⟨f, hf, rfl⟩ := goNumber_eq_some h
  by_cases hint : n.IsInteger
  · by_cases hrange : IsInt64 n.integer
    · rw [sprintNumber_int64 hint hrange]
      obtain ⟨halike, hiff⟩ := int64_alike hint hf
      refine ⟨halike, hiff.trans ⟨fun h => .small hint h.1 h.2, ?_⟩⟩
      rintro (⟨-, hsmall, hzero⟩ | ⟨-, hlarge⟩ | ⟨-, hfraction, -, -⟩)
      · exact ⟨hsmall, hzero⟩
      · exact absurd hrange hlarge
      · exact absurd hint hfraction
    · have hne : n.integer ≠ 0 := fun hzero => hrange (by rw [hzero]; decide)
      have hlarge : ¬ n.integer.natAbs < 2 ^ 53 := fun hlt => hrange (by unfold IsInt64 int64Bound; omega)
      have hjackson : jacksonNumber n = .bigInteger n.integer := by
        unfold jacksonNumber
        rw [if_pos hint, if_neg ?_, if_neg hrange]
        unfold int32Bound
        omega
      have hvalue : JavaNumber.doubleValue (.bigInteger n.integer) = .finite f := by
        show JavaNumber.nearestInt n.integer = _
        unfold JavaNumber.nearestInt
        rw [minus_of_ne hne, ← nearest_integer hint, hf]
      have hsprint : sprintNumber (jacksonNumber n) = sprintDouble (.finite f) := by
        rw [hjackson]
        unfold sprintNumber
        rw [hvalue]
        refine if_neg fun h => ?_
        exact nearestInt_ne_negZero n.integer (hvalue.trans h)
      rw [nearest_integer hint] at hf
      have hmant := mant_of_ofRatio hf (Int.natAbs_ne_zero.mpr hne)
      have hnormal := (isIntegral_of_ofRatio hf).normal hmant
      have hzero : f ≠ zero true := fun h => hmant (by rw [h]; rfl)
      obtain ⟨halike, hiff⟩ := sprintDouble_alike hzero
      rw [hsprint]
      exact ⟨halike, iff_of_true (hiff.mpr fun _ => javaDigits_eq hnormal) (.large hint hrange)⟩
  · have hjackson : jacksonNumber n = .double (.finite f) := by
      unfold jacksonNumber
      rw [if_neg hint, hf]
    have hcases : NumberAlike n ↔ (f.mant ≠ 0 → javaDigits f = f.shortest) := by
      constructor
      · rintro (⟨h, -, -⟩ | ⟨h, -⟩ | ⟨g, -, hg, hdigits⟩)
        · exact absurd h hint
        · exact absurd h hint
        · rw [hf] at hg
          rwa [Binary64.finite.inj hg]
      · exact .fraction f hint hf
    rw [hjackson, hcases]
    by_cases hzero : f = zero true
    · have htext : sprintNumber (.double (.finite f)) = (formatFloat (.finite f)).toList := by
        rw [hzero, formatFloat_zero]
        rfl
      exact ⟨Or.inl htext, iff_of_true htext fun hmant => absurd (by rw [hzero]; rfl) hmant⟩
    · have htext : sprintNumber (.double (.finite f)) = sprintDouble (.finite f) :=
        if_neg fun h => hzero (Binary64.finite.inj h)
      rw [htext]
      exact sprintDouble_alike hzero

/-! ## Strings -/

theorem toNat_unit {n : Nat} (h : n < 0x10000) : (UInt16.ofNat n).toNat = n := UInt16.toNat_ofNat_of_lt' h

theorem unit_ne {n m : Nat} (hn : n < 0x10000) (hm : m < 0x10000) (h : n ≠ m) : UInt16.ofNat n ≠ UInt16.ofNat m :=
  fun heq => h (by rw [← toNat_unit hn, heq, toNat_unit hm])

theorem toNat_lt (c : Char) : c.toNat < 0x110000 ∧ ¬ (0xD800 ≤ c.toNat ∧ c.toNat < 0xE000) := by
  have := c.valid
  rcases this with h | h
  · have : c.toNat < 0xD800 := h
    omega
  · have : 0xDFFF < c.toNat ∧ c.toNat < 0x110000 := h
    omega

/-- Different characters are written with different units. -/
theorem utf16Char_diverge {a b : Char} (h : a ≠ b) : Diverge (utf16Char a) (utf16Char b) := by
  have hne : a.toNat ≠ b.toNat := fun heq => h (Char.toNat_inj.mp heq)
  obtain ⟨ha, ha'⟩ := toNat_lt a
  obtain ⟨hb, hb'⟩ := toNat_lt b
  unfold utf16Char
  dsimp only
  split
  · split
    · exact .here _ _ (unit_ne (by omega) (by omega) hne)
    · exact .here _ _ (unit_ne (by omega) (by omega) (by omega))
  · split
    · exact .here _ _ (unit_ne (by omega) (by omega) (by omega))
    · by_cases hhigh : (a.toNat - 0x10000) / 0x400 = (b.toNat - 0x10000) / 0x400
      · rw [hhigh]
        exact .there _ (.here _ _ (unit_ne (by omega) (by omega) (by omega)))
      · exact .here _ _ (unit_ne (by omega) (by omega) (by omega))

theorem utf16_append (s t : List Char) : utf16 (s ++ t) = utf16 s ++ utf16 t := List.flatMap_append

theorem utf16_alike {s t : List Char} (h : EqOrDiverge s t) :
    EqOrDiverge (utf16 s) (utf16 t) ∧ (utf16 s = utf16 t ↔ s = t) := by
  rcases h with rfl | h
  · exact ⟨Or.inl rfl, iff_of_true rfl rfl⟩
  · have hdiverge : Diverge (utf16 s) (utf16 t) := h.flatMap utf16Char_diverge
    exact ⟨Or.inr hdiverge, iff_of_false hdiverge.ne h.ne⟩

theorem unquote_cons {u : UInt16} (hu : ¬ Json.IsHigh u.toNat) (s : Units) : unquote (u :: s) = unitChar u :: unquote s := by
  rcases s with _ | ⟨v, s⟩
  · rfl
  · rw [unquote, if_neg fun h => hu h.1]

theorem unquote_utf16 (t : List Char) : unquote (utf16 t) = t := by
  induction t with
  | nil => rfl
  | cons c t ih =>
    obtain ⟨hc, hc'⟩ := toNat_lt c
    have hcons : utf16 (c :: t) = utf16Char c ++ utf16 t := List.flatMap_cons
    rw [hcons]
    unfold utf16Char
    dsimp only
    split
    · next hlt =>
      have hu := toNat_unit hlt
      have hhigh : ¬ Json.IsHigh (UInt16.ofNat c.toNat).toNat := by
        unfold Json.IsHigh
        omega
      have hlow : ¬ Json.IsLow (UInt16.ofNat c.toNat).toNat := by
        unfold Json.IsLow
        omega
      rw [List.singleton_append, unquote_cons hhigh, ih]
      unfold unitChar
      rw [if_neg (not_or_intro hhigh hlow), hu, Char.ofNat_toNat]
    · next hge =>
      have hu := toNat_unit (n := 0xD800 + (c.toNat - 0x10000) / 0x400) (by omega)
      have hv := toNat_unit (n := 0xDC00 + (c.toNat - 0x10000) % 0x400) (by omega)
      have hpair : Json.IsHigh (UInt16.ofNat (0xD800 + (c.toNat - 0x10000) / 0x400)).toNat ∧
          Json.IsLow (UInt16.ofNat (0xDC00 + (c.toNat - 0x10000) % 0x400)).toNat := by
        unfold Json.IsHigh Json.IsLow
        omega
      have hcombine : Json.combine (0xD800 + (c.toNat - 0x10000) / 0x400) (0xDC00 + (c.toNat - 0x10000) % 0x400) =
          c.toNat := by
        unfold Json.combine
        rw [Nat.shiftLeft_eq]
        omega
      rw [List.cons_append, List.singleton_append, unquote, if_pos hpair, ih, hu, hv, hcombine, Char.ofNat_toNat]

theorem toNat_ofNat_valid {n : Nat} (h : n < 0x110000) (hs : ¬ (0xD800 ≤ n ∧ n < 0xE000)) : (Char.ofNat n).toNat = n := by
  have hvalid : n.isValidChar := by
    unfold Nat.isValidChar
    omega
  rw [Char.ofNat, dif_pos hvalid]
  rfl

theorem utf16_unitChar_length (u : UInt16) : (utf16Char (unitChar u)).length = 1 := by
  unfold unitChar
  split
  · rfl
  · next h =>
    unfold Json.IsHigh Json.IsLow at h
    have hlt := u.toNat_lt
    unfold utf16Char
    dsimp only
    rw [toNat_ofNat_valid (by omega) (by omega), if_pos (by omega), List.length_singleton]

/-- What replaces a surrogate is one unit, so that the length stays. -/
theorem utf16_unquote_length (s : Units) : (utf16 (unquote s)).length = s.length := by
  induction s using unquote.induct with
  | case1 => rfl
  | case2 u =>
    rw [unquote, utf16, List.flatMap_singleton, utf16_unitChar_length]
    rfl
  | case3 u v s hpair ih =>
    have htwo : (utf16Char (Char.ofNat (Json.combine u.toNat v.toNat))).length = 2 := by
      obtain ⟨hu, hv⟩ := hpair
      unfold Json.IsHigh at hu
      unfold Json.IsLow at hv
      have hcombine : Json.combine u.toNat v.toNat = 0x10000 + (u.toNat - 0xD800) * 0x400 + (v.toNat - 0xDC00) := by
        unfold Json.combine
        rw [Nat.shiftLeft_eq]
      unfold utf16Char
      dsimp only
      rw [toNat_ofNat_valid (by omega) (by omega), if_neg (by omega)]
      rfl
    have hcons : utf16 (unquote (u :: v :: s)) =
        utf16Char (Char.ofNat (Json.combine u.toNat v.toNat)) ++ utf16 (unquote s) := by
      rw [unquote, if_pos hpair]
      exact List.flatMap_cons
    rw [hcons, List.length_append, htwo, ih, List.length_cons, List.length_cons]
    omega
  | case4 u v s hpair ih =>
    have hcons : utf16 (unquote (u :: v :: s)) = utf16Char (unitChar u) ++ utf16 (unquote (v :: s)) := by
      rw [unquote, if_neg hpair]
      exact List.flatMap_cons
    rw [hcons, List.length_append, utf16_unitChar_length, ih]
    simp only [List.length_cons]
    omega

theorem unquote_alike (s : Units) : EqOrDiverge s (utf16 (unquote s)) ∧ (s = utf16 (unquote s) ↔ ∃ t, s = utf16 t) := by
  constructor
  · by_cases h : s = utf16 (unquote s)
    · exact Or.inl h
    · exact Or.inr (.of_length_eq (utf16_unquote_length s).symm h)
  · constructor
    · exact fun h => ⟨_, h⟩
    · rintro ⟨t, rfl⟩
      rw [unquote_utf16]

/-! ## Values -/

theorem utf16_intercalate (sep : String) (texts : List String) :
    utf16 (sep.intercalate texts).toList =
      List.intercalate (utf16 sep.toList) (texts.map fun text => utf16 text.toList) := by
  induction texts with
  | nil => rfl
  | cons text texts ih =>
    rcases texts with _ | ⟨next, texts⟩
    · rw [String.intercalate_singleton, List.map_singleton, List.intercalate_singleton]
    · rw [String.intercalate_cons_cons, String.toList_append, String.toList_append, utf16_append, utf16_append, ih,
        List.map_cons, List.map_cons, List.map_cons, List.intercalate_cons_cons, List.append_assoc]

/-- The text of Go in the units of Java. -/
def goUnits (v : Variant) : Units := utf16 (goSprintValue v).toList

/-- The two texts of a value are equal, exactly as stated, or they diverge. -/
structure OneText (j : Spelled) (v : Variant) : Prop where
  alike : EqOrDiverge (sprint (jackson j)) (goUnits v)
  eq_iff : sprint (jackson j) = goUnits v ↔ SprintsAlike j

attribute [local simp] jackson sprint goSprintValue

theorem oneText_null : OneText .null .null := by
  have h : sprint (jackson .null) = goUnits .null := by simp [goUnits]
  exact ⟨Or.inl h, iff_of_true h .null⟩

theorem oneText_bool (b : Bool) : OneText (.bool b) (.bool b) := by
  have h : sprint (jackson (.bool b)) = goUnits (.bool b) := by
    rw [goUnits, goSprintValue, jackson, sprint]
    cases b <;> rfl
  exact ⟨Or.inl h, iff_of_true h (.bool b)⟩

theorem oneText_number {n : {n : Numeral // n.Rfc}} {d : Binary64} (h : goNumber n.val = some d) :
    OneText (.number n) (.number d) := by
  obtain ⟨halike, hiff⟩ := sprintNumber_alike h
  obtain ⟨hunits, hunits'⟩ := utf16_alike halike
  have hsprint : sprint (jackson (.number n)) = utf16 (sprintNumber (jacksonNumber n)) := by simp
  have hgo : goUnits (.number d) = utf16 (formatFloat d).toList := by simp [goUnits]
  refine ⟨by rwa [hsprint, hgo], ?_⟩
  rw [hsprint, hgo, hunits', hiff]
  constructor
  · exact .number
  · rintro (_ | _ | hn)
    exact hn

theorem oneText_string (s : Units) : OneText (.string s) (.string (String.ofList (unquote s))) := by
  obtain ⟨halike, hiff⟩ := unquote_alike s
  have hsprint : sprint (jackson (.string s)) = s := by simp
  have hgo : goUnits (.string (String.ofList (unquote s))) = utf16 (unquote s) := by
    rw [goUnits, goSprintValue, String.toList_ofList]
  refine ⟨by rwa [hsprint, hgo], ?_⟩
  rw [hsprint, hgo, hiff]
  constructor
  · rintro ⟨t, rfl⟩
    exact .string t
  · intro h
    cases h
    exact ⟨_, rfl⟩

/-- A map starts with a brace, in Go with its word. -/
theorem oneText_object (es : List (Units × Spelled)) (fs : List (String × Variant)) :
    OneText (.object es) (.object fs) := by
  have hjava : ∃ s, sprint (jackson (.object es)) = UInt16.ofNat '{'.toNat :: s := by
    rw [jackson, sprint, JavaValue.toText]
    exact ⟨_, rfl⟩
  have hgo : ∃ s, goUnits (.object fs) = UInt16.ofNat 'm'.toNat :: s := by
    rw [goUnits, goSprintValue, String.toList_append, String.toList_append, List.append_assoc, utf16_append]
    exact ⟨_, rfl⟩
  obtain ⟨s, hs⟩ := hjava
  obtain ⟨t, ht⟩ := hgo
  have hdiverge : Diverge (sprint (jackson (.object es))) (goUnits (.object fs)) := by
    rw [hs, ht]
    exact .here s t (by decide)
  exact ⟨Or.inr hdiverge, iff_of_false hdiverge.ne (by rintro ⟨⟩)⟩

/-- An array whose elements have one text or diverging ones. -/
theorem oneText_array {xs : List Spelled} {vs : List Variant} (h : List.Forall₂ OneText xs vs) :
    OneText (.array xs) (.array vs) := by
  have hpairs : ∃ ps : List (Units × Units), ps.map Prod.fst = sprintAll (jacksonArray xs) ∧
      ps.map Prod.snd = (goSprintArray vs).map (fun text => utf16 text.toList) ∧
      (∀ p ∈ ps, EqOrDiverge p.1 p.2) ∧ ((∀ p ∈ ps, p.1 = p.2) ↔ ∀ x ∈ xs, SprintsAlike x) := by
    induction h with
    | nil => exact ⟨[], by rw [jacksonArray, sprintAll]; rfl, by rw [goSprintArray]; rfl, nofun, iff_of_true nofun nofun⟩
    | @cons x v xs vs hx _ ih =>
      obtain ⟨ps, hfst, hsnd, halike, hiff⟩ := ih
      refine ⟨(sprint (jackson x), goUnits v) :: ps, ?_, ?_, List.forall_mem_cons.mpr ⟨hx.alike, halike⟩, ?_⟩
      · rw [jacksonArray, sprintAll, ← hfst]
        rfl
      · rw [goSprintArray, List.map_cons, List.map_cons, ← hsnd]
        rfl
      · rw [List.forall_mem_cons, List.forall_mem_cons, hiff]
        exact and_congr_left fun _ => hx.eq_iff
  obtain ⟨ps, hfst, hsnd, halike, hiff⟩ := hpairs
  obtain ⟨hjoined, hjoined'⟩ := EqOrDiverge.intercalate (utf16 [' ']) halike
  obtain ⟨hall, hall'⟩ := hjoined.wrap (utf16 ['[']) (utf16 [']'])
  have hsprint : sprint (jackson (.array xs)) =
      utf16 ['['] ++ List.intercalate (utf16 [' ']) (ps.map Prod.fst) ++ utf16 [']'] := by
    rw [jackson, sprint, hfst]
  have hgo : goUnits (.array vs) =
      utf16 ['['] ++ List.intercalate (utf16 [' ']) (ps.map Prod.snd) ++ utf16 [']'] := by
    rw [goUnits, goSprintValue, String.toList_append, String.toList_append, utf16_append, utf16_append,
      utf16_intercalate, hsnd]
    rfl
  refine ⟨by rwa [hsprint, hgo], ?_⟩
  rw [hsprint, hgo, hall', hjoined', hiff]
  constructor
  · exact .array
  · intro h
    cases h
    assumption

mutual
theorem oneText : ∀ (j : Spelled) {v : Variant}, goDecode j = some v → OneText j v
  | .null, v, h => by
    rw [goDecode] at h
    obtain rfl := Option.some.inj h
    exact oneText_null
  | .bool b, v, h => by
    rw [goDecode] at h
    obtain rfl := Option.some.inj h
    exact oneText_bool b
  | .number n, v, h => by
    rw [goDecode] at h
    obtain ⟨d, hd, rfl⟩ := Option.map_eq_some_iff.mp h
    exact oneText_number hd
  | .string s, v, h => by
    rw [goDecode] at h
    obtain rfl := Option.some.inj h
    exact oneText_string s
  | .array xs, v, h => by
    rw [goDecode] at h
    obtain ⟨vs, hvs, rfl⟩ := Option.map_eq_some_iff.mp h
    exact oneText_array (oneText_all xs hvs)
  | .object es, v, h => by
    rw [goDecode] at h
    obtain ⟨fs, -, rfl⟩ := Option.map_eq_some_iff.mp h
    exact oneText_object es fs

theorem oneText_all : ∀ (xs : List Spelled) {vs : List Variant}, goDecodeArray xs = some vs →
    List.Forall₂ OneText xs vs
  | [], vs, h => by
    rw [goDecodeArray] at h
    obtain rfl := Option.some.inj h
    exact .nil
  | x :: xs, vs, h => by
    rw [goDecodeArray] at h
    obtain ⟨v, hv, h⟩ := Option.bind_eq_some_iff.mp h
    obtain ⟨vs', hvs, h⟩ := Option.bind_eq_some_iff.mp h
    obtain rfl := Option.some.inj h
    exact .cons (oneText x hv) (oneText_all xs hvs)
end

end Pineapple.GoFormat
