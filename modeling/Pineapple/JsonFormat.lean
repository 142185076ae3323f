import Mathlib.Tactic.Ring
import Pineapple.Numerals
import Pineapple.JsonNumber

/-! # How JSON numbers are written (`go_format_json_number`)

`std::to_chars` gives the shortest digits in scientific format, and the writer moves the decimal point. -/

namespace Pineapple.Json

structure DecimalParts where
  negative : Bool
  digits : Bytes
  exp10 : Int

/-- The exponent of a rendering. -/
def renderedExponent : Bytes → Int
  | [] => 0
  | b :: s =>
    if b = ascii '-' then -(digitsValue s : Int)
    else if b = ascii '+' then digitsValue s
    else digitsValue (b :: s)

/-- The loop of `go_json_decompose`: the mantissa's digits, where the point is among them, and the exponent. -/
def decomposeLoop : Bytes → Bytes → Option Nat → Bytes × Option Nat × Int
  | [], mantissa, point => (mantissa, point, 0)
  | b :: s, mantissa, point =>
    if b = ascii '.' then decomposeLoop s mantissa (some mantissa.length)
    else if isMarker b then (mantissa, point, renderedExponent s)
    else decomposeLoop s (mantissa ++ [b]) point

def isZero (b : UInt8) : Bool := b = ascii '0'

def splitSign : Bytes → Bool × Bytes
  | [] => (false, [])
  | b :: s => if b = ascii '-' then (true, s) else if b = ascii '+' then (false, s) else (false, b :: s)

/-- `go_json_decompose`. -/
def decompose (s : Bytes) : DecimalParts :=
  let (negative, s) := splitSign s
  let (mantissa, point, e) := decomposeLoop s [] none
  { negative
    digits := ((mantissa.dropWhile isZero).reverse.dropWhile isZero).reverse
    exp10 := e + (point.getD mantissa.length : Int) - (mantissa.takeWhile isZero).length }

/-- `go_json_to_fixed`. -/
def toFixed (shortest : Bytes) : Bytes :=
  let p := decompose shortest
  let nd := p.digits.length
  if p.digits = [] then signText p.negative ++ [ascii '0']
  else if p.exp10 ≤ 0 then
    signText p.negative ++ (ascii '0' :: ascii '.' :: (List.replicate (-p.exp10).toNat (ascii '0') ++ p.digits))
  else if (nd : Int) ≤ p.exp10 then
    signText p.negative ++ (p.digits ++ List.replicate (p.exp10 - nd).toNat (ascii '0'))
  else
    signText p.negative ++ (p.digits.take p.exp10.toNat ++ ascii '.' :: p.digits.drop p.exp10.toNat)

/-- `std::to_string`. -/
def toBytes (n : Nat) : Bytes := (decimal n).map ascii

/-- `go_json_to_scientific`. -/
def toScientific (shortest : Bytes) : Bytes :=
  let p := decompose shortest
  match p.digits with
  | [] => signText p.negative ++ [ascii '0']
  | d :: rest =>
    let e := p.exp10 - 1
    signText p.negative ++ (d :: ((if rest = [] then [] else ascii '.' :: rest) ++
      (ascii 'e' :: (if e < 0 then ascii '-' else ascii '+') :: toBytes e.natAbs)))

/-- The magnitude of a decimal constant of the source. -/
def magnitude (m : Nat) (e : Int) : Nat :=
  match ofDecimal false m e with
  | some (.finite f) => f.units
  | _ => 0

/-- `go_format_json_number`. -/
def formatNumber (toChars : FiniteBinary64 → Bytes) : Binary64 → Bytes
  | .nan => token "nan"
  | .inf neg => if neg then token "-inf" else token "inf"
  | .finite f =>
    if f.mant = 0 then signText f.neg ++ [ascii '0']
    else if f.units < magnitude 1 (-6) ∨ magnitude 1 21 ≤ f.units then toScientific (toChars f)
    else toFixed (toChars f)

/-! ## Renderings -/

def fracDigits (rest : Bytes) : Option Bytes := if rest = [] then none else some rest

/-- What `to_chars` gives in scientific format. -/
structure Scientific where
  neg : Bool
  first : UInt8
  rest : Bytes
  expSign : UInt8
  expDigits : Bytes
  digits : (first :: rest).all isDigit = true
  /-- neither end of the digits is a zero -/
  first_ne : first ≠ ascii '0'
  last_ne : (first :: rest).getLast? ≠ some (ascii '0')
  sign : isSign expSign = true
  exp_digits : expDigits.all isDigit = true

namespace Scientific
variable (r : Scientific)

def numeral : Numeral := ⟨r.neg, [r.first], fracDigits r.rest, some ⟨ascii 'e', some r.expSign, r.expDigits⟩⟩

def exponent : Int := Exponent.value ⟨ascii 'e', some r.expSign, r.expDigits⟩

end Scientific

/-- `to_chars` writes this value in scientific format, and `from_chars` reads it back. -/
structure RoundTrips (toChars : FiniteBinary64 → Bytes) (f : FiniteBinary64) : Prop where
  scientific : ∃ r : Scientific, r.neg = f.neg ∧ toChars f = r.numeral.text
  value : fromChars (toChars f) = some (.finite f)

/-! ## What `go_json_decompose` finds -/

theorem decomposeLoop_digits {run : Bytes} (hrun : run.all isDigit = true) (s mantissa : Bytes) (point : Option Nat) :
    decomposeLoop (run ++ s) mantissa point = decomposeLoop s (mantissa ++ run) point := by
  induction run generalizing mantissa with
  | nil => rw [List.nil_append, List.append_nil]
  | cons b run ih =>
    rw [List.all_cons, Bool.and_eq_true] at hrun
    have hdot : b ≠ ascii '.' := by
      rintro rfl
      exact absurd hrun.1 (by decide)
    have hmarker : ¬ isMarker b = true := fun hm => by
      rcases isMarker_cases hm with rfl | rfl <;> exact absurd hrun.1 (by decide)
    rw [List.cons_append, decomposeLoop, if_neg hdot, if_neg hmarker, ih hrun.2, List.append_assoc]
    rfl

theorem takeWhile_isZero {b : UInt8} (hb : b ≠ ascii '0') (s : Bytes) : (b :: s).takeWhile isZero = [] :=
  List.takeWhile_cons_of_neg (by simpa [isZero] using hb)

theorem dropWhile_isZero {b : UInt8} (hb : b ≠ ascii '0') (s : Bytes) : (b :: s).dropWhile isZero = b :: s :=
  List.dropWhile_cons_of_neg (by simpa [isZero] using hb)

namespace Scientific
variable (r : Scientific)

theorem digits_first : isDigit r.first = true := List.all_eq_true.mp r.digits r.first List.mem_cons_self

theorem digits_rest : r.rest.all isDigit = true :=
  List.all_eq_true.mpr fun b hb => List.all_eq_true.mp r.digits b (List.mem_cons_of_mem _ hb)

theorem renderedExponent_eq : renderedExponent (r.expSign :: r.expDigits) = r.exponent := by
  rcases isSign_cases r.sign with h | h
  · have hne : r.expSign ≠ ascii '-' := by
      rw [h]
      decide
    rw [renderedExponent, if_neg hne, if_pos h]
    exact (if_neg fun heq => hne (Option.some.inj heq)).symm
  · rw [renderedExponent, if_pos h]
    exact (if_pos (congrArg some h)).symm

theorem decomposeLoop_eq : ∃ point, point.getD (r.first :: r.rest).length = 1 ∧
    decomposeLoop (r.first :: (fracText (fracDigits r.rest) ++ (ascii 'e' :: r.expSign :: r.expDigits))) [] none =
      (r.first :: r.rest, point, r.exponent) := by
  have hexp : ∀ mantissa point, decomposeLoop (ascii 'e' :: r.expSign :: r.expDigits) mantissa point =
      (mantissa, point, r.exponent) := fun mantissa point => by
    rw [decomposeLoop, if_neg (by decide), if_pos (by decide), renderedExponent_eq]
  have hfirst : ([r.first] : Bytes).all isDigit = true := by
    rw [List.all_cons, r.digits_first]
    rfl
  have hrun := decomposeLoop_digits hfirst (fracText (fracDigits r.rest) ++ (ascii 'e' :: r.expSign :: r.expDigits)) [] none
  by_cases hrest : r.rest = []
  · refine ⟨none, by rw [hrest]; rfl, hrun.trans ?_⟩
    rw [hrest]
    exact hexp [r.first] none
  · refine ⟨some 1, rfl, hrun.trans ?_⟩
    unfold fracDigits
    rw [if_neg hrest]
    show decomposeLoop (ascii '.' :: (r.rest ++ _)) [r.first] none = _
    rw [decomposeLoop, if_pos rfl, decomposeLoop_digits r.digits_rest, hexp]
    rfl

theorem stripped : ((r.first :: r.rest).reverse.dropWhile isZero).reverse = r.first :: r.rest := by
  have hlast := r.last_ne
  rw [← List.head?_reverse] at hlast
  cases hrev : (r.first :: r.rest).reverse with
  | nil => exact absurd (List.reverse_eq_nil_iff.mp hrev) (List.cons_ne_nil _ _)
  | cons b s =>
    rw [hrev] at hlast
    rw [dropWhile_isZero fun hb => hlast (congrArg some hb), ← hrev, List.reverse_reverse]

theorem decompose_eq : decompose r.numeral.text = ⟨r.neg, r.first :: r.rest, r.exponent + 1⟩ := by
  obtain ⟨point, hpoint, hloop⟩ := r.decomposeLoop_eq
  have hsign : splitSign r.numeral.text = (r.neg,
      r.first :: (fracText (fracDigits r.rest) ++ (ascii 'e' :: r.expSign :: r.expDigits))) := by
    show splitSign (signText r.neg ++ (r.first :: (fracText (fracDigits r.rest) ++ _))) = _
    cases r.neg with
    | true => rfl
    | false =>
      have hminus : r.first ≠ ascii '-' := fun h => absurd r.digits_first (by rw [h]; decide)
      have hplus : r.first ≠ ascii '+' := fun h => absurd r.digits_first (by rw [h]; decide)
      exact (if_neg hminus).trans (if_neg hplus)
  unfold decompose
  rw [hsign]
  dsimp only
  rw [hloop]
  dsimp only
  rw [takeWhile_isZero r.first_ne, dropWhile_isZero r.first_ne, stripped, hpoint, List.length_nil]
  congr 1
  omega

end Scientific

/-! ## Digits -/

theorem digitsValue_foldl (digits : Bytes) (n : Nat) : digits.foldl (fun n b => 10 * n + (b.toNat - 48)) n =
    n * 10 ^ digits.length + digitsValue digits := by
  induction digits generalizing n with
  | nil => rw [List.foldl_nil, List.length_nil, pow_zero, Nat.mul_one]; rfl
  | cons b digits ih =>
    have hvalue : digitsValue (b :: digits) = (10 * 0 + (b.toNat - 48)) * 10 ^ digits.length + digitsValue digits :=
      ih _
    rw [List.foldl_cons, ih, hvalue, List.length_cons, pow_succ]
    ring

theorem digitsValue_append (a b : Bytes) : digitsValue (a ++ b) = digitsValue a * 10 ^ b.length + digitsValue b := by
  show (a ++ b).foldl _ 0 = _
  rw [List.foldl_append, digitsValue_foldl]
  rfl

theorem digitsValue_zeros (k : Nat) : digitsValue (List.replicate k (ascii '0')) = 0 := by
  induction k with
  | zero => rfl
  | succ k ih =>
    rw [List.replicate_succ']
    exact (digitsValue_append _ _).trans (by rw [ih]; rfl)

theorem zeros_digits (k : Nat) : (List.replicate k (ascii '0')).all isDigit = true :=
  List.all_eq_true.mpr fun _ hb => List.eq_of_mem_replicate hb ▸ rfl

theorem all_append_digits {a b : Bytes} (ha : a.all isDigit = true) (hb : b.all isDigit = true) :
    (a ++ b).all isDigit = true := by
  rw [List.all_append, ha, hb]
  rfl

theorem inRange_congr {m m' : Nat} (h : m ≠ 0 ↔ m' ≠ 0) (d : Binary64) : inRange m d = inRange m' d := by
  cases d with
  | finite f => exact if_congr (and_congr_right fun _ => h) rfl rfl
  | nan => rfl
  | inf neg => rfl

theorem ofDecimal_nonneg (neg : Bool) (m k : Nat) :
    ofDecimal neg m k = inRange m (Binary64.ofRatio neg (m * 10 ^ k) 1) :=
  congrArg (inRange m) (if_pos (Int.natCast_nonneg k))

/-- Trailing zeros move the exponent. -/
theorem ofDecimal_shift (neg : Bool) (m k : Nat) : ofDecimal neg (m * 10 ^ k) 0 = ofDecimal neg m k := by
  have hpow : 0 < 10 ^ k := Nat.pow_pos (by decide)
  have hne : m * 10 ^ k ≠ 0 ↔ m ≠ 0 := by
    rw [Nat.mul_ne_zero_iff]
    exact and_iff_left hpow.ne'
  rw [ofDecimal_nonneg, inRange_congr hne.symm]
  exact (ofDecimal_nonneg neg (m * 10 ^ k) 0).trans (by rw [pow_zero, Nat.mul_one])

theorem isDigit_ascii {c : Char} (hc : c.isDigit = true) : isDigit (ascii c) = true ∧ (ascii c).toNat = c.toNat := by
  have hrange := Pineapple.isDigit_iff.mp hc
  have htoNat : (ascii c).toNat = c.toNat := Nat.mod_eq_of_lt (by omega)
  refine ⟨?_, htoNat⟩
  unfold isDigit
  rw [htoNat]
  simp only [Bool.and_eq_true, decide_eq_true_iff]
  exact hrange

theorem digitsValue_map {digits : List Char} (h : digits.all Char.isDigit = true) :
    digitsValue (digits.map ascii) = Pineapple.digitsValue digits ∧ (digits.map ascii).all isDigit = true := by
  have hfold : ∀ n, (digits.map ascii).foldl (fun n b => 10 * n + (b.toNat - 48)) n =
      digits.foldl (fun n c => 10 * n + (c.toNat - '0'.toNat)) n := by
    induction digits with
    | nil => exact fun _ => rfl
    | cons c digits ih =>
      rw [List.all_cons, Bool.and_eq_true] at h
      intro n
      rw [List.map_cons, List.foldl_cons, List.foldl_cons, (isDigit_ascii h.1).2]
      exact ih h.2 _
  refine ⟨hfold 0, List.all_eq_true.mpr fun b hb => ?_⟩
  obtain ⟨c, hc, rfl⟩ := List.mem_map.mp hb
  exact (isDigit_ascii (List.all_eq_true.mp h c hc)).1

theorem digitsValue_toBytes (n : Nat) : digitsValue (toBytes n) = n ∧ (toBytes n).all isDigit = true := by
  obtain ⟨hvalue, hdigits⟩ := digitsValue_map (decimal_digits n)
  exact ⟨hvalue.trans (digitsValue_decimal n), hdigits⟩

/-! ## What is written is read back -/

theorem fracDigits_getD (rest : Bytes) : (fracDigits rest).getD [] = rest := by
  unfold fracDigits
  split
  · next h => rw [h]; rfl
  · rfl

theorem fracText_fracDigits (rest : Bytes) :
    fracText (fracDigits rest) = if rest = [] then [] else ascii '.' :: rest := by
  unfold fracDigits
  split <;> rfl

/-- The value of a numeral with digits before the point. -/
theorem value_eq {n : Numeral} {frac : Bytes} {e : Int} (hint : n.int ≠ []) (hfrac : n.frac.getD [] = frac)
    (he : (n.exp.map Exponent.value).getD 0 = e) :
    n.value = ofDecimal n.minus (digitsValue (n.int ++ frac)) (e - frac.length) := by
  unfold Numeral.value
  rw [hfrac, he]
  exact if_neg fun h => hint h.1

namespace Scientific
variable (r : Scientific)

theorem numeral_scanned : r.numeral.Scanned where
  int := by
    show ([r.first] : Bytes).all isDigit = true
    rw [List.all_cons, r.digits_first]
    rfl
  frac digits h := by
    have heq : (fracDigits r.rest).getD [] = digits := by
      rw [show fracDigits r.rest = some digits from h]
      rfl
    rw [← heq, fracDigits_getD]
    exact r.digits_rest
  marker e he := Option.mem_some.mp he ▸ rfl
  sign e he b hb := by
    obtain rfl := Option.mem_some.mp he
    obtain rfl := Option.mem_some.mp hb
    exact r.sign
  exp e he := Option.mem_some.mp he ▸ r.exp_digits

/-- The digits as a number, and the power of ten it is multiplied with. -/
def value : Option Binary64 := ofDecimal r.neg (digitsValue (r.first :: r.rest)) (r.exponent - r.rest.length)

theorem numeral_value : r.numeral.value = r.value :=
  value_eq (List.cons_ne_nil _ _) (fracDigits_getD r.rest) rfl

/-- A numeral as the source writes it. -/
def Writes (s : Bytes) : Prop := ∃ n : Numeral, n.Scanned ∧ s = n.text ∧ n.value = r.value

/-- The numeral that `go_json_to_scientific` writes. -/
def scientificNumeral : Numeral :=
  ⟨r.neg, [r.first], fracDigits r.rest,
    some ⟨ascii 'e', some (if r.exponent < 0 then ascii '-' else ascii '+'), toBytes r.exponent.natAbs⟩⟩

theorem scientific_text : toScientific r.numeral.text = r.scientificNumeral.text := by
  unfold toScientific
  rw [r.decompose_eq]
  dsimp only
  rw [Int.add_sub_cancel]
  show _ = signText r.neg ++ (r.first :: (fracText (fracDigits r.rest) ++ _))
  rw [fracText_fracDigits]
  rfl

theorem scientific_scanned : r.scientificNumeral.Scanned := by
  have hscanned := r.numeral_scanned
  refine ⟨hscanned.int, hscanned.frac, fun e he => Option.mem_some.mp he ▸ rfl, fun e he b hb => ?_, fun e he => ?_⟩
  · obtain rfl := Option.mem_some.mp he
    obtain rfl := Option.mem_some.mp hb
    split <;> rfl
  · obtain rfl := Option.mem_some.mp he
    exact (digitsValue_toBytes _).2

theorem scientific_value : r.scientificNumeral.value = r.value := by
  refine value_eq (List.cons_ne_nil _ _) (fracDigits_getD r.rest) ?_
  show Exponent.value ⟨ascii 'e', some _, toBytes r.exponent.natAbs⟩ = r.exponent
  unfold Exponent.value
  dsimp only
  rw [(digitsValue_toBytes _).1]
  by_cases hneg : r.exponent < 0
  · rw [if_pos (congrArg some (if_pos hneg))]
    omega
  · rw [if_neg fun h => absurd ((if_neg hneg).symm.trans (Option.some.inj h)) (by decide)]
    omega

theorem scientific_writes : r.Writes (toScientific r.numeral.text) :=
  ⟨r.scientificNumeral, r.scientific_scanned, r.scientific_text, r.scientific_value⟩

/-- The numeral that `go_json_to_fixed` writes. -/
def fixedNumeral : Numeral :=
  let digits := r.first :: r.rest
  let point := r.exponent + 1
  if point ≤ 0 then ⟨r.neg, [ascii '0'], some (List.replicate (-point).toNat (ascii '0') ++ digits), none⟩
  else if (digits.length : Int) ≤ point then
    ⟨r.neg, digits ++ List.replicate (point - digits.length).toNat (ascii '0'), none, none⟩
  else ⟨r.neg, digits.take point.toNat, some (digits.drop point.toNat), none⟩

theorem fixed_text : toFixed r.numeral.text = r.fixedNumeral.text := by
  unfold toFixed fixedNumeral
  rw [r.decompose_eq]
  dsimp only
  rw [if_neg (List.cons_ne_nil _ _)]
  split
  · show signText r.neg ++ _ = signText r.neg ++ (_ ++ (_ ++ []))
    rw [List.append_nil]
    rfl
  · split
    · show signText r.neg ++ _ = signText r.neg ++ (_ ++ ([] ++ []))
      rw [List.append_nil, List.append_nil]
    · show signText r.neg ++ _ = signText r.neg ++ (_ ++ (_ ++ []))
      rw [List.append_nil]
      rfl

theorem scanned_of_digits {neg : Bool} {int : Bytes} {frac : Option Bytes} (hint : int.all isDigit = true)
    (hfrac : ∀ digits ∈ frac, digits.all isDigit = true) : (⟨neg, int, frac, none⟩ : Numeral).Scanned where
  int := hint
  frac := hfrac
  marker := nofun
  sign := nofun
  exp := nofun

theorem fixed_scanned : r.fixedNumeral.Scanned := by
  have hdigits := List.all_eq_true.mp r.digits
  unfold fixedNumeral
  dsimp only
  split
  · refine scanned_of_digits rfl fun digits h => ?_
    obtain rfl := Option.mem_some.mp h
    exact all_append_digits (zeros_digits _) r.digits
  · split
    · exact scanned_of_digits (all_append_digits r.digits (zeros_digits _)) nofun
    · refine scanned_of_digits (List.all_eq_true.mpr fun b hb => hdigits b (List.mem_of_mem_take hb)) fun digits h => ?_
      obtain rfl := Option.mem_some.mp h
      exact List.all_eq_true.mpr fun b hb => hdigits b (List.mem_of_mem_drop hb)

theorem plain_value {neg : Bool} {int frac : Bytes} (hint : int ≠ []) :
    (⟨neg, int, some frac, none⟩ : Numeral).value = ofDecimal neg (digitsValue (int ++ frac)) (0 - frac.length) :=
  value_eq hint rfl rfl

theorem integral_value {neg : Bool} {int : Bytes} (hint : int ≠ []) :
    (⟨neg, int, none, none⟩ : Numeral).value = ofDecimal neg (digitsValue int) 0 := by
  rw [value_eq hint rfl rfl]
  exact congrArg (ofDecimal neg · _) (congrArg digitsValue (List.append_nil int))

theorem leading_zeros (k : Nat) (digits : Bytes) :
    digitsValue (ascii '0' :: (List.replicate k (ascii '0') ++ digits)) = digitsValue digits := by
  have happend := digitsValue_append (List.replicate (k + 1) (ascii '0')) digits
  rw [digitsValue_zeros, Nat.zero_mul, Nat.zero_add] at happend
  exact happend

theorem fixed_value : r.fixedNumeral.value = r.value := by
  unfold fixedNumeral value
  dsimp only
  split
  · next hpoint =>
    rw [plain_value (List.cons_ne_nil _ _), List.cons_append, List.nil_append, leading_zeros]
    congr 1
    rw [List.length_append, List.length_replicate, List.length_cons]
    omega
  · split
    · next hpoint =>
      rw [List.length_cons] at hpoint
      rw [integral_value (List.append_ne_nil_of_left_ne_nil (List.cons_ne_nil _ _) _), digitsValue_append,
        digitsValue_zeros, Nat.add_zero, List.length_replicate, ofDecimal_shift]
      congr 1
      rw [List.length_cons]
      omega
    · next hpoint hlength =>
      rw [List.length_cons] at hlength
      have hint : (r.first :: r.rest).take (r.exponent + 1).toNat ≠ [] := fun h => by
        rcases List.take_eq_nil_iff.mp h with h | h
        · omega
        · exact List.cons_ne_nil _ _ h
      rw [plain_value hint, List.take_append_drop]
      congr 1
      rw [List.length_drop, List.length_cons]
      omega

theorem fixed_writes : r.Writes (toFixed r.numeral.text) :=
  ⟨r.fixedNumeral, r.fixed_scanned, r.fixed_text, r.fixed_value⟩

end Scientific

/-! ## What is formatted is read back -/

theorem scan_numeral {n : Numeral} (hn : n.Scanned) : scan n.text = (n, []) := by
  have h := scan_text hn (t := []) nofun
  rwa [List.append_nil] at h

theorem ofDecimal_zero (neg : Bool) : ofDecimal neg 0 0 = some (.finite (FiniteBinary64.zero neg)) := by
  have hratio : Binary64.ofRatio neg 0 1 = .finite (FiniteBinary64.zero neg) := by
    cases neg <;> decide +kernel
  refine (ofDecimal_nonneg neg 0 0).trans ?_
  rw [pow_zero, Nat.mul_one, hratio]
  rfl

/-- The value of a finite number as it is written. -/
theorem formatNumber_reads {toChars : FiniteBinary64 → Bytes} {f : FiniteBinary64}
    (h : f.mant ≠ 0 → RoundTrips toChars f) :
    ∃ n : Numeral, n.Scanned ∧ formatNumber toChars (.finite f) = n.text ∧ n.value = some (.finite f) := by
  by_cases hmant : f.mant = 0
  · refine ⟨⟨f.neg, [ascii '0'], none, none⟩, Scientific.scanned_of_digits rfl nofun, ?_, ?_⟩
    · exact (if_pos hmant).trans (congrArg (signText f.neg ++ ·) (List.append_nil _).symm)
    · rw [Scientific.integral_value (List.cons_ne_nil _ _), FiniteBinary64.eq_zero_of_mant hmant]
      exact ofDecimal_zero f.neg
  · obtain ⟨⟨r, -, hr⟩, hvalue⟩ := h hmant
    have hread : r.value = some (.finite f) := by
      rw [hr] at hvalue
      unfold fromChars at hvalue
      rwa [scan_numeral r.numeral_scanned, r.numeral_value] at hvalue
    have hwrites : r.Writes (formatNumber toChars (.finite f)) := by
      unfold formatNumber
      dsimp only
      rw [if_neg hmant, hr]
      split
      · exact r.scientific_writes
      · exact r.fixed_writes
    obtain ⟨n, hn, htext, hsame⟩ := hwrites
    exact ⟨n, hn, htext, hsame.trans hread⟩

end Pineapple.Json
