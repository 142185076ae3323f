import Pineapple.Coerce
import Pineapple.Numerals
import Pineapple.Lib.ShortestDecimal

/-! # Numbers of common fields as templated parameters (`go_format_g`, `stringify_common`, `ResolveTemplatedParams`)

A number is written as Go prints it before it is coerced to the type of the parameter. -/

namespace Pineapple

/-! ## Writing a number -/

def signOf (neg : Bool) : List Char := if neg then ['-'] else []

/-- An exponent, of at least two digits. -/
def exponentText (e : Int) : List Char :=
  'e' :: (if e < 0 then '-' else '+') :: (if e.natAbs < 10 then '0' :: decimal e.natAbs else decimal e.natAbs)

/-- Digits with the point after the first. -/
def pointed (digits : List Char) : List Char :=
  digits.take 1 ++ if 1 < digits.length then '.' :: digits.drop 1 else []

/-- `std::to_chars` in scientific format. -/
def toChars (f : FiniteBinary64) : List Char :=
  let digits := decimal f.shortest.1
  signOf f.neg ++ (pointed digits ++ exponentText (f.shortest.2 + digits.length - 1))

/-- The digits and the exponent as `%g` writes them. -/
def placed (mantissa : List Char) (expVal : Int) : List Char :=
  if expVal < -4 ∨ 6 ≤ expVal then pointed mantissa ++ exponentText expVal
  else
    let dpPos := expVal + 1
    if dpPos ≤ 0 then '0' :: '.' :: (List.replicate (-dpPos).toNat '0' ++ mantissa)
    else if (mantissa.length : Int) ≤ dpPos then mantissa ++ List.replicate (dpPos - mantissa.length).toNat '0'
    else mantissa.take dpPos.toNat ++ '.' :: mantissa.drop dpPos.toNat

def isExpMark (c : Char) : Bool := c = 'e' || c = 'E'

/-- The digits of the mantissa and the exponent of a text of `to_chars` after its sign. -/
def takeApart (s : List Char) : List Char × Int :=
  let mantissa := (s.takeWhile fun c => !isExpMark c).filter (· ≠ '.')
  let s := (s.dropWhile fun c => !isExpMark c).drop 1
  let expNeg := s.head? = some '-'
  let s := if s.head? = some '+' ∨ s.head? = some '-' then s.drop 1 else s
  (mantissa, if expNeg then -(digitsValue s : Int) else digitsValue s)

/-- `go_format_g`. -/
def goFormatG : Binary64 → String
  | .nan => "NaN"
  | .inf neg => if neg then "-Inf" else "+Inf"
  | .finite f =>
    if f.mant = 0 then if f.neg then "-0" else "0"
    else
      let s := toChars f
      let neg := s.head? = some '-'
      let (mantissa, expVal) := takeApart (if neg then s.drop 1 else s)
      String.ofList (signOf neg ++ placed mantissa expVal)

/-- `strconv.FormatFloat(v, 'g', -1, 64)`, which is how `fmt.Sprint` prints a `float64`. -/
def formatFloat : Binary64 → String
  | .nan => "NaN"
  | .inf neg => if neg then "-Inf" else "+Inf"
  | .finite f =>
    if f.mant = 0 then String.ofList (signOf f.neg ++ ['0'])
    else
      let digits := decimal f.shortest.1
      String.ofList (signOf f.neg ++ placed digits (f.shortest.2 + digits.length - 1))

/-! ## Go's resolver -/

/-- `fmt.Sprint` of what a frame holds; `other` prints what is neither text nor number nor truth value. -/
def goSprint (other : Variant → String) : Variant → String
  | .string s => s
  | .bool b => if b then "true" else "false"
  | .number d => formatFloat d
  | v => other v

/-- `ResolveTemplatedParams` of Go. -/
def goResolveTemplatedParams (quote : String → String) (other : Variant → String) :
    List TemplatedParam → (out : SortedMap String Scalar) → CommonReader (Except String (SortedMap String Scalar))
  | [], out => .ret (.ok out)
  | p :: rest, out => .read p.field fun v =>
    if (v.getD .null).isNull then
      .ret (.error ("templated param " ++ quote p.name ++ " references common field " ++ quote p.field ++
        " which is missing"))
    else match goCoerceScalar quote p.name p.scalarType (goSprint other (v.getD .null)) with
      | .error e => .ret (.error e)
      | .ok c => goResolveTemplatedParams quote other rest (out.insert p.name c)

/-! ## What `go_format_g` takes apart -/

theorem digit_ne {c d : Char} (h : c.isDigit = true) (hd : d.isDigit = false) : c ≠ d := by
  rintro rfl
  rw [h] at hd
  cases hd

theorem pointed_filter {digits : List Char} (h : digits.all Char.isDigit = true) :
    (pointed digits).filter (· ≠ '.') = digits := by
  have hplain : ∀ c ∈ digits, decide (c ≠ '.') = true := fun c hc =>
    decide_eq_true (digit_ne (List.all_eq_true.mp h c hc) (by decide))
  have htake : (digits.take 1).filter (· ≠ '.') = digits.take 1 :=
    List.filter_eq_self.mpr fun c hc => hplain c (List.mem_of_mem_take hc)
  unfold pointed
  rw [List.filter_append, htake]
  split
  · rw [List.filter_cons_of_neg (by decide),
      List.filter_eq_self.mpr fun c hc => hplain c (List.mem_of_mem_drop hc), List.take_append_drop]
  · next hlen =>
    rw [List.filter_nil, List.append_nil, List.take_of_length_le (by omega)]

theorem pointed_chars {digits : List Char} (h : digits.all Char.isDigit = true) :
    ∀ c ∈ pointed digits, c.isDigit = true ∨ c = '.' := by
  have hdigit := List.all_eq_true.mp h
  intro c hc
  rcases List.mem_append.mp hc with hc | hc
  · exact Or.inl (hdigit c (List.mem_of_mem_take hc))
  · split at hc
    · rcases List.mem_cons.mp hc with rfl | hc
      · exact Or.inr rfl
      · exact Or.inl (hdigit c (List.mem_of_mem_drop hc))
    · exact absurd hc List.not_mem_nil

theorem exponentText_value (e : Int) : ∃ sign digits, exponentText e = 'e' :: sign :: digits ∧
    digits ≠ [] ∧ digits.all Char.isDigit = true ∧
      (sign = '-' ∧ e = -(digitsValue digits : Int) ∨ sign = '+' ∧ e = digitsValue digits) := by
  have hdigits : ∃ digits, (if e.natAbs < 10 then '0' :: decimal e.natAbs else decimal e.natAbs) = digits ∧
      digits ≠ [] ∧ digits.all Char.isDigit = true ∧ digitsValue digits = e.natAbs := by
    have hvalue := digitsValue_decimal e.natAbs
    split
    · refine ⟨_, rfl, List.cons_ne_nil _ _, ?_, hvalue⟩
      rw [List.all_cons, decimal_digits]
      rfl
    · exact ⟨_, rfl, decimal_ne_nil _, decimal_digits _, hvalue⟩
  obtain ⟨digits, htext, hne, hall, hvalue⟩ := hdigits
  refine ⟨if e < 0 then '-' else '+', digits, ?_, hne, hall, ?_⟩
  · unfold exponentText
    rw [htext]
  · rw [hvalue]
    split
    · exact Or.inl ⟨rfl, by omega⟩
    · exact Or.inr ⟨rfl, by omega⟩

theorem takeWhile_before {p : Char → Bool} {s r : List Char} {c : Char} (hrun : ∀ d ∈ s, p d = true)
    (hc : p c = false) : (s ++ c :: r).takeWhile p = s ∧ (s ++ c :: r).dropWhile p = c :: r := by
  rw [List.takeWhile_append_of_pos hrun, List.dropWhile_append_of_pos hrun, List.takeWhile_cons_of_neg (by simp [hc]),
    List.dropWhile_cons_of_neg (by simp [hc]), List.append_nil]
  exact ⟨rfl, rfl⟩

theorem takeApart_text {digits : List Char} (h : digits.all Char.isDigit = true) (e : Int) :
    takeApart (pointed digits ++ exponentText e) = (digits, e) := by
  obtain ⟨sign, edigits, htext, -, -, hsign⟩ := exponentText_value e
  have hmantissa : ∀ c ∈ pointed digits, (!isExpMark c) = true := by
    intro c hc
    rcases pointed_chars h c hc with hc | rfl
    · have h1 : c ≠ 'e' := digit_ne hc (by decide)
      have h2 : c ≠ 'E' := digit_ne hc (by decide)
      simp [isExpMark, h1, h2]
    · rfl
  obtain ⟨htake, hdrop⟩ := takeWhile_before (r := sign :: edigits) hmantissa (c := 'e') (by decide)
  unfold takeApart
  rw [htext, htake, hdrop, pointed_filter h]
  rcases hsign with ⟨rfl, rfl⟩ | ⟨rfl, rfl⟩ <;> rfl

theorem pointed_head {digits : List Char} (hne : digits ≠ []) (h : digits.all Char.isDigit = true) (rest : List Char) :
    ∃ c t, pointed digits ++ rest = c :: t ∧ c.isDigit = true := by
  cases digits with
  | nil => exact absurd rfl hne
  | cons c digits => exact ⟨c, _, rfl, List.all_eq_true.mp h c List.mem_cons_self⟩

/-- The sign of a text is found, and what is behind it. -/
theorem takeApart_signed {digits : List Char} (hne : digits ≠ []) (h : digits.all Char.isDigit = true) (neg : Bool)
    (e : Int) {s : List Char} (hs : s = signOf neg ++ (pointed digits ++ exponentText e)) :
    (s.head? = some '-' ↔ neg = true) ∧ takeApart (if s.head? = some '-' then s.drop 1 else s) = (digits, e) := by
  subst hs
  cases neg with
  | true => exact ⟨⟨fun _ => rfl, fun _ => rfl⟩, takeApart_text h e⟩
  | false =>
    obtain ⟨c, t, htext, hc⟩ := pointed_head hne h (exponentText e)
    have hsign : (pointed digits ++ exponentText e).head? ≠ some '-' := by
      rw [htext]
      exact fun heq => digit_ne hc (by decide) (Option.some.inj heq)
    show ((pointed digits ++ exponentText e).head? = some '-' ↔ _) ∧
      takeApart (if (pointed digits ++ exponentText e).head? = some '-' then _ else _) = _
    rw [if_neg hsign]
    exact ⟨⟨fun heq => absurd heq hsign, nofun⟩, takeApart_text h e⟩

/-- The C++ engine writes a double as Go does. -/
theorem goFormatG_eq (d : Binary64) : goFormatG d = formatFloat d := by
  cases d with
  | nan => rfl
  | inf neg => rfl
  | finite f =>
    unfold goFormatG formatFloat
    dsimp only
    by_cases hm : f.mant = 0
    · rw [if_pos hm, if_pos hm]
      cases f.neg <;> rfl
    · rw [if_neg hm, if_neg hm]
      obtain ⟨hsign, hparts⟩ := takeApart_signed (s := toChars f) (decimal_ne_nil f.shortest.1) (decimal_digits _)
        f.neg _ rfl
      rw [hparts]
      simp only [hsign, Bool.decide_eq_true]

/-! ## Whole numbers -/

theorem decimal_mul_ten {m : Nat} (hm : m ≠ 0) : decimal (m * 10) = decimal m ++ ['0'] := by
  have hzero : digitChar (m * 10) = '0' := by
    unfold digitChar
    rw [Nat.mul_mod_left]
    rfl
  rw [decimal, if_neg (by omega), Nat.mul_div_cancel _ (by decide), hzero]

theorem decimal_mul_pow {m : Nat} (hm : m ≠ 0) (t : Nat) : decimal (m * 10 ^ t) = decimal m ++ List.replicate t '0' := by
  induction t with
  | zero => rw [Nat.pow_zero, Nat.mul_one, List.replicate_zero, List.append_nil]
  | succ t ih =>
    have hne : m * 10 ^ t ≠ 0 := Nat.mul_ne_zero hm (by positivity)
    rw [Nat.pow_succ, ← Nat.mul_assoc, decimal_mul_ten hne, ih, List.append_assoc, List.replicate_succ']

theorem decimal_length_le (n k : Nat) : (decimal n).length ≤ k + 1 ↔ n < 10 ^ (k + 1) := by
  induction k generalizing n with
  | zero =>
    rw [decimal]
    split
    · exact ⟨fun _ => by omega, fun _ => le_refl _⟩
    · have := List.length_pos_of_ne_nil (decimal_ne_nil (n / 10))
      rw [List.length_append, List.length_singleton]
      constructor <;> intro h <;> omega
  | succ k ih =>
    rw [decimal]
    split
    · next hn => exact ⟨fun _ => hn.trans_le (Nat.le_self_pow (by omega) 10), fun _ => Nat.le_add_left 1 (k + 1)⟩
    · rw [List.length_append, List.length_singleton, Nat.add_le_add_iff_right, ih,
        Nat.div_lt_iff_lt_mul (by decide), ← Nat.pow_succ]

section Whole
variable {f : FiniteBinary64} {a : Nat}

/-- The digits of a whole number, its zeros at the end apart, and its exponent. -/
theorem shortest_whole (hf : f.IsWhole a) (h0 : a ≠ 0) (ha : a < 2 ^ 53) :
    ∃ m t : Nat, f.shortest = (m, (t : Int)) ∧ m ≠ 0 ∧ m * 10 ^ t = a := by
  obtain ⟨t, ht, hm⟩ := hf.shortest_eq h0 ha
  refine ⟨f.shortest.1, t, ?_, ?_, hm⟩
  · rw [← ht]
  · intro hzero
    rw [hzero, Nat.zero_mul] at hm
    exact h0 hm.symm

theorem mant_ne_zero (hf : f.IsWhole a) (h0 : a ≠ 0) : f.mant ≠ 0 := by
  intro hmant
  have hunits : f.units = 0 := by
    unfold FiniteBinary64.units
    rw [hmant, Nat.zero_mul]
  rw [hf] at hunits
  exact h0 ((Nat.mul_eq_zero.mp hunits).resolve_right Binary64.unitsPerOne_pos.ne')

/-- A number of at most six digits is written in full. -/
theorem goFormatG_small (hf : f.IsWhole a) (hsmall : a < 10 ^ 6) :
    goFormatG (.finite f) = String.ofList (signOf f.neg ++ decimal a) := by
  rw [goFormatG_eq]
  unfold formatFloat
  dsimp only
  by_cases h0 : a = 0
  · have hmant : f.mant = 0 := by
      have hunits : f.mant * 2 ^ (f.exp + 1074).toNat = 0 := by
        have := hf
        unfold FiniteBinary64.IsWhole FiniteBinary64.units at this
        rw [this, h0, Nat.zero_mul]
      exact (Nat.mul_eq_zero.mp hunits).resolve_right (Nat.two_pow_pos _).ne'
    rw [if_pos hmant, h0, decimal]
    rfl
  · obtain ⟨m, t, hshort, hm, hval⟩ := shortest_whole hf h0 (by omega)
    have htext := decimal_mul_pow hm t
    have hlen : (decimal a).length ≤ 6 := (decimal_length_le a 5).mpr hsmall
    have hpos := List.length_pos_of_ne_nil (decimal_ne_nil m)
    rw [hval] at htext
    rw [htext, List.length_append, List.length_replicate] at hlen
    rw [if_neg (mant_ne_zero hf h0), hshort, htext]
    unfold placed
    dsimp only
    rw [if_neg (by omega), if_neg (by omega), if_pos (by omega)]
    rw [show ((t : Int) + (decimal m).length - 1 + 1 - (decimal m).length).toNat = t by omega]

/-- A longer one is written with an exponent. -/
theorem goFormatG_large (hf : f.IsWhole a) (ha : a < 2 ^ 53) (hlarge : 10 ^ 6 ≤ a) :
    ∃ m t : Nat, m ≠ 0 ∧ m * 10 ^ t = a ∧ goFormatG (.finite f) =
      String.ofList (signOf f.neg ++ (pointed (decimal m) ++ exponentText (t + (decimal m).length - 1))) := by
  have h0 : a ≠ 0 := by
    rintro rfl
    exact absurd hlarge (by decide)
  obtain ⟨m, t, hshort, hm, hval⟩ := shortest_whole hf h0 ha
  have htext := decimal_mul_pow hm t
  have hlen : ¬ (decimal a).length ≤ 6 := mt (decimal_length_le a 5).mp (Nat.not_lt.mpr hlarge)
  rw [hval] at htext
  rw [htext, List.length_append, List.length_replicate] at hlen
  refine ⟨m, t, hm, hval, ?_⟩
  rw [goFormatG_eq]
  unfold formatFloat
  dsimp only
  rw [if_neg (mant_ne_zero hf h0), hshort]
  unfold placed
  dsimp only
  rw [if_pos (by omega)]

end Whole

/-! ## Reading it back -/

section Reading
variable {neg : Bool} {c : Char} {t : List Char}

theorem signed_signOf (hc : c.isDigit = true) :
    NumberText.signed (signOf neg ++ c :: t) = (if neg then some true else none, c :: t) := by
  cases neg with
  | true => rfl
  | false =>
    refine NumberText.signed_plain ?_ ?_
    · exact fun u heq => digit_ne hc (by decide) (List.cons.inj heq).1
    · exact fun u heq => digit_ne hc (by decide) (List.cons.inj heq).1

theorem isNeg_ite : NumberText.isNeg (if neg then some true else none) = neg := by cases neg <;> rfl

/-- A decimal literal under a sign is read by C and by Go. -/
theorem read_decimal (neg : Bool) (hc : c.isDigit = true) (hx : 'x' ∉ c :: t ∧ 'X' ∉ c :: t) {lit : Nat × Int}
    (hlit : NumberText.decimalLiteral (c :: t) = some lit) (hfin : (NumberText.scaled neg 10 lit).isFinite = true) :
    NumberText.strtod (signOf neg ++ c :: t) = some (NumberText.scaled neg 10 lit) ∧
      NumberText.parseFloat (signOf neg ++ c :: t) = some (NumberText.scaled neg 10 lit) := by
  have hhex : NumberText.hexPart (c :: t) = none := by
    cases hh : NumberText.hexPart (c :: t) with
    | none => rfl
    | some hex =>
      obtain ⟨x, rfl | rfl, hs⟩ := NumberText.hexPart_text hh
      · exact absurd (hs ▸ List.mem_cons_of_mem _ List.mem_cons_self) hx.1
      · exact absurd (hs ▸ List.mem_cons_of_mem _ List.mem_cons_self) hx.2
  have hliteral : ∀ needed, NumberText.literal (NumberText.isNeg (NumberText.signed (signOf neg ++ c :: t)).1) needed
      (NumberText.signed (signOf neg ++ c :: t)).2 = some (NumberText.scaled neg 10 lit) := by
    intro needed
    rw [signed_signOf hc, isNeg_ite]
    unfold NumberText.literal
    rw [hhex, hlit]
    rfl
  have hc := NumberText.strtodBody_of_literal (hliteral false)
  constructor
  · rw [NumberText.strtod_eq (NumberText.strtodBody_unblanked hc), hc]
  · rw [NumberText.parseFloat_of_literal (hliteral true), Option.filter_some, hfin]
    rfl

theorem decimalLiteral_decimal (a : Nat) : NumberText.decimalLiteral (decimal a) = some (a, 0) := by
  have hdigits := List.all_eq_true.mp (decimal_digits a)
  have htake : (decimal a).takeWhile Char.isDigit = decimal a := by
    rw [List.takeWhile_eq_self_iff]
    exact hdigits
  have hdrop : (decimal a).dropWhile Char.isDigit = [] := by
    rw [List.dropWhile_eq_nil_iff]
    exact hdigits
  unfold NumberText.decimalLiteral NumberText.fraction
  dsimp only
  rw [htake, hdrop]
  dsimp only
  rw [List.append_nil, if_neg (decimal_ne_nil a)]
  have hvalue : NumberText.decimalValue (decimal a) = a := digitsValue_decimal a
  rw [hvalue]
  rfl

theorem exponentPart_text (e : Int) : NumberText.exponentPart 'e' false (exponentText e) = some e := by
  obtain ⟨sign, digits, htext, hne, hall, hsign⟩ := exponentText_value e
  rw [htext]
  unfold NumberText.exponentPart
  rcases hsign with ⟨rfl, he⟩ | ⟨rfl, he⟩
  · exact (if_pos ⟨rfl, hne, hall⟩).trans (congrArg some he.symm)
  · exact (if_pos ⟨rfl, hne, hall⟩).trans (congrArg some he.symm)

theorem decimalLiteral_scientific {digits : List Char} (hne : digits ≠ []) (hall : digits.all Char.isDigit = true)
    (e : Int) : NumberText.decimalLiteral (pointed digits ++ exponentText e) =
      some (digitsValue digits, e - ((digits.length - 1 : Nat) : Int)) := by
  have hmark : Char.isDigit 'e' = false := by decide
  obtain ⟨sign, edigits, htext, -⟩ := exponentText_value e
  have hexp := exponentPart_text e
  rw [htext] at hexp ⊢
  have hdigit := List.all_eq_true.mp hall
  match digits, hne with
  | [c], _ =>
    have hc := hdigit c List.mem_cons_self
    have htake : ([c] ++ 'e' :: sign :: edigits).takeWhile Char.isDigit = [c] :=
      (takeWhile_before (fun d hd => List.mem_singleton.mp hd ▸ hc) hmark).1
    have hdrop : ([c] ++ 'e' :: sign :: edigits).dropWhile Char.isDigit = 'e' :: sign :: edigits :=
      (takeWhile_before (fun d hd => List.mem_singleton.mp hd ▸ hc) hmark).2
    have hfrac : NumberText.fraction Char.isDigit ('e' :: sign :: edigits) = ([], 'e' :: sign :: edigits) := rfl
    unfold NumberText.decimalLiteral
    rw [show pointed [c] ++ 'e' :: sign :: edigits = [c] ++ 'e' :: sign :: edigits from rfl, htake, hdrop, hfrac]
    dsimp only
    rw [hexp, if_neg (List.append_ne_nil_of_left_ne_nil (List.cons_ne_nil c []) _)]
    rfl
  | c :: d :: rest, _ =>
    have hc := hdigit c List.mem_cons_self
    have hpoint : Char.isDigit '.' = false := by decide
    have hrest : ∀ x ∈ d :: rest, Char.isDigit x = true := fun x hx => hdigit x (List.mem_cons_of_mem _ hx)
    have htext : pointed (c :: d :: rest) ++ 'e' :: sign :: edigits =
        [c] ++ '.' :: (d :: rest ++ 'e' :: sign :: edigits) := by
      unfold pointed
      rw [if_pos (by rw [List.length_cons, List.length_cons]; omega)]
      rfl
    obtain ⟨htake, hdrop⟩ := takeWhile_before (p := Char.isDigit) (s := [c]) (c := '.')
      (r := d :: rest ++ 'e' :: sign :: edigits) (fun x hx => List.mem_singleton.mp hx ▸ hc) hpoint
    obtain ⟨htake', hdrop'⟩ := takeWhile_before (r := sign :: edigits) hrest hmark
    have hfrac : NumberText.fraction Char.isDigit ('.' :: (d :: rest ++ 'e' :: sign :: edigits)) =
        (d :: rest, 'e' :: sign :: edigits) := Prod.ext htake' hdrop'
    unfold NumberText.decimalLiteral
    rw [htext, htake, hdrop, hfrac]
    dsimp only
    rw [hexp, if_neg (List.append_ne_nil_of_left_ne_nil (List.cons_ne_nil c []) _)]
    rfl

theorem not_mem_letter {digits : List Char} (h : ∀ x ∈ digits, x.isDigit = true ∨ x = '.' ∨ x = 'e' ∨
    x = '+' ∨ x = '-') : 'x' ∉ digits ∧ 'X' ∉ digits := by
  constructor
  · intro hm
    exact absurd (h _ hm) (by decide)
  · intro hm
    exact absurd (h _ hm) (by decide)

theorem parseInt_decimal {a : Nat} {neg : Bool} (ha : a < 2 ^ 53) :
    NumberText.parseInt (signOf neg ++ decimal a) = some (if neg then -(a : Int) else a) := by
  have hne := decimal_ne_nil a
  have hall := decimal_digits a
  have hvalue : NumberText.decimalValue (decimal a) = a := digitsValue_decimal a
  cases htext : decimal a with
  | nil => exact absurd htext hne
  | cons c t =>
    rw [htext] at hall hvalue
    unfold NumberText.parseInt
    rw [signed_signOf (List.all_eq_true.mp hall c List.mem_cons_self)]
    dsimp only
    rw [if_pos ⟨List.cons_ne_nil c t, hall⟩, hvalue, isNeg_ite]
    unfold NumberText.int64Of
    refine if_pos ?_
    split <;> omega

theorem parseInt_scientific {neg : Bool} {digits : List Char} (hne : digits ≠ [])
    (hall : digits.all Char.isDigit = true) (e : Int) :
    NumberText.parseInt (signOf neg ++ (pointed digits ++ exponentText e)) = none ∧
      NumberText.strtoll (signOf neg ++ (pointed digits ++ exponentText e)) = none := by
  obtain ⟨sign, edigits, hexp, -⟩ := exponentText_value e
  have hmark : 'e' ∈ pointed digits ++ exponentText e := by
    rw [hexp]
    exact List.mem_append_right _ List.mem_cons_self
  obtain ⟨c, t, htext, hc⟩ := pointed_head hne hall (exponentText e)
  rw [htext] at hmark ⊢
  have hgo : NumberText.parseInt (signOf neg ++ c :: t) = none := by
    refine NumberText.parseInt_none ⟨'e', ?_, by decide⟩
    rw [signed_signOf hc]
    exact hmark
  refine ⟨hgo, ?_⟩
  rw [NumberText.strtoll_of_not_space, hgo]
  intro d r hd
  refine Bool.eq_false_of_not_eq_true fun hspace => ?_
  have hle := NumberText.isSpace_le hspace
  cases neg with
  | true =>
    rw [← (List.cons.inj hd).1] at hle
    exact absurd hle (by decide)
  | false =>
    rw [← (List.cons.inj hd).1] at hle
    have := (isDigit_iff.mp hc).1
    omega

end Reading

/-! ## Resolving an integer -/

/-- What Go puts under the name of a parameter for an integer. -/
def Scalar.ofInt (scalarType : String) (n : Int) : Scalar :=
  if scalarType = "int64" then .int64 n else .float64 (.ofInt n)

/-- Where the common field holds `v`, both engines resolve the parameter to the integer. -/
structure ResolvesTo (p : TemplatedParam) (n : Int) (v : Variant) : Prop where
  cpp : ∀ (dumpJson : Variant → String) (env : String → Option Variant), env p.field = some v →
    ((cText goFormatG dumpJson).resolveTemplatedParams [p] ∅).run env =
      .ok (SortedMap.insert ∅ p.name (.number (.ofInt n)))
  go : ∀ (quote : String → String) (other : Variant → String) (env : String → Option Variant), env p.field = some v →
    (goResolveTemplatedParams quote other [p] ∅).run env =
      .ok (SortedMap.insert ∅ p.name (.ofInt p.scalarType n))

/-- Both engines write the value as the text. -/
structure WrittenAs (v : Variant) (s : List Char) : Prop where
  some : v.isNull = false
  cpp : ∀ dumpJson, (cText goFormatG dumpJson).stringifyCommon v = String.ofList s
  go : ∀ other, goSprint other v = String.ofList s

theorem writtenAs_string (s : List Char) : WrittenAs (.string (String.ofList s)) s := ⟨rfl, fun _ => rfl, fun _ => rfl⟩

theorem writtenAs_number {d : Binary64} {s : List Char} (h : goFormatG d = String.ofList s) :
    WrittenAs (.number d) s :=
  ⟨rfl, fun _ => h, fun _ => (goFormatG_eq d).symm.trans h⟩

section Resolving
variable {p : TemplatedParam} {v : Variant} {s : List Char} {n : Int}

theorem run_cpp (h : WrittenAs v s) {env : String → Option Variant} (henv : env p.field = some v)
    (dumpJson : Variant → String) : ((cText goFormatG dumpJson).resolveTemplatedParams [p] ∅).run env =
      ((cText goFormatG dumpJson).coerceScalar p.name p.scalarType (String.ofList s)).map (SortedMap.insert ∅ p.name ·) := by
  unfold ScalarText.resolveTemplatedParams
  rw [ReadProgram.run_read, henv, Option.getD_some, h.some, h.cpp, if_neg Bool.false_ne_true]
  cases (cText goFormatG dumpJson).coerceScalar p.name p.scalarType (String.ofList s) <;> rfl

theorem run_go (h : WrittenAs v s) {env : String → Option Variant} (henv : env p.field = some v)
    (quote : String → String) (other : Variant → String) : (goResolveTemplatedParams quote other [p] ∅).run env =
      (goCoerceScalar quote p.name p.scalarType (String.ofList s)).map (SortedMap.insert ∅ p.name ·) := by
  unfold goResolveTemplatedParams
  rw [ReadProgram.run_read, henv, Option.getD_some, h.some, h.go, if_neg Bool.false_ne_true]
  cases goCoerceScalar quote p.name p.scalarType (String.ofList s) <;> rfl

theorem resolvesTo_float64 (ht : p.scalarType = "float64") (h : WrittenAs v s)
    (hread : NumberText.strtod s = some (.ofInt n) ∧ NumberText.parseFloat s = some (.ofInt n)) : ResolvesTo p n v := by
  constructor
  · intro dumpJson env henv
    rw [run_cpp h henv, ht]
    unfold ScalarText.coerceScalar cText
    simp only [String.reduceEq, if_false, if_true, String.toList_ofList, hread.1]
    rfl
  · intro quote other env henv
    rw [run_go h henv, ht]
    unfold goCoerceScalar
    simp only [String.reduceEq, if_false, if_true, String.toList_ofList, hread.2]
    rfl

theorem resolvesTo_int64 (ht : p.scalarType = "int64") (h : WrittenAs v s)
    (hread : NumberText.parseInt s = some n) : ResolvesTo p n v := by
  have hcpp : NumberText.strtoll s = some n := by
    have := strtoll_of_parseInt (s := String.ofList s) (n := n)
    rw [String.toList_ofList] at this
    exact this hread
  constructor
  · intro dumpJson env henv
    rw [run_cpp h henv, ht]
    unfold ScalarText.coerceScalar
    simp only [String.reduceEq, if_false, if_true, parseInt64Strict_eq, String.toList_ofList, hcpp]
    rfl
  · intro quote other env henv
    rw [run_go h henv, ht]
    unfold goCoerceScalar
    simp only [String.reduceEq, if_false, if_true, String.toList_ofList, hread]
    rfl

/-- A text that is no integer is refused, by the C++ engine too. -/
theorem not_resolvesTo_int64 (ht : p.scalarType = "int64") (h : WrittenAs v s) (hread : NumberText.strtoll s = none) :
    ¬ ResolvesTo p n v := by
  intro hres
  have hcpp := hres.cpp (fun _ => "") (fun _ => some v) rfl
  rw [run_cpp h rfl, ht] at hcpp
  unfold ScalarText.coerceScalar at hcpp
  simp only [String.reduceEq, if_false, if_true, parseInt64Strict_eq, String.toList_ofList, hread] at hcpp
  cases hcpp

end Resolving

/-- The double of an integer below `2 ^ 53`. -/
theorem exists_ofInt {n : Int} (hn : n.natAbs < 2 ^ 53) :
    ∃ f : FiniteBinary64, Binary64.ofInt n = .finite f ∧ f.neg = decide (n < 0) ∧ f.IsWhole n.natAbs :=
  FiniteBinary64.exists_isWhole (decide (n < 0)) hn

theorem decimalInt_eq (n : Int) : decimalInt n = signOf (decide (n < 0)) ++ decimal n.natAbs := by
  unfold decimalInt signOf
  by_cases hn : n < 0
  · rw [if_pos hn, if_pos (decide_eq_true hn)]
    rfl
  · rw [if_neg hn, if_neg (by simpa using hn)]
    rfl

theorem decimal_head (a : Nat) : ∃ c t, decimal a = c :: t ∧ c.isDigit = true := by
  obtain ⟨c, t, htext⟩ := List.exists_cons_of_ne_nil (decimal_ne_nil a)
  refine ⟨c, t, htext, List.all_eq_true.mp (decimal_digits a) c ?_⟩
  rw [htext]
  exact List.mem_cons_self

/-- The decimal text of an integer is read as the integer. -/
theorem read_decimalInt {n : Int} (hn : n.natAbs < 2 ^ 53) :
    (NumberText.strtod (decimalInt n) = some (.ofInt n) ∧ NumberText.parseFloat (decimalInt n) = some (.ofInt n)) ∧
      NumberText.parseInt (decimalInt n) = some n := by
  obtain ⟨f, hf, hneg, hwhole⟩ := exists_ofInt hn
  rw [decimalInt_eq]
  constructor
  · obtain ⟨c, t, htext, hc⟩ := decimal_head n.natAbs
    have hlit := decimalLiteral_decimal n.natAbs
    have hletter := not_mem_letter fun x hx => Or.inl (List.all_eq_true.mp (decimal_digits n.natAbs) x hx)
    have hvalue : NumberText.scaled (decide (n < 0)) 10 (n.natAbs, 0) = .finite f := by
      unfold NumberText.scaled
      rw [if_pos (le_refl _), ← hneg]
      show Binary64.ofRatio f.neg (n.natAbs * 1) 1 = _
      rw [Nat.mul_one, hwhole.ofRatio_eq]
    rw [htext] at hlit hletter ⊢
    have hread := read_decimal (decide (n < 0)) hc hletter hlit (by rw [hvalue]; rfl)
    rw [hvalue] at hread
    rw [hf]
    exact hread
  · rw [parseInt_decimal hn]
    congr 1
    split
    · next h =>
      have := of_decide_eq_true h
      omega
    · next h =>
      have : ¬ n < 0 := fun hlt => h (decide_eq_true hlt)
      omega

/-- A number that is written with an exponent is read as a double only. -/
theorem read_scientific {n : Int} (hn : n.natAbs < 2 ^ 53) (hlarge : 10 ^ 6 ≤ n.natAbs) :
    ∃ s, goFormatG (.ofInt n) = String.ofList s ∧
      (NumberText.strtod s = some (.ofInt n) ∧ NumberText.parseFloat s = some (.ofInt n)) ∧
        NumberText.strtoll s = none := by
  obtain ⟨f, hf, hneg, hwhole⟩ := exists_ofInt hn
  obtain ⟨m, t, hm, hval, htext⟩ := goFormatG_large hwhole hn hlarge
  have hne := decimal_ne_nil m
  have hall := decimal_digits m
  refine ⟨_, hf ▸ htext, ?_, (parseInt_scientific hne hall _).2⟩
  have hlit := decimalLiteral_scientific hne hall (t + (decimal m).length - 1)
  have hpos := List.length_pos_of_ne_nil hne
  rw [digitsValue_decimal, show (t : Int) + (decimal m).length - 1 - (((decimal m).length - 1 : Nat) : Int) = t by omega]
    at hlit
  have hletter : 'x' ∉ pointed (decimal m) ++ exponentText (t + (decimal m).length - 1) ∧
      'X' ∉ pointed (decimal m) ++ exponentText (t + (decimal m).length - 1) := by
    obtain ⟨sign, edigits, hexp, -, hedigits, hsign⟩ := exponentText_value (t + (decimal m).length - 1)
    refine not_mem_letter fun x hx => ?_
    rcases List.mem_append.mp hx with hx | hx
    · rcases pointed_chars hall x hx with h | h
      · exact Or.inl h
      · exact Or.inr (Or.inl h)
    · rw [hexp] at hx
      rcases List.mem_cons.mp hx with h | hx
      · exact Or.inr (Or.inr (Or.inl h))
      · rcases List.mem_cons.mp hx with rfl | hx
        · rcases hsign with ⟨h, -⟩ | ⟨h, -⟩
          · exact Or.inr (Or.inr (Or.inr (Or.inr h)))
          · exact Or.inr (Or.inr (Or.inr (Or.inl h)))
        · exact Or.inl (List.all_eq_true.mp hedigits x hx)
  have hvalue : NumberText.scaled f.neg 10 (m, (t : Int)) = .finite f := by
    unfold NumberText.scaled
    rw [if_pos (by omega), Int.toNat_natCast]
    show Binary64.ofRatio f.neg (m * 10 ^ t) 1 = _
    rw [hval, hwhole.ofRatio_eq]
  obtain ⟨c, u, hhead, hc⟩ := pointed_head hne hall (exponentText (t + (decimal m).length - 1))
  rw [hhead] at hlit hletter ⊢
  have hread := read_decimal f.neg hc hletter hlit (by rw [hvalue]; rfl)
  rw [hvalue] at hread
  rw [hf]
  exact hread

theorem written_small {n : Int} (hn : n.natAbs < 2 ^ 53) (hsmall : n.natAbs < 10 ^ 6) :
    WrittenAs (.number (.ofInt n)) (decimalInt n) := by
  obtain ⟨f, hf, hneg, hwhole⟩ := exists_ofInt hn
  refine writtenAs_number ?_
  rw [hf, goFormatG_small hwhole hsmall, decimalInt_eq, hneg]

/-- A parameter bound to a field that holds an integer as text always gets the integer, and one bound to a field that
holds it as a number does unless the parameter is an integer and the number is written with an exponent. -/
theorem integer_resolves_iff {p : TemplatedParam} (ht : p.scalarType = "int64" ∨ p.scalarType = "float64") {n : Int}
    (hn : n.natAbs < 2 ^ 53) :
    ResolvesTo p n (.number (.ofInt n)) ∧ ResolvesTo p n (.string (String.ofList (decimalInt n))) ↔
      p.scalarType = "float64" ∨ n.natAbs < 10 ^ 6 := by
  obtain ⟨hdouble, hint⟩ := read_decimalInt hn
  have hstring := writtenAs_string (decimalInt n)
  rcases ht with ht | ht
  · constructor
    · rintro ⟨hnumber, -⟩
      right
      by_contra hlarge
      obtain ⟨s, hs, -, hnone⟩ := read_scientific hn (Nat.not_lt.mp hlarge)
      exact not_resolvesTo_int64 ht (writtenAs_number hs) hnone hnumber
    · rintro (hfloat | hsmall)
      · rw [ht] at hfloat
        exact absurd hfloat (by decide)
      · exact ⟨resolvesTo_int64 ht (written_small hn hsmall) hint, resolvesTo_int64 ht hstring hint⟩
  · refine ⟨fun _ => Or.inl ht, fun _ => ⟨?_, resolvesTo_float64 ht hstring hdouble⟩⟩
    by_cases hsmall : n.natAbs < 10 ^ 6
    · exact resolvesTo_float64 ht (written_small hn hsmall) hdouble
    · obtain ⟨s, hs, hread, -⟩ := read_scientific hn (Nat.not_lt.mp hsmall)
      exact resolvesTo_float64 ht (writtenAs_number hs) hread

theorem integer_resolves_iff_hundred :
    let p : TemplatedParam := ⟨"top_n", "int64", "limit"⟩
    (p.scalarType = "int64" ∨ p.scalarType = "float64") ∧ (-100 : Int).natAbs < 2 ^ 53 ∧
      ResolvesTo p (-100) (.number (.ofInt (-100))) ∧
      ResolvesTo p (-100) (.string (String.ofList (decimalInt (-100)))) := by
  intro p
  have ht : p.scalarType = "int64" ∨ p.scalarType = "float64" := Or.inl rfl
  have hn : (-100 : Int).natAbs < 2 ^ 53 := by decide
  have h := (integer_resolves_iff ht hn).mpr (Or.inr (by decide))
  exact ⟨ht, hn, h.1, h.2⟩

/-- The number 1000000 is written `1e+06`, which is no integer. -/
theorem not_integer_resolves : ¬ ∀ (p : TemplatedParam) (n : Int),
    (p.scalarType = "int64" ∨ p.scalarType = "float64") → n.natAbs < 2 ^ 53 →
      ResolvesTo p n (.number (.ofInt n)) ∧ ResolvesTo p n (.string (String.ofList (decimalInt n))) := by
  intro h
  have hn : (1000000 : Int).natAbs < 2 ^ 53 := by decide
  obtain ⟨hnumber, -⟩ := h ⟨"top_n", "int64", "limit"⟩ 1000000 (Or.inl rfl) hn
  obtain ⟨s, hs, -, hnone⟩ := read_scientific hn (by decide)
  exact not_resolvesTo_int64 rfl (writtenAs_number hs) hnone hnumber

end Pineapple
