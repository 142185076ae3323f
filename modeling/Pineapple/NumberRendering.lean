import Mathlib.Data.List.GetD
import Pineapple.JsonFormat
import Pineapple.JsonGrammar
import Pineapple.Lib.ShortestReads
import Pineapple.TemplateNumber

/-! # Numbers as Go writes them (`go_format_json_number`, `go_format_g`)

Go's `strconv` puts the shortest digits of a number in plain or in exponent form; `encoding/json` and `fmt` choose
between the two forms. The C++ engine takes the digits from `std::to_chars` and moves the point itself. -/

namespace Pineapple.Json

/-! ## Go's `strconv` -/

/-- Digits, and how many of them stand before the point. -/
structure DecimalSlice where
  d : List Char
  dp : Int

def shortestDigits (f : FiniteBinary64) : DecimalSlice :=
  if f.mant = 0 then ⟨[], 0⟩
  else
    let d := decimal f.shortest.1
    ⟨d, f.shortest.2 + d.length⟩

/-- `fmtE`: an exponent has two digits or more. -/
def fmtE (neg : Bool) (digs : DecimalSlice) (prec : Nat) : List Char :=
  let more := (digs.d.drop 1).take prec
  let exp := if digs.d = [] then 0 else digs.dp - 1
  signOf neg ++ (digs.d.headD '0' ::
    ((if 0 < prec then '.' :: (more ++ List.replicate (prec - more.length) '0') else []) ++
      ('e' :: (if exp < 0 then '-' else '+') ::
        (if exp.natAbs < 10 then '0' :: decimal exp.natAbs else decimal exp.natAbs))))

/-- `fmtF`. -/
def fmtF (neg : Bool) (digs : DecimalSlice) (prec : Nat) : List Char :=
  let whole := if 0 < digs.dp then
    let m := min digs.d.length digs.dp.toNat
    digs.d.take m ++ List.replicate (digs.dp.toNat - m) '0'
  else ['0']
  let fraction := (List.range prec).map fun i : Nat =>
    let j := digs.dp + i
    if 0 ≤ j then digs.d.getD j.toNat '0' else '0'
  signOf neg ++ (whole ++ if 0 < prec then '.' :: fraction else [])

inductive Verb
  | e
  | f
  | g
deriving DecidableEq

/-- `strconv.FormatFloat` with precision -1. -/
def strconvFormat (fmt : Verb) (f : FiniteBinary64) : List Char :=
  let digs := shortestDigits f
  let nd := digs.d.length
  match fmt with
  | .e => fmtE f.neg digs (nd - 1)
  | .f => fmtF f.neg digs (nd - digs.dp).toNat
  | .g =>
    let exp := digs.dp - 1
    if exp < -4 ∨ 6 ≤ exp then fmtE f.neg digs (nd - 1) else fmtF f.neg digs (nd - digs.dp).toNat

/-- What `encoding/json` does to `e-09`. -/
def cleanExponent (b : List Char) : List Char :=
  match b.reverse with
  | d :: '0' :: '-' :: 'e' :: rest => (d :: '-' :: 'e' :: rest).reverse
  | _ => b

/-- `encoding/json` on a `float64`. -/
def goEncodeFloat (f : FiniteBinary64) : List Char :=
  if f.units ≠ 0 ∧ (f.units < magnitude 1 (-6) ∨ magnitude 1 21 ≤ f.units) then cleanExponent (strconvFormat .e f)
  else strconvFormat .f f

/-- `fmt.Sprint` of a `float64`. -/
def goSprintFloat (f : FiniteBinary64) : List Char := strconvFormat .g f

/-- `std::to_chars` as bytes. -/
def toCharsBytes (f : FiniteBinary64) : Bytes := (toChars f).map ascii

/-! ## What `std::to_chars` writes -/

theorem decimal_pos {m : Nat} (hm : m ≠ 0) : (decimal m).head? ≠ some '0' := by
  induction m using Nat.strongRecOn with
  | _ m ih =>
    rw [decimal]
    split
    · next hlt =>
      rintro hzero
      have hchar : (digitChar m).toNat = '0'.toNat := congrArg Char.toNat (Option.some.inj hzero)
      rw [toNat_digitChar] at hchar
      have : m % 10 + 48 = 48 := hchar
      omega
    · next hge =>
      have hne := decimal_ne_nil (m / 10)
      rw [List.head?_append_of_ne_nil _ hne]
      exact ih (m / 10) (by omega) (by omega)

theorem decimal_last {m : Nat} (hm : m % 10 ≠ 0) : (decimal m).getLast? ≠ some '0' := by
  have hlast : (decimal m).getLast? = some (digitChar m) := by
    rw [decimal]
    split
    · rfl
    · exact List.getLast?_concat
  rw [hlast]
  rintro hzero
  have hchar : (digitChar m).toNat = '0'.toNat := congrArg Char.toNat (Option.some.inj hzero)
  rw [toNat_digitChar] at hchar
  have : m % 10 + 48 = 48 := hchar
  omega

theorem ascii_inj {c d : Char} (hc : c.isDigit = true) (hd : d.isDigit = true) (h : ascii c = ascii d) : c = d := by
  have htoNat := congrArg UInt8.toNat h
  rw [(isDigit_ascii hc).2, (isDigit_ascii hd).2] at htoNat
  exact Char.ext (UInt32.toNat_inj.mp htoNat)

/-- The rendering in scientific format of digits and an exponent. -/
structure Rendering (f : FiniteBinary64) where
  r : Scientific
  first : Char
  rest : List Char
  digits : decimal f.shortest.1 = first :: rest
  neg : r.neg = f.neg
  firstByte : r.first = ascii first
  restBytes : r.rest = rest.map ascii
  exponent : r.exponent = f.shortest.2 + (first :: rest).length - 1
  text : toCharsBytes f = r.numeral.text

theorem signOf_map (neg : Bool) : (signOf neg).map ascii = signText neg := by cases neg <;> rfl

theorem exists_rendering {f : FiniteBinary64} (hf : f.mant ≠ 0) : Nonempty (Rendering f) := by
  obtain ⟨-, hlast⟩ := FiniteBinary64.shortest_spec hf
  have hne : f.shortest.1 ≠ 0 := by
    rintro h
    rw [h] at hlast
    exact hlast rfl
  obtain ⟨first, rest, hdigits, -⟩ := decimal_head f.shortest.1
  have hall := decimal_digits f.shortest.1
  have hhead := decimal_pos hne
  have hend := decimal_last hlast
  rw [hdigits] at hall hhead hend
  obtain ⟨sign, edigits, hexp, -, hedigits, hsign⟩ := exponentText_value (f.shortest.2 + (first :: rest).length - 1)
  have hdigit : ∀ c ∈ first :: rest, c.isDigit = true := List.all_eq_true.mp hall
  have hbytes : (ascii first :: rest.map ascii).all isDigit = true := (digitsValue_map hall).2
  have hfirst : ascii first ≠ ascii '0' := fun h =>
    hhead (List.head?_cons.trans (congrArg some (ascii_inj (hdigit first List.mem_cons_self) rfl h)))
  have hbytesEnd : (ascii first :: rest.map ascii).getLast? ≠ some (ascii '0') := by
    rintro h
    rw [← List.map_cons, List.getLast?_map] at h
    obtain ⟨c, hc, hzero⟩ := Option.map_eq_some_iff.mp h
    have hmem := List.mem_of_getLast? hc
    exact hend (hc.trans (congrArg some (ascii_inj (hdigit c hmem) rfl hzero)))
  have hsignByte : isSign (ascii sign) = true := by
    rcases hsign with ⟨rfl, -⟩ | ⟨rfl, -⟩ <;> rfl
  obtain ⟨hvalue, hexpDigits⟩ := digitsValue_map hedigits
  refine ⟨{
    r := ⟨f.neg, ascii first, rest.map ascii, ascii sign, edigits.map ascii, hbytes, hfirst, hbytesEnd, hsignByte, hexpDigits⟩
    first, rest, digits := hdigits, neg := rfl, firstByte := rfl, restBytes := rfl, exponent := ?_, text := ?_ }⟩
  · unfold Scientific.exponent Exponent.value
    dsimp only
    rw [hvalue]
    rcases hsign with ⟨rfl, he⟩ | ⟨rfl, he⟩
    · rw [if_pos rfl, he]
    · rw [if_neg (by decide), he]
  · unfold toCharsBytes toChars
    dsimp only
    rw [hdigits, hexp, List.map_append, signOf_map]
    show _ = signText f.neg ++ (ascii first :: (fracText (fracDigits (rest.map ascii)) ++ _))
    rw [fracText_fracDigits]
    unfold pointed
    rcases rest with _ | ⟨c, rest⟩
    · rfl
    · rw [List.map_append, List.map_append]
      rfl

section
variable {f : FiniteBinary64}

theorem Rendering.value (w : Rendering f) (hf : f.mant ≠ 0) : w.r.value = some (.finite f) := by
  obtain ⟨hback, -⟩ := FiniteBinary64.shortest_spec hf
  have hall := decimal_digits f.shortest.1
  rw [w.digits] at hall
  have hdigits : digitsValue (w.r.first :: w.r.rest) = f.shortest.1 := by
    rw [w.firstByte, w.restBytes, ← List.map_cons, (digitsValue_map hall).1, ← w.digits, digitsValue_decimal]
  have hexp : w.r.exponent - w.r.rest.length = f.shortest.2 := by
    rw [w.exponent, w.restBytes, List.length_map, List.length_cons]
    omega
  unfold Scientific.value
  rw [hdigits, hexp, w.neg]
  show inRange _ (NumberText.scaled f.neg 10 f.shortest) = _
  rw [hback]
  exact if_neg fun h => hf h.1

theorem Rendering.roundTrips (w : Rendering f) (hf : f.mant ≠ 0) : RoundTrips toCharsBytes f where
  scientific := ⟨w.r, w.neg, w.text⟩
  value := by
    unfold fromChars
    rw [w.text, scan_numeral w.r.numeral_scanned, w.r.numeral_value, w.value hf]

/-! ## They are JSON numbers -/

theorem Scientific.scientificNumeral_rfc (r : Scientific) : r.scientificNumeral.Rfc where
  scanned := r.scientific_scanned
  int := Or.inr ⟨r.first, [], rfl, r.first_ne⟩
  frac := by
    show fracDigits r.rest ≠ some []
    unfold fracDigits
    split
    · exact nofun
    · next h => exact fun heq => h (Option.some.inj heq)
  exp e he := by
    obtain rfl := Option.mem_some.mp he
    exact fun h => decimal_ne_nil _ (List.map_eq_nil_iff.mp h)

theorem Scientific.fixedNumeral_rfc (r : Scientific) : r.fixedNumeral.Rfc where
  scanned := r.fixed_scanned
  int := by
    unfold fixedNumeral
    dsimp only
    split
    · exact Or.inl rfl
    · split
      · exact Or.inr ⟨r.first, _, rfl, r.first_ne⟩
      · next hpos _ =>
        obtain ⟨n, hn⟩ : ∃ n, (r.exponent + 1).toNat = n + 1 := ⟨(r.exponent + 1).toNat - 1, by omega⟩
        rw [hn]
        exact Or.inr ⟨r.first, _, rfl, r.first_ne⟩
  frac := by
    unfold fixedNumeral
    dsimp only
    split
    · exact fun h => absurd (List.append_eq_nil_iff.mp (Option.some.inj h)).2 (List.cons_ne_nil _ _)
    · split
      · exact nofun
      · next hpos hlen =>
        rw [List.length_cons] at hlen
        intro h
        have hdrop := List.drop_eq_nil_iff.mp (Option.some.inj h)
        rw [List.length_cons] at hdrop
        omega
  exp := by
    unfold fixedNumeral
    dsimp only
    split
    · exact nofun
    · split <;> exact nofun

/-! ## Plain form -/

/-- Digits with `dp` of them before the point. -/
def plain (digits : List Char) (dp : Int) : List Char :=
  if dp ≤ 0 then '0' :: '.' :: (List.replicate (-dp).toNat '0' ++ digits)
  else if (digits.length : Int) ≤ dp then digits ++ List.replicate (dp - digits.length).toNat '0'
  else digits.take dp.toNat ++ '.' :: digits.drop dp.toNat

theorem fmtF_eq (neg : Bool) {digits : List Char} (hne : digits ≠ []) (dp : Int) :
    fmtF neg ⟨digits, dp⟩ (digits.length - dp).toNat = signOf neg ++ plain digits dp := by
  have hlen := List.length_pos_iff.mpr hne
  unfold fmtF plain
  dsimp only
  by_cases hzero : dp ≤ 0
  · rw [if_neg (by omega), if_pos hzero, if_pos (by omega)]
    have hfraction : ((List.range (digits.length - dp).toNat).map fun i : Nat =>
        if 0 ≤ dp + i then digits.getD (dp + i).toNat '0' else '0') = List.replicate (-dp).toNat '0' ++ digits := by
      refine List.ext_getElem ?_ fun i h₁ h₂ => ?_
      · rw [List.length_map, List.length_range, List.length_append, List.length_replicate]
        omega
      · rw [List.getElem_map, List.getElem_range]
        split
        · next hi =>
          rw [List.getElem_append_right (by rw [List.length_replicate]; omega)]
          rw [List.length_map, List.length_range] at h₁
          rw [List.getD_eq_getElem _ _ (by omega)]
          simp only [List.length_replicate]
          congr 1
          omega
        · next hi =>
          rw [List.getElem_append_left (by rw [List.length_replicate]; omega), List.getElem_replicate]
    rw [hfraction]
    rfl
  · rw [if_pos (by omega), if_neg hzero]
    by_cases hle : (digits.length : Int) ≤ dp
    · rw [if_pos hle, if_neg (by omega), Nat.min_eq_left (by omega), List.take_length, List.append_nil,
        show dp.toNat - digits.length = (dp - digits.length).toNat by omega]
    · rw [if_neg hle, if_pos (by omega), Nat.min_eq_right (by omega), Nat.sub_self, List.replicate_zero, List.append_nil]
      have hfraction : ((List.range (digits.length - dp).toNat).map fun i : Nat =>
          if 0 ≤ dp + i then digits.getD (dp + i).toNat '0' else '0') = digits.drop dp.toNat := by
        refine List.ext_getElem ?_ fun i h₁ h₂ => ?_
        · rw [List.length_map, List.length_range, List.length_drop]
          omega
        · rw [List.length_map, List.length_range] at h₁
          rw [List.getElem_map, List.getElem_range, if_pos (by omega), List.getD_eq_getElem _ _ (by omega),
            List.getElem_drop]
          congr 1
          omega
      rw [hfraction]

theorem placed_eq (digits : List Char) (exp : Int) : placed digits exp =
    if exp < -4 ∨ 6 ≤ exp then pointed digits ++ exponentText exp else plain digits (exp + 1) := rfl

theorem fixedNumeral_text (w : Rendering f) : w.r.fixedNumeral.text =
    (signOf f.neg ++ plain (decimal f.shortest.1) (f.shortest.2 + (decimal f.shortest.1).length)).map ascii := by
  have hdigits : w.r.first :: w.r.rest = (decimal f.shortest.1).map ascii := by
    rw [w.digits, List.map_cons, w.firstByte, w.restBytes]
  have hpoint : w.r.exponent + 1 = f.shortest.2 + (decimal f.shortest.1).length := by
    rw [w.exponent, w.digits]
    omega
  unfold Scientific.fixedNumeral plain
  dsimp only
  rw [hdigits, hpoint, List.length_map, w.neg, List.map_append, signOf_map]
  split
  · simp only [Numeral.text, fracText, expText, List.append_nil, List.map_cons, List.map_append, List.map_replicate]
    rfl
  · split
    · simp only [Numeral.text, fracText, expText, List.append_nil, List.map_append, List.map_replicate]
    · simp only [Numeral.text, fracText, expText, List.append_nil, List.map_append, List.map_cons, List.map_take,
        List.map_drop]

/-! ## Exponent form -/

theorem fmtE_eq (neg : Bool) {digits : List Char} (hne : digits ≠ []) (dp : Int) :
    fmtE neg ⟨digits, dp⟩ (digits.length - 1) = signOf neg ++ (pointed digits ++ exponentText (dp - 1)) := by
  obtain ⟨first, rest, rfl⟩ := List.exists_cons_of_ne_nil hne
  have htake : rest.take (rest.length + 1 - 1) = rest := List.take_length
  unfold fmtE pointed exponentText
  dsimp only
  rw [if_neg hne, List.length_cons, List.drop_one, List.tail_cons, htake, Nat.add_sub_cancel, Nat.sub_self,
    List.replicate_zero, List.append_nil]
  simp only [Nat.lt_add_left_iff_pos]
  rfl

theorem cleanExponent_padded (s : List Char) (d : Char) :
    cleanExponent (s ++ ['e', '-', '0', d]) = s ++ ['e', '-', d] := by
  unfold cleanExponent
  rw [List.reverse_append]
  show (d :: '-' :: 'e' :: s.reverse).reverse = _
  simp

/-- An exponent of two digits or more stays as it is. -/
theorem cleanExponent_long {n : Nat} (hn : 10 ≤ n) (s : List Char) (sign : Char) :
    cleanExponent (s ++ 'e' :: sign :: decimal n) = s ++ 'e' :: sign :: decimal n := by
  have hhead := decimal_pos (m := n) (by omega)
  have hdigits := List.all_eq_true.mp (decimal_digits n)
  have hlen : 1 < (decimal n).length := by
    have := mt (decimal_length_le n 0).mp (by omega)
    omega
  have hrev : (s ++ 'e' :: sign :: decimal n).reverse = (decimal n).reverse ++ (sign :: 'e' :: s.reverse) := by simp
  unfold cleanExponent
  rw [hrev]
  rcases hdecimal : (decimal n).reverse with _ | ⟨d₀, _ | ⟨d₁, more⟩⟩
  · rw [← List.length_reverse, hdecimal] at hlen
    exact absurd hlen (Nat.not_lt_zero _)
  · rw [← List.length_reverse, hdecimal] at hlen
    exact absurd hlen (Nat.lt_irrefl _)
  · have hreversed : decimal n = more.reverse ++ [d₁, d₀] := by
      rw [← List.reverse_reverse (decimal n), hdecimal]
      simp
    rw [List.cons_append, List.cons_append]
    split
    · next heq =>
      obtain ⟨-, heq⟩ := List.cons.inj heq
      obtain ⟨hzero, heq⟩ := List.cons.inj heq
      rcases more with _ | ⟨m, more⟩
      · rw [hreversed, hzero] at hhead
        exact absurd rfl hhead
      · have hm : m.isDigit = true := hdigits m (by rw [hreversed]; simp)
        exact absurd (List.cons.inj heq).1 (digit_ne hm rfl)
    · rfl

theorem cleanExponent_text {e : Int} (he : e < 0 ∨ 10 ≤ e) (s : List Char) : cleanExponent (s ++ exponentText e) =
    s ++ 'e' :: (if e < 0 then '-' else '+') :: decimal e.natAbs := by
  unfold exponentText
  by_cases hsmall : e.natAbs < 10
  · have hneg : e < 0 := by omega
    rw [if_pos hsmall, if_pos hneg, decimal, if_pos hsmall]
    exact cleanExponent_padded s _
  · rw [if_neg hsmall]
    exact cleanExponent_long (by omega) s _

/-- The exponent of the first digit. -/
theorem exponent_eq (hf : f.mant ≠ 0) :
    f.shortest.2 + (decimal f.shortest.1).length - 1 =
        FiniteBinary64.decimalExponent f.units Binary64.unitsPerOne ∨
      f.shortest.2 + (decimal f.shortest.1).length - 1 =
        FiniteBinary64.decimalExponent f.units Binary64.unitsPerOne + 1 := by
  obtain ⟨k, hlo, hhi, hexp⟩ := FiniteBinary64.shortest_exponent hf
  have hlen : (decimal f.shortest.1).length = k + 1 := by
    refine Nat.le_antisymm ((decimal_length_le _ k).mpr hhi) ?_
    rcases k with _ | k
    · exact List.length_pos_iff.mpr (decimal_ne_nil _)
    · have := mt (decimal_length_le f.shortest.1 k).mp (by omega)
      omega
  rw [hlen]
  push_cast
  omega

/-- The exponent where the exponent form is used. -/
theorem exponent_outside (hf : f.mant ≠ 0) (hout : f.units < magnitude 1 (-6) ∨ magnitude 1 21 ≤ f.units) :
    f.shortest.2 + (decimal f.shortest.1).length - 1 < 0 ∨ 10 ≤ f.shortest.2 + (decimal f.shortest.1).length - 1 := by
  have hexp := exponent_eq hf
  rcases hout with hsmall | hlarge
  · have hlt : f.units * 10 ^ 2 < Binary64.unitsPerOne := by
      have : magnitude 1 (-6) * 10 ^ 2 < Binary64.unitsPerOne := by decide +kernel
      omega
    have := FiniteBinary64.decimalExponent_lt (FiniteBinary64.units_pos hf) hlt
    omega
  · have hge : 10 ^ 21 * Binary64.unitsPerOne ≤ f.units := by
      have : 10 ^ 21 * Binary64.unitsPerOne ≤ magnitude 1 21 := by decide +kernel
      omega
    have := FiniteBinary64.le_decimalExponent Binary64.unitsPerOne_pos hge
    omega

theorem scientificNumeral_text (w : Rendering f) : w.r.scientificNumeral.text =
    (signOf f.neg ++ (pointed (decimal f.shortest.1) ++
      'e' :: (if w.r.exponent < 0 then '-' else '+') :: decimal w.r.exponent.natAbs)).map ascii := by
  have hpoint : (pointed (decimal f.shortest.1)).map ascii = w.r.first :: fracText (fracDigits w.r.rest) := by
    rw [w.digits, fracText_fracDigits, w.firstByte, w.restBytes]
    unfold pointed
    rcases w.rest with _ | ⟨c, rest⟩ <;> rfl
  rw [List.map_append, signOf_map, List.map_append, hpoint, ← w.neg]
  unfold Scientific.scientificNumeral Numeral.text
  simp only [expText, Option.toList_some, List.map_cons, apply_ite ascii]
  rfl

/-! ## Both formats -/

theorem strconvFormat_e (hf : f.mant ≠ 0) : strconvFormat .e f = toChars f := by
  have hne := decimal_ne_nil f.shortest.1
  unfold strconvFormat shortestDigits
  rw [if_neg hf]
  exact fmtE_eq f.neg hne _

theorem strconvFormat_f (hf : f.mant ≠ 0) : strconvFormat .f f =
    signOf f.neg ++ plain (decimal f.shortest.1) (f.shortest.2 + (decimal f.shortest.1).length) := by
  unfold strconvFormat shortestDigits
  rw [if_neg hf]
  exact fmtF_eq f.neg (decimal_ne_nil _) _

theorem strconvFormat_zero (hf : f.mant = 0) (fmt : Verb) (hfmt : fmt ≠ .e) : strconvFormat fmt f = signOf f.neg ++ ['0'] := by
  unfold strconvFormat shortestDigits
  rw [if_pos hf]
  cases fmt with
  | e => exact absurd rfl hfmt
  | f => rfl
  | g => rfl

/-- `encoding/json` writes the same number. -/
theorem formatNumber_eq (f : FiniteBinary64) : formatNumber toCharsBytes (.finite f) = (goEncodeFloat f).map ascii := by
  unfold formatNumber goEncodeFloat
  dsimp only
  by_cases hf : f.mant = 0
  · have hunits : f.units = 0 := by
      unfold FiniteBinary64.units
      rw [hf, Nat.zero_mul]
    rw [if_pos hf, if_neg fun h => h.1 hunits, strconvFormat_zero hf .f nofun, List.map_append, signOf_map]
    rfl
  · obtain ⟨w⟩ := exists_rendering hf
    have hunits : f.units ≠ 0 := (FiniteBinary64.units_pos hf).ne'
    rw [if_neg hf, w.text]
    by_cases hout : f.units < magnitude 1 (-6) ∨ magnitude 1 21 ≤ f.units
    · have hexp : w.r.exponent = f.shortest.2 + (decimal f.shortest.1).length - 1 := by rw [w.exponent, w.digits]
      rw [if_pos hout, if_pos ⟨hunits, hout⟩, w.r.scientific_text, scientificNumeral_text, strconvFormat_e hf, hexp]
      unfold toChars
      dsimp only
      rw [← List.append_assoc, ← List.append_assoc, cleanExponent_text (exponent_outside hf hout)]
    · rw [if_neg hout, if_neg fun h => hout h.2, w.r.fixed_text, fixedNumeral_text, strconvFormat_f hf]

theorem goFormatG_sprint (f : FiniteBinary64) : goFormatG (.finite f) = String.ofList (goSprintFloat f) := by
  rw [goFormatG_eq]
  unfold formatFloat goSprintFloat
  dsimp only
  by_cases hf : f.mant = 0
  · rw [if_pos hf, strconvFormat_zero hf .g nofun]
  · have hne := decimal_ne_nil f.shortest.1
    rw [if_neg hf, placed_eq]
    unfold strconvFormat shortestDigits
    rw [if_neg hf]
    dsimp only
    split
    · rw [fmtE_eq f.neg hne]
    · rw [fmtF_eq f.neg hne, Int.sub_add_cancel]

/-- A finite double is written as a JSON number that is read back as the double, byte for byte as Go's
`encoding/json` writes it, and `go_format_g` writes it as `fmt.Sprint` does. -/
theorem finite_rendered (f : FiniteBinary64) :
    (∃ n : Numeral, n.Rfc ∧ formatNumber toCharsBytes (.finite f) = n.text) ∧
      fromChars (formatNumber toCharsBytes (.finite f)) = some (.finite f) ∧
      formatNumber toCharsBytes (.finite f) = (goEncodeFloat f).map ascii ∧
      goFormatG (.finite f) = String.ofList (goSprintFloat f) := by
  have hread : fromChars (formatNumber toCharsBytes (.finite f)) = some (.finite f) := by
    obtain ⟨n, hn, htext, hvalue⟩ := @formatNumber_reads toCharsBytes f fun hf => by
      obtain ⟨w⟩ := exists_rendering hf
      exact w.roundTrips hf
    unfold fromChars
    rw [htext, scan_numeral hn, hvalue]
  refine ⟨?_, hread, formatNumber_eq f, goFormatG_sprint f⟩
  unfold formatNumber
  dsimp only
  by_cases hf : f.mant = 0
  · rw [if_pos hf]
    refine ⟨⟨f.neg, [ascii '0'], none, none⟩, ⟨Scientific.scanned_of_digits rfl nofun, Or.inl rfl, nofun, nofun⟩, ?_⟩
    exact congrArg (signText f.neg ++ ·) (List.append_nil _).symm
  · obtain ⟨w⟩ := exists_rendering hf
    rw [if_neg hf, w.text]
    split
    · exact ⟨_, w.r.scientificNumeral_rfc, w.r.scientific_text⟩
    · exact ⟨_, w.r.fixedNumeral_rfc, w.r.fixed_text⟩

end

end Pineapple.Json
