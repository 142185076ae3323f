import Pineapple.GoMarshal
import Pineapple.JavaText
import Pineapple.Lib.RoundingOrder

/-! # What `GoFormat.marshalJson` writes

Numbers get the shortest digits, which `Double.toString` does not always give; keys are sorted by their UTF-8 bytes, and
the escapes are those of `encoding/json`. -/

namespace Pineapple.GoFormat

open FiniteBinary64
open Binary64 (unitsPerOne)
open Json (Bytes Numeral ascii keyLess goEncodeFloat plain magnitude)

/-! ## Numbers -/

/-- `BigDecimal.round` to a precision, half up. -/
def roundTo (precision : Nat) (c : Nat × Int) : Nat × Int :=
  let len := (decimal c.1).length
  if len ≤ precision then c
  else
    let k := len - precision
    ((c.1 + 5 * 10 ^ (k - 1)) / 10 ^ k, c.2 + k)

/-- `Double.parseDouble(candidate) == d`. -/
def ParsesBack (f : FiniteBinary64) (precision : Nat) : Prop :=
  NumberText.scaled f.neg 10 (roundTo precision (javaDigits f)) = .finite f

instance (f : FiniteBinary64) : DecidablePred (ParsesBack f) := fun _ => inferInstanceAs (Decidable (_ = _))

/-- `shortestRoundTrip`. -/
def shortestRoundTrip (f : FiniteBinary64) : Nat × Int :=
  match (List.range' 1 16).find? fun precision => ParsesBack f precision with
  | some precision => roundTo precision (javaDigits f)
  | none => javaDigits f

/-- `formatDecimal` of a `BigDecimal` without zeros at its end. -/
def formatDecimal (c : Nat × Int) (scientific negative : Bool) : List Char :=
  let digits := ((decimal c.1).reverse.dropWhile (· = '0')).reverse
  let point := c.2 + (decimal c.1).length
  if !scientific then signOf negative ++ plain digits point
  else
    let exp10 := point - 1
    signOf negative ++ (digits.take 1 ++ if 1 < digits.length then '.' :: digits.drop 1 else []) ++
      'e' :: (if exp10 < 0 then '-' else '+') :: decimal exp10.natAbs

/-- `formatJsonNumber`. -/
def formatJsonNumber (f : FiniteBinary64) : List Char :=
  if f.mant = 0 then if f.neg then ['-', '0'] else ['0']
  else formatDecimal (shortestRoundTrip f) (f.units < magnitude 1 (-6) ∨ magnitude 1 21 ≤ f.units) f.neg

variable {f : FiniteBinary64}

theorem decimal_length_eq {n k : Nat} (hlo : 10 ^ k ≤ n) (hhi : n < 10 ^ (k + 1)) : (decimal n).length = k + 1 := by
  refine Nat.le_antisymm ((decimal_length_le n k).mpr hhi) ?_
  rcases k with _ | k
  · exact List.length_pos_iff.mpr (decimal_ne_nil n)
  · have := mt (decimal_length_le n k).mp (by omega)
    omega

/-- Two digits or more: as many as are needed, on their grid. -/
theorem shortest_long (hf : f.mant ≠ 0) (hlong : 10 ≤ f.shortest.1) : ∃ k, 1 ≤ k ∧ (decimal f.shortest.1).length = k + 1 ∧
    f.shortest.2 = f.digitExponent (k + 1) ∧ f.readBack k = none := by
  obtain ⟨k, m, ⟨hk, -⟩, hm, -, hless, hshort⟩ := shortest_form hf
  obtain ⟨hlo, hhi⟩ := lower_bounds hf hk
  have hne : m ≠ 10 ^ k := fun hpow => by
    rw [hshort, if_pos hpow] at hlong
    have hten : 10 ≤ 1 := hlong
    omega
  rw [if_neg hne] at hshort
  rw [hshort] at hlong ⊢
  dsimp only at hlong ⊢
  obtain ⟨j, rfl⟩ : ∃ j, k = j + 1 := ⟨k - 1, by omega⟩
  rw [Nat.add_sub_cancel] at hlo
  have hj : 1 ≤ j := by
    by_contra hj
    obtain rfl : j = 0 := by omega
    have : m < 10 := by omega
    omega
  exact ⟨j, hj, decimal_length_eq (by omega) (by omega), rfl, hless (by omega)⟩

/-- Fewer digits than the shortest decimal has are not read back. -/
theorem not_parsesBack (hf : f.mant ≠ 0) (hjava : javaDigits f = f.shortest) (hlong : 10 ≤ f.shortest.1) {p : Nat}
    (hlt : p < (decimal f.shortest.1).length) : ¬ ParsesBack f p := by
  obtain ⟨k, hk, hlen, hexp, hnone⟩ := shortest_long hf hlong
  have hdigit : f.digitExponent k = f.digitExponent (k + 1) + 1 := by
    unfold digitExponent
    push_cast
    omega
  unfold ParsesBack roundTo
  rw [hjava, if_neg (by omega)]
  dsimp only
  obtain ⟨m, hm⟩ : ∃ m, m = (f.shortest.1 + 5 * 10 ^ ((decimal f.shortest.1).length - p - 1)) /
    10 ^ ((decimal f.shortest.1).length - p) := ⟨_, rfl⟩
  rw [← hm]
  intro hback
  have hgrid : f.shortest.2 + ((decimal f.shortest.1).length - p : Nat) = f.digitExponent k + (k - p : Nat) := by
    rw [hlen, hexp, hdigit]
    omega
  rw [hgrid, ← scaled_shift] at hback
  have hsome := readBack_of_scaled hf hback
  rw [hnone] at hsome
  exact Bool.false_ne_true hsome

/-- Where `Double.toString` has the shortest digits, they stay. -/
theorem shortestRoundTrip_self (hf : f.mant ≠ 0) (hjava : javaDigits f = f.shortest) :
    shortestRoundTrip f = f.shortest := by
  unfold shortestRoundTrip
  split
  · next p hfind =>
    have hback : ParsesBack f p := by simpa using List.find?_some hfind
    have hp : 1 ≤ p := (List.mem_range'_1.mp (List.mem_of_find?_eq_some hfind)).1
    have hle : (decimal f.shortest.1).length ≤ p := by
      by_contra hlt
      rcases Nat.lt_or_ge f.shortest.1 10 with hshort | hlong
      · rw [decimal_one hshort, List.length_singleton] at hlt
        exact hlt hp
      · exact not_parsesBack hf hjava hlong (Nat.lt_of_not_le hlt) hback
    unfold roundTo
    rw [hjava, if_pos hle]
  · exact hjava

/-- The shortest digits, with a zero after them or not. -/
def HasShortest (f : FiniteBinary64) (c : Nat × Int) : Prop :=
  c = f.shortest ∨ c = (f.shortest.1 * 10, f.shortest.2 - 1)

instance (f : FiniteBinary64) (c : Nat × Int) : Decidable (HasShortest f c) := inferInstanceAs (Decidable (_ ∨ _))

/-- The doubles that are nearest to one digit at one of the exponents of subnormal numbers. -/
def oneDigit (neg : Bool) (d i : Nat) : Bool :=
  match NumberText.scaled neg 10 (d, (i : Int) - 324) with
  | .finite f => f.mant = 0 || HasShortest f (shortestRoundTrip f)
  | _ => true

theorem oneDigit_all (neg : Bool) : ((List.range 18).all fun i => (List.range 10).all fun d => oneDigit neg d i) = true := by
  revert neg
  decide +kernel

theorem shortestRoundTrip_eq (hf : f.mant ≠ 0) : HasShortest f (shortestRoundTrip f) := by
  by_cases hjava : javaDigits f = f.shortest
  · exact .inl (shortestRoundTrip_self hf hjava)
  have hn : f.mant < 2 ^ 52 := by
    by_contra hn
    exact hjava (javaDigits_eq (Nat.le_of_not_lt hn))
  have hlt : f.shortest.1 < 10 := by
    by_contra hlt
    exact hjava (if_neg hlt)
  obtain ⟨hback, -⟩ := shortest_spec hf
  obtain ⟨hlow, hhigh⟩ := decimalExponent_subnormal hf hn
  have hexp := Json.exponent_eq hf
  rw [decimal_one hlt, List.length_singleton] at hexp
  rcases hshort : f.shortest with ⟨d, e⟩
  rw [hshort] at hback hexp hlt
  dsimp only at hexp hlt
  have hall := List.all_eq_true.mp (oneDigit_all f.neg) (e + 324).toNat (List.mem_range.mpr (by omega))
  have hone := List.all_eq_true.mp hall d (List.mem_range.mpr hlt)
  unfold oneDigit at hone
  rw [Int.toNat_of_nonneg (by omega), Int.add_sub_cancel, hback] at hone
  simpa [hf] using hone

theorem formatDecimal_shortest (hf : f.mant ≠ 0) {c : Nat × Int} (h : HasShortest f c) (scientific : Bool) :
    formatDecimal c scientific f.neg =
      let point := f.shortest.2 + (decimal f.shortest.1).length
      if !scientific then signOf f.neg ++ plain (decimal f.shortest.1) point
      else signOf f.neg ++ pointed (decimal f.shortest.1) ++
        'e' :: (if point - 1 < 0 then '-' else '+') :: decimal (point - 1).natAbs := by
  have hlast := Json.decimal_last (shortest_spec hf).2
  have hparts : ((decimal c.1).reverse.dropWhile (· = '0')).reverse = decimal f.shortest.1 ∧
      c.2 + (decimal c.1).length = f.shortest.2 + (decimal f.shortest.1).length := by
    rcases h with h | h
    · rw [h]
      exact ⟨dropWhile_zeros hlast, rfl⟩
    · rw [h]
      have hpos : f.shortest.1 ≠ 0 := fun hzero => (shortest_spec hf).2 (by rw [hzero])
      have hdecimal : decimal (f.shortest.1 * 10) = decimal f.shortest.1 ++ ['0'] := by
        rw [decimal, if_neg (by omega), Nat.mul_div_cancel _ (by decide)]
        unfold digitChar
        rw [Nat.mul_mod_left]
        rfl
      dsimp only
      rw [hdecimal]
      refine ⟨dropWhile_zeros_append hlast 1, ?_⟩
      rw [List.length_append, List.length_singleton]
      omega
  unfold formatDecimal
  rw [hparts.1, hparts.2]
  rfl

/-- `formatJsonNumber` writes a number as `encoding/json` does. -/
theorem formatJsonNumber_eq (f : FiniteBinary64) : formatJsonNumber f = goEncodeFloat f := by
  unfold formatJsonNumber Json.goEncodeFloat
  by_cases hf : f.mant = 0
  · have hunits : f.units = 0 := by
      unfold FiniteBinary64.units
      rw [hf, Nat.zero_mul]
    rw [if_pos hf, @if_neg (f.units ≠ 0 ∧ _) _ fun h => h.1 hunits, Json.strconvFormat_zero hf .f nofun]
    cases f.neg <;> rfl
  · have hunits : f.units ≠ 0 := (units_pos hf).ne'
    rw [if_neg hf, formatDecimal_shortest hf (shortestRoundTrip_eq hf)]
    by_cases hout : f.units < magnitude 1 (-6) ∨ magnitude 1 21 ≤ f.units
    · rw [@if_pos (f.units ≠ 0 ∧ _) _ ⟨hunits, hout⟩, Json.strconvFormat_e hf, decide_eq_true hout]
      unfold toChars
      dsimp only
      rw [← List.append_assoc, Json.cleanExponent_text (Json.exponent_outside hf hout)]
      rfl
    · rw [@if_neg (f.units ≠ 0 ∧ _) _ fun h => hout h.2, Json.strconvFormat_f hf, decide_eq_false hout]
      rfl

/-! ## Strings -/

def hexDigit (n : Nat) : Char := if n < 10 then Char.ofNat (48 + n) else Char.ofNat (87 + n)

/-- One unit, or a pair of surrogates. -/
theorem utf16Char_cases (c : Char) : (c.toNat < 0x10000 ∧ utf16Char c = [UInt16.ofNat c.toNat]) ∨
    ∃ u v : UInt16, utf16Char c = [u, v] ∧ Json.IsHigh u.toNat ∧ Json.IsLow v.toNat ∧
      Json.combine u.toNat v.toNat = c.toNat := by
  obtain ⟨hc, -⟩ := toNat_lt c
  unfold utf16Char
  dsimp only
  split
  · next hlt => exact .inl ⟨hlt, rfl⟩
  · have hu := toNat_unit (n := 0xD800 + (c.toNat - 0x10000) / 0x400) (by omega)
    have hv := toNat_unit (n := 0xDC00 + (c.toNat - 0x10000) % 0x400) (by omega)
    refine .inr ⟨_, _, rfl, ?_⟩
    rw [hu, hv]
    unfold Json.IsHigh Json.IsLow Json.combine
    rw [Nat.shiftLeft_eq]
    omega

/-- What Jackson writes for a unit, with the escapes of the mapper. -/
def escapeUnit (u : UInt16) : Units :=
  let n := u.toNat
  if n = 34 ∨ n = 92 then utf16 ['\\'] ++ [u]
  else if n = 8 then utf16 ['\\', 'b']
  else if n = 9 then utf16 ['\\', 't']
  else if n = 10 then utf16 ['\\', 'n']
  else if n = 12 then utf16 ['\\', 'f']
  else if n = 13 then utf16 ['\\', 'r']
  else if n < 0x20 ∨ n = 60 ∨ n = 62 ∨ n = 38 then
    utf16 ['\\', 'u', '0', '0', hexDigit (n / 16), hexDigit (n % 16)]
  else if n = 0x2028 ∨ n = 0x2029 then utf16 ['\\', 'u', '2', '0', '2', hexDigit (n % 16)]
  else [u]

def writeString (s : Units) : Units := utf16 ['"'] ++ s.flatMap escapeUnit ++ utf16 ['"']

/-- `getBytes(UTF_8)`: an unpaired surrogate becomes a question mark. -/
def unitBytes (u : UInt16) : Bytes :=
  if Json.IsHigh u.toNat ∨ Json.IsLow u.toNat then [ascii '?'] else Json.utf8 u.toNat

def getBytes : Units → Bytes
  | [] => []
  | [u] => unitBytes u
  | u :: v :: s =>
    if Json.IsHigh u.toNat ∧ Json.IsLow v.toNat then Json.utf8 (Json.combine u.toNat v.toNat) ++ getBytes s
    else unitBytes u ++ getBytes (v :: s)

def utf8Chars (s : List Char) : Bytes := s.flatMap fun c => Json.utf8 c.toNat

theorem utf8Chars_append (s t : List Char) : utf8Chars (s ++ t) = utf8Chars s ++ utf8Chars t := List.flatMap_append

theorem getBytes_cons {u : UInt16} (hu : ¬ Json.IsHigh u.toNat) (s : Units) :
    getBytes (u :: s) = unitBytes u ++ getBytes s := by
  rcases s with _ | ⟨v, s⟩
  · exact (List.append_nil _).symm
  · rw [getBytes, if_neg fun h => hu h.1]

theorem getBytes_utf16 (t : List Char) : getBytes (utf16 t) = utf8Chars t := by
  induction t with
  | nil => rfl
  | cons c t ih =>
    obtain ⟨hc, hc'⟩ := toNat_lt c
    have hcons : utf16 (c :: t) = utf16Char c ++ utf16 t := List.flatMap_cons
    have hbytes : utf8Chars (c :: t) = Json.utf8 c.toNat ++ utf8Chars t := List.flatMap_cons
    rw [hcons, hbytes]
    rcases utf16Char_cases c with ⟨hlt, hunits⟩ | ⟨u, v, hunits, hhigh, hlow, hcombine⟩
    · have hu := toNat_unit hlt
      have hhigh : ¬ Json.IsHigh (UInt16.ofNat c.toNat).toNat := by
        unfold Json.IsHigh
        omega
      have hlow : ¬ Json.IsLow (UInt16.ofNat c.toNat).toNat := by
        unfold Json.IsLow
        omega
      rw [hunits, List.singleton_append, getBytes_cons hhigh, ih]
      unfold unitBytes
      rw [if_neg (not_or_intro hhigh hlow), hu]
    · rw [hunits, List.cons_append, List.singleton_append, getBytes, if_pos ⟨hhigh, hlow⟩, ih, hcombine]

/-- The characters of an escape. -/
def escapeChars (c : Char) : List Char :=
  let n := c.toNat
  if n = 34 ∨ n = 92 then ['\\', c]
  else if n = 8 then ['\\', 'b']
  else if n = 9 then ['\\', 't']
  else if n = 10 then ['\\', 'n']
  else if n = 12 then ['\\', 'f']
  else if n = 13 then ['\\', 'r']
  else if n < 0x20 ∨ n = 60 ∨ n = 62 ∨ n = 38 then ['\\', 'u', '0', '0', hexDigit (n / 16), hexDigit (n % 16)]
  else if n = 0x2028 ∨ n = 0x2029 then ['\\', 'u', '2', '0', '2', hexDigit (n % 16)]
  else [c]

theorem escapeUnit_utf16 (c : Char) : (utf16Char c).flatMap escapeUnit = utf16 (escapeChars c) := by
  have hone : utf16 [c] = utf16Char c := List.flatMap_singleton ..
  rcases utf16Char_cases c with ⟨hlt, hunits⟩ | ⟨u, v, hunits, hhigh, hlow, hcombine⟩
  · have hbackslash : utf16 ['\\', c] = utf16 ['\\'] ++ utf16Char c := List.flatMap_cons.trans (congrArg _ hone)
    rw [hunits] at hone hbackslash ⊢
    rw [List.flatMap_singleton]
    unfold escapeUnit escapeChars
    dsimp only
    rw [toNat_unit hlt]
    simp only [apply_ite utf16, hone, hbackslash]
  · have hplain : ∀ w : UInt16, 0xD800 ≤ w.toNat → escapeUnit w = [w] := by
      intro w hw
      unfold escapeUnit
      dsimp only
      repeat rw [if_neg (by omega)]
    have hc : escapeChars c = [c] := by
      unfold Json.IsHigh at hhigh
      unfold Json.IsLow at hlow
      have hlarge := hcombine
      unfold Json.combine at hlarge
      rw [Nat.shiftLeft_eq] at hlarge
      unfold escapeChars
      dsimp only
      repeat rw [if_neg (by omega)]
    rw [hunits] at hone ⊢
    rw [hc, hone, List.flatMap_cons, List.flatMap_singleton, hplain u hhigh.1, hplain v (by
      unfold Json.IsLow at hlow
      omega)]
    rfl

theorem escapeChars_ascii (n : Fin 128) : utf8Chars (escapeChars (Char.ofNat n.val)) = goEscapeRune (Char.ofNat n.val) := by
  revert n
  decide +kernel

theorem escapeChars_rune (c : Char) : utf8Chars (escapeChars c) = goEscapeRune c := by
  by_cases h : c.toNat < 0x80
  · have hascii := escapeChars_ascii ⟨c.toNat, h⟩
    rwa [Char.ofNat_toNat] at hascii
  · have hrune : goEscapeRune c = if c.toNat = 0x2028 ∨ c.toNat = 0x2029 then
        [ascii '\\', ascii 'u', ascii '2', ascii '0', ascii '2', Json.hexChar (c.toNat % 16)] else Json.utf8 c.toNat :=
      if_neg h
    have hesc : escapeChars c = if c.toNat = 0x2028 ∨ c.toNat = 0x2029 then
        ['\\', 'u', '2', '0', '2', hexDigit (c.toNat % 16)] else [c] := by
      unfold escapeChars
      dsimp only
      repeat rw [if_neg (show ¬ _ by omega)]
    rw [hrune, hesc]
    split
    · next hsep =>
      rcases hsep with hsep | hsep <;> rw [hsep] <;> rfl
    · exact List.append_nil _

/-- A string between quotes, with its escapes. -/
def quoted (t : List Char) : List Char := '"' :: (t.flatMap escapeChars ++ ['"'])

theorem writeString_utf16 (t : List Char) : writeString (utf16 t) = utf16 (quoted t) := by
  have hloop : (utf16 t).flatMap escapeUnit = utf16 (t.flatMap escapeChars) := by
    induction t with
    | nil => rfl
    | cons c t ih =>
      have hcons : utf16 (c :: t) = utf16Char c ++ utf16 t := List.flatMap_cons
      rw [hcons, List.flatMap_append, ih, escapeUnit_utf16, List.flatMap_cons, utf16_append]
  have hquoted : utf16 (quoted t) = utf16 ['"'] ++ (utf16 (t.flatMap escapeChars) ++ utf16 ['"']) := by
    rw [← utf16_append, ← utf16_append]
    rfl
  unfold writeString
  rw [hloop, hquoted, List.append_assoc]

theorem utf8Chars_quoted (t : List Char) : utf8Chars (quoted t) = goAppendString (String.ofList t) := by
  have hloop : utf8Chars (t.flatMap escapeChars) = t.flatMap goEscapeRune := by
    induction t with
    | nil => rfl
    | cons c t ih => rw [List.flatMap_cons, utf8Chars_append, ih, escapeChars_rune, List.flatMap_cons]
  have hquoted : utf8Chars (quoted t) = ascii '"' :: (utf8Chars (t.flatMap escapeChars) ++ [ascii '"']) := by
    have hsplit : utf8Chars (quoted t) = utf8Chars ['"'] ++ utf8Chars (t.flatMap escapeChars ++ ['"']) := List.flatMap_cons
    rw [hsplit, utf8Chars_append]
    rfl
  unfold goAppendString
  rw [hquoted, hloop, String.toList_ofList]

/-! ## Keys -/

/-- `Arrays.compareUnsigned`. -/
def compareUnsigned (a b : Bytes) : Int := if keyLess a b then -1 else if keyLess b a then 1 else 0

/-- The loop of `compareUtf8`, and what follows it; `ba` and `bb` are the bytes of the two strings. -/
def compareFrom (ba bb : Bytes) : Units → Units → Int
  | ca :: a, cb :: b =>
    if ca = cb then compareFrom ba bb a b
    else if ca < 0x80 ∧ cb < 0x80 then (ca.toNat : Int) - cb.toNat
    else compareUnsigned ba bb
  | [], [] => 0
  | [], _ :: _ => -1
  | _ :: _, [] => 1

/-- `compareUtf8`. -/
def compareUtf8 (a b : Units) : Int := compareFrom (getBytes a) (getBytes b) a b

theorem keyLess_cons (x y : UInt8) (a b : Bytes) : keyLess (x :: a) (y :: b) =
    if x = y then keyLess a b else decide (x.toNat < y.toNat) := by
  unfold Json.keyLess
  rw [List.map_cons, List.map_cons]
  split
  · next heq =>
    rw [heq, decide_eq_decide, List.cons_lt_cons_iff]
    simp
  · next hne =>
    rw [decide_eq_decide, List.cons_lt_cons_iff]
    exact or_iff_left fun h => hne (UInt8.toNat_inj.mp h.1)

theorem keyLess_append (p a b : Bytes) : keyLess (p ++ a) (p ++ b) = keyLess a b := by
  induction p with
  | nil => rfl
  | cons x p ih => rw [List.cons_append, List.cons_append, keyLess_cons, if_pos rfl, ih]

theorem keyLess_nil (b : Bytes) : keyLess b [] = false := decide_eq_false (List.not_lt_nil _)

theorem compareUnsigned_nonpos (a b : Bytes) : compareUnsigned a b ≤ 0 ↔ keyLess b a = false := by
  unfold compareUnsigned
  by_cases hab : keyLess a b = true
  · rw [if_pos hab, Json.keyLess_asymm hab]
    exact iff_of_true (by decide) rfl
  · rw [if_neg hab]
    by_cases hba : keyLess b a = true
    · rw [if_pos hba, hba]
      exact iff_of_false (by decide) nofun
    · rw [if_neg hba]
      exact iff_of_true (le_refl 0) (Bool.eq_false_of_not_eq_true hba)

theorem utf8_ne_nil (n : Nat) : Json.utf8 n ≠ [] := by
  unfold Json.utf8
  split
  · exact List.cons_ne_nil _ _
  · split
    · exact List.cons_ne_nil _ _
    · split <;> exact List.cons_ne_nil _ _

theorem utf16Char_ne_nil (c : Char) : utf16Char c ≠ [] := by
  rcases utf16Char_cases c with ⟨-, hunits⟩ | ⟨u, v, hunits, -⟩ <;> rw [hunits] <;> exact List.cons_ne_nil _ _

theorem compareFrom_append (ba bb : Bytes) (p a b : Units) :
    compareFrom ba bb (p ++ a) (p ++ b) = compareFrom ba bb a b := by
  induction p with
  | nil => rfl
  | cons u p ih => exact (if_pos rfl).trans ih

theorem compareFrom_cons (ba bb : Bytes) {u v : UInt16} (h : u ≠ v) (a b : Units) :
    compareFrom ba bb (u :: a) (v :: b) =
      if u.toNat < 0x80 ∧ v.toNat < 0x80 then (u.toNat : Int) - v.toNat else compareUnsigned ba bb := by
  have hascii : ∀ w : UInt16, w < 0x80 ↔ w.toNat < 0x80 := fun w => UInt16.lt_iff_toNat_lt
  rw [compareFrom, if_neg h]
  simp only [hascii]

/-- Different characters are compared by their bytes, or are ASCII. -/
theorem compareFrom_ne (ba bb : Bytes) {c d : Char} (h : c ≠ d) (a b : Units) :
    compareFrom ba bb (utf16Char c ++ a) (utf16Char d ++ b) =
      if c.toNat < 0x80 ∧ d.toNat < 0x80 then (c.toNat : Int) - d.toNat else compareUnsigned ba bb := by
  have hne : c.toNat ≠ d.toNat := fun heq => h (Char.toNat_inj.mp heq)
  obtain ⟨-, hc'⟩ := toNat_lt c
  obtain ⟨-, hd'⟩ := toNat_lt d
  have hlarge : ∀ {u v n : Nat}, Json.IsHigh u → Json.IsLow v → Json.combine u v = n →
      0xD800 ≤ u ∧ u < 0xDC00 ∧ 0xDC00 ≤ v ∧ 0x80 ≤ n := by
    intro u v n hu hv hn
    unfold Json.IsHigh at hu
    unfold Json.IsLow at hv
    unfold Json.combine at hn
    rw [Nat.shiftLeft_eq] at hn
    omega
  rcases utf16Char_cases c with ⟨hc, hcunits⟩ | ⟨u, v, hcunits, hu, hv, hcombine⟩
  · rcases utf16Char_cases d with ⟨hd, hdunits⟩ | ⟨u', v', hdunits, hu', hv', hcombine'⟩
    · rw [hcunits, hdunits, List.singleton_append, List.singleton_append, compareFrom_cons _ _ (unit_ne hc hd hne),
        toNat_unit hc, toNat_unit hd]
    · have hbounds := hlarge hu' hv' hcombine'
      have hunit : UInt16.ofNat c.toNat ≠ u' := fun heq => by
        have := congrArg UInt16.toNat heq
        rw [toNat_unit hc] at this
        omega
      rw [hcunits, hdunits, List.singleton_append, List.cons_append, compareFrom_cons _ _ hunit, if_neg (by omega),
        if_neg (by omega)]
  · have hbounds := hlarge hu hv hcombine
    rcases utf16Char_cases d with ⟨hd, hdunits⟩ | ⟨u', v', hdunits, hu', hv', hcombine'⟩
    · have hunit : u ≠ UInt16.ofNat d.toNat := fun heq => by
        have := congrArg UInt16.toNat heq
        rw [toNat_unit hd] at this
        omega
      rw [hcunits, hdunits, List.singleton_append, List.cons_append, compareFrom_cons _ _ hunit, if_neg (by omega),
        if_neg (by omega)]
    · have hbounds' := hlarge hu' hv' hcombine'
      rw [hcunits, hdunits]
      simp only [List.cons_append, List.nil_append]
      by_cases hfirst : u = u'
      · have hunit : v ≠ v' := by
          rintro rfl
          rw [hfirst, hcombine'] at hcombine
          exact hne hcombine.symm
        rw [hfirst, compareFrom, if_pos rfl, compareFrom_cons _ _ hunit, if_neg (by omega), if_neg (by omega)]
      · rw [compareFrom_cons _ _ hfirst, if_neg (by omega), if_neg (by omega)]

theorem utf8_ascii {n : Nat} (h : n < 0x80) : Json.utf8 n = [n.toUInt8] := if_pos h

/-- The comparison follows the order of the bytes. -/
theorem compareFrom_nonpos (p a b : List Char) :
    compareFrom (utf8Chars (p ++ a)) (utf8Chars (p ++ b)) (utf16 a) (utf16 b) ≤ 0 ↔
      keyLess (utf8Chars (p ++ b)) (utf8Chars (p ++ a)) = false := by
  have hbytes : ∀ (c : Char) (t : List Char), utf8Chars (c :: t) = Json.utf8 c.toNat ++ utf8Chars t :=
    fun _ _ => List.flatMap_cons
  have hunits : ∀ (c : Char) (t : List Char), utf16 (c :: t) = utf16Char c ++ utf16 t := fun _ _ => List.flatMap_cons
  induction a generalizing p b with
  | nil =>
    have hle : compareFrom (utf8Chars (p ++ [])) (utf8Chars (p ++ b)) (utf16 []) (utf16 b) ≤ 0 := by
      cases utf16 b with
      | nil => exact le_refl 0
      | cons => exact (by decide : (-1 : Int) ≤ 0)
    rw [utf8Chars_append, utf8Chars_append, keyLess_append]
    rw [utf8Chars_append, utf8Chars_append] at hle
    exact iff_of_true hle (keyLess_nil _)
  | cons c a ih =>
    cases b with
    | nil =>
      have hgt : compareFrom (utf8Chars (p ++ c :: a)) (utf8Chars (p ++ [])) (utf16 (c :: a)) (utf16 []) = 1 := by
        rw [hunits]
        rcases hu : utf16Char c with _ | ⟨u, us⟩
        · exact absurd hu (utf16Char_ne_nil c)
        · rfl
      have hless : keyLess (utf8Chars []) (utf8Chars (c :: a)) = true := by
        rw [hbytes]
        rcases hu : Json.utf8 c.toNat with _ | ⟨x, xs⟩
        · exact absurd hu (utf8_ne_nil _)
        · rfl
      rw [hgt, utf8Chars_append, utf8Chars_append, keyLess_append, hless]
      exact iff_of_false (by decide) nofun
    | cons d b =>
      rw [hunits, hunits]
      by_cases hcd : c = d
      · subst hcd
        rw [compareFrom_append]
        have happend := ih (p ++ [c]) b
        rwa [List.append_assoc, List.append_assoc] at happend
      · rw [compareFrom_ne _ _ hcd]
        split
        · next hascii =>
          have hne : c.toNat ≠ d.toNat := fun heq => hcd (Char.toNat_inj.mp heq)
          have hbyte : d.toNat.toUInt8 ≠ c.toNat.toUInt8 := fun heq => by
            have := congrArg UInt8.toNat heq
            rw [toNat_toUInt8 (by omega), toNat_toUInt8 (by omega)] at this
            omega
          rw [utf8Chars_append, utf8Chars_append, keyLess_append, hbytes, hbytes, utf8_ascii hascii.1,
            utf8_ascii hascii.2, List.singleton_append, List.singleton_append, keyLess_cons, if_neg hbyte,
            toNat_toUInt8 (by omega), toNat_toUInt8 (by omega), decide_eq_false_iff_not]
          omega
        · exact compareUnsigned_nonpos _ _

theorem compareUtf8_nonpos (a b : List Char) :
    compareUtf8 (utf16 a) (utf16 b) ≤ 0 ↔ keyLess (utf8Chars b) (utf8Chars a) = false := by
  unfold compareUtf8
  rw [getBytes_utf16, getBytes_utf16]
  exact compareFrom_nonpos [] a b

/-! ## Values -/

def commas : List Units → Units
  | [] => []
  | text :: texts => text ++ texts.flatMap fun text => utf16 [','] ++ text

/-- The `Double` serializer; what is not finite is quoted. -/
def serializeDouble : Binary64 → List Char
  | .finite f => formatJsonNumber f
  | d => '"' :: (doubleText d ++ ['"'])

mutual
/-- `marshalJson`: numbers become doubles, and maps are sorted at every depth. -/
def marshalJson : JavaValue → Units
  | .null => utf16 "null".toList
  | .bool b => utf16 (if b then "true".toList else "false".toList)
  | .number n => utf16 (serializeDouble n.doubleValue)
  | .string s => writeString s
  | .list xs => utf16 ['['] ++ commas (marshalAll xs) ++ utf16 [']']
  | .map es =>
    let entries := (marshalEntries es).mergeSort fun a b => decide (compareUtf8 a.1 b.1 ≤ 0)
    utf16 ['{'] ++ commas (entries.map fun e => writeString e.1 ++ (utf16 [':'] ++ e.2)) ++ utf16 ['}']

def marshalAll : List JavaValue → List Units
  | [] => []
  | x :: xs => marshalJson x :: marshalAll xs

def marshalEntries : List (Units × JavaValue) → List (Units × Units)
  | [] => []
  | (k, x) :: es => (k, marshalJson x) :: marshalEntries es
end

/-- Its strings and names have no unpaired surrogate. -/
inductive WellFormed : Spelled → Prop
  | null : WellFormed .null
  | bool (b : Bool) : WellFormed (.bool b)
  | number (n : {n : Numeral // n.Rfc}) : WellFormed (.number n)
  | string (t : List Char) : WellFormed (.string (utf16 t))
  | array {xs : List Spelled} : (∀ x ∈ xs, WellFormed x) → WellFormed (.array xs)
  | object {es : List (Units × Spelled)} : (∀ e ∈ es, ∃ t, e.1 = utf16 t) → (∀ e ∈ es, WellFormed e.2) →
      WellFormed (.object es)

/-- No integer zero has a minus sign. -/
inductive Signless : Spelled → Prop
  | null : Signless .null
  | bool (b : Bool) : Signless (.bool b)
  | number {n : {n : Numeral // n.Rfc}} : (n.val.IsInteger → n.val.integer = 0 → n.val.minus = false) →
      Signless (.number n)
  | string (s : Units) : Signless (.string s)
  | array {xs : List Spelled} : (∀ x ∈ xs, Signless x) → Signless (.array xs)
  | object {es : List (Units × Spelled)} : (∀ e ∈ es, Signless e.2) → Signless (.object es)

/-- The two encoders write the same characters. -/
def SameText (x : JavaValue) (v : Variant) : Prop :=
  ∃ cs, marshalJson x = utf16 cs ∧ goMarshal v = some (utf8Chars cs)

theorem doubleValue_jackson {n : Numeral} (h : n.IsInteger → n.integer = 0 → n.minus = false) :
    (jacksonNumber n).doubleValue = n.nearest := by
  unfold jacksonNumber
  split
  · next hint =>
    have hminus : decide (n.integer < 0) = n.minus := by
      by_cases hzero : n.integer = 0
      · rw [h hint hzero, hzero]
        rfl
      · exact minus_of_ne hzero
    have hvalue : JavaNumber.nearestInt n.integer = n.nearest := by
      unfold JavaNumber.nearestInt
      rw [nearest_integer hint, hminus]
    split
    · next hrange =>
      unfold int32Bound at hrange
      show JavaNumber.nearestInt (Int32.ofInt n.integer).toInt = _
      rw [Int32.toInt_ofInt_of_le (by omega) (by omega), hvalue]
    · split
      · next hrange =>
        unfold IsInt64 int64Bound at hrange
        show JavaNumber.nearestInt (Int64.ofInt n.integer).toInt = _
        rw [Int64.toInt_ofInt_of_le (by omega) (by omega), hvalue]
      · exact hvalue
  · rfl

theorem utf8Chars_ascii {cs : List Char} (h : ∀ c ∈ cs, c.toNat < 0x80) : utf8Chars cs = cs.map ascii := by
  induction cs with
  | nil => rfl
  | cons c cs ih =>
    have hcons : utf8Chars (c :: cs) = Json.utf8 c.toNat ++ utf8Chars cs := List.flatMap_cons
    rw [hcons, utf8_ascii (h c List.mem_cons_self), ih fun d hd => h d (List.mem_cons_of_mem _ hd)]
    rfl

theorem digit_ascii {c : Char} (h : c.isDigit = true) : c.toNat < 0x80 := by
  have := isDigit_iff.mp h
  omega

theorem decimal_ascii (n : Nat) : ∀ c ∈ decimal n, c.toNat < 0x80 :=
  fun c hc => digit_ascii (List.all_eq_true.mp (decimal_digits n) c hc)

/-- A number is written in ASCII. -/
theorem formatJsonNumber_ascii (f : FiniteBinary64) : ∀ c ∈ formatJsonNumber f, c.toNat < 0x80 := by
  have hsign : ∀ c ∈ signOf f.neg, c.toNat < 0x80 := by
    intro c hc
    cases hneg : f.neg <;> rw [hneg] at hc
    · exact absurd hc List.not_mem_nil
    · rw [List.mem_singleton.mp hc]
      decide
  unfold formatJsonNumber
  split
  · have hzero : ∀ neg : Bool, (if neg then ['-', '0'] else ['0']).all (fun c => c.toNat < 0x80) = true := by decide
    exact fun c hc => of_decide_eq_true (List.all_eq_true.mp (hzero f.neg) c hc)
  · next hf =>
    rw [formatDecimal_shortest hf (shortestRoundTrip_eq hf)]
    dsimp only
    intro c hc
    split at hc
    · rcases List.mem_append.mp hc with hc | hc
      · exact hsign c hc
      · rcases plain_chars (decimal_digits _) _ c hc with hdigit | rfl
        · exact digit_ascii hdigit
        · decide
    · rcases List.mem_append.mp hc with hc | hc
      · rcases List.mem_append.mp hc with hc | hc
        · exact hsign c hc
        · unfold pointed at hc
          rcases List.mem_append.mp hc with hc | hc
          · exact decimal_ascii _ c (List.mem_of_mem_take hc)
          · split at hc
            · rcases List.mem_cons.mp hc with rfl | hc
              · decide
              · exact decimal_ascii _ c (List.mem_of_mem_drop hc)
            · exact absurd hc List.not_mem_nil
      · rcases List.mem_cons.mp hc with rfl | hc
        · decide
        · rcases List.mem_cons.mp hc with heq | hc
          · rw [heq]
            split <;> decide
          · exact decimal_ascii _ c hc

theorem sameText_number {n : {n : Numeral // n.Rfc}} {d : Binary64} (hn : Signless (.number n))
    (h : goNumber n.val = some d) : SameText (jackson (.number n)) (.number d) := by
  obtain ⟨f, hf, rfl⟩ := goNumber_eq_some h
  rcases hn with _ | _ | hn
  refine ⟨formatJsonNumber f, ?_, ?_⟩
  · rw [jackson, marshalJson, doubleValue_jackson hn, hf]
    rfl
  · rw [goMarshal, utf8Chars_ascii (formatJsonNumber_ascii f), formatJsonNumber_eq]

theorem sameText_string (t : List Char) : SameText (jackson (.string (utf16 t))) (.string (String.ofList t)) := by
  refine ⟨quoted t, ?_, ?_⟩
  · rw [jackson, marshalJson, writeString_utf16]
  · rw [goMarshal, utf8Chars_quoted]

def commaChars : List (List Char) → List Char
  | [] => []
  | text :: texts => text ++ texts.flatMap fun text => ',' :: text

theorem commas_utf16 (texts : List (List Char)) : commas (texts.map utf16) = utf16 (commaChars texts) ∧
    commaSeparated (texts.map utf8Chars) = utf8Chars (commaChars texts) := by
  rcases texts with _ | ⟨text, texts⟩
  · exact ⟨rfl, rfl⟩
  have hrest : (texts.map utf16).flatMap (fun text => utf16 [','] ++ text) =
        utf16 (texts.flatMap fun text => ',' :: text) ∧
      (texts.map utf8Chars).flatMap (fun text => ascii ',' :: text) =
        utf8Chars (texts.flatMap fun text => ',' :: text) := by
    induction texts with
    | nil => exact ⟨rfl, rfl⟩
    | cons text texts ih =>
      refine ⟨?_, ?_⟩
      · rw [List.map_cons, List.flatMap_cons, ih.1, List.flatMap_cons, utf16_append]
        rfl
      · rw [List.map_cons, List.flatMap_cons, ih.2, List.flatMap_cons, utf8Chars_append]
        rfl
  refine ⟨?_, ?_⟩
  · show utf16 text ++ _ = _
    rw [hrest.1, ← utf16_append]
    rfl
  · show utf8Chars text ++ _ = _
    rw [hrest.2, ← utf8Chars_append]
    rfl

theorem sameText_list {xs : List JavaValue} {vs : List Variant} (h : List.Forall₂ SameText xs vs) :
    SameText (.list xs) (.array vs) := by
  have htexts : ∃ texts : List (List Char), marshalAll xs = texts.map utf16 ∧
      goMarshalArray vs = some (texts.map utf8Chars) := by
    induction h with
    | nil => exact ⟨[], by rw [marshalAll]; rfl, by rw [goMarshalArray]; rfl⟩
    | @cons x v xs vs hx _ ih =>
      obtain ⟨cs, hjava, hgo⟩ := hx
      obtain ⟨texts, hjavas, hgos⟩ := ih
      refine ⟨cs :: texts, ?_, ?_⟩
      · rw [marshalAll, hjava, hjavas, List.map_cons]
      · rw [goMarshalArray, hgo, hgos]
        rfl
  obtain ⟨texts, hjava, hgo⟩ := htexts
  obtain ⟨hcommas, hcommas'⟩ := commas_utf16 texts
  refine ⟨'[' :: (commaChars texts ++ [']']), ?_, ?_⟩
  · have hsplit : utf16 ('[' :: (commaChars texts ++ [']'])) = utf16 ['['] ++ utf16 (commaChars texts ++ [']']) :=
      List.flatMap_cons
    rw [marshalJson, hjava, hcommas, hsplit, utf16_append, List.append_assoc]
  · have hsplit : utf8Chars ('[' :: (commaChars texts ++ [']'])) = ascii '[' :: utf8Chars (commaChars texts ++ [']']) :=
      List.flatMap_cons
    rw [goMarshal, hgo, Option.map_some, hcommas', hsplit, utf8Chars_append]
    rfl

/-- Entries of one key whose values are written alike. -/
def SameEntry (e : Units × JavaValue) (f : String × Variant) : Prop := e.1 = utf16 f.1.toList ∧ SameText e.2 f.2

theorem sameText_map {es : List (Units × JavaValue)} {fs : List (String × Variant)} (h : List.Forall₂ SameEntry es fs) :
    SameText (.map es) (.object fs) := by
  have htexts : ∃ entries : List (String × List Char),
      marshalEntries es = entries.map (fun e => (utf16 e.1.toList, utf16 e.2)) ∧
        goMarshalFields fs = some (entries.map fun e => (e.1, utf8Chars e.2)) := by
    induction h with
    | nil => exact ⟨[], by rw [marshalEntries]; rfl, by rw [goMarshalFields]; rfl⟩
    | @cons e f es fs he _ ih =>
      obtain ⟨hkey, cs, hjava, hgo⟩ := he
      obtain ⟨entries, hjavas, hgos⟩ := ih
      refine ⟨(f.1, cs) :: entries, ?_, ?_⟩
      · rw [marshalEntries, hkey, hjava, hjavas, List.map_cons]
      · rw [goMarshalFields, hgo, hgos]
        rfl
  obtain ⟨entries, hjava, hgo⟩ := htexts
  let sorted := entries.mergeSort fun a b => !keyLess (Reorder.utf8Bytes b.1) (Reorder.utf8Bytes a.1)
  have hjavaSort : (entries.map fun e => (utf16 e.1.toList, utf16 e.2)).mergeSort
      (fun a b => decide (compareUtf8 a.1 b.1 ≤ 0)) = sorted.map fun e => (utf16 e.1.toList, utf16 e.2) := by
    refine (List.map_mergeSort fun a _ b _ => ?_).symm
    rw [Bool.eq_iff_iff, decide_eq_true_iff, compareUtf8_nonpos, Bool.not_eq_true']
    rfl
  have hgoSort : (entries.map fun e => (e.1, utf8Chars e.2)).mergeSort
      (fun a b => !keyLess (Reorder.utf8Bytes b.1) (Reorder.utf8Bytes a.1)) =
      sorted.map fun e => (e.1, utf8Chars e.2) := by
    refine (List.map_mergeSort fun a _ b _ => ?_).symm
    rfl
  let member : String × List Char → List Char := fun e => quoted e.1.toList ++ ':' :: e.2
  obtain ⟨hcommas, hcommas'⟩ := commas_utf16 (sorted.map member)
  have hmember : ∀ e : String × List Char, writeString (utf16 e.1.toList) ++ (utf16 [':'] ++ utf16 e.2) =
      utf16 (member e) := by
    intro e
    rw [writeString_utf16, ← utf16_append, ← utf16_append]
    rfl
  have hmember' : ∀ e : String × List Char, goAppendString e.1 ++ ascii ':' :: utf8Chars e.2 = utf8Chars (member e) := by
    intro e
    have hsplit : utf8Chars (member e) = utf8Chars (quoted e.1.toList) ++ utf8Chars (':' :: e.2) := utf8Chars_append ..
    rw [hsplit, utf8Chars_quoted, String.ofList_toList]
    rfl
  refine ⟨'{' :: (commaChars (sorted.map member) ++ ['}']), ?_, ?_⟩
  · have hsplit : utf16 ('{' :: (commaChars (sorted.map member) ++ ['}'])) =
        utf16 ['{'] ++ utf16 (commaChars (sorted.map member) ++ ['}']) := List.flatMap_cons
    rw [marshalJson, hjava, hjavaSort, List.map_map, hsplit, utf16_append, ← hcommas, List.map_map, List.append_assoc]
    refine congrArg (fun texts => utf16 ['{'] ++ (commas texts ++ utf16 ['}'])) (List.map_congr_left fun e _ => ?_)
    exact hmember e
  · have hsplit : utf8Chars ('{' :: (commaChars (sorted.map member) ++ ['}'])) =
        ascii '{' :: utf8Chars (commaChars (sorted.map member) ++ ['}']) := List.flatMap_cons
    rw [goMarshal, hgo, Option.map_some]
    dsimp only
    rw [hgoSort, List.map_map, hsplit, utf8Chars_append, ← hcommas', List.map_map]
    refine congrArg (fun texts => some (ascii '{' :: (commaSeparated texts ++ [ascii '}'])))
      (List.map_congr_left fun e _ => ?_)
    exact hmember' e

theorem utf16_inj {s t : List Char} (h : utf16 s = utf16 t) : s = t := by
  rw [← unquote_utf16 s, h, unquote_utf16]

/-- A member of a name replaces the one before it in both maps. -/
theorem sameText_put {m : List (Units × JavaValue)} {m' : List (String × Variant)} (h : List.Forall₂ SameEntry m m')
    (t : List Char) {x : JavaValue} {v : Variant} (hx : SameText x v) :
    List.Forall₂ SameEntry (put (utf16 t) x m) (put (String.ofList t) v m') := by
  have hnew : SameEntry (utf16 t, x) (String.ofList t, v) := ⟨congrArg utf16 String.toList_ofList.symm, hx⟩
  induction h with
  | nil => exact .cons hnew .nil
  | @cons e f m m' he hrest ih =>
    have hkey : e.1 = utf16 t ↔ f.1 = String.ofList t := by
      rw [he.1, ← String.toList_inj, String.toList_ofList]
      exact ⟨utf16_inj, congrArg utf16⟩
    unfold put
    by_cases hf : f.1 = String.ofList t
    · rw [if_pos (hkey.mpr hf), if_pos hf]
      exact .cons hnew hrest
    · rw [if_neg fun h => hf (hkey.mp h), if_neg hf]
      exact .cons he ih

mutual
/-- `marshalJson` writes what Jackson decodes as `json.Marshal` writes what Go decodes. -/
theorem sameText : ∀ (j : Spelled) {v : Variant}, WellFormed j → Signless j → goDecode j = some v →
    SameText (jackson j) v
  | .null, v, _, _, h => by
    rw [goDecode] at h
    obtain rfl := Option.some.inj h
    exact ⟨"null".toList, by rw [jackson, marshalJson], by rw [goMarshal]; rfl⟩
  | .bool b, v, _, _, h => by
    rw [goDecode] at h
    obtain rfl := Option.some.inj h
    refine ⟨if b then "true".toList else "false".toList, by rw [jackson, marshalJson], ?_⟩
    rw [goMarshal]
    cases b <;> rfl
  | .number n, v, _, hn, h => by
    rw [goDecode] at h
    obtain ⟨d, hd, rfl⟩ := Option.map_eq_some_iff.mp h
    exact sameText_number hn hd
  | .string s, v, hs, _, h => by
    obtain ⟨t, rfl⟩ : ∃ t, s = utf16 t := by
      cases hs
      exact ⟨_, rfl⟩
    rw [goDecode, unquote_utf16] at h
    obtain rfl := Option.some.inj h
    exact sameText_string t
  | .array xs, v, hwf, hn, h => by
    rw [goDecode] at h
    obtain ⟨vs, hvs, rfl⟩ := Option.map_eq_some_iff.mp h
    rcases hwf with _ | _ | _ | _ | hwf
    rcases hn with _ | _ | _ | _ | hn
    rw [jackson]
    exact sameText_list (sameText_all xs hwf hn hvs)
  | .object es, v, hwf, hn, h => by
    rw [goDecode] at h
    obtain ⟨fs, hfs, rfl⟩ := Option.map_eq_some_iff.mp h
    rcases hwf with _ | _ | _ | _ | _ | ⟨hkeys, hwf⟩
    rcases hn with _ | _ | _ | _ | _ | hn
    rw [jackson]
    exact sameText_map (sameText_members es hkeys hwf hn .nil hfs)

theorem sameText_all : ∀ (xs : List Spelled) {vs : List Variant}, (∀ x ∈ xs, WellFormed x) → (∀ x ∈ xs, Signless x) →
    goDecodeArray xs = some vs → List.Forall₂ SameText (jacksonArray xs) vs
  | [], vs, _, _, h => by
    rw [goDecodeArray] at h
    obtain rfl := Option.some.inj h
    rw [jacksonArray]
    exact .nil
  | x :: xs, vs, hwf, hn, h => by
    rw [goDecodeArray] at h
    obtain ⟨v, hv, h⟩ := Option.bind_eq_some_iff.mp h
    obtain ⟨vs', hvs, h⟩ := Option.bind_eq_some_iff.mp h
    obtain rfl := Option.some.inj h
    rw [jacksonArray]
    exact .cons (sameText x (hwf x List.mem_cons_self) (hn x List.mem_cons_self) hv)
      (sameText_all xs (fun y hy => hwf y (List.mem_cons_of_mem _ hy)) (fun y hy => hn y (List.mem_cons_of_mem _ hy)) hvs)

theorem sameText_members : ∀ (es : List (Units × Spelled)) {m : List (Units × JavaValue)}
    {m' fs : List (String × Variant)}, (∀ e ∈ es, ∃ t, e.1 = utf16 t) → (∀ e ∈ es, WellFormed e.2) →
    (∀ e ∈ es, Signless e.2) → List.Forall₂ SameEntry m m' → goDecodeObject es m' = some fs →
    List.Forall₂ SameEntry (jacksonObject es m) fs
  | [], m, m', fs, _, _, _, hm, h => by
    rw [goDecodeObject] at h
    obtain rfl := Option.some.inj h
    rw [jacksonObject]
    exact hm
  | (k, x) :: es, m, m', fs, hkeys, hwf, hn, hm, h => by
    rw [goDecodeObject] at h
    obtain ⟨v, hv, h⟩ := Option.bind_eq_some_iff.mp h
    obtain ⟨t, hk⟩ := hkeys (k, x) List.mem_cons_self
    obtain rfl : k = utf16 t := hk
    rw [unquote_utf16] at h
    have hx := sameText x (hwf (utf16 t, x) List.mem_cons_self) (hn (utf16 t, x) List.mem_cons_self) hv
    rw [jacksonObject]
    exact sameText_members es (fun e he => hkeys e (List.mem_cons_of_mem _ he))
      (fun e he => hwf e (List.mem_cons_of_mem _ he)) (fun e he => hn e (List.mem_cons_of_mem _ he))
      (sameText_put hm t hx) h
end

/-- The bytes of `marshalJson`, on what Jackson decodes, are those of `json.Marshal`, on what Go decodes. -/
theorem marshalJson_bytes {j : Spelled} {v : Variant} (hwf : WellFormed j) (hn : Signless j) (h : goDecode j = some v) :
    goMarshal v = some (getBytes (marshalJson (jackson j))) := by
  obtain ⟨cs, hjava, hgo⟩ := sameText j hwf hn h
  rw [hgo, hjava, getBytes_utf16]

/-- `{"b": [1.50, "<"], "a": "é\"", "b": [null, "<"]}` -/
def repeatedName : Spelled := .object [
  (utf16 ['b'], .array [.number ⟨⟨false, [ascii '1'], some [ascii '5', ascii '0'], none⟩,
    ⟨⟨rfl, by rintro _ ⟨⟩; rfl, nofun, nofun, nofun⟩, Or.inr ⟨_, _, rfl, by decide⟩, by decide, nofun⟩⟩, .string (utf16 ['<'])]),
  (utf16 ['a'], .string (utf16 ['é', '"'])),
  (utf16 ['b'], .array [.null, .string (utf16 ['<'])])]

theorem marshalJson_bytes_repeated :
    goMarshal ((goDecode repeatedName).getD .null) = some (getBytes (marshalJson (jackson repeatedName))) := by
  have hsome : (goDecode repeatedName).isSome = true := by decide +kernel
  obtain ⟨v, hv⟩ := Option.isSome_iff_exists.mp hsome
  rw [hv, Option.getD_some]
  refine marshalJson_bytes ?_ ?_ hv
  · refine .object (by simp) ?_
    simp only [List.forall_mem_cons, List.not_mem_nil, false_implies, implies_true, and_true]
    refine ⟨.array ?_, .string _, .array ?_⟩
    · simp only [List.forall_mem_cons, List.not_mem_nil, false_implies, implies_true, and_true]
      exact ⟨.number _, .string _⟩
    · simp only [List.forall_mem_cons, List.not_mem_nil, false_implies, implies_true, and_true]
      exact ⟨.null, .string _⟩
  · refine .object ?_
    simp only [List.forall_mem_cons, List.not_mem_nil, false_implies, implies_true, and_true]
    refine ⟨.array ?_, .string _, .array ?_⟩
    · simp only [List.forall_mem_cons, List.not_mem_nil, false_implies, implies_true, and_true]
      exact ⟨.number fun h => absurd h.1 nofun, .string _⟩
    · simp only [List.forall_mem_cons, List.not_mem_nil, false_implies, implies_true, and_true]
      exact ⟨.null, .string _⟩

end Pineapple.GoFormat
