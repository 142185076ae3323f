import Mathlib.Data.List.TakeWhile
import Mathlib.Tactic.ByContra

/-! # Numbers and line ends in text (`std::stoi`, `std::stoll`, `std::to_string`) -/

namespace Pineapple

def crlf : List Char := ['\r', '\n']

/-- `isspace` in the C locale. -/
def isSpace (c : Char) : Bool := c = ' ' || (9 ≤ c.toNat && c.toNat ≤ 13)

def digitsValue (digits : List Char) : Nat := digits.foldl (fun n c => 10 * n + (c.toNat - '0'.toNat)) 0

/-- 2 to the power of 31 and of 63. -/
def int32Bound : Nat := 2147483648

def int64Bound : Nat := 9223372036854775808

/-- The number at the front of a text and how many characters it took; nothing where the conversion throws,
because there is none or it is out of range. -/
def parseInteger (bound : Nat) (s : List Char) : Option (Int × Nat) :=
  let spaces := s.takeWhile isSpace
  let rest := s.dropWhile isSpace
  let sign := if rest.head? = some '-' ∨ rest.head? = some '+' then 1 else 0
  let digits := (rest.drop sign).takeWhile Char.isDigit
  let value : Int := if rest.head? = some '-' then -(digitsValue digits : Int) else digitsValue digits
  if digits = [] ∨ value < -(bound : Int) ∨ (bound : Int) ≤ value then none
  else some (value, spaces.length + sign + digits.length)

def stoi (s : List Char) : Option (Int × Nat) := parseInteger int32Bound s

def stoll (s : List Char) : Option (Int × Nat) := parseInteger int64Bound s

/-! ## Digits -/

theorem isDigit_iff {c : Char} : c.isDigit = true ↔ 48 ≤ c.toNat ∧ c.toNat ≤ 57 := by
  unfold Char.isDigit
  rw [Bool.and_eq_true, decide_eq_true_eq, decide_eq_true_eq]
  exact and_congr UInt32.le_iff_toNat_le UInt32.le_iff_toNat_le

theorem not_isSpace_of_isDigit {c : Char} (hc : c.isDigit = true) : isSpace c = false := by
  have h48 := (isDigit_iff.mp hc).1
  have hne : c ≠ ' ' := by
    rintro rfl
    exact absurd hc Bool.false_ne_true
  have hrange : ¬ c.toNat ≤ 13 := by omega
  simp [isSpace, hne, hrange]

/-- What ends a run of digits: nothing, or a character that is none. -/
def EndsDigits (post : List Char) : Prop := ∀ c ∈ post.head?, c.isDigit = false

theorem takeWhile_digits {digits post : List Char} (hdigits : digits.all Char.isDigit = true)
    (hpost : EndsDigits post) : (digits ++ post).takeWhile Char.isDigit = digits := by
  rw [List.takeWhile_append_of_pos (List.all_eq_true.mp hdigits)]
  cases post with
  | nil => exact List.append_nil _
  | cons c post =>
    have hc := hpost c rfl
    rw [List.takeWhile_cons_of_neg (by simp [hc]), List.append_nil]

theorem dropWhile_digits {digits post : List Char} (hdigits : digits.all Char.isDigit = true)
    (hpost : EndsDigits post) : (digits ++ post).dropWhile Char.isDigit = post := by
  rw [List.dropWhile_append_of_pos (List.all_eq_true.mp hdigits)]
  cases post with
  | nil => rfl
  | cons c post =>
    have hc := hpost c rfl
    rw [List.dropWhile_cons_of_neg (by simp [hc])]

variable {bound : Nat} {pre digits post : List Char}

/-- A number after white space, up to a character that is no digit. -/
theorem parseInteger_digits (hpre : ∀ c ∈ pre, isSpace c = true) (hpost : EndsDigits post) (hne : digits ≠ [])
    (hdigits : digits.all Char.isDigit = true) :
    parseInteger bound (pre ++ (digits ++ post)) = if digitsValue digits < bound then
      some ((digitsValue digits : Int), pre.length + digits.length) else none := by
  have htake := takeWhile_digits hdigits hpost
  obtain ⟨d, ds, rfl⟩ := List.exists_cons_of_ne_nil hne
  have hd : d.isDigit = true := List.all_eq_true.mp hdigits d List.mem_cons_self
  have hspace := not_isSpace_of_isDigit hd
  have hminus : d ≠ '-' := by
    rintro rfl
    exact absurd hd Bool.false_ne_true
  have hplus : d ≠ '+' := by
    rintro rfl
    exact absurd hd Bool.false_ne_true
  unfold parseInteger
  rw [List.cons_append] at htake ⊢
  rw [List.takeWhile_append_of_pos hpre, List.dropWhile_append_of_pos hpre,
    List.takeWhile_cons_of_neg (by simp [hspace]), List.dropWhile_cons_of_neg (by simp [hspace]), List.append_nil]
  simp only [List.head?_cons, Option.some.injEq, hminus, hplus, or_self, if_false, List.drop_zero, htake]
  by_cases hlt : digitsValue (d :: ds) < bound
  · rw [if_pos hlt, if_neg]
    · rfl
    · rintro (h | h | h)
      · exact hne h
      · omega
      · omega
  · rw [if_neg hlt, if_pos]
    exact .inr (.inr (by omega))

theorem parseInteger_neg (hne : digits ≠ []) (hdigits : digits.all Char.isDigit = true)
    (hle : digitsValue digits ≤ bound) (hpos : 0 < bound) :
    parseInteger bound ('-' :: digits) = some (-(digitsValue digits : Int), digits.length + 1) := by
  have htake := @takeWhile_digits digits [] hdigits nofun
  rw [List.append_nil] at htake
  unfold parseInteger
  rw [List.takeWhile_cons_of_neg (by decide), List.dropWhile_cons_of_neg (by decide)]
  simp only [List.head?_cons, true_or, if_true, List.drop_succ_cons, List.drop_zero, htake, List.length_nil]
  rw [if_neg, Nat.zero_add, Nat.add_comm]
  rintro (h | h | h)
  · exact hne h
  · omega
  · omega

/-! ## Writing a number -/

def digitChar (d : Nat) : Char := Char.ofNat (d % 10 + '0'.toNat)

/-- `std::to_string` of a number that is not negative. -/
def decimal (n : Nat) : List Char := if n < 10 then [digitChar n] else decimal (n / 10) ++ [digitChar n]

def decimalInt (n : Int) : List Char := if n < 0 then '-' :: decimal n.natAbs else decimal n.natAbs

theorem toNat_digitChar (d : Nat) : (digitChar d).toNat = d % 10 + 48 := by
  have hlt : d % 10 < 10 := Nat.mod_lt _ (by decide)
  unfold digitChar
  generalize d % 10 = r at hlt ⊢
  have hall : ∀ r < 10, (Char.ofNat (r + '0'.toNat)).toNat = r + 48 := by decide
  exact hall r hlt

theorem isDigit_digitChar (d : Nat) : (digitChar d).isDigit = true := by
  have hlt : d % 10 < 10 := Nat.mod_lt _ (by decide)
  rw [isDigit_iff, toNat_digitChar]
  omega

theorem digitsValue_concat (ds : List Char) (d : Nat) :
    digitsValue (ds ++ [digitChar d]) = 10 * digitsValue ds + d % 10 := by
  unfold digitsValue
  rw [List.foldl_append, List.foldl_cons, List.foldl_nil, toNat_digitChar]
  show 10 * _ + (d % 10 + 48 - 48) = _
  rw [Nat.add_sub_cancel]

theorem decimal_ne_nil (n : Nat) : decimal n ≠ [] := by
  rw [decimal]
  split
  · exact List.cons_ne_nil _ _
  · exact List.append_ne_nil_of_right_ne_nil _ (List.cons_ne_nil _ _)

theorem decimal_digits (n : Nat) : (decimal n).all Char.isDigit = true := by
  induction n using Nat.strongRecOn with
  | _ n ih =>
    rw [decimal]
    split
    · rw [List.all_cons, isDigit_digitChar]
      rfl
    · next hn =>
      rw [List.all_append, ih (n / 10) (by omega), List.all_cons, isDigit_digitChar]
      rfl

theorem digitsValue_decimal (n : Nat) : digitsValue (decimal n) = n := by
  induction n using Nat.strongRecOn with
  | _ n ih =>
    rw [decimal]
    split
    · next hn =>
      rw [← List.nil_append [digitChar n], digitsValue_concat]
      show 10 * 0 + n % 10 = n
      omega
    · next hn =>
      rw [digitsValue_concat, ih (n / 10) (by omega)]
      omega

/-- What `to_string` writes is read back. -/
theorem parseInteger_decimalInt {n : Int} (hlo : -(bound : Int) ≤ n) (hhi : n < bound) :
    ∃ consumed, parseInteger bound (decimalInt n) = some (n, consumed) := by
  have hne := decimal_ne_nil n.natAbs
  have hdigits := decimal_digits n.natAbs
  have hvalue := digitsValue_decimal n.natAbs
  unfold decimalInt
  split
  · next hneg =>
    rw [parseInteger_neg hne hdigits (by omega) (by omega), hvalue]
    exact ⟨_, by rw [show -(n.natAbs : Int) = n by omega]⟩
  · next hpos =>
    have hparse := @parseInteger_digits bound [] (decimal n.natAbs) [] nofun nofun hne hdigits
    rw [List.nil_append, List.append_nil, hvalue, if_pos (by omega), show (n.natAbs : Int) = n by omega] at hparse
    exact ⟨_, hparse⟩

end Pineapple
