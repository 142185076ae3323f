import Pineapple.Lib.Binary64Ratio

/-! # Numbers in JSON text (`Parser::parse_number`, `go_format_json_number`)

Texts are byte strings. A numeral is what `parse_number` scans and gives to `std::from_chars`. -/

namespace Pineapple.Json

abbrev Bytes := List UInt8

def ascii (c : Char) : UInt8 := c.toNat.toUInt8

def token (text : String) : Bytes := text.toList.map ascii

/-- `std::isdigit`. -/
def isDigit (b : UInt8) : Bool := 48 ≤ b.toNat && b.toNat ≤ 57

def digitsValue (digits : Bytes) : Nat := digits.foldl (fun n b => 10 * n + (b.toNat - 48)) 0

/-! ## Numerals -/

structure Exponent where
  marker : UInt8
  sign : Option UInt8
  digits : Bytes
deriving DecidableEq

structure Numeral where
  minus : Bool
  int : Bytes
  frac : Option Bytes
  exp : Option Exponent
deriving DecidableEq

def signText (minus : Bool) : Bytes := if minus then [ascii '-'] else []

def fracText : Option Bytes → Bytes
  | none => []
  | some digits => ascii '.' :: digits

def expText : Option Exponent → Bytes
  | none => []
  | some e => e.marker :: (e.sign.toList ++ e.digits)

def Numeral.text (n : Numeral) : Bytes := signText n.minus ++ (n.int ++ (fracText n.frac ++ expText n.exp))

def isMarker (b : UInt8) : Bool := b = ascii 'e' || b = ascii 'E'

def isSign (b : UInt8) : Bool := b = ascii '+' || b = ascii '-'

/-- What `parse_number` scans: digits may be missing everywhere. -/
structure Numeral.Scanned (n : Numeral) : Prop where
  int : n.int.all isDigit = true
  frac : ∀ digits ∈ n.frac, digits.all isDigit = true
  marker : ∀ e ∈ n.exp, isMarker e.marker = true
  sign : ∀ e ∈ n.exp, ∀ b ∈ e.sign, isSign b = true
  exp : ∀ e ∈ n.exp, e.digits.all isDigit = true

def scanSign : Bytes → Bool × Bytes
  | [] => (false, [])
  | b :: s => if b = ascii '-' then (true, s) else (false, b :: s)

def scanFrac : Bytes → Option Bytes × Bytes
  | [] => (none, [])
  | b :: s => if b = ascii '.' then (some (s.takeWhile isDigit), s.dropWhile isDigit) else (none, b :: s)

def scanExpSign : Bytes → Option UInt8 × Bytes
  | [] => (none, [])
  | b :: s => if isSign b then (some b, s) else (none, b :: s)

def scanExp : Bytes → Option Exponent × Bytes
  | [] => (none, [])
  | b :: s =>
    if isMarker b then
      let (sign, s) := scanExpSign s
      (some ⟨b, sign, s.takeWhile isDigit⟩, s.dropWhile isDigit)
    else (none, b :: s)

/-- The scanning part of `parse_number`. -/
def scan (s : Bytes) : Numeral × Bytes :=
  let (minus, s) := scanSign s
  let int := s.takeWhile isDigit
  let (frac, s) := scanFrac (s.dropWhile isDigit)
  let (exp, s) := scanExp s
  (⟨minus, int, frac, exp⟩, s)

/-! ## Their values -/

/-- A rounded value, nothing where the number is too large or too small for a double. -/
def inRange (m : Nat) : Binary64 → Option Binary64
  | .finite f => if f.mant = 0 ∧ m ≠ 0 then none else some (.finite f)
  | _ => none

/-- `± m · 10 ^ e` to the nearest double. -/
def ofDecimal (neg : Bool) (m : Nat) (e : Int) : Option Binary64 :=
  inRange m (if 0 ≤ e then Binary64.ofRatio neg (m * 10 ^ e.toNat) 1 else Binary64.ofRatio neg m (10 ^ (-e).toNat))

def Exponent.value (e : Exponent) : Int :=
  if e.sign = some (ascii '-') then -(digitsValue e.digits : Int) else digitsValue e.digits

/-- `std::from_chars` on a scanned numeral: there must be a digit before the exponent, and an exponent without
digits is not read. -/
def Numeral.value (n : Numeral) : Option Binary64 :=
  let frac := n.frac.getD []
  if n.int = [] ∧ frac = [] then none
  else ofDecimal n.minus (digitsValue (n.int ++ frac)) ((n.exp.map Exponent.value).getD 0 - frac.length)

def fromChars (s : Bytes) : Option Binary64 := (scan s).1.value

/-! ## What is scanned -/

/-- What follows does not begin with such a byte. -/
def EndsRun (p : UInt8 → Bool) (t : Bytes) : Prop := ∀ b ∈ t.head?, p b = false

theorem endsRun_cons {p : UInt8 → Bool} {b : UInt8} {t : Bytes} : EndsRun p (b :: t) ↔ p b = false :=
  ⟨fun h => h b rfl, fun h _ hb => Option.mem_some.mp hb ▸ h⟩

theorem takeWhile_run {p : UInt8 → Bool} {run t : Bytes} (hrun : run.all p = true) (ht : EndsRun p t) :
    (run ++ t).takeWhile p = run := by
  rw [List.takeWhile_append_of_pos (List.all_eq_true.mp hrun)]
  cases t with
  | nil => exact List.append_nil _
  | cons b t => rw [List.takeWhile_cons_of_neg (by simp [endsRun_cons.mp ht]), List.append_nil]

theorem dropWhile_run {p : UInt8 → Bool} {run t : Bytes} (hrun : run.all p = true) (ht : EndsRun p t) :
    (run ++ t).dropWhile p = t := by
  rw [List.dropWhile_append_of_pos (List.all_eq_true.mp hrun)]
  cases t with
  | nil => rfl
  | cons b t => rw [List.dropWhile_cons_of_neg (by simp [endsRun_cons.mp ht])]

theorem endsRun_dropWhile (p : UInt8 → Bool) (s : Bytes) : EndsRun p (s.dropWhile p) := by
  induction s with
  | nil => exact fun _ hb => absurd hb nofun
  | cons b s ih =>
    rw [List.dropWhile_cons]
    split
    · exact ih
    · next hb => exact endsRun_cons.mpr (Bool.eq_false_of_not_eq_true hb)

theorem endsRun_append {p : UInt8 → Bool} {run t : Bytes} (hrun : ∀ b ∈ run, p b = false) (ht : EndsRun p t) :
    EndsRun p (run ++ t) := by
  cases run with
  | nil => exact ht
  | cons b run => exact endsRun_cons.mpr (hrun b List.mem_cons_self)

/-- A byte that continues a numeral. -/
def isNumeral (b : UInt8) : Bool := isDigit b || b = ascii '.' || isMarker b || isSign b

theorem isNumeral_eq_false {b : UInt8} : isNumeral b = false ↔
    isDigit b = false ∧ b ≠ ascii '.' ∧ isMarker b = false ∧ isSign b = false := by
  simp [isNumeral, and_assoc]

theorem isMarker_cases {b : UInt8} (h : isMarker b = true) : b = ascii 'e' ∨ b = ascii 'E' := by
  simpa [isMarker] using h

theorem isSign_cases {b : UInt8} (h : isSign b = true) : b = ascii '+' ∨ b = ascii '-' := by
  simpa [isSign] using h

theorem not_isSign_of_isDigit {b : UInt8} (h : isDigit b = true) : isSign b = false := by
  by_contra hs
  rcases isSign_cases (Bool.eq_true_of_not_eq_false hs) with rfl | rfl <;> exact absurd h (by decide)

theorem scanExpSign_cons (b : UInt8) (s : Bytes) :
    scanExpSign (b :: s) = if isSign b then (some b, s) else (none, b :: s) := rfl

theorem scanExp_cons (b : UInt8) (s : Bytes) : scanExp (b :: s) = if isMarker b then
    (some ⟨b, (scanExpSign s).1, (scanExpSign s).2.takeWhile isDigit⟩, (scanExpSign s).2.dropWhile isDigit)
    else (none, b :: s) := rfl

theorem scanFrac_cons (b : UInt8) (s : Bytes) : scanFrac (b :: s) = if b = ascii '.' then
    (some (s.takeWhile isDigit), s.dropWhile isDigit) else (none, b :: s) := rfl

theorem scanSign_cons (b : UInt8) (s : Bytes) :
    scanSign (b :: s) = if b = ascii '-' then (true, s) else (false, b :: s) := rfl

theorem scanExpSign_text {sign : Option UInt8} {s : Bytes} (hsign : ∀ b ∈ sign, isSign b = true)
    (hs : EndsRun isSign s) : scanExpSign (sign.toList ++ s) = (sign, s) := by
  cases sign with
  | none =>
    cases s with
    | nil => rfl
    | cons b s => exact if_neg (by simp [endsRun_cons.mp hs])
  | some b => exact if_pos (hsign b rfl)

theorem scanExp_text {e : Option Exponent} {t : Bytes} (hmarker : ∀ e' ∈ e, isMarker e'.marker = true)
    (hsign : ∀ e' ∈ e, ∀ b ∈ e'.sign, isSign b = true) (hdigits : ∀ e' ∈ e, e'.digits.all isDigit = true)
    (ht : EndsRun isNumeral t) : scanExp (expText e ++ t) = (e, t) := by
  have hends : ∀ p : UInt8 → Bool, (∀ b, isNumeral b = false → p b = false) → EndsRun p t := fun p hp b hb =>
    hp b (ht b hb)
  cases e with
  | none =>
    cases t with
    | nil => rfl
    | cons b t =>
      have hb := isNumeral_eq_false.mp (ht b rfl)
      exact if_neg (by simp [hb.2.2.1])
  | some e =>
    obtain ⟨marker, sign, digits⟩ := e
    have hd : digits.all isDigit = true := hdigits _ rfl
    have hdigit := hends isDigit fun b hb => (isNumeral_eq_false.mp hb).1
    have hnot : EndsRun isSign (digits ++ t) := endsRun_append
      (fun b hb => not_isSign_of_isDigit (List.all_eq_true.mp hd b hb))
      (hends isSign fun b hb => (isNumeral_eq_false.mp hb).2.2.2)
    show scanExp (marker :: ((sign.toList ++ digits) ++ t)) = _
    rw [scanExp_cons, if_pos (hmarker _ rfl), List.append_assoc, scanExpSign_text (hsign _ rfl) hnot,
      takeWhile_run hd hdigit, dropWhile_run hd hdigit]

/-- Before the exponent, and at its end. -/
theorem endsRun_expText {p : UInt8 → Bool} {e : Option Exponent} {t : Bytes}
    (hmarker : ∀ e' ∈ e, isMarker e'.marker = true) (ht : EndsRun isNumeral t)
    (hp : ∀ b, isMarker b = true ∨ isNumeral b = false → p b = false) : EndsRun p (expText e ++ t) := by
  cases e with
  | none => exact fun b hb => hp b (.inr (ht b hb))
  | some e => exact endsRun_cons.mpr (hp _ (.inl (hmarker e rfl)))

theorem scanFrac_text {f : Option Bytes} {s : Bytes} (hdigits : ∀ digits ∈ f, digits.all isDigit = true)
    (hs : EndsRun isDigit s) (hdot : EndsRun (· = ascii '.') s) : scanFrac (fracText f ++ s) = (f, s) := by
  cases f with
  | none =>
    cases s with
    | nil => rfl
    | cons b s => exact if_neg (by simpa using endsRun_cons.mp hdot)
  | some digits =>
    show scanFrac (ascii '.' :: (digits ++ s)) = _
    rw [scanFrac_cons, if_pos rfl, takeWhile_run (hdigits _ rfl) hs, dropWhile_run (hdigits _ rfl) hs]

theorem scanSign_text {minus : Bool} {s : Bytes} (hs : EndsRun (· = ascii '-') s) :
    scanSign (signText minus ++ s) = (minus, s) := by
  cases minus with
  | true =>
    show scanSign (ascii '-' :: s) = _
    rw [scanSign_cons, if_pos rfl]
  | false =>
    cases s with
    | nil => rfl
    | cons b s => exact if_neg (by simpa using endsRun_cons.mp hs)

theorem scan_eq (s : Bytes) : scan s =
    (⟨(scanSign s).1, (scanSign s).2.takeWhile isDigit, (scanFrac ((scanSign s).2.dropWhile isDigit)).1,
      (scanExp (scanFrac ((scanSign s).2.dropWhile isDigit)).2).1⟩,
      (scanExp (scanFrac ((scanSign s).2.dropWhile isDigit)).2).2) := rfl

theorem isDigit_false_of {b : UInt8} (h : isMarker b = true ∨ isNumeral b = false) : isDigit b = false := by
  rcases h with h | h
  · rcases isMarker_cases h with rfl | rfl <;> rfl
  · exact (isNumeral_eq_false.mp h).1

/-- A numeral is scanned whole. -/
theorem scan_text {n : Numeral} {t : Bytes} (hn : n.Scanned) (ht : EndsRun isNumeral t) :
    scan (n.text ++ t) = (n, t) := by
  obtain ⟨minus, int, frac, exp⟩ := n
  have hdot : EndsRun (· = ascii '.') (expText exp ++ t) := endsRun_expText hn.marker ht fun b hb => by
    rcases hb with hb | hb
    · rcases isMarker_cases hb with rfl | rfl <;> rfl
    · exact decide_eq_false (isNumeral_eq_false.mp hb).2.1
  have hdigit : EndsRun isDigit (expText exp ++ t) := endsRun_expText hn.marker ht fun b => isDigit_false_of
  have hfrac : EndsRun isDigit (fracText frac ++ (expText exp ++ t)) := by
    cases frac with
    | none => exact hdigit
    | some digits => exact endsRun_cons.mpr rfl
  have hminus : EndsRun (· = ascii '-') (int ++ (fracText frac ++ (expText exp ++ t))) := by
    refine endsRun_append (fun b hb => decide_eq_false ?_) ?_
    · rintro rfl
      exact absurd (List.all_eq_true.mp hn.int _ hb) (by decide)
    · cases frac with
      | some digits => exact endsRun_cons.mpr rfl
      | none =>
        refine endsRun_expText hn.marker ht fun b hb => decide_eq_false ?_
        rintro rfl
        exact absurd hb (by decide)
  show scan ((signText minus ++ (int ++ (fracText frac ++ expText exp))) ++ t) = _
  rw [scan_eq, List.append_assoc, List.append_assoc, List.append_assoc, scanSign_text hminus,
    takeWhile_run hn.int hfrac, dropWhile_run hn.int hfrac, scanFrac_text hn.frac hdigit hdot,
    scanExp_text hn.marker hn.sign hn.exp ht]

/-! ### What is scanned is a numeral -/

theorem scanSign_eq (s : Bytes) : signText (scanSign s).1 ++ (scanSign s).2 = s := by
  cases s with
  | nil => rfl
  | cons b s =>
    rw [scanSign_cons]
    split
    · next hb => rw [hb]; rfl
    · rfl

theorem scanFrac_eq (s : Bytes) : fracText (scanFrac s).1 ++ (scanFrac s).2 = s ∧
    ∀ digits ∈ (scanFrac s).1, digits.all isDigit = true := by
  cases s with
  | nil => exact ⟨rfl, fun _ h => absurd h nofun⟩
  | cons b s =>
    rw [scanFrac_cons]
    split
    · next hb =>
      refine ⟨?_, fun digits h => Option.mem_some.mp h ▸ List.all_takeWhile⟩
      show ascii '.' :: (s.takeWhile isDigit ++ s.dropWhile isDigit) = _
      rw [List.takeWhile_append_dropWhile, hb]
    · exact ⟨rfl, fun _ h => absurd h nofun⟩

theorem scanExpSign_eq (s : Bytes) : (scanExpSign s).1.toList ++ (scanExpSign s).2 = s ∧
    ∀ b ∈ (scanExpSign s).1, isSign b = true := by
  cases s with
  | nil => exact ⟨rfl, fun _ h => absurd h nofun⟩
  | cons b s =>
    rw [scanExpSign_cons]
    split
    · next hb => exact ⟨rfl, fun _ h => Option.mem_some.mp h ▸ hb⟩
    · exact ⟨rfl, fun _ h => absurd h nofun⟩

theorem scanExp_eq (s : Bytes) : expText (scanExp s).1 ++ (scanExp s).2 = s ∧
    ∀ e ∈ (scanExp s).1, isMarker e.marker = true ∧ (∀ b ∈ e.sign, isSign b = true) ∧
      e.digits.all isDigit = true := by
  cases s with
  | nil => exact ⟨rfl, fun _ h => absurd h nofun⟩
  | cons b s =>
    rw [scanExp_cons]
    split
    · next hb =>
      obtain ⟨heq, hsign⟩ := scanExpSign_eq s
      refine ⟨?_, fun e h => Option.mem_some.mp h ▸ ⟨hb, hsign, List.all_takeWhile⟩⟩
      show b :: (((scanExpSign s).1.toList ++ (scanExpSign s).2.takeWhile isDigit) ++
        (scanExpSign s).2.dropWhile isDigit) = _
      rw [List.append_assoc, List.takeWhile_append_dropWhile, heq]
    · exact ⟨rfl, fun _ h => absurd h nofun⟩

theorem scan_sound (s : Bytes) : (scan s).1.text ++ (scan s).2 = s ∧ (scan s).1.Scanned := by
  rw [scan_eq]
  obtain ⟨hfrac, hfracDigits⟩ := scanFrac_eq ((scanSign s).2.dropWhile isDigit)
  obtain ⟨hexp, hexpParts⟩ := scanExp_eq (scanFrac ((scanSign s).2.dropWhile isDigit)).2
  refine ⟨?_, ⟨List.all_takeWhile, hfracDigits, fun e he => (hexpParts e he).1, fun e he => (hexpParts e he).2.1,
    fun e he => (hexpParts e he).2.2⟩⟩
  show (signText (scanSign s).1 ++ ((scanSign s).2.takeWhile isDigit ++ (fracText _ ++ expText _))) ++ _ = s
  rw [List.append_assoc, List.append_assoc, List.append_assoc, hexp, hfrac, List.takeWhile_append_dropWhile,
    scanSign_eq]

end Pineapple.Json
