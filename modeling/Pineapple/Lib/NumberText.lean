import Pineapple.Lib.Binary64Ratio

/-! # Numbers in text: the readers of C, Go and Java

Each reader takes a whole text or refuses it. The three share the literals and differ in the white space, the
words, the underscores and the suffixes around them, and in what becomes of a literal past the largest double. -/

namespace NumberText

/-! ## Pieces -/

/-- The sign a text may begin with, and the rest. -/
def signed : List Char → Option Bool × List Char
  | '-' :: s => (some true, s)
  | '+' :: s => (some false, s)
  | s => (none, s)

def isNeg (sign : Option Bool) : Bool := sign = some true

/-- `isspace` in the C locale. -/
def isSpace (c : Char) : Bool := c ∈ [' ', '\t', '\n', '\x0b', '\x0c', '\r']

def lower (s : List Char) : List Char := s.map Char.toLower

def isHexDigit (c : Char) : Bool := c.isDigit || (97 ≤ c.toLower.toNat && c.toLower.toNat ≤ 102)

def hexValue (c : Char) : Nat := if c.isDigit then c.toNat - 48 else c.toLower.toNat - 87

def digitsValue (base : Nat) (value : Char → Nat) (digits : List Char) : Nat :=
  digits.foldl (fun n c => base * n + value c) 0

def decimalValue (digits : List Char) : Nat := digitsValue 10 (fun c => c.toNat - 48) digits

/-! ## Literals -/

/-- The digits after a point, and the rest. -/
def fraction (p : Char → Bool) : List Char → List Char × List Char
  | '.' :: s => (s.takeWhile p, s.dropWhile p)
  | s => ([], s)

/-- An exponent that the rest of the text is, or no rest at all. -/
def exponentPart (marker : Char) (needed : Bool) : List Char → Option Int
  | [] => if needed then none else some 0
  | c :: s =>
    let (sign, digits) := signed s
    if c.toLower = marker ∧ digits ≠ [] ∧ digits.all Char.isDigit then
      some (if isNeg sign then -(decimalValue digits : Int) else decimalValue digits)
    else none

/-- A significand and a decimal exponent. -/
def decimalLiteral (s : List Char) : Option (Nat × Int) :=
  let int := s.takeWhile Char.isDigit
  let (frac, rest) := fraction Char.isDigit (s.dropWhile Char.isDigit)
  if int ++ frac = [] then none
  else (exponentPart 'e' false rest).map fun e => (decimalValue (int ++ frac), e - frac.length)

/-- A significand and a binary exponent, read after `0x`. -/
def hexLiteral (needed : Bool) (s : List Char) : Option (Nat × Int) :=
  let int := s.takeWhile isHexDigit
  let (frac, rest) := fraction isHexDigit (s.dropWhile isHexDigit)
  if int ++ frac = [] then none
  else (exponentPart 'p' needed rest).map fun e => (digitsValue 16 hexValue (int ++ frac), e - 4 * frac.length)

/-- `± m · base ^ e` to the nearest double. -/
def scaled (neg : Bool) (base : Nat) (lit : Nat × Int) : Binary64 :=
  if 0 ≤ lit.2 then Binary64.ofRatio neg (lit.1 * base ^ lit.2.toNat) 1
  else Binary64.ofRatio neg lit.1 (base ^ (-lit.2).toNat)

/-- A text after `0x` or `0X`. -/
def hexPart : List Char → Option (List Char)
  | '0' :: 'x' :: s | '0' :: 'X' :: s => some s
  | _ => none

/-- A literal of either kind, without its sign. -/
def literal (neg needed : Bool) (s : List Char) : Option Binary64 :=
  match hexPart s with
  | some hex => (hexLiteral needed hex).map (scaled neg 2)
  | none => (decimalLiteral s).map (scaled neg 10)

/-! ## Doubles -/

def isInfWord (s : List Char) : Bool := lower s ∈ ["inf".toList, "infinity".toList]

/-- `nan`, or `nan(...)` with letters, digits and underscores between the brackets. -/
def isNanForm (s : List Char) : Bool :=
  lower (s.take 3) = "nan".toList && match s.drop 3 with
    | [] => true
    | '(' :: t => t.getLast? = some ')' && t.dropLast.all fun c => c.isAlphanum || c = '_'
    | _ => false

/-- C's reader after the white space. -/
def strtodBody (s : List Char) : Option Binary64 :=
  let (sign, b) := signed s
  if isInfWord b then some (.inf (isNeg sign))
  else if isNanForm b then some .nan
  else literal (isNeg sign) false b

/-- `strtod` in the C locale, for a text it reads to its end. -/
def strtod (s : List Char) : Option Binary64 := strtodBody (s.dropWhile isSpace)

/-- The loop of Go's `underscoreOK`; `saw` is `0` after a digit or a prefix, `_` after an underscore. -/
def underscoreLoop (hex : Bool) : Char → List Char → Bool
  | saw, [] => saw != '_'
  | saw, c :: s =>
    if c.isDigit || (hex && isHexDigit c) then underscoreLoop hex '0' s
    else if c = '_' then saw == '0' && underscoreLoop hex '_' s
    else saw != '_' && underscoreLoop hex '!' s

def underscoreOK : List Char → Bool
  | '0' :: c :: s =>
    if c.toLower ∈ ['b', 'o', 'x'] then underscoreLoop (c.toLower = 'x') '0' s
    else underscoreLoop false '^' ('0' :: c :: s)
  | s => underscoreLoop false '^' s

/-- Go's `strconv.ParseFloat(s, 64)`. -/
def parseFloat (s : List Char) : Option Binary64 :=
  let (sign, b) := signed s
  if isInfWord b then some (.inf (isNeg sign))
  else if sign = none ∧ lower b = "nan".toList then some .nan
  else if underscoreOK b then (literal (isNeg sign) true (b.filter (· ≠ '_'))).filter Binary64.isFinite
  else none

/-- `String.trim`. -/
def trim (s : List Char) : List Char :=
  let blank (c : Char) : Bool := c.toNat ≤ 32
  ((s.dropWhile blank).reverse.dropWhile blank).reverse

/-- The text without a type suffix. -/
def dropSuffix (s : List Char) : List Char :=
  match s.getLast? with
  | some c => if c ∈ ['f', 'F', 'd', 'D'] then s.dropLast else s
  | none => s

/-- Java's reader after `trim`. -/
def parseDoubleBody (s : List Char) : Option Binary64 :=
  let (sign, b) := signed s
  if b = "NaN".toList then some .nan
  else if b = "Infinity".toList then some (.inf (isNeg sign))
  else literal (isNeg sign) true (dropSuffix b)

/-- Java's `Double.parseDouble`. -/
def parseDouble (s : List Char) : Option Binary64 := parseDoubleBody (trim s)

/-! ## Integers -/

/-- The value of digits under a sign, if it fits into 64 bits. -/
def int64Of (neg : Bool) (n : Nat) : Option Int :=
  let v : Int := if neg then -n else n
  if -9223372036854775808 ≤ v ∧ v < 9223372036854775808 then some v else none

/-- Go's `strconv.ParseInt(s, 10, 64)`. -/
def parseInt (s : List Char) : Option Int :=
  let (sign, digits) := signed s
  if digits ≠ [] ∧ digits.all Char.isDigit then int64Of (isNeg sign) (decimalValue digits) else none

/-- `strtoll` in base 10, for a text it reads to its end within the range. -/
def strtoll (s : List Char) : Option Int := parseInt (s.dropWhile isSpace)

/-- The zeros of the decimal digits among the characters a Java `char` can be. -/
def digitZeros : List Nat :=
  [0x30, 0x660, 0x6f0, 0x7c0, 0x966, 0x9e6, 0xa66, 0xae6, 0xb66, 0xbe6, 0xc66, 0xce6, 0xd66, 0xde6, 0xe50, 0xed0,
    0xf20, 0x1040, 0x1090, 0x17e0, 0x1810, 0x1946, 0x19d0, 0x1a80, 0x1a90, 0x1b50, 0x1bb0, 0x1c40, 0x1c50, 0xa620,
    0xa8d0, 0xa900, 0xa9d0, 0xa9f0, 0xaa50, 0xabf0, 0xff10]

/-- `Character.digit` in base 10. -/
def characterDigit (c : Char) : Option Nat :=
  (digitZeros.find? fun z => z ≤ c.toNat && c.toNat ≤ z + 9).map (c.toNat - ·)

/-- Java's `Long.parseLong`. -/
def parseLong (s : List Char) : Option Int :=
  let (sign, digits) := signed s
  if digits ≠ [] ∧ digits.all fun c => (characterDigit c).isSome then
    int64Of (isNeg sign) (digitsValue 10 (fun c => (characterDigit c).getD 0) digits)
  else none

/-! ## Characters -/

theorem of_all {p : Char → Prop} [DecidablePred p] {l : List Char} (h : (l.all fun c => decide (p c)) = true) :
    ∀ c ∈ l, p c := fun c hc => of_decide_eq_true (List.all_eq_true.mp h c hc)

theorem toNat_toLower (c : Char) : c.toLower.toNat = if 65 ≤ c.toNat ∧ c.toNat ≤ 90 then c.toNat + 32 else c.toNat := by
  unfold Char.toLower
  split
  · next h =>
    have h1 : 65 ≤ c.toNat := h.1
    have h2 : c.toNat ≤ 90 := h.2
    rw [if_pos ⟨h1, h2⟩]
    show (c.val + 32).toNat = c.val.toNat + 32
    have : c.val.toNat ≤ 90 := h2
    rw [UInt32.toNat_add]
    simp
    omega
  · next h =>
    rw [if_neg]
    rintro ⟨h1, h2⟩
    exact h ⟨h1, h2⟩

theorem isDigit_iff {c : Char} : c.isDigit = true ↔ 48 ≤ c.toNat ∧ c.toNat ≤ 57 := by
  simp only [Char.isDigit, Bool.and_eq_true, decide_eq_true_eq]
  exact Iff.rfl

/-- No blank and no underscore. -/
def Inked (c : Char) : Prop := 32 < c.toNat ∧ c ≠ '_'

theorem ne_underscore {c : Char} (h : c.toNat ≠ 95) : c ≠ '_' := by
  rintro rfl
  exact h rfl

theorem inked_of_isDigit {c : Char} (h : c.isDigit = true) : Inked c := by
  rw [isDigit_iff] at h
  exact ⟨by omega, ne_underscore (by omega)⟩

theorem inked_of_toLower {c : Char} (h : 97 ≤ c.toLower.toNat ∧ c.toLower.toNat ≤ 122) : Inked c := by
  rw [toNat_toLower] at h
  split at h
  · exact ⟨by omega, ne_underscore (by omega)⟩
  · exact ⟨by omega, ne_underscore (by omega)⟩

theorem inked_of_isHexDigit {c : Char} (h : isHexDigit c = true) : Inked c := by
  unfold isHexDigit at h
  rcases Bool.or_eq_true_iff.mp h with h | h
  · exact inked_of_isDigit h
  · simp only [Bool.and_eq_true, decide_eq_true_eq] at h
    exact inked_of_toLower ⟨h.1, by omega⟩

/-! ## Signs -/

theorem signed_text (s : List Char) : ∃ pre, s = pre ++ (signed s).2 ∧ ((signed s).1 = none → pre = []) ∧
    ∀ c ∈ pre, c = '+' ∨ c = '-' := by
  unfold signed
  split
  · exact ⟨['-'], rfl, nofun, fun c hc => Or.inr (List.mem_singleton.mp hc)⟩
  · exact ⟨['+'], rfl, nofun, fun c hc => Or.inl (List.mem_singleton.mp hc)⟩
  · exact ⟨[], rfl, fun _ => rfl, nofun⟩

theorem signed_plain {s : List Char} (hminus : ∀ t, s ≠ '-' :: t) (hplus : ∀ t, s ≠ '+' :: t) :
    signed s = (none, s) := by
  unfold signed
  split
  · exact absurd rfl (hminus _)
  · exact absurd rfl (hplus _)
  · rfl

theorem inked_of_sign {c : Char} (h : c = '+' ∨ c = '-') : Inked c := by
  rcases h with rfl | rfl <;> exact ⟨by decide, by decide⟩

/-! ## The texts of literals -/

theorem exponentPart_text {marker : Char} {needed : Bool} {s : List Char} {e : Int}
    (h : exponentPart marker needed s = some e) : (s = [] ∧ needed = false) ∨
      ∃ c pre digits, s = c :: (pre ++ digits) ∧ c.toLower = marker ∧ (∀ c ∈ pre, c = '+' ∨ c = '-') ∧
        digits ≠ [] ∧ digits.all Char.isDigit = true := by
  cases s with
  | nil =>
    unfold exponentPart at h
    cases needed with
    | true => exact absurd h nofun
    | false => exact Or.inl ⟨rfl, rfl⟩
  | cons c s =>
    right
    unfold exponentPart at h
    dsimp only at h
    split at h
    · next hc =>
      obtain ⟨pre, hpre, -, hsign⟩ := signed_text s
      exact ⟨c, pre, (signed s).2, congrArg (c :: ·) hpre, hc.1, hsign, hc.2.1, hc.2.2⟩
    · exact absurd h nofun

/-- A significand's digits around a point, and the rest. -/
theorem fraction_text (p : Char → Bool) (s : List Char) : ∃ point,
    s = point ++ ((fraction p s).1 ++ (fraction p s).2) ∧ (point = [] ∧ (fraction p s).1 = [] ∨ point = ['.']) ∧
      (fraction p s).1.all p = true := by
  unfold fraction
  split
  · next s => exact ⟨['.'], congrArg ('.' :: ·) List.takeWhile_append_dropWhile.symm, Or.inr rfl, List.all_takeWhile⟩
  · exact ⟨[], rfl, Or.inl ⟨rfl, rfl⟩, rfl⟩

/-- A text that a literal's pieces make up. -/
structure Pieces (p : Char → Bool) (marker : Char) (needed : Bool) (s : List Char) (e : Int) (int point frac exp : List Char) :
    Prop where
  text : s = int ++ (point ++ (frac ++ exp))
  intRun : int.all p = true
  pointed : point = [] ∧ frac = [] ∨ point = ['.']
  fracRun : frac.all p = true
  nonempty : int ++ frac ≠ []
  exponent : exponentPart marker needed exp = some e

theorem pieces {p : Char → Bool} {marker : Char} {needed : Bool} {s : List Char} {e : Int}
    (hsome : s.takeWhile p ++ (fraction p (s.dropWhile p)).1 ≠ [])
    (he : exponentPart marker needed (fraction p (s.dropWhile p)).2 = some e) :
    ∃ point, Pieces p marker needed s e (s.takeWhile p) point (fraction p (s.dropWhile p)).1
      (fraction p (s.dropWhile p)).2 := by
  obtain ⟨point, htext, hpoint, hfrac⟩ := fraction_text p (s.dropWhile p)
  refine ⟨point, ?_, List.all_takeWhile, hpoint, hfrac, hsome, he⟩
  rw [← htext, List.takeWhile_append_dropWhile]

theorem decimalLiteral_pieces {s : List Char} {lit : Nat × Int} (h : decimalLiteral s = some lit) :
    ∃ int point frac exp e, Pieces Char.isDigit 'e' false s e int point frac exp ∧
      lit = (decimalValue (int ++ frac), e - (frac.length : Int)) := by
  unfold decimalLiteral at h
  dsimp only at h
  split at h
  · exact absurd h nofun
  · next hsome =>
    obtain ⟨e, he, rfl⟩ := Option.map_eq_some_iff.mp h
    obtain ⟨point, hp⟩ := pieces hsome he
    exact ⟨_, point, _, _, e, hp, rfl⟩

theorem hexLiteral_pieces {needed : Bool} {s : List Char} {lit : Nat × Int} (h : hexLiteral needed s = some lit) :
    ∃ int point frac exp e, Pieces isHexDigit 'p' needed s e int point frac exp ∧
      lit = (digitsValue 16 hexValue (int ++ frac), e - 4 * (frac.length : Int)) := by
  unfold hexLiteral at h
  dsimp only at h
  split at h
  · exact absurd h nofun
  · next hsome =>
    obtain ⟨e, he, rfl⟩ := Option.map_eq_some_iff.mp h
    obtain ⟨point, hp⟩ := pieces hsome he
    exact ⟨_, point, _, _, e, hp, rfl⟩

namespace Pieces
variable {p : Char → Bool} {marker : Char} {needed : Bool} {s int point frac exp : List Char} {e : Int}

theorem inked (h : Pieces p marker needed s e int point frac exp) (hp : ∀ c, p c = true → Inked c)
    (hm : 97 ≤ marker.toNat ∧ marker.toNat ≤ 122) : ∀ c ∈ s, Inked c := by
  have hexp : ∀ c ∈ exp, Inked c := by
    rcases exponentPart_text h.exponent with ⟨rfl, -⟩ | ⟨c, pre, digits, rfl, hc, hpre, -, hdigits⟩
    · exact nofun
    · intro d hd
      rcases List.mem_cons.mp hd with rfl | hd
      · exact inked_of_toLower (by rw [hc]; exact hm)
      · rcases List.mem_append.mp hd with hd | hd
        · exact inked_of_sign (hpre d hd)
        · exact inked_of_isDigit (List.all_eq_true.mp hdigits d hd)
  rw [h.text]
  intro c hc
  rcases List.mem_append.mp hc with hc | hc
  · exact hp c (List.all_eq_true.mp h.intRun c hc)
  · rcases List.mem_append.mp hc with hc | hc
    · rcases h.pointed with ⟨hnil, -⟩ | hdot
      · rw [hnil] at hc
        exact absurd hc List.not_mem_nil
      · rw [hdot] at hc
        rw [List.mem_singleton.mp hc]
        exact ⟨by decide, by decide⟩
    · rcases List.mem_append.mp hc with hc | hc
      · exact hp c (List.all_eq_true.mp h.fracRun c hc)
      · exact hexp c hc

/-- A literal's text begins with a digit or the point. -/
theorem head (h : Pieces p marker needed s e int point frac exp) : ∃ c t, s = c :: t ∧ (p c = true ∨ c = '.') := by
  cases hint : int with
  | cons c t =>
    have hall := h.intRun
    rw [hint] at hall
    refine ⟨c, t ++ (point ++ (frac ++ exp)), ?_, Or.inl (List.all_eq_true.mp hall c List.mem_cons_self)⟩
    rw [h.text, hint]
    rfl
  | nil =>
    rcases h.pointed with ⟨-, hfrac⟩ | hdot
    · exact absurd (by rw [hint, hfrac]; rfl) h.nonempty
    · refine ⟨'.', frac ++ exp, ?_, Or.inr rfl⟩
      rw [h.text, hint, hdot]
      rfl

/-- Its last character is an exponent's digit, or one of its own digits, or the point. -/
theorem last (h : Pieces p marker needed s e int point frac exp) : ∃ c, s.getLast? = some c ∧
    (c.isDigit = true ∨ needed = false ∧ (p c = true ∨ c = '.')) := by
  rcases exponentPart_text h.exponent with ⟨hnil, hneeded⟩ | ⟨c, pre, digits, hexp, -, -, hne, hdigits⟩
  · have hne : s ≠ [] := by
      obtain ⟨c, t, hs, -⟩ := h.head
      rw [hs]
      exact List.cons_ne_nil c t
    obtain ⟨c, hc⟩ := Option.ne_none_iff_exists'.mp (mt List.getLast?_eq_none_iff.mp hne)
    refine ⟨c, hc, Or.inr ⟨hneeded, ?_⟩⟩
    have hmem := List.mem_of_getLast? hc
    rw [h.text, hnil] at hmem
    rcases List.mem_append.mp hmem with hm | hm
    · exact Or.inl (List.all_eq_true.mp h.intRun c hm)
    · rcases List.mem_append.mp hm with hm | hm
      · rcases h.pointed with ⟨hp, -⟩ | hp
        · rw [hp] at hm
          exact absurd hm List.not_mem_nil
        · rw [hp] at hm
          exact Or.inr (List.mem_singleton.mp hm)
      · rw [List.append_nil] at hm
        exact Or.inl (List.all_eq_true.mp h.fracRun c hm)
  · obtain ⟨d, hd⟩ := Option.ne_none_iff_exists'.mp (mt List.getLast?_eq_none_iff.mp hne)
    refine ⟨d, ?_, Or.inl (List.all_eq_true.mp hdigits d (List.mem_of_getLast? hd))⟩
    rw [h.text, hexp]
    simp only [List.getLast?_append, List.getLast?_cons, hd]
    simp

end Pieces

theorem hexPart_text {b hex : List Char} (h : hexPart b = some hex) : ∃ x, (x = 'x' ∨ x = 'X') ∧ b = '0' :: x :: hex := by
  unfold hexPart at h
  split at h
  · next s => exact ⟨'x', Or.inl rfl, by rw [Option.some.inj h]⟩
  · next s => exact ⟨'X', Or.inr rfl, by rw [Option.some.inj h]⟩
  · exact absurd h nofun

theorem exponentPart_mono {marker : Char} {s : List Char} {e : Int} (h : exponentPart marker true s = some e) :
    exponentPart marker false s = some e := by
  cases s with
  | nil => exact absurd h nofun
  | cons c s => exact h

/-- Where an exponent is not needed, one may be there. -/
theorem hexLiteral_mono {s : List Char} {lit : Nat × Int} (h : hexLiteral true s = some lit) :
    hexLiteral false s = some lit := by
  unfold hexLiteral at h ⊢
  dsimp only at h ⊢
  split
  · next hnil => rw [if_pos hnil] at h; exact absurd h nofun
  · next hnil =>
    rw [if_neg hnil] at h
    obtain ⟨e, he, rfl⟩ := Option.map_eq_some_iff.mp h
    exact Option.map_eq_some_iff.mpr ⟨e, exponentPart_mono he, rfl⟩

section Literal
variable {neg needed : Bool} {b : List Char} {v : Binary64}

theorem literal_cases (h : literal neg needed b = some v) :
    (∃ hex lit, hexPart b = some hex ∧ hexLiteral needed hex = some lit ∧ v = scaled neg 2 lit) ∨
      ∃ lit, hexPart b = none ∧ decimalLiteral b = some lit ∧ v = scaled neg 10 lit := by
  unfold literal at h
  split at h
  · next hex hhex =>
    obtain ⟨lit, hlit, rfl⟩ := Option.map_eq_some_iff.mp h
    exact Or.inl ⟨hex, lit, hhex, hlit, rfl⟩
  · next hhex =>
    obtain ⟨lit, hlit, rfl⟩ := Option.map_eq_some_iff.mp h
    exact Or.inr ⟨lit, hhex, hlit, rfl⟩

theorem literal_inked (h : literal neg needed b = some v) : ∀ c ∈ b, Inked c := by
  rcases literal_cases h with ⟨hex, lit, hhex, hlit, -⟩ | ⟨lit, -, hlit, -⟩
  · obtain ⟨x, hx, rfl⟩ := hexPart_text hhex
    obtain ⟨int, point, frac, exp, e, hp, -⟩ := hexLiteral_pieces hlit
    intro c hc
    rcases List.mem_cons.mp hc with rfl | hc
    · exact ⟨by decide, by decide⟩
    · rcases List.mem_cons.mp hc with rfl | hc
      · rcases hx with rfl | rfl <;> exact ⟨by decide, by decide⟩
      · exact hp.inked (fun _ => inked_of_isHexDigit) (by decide) c hc
  · obtain ⟨int, point, frac, exp, e, hp, -⟩ := decimalLiteral_pieces hlit
    exact hp.inked (fun _ => inked_of_isDigit) (by decide)

theorem literal_head (h : literal neg needed b = some v) : ∃ c t, b = c :: t ∧ c.toNat ≤ 57 := by
  rcases literal_cases h with ⟨hex, lit, hhex, -, -⟩ | ⟨lit, -, hlit, -⟩
  · obtain ⟨x, -, rfl⟩ := hexPart_text hhex
    exact ⟨'0', x :: hex, rfl, by decide⟩
  · obtain ⟨int, point, frac, exp, e, hp, -⟩ := decimalLiteral_pieces hlit
    obtain ⟨c, t, hb, hc⟩ := hp.head
    refine ⟨c, t, hb, ?_⟩
    rcases hc with hc | rfl
    · exact (isDigit_iff.mp hc).2
    · decide

theorem dropSuffix_of_last {c : Char} (hlast : b.getLast? = some c) (hc : c.toNat ≤ 57) : dropSuffix b = b := by
  unfold dropSuffix
  rw [hlast]
  refine if_neg fun hmem => ?_
  have hbig : ∀ d ∈ ['f', 'F', 'd', 'D'], 57 < d.toNat := of_all (by decide)
  have := hbig c hmem
  omega

/-- A literal without a suffix does not end like one with a suffix. -/
theorem literal_dropSuffix (h : literal neg true b = some v) : dropSuffix b = b := by
  rcases literal_cases h with ⟨hex, lit, hhex, hlit, -⟩ | ⟨lit, -, hlit, -⟩
  · obtain ⟨x, -, rfl⟩ := hexPart_text hhex
    obtain ⟨int, point, frac, exp, e, hp, -⟩ := hexLiteral_pieces hlit
    obtain ⟨c, hlast, hc⟩ := hp.last
    have hdigit : c.isDigit = true := hc.resolve_right fun hfalse => absurd hfalse.1 nofun
    refine dropSuffix_of_last (c := c) ?_ (isDigit_iff.mp hdigit).2
    rw [List.getLast?_cons, List.getLast?_cons, hlast]
    rfl
  · obtain ⟨int, point, frac, exp, e, hp, -⟩ := decimalLiteral_pieces hlit
    obtain ⟨c, hlast, hc⟩ := hp.last
    refine dropSuffix_of_last hlast ?_
    rcases hc with hc | ⟨-, hc | rfl⟩
    · exact (isDigit_iff.mp hc).2
    · exact (isDigit_iff.mp hc).2
    · decide

theorem literal_mono (h : literal neg true b = some v) : literal neg false b = some v := by
  unfold literal
  rcases literal_cases h with ⟨hex, lit, hhex, hlit, rfl⟩ | ⟨lit, hhex, hlit, rfl⟩
  · rw [hhex]
    exact Option.map_eq_some_iff.mpr ⟨lit, hexLiteral_mono hlit, rfl⟩
  · rw [hhex]
    exact Option.map_eq_some_iff.mpr ⟨lit, hlit, rfl⟩

end Literal

/-! ## Words -/

theorem letter_of_lower {w s : List Char} (hw : ∀ c ∈ w, 97 ≤ c.toNat ∧ c.toNat ≤ 122) (h : lower s = w) :
    ∀ c ∈ s, 97 ≤ c.toLower.toNat ∧ c.toLower.toNat ≤ 122 := by
  intro c hc
  refine hw c.toLower ?_
  rw [← h]
  exact List.mem_map_of_mem hc

theorem head_of_lower {w s : List Char} (hw : ∀ c ∈ w, 97 ≤ c.toNat ∧ c.toNat ≤ 122) (h : lower s = w) :
    ∀ c t, s = c :: t → 57 < c.toNat := by
  rintro c t rfl
  have := letter_of_lower hw h c List.mem_cons_self
  rw [toNat_toLower] at this
  split at this <;> omega

theorem isInfWord_iff {s : List Char} : isInfWord s = true ↔ lower s = "inf".toList ∨ lower s = "infinity".toList := by
  unfold isInfWord
  simp

theorem isInfWord_letters {s : List Char} (h : isInfWord s = true) :
    ∀ c ∈ s, 97 ≤ c.toLower.toNat ∧ c.toLower.toNat ≤ 122 := by
  rcases isInfWord_iff.mp h with h | h
  · exact letter_of_lower (of_all (by decide)) h
  · exact letter_of_lower (of_all (by decide)) h

theorem letter_not_low {c : Char} (h : 97 ≤ c.toLower.toNat) : 57 < c.toNat := by
  rw [toNat_toLower] at h
  split at h <;> omega

theorem isNanForm_take {s : List Char} (h : isNanForm s = true) :
    ∃ a b c t, s = a :: b :: c :: t ∧ lower [a, b, c] = "nan".toList ∧
      (t = [] ∨ ∃ u, t = '(' :: (u ++ [')']) ∧ ∀ d ∈ u, d.isAlphanum = true ∨ d = '_') := by
  unfold isNanForm at h
  rw [Bool.and_eq_true, decide_eq_true_eq] at h
  obtain ⟨hlower, hrest⟩ := h
  have hlen : (s.take 3).length = 3 := by
    have := congrArg List.length hlower
    unfold lower at this
    rw [List.length_map] at this
    exact this
  match s, hlen with
  | a :: b :: c :: t, _ =>
    refine ⟨a, b, c, t, rfl, hlower, ?_⟩
    rw [show (a :: b :: c :: t).drop 3 = t from rfl] at hrest
    split at hrest
    · exact Or.inl rfl
    · next u _ =>
      rw [Bool.and_eq_true, decide_eq_true_eq] at hrest
      obtain ⟨hlast, hall⟩ := hrest
      refine Or.inr ⟨u.dropLast, ?_, ?_⟩
      · obtain ⟨ys, rfl⟩ := List.getLast?_eq_some_iff.mp hlast
        rw [List.dropLast_concat]
      · intro d hd
        have := List.all_eq_true.mp hall d hd
        rw [Bool.or_eq_true, decide_eq_true_eq] at this
        exact this
    · exact absurd hrest Bool.false_ne_true

end NumberText
