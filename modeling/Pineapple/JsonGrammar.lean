import Pineapple.JsonNumber

/-! # JSON texts

Values, the parts of a string and the grammar. The grammar's lexicon says which bytes are blank and which numerals and
string parts there are; `rfc` is that of RFC 8259. A judgement says what a text begins with, and what is left. -/

namespace Pineapple.Json

/-- `Variant`, its strings as the bytes a `std::string` holds. -/
inductive Value where
  | null
  | bool (b : Bool)
  | number (d : Binary64)
  | string (s : Bytes)
  | array (xs : List Value)
  | object (es : List (Bytes × Value))

/-- `operator<` of `std::string`. -/
def keyLess (a b : Bytes) : Bool := decide (a.map UInt8.toNat < b.map UInt8.toNat)

/-- `FlatMap::emplace`: an entry that is there stays. -/
def emplace (key : Bytes) (v : Value) : List (Bytes × Value) → List (Bytes × Value)
  | [] => [(key, v)]
  | e :: es =>
    if keyLess e.1 key then e :: emplace key v es
    else if e.1 = key then e :: es
    else (key, v) :: e :: es

def emplaceAll (object es : List (Bytes × Value)) : List (Bytes × Value) :=
  es.foldl (fun object e => emplace e.1 e.2 object) object

/-! ## Escapes -/

def simpleEscape (esc : UInt8) : Option UInt8 :=
  if esc = ascii '"' then some (ascii '"')
  else if esc = ascii '\\' then some (ascii '\\')
  else if esc = ascii '/' then some (ascii '/')
  else if esc = ascii 'b' then some 8
  else if esc = ascii 'f' then some 12
  else if esc = ascii 'n' then some 10
  else if esc = ascii 'r' then some 13
  else if esc = ascii 't' then some 9
  else none

def hexDigit (h : UInt8) : Option Nat :=
  if 48 ≤ h.toNat ∧ h.toNat ≤ 57 then some (h.toNat - 48)
  else if 97 ≤ h.toNat ∧ h.toNat ≤ 102 then some (h.toNat - 97 + 10)
  else if 65 ≤ h.toNat ∧ h.toNat ≤ 70 then some (h.toNat - 65 + 10)
  else none

def hex4 (a b c d : UInt8) : Option Nat := do
  let a ← hexDigit a
  let b ← hexDigit b
  let c ← hexDigit c
  let d ← hexDigit d
  return ((a <<< 4 ||| b) <<< 4 ||| c) <<< 4 ||| d

def IsHigh (cp : Nat) : Prop := 0xD800 ≤ cp ∧ cp ≤ 0xDBFF

def IsLow (cp : Nat) : Prop := 0xDC00 ≤ cp ∧ cp ≤ 0xDFFF

instance (cp : Nat) : Decidable (IsHigh cp) := inferInstanceAs (Decidable (_ ∧ _))

instance (cp : Nat) : Decidable (IsLow cp) := inferInstanceAs (Decidable (_ ∧ _))

def combine (hi lo : Nat) : Nat := 0x10000 + ((hi - 0xD800) <<< 10) + (lo - 0xDC00)

/-- What the parser appends for a code point. -/
def utf8 (cp : Nat) : Bytes :=
  if cp < 0x80 then [cp.toUInt8]
  else if cp < 0x800 then [(0xC0 ||| cp >>> 6).toUInt8, (0x80 ||| cp &&& 0x3F).toUInt8]
  else if cp < 0x10000 then
    [(0xE0 ||| cp >>> 12).toUInt8, (0x80 ||| (cp >>> 6) &&& 0x3F).toUInt8, (0x80 ||| cp &&& 0x3F).toUInt8]
  else
    [(0xF0 ||| cp >>> 18).toUInt8, (0x80 ||| (cp >>> 12) &&& 0x3F).toUInt8, (0x80 ||| (cp >>> 6) &&& 0x3F).toUInt8,
      (0x80 ||| cp &&& 0x3F).toUInt8]

/-! ## The grammar -/

structure Lexicon where
  blank : UInt8 → Prop
  number : Numeral → Prop
  /-- a part of a string that is not escaped -/
  raw : Bytes → Prop
  /-- the escape of a high surrogate may stand without one of a low surrogate after it -/
  unpaired : Prop

inductive Blanks (g : Lexicon) : Bytes → Bytes → Prop
  | nil {t} : Blanks g t t
  | cons {b s t} : g.blank b → Blanks g s t → Blanks g (b :: s) t

/-- The escape of a low surrogate comes next. -/
def StartsLow (s : Bytes) : Prop := ∃ a b c d t cp, s = ascii '\\' :: ascii 'u' :: a :: b :: c :: d :: t ∧
  hex4 a b c d = some cp ∧ IsLow cp

/-- The rest of a string, the closing quote included, and the bytes it stands for. -/
inductive Chars (g : Lexicon) : Bytes → Bytes → Bytes → Prop
  | close {t} : Chars g (ascii '"' :: t) [] t
  | raw {p s out t} : g.raw p → Chars g s out t → Chars g (p ++ s) (p ++ out) t
  | escape {esc b s out t} : simpleEscape esc = some b → Chars g s out t →
      Chars g (ascii '\\' :: esc :: s) (b :: out) t
  | unicode {a b c d cp s out t} : hex4 a b c d = some cp → ¬ IsHigh cp → Chars g s out t →
      Chars g (ascii '\\' :: ascii 'u' :: a :: b :: c :: d :: s) (utf8 cp ++ out) t
  | pair {a b c d hi a' b' c' d' lo s out t} : hex4 a b c d = some hi → IsHigh hi → hex4 a' b' c' d' = some lo →
      IsLow lo → Chars g s out t →
      Chars g (ascii '\\' :: ascii 'u' :: a :: b :: c :: d :: ascii '\\' :: ascii 'u' :: a' :: b' :: c' :: d' :: s)
        (utf8 (combine hi lo) ++ out) t
  | unpaired {a b c d cp s out t} : g.unpaired → hex4 a b c d = some cp → IsHigh cp → ¬ StartsLow s →
      Chars g s out t → Chars g (ascii '\\' :: ascii 'u' :: a :: b :: c :: d :: s) (utf8 cp ++ out) t

mutual

inductive IsValue (g : Lexicon) : Bytes → Value → Bytes → Prop
  | null {t} : IsValue g (token "null" ++ t) .null t
  | true {t} : IsValue g (token "true" ++ t) (.bool true) t
  | false {t} : IsValue g (token "false" ++ t) (.bool false) t
  | number {n d t} : g.number n → n.value = some d → IsValue g (n.text ++ t) (.number d) t
  | string {s out t} : Chars g s out t → IsValue g (ascii '"' :: s) (.string out) t
  | emptyArray {s t} : Blanks g s (ascii ']' :: t) → IsValue g (ascii '[' :: s) (.array []) t
  | array {s xs t} : IsElements g s xs t → IsValue g (ascii '[' :: s) (.array xs) t
  | emptyObject {s t} : Blanks g s (ascii '}' :: t) → IsValue g (ascii '{' :: s) (.object []) t
  | object {s es t} : IsMembers g s es t → IsValue g (ascii '{' :: s) (.object (emplaceAll [] es)) t

/-- The elements of an array, the closing bracket included. -/
inductive IsElements (g : Lexicon) : Bytes → List Value → Bytes → Prop
  | last {s s' v t t'} : Blanks g s s' → IsValue g s' v t → Blanks g t (ascii ']' :: t') → IsElements g s [v] t'
  | more {s s' v t t' vs t''} : Blanks g s s' → IsValue g s' v t → Blanks g t (ascii ',' :: t') →
      IsElements g t' vs t'' → IsElements g s (v :: vs) t''

/-- The members of an object, the closing brace included. -/
inductive IsMembers (g : Lexicon) : Bytes → List (Bytes × Value) → Bytes → Prop
  | last {s e t t'} : IsMember g s e t → Blanks g t (ascii '}' :: t') → IsMembers g s [e] t'
  | more {s e t t' es t''} : IsMember g s e t → Blanks g t (ascii ',' :: t') → IsMembers g t' es t'' →
      IsMembers g s (e :: es) t''

inductive IsMember (g : Lexicon) : Bytes → Bytes × Value → Bytes → Prop
  | mk {s k key r r' s' v t} : Blanks g s (ascii '"' :: k) → Chars g k key r → Blanks g r (ascii ':' :: r') →
      Blanks g r' s' → IsValue g s' v t → IsMember g s (key, v) t

end

def IsText (g : Lexicon) (s : Bytes) (v : Value) : Prop := ∃ s' t, Blanks g s s' ∧ IsValue g s' v t ∧ Blanks g t []

/-! ## RFC 8259 -/

structure Numeral.Rfc (n : Numeral) : Prop where
  scanned : n.Scanned
  int : n.int = [ascii '0'] ∨ ∃ b digits, n.int = b :: digits ∧ b ≠ ascii '0'
  frac : n.frac ≠ some []
  exp : ∀ e ∈ n.exp, e.digits ≠ []

def rfc : Lexicon where
  blank b := b = 0x20 ∨ b = 0x09 ∨ b = 0x0A ∨ b = 0x0D
  number := Numeral.Rfc
  raw p := ∃ c : Char, 0x20 ≤ c.toNat ∧ c ≠ '"' ∧ c ≠ '\\' ∧ p = String.utf8EncodeChar c
  unpaired := True

/-- The escapes of high surrogates in pairs only. -/
def Lexicon.pairsOnly (g : Lexicon) : Lexicon := { g with unpaired := False }

end Pineapple.Json
