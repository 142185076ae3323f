import Pineapple.LookupKey
import Pineapple.ValueRendering

/-! # Values in Java (`GoFormat.sprint`, `GoFormat.formatG`, `TransformRedisGet.buildKeySuffix`)

A request's numbers come in four classes, which Jackson chooses by their spelling and their size. `GoFormat.sprint`
writes values as Go's `fmt` does, and the texts become parts of Redis keys, members and parameters. -/

namespace Pineapple

open Json (Numeral)

/-! ## JSON as a request spells it -/

/-- The UTF-16 code units of a Java string. -/
abbrev Units := List UInt16

/-- A JSON value with its numbers and escapes as they are written. -/
inductive Spelled where
  | null
  | bool (b : Bool)
  | number (n : {n : Numeral // n.Rfc})
  | string (s : Units)
  | array (xs : List Spelled)
  | object (es : List (Units × Spelled))

def utf16Char (c : Char) : Units :=
  let n := c.toNat
  if n < 0x10000 then [UInt16.ofNat n]
  else [UInt16.ofNat (0xD800 + (n - 0x10000) / 0x400), UInt16.ofNat (0xDC00 + (n - 0x10000) % 0x400)]

def utf16 (s : List Char) : Units := s.flatMap utf16Char

/-- An unpaired surrogate is replaced. -/
def unitChar (u : UInt16) : Char :=
  if Json.IsHigh u.toNat ∨ Json.IsLow u.toNat then '\uFFFD' else Char.ofNat u.toNat

/-- `unquoteBytes` of `encoding/json`. -/
def unquote : Units → List Char
  | [] => []
  | [u] => [unitChar u]
  | u :: v :: s =>
    if Json.IsHigh u.toNat ∧ Json.IsLow v.toNat then Char.ofNat (Json.combine u.toNat v.toNat) :: unquote s
    else unitChar u :: unquote (v :: s)

/-- A map's entry is replaced where it is, a new one comes last. -/
def put {κ α : Type} [DecidableEq κ] (k : κ) (v : α) : List (κ × α) → List (κ × α)
  | [] => [(k, v)]
  | (k', v') :: es => if k' = k then (k, v) :: es else (k', v') :: put k v es

namespace Json.Numeral

/-- It has neither a fraction nor an exponent. -/
def IsInteger (n : Numeral) : Prop := n.frac = none ∧ n.exp = none

instance (n : Numeral) : Decidable n.IsInteger := inferInstanceAs (Decidable (_ ∧ _))

def integer (n : Numeral) : Int := if n.minus then -(digitsValue n.int : Int) else digitsValue n.int

/-- The double nearest to the number, infinity where it is too large. -/
def nearest (n : Numeral) : Binary64 :=
  let frac := n.frac.getD []
  NumberText.scaled n.minus 10 (digitsValue (n.int ++ frac), (n.exp.map Exponent.value).getD 0 - frac.length)

end Json.Numeral

/-! ## Values in Go -/

/-- `strconv.ParseFloat` on a numeral: what is too large is an error. -/
def goNumber (n : Numeral) : Option Binary64 :=
  match n.nearest with
  | .finite f => some (.finite f)
  | _ => none

mutual
/-- `encoding/json` into an `any`; of the members of one name the last is kept. -/
def goDecode : Spelled → Option Variant
  | .null => some .null
  | .bool b => some (.bool b)
  | .number n => (goNumber n).map .number
  | .string s => some (.string (String.ofList (unquote s)))
  | .array xs => (goDecodeArray xs).map .array
  | .object es => (goDecodeObject es []).map .object

def goDecodeArray : List Spelled → Option (List Variant)
  | [] => some []
  | x :: xs => do
    let v ← goDecode x
    let vs ← goDecodeArray xs
    return v :: vs

def goDecodeObject : List (Units × Spelled) → (m : List (String × Variant)) → Option (List (String × Variant))
  | [], m => some m
  | (k, x) :: es, m => do
    let v ← goDecode x
    goDecodeObject es (put (String.ofList (unquote k)) v m)
end

/-! ## Values in Java -/

/-- The subclasses of `Number` that Jackson and Lua use. -/
inductive JavaNumber where
  | integer (n : Int32)
  | long (n : Int64)
  | bigInteger (n : Int)
  | double (d : Binary64)
deriving DecidableEq

inductive JavaValue where
  | null
  | bool (b : Bool)
  | number (n : JavaNumber)
  | string (s : Units)
  | list (xs : List JavaValue)
  | map (es : List (Units × JavaValue))

/-- The class that Jackson gives a number. -/
def jacksonNumber (n : Numeral) : JavaNumber :=
  if n.IsInteger then
    if -(int32Bound : Int) ≤ n.integer ∧ n.integer < int32Bound then .integer (Int32.ofInt n.integer)
    else if IsInt64 n.integer then .long (Int64.ofInt n.integer)
    else .bigInteger n.integer
  else .double n.nearest

mutual
/-- `ObjectMapper.readValue` into an `Object`; maps are linked hash maps. -/
def jackson : Spelled → JavaValue
  | .null => .null
  | .bool b => .bool b
  | .number n => .number (jacksonNumber n)
  | .string s => .string s
  | .array xs => .list (jacksonArray xs)
  | .object es => .map (jacksonObject es [])

def jacksonArray : List Spelled → List JavaValue
  | [] => []
  | x :: xs => jackson x :: jacksonArray xs

def jacksonObject : List (Units × Spelled) → (m : List (Units × JavaValue)) → List (Units × JavaValue)
  | [], m => m
  | (k, x) :: es, m => jacksonObject es (put k (jackson x) m)
end

namespace JavaNumber

/-- The double nearest to an integer. -/
def nearestInt (n : Int) : Binary64 := Binary64.ofRatio (decide (n < 0)) n.natAbs 1

/-- `Number.doubleValue`. -/
def doubleValue : JavaNumber → Binary64
  | integer n => nearestInt n.toInt
  | long n => nearestInt n.toInt
  | bigInteger n => nearestInt n
  | double d => d

end JavaNumber

/-! ## `Double.toString` and `toString` -/

/-- `Double.toString` of a finite number. -/
def finiteText (f : FiniteBinary64) : List Char :=
  if f.mant = 0 then signOf f.neg ++ ['0', '.', '0']
  else match doubleToString f with
    | .inl text => text
    | .inr c =>
      let digits := decimal c.1
      signOf f.neg ++ (digits.take 1 ++ '.' :: ((if 1 < digits.length then digits.drop 1 else ['0']) ++
        'E' :: decimalInt (c.2 + digits.length - 1)))

def doubleText : Binary64 → List Char
  | .nan => "NaN".toList
  | .inf neg => signOf neg ++ "Infinity".toList
  | .finite f => finiteText f

def JavaNumber.toText : JavaNumber → List Char
  | integer n => decimalInt n.toInt
  | long n => decimalInt n.toInt
  | bigInteger n => decimalInt n
  | double d => doubleText d

mutual
/-- `String.valueOf`. -/
def JavaValue.toText : JavaValue → Units
  | .null => utf16 "null".toList
  | .bool b => utf16 (if b then "true".toList else "false".toList)
  | .number n => utf16 n.toText
  | .string s => s
  | .list xs => utf16 ['['] ++ List.intercalate (utf16 [',', ' ']) (JavaValue.elementTexts xs) ++ utf16 [']']
  | .map es => utf16 ['{'] ++ List.intercalate (utf16 [',', ' ']) (JavaValue.entryTexts es) ++ utf16 ['}']

def JavaValue.elementTexts : List JavaValue → List Units
  | [] => []
  | x :: xs => x.toText :: elementTexts xs

def JavaValue.entryTexts : List (Units × JavaValue) → List Units
  | [] => []
  | (k, v) :: es => (k ++ (utf16 ['='] ++ v.toText)) :: entryTexts es
end

/-! ## `GoFormat` -/

namespace GoFormat

/-- `replaceAll("0+$", "").replaceAll("\\.$", "")`. -/
def stripZeros (s : List Char) : List Char :=
  let s := (s.reverse.dropWhile (· = '0')).reverse
  if s.getLast? = some '.' then s.dropLast else s

/-- The digits up to the last one that is not a zero; the first digit stays. -/
def significant : List Char → List Char
  | [] => []
  | c :: digits => c :: (digits.reverse.dropWhile (· = '0')).reverse

/-- `Integer.parseInt` of an exponent. -/
def exponentOf (expPart : List Char) : Int :=
  if expPart.head? = some '-' then -(digitsValue (expPart.drop 1) : Int) else digitsValue expPart

/-- `formatG` of a number that is not zero, on its text and its plain text. -/
def formatText (s plainText : List Char) : List Char :=
  if 'E' ∈ s then
    let mantissa := s.takeWhile (· ≠ 'E')
    let expPart := (s.dropWhile (· ≠ 'E')).drop 1
    let expValue := exponentOf expPart
    if -4 ≤ expValue ∧ expValue ≤ 5 then plainText
    else
      let mantissa := if '.' ∈ mantissa then stripZeros mantissa else mantissa
      let neg := expPart.head? = some '-'
      let digits := if neg then expPart.drop 1 else expPart
      let digits := if digits.length < 2 then '0' :: digits else digits
      mantissa ++ 'e' :: (if neg then '-' else '+') :: digits
  else
    let negative := s.head? = some '-'
    let abs := if negative then s.drop 1 else s
    let intPartLen := (abs.takeWhile (· ≠ '.')).length
    if 6 < intPartLen then
      let allDigits := significant (abs.filter (· ≠ '.'))
      let exp := intPartLen - 1
      let mantissaResult := if allDigits.length = 1 then allDigits else allDigits.take 1 ++ '.' :: allDigits.drop 1
      let expStr := if exp < 10 then '0' :: decimal exp else decimal exp
      let result := mantissaResult ++ 'e' :: '+' :: expStr
      if negative then '-' :: result else result
    else if '.' ∈ s then stripZeros s
    else s

/-- `new BigDecimal(Double.toString(d)).stripTrailingZeros().toPlainString()`. -/
def plainString (f : FiniteBinary64) : List Char :=
  let c := javaDigits f
  let digits := decimal c.1
  signOf f.neg ++ Json.plain digits (c.2 + digits.length)

/-- `GoFormat.formatG`. -/
def formatG : Binary64 → List Char
  | .nan => "NaN".toList
  | .inf neg => if neg then "-Inf".toList else "+Inf".toList
  | .finite f =>
    if f.mant = 0 then if f.neg then ['-', '0'] else ['0']
    else formatText (finiteText f) (plainString f)

/-- `d == Math.floor(d) && !Double.isInfinite(d) && Math.abs(d) < 1e6`, with `(long) d`. -/
def smallWhole : Binary64 → Option Int
  | .finite f => if f.IsIntegral ∧ f.truncNat < 10 ^ 6 then some f.toInt else none
  | _ => none

/-- `sprint` on a double or a big integer that is not the negative zero. -/
def sprintDouble (d : Binary64) : List Char :=
  match smallWhole d with
  | some n => decimalInt n
  | none => formatG d

/-- `GoFormat.sprint` on a number. -/
def sprintNumber (n : JavaNumber) : List Char :=
  let d := n.doubleValue
  if d = .negZero then ['-', '0']
  else match n with
    | .integer n => decimalInt n.toInt
    | .long n => decimalInt n.toInt
    | _ => sprintDouble d

mutual
/-- `GoFormat.sprint`. -/
def sprint : JavaValue → Units
  | .null => utf16 "<nil>".toList
  | .bool b => utf16 (if b then "true".toList else "false".toList)
  | .number n => utf16 (sprintNumber n)
  | .string s => s
  | .list xs => utf16 ['['] ++ List.intercalate (utf16 [' ']) (sprintAll xs) ++ utf16 [']']
  | .map es => (JavaValue.map es).toText

def sprintAll : List JavaValue → List Units
  | [] => []
  | x :: xs => sprint x :: sprintAll xs
end

end GoFormat
end Pineapple
