import Pineapple.Template
import Pineapple.Lib.NumberReaders

/-! # Coercing a text in the three engines (`template.cpp`, `template.go`, `TemplateResolver.java`)

The number readers are those of the languages' libraries. -/

namespace Binary64

/-- The value is the integer, and nothing was rounded off. -/
def IsInt (d : Binary64) (n : Int) : Prop := ∃ f, d = .finite f ∧ f.IsIntegral ∧ f.toInt = n

/-- The double nearest to an integer is that integer where any double is. -/
theorem ofInt_isInt {n : Int} : (ofInt n).IsInt n ↔ ∃ f : FiniteBinary64, f.IsIntegral ∧ f.toInt = n := by
  constructor
  · rintro ⟨f, -, hf, hn⟩
    exact ⟨f, hf, hn⟩
  · rintro ⟨f, hf, rfl⟩
    by_cases h0 : f = .zero true
    · subst h0
      rw [FiniteBinary64.toInt_zero]
      exact ⟨.zero false, rfl, Or.inr (dvd_zero _), FiniteBinary64.toInt_zero false⟩
    · exact ⟨f, FiniteBinary64.ofInt_toInt hf h0, hf, rfl⟩

end Binary64

namespace Pineapple

/-! ## The engines -/

/-- The resolver of the C++ engine over the library's `strtod`. -/
def cText (formatG : Binary64 → String) (dumpJson : Variant → String) : ScalarText where
  formatG
  dumpJson
  strtod s := NumberText.strtod s.toList
  strtod_one := by decide +kernel

/-- What the resolvers of Go and Java put under a parameter's name. -/
inductive Scalar where
  | string (s : String)
  | int64 (n : Int)
  | float64 (d : Binary64)
  | bool (b : Bool)
  deriving DecidableEq

/-- `coerceErr` of Go, over `%q`. -/
def coerceErr (quote : String → String) (paramName scalarType s : String) : String :=
  "templated param " ++ quote paramName ++ " cannot coerce " ++ quote s ++ " to " ++ scalarType

/-- `strconv.ParseBool`. -/
def parseBool (s : String) : Option Bool :=
  if s ∈ ["1", "t", "T", "true", "TRUE", "True"] then some true
  else if s ∈ ["0", "f", "F", "false", "FALSE", "False"] then some false
  else none

/-- `coerceScalar` of Go. -/
def goCoerceScalar (quote : String → String) (paramName scalarType s : String) : Except String Scalar :=
  let refused : Except String Scalar := .error (coerceErr quote paramName scalarType s)
  if scalarType = "string" then .ok (.string s)
  else if scalarType = "int64" then
    match NumberText.parseInt s.toList with
    | some v => .ok (.int64 v)
    | none => refused
  else if scalarType = "float64" then
    match NumberText.parseFloat s.toList with
    | some v => .ok (.float64 v)
    | none => refused
  else if scalarType = "bool" then
    match parseBool s with
    | some v => .ok (.bool v)
    | none => refused
  else .error ("templated param " ++ quote paramName ++ " has unsupported scalar type " ++ quote scalarType)

/-- `parseStrictBool` of Java. -/
def javaParseStrictBool (s paramName : String) : Except String Bool :=
  if s ∈ ["1", "t", "T", "true", "TRUE", "True"] then .ok true
  else if s ∈ ["0", "f", "F", "false", "FALSE", "False"] then .ok false
  else .error ("templated param \"" ++ paramName ++ "\" cannot coerce \"" ++ s ++ "\" to bool")

/-- `coerce` of Java; a `NumberFormatException` becomes the message it is caught with. -/
def javaCoerce (paramName scalarType s : String) : Except String Scalar :=
  let refused : Except String Scalar :=
    .error ("templated param \"" ++ paramName ++ "\" cannot coerce \"" ++ s ++ "\" to " ++ scalarType)
  if scalarType = "string" then .ok (.string s)
  else if scalarType = "int64" then
    match NumberText.parseLong s.toList with
    | some v => .ok (.int64 v)
    | none => refused
  else if scalarType = "float64" then
    match NumberText.parseDouble s.toList with
    | some v => .ok (.float64 v)
    | none => refused
  else if scalarType = "bool" then (javaParseStrictBool s paramName).map .bool
  else .error ("templated param \"" ++ paramName ++ "\" has unsupported scalar type \"" ++ scalarType ++ "\"")

/-! ## Agreement -/

/-- The value of the C++ engine, which has one type of number, is the value of another. -/
inductive SameScalar : Variant → Scalar → Prop
  | string (s : String) : SameScalar (.string s) (.string s)
  | int64 {d : Binary64} {n : Int} : d.IsInt n → SameScalar (.number d) (.int64 n)
  | float64 (d : Binary64) : SameScalar (.number d) (.float64 d)
  | bool (b : Bool) : SameScalar (.bool b) (.bool b)

/-- Both take the text, and as the same value, or both refuse it. -/
def SameVerdict {α β ε ε' : Type} (same : α → β → Prop) : Except ε α → Except ε' β → Prop
  | .ok v, .ok w => same v w
  | .error _, .error _ => True
  | _, _ => False

/-- The C++ and the Java engine do with the text what the Go engine does. -/
def CoerceAgrees (text : ScalarText) (quote : String → String) (paramName scalarType s : String) : Prop :=
  SameVerdict SameScalar (text.coerceScalar paramName scalarType s) (goCoerceScalar quote paramName scalarType s) ∧
    SameVerdict Eq (javaCoerce paramName scalarType s) (goCoerceScalar quote paramName scalarType s)

/-- The texts on which two engines differ: those on which their number readers do, and the integers that are not
doubles. -/
inductive CoerceGap (s scalarType : String) : Prop
  | float64 : scalarType = "float64" → NumberText.DoubleGap s.toList → CoerceGap s scalarType
  | int64 : scalarType = "int64" → NumberText.IntGap s.toList → CoerceGap s scalarType
  | wide {n : Int} : scalarType = "int64" → NumberText.parseInt s.toList = some n →
      (¬ ∃ f : FiniteBinary64, f.IsIntegral ∧ f.toInt = n) → CoerceGap s scalarType

theorem foldl_decimal (cs : List Char) (n : Nat) :
    cs.foldl (fun (n : Int) c => 10 * n + ((c.toNat - '0'.toNat : Nat) : Int)) n =
      (cs.foldl (fun n c => 10 * n + (c.toNat - 48)) n : Nat) := by
  induction cs generalizing n with
  | nil => rfl
  | cons c cs ih =>
    rw [List.foldl_cons, List.foldl_cons, ← ih]
    congr 1

/-- `parse_int64_strict` is the library's reader. -/
theorem parseInt64Strict_eq (s : String) : parseInt64Strict s = NumberText.strtoll s.toList := by
  have hdigits : ∀ (neg : Bool) (cs : List Char), (if cs.isEmpty || !cs.all Char.isDigit then none
      else
        let n : Int := cs.foldl (fun n c => 10 * n + (c.toNat - '0'.toNat : Nat)) 0
        let n := if neg then -n else n
        if -2 ^ 63 ≤ n ∧ n < 2 ^ 63 then some n else none) =
      if cs ≠ [] ∧ cs.all Char.isDigit then NumberText.int64Of neg (NumberText.decimalValue cs) else none := by
    intro neg cs
    by_cases hcs : cs ≠ [] ∧ cs.all Char.isDigit = true
    · rw [if_pos hcs, if_neg]
      · have hfold := foldl_decimal cs 0
        dsimp only
        rw [show ((0 : Nat) : Int) = 0 from rfl] at hfold
        rw [hfold]
        rfl
      · cases cs with
        | nil => exact absurd rfl hcs.1
        | cons c cs => rw [hcs.2]; exact Bool.false_ne_true
    · rw [if_neg hcs, if_pos]
      cases cs with
      | nil => rfl
      | cons c cs =>
        have hall : (c :: cs).all Char.isDigit = false :=
          Bool.eq_false_of_not_eq_true fun hall => hcs ⟨List.cons_ne_nil c cs, hall⟩
        rw [hall]
        rfl
  unfold parseInt64Strict NumberText.strtoll NumberText.parseInt
  rw [show isCSpace = NumberText.isSpace from rfl]
  generalize s.toList.dropWhile NumberText.isSpace = cs
  dsimp only
  split
  · exact hdigits true _
  · exact hdigits false _
  · next hminus hplus =>
    rw [NumberText.signed_plain hminus hplus]
    exact hdigits false cs

/-! ## The texts on which the engines agree -/

section Agreement
variable {text : ScalarText} {quote : String → String} {paramName s : String}

theorem javaParseStrictBool_eq (s paramName : String) : (javaParseStrictBool s paramName).toOption = parseBool s := by
  unfold javaParseStrictBool parseBool
  split
  · rfl
  · split <;> rfl

theorem coerceAgrees_string : CoerceAgrees text quote paramName "string" s := ⟨.string s, rfl⟩

theorem coerceAgrees_bool : CoerceAgrees text quote paramName "bool" s := by
  have hcpp : parseStrictBool s = parseBool s := rfl
  unfold CoerceAgrees ScalarText.coerceScalar goCoerceScalar javaCoerce
  dsimp only
  simp only [String.reduceEq, if_false, if_true]
  rw [hcpp, ← javaParseStrictBool_eq s paramName]
  cases javaParseStrictBool s paramName with
  | error e => exact ⟨trivial, trivial⟩
  | ok b => exact ⟨.bool b, rfl⟩

theorem sameScalar_int64 {d : Binary64} {n : Int} : SameScalar (.number d) (.int64 n) ↔ d.IsInt n := by
  constructor
  · rintro (_ | h)
    exact h
  · exact .int64

theorem sameScalar_float64 {d e : Binary64} : SameScalar (.number d) (.float64 e) ↔ d = e := by
  constructor
  · rintro (_ | _)
    rfl
  · rintro rfl
    exact .float64 d

/-- Where Go takes a text, C takes it as the same integer. -/
theorem strtoll_of_parseInt {n : Int} (h : NumberText.parseInt s.toList = some n) :
    NumberText.strtoll s.toList = some n := by
  rw [← h]
  refine NumberText.strtoll_of_not_space fun c r heq => Bool.eq_false_of_not_eq_true fun hspace => ?_
  rw [heq, NumberText.parseInt_of_space hspace] at h
  cases h

theorem coerceAgrees_int64 : CoerceAgrees text quote paramName "int64" s ↔
    NumberText.IntAgrees s.toList ∧ ∀ n, NumberText.parseInt s.toList = some n → (Binary64.ofInt n).IsInt n := by
  unfold CoerceAgrees ScalarText.coerceScalar goCoerceScalar javaCoerce NumberText.IntAgrees
  dsimp only
  simp only [String.reduceEq, if_false, if_true, parseInt64Strict_eq]
  cases hgo : NumberText.parseInt s.toList with
  | none =>
    cases NumberText.strtoll s.toList <;> cases NumberText.parseLong s.toList <;> simp [SameVerdict]
  | some n =>
    rw [strtoll_of_parseInt hgo]
    cases NumberText.parseLong s.toList <;> simp [SameVerdict, sameScalar_int64, and_comm]

theorem coerceAgrees_float64 {formatG : Binary64 → String} {dumpJson : Variant → String} :
    CoerceAgrees (cText formatG dumpJson) quote paramName "float64" s ↔ NumberText.DoubleAgrees s.toList := by
  unfold CoerceAgrees ScalarText.coerceScalar goCoerceScalar javaCoerce NumberText.DoubleAgrees cText
  dsimp only
  simp only [String.reduceEq, if_false, if_true]
  cases NumberText.strtod s.toList <;> cases NumberText.parseFloat s.toList <;>
    cases NumberText.parseDouble s.toList <;> simp [SameVerdict, sameScalar_float64]

end Agreement

/-- The scalar types a plan holds. -/
def scalarTypes : List String := ["string", "int64", "float64", "bool"]

theorem no_gap_int64 {s : String} : ¬ CoerceGap s "int64" ↔
    NumberText.IntAgrees s.toList ∧ ∀ n, NumberText.parseInt s.toList = some n → (Binary64.ofInt n).IsInt n := by
  rw [NumberText.intAgrees_iff]
  constructor
  · intro hgap
    refine ⟨fun h => hgap (.int64 rfl h), fun n hn => Binary64.ofInt_isInt.mpr ?_⟩
    by_contra hwide
    exact hgap (.wide rfl hn hwide)
  · rintro ⟨hint, hexact⟩ (⟨ht, -⟩ | ⟨-, h⟩ | ⟨-, hn, hwide⟩)
    · exact absurd ht (by decide)
    · exact hint h
    · exact hwide (Binary64.ofInt_isInt.mp (hexact _ hn))

theorem no_gap_float64 {s : String} : ¬ CoerceGap s "float64" ↔ NumberText.DoubleAgrees s.toList := by
  rw [NumberText.doubleAgrees_iff]
  constructor
  · exact fun hgap h => hgap (.float64 rfl h)
  · rintro hdouble (⟨-, h⟩ | ⟨ht, -⟩ | ⟨ht, -, -⟩)
    · exact hdouble h
    · exact absurd ht (by decide)
    · exact absurd ht (by decide)

/-- A gap is one of a number type. -/
theorem CoerceGap.number {s scalarType : String} (h : CoerceGap s scalarType) :
    scalarType = "float64" ∨ scalarType = "int64" := by
  rcases h with ⟨ht, -⟩ | ⟨ht, -⟩ | ⟨ht, -, -⟩
  · exact Or.inl ht
  · exact Or.inr ht
  · exact Or.inr ht

/-- The C++ and the Java engine take and refuse the texts that the Go engine does, and as the same values, but for
the texts in the gaps between the libraries' readers and the integers that are no doubles. -/
theorem coercions_agree_iff (formatG : Binary64 → String) (dumpJson : Variant → String) (quote : String → String)
    (paramName s : String) {scalarType : String} (ht : scalarType ∈ scalarTypes) :
    CoerceAgrees (cText formatG dumpJson) quote paramName scalarType s ↔ ¬ CoerceGap s scalarType := by
  simp only [scalarTypes, List.mem_cons, List.not_mem_nil, or_false] at ht
  rcases ht with rfl | rfl | rfl | rfl
  · exact ⟨fun _ h => absurd h.number (by decide), fun _ => coerceAgrees_string⟩
  · exact coerceAgrees_int64.trans no_gap_int64.symm
  · exact coerceAgrees_float64.trans no_gap_float64.symm
  · exact ⟨fun _ h => absurd h.number (by decide), fun _ => coerceAgrees_bool⟩

theorem coercions_agree_iff_padded :
    "int64" ∈ scalarTypes ∧
      ¬ CoerceAgrees (cText (fun _ => "") fun _ => "") id "ttl" "int64" " 12" := by
  have ht : "int64" ∈ scalarTypes := by decide
  refine ⟨ht, fun h => ?_⟩
  refine (coercions_agree_iff _ _ _ _ _ ht).mp h (.int64 rfl (.led ⟨' ', ['1', '2'], by decide, by decide⟩ ?_))
  decide +kernel

/-- A blank before the digits is skipped in one engine only. -/
theorem not_coercions_agree : ¬ ∀ (formatG : Binary64 → String) (dumpJson : Variant → String) (quote : String → String)
    (paramName s scalarType : String), scalarType ∈ scalarTypes →
      CoerceAgrees (cText formatG dumpJson) quote paramName scalarType s := by
  intro h
  have hpadded := (h (fun _ => "") (fun _ => "") id "ttl" " 12" "int64" (by decide)).1
  have hcpp : (cText (fun _ => "") fun _ => "").coerceScalar "ttl" "int64" " 12" = .ok (.number (.ofInt 12)) := by
    decide +kernel
  have hgo : goCoerceScalar id "ttl" "int64" " 12" = .error (coerceErr id "ttl" "int64" " 12") := by
    decide +kernel
  rw [hcpp, hgo] at hpadded
  exact hpadded

end Pineapple
