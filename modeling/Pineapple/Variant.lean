import Mathlib.Order.Defs.LinearOrder
import Pineapple.Lib.Binary64
import Pineapple.Lib.SortedMap

/-! # Errors and JSON values (`pine.hpp`, `json.cpp`, `frame_values.hpp`)

`Variant` is the value tree every layer of the engine passes around. An object holds its entries as
`FlatMap` stores them; a frame's own maps are `SortedMap`s of variants. -/

namespace Pineapple

/-- The engine's exception classes, each with what its constructor is given. -/
inductive PineError where
  /-- `Error` itself. -/
  | error (msg : String)
  | config (msg : String)
  | validation (msg : String)
  | registry (msg : String)
  /-- `ExecutionError(operator_name, inner)`; the one-string form has no operator name. -/
  | execution (operator : String) (inner : String)
  | panic (operator : String) (value : String)
  | cancelled (deadlineExceeded : Bool)
deriving DecidableEq

/-- The text `what()` gives. -/
def PineError.what : PineError → String
  | error msg => msg
  | config msg => "pine: config error: " ++ msg
  | validation msg => "pine: validation error: " ++ msg
  | registry msg => "pine: registry error: " ++ msg
  | execution "" inner => inner
  | execution op inner => "pine: execution error in operator \"" ++ op ++ "\": " ++ inner
  | panic op value => "pine: panic in operator \"" ++ op ++ "\": " ++ value
  | cancelled deadlineExceeded =>
    "pine: execution cancelled: " ++ if deadlineExceeded then "context deadline exceeded" else "context canceled"

inductive Variant where
  | null
  | bool (b : Bool)
  | number (d : Binary64)
  | string (s : String)
  | array (xs : List Variant)
  | object (es : List (String × Variant))

namespace Variant

instance : Inhabited Variant := ⟨null⟩

mutual
def decEq : (v w : Variant) → Decidable (v = w)
  | null, w => by
    cases w with
    | null => exact isTrue rfl
    | _ => exact isFalse (by simp)
  | bool a, w => by
    cases w with
    | bool b => exact decidable_of_iff (a = b) (by simp)
    | _ => exact isFalse (by simp)
  | number a, w => by
    cases w with
    | number b => exact decidable_of_iff (a = b) (by simp)
    | _ => exact isFalse (by simp)
  | string a, w => by
    cases w with
    | string b => exact decidable_of_iff (a = b) (by simp)
    | _ => exact isFalse (by simp)
  | array a, w => by
    cases w with
    | array b => exact @decidable_of_iff _ (a = b) (by simp) (decEqArray a b)
    | _ => exact isFalse (by simp)
  | object a, w => by
    cases w with
    | object b => exact @decidable_of_iff _ (a = b) (by simp) (decEqObject a b)
    | _ => exact isFalse (by simp)

def decEqArray : (xs ys : List Variant) → Decidable (xs = ys)
  | [], [] => isTrue rfl
  | [], _ :: _ => isFalse (by simp)
  | _ :: _, [] => isFalse (by simp)
  | x :: xs, y :: ys =>
    have := decEq x y
    have := decEqArray xs ys
    decidable_of_iff (x = y ∧ xs = ys) (by simp)

def decEqObject : (es fs : List (String × Variant)) → Decidable (es = fs)
  | [], [] => isTrue rfl
  | [], _ :: _ => isFalse (by simp)
  | _ :: _, [] => isFalse (by simp)
  | (k, v) :: es, (l, w) :: fs =>
    have := decEq v w
    have := decEqObject es fs
    decidable_of_iff ((k = l ∧ v = w) ∧ es = fs) (by simp)
end

instance : DecidableEq Variant := decEq

def isNull : Variant → Bool
  | null => true
  | _ => false

def asBool : Variant → Except PineError Bool
  | bool b => .ok b
  | _ => .error (.config "JSON value is not bool")

def asNumber : Variant → Except PineError Binary64
  | number d => .ok d
  | _ => .error (.config "JSON value is not number")

def asString : Variant → Except PineError String
  | string s => .ok s
  | _ => .error (.config "JSON value is not string")

def asArray : Variant → Except PineError (List Variant)
  | array xs => .ok xs
  | _ => .error (.config "JSON value is not array")

def asObject : Variant → Except PineError (List (String × Variant))
  | object es => .ok es
  | _ => .error (.config "JSON value is not object")

def truthy : Variant → Bool
  | null => false
  | bool b => b
  | _ => true

/-- `is_integral_number`: a number an `int64_t` holds, strictly inside `±2 ^ 63`. -/
def isIntegralNumber : Variant → Bool
  | number (.finite f) => decide (f.IsIntegral ∧ f.truncNat < 2 ^ 63)
  | _ => false

def kMaxCompositeScanDepth : Nat := 1000

mutual
def containsNonFinite (depth : Nat) : Variant → Bool
  | number d => !d.isFinite
  | array xs => if depth ≥ kMaxCompositeScanDepth then false else containsNonFiniteArray (depth + 1) xs
  | object es => if depth ≥ kMaxCompositeScanDepth then false else containsNonFiniteObject (depth + 1) es
  | _ => false

def containsNonFiniteArray (depth : Nat) : List Variant → Bool
  | [] => false
  | x :: xs => containsNonFinite depth x || containsNonFiniteArray depth xs

def containsNonFiniteObject (depth : Nat) : List (String × Variant) → Bool
  | [] => false
  | (_, v) :: es => containsNonFinite depth v || containsNonFiniteObject depth es
end

end Variant

/-- `validate_frame_value`: the violation's message, or nothing for a value a frame may hold. -/
def validateFrameValue (field : String) (value : Variant) : Option String :=
  if value.containsNonFinite 0 then some ("field \"" ++ field ++ "\": NaN/Inf is not a valid JSON value")
  else none

end Pineapple
