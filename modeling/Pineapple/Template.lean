import Pineapple.Frame
import Pineapple.Config
import Pineapple.Lib.Except
import Pineapple.Lib.ReadProgram

/-! # Templated parameters (`template.cpp`)

A parameter whose value is one bare `\x7b\x7bfield\x7d\x7d` marker is read from the request's common fields before
the operator runs. The plan of an operator is made once, when the engine is built. -/

namespace Pineapple

/-! ## Markers -/

/-- A marker at the start of the text. -/
def startsWithMarker : List Char → Bool
  | '{' :: '{' :: rest =>
    match rest.dropWhile isWordChar with
    | '}' :: '}' :: _ => (rest.head?.map isWordChar).getD false
    | _ => false
  | _ => false

/-- `regex_search` for a marker. -/
def containsMarker : List Char → Bool
  | [] => false
  | c :: cs => startsWithMarker (c :: cs) || containsMarker cs

def isTemplatedString : Variant → Bool
  | .string s => containsMarker s.toList
  | _ => false

/-- `extract_bare_field`: the field of a text that is one marker and nothing else. -/
def extractBareField (s : String) : Option String :=
  match s.toList with
  | '{' :: '{' :: rest =>
    match rest.reverse with
    | '}' :: '}' :: field =>
      if !field.isEmpty && field.all isWordChar then some (String.ofList field.reverse) else none
    | _ => none
  | _ => none

/-! ## Plans -/

structure ParamSchema where
  type : String
  templatable : Bool := false

/-- The `params` of an operator type's schema. -/
abbrev OperatorSchema := SortedMap String ParamSchema

structure TemplatedParam where
  name : String
  scalarType : String
  field : String

def templatableScalarTypes : List String := ["string", "int", "int64", "float", "float64", "bool"]

def normalizeScalarType (t : String) : String :=
  if t = "int" ∨ t = "int64" then "int64"
  else if t = "float" ∨ t = "float64" then "float64"
  else t

/-- The plan entry of one parameter, none for a parameter without a marker. -/
def planParam (opName : String) (schema : OperatorSchema) (param : String) (raw : Variant) :
    Except PineError (Option TemplatedParam) :=
  if !isTemplatedString raw then .ok none
  else match schema.find? param with
    | none => .error (.config ("operator \"" ++ opName ++ "\": param \"" ++ param ++ "\" is not declared in schema"))
    | some spec =>
      if !spec.templatable then
        .error (.config ("operator \"" ++ opName ++ "\": param \"" ++ param ++
          "\" is not declared templatable in schema"))
      else if spec.type ∉ templatableScalarTypes then
        .error (.config ("operator \"" ++ opName ++ "\": param \"" ++ param ++ "\" has declared type \"" ++ spec.type ++
          "\" which does not support templating"))
      else match raw with
        | .string tmpl =>
          match extractBareField tmpl with
          | none => .error (.config ("operator \"" ++ opName ++ "\": param \"" ++ param ++ "\" value \"" ++ tmpl ++
              "\" must be a bare \x7b\x7bfield\x7d\x7d marker"))
          | some field => .ok (some ⟨param, normalizeScalarType spec.type, field⟩)
        | _ => .ok none

def buildTemplatedParamPlan (opName : String) (schema : OperatorSchema) (rawParams : Variant) :
    Except PineError (List TemplatedParam) :=
  match rawParams with
  | .object es => es.foldlM (fun plan e => do return plan ++ (← planParam opName schema e.1 e.2).toList) []
  | _ => .ok []

/-! ## Resolving -/

/-- The text conversions of the resolver that no check depends on: `go_format_g`, `dump_json` and `strtod`
on a whole string. -/
structure ScalarText where
  formatG : Binary64 → String
  dumpJson : Variant → String
  strtod : String → Option Binary64
  strtod_one : (strtod "1").isSome = true

def ScalarText.stringifyCommon (text : ScalarText) : Variant → String
  | .string s => s
  | .bool b => if b then "true" else "false"
  | .number d => text.formatG d
  | v => text.dumpJson v

/-- What `isspace` skips for `strtoll`. -/
def isCSpace (c : Char) : Bool := c ∈ [' ', '\t', '\n', '\x0b', '\x0c', '\r']

/-- `parse_int64_strict`: what `strtoll` reads when it reads the whole text within range. -/
def parseInt64Strict (s : String) : Option Int :=
  let digits (neg : Bool) (cs : List Char) : Option Int :=
    if cs.isEmpty || !cs.all Char.isDigit then none
    else
      let n : Int := cs.foldl (fun n c => 10 * n + (c.toNat - '0'.toNat : Nat)) 0
      let n := if neg then -n else n
      if -2 ^ 63 ≤ n ∧ n < 2 ^ 63 then some n else none
  match s.toList.dropWhile isCSpace with
  | '-' :: cs => digits true cs
  | '+' :: cs => digits false cs
  | cs => digits false cs

def parseStrictBool (s : String) : Option Bool :=
  if s ∈ ["1", "t", "T", "true", "TRUE", "True"] then some true
  else if s ∈ ["0", "f", "F", "false", "FALSE", "False"] then some false
  else none

def coerceErrorMessage (param scalarType s : String) : String :=
  "templated param \"" ++ param ++ "\" cannot coerce \"" ++ s ++ "\" to " ++ scalarType

def ScalarText.coerceScalar (text : ScalarText) (param scalarType s : String) : Except PineError Variant :=
  let refused : Except PineError Variant := .error (.execution "" (coerceErrorMessage param scalarType s))
  if scalarType = "string" then .ok (.string s)
  else if scalarType = "int64" then
    match parseInt64Strict s with
    | some n => .ok (.number (.ofInt n))
    | none => refused
  else if scalarType = "float64" then
    match text.strtod s with
    | some d => .ok (.number d)
    | none => refused
  else if scalarType = "bool" then
    match parseStrictBool s with
    | some b => .ok (.bool b)
    | none => refused
  else .error (.execution "" ("templated param \"" ++ param ++ "\" has unsupported scalar type \"" ++ scalarType ++ "\""))

/-- A program over the common fields of a frame: each read gives the value, or nothing for an absent field. -/
abbrev CommonReader := ReadProgram String (Option Variant)

def ScalarText.resolveTemplatedParams (text : ScalarText) :
    List TemplatedParam → (out : Row) → CommonReader (Except PineError Row)
  | [], out => .ret (.ok out)
  | p :: rest, out => .read p.field fun v =>
    if (v.getD .null).isNull then
      .ret (.error (.execution "" ("templated param \"" ++ p.name ++ "\" references common field \"" ++ p.field ++
        "\" which is missing")))
    else match text.coerceScalar p.name p.scalarType (text.stringifyCommon (v.getD .null)) with
      | .error e => .ret (.error e)
      | .ok c => text.resolveTemplatedParams rest (out.insert p.name c)

end Pineapple
