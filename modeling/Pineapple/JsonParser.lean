import Pineapple.Variant
import Pineapple.JsonGrammar

/-! # The JSON parser (`json.cpp`, `Parser`)

The parser's position is what is left of the text. Each loop takes a byte or more before the next call, so twice the
text's length bounds how deep the calls nest. -/

namespace Pineapple.Json

def parseError (msg : String) : PineError := .config ("failed to parse config JSON: " ++ msg)

/-- `std::isspace`. -/
def isSpace (b : UInt8) : Bool := b = 0x20 || (0x09 ≤ b && b ≤ 0x0D)

def skipWs (s : Bytes) : Bytes := s.dropWhile isSpace

def consume (ch : UInt8) : Bytes → Option Bytes
  | [] => none
  | b :: s => if b = ch then some s else none

def expect (text : String) (v : Value) (s : Bytes) : Except PineError (Value × Bytes) :=
  if token text <+: s then .ok (v, s.drop (token text).length) else .error (parseError ("expected " ++ text))

def parseNumber (s : Bytes) : Except PineError (Binary64 × Bytes) :=
  let (n, s) := scan s
  match n.value with
  | some d => .ok (d, s)
  | none => .error (parseError "invalid number")

/-- Append to what the rest of a string stands for. -/
def emit (p : Bytes) (r : Bytes × Bytes) : Bytes × Bytes := (p ++ r.1, r.2)

/-- The loop of `parse_string`. -/
def parseChars : Bytes → Except PineError (Bytes × Bytes)
  | [] => .error (parseError "unterminated string")
  | ch :: s =>
    if ch = ascii '"' then .ok ([], s)
    else if ch = ascii '\\' then
      match s with
      | [] => .error (parseError "invalid escape")
      | esc :: s =>
        if esc = ascii 'u' then
          match s with
          | a :: b :: c :: d :: s =>
            match hex4 a b c d with
            | none => .error (parseError "invalid unicode escape")
            | some cp =>
              if IsHigh cp then
                match s with
                | x :: y :: a :: b :: c :: d :: s =>
                  if x = ascii '\\' ∧ y = ascii 'u' then
                    match hex4 a b c d with
                    | none => .error (parseError "invalid unicode escape")
                    | some lo =>
                      if IsLow lo then emit (utf8 (combine cp lo)) <$> parseChars s
                      else .error (parseError "invalid low surrogate")
                  else .error (parseError "missing low surrogate")
                | _ => .error (parseError "missing low surrogate")
              else emit (utf8 cp) <$> parseChars s
          | _ => .error (parseError "incomplete unicode escape")
        else
          match simpleEscape esc with
          | some b => emit [b] <$> parseChars s
          | none => .error (parseError "unsupported escape")
    else emit [ch] <$> parseChars s

theorem parseChars_raw {b : UInt8} (hquote : b ≠ ascii '"') (hescape : b ≠ ascii '\\') (s : Bytes) :
    parseChars (b :: s) = emit [b] <$> parseChars s := by
  rw [parseChars.eq_def]
  dsimp only
  rw [if_neg hquote, if_neg hescape]

def parseString (s : Bytes) : Except PineError (Bytes × Bytes) :=
  match consume (ascii '"') s with
  | some s => parseChars s
  | none => .error (parseError "expected string")

/-- A member of an object, its value read by `value`. -/
def parseMember (value : Bytes → Except PineError (Value × Bytes)) (s : Bytes) :
    Except PineError ((Bytes × Value) × Bytes) := do
  let (key, s) ← parseString (skipWs s)
  match consume (ascii ':') (skipWs s) with
  | none => throw (parseError "expected ':'")
  | some s =>
    let (v, s) ← value (skipWs s)
    return ((key, v), s)

mutual

def parseValue : Nat → Bytes → Except PineError (Value × Bytes)
  | 0, _ => .error (parseError "out of fuel")
  | fuel + 1, s =>
    match skipWs s with
    | [] => .error (parseError "unexpected end of input")
    | ch :: s =>
      if ch = ascii '{' then
        match consume (ascii '}') (skipWs s) with
        | some s => .ok (.object [], s)
        | none => parseMembers fuel [] (skipWs s)
      else if ch = ascii '[' then
        match consume (ascii ']') (skipWs s) with
        | some s => .ok (.array [], s)
        | none => parseElements fuel [] (skipWs s)
      else if ch = ascii '"' then (fun (out, s) => (.string out, s)) <$> parseChars s
      else if ch = ascii 't' then expect "true" (.bool true) (ch :: s)
      else if ch = ascii 'f' then expect "false" (.bool false) (ch :: s)
      else if ch = ascii 'n' then expect "null" .null (ch :: s)
      else (fun (d, s) => (.number d, s)) <$> parseNumber (ch :: s)

/-- The loop of `parse_object`. -/
def parseMembers : Nat → List (Bytes × Value) → Bytes → Except PineError (Value × Bytes)
  | 0, _, _ => .error (parseError "out of fuel")
  | fuel + 1, object, s => do
    let (e, s) ← parseMember (parseValue fuel) s
    match consume (ascii '}') (skipWs s) with
    | some s => return (.object (emplace e.1 e.2 object), s)
    | none =>
      match consume (ascii ',') (skipWs s) with
      | some s => parseMembers fuel (emplace e.1 e.2 object) s
      | none => throw (parseError "expected ','")

/-- The loop of `parse_array`. -/
def parseElements : Nat → List Value → Bytes → Except PineError (Value × Bytes)
  | 0, _, _ => .error (parseError "out of fuel")
  | fuel + 1, array, s => do
    let (v, s) ← parseValue fuel (skipWs s)
    match consume (ascii ']') (skipWs s) with
    | some s => return (.array (array ++ [v]), s)
    | none =>
      match consume (ascii ',') (skipWs s) with
      | some s => parseElements fuel (array ++ [v]) s
      | none => throw (parseError "expected ','")

end

/-- `parse_json`. -/
def parseJson (s : Bytes) : Except PineError Value := do
  let (v, t) ← parseValue (2 * s.length + 1) (skipWs s)
  if skipWs t = [] then return v else throw (parseError "trailing characters")

/-! ## Blanks and strings -/

/-- The parser's functions take the lexicon's blanks, numerals and string parts for what they are. -/
structure Lexicon.Read (g : Lexicon) : Prop where
  blank : ∀ b, g.blank b → isSpace b = true
  number : ∀ n, g.number n → n.Scanned
  raw : ∀ p, g.raw p → ∀ b ∈ p, b ≠ ascii '"' ∧ b ≠ ascii '\\'

theorem consume_eq_some {ch : UInt8} {s t : Bytes} : consume ch s = some t ↔ s = ch :: t := by
  cases s with
  | nil => exact iff_of_false nofun nofun
  | cons b s =>
    unfold consume
    rw [Option.ite_none_right_eq_some, Option.some.injEq, List.cons.injEq]

theorem consume_none {ch b : UInt8} {s : Bytes} (h : b ≠ ch) : consume ch (b :: s) = none := if_neg h

theorem skipWs_ends {t : Bytes} (ht : EndsRun isSpace t) : skipWs t = t := by
  cases t with
  | nil => rfl
  | cons b t => exact List.dropWhile_cons_of_neg (by simp [endsRun_cons.mp ht])

theorem skipWs_of_blanks {g : Lexicon} (hg : g.Read) {s t : Bytes} (h : Blanks g s t) (ht : EndsRun isSpace t) :
    skipWs s = t := by
  induction h with
  | nil => exact skipWs_ends ht
  | cons hb _ ih => exact (List.dropWhile_cons_of_pos (hg.blank _ hb)).trans (ih ht)

theorem Blanks.length_le {g : Lexicon} {s t : Bytes} (h : Blanks g s t) : t.length ≤ s.length := by
  induction h with
  | nil => exact Nat.le_refl _
  | cons _ _ ih => exact Nat.le_succ_of_le ih

theorem Chars.length_lt {g : Lexicon} {s out t : Bytes} (h : Chars g s out t) : t.length < s.length := by
  induction h with
  | close => exact Nat.lt_succ_self _
  | raw _ _ ih =>
    rw [List.length_append]
    omega
  | escape _ _ ih | unicode _ _ _ ih | pair _ _ _ _ _ ih | unpaired _ _ _ _ _ ih =>
    simp only [List.length_cons]
    omega

theorem parseChars_escape {esc b : UInt8} (h : simpleEscape esc = some b) (s : Bytes) :
    parseChars (ascii '\\' :: esc :: s) = emit [b] <$> parseChars s := by
  have hu : esc ≠ ascii 'u' := by
    rintro rfl
    exact nomatch h
  rw [parseChars.eq_def]
  dsimp only
  rw [if_neg (by decide), if_pos rfl, if_neg hu, h]

theorem parseChars_unicode {a b c d : UInt8} {cp : Nat} (h : hex4 a b c d = some cp) (hhigh : ¬ IsHigh cp)
    (s : Bytes) : parseChars (ascii '\\' :: ascii 'u' :: a :: b :: c :: d :: s) = emit (utf8 cp) <$> parseChars s := by
  rw [parseChars.eq_def]
  dsimp only
  rw [if_neg (by decide), if_pos rfl, if_pos rfl, h]
  dsimp only
  rw [if_neg hhigh]

theorem parseChars_pair {a b c d a' b' c' d' : UInt8} {hi lo : Nat} (hhex : hex4 a b c d = some hi) (hhigh : IsHigh hi)
    (hhex' : hex4 a' b' c' d' = some lo) (hlow : IsLow lo) (s : Bytes) :
    parseChars (ascii '\\' :: ascii 'u' :: a :: b :: c :: d ::
      ascii '\\' :: ascii 'u' :: a' :: b' :: c' :: d' :: s) = emit (utf8 (combine hi lo)) <$> parseChars s := by
  rw [parseChars.eq_def]
  dsimp only
  rw [if_neg (by decide), if_pos rfl, if_pos rfl, hhex]
  dsimp only
  rw [if_pos hhigh, if_pos ⟨rfl, rfl⟩, hhex']
  dsimp only
  rw [if_pos hlow]

theorem parseChars_unpaired {a b c d : UInt8} {cp : Nat} (h : hex4 a b c d = some cp) (hhigh : IsHigh cp) {s : Bytes}
    (hs : ¬ StartsLow s) : ∃ e, parseChars (ascii '\\' :: ascii 'u' :: a :: b :: c :: d :: s) = .error e := by
  rw [parseChars.eq_def]
  dsimp only
  rw [if_neg (by decide), if_pos rfl, if_pos rfl, h]
  dsimp only
  rw [if_pos hhigh]
  split
  · next x y a b c d s =>
    split
    · next hxy =>
      obtain ⟨rfl, rfl⟩ := hxy
      split
      · exact ⟨_, rfl⟩
      · next lo hlo =>
        rw [if_neg fun hlow => hs ⟨a, b, c, d, s, lo, rfl, hlo, hlow⟩]
        exact ⟨_, rfl⟩
    · exact ⟨_, rfl⟩
  · exact ⟨_, rfl⟩

end Pineapple.Json
