import Pineapple.AppleFlow
import Pineapple.JsonEquality
import Pineapple.Lib.Marker
import Pineapple.Template

/-! # Template markers in three dialects (`_template_syntax.py`, `template.go`, `template.cpp`)

The compiler and both engines match one pattern, `\x7b\x7b(\w+)\x7d\x7d`. A word character is one of Unicode's for
Python and one of ASCII's for Go and C++; Python and Go match characters, C++ the bytes of their encoding. -/

namespace Pineapple
namespace Markers
open Marker Apple
open Reorder (utf8Bytes)

/-- What `\w` matches: the ASCII letters, digits and `_`, and what a dialect adds beyond ASCII. -/
structure WordChars where
  word : Char → Bool
  ascii : ∀ c, c.toNat < 128 → word c = isWordChar c

def WordChars.alphabet (w : WordChars) : Alphabet Char where
  opening := '{'
  closing := '}'
  word := w.word
  opening_ne_closing := by decide
  word_opening := (w.ascii '{' (by decide)).trans (by decide)
  word_closing := (w.ascii '}' (by decide)).trans (by decide)

def asciiWords : WordChars := ⟨isWordChar, fun _ _ => rfl⟩

def byteAlphabet : Alphabet UInt8 where
  opening := 0x7B
  closing := 0x7D
  word b := isWordChar (Char.ofNat b.toNat)
  opening_ne_closing := by decide
  word_opening := by decide
  word_closing := by decide

/-! ## The compiler -/

/-- `is_templated`: `TEMPLATE_PATTERN.search`. -/
def isTemplated (w : WordChars) (value : String) : Bool := search w.alphabet value.toList

/-- `BARE_TEMPLATE_PATTERN.fullmatch`. It reaches the end of the string, where `$` holds. -/
def bareTemplateField (w : WordChars) (value : String) : Option String :=
  (whole w.alphabet value.toList).map String.ofList

/-- `is_bare_template`. -/
def isBareTemplate (w : WordChars) (value : String) : Bool := (bareTemplateField w value).isSome

/-! ## Go -/

/-- `IsTemplatedString` of a string. -/
def goIsTemplatedString (s : String) : Bool := search asciiWords.alphabet s.toList

/-- `extractBareField`. Without the flag `m`, `$` holds at the end of the text alone. -/
def goExtractBareField (s : String) : Option String := (whole asciiWords.alphabet s.toList).map String.ofList

/-- `IsBareMarker`. -/
def goIsBareMarker (s : String) : Bool := (goExtractBareField s).isSome

/-- What `BuildTemplatedParamPlan` makes of one parameter that is a string. -/
def goPlanParam (quote : String → String) (opName : String) (schema : OperatorSchema) (param tmpl : String) :
    Except PineError (Option TemplatedParam) :=
  let op := "operator " ++ quote opName ++ ": param " ++ quote param
  if !goIsTemplatedString tmpl then .ok none
  else match schema.find? param with
    | none => .error (.config (op ++ " is not declared in schema"))
    | some spec =>
      if !spec.templatable then .error (.config (op ++ " is not declared templatable in schema"))
      else if spec.type ∉ templatableScalarTypes then
        .error (.config (op ++ " has declared type " ++ quote spec.type ++ " which does not support templating"))
      else match goExtractBareField tmpl with
        | none => .error (.config (op ++ " value " ++ quote tmpl ++ " must be a bare \x7b\x7bfield\x7d\x7d marker"))
        | some field => .ok (some ⟨param, normalizeScalarType spec.type, field⟩)

/-! ## C++ -/

/-- `is_templated_string` of a string: `regex_search` over its bytes. -/
def cppIsTemplatedString (s : String) : Bool := search byteAlphabet (utf8Bytes s)

/-- `extract_bare_field`: the bytes of the field that `regex_match` captures. -/
def cppExtractBareField (s : String) : Option (List UInt8) := whole byteAlphabet (utf8Bytes s)

/-- `is_bare_marker`. -/
def cppIsBareMarker (s : String) : Bool := (cppExtractBareField s).isSome

/-! ### Bytes and characters -/

theorem utf8_ascii {c : Char} (h : c.toNat < 128) : Json.utf8 c.toNat = [UInt8.ofNat c.toNat] := by
  rw [Json.utf8, if_pos h]

theorem ofNat_ascii {c : Char} (h : c.toNat < 128) : Char.ofNat (UInt8.ofNat c.toNat).toNat = c := by
  rw [UInt8.toNat_ofNat', Nat.mod_eq_of_lt (by omega), Char.ofNat_toNat]

/-- Beyond ASCII no byte of a character's encoding is one of ASCII's. -/
theorem utf8_wide {c : Char} (h : 128 ≤ c.toNat) : Json.utf8 c.toNat ≠ [] ∧ ∀ b ∈ Json.utf8 c.toNat, 128 ≤ b.toNat := by
  have hbyte : ∀ n, 128 ≤ n → n < 256 → 128 ≤ (UInt8.ofNat n).toNat := fun n hle hlt => by
    rw [UInt8.toNat_ofNat', Nat.mod_eq_of_lt hlt]
    exact hle
  have hval : c.val.toNat = c.toNat := rfl
  rw [utf8_eq]
  unfold String.utf8EncodeChar
  dsimp only
  split
  · omega
  split
  · refine ⟨List.cons_ne_nil _ _, fun b hb => ?_⟩
    simp only [List.mem_cons, List.not_mem_nil, or_false] at hb
    rcases hb with rfl | rfl <;> exact hbyte _ (by omega) (by omega)
  split
  · refine ⟨List.cons_ne_nil _ _, fun b hb => ?_⟩
    simp only [List.mem_cons, List.not_mem_nil, or_false] at hb
    rcases hb with rfl | rfl | rfl <;> exact hbyte _ (by omega) (by omega)
  · refine ⟨List.cons_ne_nil _ _, fun b hb => ?_⟩
    simp only [List.mem_cons, List.not_mem_nil, or_false] at hb
    rcases hb with rfl | rfl | rfl | rfl <;> exact hbyte _ (by omega) (by omega)

theorem isWordChar_wide {n : Nat} (h : 128 ≤ n) (hlt : n < 256) : isWordChar (Char.ofNat n) = false := by
  have hall : ∀ n < 256, 128 ≤ n → isWordChar (Char.ofNat n) = false := by decide +kernel
  exact hall n hlt h

theorem toNat_lt_of_isWordChar {c : Char} (h : isWordChar c = true) : c.toNat < 128 := by
  rw [isWordChar, Bool.or_eq_true, decide_eq_true_eq] at h
  rcases h with h | rfl
  · delta Char.isAlphanum Char.isAlpha Char.isUpper Char.isLower Char.isDigit at h
    simp only [Bool.or_eq_true, Bool.and_eq_true, decide_eq_true_eq, UInt32.le_iff_toNat_le, UInt32.reduceToNat, Char.reduceVal, ge_iff_le] at h
    show c.val.toNat < 128
    omega
  · decide

theorem utf8_encodes : Encodes asciiWords.alphabet byteAlphabet fun c => Json.utf8 c.toNat where
  opening := by decide
  closing := by decide
  word c hc := by
    have hlt := toNat_lt_of_isWordChar hc
    refine ⟨_, utf8_ascii hlt, ?_⟩
    show isWordChar (Char.ofNat (UInt8.ofNat c.toNat).toNat) = true
    rw [ofNat_ascii hlt]
    exact hc
  other c ho hcl hc := by
    by_cases hlt : c.toNat < 128
    · rw [utf8_ascii hlt]
      refine ⟨List.cons_ne_nil _ _, fun y hy => ?_⟩
      rw [List.mem_singleton] at hy
      subst hy
      have hback := ofNat_ascii hlt
      refine ⟨fun heq => ho ?_, fun heq => hcl ?_, ?_⟩
      · rw [← hback, heq]
        decide
      · rw [← hback, heq]
        decide
      · show isWordChar (Char.ofNat (UInt8.ofNat c.toNat).toNat) = false
        rw [hback]
        exact hc
    · obtain ⟨hne, hall⟩ := utf8_wide (Nat.le_of_not_lt hlt)
      refine ⟨hne, fun y hy => ?_⟩
      have hwide := hall y hy
      refine ⟨?_, ?_, isWordChar_wide hwide y.toNat_lt⟩
      · rintro rfl
        exact absurd hwide (by decide)
      · rintro rfl
        exact absurd hwide (by decide)

theorem cppIsTemplatedString_eq (s : String) : cppIsTemplatedString s = goIsTemplatedString s :=
  utf8_encodes.search s.toList

theorem cppExtractBareField_eq (s : String) : cppExtractBareField s = (goExtractBareField s).map utf8Bytes := by
  rw [cppExtractBareField, utf8Bytes, utf8_encodes.whole, goExtractBareField, Option.map_map]
  refine congrArg (fun f => Option.map f _) (funext fun field => ?_)
  rw [Function.comp_apply, utf8Bytes, String.toList_ofList]

/-! ### One meaning for every matcher -/

variable {w : WordChars} {field rest : List Char}

theorem mark_eq (w : WordChars) (field : List Char) : w.alphabet.mark field = '{' :: '{' :: (field ++ ['}', '}']) := rfl

theorem markerAt?_eq (w : WordChars) (cs : List Char) :
    markerAt? w.word cs = (Marker.at? w.alphabet cs).map Prod.fst := by
  have hiff : ∀ field, markerAt? w.word cs = some field ↔
      field ≠ [] ∧ (∀ c ∈ field, w.word c = true) ∧ ∃ rest, cs = w.alphabet.mark field ++ rest := by
    intro field
    constructor
    · intro h
      unfold markerAt? at h
      split at h
      · next t =>
        dsimp only at h
        split at h
        · next hok =>
          cases h
          obtain ⟨rest, hrest⟩ := hok.2
          refine ⟨hok.1, fun c hc => List.mem_takeWhile_imp hc, rest, ?_⟩
          rw [mark_eq, List.cons_append, List.cons_append, List.append_assoc, hrest, List.takeWhile_append_dropWhile]
        · cases h
      · cases h
    · rintro ⟨hne, hword, rest, rfl⟩
      have hrun : LineReader.run w.word (field ++ '}' :: '}' :: rest) = (field, '}' :: '}' :: rest) :=
        LineReader.run_append hword w.alphabet.word_closing _
      simp only [LineReader.run, Prod.mk.injEq] at hrun
      rw [mark_eq, List.cons_append, List.cons_append, List.append_assoc, markerAt?]
      simp only [List.cons_append, List.nil_append, hrun]
      rw [if_pos ⟨hne, rest, rfl⟩]
  refine Option.ext fun field => (hiff field).trans ?_
  rw [Option.map_eq_some_iff]
  constructor
  · rintro ⟨hne, hword, rest, rfl⟩
    exact ⟨(field, rest), at?_eq_some.mpr ⟨hne, hword, rfl⟩, rfl⟩
  · rintro ⟨⟨_, rest⟩, h, rfl⟩
    obtain ⟨hne, hword, hcs⟩ := at?_eq_some.mp h
    exact ⟨hne, hword, rest, hcs⟩

theorem startsWithMarker_eq (cs : List Char) : startsWithMarker cs = (markerAt? isWordChar cs).isSome := by
  unfold startsWithMarker
  split
  · next t =>
    have hmarker : markerAt? isWordChar ('{' :: '{' :: t) =
        if t.takeWhile isWordChar ≠ [] ∧ ['}', '}'] <+: t.dropWhile isWordChar then
          some (t.takeWhile isWordChar) else none := rfl
    have hhead : (t.head?.map isWordChar).getD false = decide (t.takeWhile isWordChar ≠ []) := by
      rcases t with _ | ⟨c, t⟩
      · rfl
      · rcases hc : isWordChar c <;> simp [hc]
    rw [hmarker]
    split
    · next r hdrop =>
      rw [hhead, hdrop]
      by_cases hne : t.takeWhile isWordChar ≠ []
      · rw [if_pos ⟨hne, r, rfl⟩, decide_eq_true hne]
        rfl
      · rw [if_neg fun h => hne h.1, decide_eq_false hne]
        rfl
    · next hdrop =>
      have hnot : ¬ ['}', '}'] <+: t.dropWhile isWordChar := by
        rintro ⟨r, hr⟩
        exact hdrop r hr.symm
      simp [hnot]
  · next hno =>
    have hmarker : markerAt? isWordChar cs = none := by
      unfold markerAt?
      split
      · exact (hno _ rfl).elim
      · rfl
    rw [hmarker]
    rfl

/-- The searches of the engine model are the ones above. -/
theorem isTemplatedString_eq (s : String) : isTemplatedString (.string s) = goIsTemplatedString s := by
  have hsearch : ∀ cs, containsMarker cs = search asciiWords.alphabet cs := by
    intro cs
    induction cs with
    | nil => rfl
    | cons c cs ih =>
      have hat : markerAt? isWordChar (c :: cs) = _ := markerAt?_eq asciiWords (c :: cs)
      rw [containsMarker, search, ih, startsWithMarker_eq, hat, Option.isSome_map]
  exact hsearch s.toList

theorem goExtractBareField_eq_some {s f : String} : goExtractBareField s = some f ↔
    f.toList ≠ [] ∧ (∀ c ∈ f.toList, isWordChar c = true) ∧ s.toList = asciiWords.alphabet.mark f.toList := by
  rw [goExtractBareField, Option.map_eq_some_iff]
  constructor
  · rintro ⟨field, h, rfl⟩
    rw [String.toList_ofList]
    exact whole_eq_some.mp h
  · intro h
    exact ⟨f.toList, whole_eq_some.mpr h, String.ofList_toList⟩

theorem extractBareField_eq (s : String) : extractBareField s = goExtractBareField s := by
  refine Option.ext fun f => ?_
  rw [goExtractBareField_eq_some]
  unfold extractBareField
  constructor
  · intro h
    split at h
    · next t hs =>
      split at h
      · next field hrev =>
        split at h
        · next hok =>
          cases h
          simp only [Bool.and_eq_true, Bool.not_eq_true', List.all_eq_true, List.isEmpty_eq_false_iff] at hok
          rw [String.toList_ofList, hs, mark_eq]
          refine ⟨by simpa using hok.1, fun c hc => hok.2 c (List.mem_reverse.mp hc), ?_⟩
          rw [← List.reverse_reverse t, hrev]
          simp
        · cases h
      · cases h
    · cases h
  · rintro ⟨hne, hword, hs⟩
    rw [mark_eq] at hs
    have hok : (!f.toList.reverse.isEmpty && f.toList.reverse.all isWordChar) = true := by
      simpa using ⟨fun h => hne (by simp [h]), hword⟩
    simp only [hs, List.reverse_append, List.reverse_cons, List.reverse_nil, List.nil_append, List.cons_append]
    rw [if_pos hok, List.reverse_reverse, String.ofList_toList]

/-! ## Agreement -/

/-- The compiler and the engines agree on whether a parameter has a marker, whether it is one, and which field it
names; what the compiler lets through as a template, an engine that takes templates for the parameter resolves from the
recorded field. -/
structure MarkersAgree (w : WordChars) (s : String) : Prop where
  cpp : cppIsTemplatedString s = isTemplated w s
  go : goIsTemplatedString s = isTemplated w s
  cppBare : cppIsBareMarker s = isBareTemplate w s
  goBare : goIsBareMarker s = isBareTemplate w s
  field : ∀ f, bareTemplateField w s = some f → extractFields w.word s = [f] ∧ goExtractBareField s = some f ∧
    cppExtractBareField s = some (utf8Bytes f)
  resolved : ∀ f, bareTemplateField w s = some f → ∀ opName schema param spec, schema.find? param = some spec →
    spec.templatable = true → spec.type ∈ templatableScalarTypes →
      planParam opName schema param (.string s) = .ok (some ⟨param, normalizeScalarType spec.type, f⟩) ∧
        ∀ quote, goPlanParam quote opName schema param s = .ok (some ⟨param, normalizeScalarType spec.type, f⟩)

/-- `\x7b\x7bname\x7d\x7d` is somewhere in the text. -/
def Holds (s : String) (name : List Char) : Prop := ∃ a b, s.toList = a ++ ('{' :: '{' :: (name ++ ['}', '}']) ++ b)

/-- If the text has a marker whose name goes beyond ASCII, it has one whose name does not. -/
def AsciiNamed (w : WordChars) (s : String) : Prop :=
  (∃ name, Holds s name ∧ (∀ c ∈ name, w.word c = true) ∧ ∃ c ∈ name, 128 ≤ c.toNat) →
    ∃ name, Holds s name ∧ name ≠ [] ∧ ∀ c ∈ name, w.word c = true ∧ c.toNat < 128

theorem isTemplated_iff {s : String} : isTemplated w s = true ↔
    ∃ name, Holds s name ∧ name ≠ [] ∧ ∀ c ∈ name, w.word c = true := by
  rw [isTemplated, search_iff]
  constructor
  · rintro ⟨a, name, b, hs, hname⟩
    exact ⟨name, ⟨a, b, hs⟩, hname⟩
  · rintro ⟨name, ⟨a, b, hs⟩, hname⟩
    exact ⟨a, name, b, hs, hname⟩

theorem isWordChar_iff (w : WordChars) {c : Char} : isWordChar c = true ↔ w.word c = true ∧ c.toNat < 128 := by
  constructor
  · intro h
    have hlt := toNat_lt_of_isWordChar h
    exact ⟨(w.ascii c hlt).trans h, hlt⟩
  · rintro ⟨h, hlt⟩
    exact (w.ascii c hlt).symm.trans h

theorem goIsTemplatedString_iff (w : WordChars) {s : String} : goIsTemplatedString s = true ↔
    ∃ name, Holds s name ∧ name ≠ [] ∧ ∀ c ∈ name, w.word c = true ∧ c.toNat < 128 := by
  have h : goIsTemplatedString s = true ↔ _ := isTemplated_iff (w := asciiWords)
  rw [h]
  simp only [← isWordChar_iff w]
  rfl

/-- The engines find a marker where the compiler does exactly if the text is `AsciiNamed`. -/
theorem go_eq_iff (w : WordChars) (s : String) : goIsTemplatedString s = isTemplated w s ↔ AsciiNamed w s := by
  rw [Bool.eq_iff_iff, goIsTemplatedString_iff w, isTemplated_iff]
  constructor
  · rintro h ⟨name, hin, hword, c, hc, _⟩
    exact h.mpr ⟨name, hin, List.ne_nil_of_mem hc, hword⟩
  · intro h
    constructor
    · rintro ⟨name, hin, hne, hword⟩
      exact ⟨name, hin, hne, fun c hc => (hword c hc).1⟩
    · rintro ⟨name, hin, hne, hword⟩
      by_cases hascii : ∀ c ∈ name, c.toNat < 128
      · exact ⟨name, hin, hne, fun c hc => ⟨hword c hc, hascii c hc⟩⟩
      · push Not at hascii
        exact h ⟨name, hin, hword, hascii⟩

theorem bareTemplateField_eq_some {s f : String} : bareTemplateField w s = some f ↔
    f.toList ≠ [] ∧ (∀ c ∈ f.toList, w.word c = true) ∧ s.toList = w.alphabet.mark f.toList := by
  rw [bareTemplateField, Option.map_eq_some_iff]
  constructor
  · rintro ⟨field, h, rfl⟩
    rw [String.toList_ofList]
    exact whole_eq_some.mp h
  · intro h
    exact ⟨f.toList, whole_eq_some.mpr h, String.ofList_toList⟩

/-- A whole marker names an ASCII field as soon as the engines find a marker in it. -/
theorem goExtractBareField_of_bare {s f : String} (hgo : goIsTemplatedString s = true)
    (h : bareTemplateField w s = some f) : goExtractBareField s = some f := by
  obtain ⟨hne, hword, hs⟩ := bareTemplateField_eq_some.mp h
  obtain ⟨a, g, b, hsplit, hgne, hg⟩ := search_iff.mp hgo
  rw [hs] at hsplit
  obtain ⟨-, rfl, -⟩ := eq_of_mark (A := asciiWords.alphabet) (W := w.alphabet) rfl rfl (fun c hc => ((isWordChar_iff w).mp hc).1) hword hg hsplit
  exact goExtractBareField_eq_some.mpr ⟨hne, hg, hs⟩

theorem bare_of_goExtractBareField {s f : String} (h : goExtractBareField s = some f) :
    bareTemplateField w s = some f := by
  obtain ⟨hne, hword, hs⟩ := goExtractBareField_eq_some.mp h
  exact bareTemplateField_eq_some.mpr ⟨hne, fun c hc => ((isWordChar_iff w).mp (hword c hc)).1, hs⟩

/-- The fields of a whole marker are the one it names. -/
theorem extractFields_of_bare {s f : String} (h : bareTemplateField w s = some f) : extractFields w.word s = [f] := by
  obtain ⟨hne, hword, hs⟩ := bareTemplateField_eq_some.mp h
  have hhead : markerAt? w.word s.toList = some f.toList := by
    rw [markerAt?_eq, at?_eq_some.mpr ⟨hne, hword, hs.trans (List.append_nil _).symm⟩]
    rfl
  -- no marker begins after the first symbol
  have hrest : ('{' :: (f.toList ++ ['}', '}'])).tails.filterMap
      (fun cs => (markerAt? w.word cs).map String.ofList) = [] := by
    refine List.filterMap_eq_nil_iff.mpr fun cs hcs => ?_
    obtain ⟨a, ha⟩ := (List.mem_tails ..).mp hcs
    cases hat : markerAt? w.word cs with
    | none => rfl
    | some g =>
      rw [markerAt?_eq, Option.map_eq_some_iff] at hat
      obtain ⟨⟨_, b⟩, hat, rfl⟩ := hat
      obtain ⟨-, hg, rfl⟩ := at?_eq_some.mp hat
      have hin : w.alphabet.mark f.toList = ('{' :: a) ++ (w.alphabet.mark _ ++ b) := congrArg (List.cons '{') ha.symm
      obtain ⟨hnil, -, -⟩ := eq_of_mark rfl rfl (fun _ h => h) hword hg hin
      cases hnil
  rw [hs, mark_eq] at hhead
  rw [extractFields, hs, mark_eq, List.tails_cons, List.filterMap_cons, hhead, hrest]
  simp

theorem planParam_of_bare {opName param s f : String} {schema : OperatorSchema} {spec : ParamSchema}
    (hgo : goExtractBareField s = some f) (hspec : schema.find? param = some spec) (htemplatable : spec.templatable = true)
    (htype : spec.type ∈ templatableScalarTypes) (quote : String → String) :
    planParam opName schema param (.string s) = .ok (some ⟨param, normalizeScalarType spec.type, f⟩) ∧
      goPlanParam quote opName schema param s = .ok (some ⟨param, normalizeScalarType spec.type, f⟩) := by
  have htemplated : goIsTemplatedString s = true := by
    obtain ⟨hne, hword, hs⟩ := goExtractBareField_eq_some.mp hgo
    exact search_iff.mpr ⟨[], f.toList, [], hs.trans (List.append_nil _).symm, hne, hword⟩
  constructor
  · simp [planParam, isTemplatedString_eq, htemplated, hspec, htemplatable, htype, extractBareField_eq, hgo]
  · simp [goPlanParam, htemplated, hspec, htemplatable, htype, hgo]

/-- The three dialects agree on a parameter exactly when it is `AsciiNamed`. -/
theorem markers_agree_iff (w : WordChars) (s : String) : MarkersAgree w s ↔ AsciiNamed w s := by
  constructor
  · exact fun h => (go_eq_iff w s).mp h.go
  · intro h
    have hgo := (go_eq_iff w s).mpr h
    have hfield : ∀ f, bareTemplateField w s = some f → goExtractBareField s = some f := fun f hf => by
      refine goExtractBareField_of_bare ?_ hf
      obtain ⟨hne, hword, hs⟩ := bareTemplateField_eq_some.mp hf
      rw [hgo]
      exact search_iff.mpr ⟨[], f.toList, [], hs.trans (List.append_nil _).symm, hne, hword⟩
    have heq : goExtractBareField s = bareTemplateField w s :=
      Option.ext fun f => ⟨bare_of_goExtractBareField, hfield f⟩
    have hbare : goIsBareMarker s = isBareTemplate w s := congrArg Option.isSome heq
    refine ⟨(cppIsTemplatedString_eq s).trans hgo, hgo, ?_, hbare, fun f hf => ?_, fun f hf opName schema param spec hspec
      htemplatable htype => ⟨(planParam_of_bare (hfield f hf) hspec htemplatable htype id).1, fun quote =>
        (planParam_of_bare (hfield f hf) hspec htemplatable htype quote).2⟩⟩
    · rw [cppIsBareMarker, cppExtractBareField_eq, Option.isSome_map]
      exact hbare
    · exact ⟨extractFields_of_bare hf, hfield f hf, by rw [cppExtractBareField_eq, hfield f hf]; rfl⟩

/-- Word characters with one beyond ASCII, which Unicode has for a letter. -/
def accented : WordChars where
  word c := isWordChar c || c = 'é'
  ascii c hc := by
    have hne : c ≠ 'é' := by
      rintro rfl
      exact absurd hc (by decide)
    simp [hne]

/-- The compiler has `\x7b\x7bé\x7d\x7d` for a template, the engines for a literal. -/
theorem marker_beyond_ascii : ¬ MarkersAgree accented "\x7b\x7bé\x7d\x7d" := fun h =>
  absurd h.go (by decide +kernel)

end Markers

end Pineapple
