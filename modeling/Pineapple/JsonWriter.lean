import Pineapple.JsonAccepts
import Pineapple.JsonFormat

/-! # The JSON writer (`json_writer.hpp`) and what is read back

RapidJSON's writers put white space between the tokens, the compact one none; which is left to a layout. -/

namespace Pineapple.Json

/-! ## Strings -/

def hexChar (n : Nat) : UInt8 := if n < 10 then (48 + n).toUInt8 else (97 + (n - 10)).toUInt8

/-- The escape that `write_go_string` puts for a byte. -/
def escapeOf (ch : UInt8) : Option Bytes :=
  if ch = ascii '"' then some [ascii '\\', ascii '"']
  else if ch = ascii '\\' then some [ascii '\\', ascii '\\']
  else if ch = 10 then some [ascii '\\', ascii 'n']
  else if ch = 13 then some [ascii '\\', ascii 'r']
  else if ch = 9 then some [ascii '\\', ascii 't']
  else if ch = 8 then some [ascii '\\', ascii 'b']
  else if ch = 12 then some [ascii '\\', ascii 'f']
  else if ch = ascii '<' then some (ascii '\\' :: token "u003c")
  else if ch = ascii '>' then some (ascii '\\' :: token "u003e")
  else if ch = ascii '&' then some (ascii '\\' :: token "u0026")
  else if ch < 0x20 then
    some [ascii '\\', ascii 'u', ascii '0', ascii '0', hexChar (ch.toNat / 16), hexChar (ch.toNat % 16)]
  else none

/-- The loop of `write_go_string`. -/
def escapeString : Bytes → Bytes
  | [] => []
  | ch :: s =>
    match escapeOf ch with
    | some esc => esc ++ escapeString s
    | none =>
      match s with
      | b1 :: b2 :: t =>
        if ch = 0xE2 ∧ b1 = 0x80 ∧ (b2 = 0xA8 ∨ b2 = 0xA9) then
          (ascii '\\' :: if b2 = 0xA8 then token "u2028" else token "u2029") ++ escapeString t
        else ch :: escapeString (b1 :: b2 :: t)
      | [b1] => ch :: escapeString [b1]
      | [] => [ch]

/-- One round of the loop of `write_go_string`. -/
theorem escapeString_cons (b : UInt8) (s : Bytes) : escapeString (b :: s) =
    match escapeOf b with
    | some esc => esc ++ escapeString s
    | none =>
      match s with
      | b1 :: b2 :: t =>
        if b = 0xE2 ∧ b1 = 0x80 ∧ (b2 = 0xA8 ∨ b2 = 0xA9) then
          (ascii '\\' :: if b2 = 0xA8 then token "u2028" else token "u2029") ++ escapeString t
        else b :: escapeString (b1 :: b2 :: t)
      | [b1] => b :: escapeString [b1]
      | [] => [b] :=
  escapeString.eq_def (b :: s)

/-- `write_go_string`. -/
def writeGoString (s : Bytes) : Bytes := ascii '"' :: (escapeString s ++ [ascii '"'])

/-! ## Values -/

/-- What a RapidJSON writer puts between the tokens: before an element or a member at a depth and before the bracket
that closes them, and after the colon of a member. -/
structure Layout where
  line : Nat → Bytes
  afterColon : Bytes
  line_space : ∀ depth, (line depth).all isSpace = true
  afterColon_space : afterColon.all isSpace = true

/-- `rapidjson::Writer`. -/
def Layout.compact : Layout where
  line _ := []
  afterColon := []
  line_space _ := rfl
  afterColon_space := rfl

/-- `rapidjson::PrettyWriter`, by blanks. -/
def Layout.pretty (indent : Nat) : Layout where
  line depth := 10 :: List.replicate (indent * depth) (ascii ' ')
  afterColon := [ascii ' ']
  line_space depth := List.all_eq_true.mpr fun b hb => by
    rcases List.mem_cons.mp hb with rfl | hb
    · rfl
    · exact List.eq_of_mem_replicate hb ▸ rfl
  afterColon_space := rfl

section
variable (toChars : FiniteBinary64 → Bytes) (layout : Layout)

/-- What stands between a pair of brackets. -/
def enclose (depth : Nat) : List Bytes → Bytes
  | [] => []
  | text :: texts =>
    layout.line (depth + 1) ++ (text ++ (texts.flatMap fun text => ascii ',' :: (layout.line (depth + 1) ++ text))) ++
      layout.line depth

def writeMember (e : Bytes × Bytes) : Bytes := writeGoString e.1 ++ (ascii ':' :: (layout.afterColon ++ e.2))

mutual

/-- `write_json_value`, at a depth of the writer's. -/
def writeValue (depth : Nat) : Value → Bytes
  | .null => token "null"
  | .bool b => if b then token "true" else token "false"
  | .number d => formatNumber toChars d
  | .string s => writeGoString s
  | .array xs => ascii '[' :: (enclose layout depth (writeElements depth xs) ++ [ascii ']'])
  | .object es =>
    ascii '{' :: (enclose layout depth
      (((writeFields depth es).mergeSort fun a b => !keyLess b.1 a.1).map (writeMember layout)) ++ [ascii '}'])

def writeElements (depth : Nat) : List Value → List Bytes
  | [] => []
  | v :: vs => writeValue (depth + 1) v :: writeElements depth vs

/-- The keys and the texts of their values. -/
def writeFields (depth : Nat) : List (Bytes × Value) → List (Bytes × Bytes)
  | [] => []
  | e :: es => (e.1, writeValue (depth + 1) e.2) :: writeFields depth es

end

end

/-- `dump_json`, over the layouts of the compact writer (no indent) and of the pretty one. -/
def dumpJson (toChars : FiniteBinary64 → Bytes) (layouts : Nat → Layout) (v : Value) (indent : Nat) : Bytes :=
  writeValue toChars (layouts indent) 0 v ++ if indent = 0 then [] else [10]

/-! ## Strings are read back -/

section
variable {s out t : Bytes}

theorem hex4_control (n : Fin 32) : hex4 (ascii '0') (ascii '0') (hexChar (n.val / 16)) (hexChar (n.val % 16)) = some n.val := by
  revert n
  decide

/-- An escape is a letter for the byte, or its number in hexadecimal digits. -/
def EscapeFor (ch : UInt8) (esc : Bytes) : Prop :=
  (∃ letter, esc = [ascii '\\', letter] ∧ simpleEscape letter = some ch) ∨
    ∃ c d, esc = [ascii '\\', ascii 'u', ascii '0', ascii '0', c, d] ∧
      hex4 (ascii '0') (ascii '0') c d = some ch.toNat ∧ ch.toNat < 0x80

section
variable {ch c : UInt8} {esc : Bytes} {rest : Option Bytes}

theorem escapeFor_letter {letter : UInt8} (h : (if ch = c then some [ascii '\\', letter] else rest) = some esc)
    (hletter : simpleEscape letter = some c) : EscapeFor ch esc ∨ rest = some esc := by
  rcases ite_eq_iff.mp h with ⟨rfl, hesc⟩ | ⟨_, hrest⟩
  · exact .inl (.inl ⟨letter, (Option.some.inj hesc).symm, hletter⟩)
  · exact .inr hrest

theorem escapeFor_number {a b : UInt8}
    (h : (if ch = c then some [ascii '\\', ascii 'u', ascii '0', ascii '0', a, b] else rest) = some esc)
    (hhex : hex4 (ascii '0') (ascii '0') a b = some c.toNat) (hlt : c.toNat < 0x80) :
    EscapeFor ch esc ∨ rest = some esc := by
  rcases ite_eq_iff.mp h with ⟨rfl, hesc⟩ | ⟨_, hrest⟩
  · exact .inl (.inr ⟨a, b, (Option.some.inj hesc).symm, hhex, hlt⟩)
  · exact .inr hrest

end

theorem escapeOf_cases {ch : UInt8} {esc : Bytes} (h : escapeOf ch = some esc) : EscapeFor ch esc := by
  unfold escapeOf at h
  iterate 7
    rcases escapeFor_letter h rfl with hesc | h
    · exact hesc
  iterate 3
    rcases escapeFor_number h rfl (by decide) with hesc | h
    · exact hesc
  rcases ite_eq_iff.mp h with ⟨hlow, hesc⟩ | ⟨_, hnone⟩
  · have hlt : ch.toNat < 32 := UInt8.lt_iff_toNat_lt.mp hlow
    exact .inr ⟨_, _, (Option.some.inj hesc).symm, hex4_control ⟨ch.toNat, hlt⟩, by omega⟩
  · exact nomatch hnone

theorem escape_written {ch : UInt8} {esc : Bytes} (h : escapeOf ch = some esc) (hs : Chars relaxed s out t) :
    Chars relaxed (esc ++ s) (ch :: out) t := by
  rcases escapeOf_cases h with ⟨letter, rfl, hletter⟩ | ⟨c, d, rfl, hhex, hlt⟩
  · exact .escape hletter hs
  · have hutf8 : utf8 ch.toNat = [ch] := by
      unfold utf8
      rw [if_pos hlt, Nat.toUInt8_eq, UInt8.ofNat_toNat]
    have hunicode := Chars.unicode (g := relaxed) hhex (fun hhigh => absurd hhigh.1 (by omega)) hs
    rw [hutf8] at hunicode
    exact hunicode

theorem separator_written {b2 : UInt8} (h : b2 = 0xA8 ∨ b2 = 0xA9) (hs : Chars relaxed s out t) :
    Chars relaxed ((ascii '\\' :: if b2 = 0xA8 then token "u2028" else token "u2029") ++ s)
      (0xE2 :: 0x80 :: b2 :: out) t := by
  rcases h with rfl | rfl
  · exact @Chars.unicode relaxed _ _ _ _ 0x2028 _ _ _ rfl (by decide) hs
  · exact @Chars.unicode relaxed _ _ _ _ 0x2029 _ _ _ rfl (by decide) hs

theorem raw_written {ch : UInt8} (h : escapeOf ch = none) (hs : Chars relaxed s out t) :
    Chars relaxed (ch :: s) (ch :: out) t := by
  have hraw : relaxed.raw [ch] := by
    refine ⟨ch, rfl, ?_, ?_⟩ <;> rintro rfl <;> exact absurd h nofun
  exact .raw hraw hs

theorem string_written (s t : Bytes) : Chars relaxed (escapeString s ++ (ascii '"' :: t)) s t := by
  fun_induction escapeString s
  case case1 => exact .close
  case case2 ch s esc hesc ih =>
    rw [List.append_assoc]
    exact escape_written hesc ih
  case case3 ch hesc b1 b2 s hsep ih =>
    obtain ⟨rfl, rfl, hb2⟩ := hsep
    rw [List.append_assoc]
    exact separator_written hb2 ih
  case case4 ch hesc b1 b2 s hsep ih => exact raw_written hesc ih
  case case5 ch hesc b1 ih => exact raw_written hesc ih
  case case6 ch hesc => exact raw_written hesc .close

end

/-! ## Values are read back -/

/-- A value with finite numbers, its objects as `FlatMap` keeps them: by key, no key twice. -/
inductive Value.Writable (toChars : FiniteBinary64 → Bytes) : Value → Prop
  | null : Writable toChars .null
  | bool (b : Bool) : Writable toChars (.bool b)
  | number {f : FiniteBinary64} : (f.mant ≠ 0 → RoundTrips toChars f) → Writable toChars (.number (.finite f))
  | string (s : Bytes) : Writable toChars (.string s)
  | array {xs : List Value} : (∀ v ∈ xs, Writable toChars v) → Writable toChars (.array xs)
  | object {es : List (Bytes × Value)} : es.Pairwise (fun a b => keyLess a.1 b.1 = true) →
      (∀ e ∈ es, Writable toChars e.2) → Writable toChars (.object es)

theorem keyLess_asymm {a b : Bytes} (h : keyLess a b = true) : keyLess b a = false :=
  decide_eq_false (List.lt_asymm (of_decide_eq_true h))

theorem emplace_last {acc : List (Bytes × Value)} {key : Bytes} (v : Value)
    (h : ∀ e ∈ acc, keyLess e.1 key = true) : emplace key v acc = acc ++ [(key, v)] := by
  induction acc with
  | nil => rfl
  | cons e acc ih =>
    rw [emplace, if_pos (h e List.mem_cons_self), ih fun e he => h e (List.mem_cons_of_mem _ he)]
    rfl

theorem emplaceAll_sorted {acc es : List (Bytes × Value)}
    (h : (acc ++ es).Pairwise fun a b => keyLess a.1 b.1 = true) : emplaceAll acc es = acc ++ es := by
  induction es generalizing acc with
  | nil => exact (List.append_nil acc).symm
  | cons e es ih =>
    have hlast : ∀ a ∈ acc, keyLess a.1 e.1 = true := fun a ha =>
      (List.pairwise_append.mp h).2.2 a ha e List.mem_cons_self
    have hassoc : acc ++ [e] ++ es = acc ++ e :: es := List.append_assoc acc [e] es
    show emplaceAll (emplace e.1 e.2 acc) es = _
    rw [emplace_last e.2 hlast, ih (hassoc ▸ h), hassoc]

section
variable {toChars : FiniteBinary64 → Bytes} {layout : Layout} {t : Bytes}

theorem blanks_space {space : Bytes} (h : space.all isSpace = true) (t : Bytes) : Blanks relaxed (space ++ t) t := by
  induction space with
  | nil => exact .nil
  | cons b space ih =>
    rw [List.all_cons, Bool.and_eq_true] at h
    exact .cons h.1 (ih h.2)

theorem writeElements_eq (depth : Nat) (xs : List Value) :
    writeElements toChars layout depth xs = xs.map (writeValue toChars layout (depth + 1)) := by
  induction xs with
  | nil => rfl
  | cons v vs ih => rw [writeElements, ih, List.map_cons]

theorem writeFields_eq (depth : Nat) (es : List (Bytes × Value)) :
    writeFields toChars layout depth es = es.map fun e => (e.1, writeValue toChars layout (depth + 1) e.2) := by
  induction es with
  | nil => rfl
  | cons e es ih => rw [writeFields, ih, List.map_cons]

/-- Keys in order stay where they are. -/
theorem writeFields_sorted (depth : Nat) {es : List (Bytes × Value)}
    (h : es.Pairwise fun a b => keyLess a.1 b.1 = true) :
    (writeFields toChars layout depth es).mergeSort (fun a b => !keyLess b.1 a.1) =
      writeFields toChars layout depth es := by
  refine List.mergeSort_of_pairwise ?_
  rw [writeFields_eq, List.pairwise_map]
  exact h.imp fun hab => by rw [keyLess_asymm hab]; rfl

/-- The text of an element or a member after the first, up to the closing bracket. -/
def separated (layout : Layout) (depth : Nat) (text : Bytes) : Bytes :=
  ascii ',' :: (layout.line (depth + 1) ++ text)

theorem separated_append (depth : Nat) (text t : Bytes) :
    separated layout depth text ++ t = ascii ',' :: (layout.line (depth + 1) ++ (text ++ t)) := by
  rw [separated, List.cons_append, List.append_assoc]

theorem enclose_cons (depth : Nat) (text : Bytes) (texts : List Bytes) (t : Bytes) :
    enclose layout depth (text :: texts) ++ t =
      layout.line (depth + 1) ++ (text ++ (texts.flatMap (separated layout depth) ++ (layout.line depth ++ t))) := by
  unfold enclose separated
  simp only [List.append_assoc]

/-- An array's elements are read back when each of them is. -/
theorem elements_written (depth : Nat) {v : Value} {vs : List Value}
    (h : ∀ w ∈ v :: vs, ∀ t, IsValue relaxed (writeValue toChars layout (depth + 1) w ++ t) w t) :
    IsElements relaxed (layout.line (depth + 1) ++ (writeValue toChars layout (depth + 1) v ++
      ((vs.map (writeValue toChars layout (depth + 1))).flatMap (separated layout depth) ++
        (layout.line depth ++ (ascii ']' :: t))))) (v :: vs) t := by
  have hline := layout.line_space
  induction vs generalizing v with
  | nil => exact .last (blanks_space (hline _) _) (h v List.mem_cons_self _) (blanks_space (hline _) _)
  | cons w vs ih =>
    rw [List.map_cons, List.flatMap_cons, List.append_assoc, separated_append]
    refine .more (blanks_space (hline _) _) (h v List.mem_cons_self _) .nil ?_
    exact ih fun w hw => h w (List.mem_cons_of_mem _ hw)

theorem member_written (depth : Nat) {e : Bytes × Value} {space : Bytes} (hspace : space.all isSpace = true)
    (h : ∀ t, IsValue relaxed (writeValue toChars layout (depth + 1) e.2 ++ t) e.2 t) (t : Bytes) :
    IsMember relaxed (space ++ (writeMember layout (e.1, writeValue toChars layout (depth + 1) e.2) ++ t)) e t := by
  unfold writeMember writeGoString
  simp only [List.append_assoc, List.cons_append, List.nil_append]
  exact .mk (blanks_space hspace _) (string_written e.1 _) .nil (blanks_space layout.afterColon_space _) (h t)

/-- An object's members are read back when each of their values is. -/
theorem members_written (depth : Nat) {e : Bytes × Value} {es : List (Bytes × Value)}
    (h : ∀ e' ∈ e :: es, ∀ t, IsValue relaxed (writeValue toChars layout (depth + 1) e'.2 ++ t) e'.2 t) :
    IsMembers relaxed (layout.line (depth + 1) ++
      (writeMember layout (e.1, writeValue toChars layout (depth + 1) e.2) ++
        (((es.map fun e => (e.1, writeValue toChars layout (depth + 1) e.2)).map (writeMember layout)).flatMap
          (separated layout depth) ++ (layout.line depth ++ (ascii '}' :: t))))) (e :: es) t := by
  have hline := layout.line_space
  induction es generalizing e with
  | nil => exact .last (member_written depth (hline _) (h e List.mem_cons_self) _) (blanks_space (hline _) _)
  | cons e' es ih =>
    rw [List.map_cons, List.map_cons, List.flatMap_cons, List.append_assoc, separated_append]
    refine .more (member_written depth (hline _) (h e List.mem_cons_self) _) .nil ?_
    exact ih fun e' he' => h e' (List.mem_cons_of_mem _ he')

theorem value_written {v : Value} (hv : v.Writable toChars) (depth : Nat) (t : Bytes) :
    IsValue relaxed (writeValue toChars layout depth v ++ t) v t := by
  induction hv generalizing depth t with
  | null => exact .null
  | bool b => cases b <;> constructor
  | number h =>
    obtain ⟨n, hn, htext, hvalue⟩ := formatNumber_reads h
    rw [writeValue, htext]
    exact .number hn hvalue
  | string s =>
    rw [writeValue, writeGoString, List.cons_append, List.append_assoc]
    exact .string (string_written s t)
  | @array xs _ ih =>
    rw [writeValue, writeElements_eq, List.cons_append, List.append_assoc]
    cases xs with
    | nil => exact .emptyArray .nil
    | cons v vs =>
      rw [List.map_cons, enclose_cons]
      exact .array (elements_written depth fun w hw => ih w hw (depth + 1))
  | @object es hsorted _ ih =>
    rw [writeValue, writeFields_sorted depth hsorted, writeFields_eq, List.cons_append, List.append_assoc]
    cases es with
    | nil => exact .emptyObject .nil
    | cons e es =>
      have hread := IsValue.object (@members_written toChars layout t depth e es fun e he => ih e he (depth + 1))
      rw [@emplaceAll_sorted [] (e :: es) hsorted] at hread
      rw [List.map_cons, List.map_cons, enclose_cons]
      exact hread

end

/-- What `dump_json` writes of a value, `parse_json` reads back, whatever the indent. -/
theorem parseJson_dumpJson {toChars : FiniteBinary64 → Bytes} (layouts : Nat → Layout) {v : Value}
    (hv : v.Writable toChars) (indent : Nat) : parseJson (dumpJson toChars layouts v indent) = .ok v := by
  have htail : Blanks relaxed (if indent = 0 then [] else [10]) [] := by
    split
    · exact .nil
    · exact .cons rfl .nil
  exact parseJson_eq_ok.mpr ⟨_, _, .nil, value_written hv 0 _, htail⟩

def threeHalves : FiniteBinary64 where
  neg := false
  mant := 3 * 2 ^ 51
  exp := -52
  mant_lt := by decide
  exp_ge := by decide
  exp_le := by decide
  normal := .inl (by decide)

theorem threeHalves_roundTrips : RoundTrips (fun _ => token "1.5e+00") threeHalves where
  scientific := ⟨⟨false, ascii '1', [ascii '5'], ascii '+', [ascii '0', ascii '0'], rfl, by decide, by decide, rfl, rfl⟩,
    rfl, rfl⟩
  value := by decide +kernel

theorem parseJson_dumpJson_threeHalves :
    parseJson (dumpJson (fun _ => token "1.5e+00") (fun n => if n = 0 then .compact else .pretty n)
      (.object [(token "a", .number (.finite threeHalves))]) 2) =
      .ok (.object [(token "a", .number (.finite threeHalves))]) :=
  parseJson_dumpJson _
    (.object (List.pairwise_singleton _ _) fun e he => by
      obtain rfl := List.mem_singleton.mp he
      exact .number fun _ => threeHalves_roundTrips) 2

end Pineapple.Json
