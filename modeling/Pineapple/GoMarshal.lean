import Pineapple.JsonEquality

/-! # What `encoding/json` writes of a decoded value

`json.Marshal` and the compact writer of the C++ engine write the same bytes. -/

namespace Pineapple

open Json (Bytes ascii token keyLess hexChar escapeOf escapeString writeGoString)
open Reorder (utf8Bytes toJson)

/-! ## The encoder -/

/-- The loop body of `appendString`, with HTML escaped. -/
def goEscapeRune (c : Char) : Bytes :=
  let n := c.toNat
  if n < 0x80 then
    if c = '\\' ∨ c = '"' then [ascii '\\', ascii c]
    else if n = 8 then [ascii '\\', ascii 'b']
    else if n = 12 then [ascii '\\', ascii 'f']
    else if n = 10 then [ascii '\\', ascii 'n']
    else if n = 13 then [ascii '\\', ascii 'r']
    else if n = 9 then [ascii '\\', ascii 't']
    else if n < 0x20 ∨ c = '<' ∨ c = '>' ∨ c = '&' then
      [ascii '\\', ascii 'u', ascii '0', ascii '0', hexChar (n / 16), hexChar (n % 16)]
    else [ascii c]
  else if n = 0x2028 ∨ n = 0x2029 then
    [ascii '\\', ascii 'u', ascii '2', ascii '0', ascii '2', hexChar (n % 16)]
  else Json.utf8 n

/-- `appendString`. -/
def goAppendString (s : String) : Bytes := ascii '"' :: (s.toList.flatMap goEscapeRune ++ [ascii '"'])

def commaSeparated : List Bytes → Bytes
  | [] => []
  | text :: texts => text ++ texts.flatMap fun text => ascii ',' :: text

mutual
/-- `json.Marshal` of a decoded value; an infinity or a NaN is an error. -/
def goMarshal : Variant → Option Bytes
  | .null => some (token "null")
  | .bool b => some (if b then token "true" else token "false")
  | .number (.finite f) => some ((Json.goEncodeFloat f).map ascii)
  | .number _ => none
  | .string s => some (goAppendString s)
  | .array xs => (goMarshalArray xs).map fun texts => ascii '[' :: (commaSeparated texts ++ [ascii ']'])
  | .object es => (goMarshalFields es).map fun fields =>
    let sv := fields.mergeSort fun a b => !keyLess (utf8Bytes b.1) (utf8Bytes a.1)
    ascii '{' :: (commaSeparated (sv.map fun kv => goAppendString kv.1 ++ ascii ':' :: kv.2) ++ [ascii '}'])

def goMarshalArray : List Variant → Option (List Bytes)
  | [] => some []
  | x :: xs => do
    let text ← goMarshal x
    let texts ← goMarshalArray xs
    return text :: texts

def goMarshalFields : List (String × Variant) → Option (List (String × Bytes))
  | [] => some []
  | (k, v) :: es => do
    let text ← goMarshal v
    let fields ← goMarshalFields es
    return (k, text) :: fields
end

/-! ## Strings -/

theorem escapeOf_high {b : UInt8} (h : 0x80 ≤ b.toNat) : escapeOf b = none := by
  have hall : ∀ n : Fin 256, 0x80 ≤ n.val → escapeOf (UInt8.ofNat n.val) = none := by decide +kernel
  have hb := hall ⟨b.toNat, b.toNat_lt⟩ h
  rwa [UInt8.ofNat_toNat] at hb

/-- A byte with an escape. -/
theorem escapeString_some {b : UInt8} {esc : Bytes} (h : escapeOf b = some esc) (s : Bytes) :
    escapeString (b :: s) = esc ++ escapeString s := by
  rw [Json.escapeString_cons, h]

/-- A byte that needs no escape stands as it is, unless it starts a separator. -/
theorem escapeString_raw {b : UInt8} (h : escapeOf b = none) {s : Bytes}
    (hne : ∀ b1 b2 t, s = b1 :: b2 :: t → ¬ (b = 0xE2 ∧ b1 = 0x80 ∧ (b2 = 0xA8 ∨ b2 = 0xA9))) :
    escapeString (b :: s) = b :: escapeString s := by
  rw [Json.escapeString_cons, h]
  dsimp only
  rcases s with _ | ⟨b1, _ | ⟨b2, t⟩⟩
  · rfl
  · rfl
  · exact if_neg (hne b1 b2 t rfl)

/-- The bytes of the line and paragraph separators. -/
theorem escapeString_separator {b2 : UInt8} (h : b2 = 0xA8 ∨ b2 = 0xA9) (s : Bytes) :
    escapeString (0xE2 :: 0x80 :: b2 :: s) =
      (ascii '\\' :: if b2 = 0xA8 then token "u2028" else token "u2029") ++ escapeString s := by
  rw [Json.escapeString_cons, show escapeOf 0xE2 = none from rfl]
  exact if_pos ⟨rfl, rfl, h⟩

theorem toNat_toUInt8 {n : Nat} (h : n < 256) : n.toUInt8.toNat = n := Nat.mod_eq_of_lt h

theorem escapeString_high {n : Nat} (hlo : 0x80 ≤ n) (hhi : n < 256) (hne : n ≠ 0xE2) (s : Bytes) :
    escapeString (n.toUInt8 :: s) = n.toUInt8 :: escapeString s := by
  have hbyte := toNat_toUInt8 hhi
  refine escapeString_raw (escapeOf_high (by rw [hbyte]; exact hlo)) fun _ _ _ _ hsep => hne ?_
  rw [← hbyte, hsep.1]
  rfl

/-- Three bytes of a rune, apart from the separators. -/
theorem escapeString_three {a b c : Nat} (ha : 0xE0 ≤ a ∧ a < 0xF0) (hb : 0x80 ≤ b ∧ b < 0xC0) (hc : 0x80 ≤ c ∧ c < 0xC0)
    (hsep : ¬ (a = 0xE2 ∧ b = 0x80 ∧ (c = 0xA8 ∨ c = 0xA9))) (s : Bytes) :
    escapeString (a.toUInt8 :: b.toUInt8 :: c.toUInt8 :: s) = a.toUInt8 :: b.toUInt8 :: c.toUInt8 :: escapeString s := by
  have hbyte : ∀ {n m : Nat}, n < 256 → n.toUInt8 = m.toUInt8 → m < 256 → n = m := fun hn h hm => by
    rw [← toNat_toUInt8 hn, h, toNat_toUInt8 hm]
  have hnone : escapeOf a.toUInt8 = none := escapeOf_high (by rw [toNat_toUInt8 (by omega)]; omega)
  rw [escapeString_raw hnone, escapeString_high hb.1 (by omega) (by omega), escapeString_high hc.1 (by omega) (by omega)]
  rintro b1 b2 t heq ⟨h1, h2, h3⟩
  simp only [List.cons.injEq] at heq
  obtain ⟨hb1, hb2, -⟩ := heq
  rw [← hb1] at h2
  rw [← hb2] at h3
  refine hsep ⟨hbyte (by omega) h1 (by omega), hbyte (by omega) h2 (by omega), ?_⟩
  exact h3.imp (fun h => hbyte (by omega) h (by omega)) fun h => hbyte (by omega) h (by omega)

theorem goEscapeRune_ascii (n : Fin 128) :
    goEscapeRune (Char.ofNat n.val) = (escapeOf n.val.toUInt8).getD [n.val.toUInt8] := by
  revert n
  decide +kernel

theorem lead_bytes (n : Nat) (h : n < 0x110000) : (n < 0x800 → (0xC0 ||| n >>> 6) = n / 64 + 0xC0) ∧
    (n < 0x10000 → (0xE0 ||| n >>> 12) = n / 4096 + 0xE0) ∧ (0xF0 ||| n >>> 18) = n / 262144 + 0xF0 := by
  simp only [Nat.shiftRight_eq_div_pow]
  refine ⟨fun h2 => ?_, fun h3 => ?_, ?_⟩
  · exact @lead_byte 6 3 _ (by omega)
  · exact @lead_byte 5 7 _ (by omega)
  · exact @lead_byte 4 15 _ (by omega)

/-- The bytes of a rune are escaped as Go escapes the rune. -/
theorem escapeString_rune (c : Char) (s : Bytes) :
    escapeString (Json.utf8 c.toNat ++ s) = goEscapeRune c ++ escapeString s := by
  have hvalid : c.toNat < 0x110000 := by
    rcases c.valid with h | h
    · exact Nat.lt_trans h (by decide)
    · exact h.2
  obtain ⟨hlead2, hlead3, hlead4⟩ := lead_bytes c.toNat hvalid
  by_cases h1 : c.toNat < 0x80
  · have hrune := goEscapeRune_ascii ⟨c.toNat, h1⟩
    rw [Char.ofNat_toNat] at hrune
    unfold Json.utf8
    rw [if_pos h1, hrune, List.singleton_append]
    cases hesc : escapeOf c.toNat.toUInt8 with
    | none =>
      refine escapeString_raw hesc fun _ _ _ _ hsep => ?_
      have := congrArg UInt8.toNat hsep.1
      rw [toNat_toUInt8 (by omega)] at this
      have : c.toNat = 0xE2 := this
      omega
    | some esc => exact escapeString_some hesc s
  · have hrune : goEscapeRune c = if c.toNat = 0x2028 ∨ c.toNat = 0x2029 then
        [ascii '\\', ascii 'u', ascii '2', ascii '0', ascii '2', hexChar (c.toNat % 16)] else Json.utf8 c.toNat := if_neg h1
    by_cases hsep : c.toNat = 0x2028 ∨ c.toNat = 0x2029
    · rw [hrune, if_pos hsep]
      rcases hsep with h | h
      · rw [h]
        exact escapeString_separator (Or.inl rfl) s
      · rw [h]
        exact escapeString_separator (Or.inr rfl) s
    rw [hrune, if_neg hsep]
    unfold Json.utf8
    rw [if_neg h1]
    by_cases h2 : c.toNat < 0x800
    · rw [if_pos h2, hlead2 h2, trail_byte]
      exact (escapeString_high (by omega) (by omega) (by omega) _).trans
        (congrArg _ (escapeString_high (by omega) (by omega) (by omega) s))
    · rw [if_neg h2]
      by_cases h3 : c.toNat < 0x10000
      · rw [if_pos h3, hlead3 h3, trail_byte, trail_byte]
        refine escapeString_three (by omega) (by omega) (by omega) ?_ s
        rw [Nat.shiftRight_eq_div_pow]
        omega
      · rw [if_neg h3, hlead4, trail_byte, trail_byte, trail_byte]
        refine (escapeString_high (by omega) (by omega) (by omega) _).trans (congrArg _ ?_)
        refine (escapeString_high (by omega) (by omega) (by omega) _).trans (congrArg _ ?_)
        exact (escapeString_high (by omega) (by omega) (by omega) _).trans
          (congrArg _ (escapeString_high (by omega) (by omega) (by omega) s))

theorem goAppendString_eq (s : String) : goAppendString s = writeGoString (utf8Bytes s) := by
  have hloop : ∀ cs : List Char, escapeString (cs.flatMap fun c => Json.utf8 c.toNat) = cs.flatMap goEscapeRune := by
    intro cs
    induction cs with
    | nil => rfl
    | cons c cs ih => rw [List.flatMap_cons, escapeString_rune, ih, List.flatMap_cons]
  unfold goAppendString Json.writeGoString Reorder.utf8Bytes
  rw [hloop]

/-! ## Values -/

theorem enclose_compact (depth : Nat) (texts : List Bytes) : Json.enclose .compact depth texts = commaSeparated texts := by
  rcases texts with _ | ⟨text, texts⟩
  · rfl
  · exact (List.append_nil _).trans (congrArg (text ++ ·) rfl)

theorem goMarshalArray_eq {xs : List Variant} {g : Variant → Bytes} (h : ∀ v ∈ xs, goMarshal v = some (g v)) :
    goMarshalArray xs = some (xs.map g) := by
  induction xs with
  | nil => rw [goMarshalArray, List.map_nil]
  | cons x xs ih =>
    rw [goMarshalArray, h x List.mem_cons_self, ih fun v hv => h v (List.mem_cons_of_mem _ hv)]
    rfl

theorem goMarshalFields_eq {es : List (String × Variant)} {g : Variant → Bytes}
    (h : ∀ e ∈ es, goMarshal e.2 = some (g e.2)) : goMarshalFields es = some (es.map fun e => (e.1, g e.2)) := by
  induction es with
  | nil => rw [goMarshalFields, List.map_nil]
  | cons e es ih =>
    rw [goMarshalFields, h e List.mem_cons_self, ih fun e he => h e (List.mem_cons_of_mem _ he)]
    rfl

/-- `json.Marshal` writes a stored value as the compact writer does. -/
theorem goMarshal_eq {v : Variant} (hv : v.Stored) (depth : Nat) :
    goMarshal v = some (Json.writeValue Json.toCharsBytes .compact depth (toJson v)) := by
  induction hv generalizing depth with
  | null => rw [goMarshal, toJson, Json.writeValue]
  | bool b => rw [goMarshal, toJson, Json.writeValue]
  | number f => rw [goMarshal, toJson, Json.writeValue, Json.formatNumber_eq]
  | string s => rw [goMarshal, toJson, Json.writeValue, goAppendString_eq]
  | array _ ih =>
    rw [goMarshal, goMarshalArray_eq fun v hv => ih v hv (depth + 1), toJson, toJsonArray_eq, Json.writeValue,
      Json.writeElements_eq, enclose_compact, List.map_map]
    rfl
  | @object es hsorted _ ih =>
    have hcpp := @Json.writeFields_sorted Json.toCharsBytes .compact depth (Reorder.toJsonObject es) (by
      rw [toJsonObject_eq, List.pairwise_map]
      exact hsorted)
    have hgo : ((es.map fun e => (e.1, Json.writeValue Json.toCharsBytes .compact (depth + 1) (toJson e.2))).mergeSort
        fun a b => !keyLess (utf8Bytes b.1) (utf8Bytes a.1)) =
        es.map fun e => (e.1, Json.writeValue Json.toCharsBytes .compact (depth + 1) (toJson e.2)) := by
      refine List.mergeSort_of_pairwise ?_
      rw [List.pairwise_map]
      exact hsorted.imp fun hab => by
        rw [Json.keyLess_asymm hab]
        rfl
    have hfields := @goMarshalFields_eq es (fun v => Json.writeValue Json.toCharsBytes .compact (depth + 1) (toJson v))
      fun e he => ih e he (depth + 1)
    rw [goMarshal, hfields, toJson, Json.writeValue, enclose_compact, hcpp, Json.writeFields_eq, toJsonObject_eq,
      Option.map_some]
    dsimp only
    rw [hgo, List.map_map, List.map_map, List.map_map]
    refine congrArg (fun texts => some (ascii '{' :: (commaSeparated texts ++ [ascii '}']))) (List.map_congr_left fun e _ => ?_)
    show goAppendString e.1 ++ _ = Json.writeMember .compact _
    rw [goAppendString_eq]
    rfl

end Pineapple
