import Pineapple.Reorder
import Pineapple.ValueRendering

/-! # Equal JSON values

Two numbers are equal by value, arrays by their elements, and objects whatever the order of their keys. What the
renderings of values tell apart is stated against this. -/

namespace Pineapple

open Json (Bytes ascii token keyLess)
open Reorder (utf8Bytes toJson toJsonArray toJsonObject)

/-! ## Values of a frame -/

/-- A zero of either sign. -/
def isZeroDouble : Binary64 → Bool
  | .finite f => f.mant = 0
  | _ => false

namespace Variant

/-- A decoded JSON value: its numbers are finite, and its objects hold each key once, by key. -/
inductive Stored : Variant → Prop
  | null : Stored .null
  | bool (b : Bool) : Stored (.bool b)
  | number (f : FiniteBinary64) : Stored (.number (.finite f))
  | string (s : String) : Stored (.string s)
  | array {xs : List Variant} : (∀ v ∈ xs, Stored v) → Stored (.array xs)
  | object {es : List (String × Variant)} :
    es.Pairwise (fun a b => keyLess (utf8Bytes a.1) (utf8Bytes b.1) = true) → (∀ e ∈ es, Stored e.2) → Stored (.object es)

mutual
/-- Equality of JSON values. -/
def jsonEqual : Variant → Variant → Bool
  | .null, .null => true
  | .bool a, .bool b => a = b
  | .number a, .number b => a = b || (isZeroDouble a && isZeroDouble b)
  | .string a, .string b => a = b
  | .array xs, .array ys => elementsEqual xs ys
  | .object es, .object fs => es.length = fs.length && entriesEqual es fs
  | _, _ => false

def elementsEqual : List Variant → List Variant → Bool
  | [], [] => true
  | x :: xs, y :: ys => jsonEqual x y && elementsEqual xs ys
  | _, _ => false

/-- Every entry is among the others. -/
def entriesEqual : List (String × Variant) → List (String × Variant) → Bool
  | [], _ => true
  | (k, v) :: es, fs => (fs.any fun e => e.1 = k && jsonEqual v e.2) && entriesEqual es fs
end

theorem elementsEqual_self {xs : List Variant} (h : ∀ v ∈ xs, jsonEqual v v = true) : elementsEqual xs xs = true := by
  induction xs with
  | nil => rw [elementsEqual]
  | cons x xs ih =>
    rw [elementsEqual, h x List.mem_cons_self, ih fun v hv => h v (List.mem_cons_of_mem _ hv)]
    rfl

theorem entriesEqual_iff {es fs : List (String × Variant)} :
    entriesEqual es fs = true ↔ ∀ e ∈ es, ∃ w, (e.1, w) ∈ fs ∧ jsonEqual e.2 w = true := by
  induction es with
  | nil => simp [entriesEqual]
  | cons e es ih =>
    obtain ⟨k, v⟩ := e
    rw [entriesEqual, Bool.and_eq_true, ih, List.forall_mem_cons]
    refine and_congr_left fun _ => ?_
    simp only [List.any_eq_true, Bool.and_eq_true, decide_eq_true_iff]
    constructor
    · rintro ⟨⟨k', w⟩, hmem, rfl, heq⟩
      exact ⟨w, hmem, heq⟩
    · rintro ⟨w, hmem, heq⟩
      exact ⟨(k, w), hmem, rfl, heq⟩

theorem jsonEqual_self {v : Variant} (hv : v.Stored) : jsonEqual v v = true := by
  induction hv with
  | null => rw [jsonEqual]
  | bool b => simp [jsonEqual]
  | number f => simp [jsonEqual]
  | string s => simp [jsonEqual]
  | array _ ih =>
    rw [jsonEqual]
    exact elementsEqual_self ih
  | @object es _ _ ih =>
    rw [jsonEqual, Bool.and_eq_true]
    exact ⟨decide_eq_true rfl, entriesEqual_iff.mpr fun e he => ⟨e.2, he, ih e he⟩⟩

end Variant

/-! ## Texts as bytes -/

theorem lead_byte {k a b : Nat} (h : b < 2 ^ k) : (2 ^ k * a ||| b) = b + 2 ^ k * a := by
  rw [← Nat.two_pow_add_eq_or_of_lt h, Nat.add_comm]

theorem trail_byte (n : Nat) : (0x80 ||| n &&& 0x3F) = n % 64 + 0x80 := by
  rw [show (0x3F : Nat) = 2 ^ 6 - 1 from rfl, Nat.and_two_pow_sub_one_eq_mod, show (0x80 : Nat) = 2 ^ 6 * 2 from rfl,
    lead_byte (Nat.mod_lt _ (Nat.two_pow_pos 6))]
  rfl

/-- The parser's encoder is the one strings are made of. -/
theorem utf8_eq (c : Char) : Json.utf8 c.toNat = String.utf8EncodeChar c := by
  have hlt : c.toNat < 0x110000 := by
    rcases c.valid with h | h
    · exact Nat.lt_trans h (by decide)
    · exact h.2
  unfold Json.utf8 String.utf8EncodeChar
  show _ = if c.toNat ≤ 0x7f then _ else if c.toNat ≤ 0x7ff then _ else if c.toNat ≤ 0xffff then _ else _
  simp only [trail_byte, Nat.shiftRight_eq_div_pow]
  by_cases h1 : c.toNat < 0x80
  · have g1 : c.toNat ≤ 0x7f := by omega
    rw [if_pos h1, if_pos g1]
    rfl
  · have g1 : ¬ c.toNat ≤ 0x7f := by omega
    rw [if_neg h1, if_neg g1]
    by_cases h2 : c.toNat < 0x800
    · have hlead : (0xC0 ||| c.toNat / 2 ^ 6) = c.toNat / 64 % 32 + 0xC0 := by
        rw [show (0xC0 : Nat) = 2 ^ 5 * 6 from rfl, lead_byte (by omega)]
        omega
      have g2 : c.toNat ≤ 0x7ff := by omega
      rw [if_pos h2, if_pos g2, hlead]
      rfl
    · have g2 : ¬ c.toNat ≤ 0x7ff := by omega
      rw [if_neg h2, if_neg g2]
      by_cases h3 : c.toNat < 0x10000
      · have hlead : (0xE0 ||| c.toNat / 2 ^ 12) = c.toNat / 4096 % 16 + 0xE0 := by
          rw [show (0xE0 : Nat) = 2 ^ 4 * 14 from rfl, lead_byte (by omega)]
          omega
        have g3 : c.toNat ≤ 0xffff := by omega
        rw [if_pos h3, if_pos g3, hlead]
        rfl
      · have hlead : (0xF0 ||| c.toNat / 2 ^ 18) = c.toNat / 262144 % 8 + 0xF0 := by
          rw [show (0xF0 : Nat) = 2 ^ 3 * 30 from rfl, lead_byte (by omega)]
          omega
        have g3 : ¬ c.toNat ≤ 0xffff := by omega
        rw [if_neg h3, if_neg g3, hlead]
        rfl

theorem utf8Bytes_inj {s t : String} (h : utf8Bytes s = utf8Bytes t) : s = t := by
  have hbytes : ∀ s : String, (utf8Bytes s).toByteArray = s.toByteArray := by
    intro s
    unfold Reorder.utf8Bytes
    rw [List.flatMap_congr fun c _ => utf8_eq c]
    conv_rhs => rw [← String.ofList_toList (s := s), String.toByteArray_ofList]
    rfl
  exact String.toByteArray_inj.mp ((hbytes s).symm.trans ((congrArg List.toByteArray h).trans (hbytes t)))

theorem toJsonArray_eq (xs : List Variant) : toJsonArray xs = xs.map toJson := by
  induction xs with
  | nil => rw [toJsonArray, List.map_nil]
  | cons x xs ih => rw [toJsonArray, ih, List.map_cons]

theorem toJsonObject_eq (es : List (String × Variant)) :
    toJsonObject es = es.map fun e => (utf8Bytes e.1, toJson e.2) := by
  induction es with
  | nil => rw [toJsonObject, List.map_nil]
  | cons e es ih => rw [toJsonObject, ih, List.map_cons]

/-- Lists of values that are told apart one by one. -/
theorem map_inj_of_mem {α β : Type*} {g : α → β} {xs ys : List α} (h : ∀ x ∈ xs, ∀ y, g x = g y → x = y)
    (heq : xs.map g = ys.map g) : xs = ys := by
  induction xs generalizing ys with
  | nil => exact (List.map_eq_nil_iff.mp heq.symm).symm
  | cons x xs ih =>
    rcases ys with _ | ⟨y, ys⟩
    · cases heq
    · obtain ⟨hx, hxs⟩ := List.cons.inj heq
      rw [h x List.mem_cons_self y hx, ih (fun x hx => h x (List.mem_cons_of_mem _ hx)) hxs]

theorem toJson_inj {v w : Variant} (hv : v.Stored) (h : toJson v = toJson w) : v = w := by
  induction hv generalizing w with
  | null => cases w <;> simp [toJson] at h ⊢
  | bool b => cases w <;> simp [toJson] at h; rw [h]
  | number f => cases w <;> simp [toJson] at h; rw [h]
  | string s =>
    cases w <;> simp only [toJson, Json.Value.string.injEq, reduceCtorEq] at h
    rw [utf8Bytes_inj h]
  | array _ ih =>
    cases w <;> simp only [toJson, Json.Value.array.injEq, reduceCtorEq, toJsonArray_eq] at h
    rw [map_inj_of_mem (fun x hx y => ih x hx) h]
  | object _ _ ih =>
    cases w <;> simp only [toJson, Json.Value.object.injEq, reduceCtorEq, toJsonObject_eq] at h
    refine congrArg Variant.object (map_inj_of_mem ?_ h)
    rintro ⟨k, v⟩ he ⟨k', v'⟩ heq
    obtain ⟨hk, hvalue⟩ := Prod.mk.inj heq
    exact Prod.ext (utf8Bytes_inj hk) (ih _ he hvalue)

theorem Variant.Stored.writable {v : Variant} (hv : v.Stored) : (toJson v).Writable Json.toCharsBytes := by
  induction hv with
  | null => exact .null
  | bool b => exact .bool b
  | number f =>
    refine .number fun hf => ?_
    obtain ⟨w⟩ := Json.exists_rendering hf
    exact w.roundTrips hf
  | string s => exact .string _
  | array _ ih =>
    rw [toJson, toJsonArray_eq]
    refine .array fun w hw => ?_
    obtain ⟨x, hx, rfl⟩ := List.mem_map.mp hw
    exact ih x hx
  | object hsorted _ ih =>
    rw [toJson, toJsonObject_eq]
    refine .object (List.pairwise_map.mpr hsorted) fun e he => ?_
    obtain ⟨x, hx, rfl⟩ := List.mem_map.mp he
    exact ih x hx

/-- What `dump_json` writes tells values apart. -/
theorem dumpJson_inj {v w : Variant} (hv : v.Stored) (hw : w.Stored) {layouts : Nat → Json.Layout} {indent : Nat}
    (h : Json.dumpJson Json.toCharsBytes layouts (toJson v) indent =
      Json.dumpJson Json.toCharsBytes layouts (toJson w) indent) : v = w := by
  have hv' := Json.parseJson_dumpJson layouts hv.writable indent
  rw [h, Json.parseJson_dumpJson layouts hw.writable indent] at hv'
  exact toJson_inj hv (Except.ok.inj hv').symm

/-! ## Numbers in the format of `%g` -/

namespace Json
variable {f : FiniteBinary64}

/-- What `fmt.Sprint` writes of a finite number is read back. -/
theorem goSprintFloat_reads (f : FiniteBinary64) : fromChars ((goSprintFloat f).map ascii) = some (.finite f) := by
  by_cases hf : f.mant = 0
  · have hzero : (goSprintFloat f).map ascii = formatNumber toCharsBytes (.finite f) := by
      unfold goSprintFloat formatNumber
      rw [strconvFormat_zero hf .g nofun, List.map_append, signOf_map]
      exact (if_pos hf).symm
    rw [hzero]
    exact (finite_rendered f).2.1
  · obtain ⟨w⟩ := exists_rendering hf
    have hsplit : goSprintFloat f = strconvFormat .e f ∨ goSprintFloat f = strconvFormat .f f := by
      unfold goSprintFloat strconvFormat
      dsimp only
      split
      · exact Or.inl rfl
      · exact Or.inr rfl
    rcases hsplit with h | h
    · rw [h, strconvFormat_e hf]
      exact (w.roundTrips hf).value
    · rw [h, strconvFormat_f hf, ← fixedNumeral_text w]
      unfold fromChars
      rw [scan_numeral w.r.fixed_scanned, w.r.fixed_value.trans (w.value hf)]

theorem goFormatG_inj {f g : FiniteBinary64} (h : goFormatG (.finite f) = goFormatG (.finite g)) : f = g := by
  rw [goFormatG_sprint, goFormatG_sprint] at h
  have hback := goSprintFloat_reads f
  rw [String.ofList_inj.mp h, goSprintFloat_reads g] at hback
  exact (Binary64.finite.inj (Option.some.inj hback)).symm

end Json

end Pineapple
