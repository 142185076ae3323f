import Mathlib.Data.Nat.Log
import Pineapple.Lib.NumberText

/-! # The shortest decimal of a double

The decimal with the fewest digits that is read back as the double, and the nearest of those. -/

namespace Binary64

theorem roundDiv_mul_right (a b : Nat) {c : Nat} (hc : 0 < c) : roundDiv (a * c) (b * c) = roundDiv a b := by
  unfold roundDiv
  dsimp only
  rw [Nat.mul_div_mul_right _ _ hc, Nat.mul_mod_mul_right, ← Nat.mul_assoc]
  simp only [Nat.mul_lt_mul_right hc]

/-- A ratio is not changed by a factor on both sides. -/
theorem ofRatio_mul_right (neg : Bool) (p q : Nat) {c : Nat} (hc : 0 < c) :
    ofRatio neg (p * c) (q * c) = ofRatio neg p q := by
  have hdiv : p * c * unitsPerOne / (q * c) = p * unitsPerOne / q := by
    rw [Nat.mul_right_comm, Nat.mul_div_mul_right _ _ hc]
  have hround : ∀ k, roundDiv (p * c * unitsPerOne) (q * c * 2 ^ k) = roundDiv (p * unitsPerOne) (q * 2 ^ k) := by
    intro k
    rw [Nat.mul_right_comm p, Nat.mul_right_comm q, roundDiv_mul_right _ _ hc]
  unfold ofRatio
  simp only [hdiv, hround]

end Binary64

namespace FiniteBinary64
open Binary64

/-! ## Whole numbers -/

/-- The magnitude is the whole number. -/
def IsWhole (f : FiniteBinary64) (a : Nat) : Prop := f.units = a * unitsPerOne

variable {f : FiniteBinary64} {a : Nat}

theorem IsWhole.ofRatio_eq (h : f.IsWhole a) : ofRatio f.neg a 1 = .finite f := by
  have hscale := ofRatio_mul_right f.neg a 1 unitsPerOne_pos
  rw [← h, Nat.one_mul] at hscale
  rw [← hscale, ofRatio_units]

/-- A whole number below `2 ^ 53` is a double. -/
theorem exists_isWhole (neg : Bool) (ha : a < 2 ^ 53) :
    ∃ f : FiniteBinary64, ofNat neg a = .finite f ∧ f.neg = neg ∧ f.IsWhole a := by
  unfold ofNat
  by_cases h0 : a = 0
  · rw [dif_pos h0]
    refine ⟨zero neg, rfl, rfl, ?_⟩
    unfold IsWhole units
    rw [h0, Nat.zero_mul]
    exact Nat.zero_mul _
  · have hlog : a.log2 ≤ 52 := Nat.le_of_lt_succ ((Nat.log2_lt h0).mpr ha)
    rw [dif_neg h0, dif_pos hlog]
    unfold ofParts
    rw [dif_pos (by omega)]
    refine ⟨_, rfl, rfl, ?_⟩
    unfold IsWhole units
    dsimp only
    have hexp : 52 - a.log2 + ((a.log2 : Int) - 52 + 1074).toNat = 1074 := by omega
    rw [Nat.mul_assoc, ← pow_add, hexp]
    rfl

theorem units_of_ofUnits {neg : Bool} {mant shift : Nat} {hm : mant < 2 ^ 53} {hn : 2 ^ 52 ≤ mant ∨ shift = 0}
    (h : ofUnits neg mant shift hm hn = .finite f) : f.units = mant * 2 ^ shift := by
  unfold ofUnits at h
  split at h
  · obtain rfl := Binary64.finite.inj h
    unfold units
    dsimp only
    rw [show ((shift : Int) - 1074 + 1074).toNat = shift by omega]
  · cases h

theorem le_units_of_ofRatio {x : Nat} (hx : 2 ^ 53 ≤ x) {neg : Bool} (h : ofRatio neg x 1 = .finite f) :
    2 ^ 53 * unitsPerOne ≤ f.units := by
  obtain ⟨j, hj, hunits⟩ : ∃ j, j = 1074 ∧ unitsPerOne = 2 ^ j := ⟨1074, rfl, rfl⟩
  have hlog : 53 ≤ x.log2 := (Nat.le_log2 (by omega)).mpr hx
  have hspill : j + 1 ≤ spill (x * unitsPerOne / 1) := by
    unfold spill
    rw [hunits, Nat.div_one, log2_mul_pow _ (by omega)]
    omega
  have hlarge : ∀ {m k : Nat}, 2 ^ 52 ≤ m → j + 1 ≤ k → 2 ^ 53 * unitsPerOne ≤ m * 2 ^ k := by
    intro m k hm hk
    rw [hunits]
    calc 2 ^ 53 * 2 ^ j = 2 ^ 52 * 2 ^ (j + 1) := by rw [pow_succ 2 52, pow_succ' 2 j, Nat.mul_assoc]
      _ ≤ m * 2 ^ k := Nat.mul_le_mul hm (Nat.pow_le_pow_right (by decide) hk)
  unfold ofRatio at h
  dsimp only at h
  split at h
  · rw [units_of_ofUnits h]
    exact hlarge (le_roundDiv_spill (by omega)) hspill
  · rw [units_of_ofUnits h]
    exact hlarge (Nat.le_refl _) (by omega)

/-- No other whole number is rounded to a whole number below `2 ^ 53`. -/
theorem IsWhole.eq_of_ofRatio (hf : f.IsWhole a) (ha : a < 2 ^ 53) {x : Nat} (h : ofRatio f.neg x 1 = .finite f) :
    x = a := by
  have hpos := unitsPerOne_pos
  by_cases hx : x < 2 ^ 53
  · obtain ⟨g, -, hneg, hg⟩ := exists_isWhole f.neg hx
    have hratio := hg.ofRatio_eq
    rw [hneg, h] at hratio
    obtain rfl := Binary64.finite.inj hratio
    exact Nat.eq_of_mul_eq_mul_right hpos (hg.symm.trans hf)
  · have hle := le_units_of_ofRatio (Nat.le_of_not_lt hx) h
    rw [hf] at hle
    have := Nat.le_of_mul_le_mul_right hle hpos
    omega

/-! ## The search -/

/-- The exponent of the power of ten at or below `p / q`. -/
def decimalExponent (p q : Nat) : Int :=
  if q ≤ p then Nat.log 10 (p / q) else -(Nat.clog 10 ((q + p - 1) / p) : Int)

/-- The two decimals of `k` digits around `p / q`, the nearer one first. -/
def neighbours (p q k : Nat) : List (Nat × Int) :=
  let e := decimalExponent p q + 1 - k
  let a := p * 10 ^ (-e).toNat
  let b := q * 10 ^ e.toNat
  let lo := a / b
  let r := a % b
  if 2 * r < b ∨ 2 * r = b ∧ lo % 2 = 0 then [(lo, e), (lo + 1, e)] else [(lo + 1, e), (lo, e)]

/-- The one of them that is read back; a power of ten has one digit. -/
def readBack (f : FiniteBinary64) (k : Nat) : Option (Nat × Int) :=
  ((neighbours f.units unitsPerOne k).find? fun c => NumberText.scaled f.neg 10 c = .finite f).map fun c =>
    if c.1 = 10 ^ k then (1, c.2 + k) else c

/-- The digits and the exponent of the shortest decimal; 17 digits are enough for every double. -/
def shortest (f : FiniteBinary64) : Nat × Int := ((List.range' 1 17).findSome? f.readBack).getD (0, 0)

/-! ## Whole numbers are written out -/

theorem IsWhole.decimalExponent_eq (hf : f.IsWhole a) (h0 : a ≠ 0) :
    decimalExponent f.units unitsPerOne = Nat.log 10 a := by
  have hpos := unitsPerOne_pos
  unfold decimalExponent
  rw [hf, if_pos (Nat.le_mul_of_pos_left _ (Nat.pos_of_ne_zero h0)), Nat.mul_div_cancel _ hpos]

/-- What is read back as a whole number is the whole number. -/
theorem IsWhole.of_readBack (hf : f.IsWhole a) (h0 : a ≠ 0) (ha : a < 2 ^ 53) {k : Nat} (hk : k ≤ Nat.log 10 a + 1)
    {c : Nat × Int} (h : f.readBack k = some c) : ∃ t : Nat, c.2 = t ∧ c.1 * 10 ^ t = a := by
  obtain ⟨d, hd, rfl⟩ := Option.map_eq_some_iff.mp h
  have hread : NumberText.scaled f.neg 10 d = .finite f := by simpa only [decide_eq_true_eq] using List.find?_some hd
  have he : d.2 = ((Nat.log 10 a + 1 - k : Nat) : Int) := by
    have hmem := List.mem_of_find?_eq_some hd
    unfold neighbours at hmem
    dsimp only at hmem
    rw [hf.decimalExponent_eq h0] at hmem
    split at hmem
    · rcases List.mem_pair.mp hmem with rfl | rfl <;> dsimp only <;> omega
    · rcases List.mem_pair.mp hmem with rfl | rfl <;> dsimp only <;> omega
  have hvalue : d.1 * 10 ^ (Nat.log 10 a + 1 - k) = a := by
    unfold NumberText.scaled at hread
    rw [he, if_pos (by omega), Int.toNat_natCast] at hread
    exact hf.eq_of_ofRatio ha hread
  split
  · next hten =>
    refine ⟨Nat.log 10 a + 1 - k + k, ?_, ?_⟩
    · dsimp only
      rw [he]
      omega
    · rw [Nat.one_mul, pow_add, Nat.mul_comm, ← hten]
      exact hvalue
  · exact ⟨_, he, hvalue⟩

theorem IsWhole.readBack_all (hf : f.IsWhole a) (h0 : a ≠ 0) : (f.readBack (Nat.log 10 a + 1)).isSome = true := by
  have hpos := unitsPerOne_pos
  unfold readBack
  rw [Option.isSome_map, List.find?_isSome]
  refine ⟨(a, 0), ?_, ?_⟩
  · unfold neighbours
    dsimp only
    rw [hf.decimalExponent_eq h0, show ((Nat.log 10 a : Int) + 1 - (Nat.log 10 a + 1 : Nat)) = 0 by omega]
    have hlo : f.units * 10 ^ (-(0 : Int)).toNat / (unitsPerOne * 10 ^ (0 : Int).toNat) = a := by
      rw [hf]
      simp [Nat.mul_div_cancel _ hpos]
    rw [hlo]
    split
    · exact List.mem_cons_self
    · exact List.mem_cons_of_mem _ List.mem_cons_self
  · refine decide_eq_true ?_
    unfold NumberText.scaled
    rw [if_pos (le_refl _), show a * 10 ^ (0 : Int).toNat = a from Nat.mul_one a]
    exact hf.ofRatio_eq

/-- The shortest decimal of a whole number is that number. -/
theorem IsWhole.shortest_eq (hf : f.IsWhole a) (h0 : a ≠ 0) (ha : a < 2 ^ 53) :
    ∃ t : Nat, f.shortest.2 = t ∧ f.shortest.1 * 10 ^ t = a := by
  have hlog : Nat.log 10 a + 1 ≤ 17 := by
    have : Nat.log 10 a < 16 := Nat.log_lt_of_lt_pow h0 (by omega)
    omega
  have hsplit : List.range' 1 17 = List.range' 1 (Nat.log 10 a + 1) ++
      List.range' (1 + (Nat.log 10 a + 1)) (17 - (Nat.log 10 a + 1)) := by
    rw [List.range'_append_1, Nat.add_sub_cancel' hlog]
  have hsome : ((List.range' 1 (Nat.log 10 a + 1)).findSome? f.readBack).isSome = true := by
    rw [List.findSome?_isSome_iff]
    refine ⟨Nat.log 10 a + 1, ?_, hf.readBack_all h0⟩
    rw [List.mem_range'_1]
    omega
  obtain ⟨c, hc⟩ := Option.isSome_iff_exists.mp hsome
  have hshort : f.shortest = c := by
    unfold shortest
    rw [hsplit, List.findSome?_append, hc]
    rfl
  obtain ⟨k, hk, hread⟩ := List.exists_of_findSome?_eq_some hc
  rw [hshort]
  refine hf.of_readBack h0 ha ?_ hread
  rw [List.mem_range'_1] at hk
  omega

end FiniteBinary64
