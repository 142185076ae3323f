import Mathlib.Data.Int.Log
import Mathlib.Algebra.Order.Floor.Semifield
import Mathlib.Data.Rat.Floor
import Pineapple.Lib.ShortestDecimal

/-! # The shortest decimal is read back

Seventeen digits are enough: a decimal that is nearest among those of so many digits is rounded to the double it is
near to. The shortest decimal is one that is read back, and does not end in a zero. -/

namespace Binary64

/-- Less than half a divisor away from a multiple. -/
theorem roundDiv_near {n b m : Nat} (hlo : 2 * (m * b) < 2 * n + b) (hhi : 2 * n < 2 * (m * b) + b) :
    roundDiv n b = m := by
  have hsplit := Nat.div_add_mod n b
  have hmod : n % b < b := Nat.mod_lt _ (by omega)
  unfold roundDiv
  dsimp only
  by_cases hle : m * b ≤ n
  · have hsucc : (m + 1) * b = m * b + b := Nat.add_one_mul m b
    have hdiv : n / b = m := Nat.div_eq_of_lt_le hle (by omega)
    rw [hdiv, Nat.mul_comm] at hsplit
    rw [hdiv, if_pos (by omega)]
  · obtain ⟨k, rfl⟩ : ∃ k, m = k + 1 := Nat.exists_eq_succ_of_ne_zero fun h => hle (by rw [h, Nat.zero_mul]; omega)
    have hsucc : (k + 1) * b = k * b + b := Nat.add_one_mul k b
    have hdiv : n / b = k := Nat.div_eq_of_lt_le (by omega) (by omega)
    rw [hdiv, Nat.mul_comm] at hsplit
    rw [hdiv, if_neg (by omega), if_pos (by omega)]

theorem spill_eq {a s : Nat} (hlo : 2 ^ (52 + s) ≤ a ∨ s = 0) (hhi : a < 2 ^ (53 + s)) : spill a = s := by
  unfold spill
  by_cases ha : a = 0
  · rcases hlo with hlo | rfl
    · have := Nat.two_pow_pos (52 + s)
      omega
    · rw [ha]
      rfl
  · have hlt : a.log2 < 53 + s := (Nat.log2_lt ha).mpr hhi
    rcases hlo with hlo | rfl
    · have hle := (Nat.le_log2 ha).mpr hlo
      omega
    · omega

end Binary64

namespace FiniteBinary64
open Binary64

variable {f : FiniteBinary64}

/-- What `n` in units of `d` is rounded to where it is near a multiple of `d` by a significand. -/
theorem near_bounds {m n d : Nat} (hm : m < 2 ^ 53) (hd : 0 < d)
    (hlo : (2 * 10 ^ 16 - 1) * (m * d) ≤ 2 * 10 ^ 16 * n) (hhi : 2 * 10 ^ 16 * n ≤ (2 * 10 ^ 16 + 1) * (m * d)) :
    2 * (m * d) < 2 * n + d ∧ 2 * n < 2 * (m * d) + d ∧ n < 2 ^ 53 * d := by
  have hle : m * d ≤ (2 ^ 53 - 1) * d := Nat.mul_le_mul_right _ (by omega)
  omega

/-- A ratio within one part in `2 · 10 ^ 16` of a double is rounded to it. -/
theorem ofRatio_near {p q : Nat} (hq : 0 < q)
    (hlo : (2 * 10 ^ 16 - 1) * (f.units * q) ≤ 2 * 10 ^ 16 * (p * unitsPerOne))
    (hhi : 2 * 10 ^ 16 * (p * unitsPerOne) ≤ (2 * 10 ^ 16 + 1) * (f.units * q)) : ofRatio f.neg p q = .finite f := by
  have hge := f.exp_ge
  obtain ⟨s, hs⟩ : ∃ s, s = (f.exp + 1074).toNat := ⟨_, rfl⟩
  have hunits : f.units * q = f.mant * (q * 2 ^ s) := by
    unfold units
    rw [← hs, Nat.mul_assoc, Nat.mul_comm (2 ^ s)]
  obtain ⟨n, hn⟩ : ∃ n, n = p * unitsPerOne := ⟨_, rfl⟩
  rw [hunits, ← hn] at hlo hhi
  unfold ofRatio
  simp only [← hn]
  have hpos : 0 < q * 2 ^ s := Nat.mul_pos hq (Nat.two_pow_pos s)
  have hle_div : ∀ k t, 2 ^ (k + t) ≤ n / q ↔ 2 ^ k * (q * 2 ^ t) ≤ n := fun k t => by
    rw [Nat.le_div_iff_mul_le hq, pow_add, Nat.mul_assoc, Nat.mul_comm (2 ^ t)]
  have hdiv_lt : ∀ k t, n / q < 2 ^ (k + t) ↔ n < 2 ^ k * (q * 2 ^ t) := fun k t => by
    rw [← Nat.not_le, hle_div, Nat.not_le]
  obtain ⟨hbelow, habove, hlt⟩ := near_bounds f.mant_lt hpos hlo hhi
  by_cases hspill : 2 ^ 52 * (q * 2 ^ s) ≤ n ∨ s = 0
  · have hspill : spill (n / q) = s := spill_eq (hspill.imp_left (hle_div 52 s).mpr) ((hdiv_lt 53 s).mpr hlt)
    have hround := roundDiv_near hbelow habove
    simp only [hspill, hround]
    rw [dif_pos f.mant_lt]
    exact ofUnits_eq_finite rfl (by omega) _ _
  · -- Just below a power of two the doubles are twice as dense.
    obtain ⟨hsmall, hs0⟩ := not_or.mp hspill
    obtain ⟨t, rfl⟩ : ∃ t, s = t + 1 := Nat.exists_eq_succ_of_ne_zero hs0
    have hnormal : 2 ^ 52 ≤ f.mant := f.normal.resolve_right (by omega)
    have hmant : f.mant = 2 ^ 52 := by
      by_contra hne
      have hle : (2 ^ 52 + 1) * (q * 2 ^ (t + 1)) ≤ f.mant * (q * 2 ^ (t + 1)) := Nat.mul_le_mul_right _ (by omega)
      omega
    have hdouble : q * 2 ^ (t + 1) = 2 * (q * 2 ^ t) := by
      rw [pow_succ, ← Nat.mul_assoc, Nat.mul_comm]
    rw [hmant, hdouble] at hlo hhi
    rw [hdouble] at hsmall
    have hspill : spill (n / q) = t := by
      refine spill_eq (Or.inl ((hle_div 52 t).mpr ?_)) ((hdiv_lt 53 t).mpr ?_)
      · omega
      · omega
    have hround : roundDiv n (q * 2 ^ t) = 2 ^ 53 := roundDiv_near (by omega) (by omega)
    simp only [hspill, hround]
    rw [dif_neg (Nat.lt_irrefl _)]
    exact ofUnits_eq_finite hmant.symm (by omega) _ _

theorem roundDiv_bounds (n : Nat) {b : Nat} (hb : 0 < b) :
    2 * (roundDiv n b * b) ≤ 2 * n + b ∧ 2 * n ≤ 2 * (roundDiv n b * b) + b := by
  have hsplit := Nat.div_add_mod n b
  have hmod := Nat.mod_lt n hb
  have hsucc := Nat.add_one_mul (n / b) b
  rw [Nat.mul_comm] at hsplit
  unfold roundDiv
  dsimp only
  split
  · omega
  · split
    · omega
    · rcases Nat.mod_two_eq_zero_or_one (n / b) with heven | hodd
      · rw [heven, Nat.add_zero]
        omega
      · rw [hodd]
        omega

theorem lt_pow_spill (a : Nat) : a < 2 ^ (53 + spill a) := by
  have hlt : a < 2 ^ (a.log2 + 1) := Nat.lt_log2_self
  refine hlt.trans_le (Nat.pow_le_pow_right (by decide) ?_)
  unfold spill
  omega

/-- A ratio that is rounded to a normal double is within one part in `2 ^ 53` of it. -/
theorem near_of_ofRatio {p q : Nat} (hq : 0 < q) (h : ofRatio f.neg p q = .finite f) (hn : 2 ^ 52 ≤ f.mant) :
    2 ^ 53 * (p * unitsPerOne) ≤ (2 ^ 53 + 1) * (f.units * q) ∧
      (2 ^ 53 - 1) * (f.units * q) ≤ 2 ^ 53 * (p * unitsPerOne) := by
  have hlarge : 2 ^ 52 ≤ f.units := hn.trans (Nat.le_mul_of_pos_right _ (Nat.two_pow_pos _))
  obtain ⟨n, hn⟩ : ∃ n, n = p * unitsPerOne := ⟨_, rfl⟩
  unfold ofRatio at h
  simp only [← hn] at h ⊢
  have hpos : 0 < q * 2 ^ spill (n / q) := Nat.mul_pos hq (Nat.two_pow_pos _)
  obtain ⟨hlo, hhi⟩ := roundDiv_bounds n hpos
  have hnormal := normal_roundDiv n q
  have hdiv : n / (q * 2 ^ spill (n / q)) < 2 ^ 53 := by
    rw [← Nat.div_div_eq_div_mul, Nat.div_lt_iff_lt_mul (Nat.two_pow_pos _), ← pow_add]
    exact lt_pow_spill _
  have hupper : roundDiv n (q * 2 ^ spill (n / q)) ≤ 2 ^ 53 := by
    unfold roundDiv
    dsimp only
    split
    · omega
    · split <;> omega
  have hunits : f.units = roundDiv n (q * 2 ^ spill (n / q)) * 2 ^ spill (n / q) := by
    split at h
    · exact units_of_ofUnits h
    · next hge =>
      rw [units_of_ofUnits h, Nat.le_antisymm hupper (Nat.le_of_not_lt hge), pow_succ]
      omega
  generalize spill (n / q) = k at hpos hlo hhi hnormal hunits
  have hmant : 2 ^ 52 ≤ roundDiv n (q * 2 ^ k) := by
    rcases hnormal with hnormal | rfl
    · exact hnormal
    · rwa [hunits, pow_zero, Nat.mul_one] at hlarge
  have hproduct : f.units * q = roundDiv n (q * 2 ^ k) * (q * 2 ^ k) := by
    rw [hunits, Nat.mul_assoc, Nat.mul_comm (2 ^ k)]
  have hle := Nat.mul_le_mul_right (q * 2 ^ k) hmant
  rw [hproduct]
  omega

/-! ## Decimals around a ratio -/

theorem ceil_div_eq {p : Nat} (hp : 0 < p) (q : Nat) : ⌈(q : ℚ) / p⌉₊ = (q + p - 1) / p := by
  have hpos : (0 : ℚ) < p := Nat.cast_pos.mpr hp
  have hceil : ∀ n : Nat, ⌈(q : ℚ) / p⌉₊ ≤ n ↔ (q + p - 1) / p ≤ n := fun n => by
    rw [Nat.ceil_le, div_le_iff₀ hpos, ← Nat.cast_mul, Nat.cast_le, ← @Nat.lt_succ_iff ((q + p - 1) / p),
      Nat.div_lt_iff_lt_mul hp, Nat.succ_mul]
    omega
  exact Nat.le_antisymm ((hceil _).mpr (Nat.le_refl _)) ((hceil _).mp (Nat.le_refl _))

theorem decimalExponent_eq_log {p q : Nat} (hp : 0 < p) (hq : 0 < q) :
    decimalExponent p q = Int.log 10 ((p : ℚ) / q) := by
  have hpos : (0 : ℚ) < q := Nat.cast_pos.mpr hq
  unfold decimalExponent
  split
  · next hle =>
    have hone : (1 : ℚ) ≤ (p : ℚ) / q := (one_le_div hpos).mpr (Nat.cast_le.mpr hle)
    rw [Int.log_of_one_le_right 10 hone, Nat.floor_div_eq_div]
  · next hlt =>
    have hone : (p : ℚ) / q ≤ 1 := (div_le_one hpos).mpr (Nat.cast_le.mpr (by omega))
    rw [Int.log_of_right_le_one 10 hone, inv_div, ceil_div_eq hp]

variable {p q : Nat}

/-- The numerator and the denominator of a ratio over a power of ten. -/
def num (p : Nat) (e : Int) : Nat := p * 10 ^ (-e).toNat

def den (q : Nat) (e : Int) : Nat := q * 10 ^ e.toNat

theorem num_div_den (p q : Nat) (e : Int) : (num p e : ℚ) / den q e = (p : ℚ) / q / 10 ^ e := by
  unfold num den
  push_cast
  rcases Int.le_total 0 e with he | he
  · obtain ⟨n, rfl⟩ := Int.eq_ofNat_of_zero_le he
    rw [show (-(n : Int)).toNat = 0 by omega, Int.toNat_natCast, pow_zero, mul_one, zpow_natCast, div_mul_eq_div_div]
  · obtain ⟨n, hn⟩ := Int.eq_ofNat_of_zero_le (Int.neg_nonneg.mpr he)
    obtain rfl : e = -(n : Int) := by omega
    rw [neg_neg, Int.toNat_natCast, show (-(n : Int)).toNat = 0 by omega, pow_zero, mul_one, zpow_neg, zpow_natCast,
      div_inv_eq_mul, div_mul_eq_mul_div]

theorem den_pos (hq : 0 < q) (e : Int) : 0 < den q e := Nat.mul_pos hq (Nat.pow_pos (by decide))

/-- With `k` digits before the point, a ratio lies between the powers of ten that have as many. -/
theorem num_bounds (hp : 0 < p) (hq : 0 < q) {k : Nat} (hk : 1 ≤ k) {e : Int} (he : e = decimalExponent p q + 1 - k) :
    10 ^ (k - 1) * den q e ≤ num p e ∧ num p e < 10 ^ k * den q e := by
  have hratio : (0 : ℚ) < (p : ℚ) / q := div_pos (Nat.cast_pos.mpr hp) (Nat.cast_pos.mpr hq)
  have hpow : (0 : ℚ) < 10 ^ e := zpow_pos (by norm_num) e
  have hden : (0 : ℚ) < den q e := Nat.cast_pos.mpr (den_pos hq e)
  have hlo : (10 : ℚ) ^ decimalExponent p q ≤ (p : ℚ) / q := by
    rw [decimalExponent_eq_log hp hq]
    exact Int.zpow_log_le_self (by decide) hratio
  have hhi : (p : ℚ) / q < (10 : ℚ) ^ (decimalExponent p q + 1) := by
    rw [decimalExponent_eq_log hp hq]
    exact Int.lt_zpow_succ_log_self (by decide) _
  have hlower : (10 : ℚ) ^ (k - 1) ≤ (num p e : ℚ) / den q e := by
    rw [num_div_den, le_div_iff₀ hpow, ← zpow_natCast, ← zpow_add₀ (by norm_num)]
    rwa [he, show ((k - 1 : Nat) : Int) + (decimalExponent p q + 1 - k) = decimalExponent p q by omega]
  have hupper : (num p e : ℚ) / den q e < 10 ^ k := by
    rw [num_div_den, div_lt_iff₀ hpow, ← zpow_natCast, ← zpow_add₀ (by norm_num)]
    rwa [he, show ((k : Nat) : Int) + (decimalExponent p q + 1 - k) = decimalExponent p q + 1 by omega]
  rw [le_div_iff₀ hden] at hlower
  rw [div_lt_iff₀ hden] at hupper
  exact ⟨by exact_mod_cast hlower, by exact_mod_cast hupper⟩

/-- One digit less. -/
theorem num_div_den_succ (p q : Nat) (e : Int) : num p (e + 1) / den q (e + 1) = num p e / den q e / 10 := by
  rw [Nat.div_div_eq_div_mul]
  unfold num den
  rcases Int.lt_or_le e 0 with he | he
  · rw [show (-e).toNat = (-(e + 1)).toNat + 1 by omega, show e.toNat = 0 by omega, show (e + 1).toNat = 0 by omega,
      pow_succ, pow_zero, Nat.mul_one, ← Nat.mul_assoc, Nat.mul_div_mul_right _ _ (by decide)]
  · rw [show (-e).toNat = 0 by omega, show (-(e + 1)).toNat = 0 by omega, show (e + 1).toNat = e.toNat + 1 by omega,
      pow_succ, Nat.mul_assoc]

/-! ## What is read back -/

theorem scaled_shift (neg : Bool) (m j : Nat) (e : Int) :
    NumberText.scaled neg 10 (m * 10 ^ j, e) = NumberText.scaled neg 10 (m, e + j) := by
  have hpow : ∀ k, 0 < 10 ^ k := fun k => Nat.pow_pos (by decide)
  unfold NumberText.scaled
  dsimp only
  rcases Int.lt_or_le e 0 with he | he
  · rw [if_neg (by omega)]
    split
    · next hsum =>
      obtain ⟨i, hi⟩ := Int.eq_ofNat_of_zero_le hsum
      have hj : 10 ^ j = 10 ^ i * 10 ^ (-e).toNat := by
        rw [← pow_add]
        congr 1
        omega
      have hratio := ofRatio_mul_right neg (m * 10 ^ i) 1 (hpow (-e).toNat)
      rw [Nat.one_mul, Nat.mul_assoc, ← hj] at hratio
      rw [hratio, hi, Int.toNat_natCast]
    · next hsum =>
      rw [show (-e).toNat = (-(e + j)).toNat + j by omega, pow_add]
      exact ofRatio_mul_right neg m _ (hpow j)
  · rw [if_pos he, if_pos (by omega), Nat.mul_assoc, ← pow_add, show (e + j).toNat = j + e.toNat by omega]

/-- A decimal as the ratio that is rounded. -/
theorem scaled_eq_ofRatio (neg : Bool) (m u : Nat) (e : Int) : ∃ p q, 0 < q ∧
    NumberText.scaled neg 10 (m, e) = ofRatio neg p q ∧ p * unitsPerOne = m * den unitsPerOne e ∧ u * q = num u e := by
  unfold NumberText.scaled num den
  dsimp only
  split
  · next he =>
    refine ⟨_, 1, Nat.one_pos, rfl, ?_, ?_⟩
    · rw [Nat.mul_left_comm, Nat.mul_comm]
    · rw [show (-e).toNat = 0 by omega, pow_zero]
  · next he =>
    refine ⟨_, _, Nat.pow_pos (by decide), rfl, ?_, rfl⟩
    rw [show e.toNat = 0 by omega, pow_zero, Nat.mul_one]

/-- A decimal of seventeen digits that is nearest to a double is read back. -/
theorem scaled_near {m : Nat} {e : Int} (hlarge : 10 ^ 16 * den unitsPerOne e ≤ num f.units e)
    (hlo : 2 * num f.units e ≤ 2 * (m * den unitsPerOne e) + den unitsPerOne e)
    (hhi : 2 * (m * den unitsPerOne e) ≤ 2 * num f.units e + den unitsPerOne e) :
    NumberText.scaled f.neg 10 (m, e) = .finite f := by
  obtain ⟨p, q, hq, hscaled, hp, hu⟩ := scaled_eq_ofRatio f.neg m f.units e
  rw [hscaled]
  refine ofRatio_near hq ?_ ?_
  · rw [hp, hu]
    omega
  · rw [hp, hu]
    omega

/-- A decimal that is read as a normal double is near to it. -/
theorem near_of_scaled {m : Nat} {e : Int} (h : NumberText.scaled f.neg 10 (m, e) = .finite f) (hn : 2 ^ 52 ≤ f.mant) :
    2 ^ 53 * (m * den unitsPerOne e) ≤ (2 ^ 53 + 1) * num f.units e ∧
      (2 ^ 53 - 1) * num f.units e ≤ 2 ^ 53 * (m * den unitsPerOne e) := by
  obtain ⟨p, q, hq, hscaled, hp, hu⟩ := scaled_eq_ofRatio f.neg m f.units e
  rw [← hp, ← hu]
  exact near_of_ofRatio hq (hscaled.symm.trans h) hn

/-! ## The search -/

/-- What is found is read back. -/
theorem scaled_of_readBack {k : Nat} {c : Nat × Int} (h : f.readBack k = some c) :
    NumberText.scaled f.neg 10 c = .finite f := by
  obtain ⟨⟨m, e⟩, hfind, hc⟩ := Option.map_eq_some_iff.mp h
  have hback : NumberText.scaled f.neg 10 (m, e) = .finite f := by
    simpa only [decide_eq_true_eq] using List.find?_some hfind
  dsimp only at hc
  split at hc
  · next hm =>
    rw [← hc, ← scaled_shift, Nat.one_mul, ← hm]
    exact hback
  · rw [← hc]
    exact hback

/-- The exponent of a decimal of `k` digits. -/
def digitExponent (f : FiniteBinary64) (k : Nat) : Int := decimalExponent f.units unitsPerOne + 1 - k

/-- The larger of the decimals of `k` digits that are not above. -/
def lower (f : FiniteBinary64) (k : Nat) : Nat := num f.units (f.digitExponent k) / den unitsPerOne (f.digitExponent k)

theorem mem_neighbours {k : Nat} {c : Nat × Int} : c ∈ neighbours f.units unitsPerOne k ↔
    (c.1 = f.lower k ∨ c.1 = f.lower k + 1) ∧ c.2 = f.digitExponent k := by
  obtain ⟨m, e⟩ := c
  have hpair : ∀ x y : Nat, (m, e) ∈ [(x, f.digitExponent k), (y, f.digitExponent k)] ↔
      (m = x ∨ m = y) ∧ e = f.digitExponent k := fun x y => by
    rw [List.mem_pair, Prod.mk.injEq, Prod.mk.injEq, or_and_right]
  unfold neighbours
  dsimp only
  split
  · exact hpair _ _
  · exact (hpair _ _).trans (and_congr_left' or_comm)

theorem readBack_isSome {k : Nat} : (f.readBack k).isSome = true ↔
    ∃ c ∈ neighbours f.units unitsPerOne k, NumberText.scaled f.neg 10 c = .finite f := by
  unfold readBack
  rw [Option.isSome_map, List.find?_isSome]
  simp only [decide_eq_true_eq]

theorem units_pos (hf : f.mant ≠ 0) : 0 < f.units := Nat.mul_pos (Nat.pos_of_ne_zero hf) (Nat.two_pow_pos _)

theorem lower_bounds (hf : f.mant ≠ 0) {k : Nat} (hk : 1 ≤ k) : 10 ^ (k - 1) ≤ f.lower k ∧ f.lower k < 10 ^ k := by
  obtain ⟨hlo, hhi⟩ := num_bounds (units_pos hf) unitsPerOne_pos hk (e := f.digitExponent k) rfl
  have hden := den_pos unitsPerOne_pos (f.digitExponent k)
  exact ⟨(Nat.le_div_iff_mul_le hden).mpr hlo, (Nat.div_lt_iff_lt_mul hden).mpr hhi⟩

theorem lower_succ {k : Nat} : f.lower k = f.lower (k + 1) / 10 := by
  have hexp : f.digitExponent k = f.digitExponent (k + 1) + 1 := by
    unfold digitExponent
    push_cast
    omega
  unfold lower
  rw [hexp, num_div_den_succ]

/-- One of the neighbours is at most half a unit of the last digit away. -/
theorem exists_near (f : FiniteBinary64) (k : Nat) : ∃ m, (m, f.digitExponent k) ∈ neighbours f.units unitsPerOne k ∧
    2 * num f.units (f.digitExponent k) ≤
        2 * (m * den unitsPerOne (f.digitExponent k)) + den unitsPerOne (f.digitExponent k) ∧
      2 * (m * den unitsPerOne (f.digitExponent k)) ≤
        2 * num f.units (f.digitExponent k) + den unitsPerOne (f.digitExponent k) := by
  have hsplit := Nat.div_add_mod (num f.units (f.digitExponent k)) (den unitsPerOne (f.digitExponent k))
  have hmod := Nat.mod_lt (num f.units (f.digitExponent k)) (den_pos unitsPerOne_pos (f.digitExponent k))
  have hlower : f.lower k = num f.units (f.digitExponent k) / den unitsPerOne (f.digitExponent k) := rfl
  rw [← hlower, Nat.mul_comm] at hsplit
  have hsucc := Nat.add_one_mul (f.lower k) (den unitsPerOne (f.digitExponent k))
  by_cases hhalf : 2 * (num f.units (f.digitExponent k) % den unitsPerOne (f.digitExponent k)) <
      den unitsPerOne (f.digitExponent k)
  · exact ⟨f.lower k, mem_neighbours.mpr ⟨Or.inl rfl, rfl⟩, by omega, by omega⟩
  · exact ⟨f.lower k + 1, mem_neighbours.mpr ⟨Or.inr rfl, rfl⟩, by omega, by omega⟩

/-- Seventeen digits are enough. -/
theorem readBack_seventeen (hf : f.mant ≠ 0) : (f.readBack 17).isSome = true := by
  obtain ⟨m, hmem, hlo, hhi⟩ := exists_near f 17
  obtain ⟨hlarge, -⟩ := num_bounds (units_pos hf) unitsPerOne_pos (k := 17) (by decide) (e := f.digitExponent 17) rfl
  exact readBack_isSome.mpr ⟨_, hmem, scaled_near hlarge hlo hhi⟩

theorem exists_shortest (hf : f.mant ≠ 0) : ∃ k, (1 ≤ k ∧ k ≤ 17) ∧ f.readBack k = some f.shortest ∧
    (1 < k → f.readBack (k - 1) = none) := by
  have hsome : ((List.range' 1 17).findSome? f.readBack).isSome = true := by
    rw [List.findSome?_isSome_iff]
    exact ⟨17, by decide, readBack_seventeen hf⟩
  obtain ⟨c, hc⟩ := Option.isSome_iff_exists.mp hsome
  have hshort : f.shortest = c := by
    unfold shortest
    rw [hc]
    rfl
  obtain ⟨before, k, after, hsplit, hk, hbefore⟩ := List.findSome?_eq_some_iff.mp hc
  have hlen := congrArg List.length hsplit
  rw [List.length_range', List.length_append, List.length_cons] at hlen
  have hget : ∀ i, i ≤ before.length → (before ++ k :: after)[i]? = some (1 + i) := fun i hi => by
    rw [← hsplit, List.getElem?_range' (by omega), Nat.one_mul]
  have hlast : k = 1 + before.length := by
    have hk := hget before.length (Nat.le_refl _)
    rw [List.getElem?_append_right (Nat.le_refl _), Nat.sub_self] at hk
    exact Option.some.inj hk
  refine ⟨k, by omega, by rw [hshort, hk], fun hlt => hbefore _ ?_⟩
  have hprev := hget (before.length - 1) (by omega)
  rw [List.getElem?_append_left (by omega)] at hprev
  rw [show k - 1 = 1 + (before.length - 1) by omega]
  exact List.mem_of_getElem? hprev

/-- What the search ends with: a neighbour that is read back, where fewer digits have none. -/
theorem shortest_form (hf : f.mant ≠ 0) : ∃ k m, (1 ≤ k ∧ k ≤ 17) ∧ (m = f.lower k ∨ m = f.lower k + 1) ∧
    NumberText.scaled f.neg 10 (m, f.digitExponent k) = .finite f ∧ (1 < k → f.readBack (k - 1) = none) ∧
    f.shortest = if m = 10 ^ k then (1, f.digitExponent k + k) else (m, f.digitExponent k) := by
  obtain ⟨k, hk, hread, hless⟩ := exists_shortest hf
  obtain ⟨⟨m, e⟩, hd, hc⟩ := Option.map_eq_some_iff.mp hread
  have hback : NumberText.scaled f.neg 10 (m, e) = .finite f := by
    simpa only [decide_eq_true_eq] using List.find?_some hd
  obtain ⟨hm, he⟩ := mem_neighbours.mp (List.mem_of_find?_eq_some hd)
  dsimp only at he hc
  rw [he] at hback hc
  exact ⟨k, m, hk, hm, hback, hless, hc.symm⟩

/-- The shortest decimal is read back, and its last digit is not a zero. -/
theorem shortest_spec (hf : f.mant ≠ 0) :
    NumberText.scaled f.neg 10 f.shortest = .finite f ∧ f.shortest.1 % 10 ≠ 0 := by
  obtain ⟨k, m, ⟨hk, -⟩, hm, hback, hless, hshort⟩ := shortest_form hf
  obtain ⟨hlo, hhi⟩ := lower_bounds hf hk
  rw [hshort]
  split
  · next hpow =>
    refine ⟨?_, Nat.one_ne_zero⟩
    have hpow : m = 1 * 10 ^ k := hpow.trans (Nat.one_mul _).symm
    rw [← scaled_shift, ← hpow]
    exact hback
  · next hpow =>
    refine ⟨hback, fun hzero => ?_⟩
    dsimp only at hzero
    obtain ⟨n, hn⟩ : ∃ n, m = n * 10 := ⟨m / 10, by omega⟩
    rcases Nat.eq_or_lt_of_le hk with rfl | hlt
    · omega
    · obtain ⟨j, rfl⟩ : ∃ j, k = j + 1 := ⟨k - 1, by omega⟩
      have hexp : f.digitExponent (j + 1) + 1 = f.digitExponent j := by
        unfold digitExponent
        push_cast
        omega
      have hsome : (f.readBack j).isSome = true := by
        refine readBack_isSome.mpr ⟨(n, f.digitExponent j), mem_neighbours.mpr ⟨?_, rfl⟩, ?_⟩
        · rw [lower_succ]
          dsimp only
          omega
        · rw [← hback, hn, ← hexp]
          exact (scaled_shift f.neg n 1 _).symm
      rw [show f.readBack j = none from hless hlt] at hsome
      exact absurd hsome Bool.false_ne_true

/-- The power of ten of its first digit. -/
theorem shortest_exponent (hf : f.mant ≠ 0) : ∃ k : Nat, 10 ^ k ≤ f.shortest.1 ∧ f.shortest.1 < 10 ^ (k + 1) ∧
    (f.shortest.2 + k = decimalExponent f.units unitsPerOne ∨
      f.shortest.2 + k = decimalExponent f.units unitsPerOne + 1) := by
  obtain ⟨k, m, ⟨hk, -⟩, hm, -, -, hshort⟩ := shortest_form hf
  obtain ⟨hlo, hhi⟩ := lower_bounds hf hk
  obtain ⟨j, rfl⟩ : ∃ j, k = j + 1 := ⟨k - 1, by omega⟩
  rw [Nat.add_sub_cancel] at hlo
  rw [hshort]
  unfold digitExponent
  split
  · exact ⟨0, Nat.le_refl _, by dsimp only; omega, Or.inr (by dsimp only; push_cast; omega)⟩
  · exact ⟨j, by dsimp only; omega, by dsimp only; omega, Or.inl (by dsimp only; push_cast; omega)⟩

theorem shortest_lt (hf : f.mant ≠ 0) : f.shortest.1 < 10 ^ 17 := by
  obtain ⟨k, m, ⟨hk, hk17⟩, hm, -, -, hshort⟩ := shortest_form hf
  obtain ⟨-, hhi⟩ := lower_bounds hf hk
  have hpow : 10 ^ k ≤ 10 ^ 17 := Nat.pow_le_pow_right (by decide) hk17
  rw [hshort]
  split
  · dsimp only
    omega
  · dsimp only
    omega

/-- A ratio of at least a power of ten. -/
theorem le_decimalExponent {p q k : Nat} (hq : 0 < q) (h : 10 ^ k * q ≤ p) : (k : Int) ≤ decimalExponent p q := by
  have hp : 0 < p := Nat.lt_of_lt_of_le (Nat.mul_pos (Nat.pow_pos (by decide)) hq) h
  have hratio : (0 : ℚ) < (p : ℚ) / q := div_pos (Nat.cast_pos.mpr hp) (Nat.cast_pos.mpr hq)
  rw [decimalExponent_eq_log hp hq, ← Int.zpow_le_iff_le_log (by decide) hratio, zpow_natCast,
    le_div_iff₀ (Nat.cast_pos.mpr hq)]
  exact_mod_cast h

/-- A ratio below a power of ten under one. -/
theorem decimalExponent_lt {p q k : Nat} (hp : 0 < p) (h : p * 10 ^ k < q) : decimalExponent p q < -(k : Int) := by
  have hq : 0 < q := Nat.lt_of_le_of_lt (Nat.zero_le _) h
  have hratio : (0 : ℚ) < (p : ℚ) / q := div_pos (Nat.cast_pos.mpr hp) (Nat.cast_pos.mpr hq)
  rw [decimalExponent_eq_log hp hq, ← Int.lt_zpow_iff_log_lt (by decide) hratio, zpow_neg, zpow_natCast,
    div_lt_iff₀ (Nat.cast_pos.mpr hq), inv_mul_eq_div, lt_div_iff₀ (by positivity)]
  exact_mod_cast h

/-- A ratio of at least a power of ten under one. -/
theorem neg_le_decimalExponent {p q k : Nat} (hp : 0 < p) (hq : 0 < q) (h : q ≤ p * 10 ^ k) :
    -(k : Int) ≤ decimalExponent p q := by
  have hratio : (0 : ℚ) < (p : ℚ) / q := div_pos (Nat.cast_pos.mpr hp) (Nat.cast_pos.mpr hq)
  rw [decimalExponent_eq_log hp hq, ← Int.zpow_le_iff_le_log (by decide) hratio, zpow_neg, zpow_natCast,
    le_div_iff₀ (Nat.cast_pos.mpr hq), inv_mul_eq_div, div_le_iff₀ (by positivity)]
  exact_mod_cast h

theorem digit_of_lt {f : FiniteBinary64} (hf : f.mant ≠ 0) (hlt : f.shortest.1 < 10) :
    ∃ j, (j = 1 ∨ j = 2) ∧ f.shortest.2 = f.digitExponent 2 + (j : Nat) := by
  obtain ⟨k, hlo, -, hexp⟩ := shortest_exponent hf
  obtain rfl : k = 0 := by
    by_contra hk
    have := Nat.pow_le_pow_right (n := 10) (by decide) (show 1 ≤ k by omega)
    omega
  unfold digitExponent
  rcases hexp with hexp | hexp
  · exact ⟨1, Or.inl rfl, by push_cast; omega⟩
  · exact ⟨2, Or.inr rfl, by push_cast; omega⟩

/-- Of the decimals of two digits only one is read back as a normal double, so that a second digit is a zero where one
is enough. -/
theorem readBack_two (hn : 2 ^ 52 ≤ f.mant) (hlt : f.shortest.1 < 10) :
    f.readBack 2 = some (f.shortest.1 * 10, f.shortest.2 - 1) ∨ f.readBack 2 = some f.shortest := by
  have hf : f.mant ≠ 0 := by omega
  obtain ⟨hback, -⟩ := shortest_spec hf
  obtain ⟨j, hj, hexp⟩ := digit_of_lt hf hlt
  obtain ⟨-, hhi⟩ := lower_bounds (k := 2) hf (by decide)
  rcases hshort : f.shortest with ⟨s, e⟩
  rw [hshort] at hback hexp hlt
  dsimp only at hback hexp hlt ⊢
  rw [hexp, ← scaled_shift] at hback
  have hden := den_pos unitsPerOne_pos (f.digitExponent 2)
  have hsplit := Nat.div_add_mod (num f.units (f.digitExponent 2)) (den unitsPerOne (f.digitExponent 2))
  have hmod := Nat.mod_lt (num f.units (f.digitExponent 2)) hden
  have hlower : num f.units (f.digitExponent 2) / den unitsPerOne (f.digitExponent 2) = f.lower 2 := rfl
  rw [hlower, Nat.mul_comm] at hsplit
  have hbound := Nat.mul_le_mul_right (den unitsPerOne (f.digitExponent 2)) (Nat.le_of_lt_succ hhi)
  have hclose : ∀ m, NumberText.scaled f.neg 10 (m, f.digitExponent 2) = .finite f →
      2 * (m * den unitsPerOne (f.digitExponent 2)) < 2 * num f.units (f.digitExponent 2) +
          den unitsPerOne (f.digitExponent 2) ∧
        2 * num f.units (f.digitExponent 2) < 2 * (m * den unitsPerOne (f.digitExponent 2)) +
          den unitsPerOne (f.digitExponent 2) := fun m hm => by
    obtain ⟨hlo, hhi⟩ := near_of_scaled hm hn
    omega
  have hlt_of : ∀ {a b : Nat}, a * den unitsPerOne (f.digitExponent 2) < b * den unitsPerOne (f.digitExponent 2) →
      a < b := fun h => Nat.lt_of_mul_lt_mul_right h
  obtain ⟨hlo, hhi'⟩ := hclose _ hback
  have hmem : (s * 10 ^ j, f.digitExponent 2) ∈ neighbours f.units unitsPerOne 2 := by
    refine mem_neighbours.mpr ⟨?_, rfl⟩
    have h₁ : s * 10 ^ j < f.lower 2 + 2 := hlt_of (by rw [Nat.add_mul]; omega)
    have h₂ : f.lower 2 < s * 10 ^ j + 1 := hlt_of (by rw [Nat.add_mul]; omega)
    dsimp only
    omega
  have hsome : (f.readBack 2).isSome = true := readBack_isSome.mpr ⟨_, hmem, hback⟩
  obtain ⟨c, hc⟩ := Option.isSome_iff_exists.mp hsome
  obtain ⟨⟨m, e'⟩, hd, hcd⟩ := Option.map_eq_some_iff.mp hc
  have hm : NumberText.scaled f.neg 10 (m, e') = .finite f := by simpa only [decide_eq_true_eq] using List.find?_some hd
  obtain ⟨hmem', he'⟩ := mem_neighbours.mp (List.mem_of_find?_eq_some hd)
  dsimp only at hmem' he' hcd
  rw [he'] at hm hcd
  obtain ⟨hlo', hhi''⟩ := hclose m hm
  have heq : m = s * 10 ^ j := by
    have h₁ : m < s * 10 ^ j + 1 := hlt_of (by rw [Nat.add_mul]; omega)
    have h₂ : s * 10 ^ j < m + 1 := hlt_of (by rw [Nat.add_mul]; omega)
    omega
  rw [hc, ← hcd]
  rcases hj with rfl | rfl
  · rw [if_neg (by omega), heq, hexp]
    exact Or.inl (congrArg some (Prod.ext (by dsimp only; omega) (by dsimp only; omega)))
  · have hs : s = 1 := by
      have : s ≠ 0 := by
        rintro rfl
        have hone := (lower_bounds (k := 2) hf (by decide)).1
        omega
      omega
    rw [if_pos (by omega), hs, hexp]
    exact Or.inr rfl

/-! ## Whole numbers -/

theorem isIntegral_of_isWhole {a : Nat} (h : f.IsWhole a) : f.IsIntegral := by
  rcases Int.lt_or_le f.exp 0 with he | he
  · have hge := f.exp_ge
    obtain ⟨k, hk⟩ : ∃ k, k = (f.exp + 1074).toNat := ⟨_, rfl⟩
    have hsplit : unitsPerOne = 2 ^ (-f.exp).toNat * 2 ^ k := by
      rw [← pow_add, hk, show (-f.exp).toNat + (f.exp + 1074).toNat = 1074 by omega]
      rfl
    unfold IsWhole units at h
    rw [← hk, hsplit, ← Nat.mul_assoc] at h
    exact Or.inr ⟨a, (Nat.eq_of_mul_eq_mul_right (Nat.two_pow_pos k) h).trans (Nat.mul_comm ..)⟩
  · exact Or.inl he

theorem IsIntegral.isWhole (h : f.IsIntegral) : f.IsWhole f.truncNat := by
  have hge := f.exp_ge
  obtain ⟨j, hj, hunits⟩ : ∃ j, j = 1074 ∧ unitsPerOne = 2 ^ j := ⟨1074, rfl, rfl⟩
  unfold IsWhole units
  rw [hunits]
  rcases Int.lt_or_le f.exp 0 with he | he
  · have hmul := truncNat_mul h he
    rw [← hmul, Nat.mul_assoc, ← pow_add, show (-f.exp).toNat + (f.exp + 1074).toNat = j by omega]
  · rw [truncNat, if_pos he, Nat.mul_assoc, ← pow_add, show f.exp.toNat + j = (f.exp + 1074).toNat by omega]

/-- A whole number is rounded to a whole number. -/
theorem isIntegral_of_ofRatio {neg : Bool} {x : Nat} (h : ofRatio neg x 1 = .finite f) : f.IsIntegral := by
  by_cases hx : x < 2 ^ 53
  · obtain ⟨g, -, hneg, hg⟩ := exists_isWhole neg hx
    have hratio := hg.ofRatio_eq
    rw [hneg, h] at hratio
    obtain rfl := Binary64.finite.inj hratio
    exact isIntegral_of_isWhole hg
  · refine Or.inl ?_
    by_contra he
    have hge := f.exp_ge
    have hlarge := le_units_of_ofRatio (Nat.le_of_not_lt hx) h
    obtain ⟨j, hj, hone⟩ : ∃ j, j = 1074 ∧ unitsPerOne = 2 ^ j := ⟨1074, rfl, rfl⟩
    have hpow : 2 ^ (f.exp + 1074).toNat ≤ unitsPerOne := by
      rw [hone]
      exact Nat.pow_le_pow_right (by decide) (by omega)
    have hunits : f.units < 2 ^ 53 * unitsPerOne := calc
      f.units < 2 ^ 53 * 2 ^ (f.exp + 1074).toNat := Nat.mul_lt_mul_of_pos_right f.mant_lt (Nat.two_pow_pos _)
      _ ≤ 2 ^ 53 * unitsPerOne := Nat.mul_le_mul_left _ hpow
    omega

theorem truncNat_of_isWhole {a : Nat} (h : f.IsWhole a) : f.truncNat = a :=
  Nat.eq_of_mul_eq_mul_right unitsPerOne_pos ((isIntegral_of_isWhole h).isWhole.symm.trans h)

/-- The double nearest to an integer of 64 bits. -/
theorem ofInt_isIntegral {n : Int} (hn : n.natAbs ≤ 2 ^ 63) :
    ∃ g, Binary64.ofInt n = .finite g ∧ g.IsIntegral ∧ g.truncNat ≤ 2 ^ 63 := by
  unfold Binary64.ofInt
  by_cases hsmall : n.natAbs < 2 ^ 53
  · obtain ⟨g, hg, -, hwhole⟩ := exists_isWhole (decide (n < 0)) hsmall
    exact ⟨g, hg, isIntegral_of_isWhole hwhole, by rw [truncNat_of_isWhole hwhole]; omega⟩
  · have hne : n.natAbs ≠ 0 := by omega
    have hlog : 53 ≤ n.natAbs.log2 := (Nat.le_log2 hne).mpr (by omega)
    have hlog' : n.natAbs.log2 < 64 := (Nat.log2_lt hne).mpr (by omega)
    have htrunc : ∀ (neg : Bool) (m k : Nat) (e : Int) (hm : 2 ^ 52 ≤ m) (hm' : m < 2 ^ 53) (he : 0 ≤ e + 1074),
        e = k → m * 2 ^ k ≤ 2 ^ 63 → ∃ g, Binary64.ofParts neg m e hm hm' he = .finite g ∧ g.IsIntegral ∧
          g.truncNat ≤ 2 ^ 63 := by
      rintro neg m k e hm hm' he rfl hle
      have hk : k ≤ 11 := by
        by_contra hk
        have := Nat.mul_le_mul hm (Nat.pow_le_pow_right (n := 2) (by decide) (show 12 ≤ k by omega))
        omega
      unfold Binary64.ofParts
      rw [dif_pos (by omega)]
      refine ⟨_, rfl, Or.inl (Int.natCast_nonneg k), ?_⟩
      unfold truncNat
      dsimp only
      rwa [if_pos (Int.natCast_nonneg k), Int.toNat_natCast]
    obtain ⟨k, hk⟩ : ∃ k, n.natAbs.log2 = 52 + k := ⟨n.natAbs.log2 - 52, by omega⟩
    have hedge : k = 11 → roundShift n.natAbs (n.natAbs.log2 - 52) = 2 ^ 52 := by
      rintro rfl
      have hle := Nat.log2_self_le hne
      rw [hk] at hle ⊢
      rw [show n.natAbs = 2 ^ 52 * 2 ^ 11 by omega]
      exact roundShift_mul _ _
    have hpow : k ≤ 10 → 2 ^ k ≤ 2 ^ 10 := Nat.pow_le_pow_right (by decide)
    unfold Binary64.ofNat
    rw [dif_neg hne, dif_neg (by omega)]
    split
    · next hround =>
      refine htrunc _ _ k _ _ _ _ (by rw [hk]; omega) ?_
      by_cases hk11 : k = 11
      · rw [hedge hk11, hk11]
        decide
      · exact (Nat.mul_le_mul hround.le (hpow (by omega))).trans (by decide)
    · next hround =>
      have hk10 : k ≤ 10 := by
        by_contra hk10
        rw [hedge (by omega)] at hround
        omega
      refine htrunc _ _ (k + 1) _ _ _ _ (by rw [hk]; omega) ?_
      rw [pow_succ]
      have := hpow hk10
      omega

end FiniteBinary64
