import Mathlib.Tactic.Positivity
import Pineapple.Lib.Binary64

/-! # The binary64 value nearest to a ratio

A ratio is measured in units of the smallest positive value, and the significand is what is left of it after as many
binary places as do not fit are rounded off. -/

namespace Binary64

/-- `a / b`, to the nearest integer and to the even one of two nearest. -/
def roundDiv (a b : Nat) : Nat :=
  let q := a / b
  let r := a % b
  if 2 * r < b then q
  else if b < 2 * r then q + 1
  else q + q % 2

theorem le_roundDiv (a b : Nat) : a / b ≤ roundDiv a b := by
  unfold roundDiv
  dsimp only
  split
  · exact Nat.le_refl _
  · split <;> omega

theorem roundDiv_mul (q : Nat) {b : Nat} (hb : 0 < b) : roundDiv (q * b) b = q := by
  unfold roundDiv
  dsimp only
  rw [Nat.mul_mod_left, Nat.mul_div_cancel q hb, if_pos hb]

/-- How many of the smallest positive value make one. -/
def unitsPerOne : Nat := 2 ^ 1074

theorem unitsPerOne_pos : 0 < unitsPerOne := by
  unfold unitsPerOne
  positivity

/-- How many binary places of a magnitude do not fit into a significand. -/
def spill (a : Nat) : Nat := a.log2 - 52

theorem le_div_spill {a : Nat} (h : spill a ≠ 0) : 2 ^ 52 ≤ a / 2 ^ spill a := by
  have hlog : 52 + spill a = a.log2 := by
    unfold spill at h ⊢
    omega
  have ha : a ≠ 0 := by
    rintro rfl
    exact h rfl
  rw [Nat.le_div_iff_mul_le (Nat.two_pow_pos _), ← pow_add, hlog]
  exact Nat.log2_self_le ha

/-- `mant · 2 ^ shift` in units of the smallest positive value, or the infinity past the largest exponent. -/
def ofUnits (neg : Bool) (mant shift : Nat) (hm : mant < 2 ^ 53) (hn : 2 ^ 52 ≤ mant ∨ shift = 0) : Binary64 :=
  if h : shift ≤ 2045 then
    finite {
      neg, mant, exp := (shift : Int) - 1074, mant_lt := hm, exp_ge := by omega, exp_le := by omega
      normal := hn.imp_right (by omega) }
  else inf neg

theorem le_roundDiv_spill {n q : Nat} (h : spill (n / q) ≠ 0) : 2 ^ 52 ≤ roundDiv n (q * 2 ^ spill (n / q)) := by
  have hle := le_div_spill h
  rw [Nat.div_div_eq_div_mul] at hle
  exact hle.trans (le_roundDiv _ _)

theorem normal_roundDiv (n q : Nat) : 2 ^ 52 ≤ roundDiv n (q * 2 ^ spill (n / q)) ∨ spill (n / q) = 0 := by
  by_cases h : spill (n / q) = 0
  · exact .inr h
  · exact .inl (le_roundDiv_spill h)

theorem pow_lt_limit : 2 ^ 52 < 2 ^ 53 := Nat.pow_lt_pow_right (by decide) (by decide)

/-- The value nearest to `p / q` under a sign, the even one of two nearest. -/
def ofRatio (neg : Bool) (p q : Nat) : Binary64 :=
  let n := p * unitsPerOne
  let k := spill (n / q)
  if hm : roundDiv n (q * 2 ^ k) < 2 ^ 53 then ofUnits neg (roundDiv n (q * 2 ^ k)) k hm (normal_roundDiv n q)
  else ofUnits neg (2 ^ 52) (k + 1) pow_lt_limit (.inl (Nat.le_refl _))

/-! ## Representable values -/

theorem ofUnits_eq_finite {f : FiniteBinary64} {m k : Nat} (hm : m = f.mant) (hk : (k : Int) = f.exp + 1074)
    (h₁ : m < 2 ^ 53) (h₂ : 2 ^ 52 ≤ m ∨ k = 0) : ofUnits f.neg m k h₁ h₂ = finite f := by
  subst hm
  have hle := f.exp_le
  unfold ofUnits
  rw [dif_pos (by omega)]
  obtain ⟨neg, mant, exp, _, _, _, _⟩ := f
  obtain rfl : exp = (k : Int) - 1074 := by
    have hexp : (k : Int) = exp + 1074 := hk
    omega
  rfl

end Binary64

namespace FiniteBinary64
open Binary64

/-- The magnitude in units of the smallest positive value. -/
def units (f : FiniteBinary64) : Nat := f.mant * 2 ^ (f.exp + 1074).toNat

theorem spill_units (f : FiniteBinary64) : spill f.units = (f.exp + 1074).toNat := by
  have hge := f.exp_ge
  rcases f.normal with hn | hn
  · have hmant : f.mant ≠ 0 := by
      have := Nat.two_pow_pos 52
      omega
    unfold spill units
    rw [log2_mul_pow _ hmant, log2_mant hn, Nat.add_sub_cancel_left]
  · have hshift : (f.exp + 1074).toNat = 0 := by omega
    unfold spill units
    rw [hshift, pow_zero, Nat.mul_one]
    by_cases hmant : f.mant = 0
    · rw [hmant]
      rfl
    · have hlog : f.mant.log2 < 53 := (Nat.log2_lt hmant).mpr f.mant_lt
      omega

/-- A value that the format holds is the one nearest to itself. -/
theorem ofRatio_units (f : FiniteBinary64) : ofRatio f.neg f.units unitsPerOne = .finite f := by
  have hpos := unitsPerOne_pos
  have ha : f.units * unitsPerOne / unitsPerOne = f.units := Nat.mul_div_cancel _ hpos
  have hround : roundDiv (f.units * unitsPerOne) (unitsPerOne * 2 ^ spill f.units) = f.mant := by
    rw [spill_units, units, Nat.mul_assoc, Nat.mul_comm (2 ^ _) unitsPerOne]
    exact roundDiv_mul _ (Nat.mul_pos hpos (Nat.two_pow_pos _))
  have hge := f.exp_ge
  unfold ofRatio
  simp only [ha]
  rw [dif_pos (hround ▸ f.mant_lt)]
  exact ofUnits_eq_finite hround (by rw [spill_units]; omega) _ _

end FiniteBinary64
