import Mathlib.Data.Nat.Log
import Mathlib.Algebra.Order.Ring.Int

/-! # IEEE 754 binary64 values

A finite value is a sign, a significand below `2 ^ 53` and an exponent, in the unique form the format
stores: the significand has its top bit set unless the exponent is the smallest one. Equality is
therefore equality of bit patterns (all NaNs taken as one), and the two zeros are different values. -/

/-- A finite value `± mant · 2 ^ exp` in stored form. -/
structure FiniteBinary64 where
  neg : Bool
  mant : Nat
  exp : Int
  mant_lt : mant < 2 ^ 53
  exp_ge : -1074 ≤ exp
  exp_le : exp ≤ 971
  normal : 2 ^ 52 ≤ mant ∨ exp = -1074
deriving DecidableEq

inductive Binary64 where
  | nan
  | inf (neg : Bool)
  | finite (f : FiniteBinary64)
deriving DecidableEq

namespace FiniteBinary64

def zero (neg : Bool) : FiniteBinary64 where
  neg := neg
  mant := 0
  exp := -1074
  mant_lt := by decide
  exp_ge := by decide
  exp_le := by decide
  normal := Or.inr rfl

/-- The value has no fractional part. -/
def IsIntegral (f : FiniteBinary64) : Prop := 0 ≤ f.exp ∨ 2 ^ (-f.exp).toNat ∣ f.mant

instance (f : FiniteBinary64) : Decidable f.IsIntegral := inferInstanceAs (Decidable (_ ∨ _))

/-- The magnitude without its fractional part. -/
def truncNat (f : FiniteBinary64) : Nat :=
  if 0 ≤ f.exp then f.mant * 2 ^ f.exp.toNat else f.mant / 2 ^ (-f.exp).toNat

/-- Truncation towards zero. -/
def toInt (f : FiniteBinary64) : Int := if f.neg then -(f.truncNat : Int) else f.truncNat

end FiniteBinary64

namespace Binary64

def zero : Binary64 := finite (.zero false)

def negZero : Binary64 := finite (.zero true)

def isFinite : Binary64 → Bool
  | finite _ => true
  | _ => false

/-- The comparison `· < 0`. -/
def isNegative : Binary64 → Bool
  | finite f => f.neg && decide (f.mant ≠ 0)
  | inf neg => neg
  | nan => false

/-- `a / 2 ^ k`, to the nearest integer and to the even one of two nearest. -/
def roundShift (a k : Nat) : Nat :=
  let q := a / 2 ^ k
  let r := a % 2 ^ k
  if 2 * r < 2 ^ k then q
  else if 2 ^ k < 2 * r then q + 1
  else q + q % 2

theorem roundShift_le {a k : Nat} (h : a < 2 ^ (k + 53)) : roundShift a k ≤ 2 ^ 53 := by
  have hq : a / 2 ^ k < 2 ^ 53 := Nat.div_lt_of_lt_mul (by rwa [← pow_add])
  unfold roundShift
  dsimp only
  split
  · omega
  · split <;> omega

theorem le_roundShift {a k : Nat} (h : 2 ^ (k + 52) ≤ a) : 2 ^ 52 ≤ roundShift a k := by
  have hq : 2 ^ 52 ≤ a / 2 ^ k := (Nat.le_div_iff_mul_le (Nat.two_pow_pos k)).mpr (by rwa [← pow_add, add_comm 52])
  unfold roundShift
  dsimp only
  split
  · exact hq
  · split <;> omega

theorem roundShift_mul (q k : Nat) : roundShift (q * 2 ^ k) k = q := by
  simp [roundShift, Nat.mul_div_cancel q (Nat.two_pow_pos k)]

/-- The finite value with these parts, or the infinity past the largest exponent. -/
def ofParts (neg : Bool) (m : Nat) (e : Int) (hm : 2 ^ 52 ≤ m) (hm' : m < 2 ^ 53) (he : 0 ≤ e + 1074) :
    Binary64 :=
  if h : e ≤ 971 then finite ⟨neg, m, e, hm', by omega, h, Or.inl hm⟩ else inf neg

theorem ofParts_eq_finite {f : FiniteBinary64} {m : Nat} {e : Int} (hm : m = f.mant) (he : e = f.exp)
    (h₁ : 2 ^ 52 ≤ m) (h₂ : m < 2 ^ 53) (h₃ : 0 ≤ e + 1074) : ofParts f.neg m e h₁ h₂ h₃ = finite f := by
  subst hm he
  exact dif_pos f.exp_le

theorem le_mul_pow_log2 {a : Nat} (h0 : a ≠ 0) (h : a.log2 ≤ 52) : 2 ^ 52 ≤ a * 2 ^ (52 - a.log2) :=
  calc 2 ^ 52 = 2 ^ a.log2 * 2 ^ (52 - a.log2) := by rw [← pow_add, Nat.add_sub_cancel' h]
    _ ≤ a * 2 ^ (52 - a.log2) := Nat.mul_le_mul_right _ (Nat.log2_self_le h0)

theorem mul_pow_log2_lt {a : Nat} (h : a.log2 ≤ 52) : a * 2 ^ (52 - a.log2) < 2 ^ 53 :=
  calc a * 2 ^ (52 - a.log2) < 2 ^ (a.log2 + 1) * 2 ^ (52 - a.log2) :=
        Nat.mul_lt_mul_of_pos_right Nat.lt_log2_self (Nat.two_pow_pos _)
    _ = 2 ^ 53 := by rw [← pow_add]; congr 1; omega

theorem le_roundShift_log2 {a : Nat} (h0 : a ≠ 0) (h : ¬ a.log2 ≤ 52) :
    2 ^ 52 ≤ roundShift a (a.log2 - 52) := by
  apply le_roundShift
  rw [Nat.sub_add_cancel (by omega)]
  exact Nat.log2_self_le h0

/-- The magnitude `a` under a sign, rounded to nearest even. -/
def ofNat (neg : Bool) (a : Nat) : Binary64 :=
  if h0 : a = 0 then finite (.zero neg)
  else if h : a.log2 ≤ 52 then
    ofParts neg (a * 2 ^ (52 - a.log2)) (a.log2 - 52 : Int) (le_mul_pow_log2 h0 h) (mul_pow_log2_lt h) (by omega)
  else if hq : roundShift a (a.log2 - 52) < 2 ^ 53 then
    ofParts neg (roundShift a (a.log2 - 52)) (a.log2 - 52 : Int) (le_roundShift_log2 h0 h) hq (by omega)
  else
    ofParts neg (2 ^ 52) (a.log2 - 51 : Int) (Nat.le_refl _) (Nat.pow_lt_pow_right (by decide) (by decide))
      (by omega)

/-- The value nearest to an integer. -/
def ofInt (n : Int) : Binary64 := ofNat (decide (n < 0)) n.natAbs

end Binary64

namespace FiniteBinary64
variable {f : FiniteBinary64}

theorem natAbs_toInt (f : FiniteBinary64) : f.toInt.natAbs = f.truncNat := by
  unfold toInt; split <;> simp

theorem toInt_neg_iff (h : f.truncNat ≠ 0) : f.toInt < 0 ↔ f.neg = true := by
  unfold toInt
  cases f.neg with
  | false => simp
  | true => simp; omega

/-- Below exponent zero an integral value divides its significand exactly. -/
theorem truncNat_mul (h : f.IsIntegral) (he : f.exp < 0) : f.truncNat * 2 ^ (-f.exp).toNat = f.mant := by
  rcases h with h | h
  · omega
  · rw [truncNat, if_neg (by omega)]
    exact Nat.div_mul_cancel h

theorem log2_mul_pow {a : Nat} (k : Nat) (ha : a ≠ 0) : (a * 2 ^ k).log2 = a.log2 + k := by
  have hne : a * 2 ^ k ≠ 0 := Nat.mul_ne_zero ha (Nat.two_pow_pos k).ne'
  refine (Nat.log2_eq_iff hne).mpr ⟨?_, ?_⟩
  · rw [pow_add]; exact Nat.mul_le_mul_right _ (Nat.log2_self_le ha)
  · rw [Nat.add_right_comm, pow_add]
    exact Nat.mul_lt_mul_of_pos_right Nat.lt_log2_self (Nat.two_pow_pos k)

theorem log2_mant (h : 2 ^ 52 ≤ f.mant) : f.mant.log2 = 52 :=
  (Nat.log2_eq_iff (by have := Nat.two_pow_pos 52; omega)).mpr ⟨h, f.mant_lt⟩

theorem eq_zero_of_mant (h : f.mant = 0) : f = zero f.neg := by
  obtain ⟨neg, mant, exp, _, _, _, normal⟩ := f
  obtain rfl : mant = 0 := h
  obtain rfl : exp = -1074 := by simpa using normal
  rfl

/-- A nonzero integral value is not subnormal. -/
theorem IsIntegral.normal (h : f.IsIntegral) (h0 : f.mant ≠ 0) : 2 ^ 52 ≤ f.mant := by
  rcases f.normal with hn | hn
  · exact hn
  · exfalso
    rcases h with h | h
    · omega
    · have hle : 2 ^ (-f.exp).toNat ≤ f.mant := Nat.le_of_dvd (Nat.pos_of_ne_zero h0) h
      have hexp : 53 ≤ (-f.exp).toNat := by omega
      have hpow : (2 : Nat) ^ 53 ≤ 2 ^ (-f.exp).toNat := Nat.pow_le_pow_right (by decide) hexp
      exact absurd f.mant_lt (Nat.not_lt.mpr (hpow.trans hle))

theorem ofNat_truncNat (h : f.IsIntegral) (h0 : f.mant ≠ 0) : Binary64.ofNat f.neg f.truncNat = .finite f := by
  have hlog := log2_mant (h.normal h0)
  have hm := f.mant_lt
  rcases lt_or_ge f.exp 0 with he | he
  · have hmul := truncNat_mul h he
    have ha : f.truncNat ≠ 0 := fun ha => h0 (by rw [← hmul, ha, Nat.zero_mul])
    have hk : f.truncNat.log2 + (-f.exp).toNat = 52 := by rw [← log2_mul_pow _ ha, hmul, hlog]
    have hsub : 52 - f.truncNat.log2 = (-f.exp).toNat := by omega
    rw [Binary64.ofNat, dif_neg ha, dif_pos (by omega)]
    exact Binary64.ofParts_eq_finite (by rw [hsub, hmul]) (by omega) _ _ _
  · have hmul : f.truncNat = f.mant * 2 ^ f.exp.toNat := if_pos he
    have ha : f.truncNat ≠ 0 := by rw [hmul]; exact Nat.mul_ne_zero h0 (Nat.two_pow_pos _).ne'
    have hk : f.truncNat.log2 = 52 + f.exp.toNat := by rw [hmul, log2_mul_pow _ h0, hlog]
    rw [Binary64.ofNat, dif_neg ha]
    by_cases hz : f.exp.toNat = 0
    · rw [dif_pos (by omega)]
      exact Binary64.ofParts_eq_finite (by rw [hk, hz, hmul, hz]; simp) (by omega) _ _ _
    · have hround : Binary64.roundShift f.truncNat (f.truncNat.log2 - 52) = f.mant := by
        rw [hk, Nat.add_sub_cancel_left, hmul, Binary64.roundShift_mul]
      rw [dif_neg (by omega), dif_pos (by rw [hround]; exact hm)]
      exact Binary64.ofParts_eq_finite hround (by omega) _ _ _

@[simp] theorem toInt_zero (neg : Bool) : (zero neg).toInt = 0 := by
  have h : (zero neg).truncNat = 0 := by rw [truncNat, if_neg (by simp [zero])]; exact Nat.zero_div _
  rw [← Int.natAbs_eq_zero, natAbs_toInt, h]

theorem truncNat_eq_zero (h : f.IsIntegral) (ha : f.truncNat = 0) : f.mant = 0 := by
  rcases lt_or_ge f.exp 0 with he | he
  · rw [← truncNat_mul h he, ha, Nat.zero_mul]
  · rw [truncNat, if_pos he] at ha
    exact (Nat.mul_eq_zero.mp ha).resolve_right (Nat.two_pow_pos _).ne'

/-- Converting an integral value other than the negative zero to an integer and back loses nothing. -/
theorem ofInt_toInt (h : f.IsIntegral) (h0 : f ≠ zero true) : Binary64.ofInt f.toInt = .finite f := by
  by_cases hm : f.mant = 0
  · have hf := eq_zero_of_mant hm
    cases hn : f.neg with
    | false => rw [hf, hn, toInt_zero]; rfl
    | true => exact absurd (hn ▸ hf) h0
  · have ha : f.truncNat ≠ 0 := fun ha => hm (truncNat_eq_zero h ha)
    have hneg : decide (f.toInt < 0) = f.neg := by
      rw [Bool.eq_iff_iff, decide_eq_true_iff, toInt_neg_iff ha]
    rw [Binary64.ofInt, natAbs_toInt, hneg, ofNat_truncNat h hm]

end FiniteBinary64
