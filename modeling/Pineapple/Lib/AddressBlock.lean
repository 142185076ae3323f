import Mathlib.Data.BitVec

/-! # Addresses of fixed width, their octets and their blocks

A block is the addresses that agree with a base on its leading bits. An octet test with a mask is one of division,
which is how a test on octets and a block are compared. -/

namespace Address

/-- The `i`-th octet, in network order. -/
def octet {w : Nat} (a : BitVec w) (i : Nat) : BitVec 8 := (a >>> (w - 8 - 8 * i)).setWidth 8

/-- `base/len`. -/
structure Block (w : Nat) where
  base : BitVec w
  len : Nat
deriving DecidableEq

namespace Block

variable {w : Nat}

def Contains (block : Block w) (a : BitVec w) : Prop := a >>> (w - block.len) = block.base >>> (w - block.len)

instance (block : Block w) (a : BitVec w) : Decidable (block.Contains a) :=
  inferInstanceAs (Decidable (_ = _))

theorem contains_iff (block : Block w) (a : BitVec w) :
    block.Contains a ↔ a.toNat / 2 ^ (w - block.len) = block.base.toNat / 2 ^ (w - block.len) := by
  unfold Contains
  rw [← BitVec.toNat_inj, BitVec.toNat_ushiftRight, BitVec.toNat_ushiftRight, Nat.shiftRight_eq_div_pow,
    Nat.shiftRight_eq_div_pow]

end Block

variable {w : Nat}

theorem toNat_octet (a : BitVec w) (i : Nat) : (octet a i).toNat = a.toNat / 2 ^ (w - 8 - 8 * i) % 256 := by
  unfold octet
  rw [BitVec.toNat_setWidth, BitVec.toNat_ushiftRight, Nat.shiftRight_eq_div_pow]

theorem octet_eq_iff (a : BitVec w) (i : Nat) (b : BitVec 8) :
    octet a i = b ↔ a.toNat / 2 ^ (w - 8 - 8 * i) % 256 = b.toNat := by
  rw [← BitVec.toNat_inj, toNat_octet]

/-! ## Masks -/

theorem and_leading (b : BitVec w) (j : Nat) : b &&& (BitVec.allOnes w <<< j) = (b >>> j) <<< j := by
  ext i hi
  simp only [BitVec.getElem_and, BitVec.getElem_shiftLeft, BitVec.getElem_allOnes]
  by_cases h : i < j
  · simp [h]
  · simp [h, BitVec.getLsbD_eq_getElem hi, Nat.add_sub_cancel' (Nat.le_of_not_lt h)]

/-- The leading bits, all but `j`, are those of `c`. -/
theorem and_leading_eq_iff {b c : BitVec w} {j : Nat} (hc : (c >>> j) <<< j = c) :
    b &&& (BitVec.allOnes w <<< j) = c ↔ b.toNat / 2 ^ j = c.toNat / 2 ^ j := by
  rw [and_leading, ← Nat.shiftRight_eq_div_pow, ← Nat.shiftRight_eq_div_pow, ← BitVec.toNat_ushiftRight,
    ← BitVec.toNat_ushiftRight, BitVec.toNat_inj]
  constructor
  · intro h
    rw [← h]
    ext i hi
    simpa using BitVec.lt_of_getLsbD
  · intro h
    rw [h, hc]

/-- The last bits, `j` of them, are those of `c`. -/
theorem and_trailing_eq_iff {b c : BitVec w} {j : Nat} (hj : j ≤ w) :
    b &&& BitVec.ofNat w (2 ^ j - 1) = c ↔ b.toNat % 2 ^ j = c.toNat := by
  rw [← BitVec.toNat_inj, BitVec.toNat_and, BitVec.toNat_ofNat, Nat.mod_eq_of_lt, Nat.and_two_pow_sub_one_eq_mod]
  have hle : 2 ^ j ≤ 2 ^ w := Nat.pow_le_pow_right (by omega) hj
  have hpos : 0 < 2 ^ j := Nat.two_pow_pos j
  omega

end Address
