import Mathlib.Data.BitVec
import Mathlib.Data.Nat.Bits
import Mathlib.Tactic.Common
import Mathlib.Tactic.Positivity
import Mathlib.Tactic.Ring

-- Numbers in base 128, the lowest digit first. Every byte but the last has its highest bit set.

namespace Leb128

abbrev Byte := BitVec 8

def more (digit : Nat) : Byte := BitVec.ofNat 8 (128 + digit % 128)

def last (digit : Nat) : Byte := BitVec.ofNat 8 (digit % 128)

/-- `n` in `extra + 1` bytes, of which the highest may be zero. -/
def unsigned : Nat → Nat → List Byte
  | 0, n => [last n]
  | extra + 1, n => more n :: unsigned extra (n / 128)

/-- `z` in `extra + 1` bytes, in two's complement. -/
def signed : Nat → Int → List Byte
  | 0, z => [last (z % 128).toNat]
  | extra + 1, z => more (z % 128).toNat :: signed extra (z / 128)

def FitsUnsigned (extra n : Nat) : Prop := n < 128^(extra + 1)

def FitsSigned (extra : Nat) (z : Int) : Prop := -64 * 128^extra ≤ z ∧ z < 64 * 128^extra

instance (extra n : Nat) : Decidable (FitsUnsigned extra n) := inferInstanceAs (Decidable (_ < _))

instance (extra : Nat) (z : Int) : Decidable (FitsSigned extra z) := inferInstanceAs (Decidable (_ ∧ _))

theorem FitsUnsigned.div {extra n : Nat} (fits : FitsUnsigned (extra + 1) n) : FitsUnsigned extra (n / 128) := by
  rw [FitsUnsigned, pow_succ] at fits
  exact Nat.div_lt_of_lt_mul (by rw [Nat.mul_comm]; exact fits)

theorem FitsSigned.div {extra : Nat} {z : Int} (fits : FitsSigned (extra + 1) z) : FitsSigned extra (z / 128) := by
  obtain ⟨low, high⟩ := fits
  rw [pow_succ] at low high
  constructor
  · exact Int.le_ediv_of_mul_le (by decide) (by rw [mul_assoc]; exact low)
  · exact Int.ediv_lt_of_lt_mul (by decide) (by rw [mul_assoc]; exact high)

section Bytes

variable (digit : Nat)

theorem more_toNat : (more digit).toNat = 128 + digit % 128 := by
  rw [more, BitVec.toNat_ofNat]
  omega

theorem last_toNat : (last digit).toNat = digit % 128 := by
  rw [last, BitVec.toNat_ofNat]
  omega

theorem more_continues : more digit &&& 0x80 ≠ 0 := by
  have small : digit % 128 < 128 := Nat.mod_lt _ (by decide)
  have table : ∀ n : Fin 128, BitVec.ofNat 8 (128 + n.val) &&& 0x80 ≠ 0 := by decide
  exact table ⟨digit % 128, small⟩

theorem last_stops : last digit &&& 0x80 = 0 := by
  have small : digit % 128 < 128 := Nat.mod_lt _ (by decide)
  have table : ∀ n : Fin 128, BitVec.ofNat 8 n.val &&& 0x80 = 0 := by decide
  exact table ⟨digit % 128, small⟩

theorem more_digit (w : Nat) : (more digit &&& 0x7F).setWidth w = BitVec.ofNat w (digit % 128) := by
  apply BitVec.eq_of_toNat_eq
  have mask : (more digit &&& 0x7F).toNat = digit % 128 := by
    rw [BitVec.toNat_and, more_toNat]
    change (128 + digit % 128) &&& 2^7 - 1 = _
    rw [Nat.and_two_pow_sub_one_eq_mod]
    omega
  rw [BitVec.toNat_setWidth, mask, BitVec.toNat_ofNat]

theorem last_digit (w : Nat) : (last digit &&& 0x7F).setWidth w = BitVec.ofNat w (digit % 128) := by
  apply BitVec.eq_of_toNat_eq
  have mask : (last digit &&& 0x7F).toNat = digit % 128 := by
    rw [BitVec.toNat_and, last_toNat]
    change digit % 128 &&& 2^7 - 1 = _
    rw [Nat.and_two_pow_sub_one_eq_mod]
    omega
  rw [BitVec.toNat_setWidth, mask, BitVec.toNat_ofNat]

theorem last_sign : last digit &&& 0x40 ≠ 0 ↔ 64 ≤ digit % 128 := by
  have small : digit % 128 < 128 := Nat.mod_lt _ (by decide)
  have table : ∀ n : Fin 128, BitVec.ofNat 8 n.val &&& 0x40 ≠ 0 ↔ 64 ≤ n.val := by decide
  exact table ⟨digit % 128, small⟩

end Bytes

theorem or_shift (w : Nat) {low shift : Nat} (below : low < 2^shift) (digit : Nat) :
    BitVec.ofNat w low ||| (BitVec.ofNat w digit <<< shift) = BitVec.ofNat w (low + digit * 2^shift) := by
  have shifted : BitVec.ofNat w digit <<< shift = BitVec.ofNat w (digit * 2^shift) := by
    apply BitVec.eq_of_toNat_eq
    rw [BitVec.toNat_shiftLeft, BitVec.toNat_ofNat, BitVec.toNat_ofNat, Nat.shiftLeft_eq, Nat.mod_mul_mod]
  rw [shifted, ← BitVec.ofNat_or, Nat.or_comm, Nat.mul_comm, ← Nat.two_pow_add_eq_or_of_lt below, Nat.add_comm]

theorem mod_split {m : Int} (positive : 0 < m) (z : Int) : z % (128 * m) = z % 128 + 128 * (z / 128 % m) := by
  have low := Int.emod_nonneg z (show (128 : Int) ≠ 0 by decide)
  have high := Int.emod_lt_of_pos z (show (0 : Int) < 128 by decide)
  have low' := Int.emod_nonneg (z / 128) positive.ne'
  have high' := Int.emod_lt_of_pos (z / 128) positive
  have digits : z % 128 + 128 * (z / 128 % m) + 128 * m * (z / 128 / m) = z := by
    calc z % 128 + 128 * (z / 128 % m) + 128 * m * (z / 128 / m)
        = z % 128 + 128 * (z / 128 % m + m * (z / 128 / m)) := by ring
      _ = z := by rw [Int.emod_add_mul_ediv, Int.emod_add_mul_ediv]
  exact ((Int.ediv_emod_unique (by omega)).mpr ⟨digits, by omega, by omega⟩).2

theorem signed_eq (extra : Nat) (z : Int) : signed extra z = unsigned extra (z % 128^(extra + 1)).toNat := by
  induction extra generalizing z with
  | zero =>
    rw [signed, unsigned, zero_add, pow_one]
  | succ extra ih =>
    have positive : (0 : Int) < 128^(extra + 1) := by positivity
    have nonneg := Int.emod_nonneg z (show (128 : Int)^(extra + 2) ≠ 0 by positivity)
    have digit : ((z % 128^(extra + 2)).toNat % 128 : Nat) = (z % 128).toNat := by
      have same : z % 128^(extra + 2) % 128 = z % 128 := Int.emod_emod_of_dvd z ⟨128^(extra + 1), by ring⟩
      omega
    have higher : (z % 128^(extra + 2)).toNat / 128 = ((z / 128) % 128^(extra + 1)).toNat := by
      have split := mod_split positive z
      rw [show (128 : Int) * 128^(extra + 1) = 128^(extra + 2) by ring] at split
      have below := Int.emod_nonneg (z / 128) positive.ne'
      omega
    rw [signed, unsigned, ih, higher, more, more, digit, Nat.mod_eq_of_lt (by omega)]

end Leb128
