import JosKernel.Arch.Mmu
import JosKernel.Lib.Leb128
import Mathlib.Tactic.Zify

namespace Jos

open Leb128 (FitsUnsigned FitsSigned)

-- kern/libdwarf_rw.c

/-- `(b & 0x7f) << shift`, which is an `int`, as 64 bits. -/
def lebDigit (b : BitVec 8) (shift : Nat) : Word := (((b &&& 0x7F).setWidth 32 : BitVec 32) <<< shift).signExtend 64

/-- The loop of the LEB128 functions: what they have read, the shift after it, and the last byte. An `int` is not
    shifted by 32 bits or more, and memory ends. -/
def lebLoop (ret : Word) (shift : Nat) : List (BitVec 8) → Option (Word × Nat × BitVec 8 × List (BitVec 8))
  | [] => none
  | b :: src =>
    if 32 ≤ shift then none
    else if b &&& 0x80 ≠ 0 then lebLoop (ret ||| lebDigit b shift) (shift + 7) src
    else some (ret ||| lebDigit b shift, shift + 7, b, src)

/-- `_dwarf_decode_uleb128`: the value, and what `*dp` points to then. -/
def dwarfDecodeUleb128 (src : List (BitVec 8)) : Option (Word × List (BitVec 8)) :=
  (lebLoop 0 0 src).map fun (ret, _, _, src) => (ret, src)

def dwarfDecodeSleb128 (src : List (BitVec 8)) : Option (Word × List (BitVec 8)) :=
  (lebLoop 0 0 src).map fun (ret, shift, b, src) =>
    (if shift < 32 ∧ b &&& 0x40 ≠ 0 then ret ||| ((-1 : BitVec 32) <<< shift).signExtend 64 else ret, src)

-- What they compute

section Loop

variable {extra j low n : Nat} {rest : List (BitVec 8)}

theorem lebDigit_or {b : BitVec 8} {digit : Nat} (value : (b &&& 0x7F).setWidth 32 = BitVec.ofNat 32 digit)
    {shift : Nat}
    (below : low < 2^shift) : (BitVec.ofNat 32 low).signExtend 64 ||| lebDigit b shift =
      (BitVec.ofNat 32 (low + digit * 2^shift)).signExtend 64 := by
  rw [lebDigit, value, ← BitVec.signExtend_or, Leb128.or_shift 32 below]

theorem lebLoop_unsigned (fits : FitsUnsigned extra n) (below : low < 2^(7 * j)) :
    lebLoop ((BitVec.ofNat 32 low).signExtend 64) (7 * j) (Leb128.unsigned extra n ++ rest) =
      if j + extra ≤ 4 then some ((BitVec.ofNat 32 (low + n * 2^(7 * j))).signExtend 64, 7 * (j + extra + 1),
        Leb128.last (n / 128^extra), rest)
      else none := by
  induction extra generalizing j low n with
  | zero =>
    have small : n % 128 = n := Nat.mod_eq_of_lt (by simpa [FitsUnsigned] using fits)
    rw [Leb128.unsigned, List.cons_append, List.nil_append, lebLoop, if_neg (not_not.mpr (Leb128.last_stops n)),
      lebDigit_or (Leb128.last_digit n 32) below, small, pow_zero, Nat.div_one]
    by_cases inside : j + 0 ≤ 4
    · rw [if_neg (by omega), if_pos inside]
      rfl
    · rw [if_pos (by omega), if_neg inside]
  | succ extra ih =>
    have digit : n % 128 < 128 := Nat.mod_lt _ (by decide)
    have step : low + n % 128 * 2^(7 * j) < 2^(7 * (j + 1)) := by
      rw [show 7 * (j + 1) = 7 * j + 7 by ring, pow_add]
      have scaled : n % 128 * 2^(7 * j) ≤ 127 * 2^(7 * j) := Nat.mul_le_mul_right _ (by omega)
      omega
    have next := ih fits.div step
    have whole : low + n % 128 * 2^(7 * j) + n / 128 * 2^(7 * (j + 1)) = low + n * 2^(7 * j) := by
      rw [show 2^(7 * (j + 1)) = 128 * 2^(7 * j) by ring, Nat.add_assoc, ← Nat.mul_assoc, ← Nat.add_mul,
        Nat.mul_comm (n / 128), Nat.mod_add_div]
    rw [Leb128.unsigned, List.cons_append, lebLoop, if_pos (Leb128.more_continues n),
      lebDigit_or (Leb128.more_digit n 32) below, show 7 * j + 7 = 7 * (j + 1) by ring, next, whole,
      Nat.div_div_eq_div_mul, ← pow_succ', show j + 1 + extra = j + (extra + 1) by ring]
    by_cases inside : j + (extra + 1) ≤ 4
    · rw [if_neg (by omega), if_pos inside]
    · rw [if_neg inside, ite_self]

theorem dwarfDecodeUleb128_unsigned (fits : FitsUnsigned extra n) :
    dwarfDecodeUleb128 (Leb128.unsigned extra n ++ rest) =
      if extra ≤ 4 then some ((BitVec.ofNat 32 n).signExtend 64, rest) else none := by
  have read := @lebLoop_unsigned extra 0 0 n rest fits (by decide)
  rw [Nat.zero_add, Nat.mul_zero, Nat.pow_zero, Nat.mul_one, Nat.zero_add] at read
  rw [dwarfDecodeUleb128, show (0 : Word) = (BitVec.ofNat 32 0).signExtend 64 from rfl, read]
  split <;> rfl

theorem ofNat_eq_ofInt {n : Nat} {z turns : Int} (same : (n : Int) = z + turns * 2^32) :
    BitVec.ofNat 32 n = BitVec.ofInt 32 z := by
  apply BitVec.eq_of_toNat_eq
  rw [← BitVec.ofInt_natCast, same, BitVec.toNat_ofInt, BitVec.toNat_ofInt]
  omega

/-- The sign is extended where the last shift is less than 32, and elsewhere the fifth byte has it. -/
theorem sleb_signed {z : Int} (fits : FitsSigned extra z) (short : extra ≤ 4) :
    (if 7 * (extra + 1) < 32 ∧ Leb128.last ((z % 128^(extra + 1)).toNat / 128^extra) &&& 0x40 ≠ 0 then
      (BitVec.ofNat 32 (z % 128^(extra + 1)).toNat).signExtend 64 |||
        ((-1 : BitVec 32) <<< (7 * (extra + 1))).signExtend 64
    else (BitVec.ofNat 32 (z % 128^(extra + 1)).toNat).signExtend 64 : Word) = (BitVec.ofInt 32 z).signExtend 64 := by
  obtain ⟨low, high⟩ := fits
  have width : (128 : Int)^(extra + 1) = 128 * 128^extra := by ring
  have positive : (0 : Int) < 128^extra := by positivity
  rcases lt_or_ge z 0 with negative | nonneg
  · have remainder : z % 128^(extra + 1) = z + 128^(extra + 1) := by
      rw [← Int.add_emod_right, Int.emod_eq_of_lt (by omega) (by omega)]
    rw [remainder]
    generalize value : (z + 128^(extra + 1)).toNat = n
    have whole : (n : Int) = z + 128^(extra + 1) := by omega
    have top : n / 128^extra = n / 128^extra % 128 := by
      refine (Nat.mod_eq_of_lt (Nat.div_lt_of_lt_mul ?_)).symm
      zify
      omega
    have sign : Leb128.last (n / 128^extra) &&& 0x40 ≠ 0 := by
      rw [Leb128.last_sign, ← top, Nat.le_div_iff_mul_le (by positivity)]
      zify
      omega
    by_cases extended : 7 * (extra + 1) < 32
    · rw [if_pos ⟨extended, sign⟩, ← BitVec.signExtend_or, show (-1 : BitVec 32) = BitVec.ofNat 32 (2^32 - 1) from rfl,
        Leb128.or_shift 32 (show n < 2^(7 * (extra + 1)) by
          rw [pow_mul]
          zify
          norm_num
          omega)]
      congr 1
      refine @ofNat_eq_ofInt _ z (128^(extra + 1)) ?_
      push_cast
      rw [whole, pow_mul]
      norm_num
      ring
    · obtain rfl : extra = 4 := by omega
      rw [if_neg fun both => extended both.1]
      congr 1
      exact @ofNat_eq_ofInt _ z 8 (by rw [whole]; norm_num)
  · have remainder : z % 128^(extra + 1) = z := Int.emod_eq_of_lt nonneg (by omega)
    rw [remainder]
    have small : ¬ Leb128.last (z.toNat / 128^extra) &&& 0x40 ≠ 0 := by
      have below : z.toNat / 128^extra < 64 := by
        refine Nat.div_lt_of_lt_mul ?_
        zify
        rw [Int.toNat_of_nonneg nonneg]
        omega
      rw [Leb128.last_sign, Nat.mod_eq_of_lt (by omega)]
      omega
    rw [if_neg fun both => small both.2]
    congr 1
    exact @ofNat_eq_ofInt _ z 0 (by rw [Int.toNat_of_nonneg nonneg]; ring)

theorem dwarfDecodeSleb128_signed {z : Int} (fits : FitsSigned extra z) :
    dwarfDecodeSleb128 (Leb128.signed extra z ++ rest) =
      if extra ≤ 4 then some ((BitVec.ofInt 32 z).signExtend 64, rest) else none := by
  have positive : (0 : Int) < 128^(extra + 1) := by positivity
  have fits' : FitsUnsigned extra (z % 128^(extra + 1)).toNat := by
    rw [FitsUnsigned]
    zify
    rw [Int.toNat_of_nonneg (Int.emod_nonneg z positive.ne')]
    exact Int.emod_lt_of_pos z positive
  have read := @lebLoop_unsigned extra 0 0 _ rest fits' (by decide)
  rw [Nat.zero_add, Nat.mul_zero, Nat.pow_zero, Nat.mul_one, Nat.zero_add] at read
  rw [dwarfDecodeSleb128, show (0 : Word) = (BitVec.ofNat 32 0).signExtend 64 from rfl, Leb128.signed_eq, read]
  by_cases short : extra ≤ 4
  · rw [if_pos short, if_pos short, Option.map_some]
    exact congrArg (fun value => some (value, rest)) (sleb_signed fits short)
  · rw [if_neg short, if_neg short]
    rfl

end Loop

theorem signExtend_exact {z : Int} (low : -2^34 ≤ z) (high : z < 2^35) :
    (BitVec.ofInt 32 z).signExtend 64 = BitVec.ofInt 64 z ↔ -2^31 ≤ z ∧ z < 2^31 := by
  rw [← BitVec.toInt_inj, BitVec.toInt_signExtend_of_le (by decide), BitVec.toInt_ofInt, BitVec.toInt_ofInt,
    Int.bmod, Int.bmod]
  omega

theorem dwarfDecodeUleb128_exact {extra n : Nat} (fits : FitsUnsigned extra n) (rest : List (BitVec 8)) :
    dwarfDecodeUleb128 (Leb128.unsigned extra n ++ rest) = some (BitVec.ofNat 64 n, rest) ↔ extra ≤ 4 ∧ n < 2^31 := by
  rw [dwarfDecodeUleb128_unsigned fits]
  by_cases short : extra ≤ 4
  · have bound : 128^(extra + 1) ≤ 2^35 := by
      calc 128^(extra + 1) ≤ 128^5 := Nat.pow_le_pow_right (by decide) (by omega)
        _ = 2^35 := by norm_num
    rw [FitsUnsigned] at fits
    have same := @signExtend_exact n (by omega) (by omega)
    rw [BitVec.ofInt_natCast, BitVec.ofInt_natCast] at same
    rw [if_pos short]
    simp only [Option.some.injEq, Prod.mk.injEq, and_true, same, short, true_and]
    omega
  · simp [short]

theorem dwarfDecodeSleb128_exact {extra : Nat} {z : Int} (fits : FitsSigned extra z) (rest : List (BitVec 8)) :
    dwarfDecodeSleb128 (Leb128.signed extra z ++ rest) = some (BitVec.ofInt 64 z, rest) ↔
      extra ≤ 4 ∧ -2^31 ≤ z ∧ z < 2^31 := by
  rw [dwarfDecodeSleb128_signed fits]
  by_cases short : extra ≤ 4
  · obtain ⟨low, high⟩ := fits
    have bound : (128 : Int)^extra ≤ 2^28 := by
      calc (128 : Int)^extra ≤ 128^4 := pow_le_pow_right₀ (by decide) short
        _ = 2^28 := by norm_num
    have same := @signExtend_exact z (by omega) (by omega)
    rw [if_pos short]
    simp only [Option.some.injEq, Prod.mk.injEq, and_true, same, short, true_and]
  · simp [short]

/-- The LEB128 functions read a number right exactly if it takes at most five bytes and is an `int`. -/
theorem leb128_exact (extra : Nat) (rest : List (BitVec 8)) :
    (∀ n, FitsUnsigned extra n → (dwarfDecodeUleb128 (Leb128.unsigned extra n ++ rest) =
      some (BitVec.ofNat 64 n, rest) ↔ extra ≤ 4 ∧ n < 2^31)) ∧
    ∀ z, FitsSigned extra z → (dwarfDecodeSleb128 (Leb128.signed extra z ++ rest) =
      some (BitVec.ofInt 64 z, rest) ↔ extra ≤ 4 ∧ -2^31 ≤ z ∧ z < 2^31) :=
  ⟨fun _ fits => dwarfDecodeUleb128_exact fits rest, fun _ fits => dwarfDecodeSleb128_exact fits rest⟩

/-- Where an `int` ends. -/
theorem leb128_exact_edges :
    dwarfDecodeUleb128 (Leb128.unsigned 4 0x7fffffff ++ [0x55]) = some (BitVec.ofNat 64 0x7fffffff, [0x55]) ∧
      dwarfDecodeUleb128 (Leb128.unsigned 4 0x80000000 ++ [0x55]) ≠ some (BitVec.ofNat 64 0x80000000, [0x55]) ∧
      dwarfDecodeSleb128 (Leb128.signed 4 (-0x80000000) ++ [0x55]) = some (BitVec.ofInt 64 (-0x80000000), [0x55]) := by
  obtain ⟨unsigned, signed⟩ := leb128_exact 4 [0x55]
  refine ⟨(unsigned _ (by decide)).mpr (by decide), fun same => ?_, (signed _ (by decide)).mpr (by decide)⟩
  exact absurd ((unsigned _ (by decide)).mp same) (by decide)

end Jos
