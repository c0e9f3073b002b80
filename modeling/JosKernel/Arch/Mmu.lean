import Mathlib.Data.Nat.Bitwise
import Mathlib.Algebra.Order.Ring.Nat

namespace Jos

abbrev Word := BitVec 64

def logicalNot {w : Nat} (x : BitVec w) : BitVec w := if x = 0 then 1 else 0

-- inc/mmu.h: constants of the paging hardware

def pgSize : Nat := 4096
def ptSize : Nat := pgSize * 512

def pteP : Word := 0x001
def pteW : Word := 0x002
def pteU : Word := 0x004
def pteAvail : Word := 0xE00
def pteSyscall : Word := pteAvail ||| pteP ||| pteW ||| pteU

def flagMask : Word := 0xFFF

def pml4 (la : Word) : Nat := ((la >>> 39) &&& 0x1FF).toNat
def pdpe (la : Word) : Nat := ((la >>> 30) &&& 0x1FF).toNat
def pdx (la : Word) : Nat := ((la >>> 21) &&& 0x1FF).toNat
def ptx (la : Word) : Nat := ((la >>> 12) &&& 0x1FF).toNat
def pgOff (la : Word) : Nat := (la &&& 0xFFF).toNat
def ppn (pa : Word) : Nat := (pa >>> 12).toNat

def pteAddr (pte : Word) : Word := pte &&& ~~~flagMask

def Present (pte : Word) : Prop := pte &&& pteP ≠ 0

instance (pte : Word) : Decidable (Present pte) := inferInstanceAs (Decidable (_ ≠ _))

def entryPage (pte : Word) : Nat := ppn (pteAddr pte)

def pgAddr (m p d t o : Nat) : Word :=
  BitVec.ofNat 64 m <<< 39 ||| BitVec.ofNat 64 p <<< 30 ||| BitVec.ofNat 64 d <<< 21 |||
    BitVec.ofNat 64 t <<< 12 ||| BitVec.ofNat 64 o

-- inc/memlayout.h: the virtual memory map

def kernBase : Word := 0x8004000000
def kstackTop : Word := kernBase
def mmioLim : Word := kstackTop - BitVec.ofNat 64 ptSize
def mmioBase : Word := mmioLim - BitVec.ofNat 64 ptSize
def ulim : Word := mmioBase
def uvpt : Word := 0x10000000000
def upages : Word := ulim - BitVec.ofNat 64 (25 * ptSize)
def uenvs : Word := upages - BitVec.ofNat 64 ptSize
def utop : Word := uenvs
def uxStackTop : Word := 0xef800000
def uStackTop : Word := uxStackTop - BitVec.ofNat 64 (2 * pgSize)
def utext : Word := BitVec.ofNat 64 (4 * ptSize)
def mpentryPaddr : Word := 0x7000

-- inc/types.h

def roundDown (a : Word) (n : Nat) : Word := a - a % BitVec.ofNat 64 n
def roundUp (a : Word) (n : Nat) : Word := roundDown (a + BitVec.ofNat 64 n - 1) n

-- kern/pmap.h: the physical address of a page of the `pages` array

def page2pa (page : Nat) : Word := BitVec.ofNat 64 page <<< 12

def tableEntry (page : Nat) : Word := (page2pa page &&& ~~~flagMask) ||| pteU ||| pteP ||| pteW

/-- `perm|PTE_P`. It is a C `int`, so it is widened with its sign. -/
def leafFlags (perm : BitVec 32) : Word := (perm ||| pteP.setWidth 32).signExtend 64

def leafEntry (page : Nat) (perm : BitVec 32) : Word := page2pa page ||| leafFlags perm

theorem pml4_eq (la : Word) : pml4 la = la.toNat / 2^39 % 512 := by
  simp only [pml4, BitVec.toNat_and, BitVec.toNat_ushiftRight, Nat.shiftRight_eq_div_pow]
  exact Nat.and_two_pow_sub_one_eq_mod _ 9

theorem pdpe_eq (la : Word) : pdpe la = la.toNat / 2^30 % 512 := by
  simp only [pdpe, BitVec.toNat_and, BitVec.toNat_ushiftRight, Nat.shiftRight_eq_div_pow]
  exact Nat.and_two_pow_sub_one_eq_mod _ 9

theorem pdx_eq (la : Word) : pdx la = la.toNat / 2^21 % 512 := by
  simp only [pdx, BitVec.toNat_and, BitVec.toNat_ushiftRight, Nat.shiftRight_eq_div_pow]
  exact Nat.and_two_pow_sub_one_eq_mod _ 9

theorem ptx_eq (la : Word) : ptx la = la.toNat / 2^12 % 512 := by
  simp only [ptx, BitVec.toNat_and, BitVec.toNat_ushiftRight, Nat.shiftRight_eq_div_pow]
  exact Nat.and_two_pow_sub_one_eq_mod _ 9

theorem pgOff_eq (la : Word) : pgOff la = la.toNat % 4096 := by
  rw [pgOff, BitVec.toNat_and]
  exact Nat.and_two_pow_sub_one_eq_mod _ 12

theorem pml4_lt (la : Word) : pml4 la < 512 := by rw [pml4_eq]; omega
theorem pdpe_lt (la : Word) : pdpe la < 512 := by rw [pdpe_eq]; omega
theorem pdx_lt (la : Word) : pdx la < 512 := by rw [pdx_eq]; omega
theorem ptx_lt (la : Word) : ptx la < 512 := by rw [ptx_eq]; omega

theorem shiftLeft_toNat {n k : Nat} (bound : n * 2^k < 2^64) : (BitVec.ofNat 64 n <<< k).toNat = n * 2^k := by
  have small : n < 2^64 := lt_of_le_of_lt (Nat.le_mul_of_pos_right n (Nat.two_pow_pos k)) bound
  rw [BitVec.toNat_shiftLeft, BitVec.toNat_ofNat, Nat.mod_eq_of_lt small, Nat.shiftLeft_eq,
    Nat.mod_eq_of_lt bound]

theorem pgAddr_toNat {p d t : Nat} (hp : p < 512) (hd : d < 512) (ht : t < 512) :
    (pgAddr 0 p d t 0).toNat = p * 2^30 + d * 2^21 + t * 2^12 := by
  have last : d * 2^21 ||| t * 2^12 = d * 2^21 + t * 2^12 := by
    rw [Nat.mul_comm d, ← Nat.two_pow_add_eq_or_of_lt (by omega)]
  have whole : p * 2^30 ||| (d * 2^21 + t * 2^12) = p * 2^30 + (d * 2^21 + t * 2^12) := by
    rw [Nat.mul_comm p, ← Nat.two_pow_add_eq_or_of_lt (by omega)]
  simp only [pgAddr, BitVec.toNat_or, shiftLeft_toNat (show 0 * 2^39 < 2^64 by decide),
    shiftLeft_toNat (show p * 2^30 < 2^64 by omega), shiftLeft_toNat (show d * 2^21 < 2^64 by omega),
    shiftLeft_toNat (show t * 2^12 < 2^64 by omega), BitVec.toNat_ofNat, Nat.zero_mul, Nat.zero_mod,
    Nat.zero_or, Nat.or_zero, Nat.or_assoc]
  rw [last, whole]
  omega

theorem ppn_eq (pa : Word) : ppn pa = pa.toNat / 4096 := by
  simp only [ppn, BitVec.toNat_ushiftRight, Nat.shiftRight_eq_div_pow, Nat.reducePow]

theorem pteAddr_toNat (pte : Word) : (pteAddr pte).toNat = pte.toNat / 4096 * 4096 := by
  apply Nat.eq_of_testBit_eq
  intro i
  have low : ∀ j : Fin 64, (~~~flagMask).getLsbD j.val = decide (12 ≤ j.val) := by decide
  have mask : ∀ j, (~~~flagMask).getLsbD j = (decide (j < 64) && decide (12 ≤ j)) := by
    intro j
    by_cases small : j < 64
    · simpa [small] using low ⟨j, small⟩
    · simp [small]
  rw [BitVec.testBit_toNat, pteAddr, BitVec.getLsbD_and, mask,
    show (4096 : Nat) = 2^12 from rfl, Nat.testBit_mul_two_pow, Nat.testBit_div_two_pow,
    BitVec.testBit_toNat]
  by_cases high : 12 ≤ i
  · rw [show i - 12 + 12 = i by omega]
    by_cases small : i < 64
    · simp [high, small]
    · simp [high, small, BitVec.getLsbD_of_ge pte i (by omega)]
  · simp [high]

theorem entryPage_eq (pte : Word) : entryPage pte = pte.toNat / 4096 := by
  rw [entryPage, ppn_eq, pteAddr_toNat]
  omega

theorem present_iff (pte : Word) : Present pte ↔ pte.toNat % 2 = 1 := by
  have low : (pte &&& pteP).toNat = pte.toNat % 2 := by
    rw [BitVec.toNat_and]
    exact Nat.and_two_pow_sub_one_eq_mod _ 1
  rw [Present, ne_eq, ← BitVec.toNat_inj, low]
  simp

end Jos
