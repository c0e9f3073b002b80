import JosKernel.Arch.Mmu
import JosKernel.Lib.Bytes

namespace Jos

open Bytes (StringAt)

-- lib/string.c

def strchr (c : BitVec 8) : List (BitVec 8) → Option Nat
  | [] => none
  | head :: s => if head = c then some 0 else (strchr c s).map (· + 1)

def strcmp (m : Bytes.Memory 64) (p : Word) : List (BitVec 8) → Int
  | [] => (m p).toNat - (0 : BitVec 8).toNat
  | head :: q => if m p ≠ 0 ∧ m p = head then strcmp m (p + 1) q else (m p).toNat - head.toNat

variable {m : Bytes.Memory 64} {p : Word} {s : List (BitVec 8)}

theorem strcmp_eq_zero {q : List (BitVec 8)} (string : StringAt m p s) (nonzero : 0 ∉ q) : strcmp m p q = 0 ↔ s = q := by
  induction q generalizing p s with
  | nil =>
    rw [strcmp]
    cases s with
    | nil => simp [Bytes.StringAt.nil_iff.mp string]
    | cons c s =>
      have head := string.head
      rw [head.1]
      have positive : c.toNat ≠ 0 := fun zero => head.2 (BitVec.eq_of_toNat_eq zero)
      simpa using positive
  | cons d q ih =>
    have first : d ≠ 0 := fun zero => nonzero (zero ▸ List.mem_cons_self ..)
    rw [strcmp]
    cases s with
    | nil =>
      rw [if_neg (by simp [Bytes.StringAt.nil_iff.mp string]), Bytes.StringAt.nil_iff.mp string]
      have positive : d.toNat ≠ 0 := fun zero => first (BitVec.eq_of_toNat_eq zero)
      simp
      omega
    | cons c s =>
      have head := string.head
      rw [head.1]
      by_cases same : c = d
      · have rest : StringAt m (p + 1) s := string.tail
        rw [if_pos ⟨head.2, same⟩, ih rest fun member => nonzero (List.mem_cons_of_mem _ member), same]
        simp
      · rw [if_neg fun both => same both.2]
        have different : c.toNat ≠ d.toNat := fun equal => same (BitVec.eq_of_toNat_eq equal)
        simp [same]
        omega

end Jos
