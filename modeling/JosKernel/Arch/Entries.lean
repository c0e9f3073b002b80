import JosKernel.Arch.Mmu

namespace Jos

theorem page2pa_toNat (page : Nat) : (page2pa page).toNat = page * 4096 % 2^64 := by
  rw [page2pa, BitVec.toNat_shiftLeft, BitVec.toNat_ofNat, Nat.shiftLeft_eq]
  omega

theorem page2pa_aligned (page : Nat) : (page2pa page).toNat % 4096 = 0 := by
  rw [page2pa_toNat]
  omega

theorem pteAddr_page2pa (page : Nat) : pteAddr (page2pa page) = page2pa page := by
  apply BitVec.eq_of_toNat_eq
  have aligned := page2pa_aligned page
  rw [pteAddr_toNat]
  omega

theorem or_flags_toNat (pa flags : Word) (aligned : pa.toNat % 4096 = 0) (small : flags.toNat < 4096) :
    (pa ||| flags).toNat = pa.toNat + flags.toNat := by
  have base : pa.toNat = 2^12 * (pa.toNat / 4096) := by omega
  rw [BitVec.toNat_or, base, ← Nat.two_pow_add_eq_or_of_lt small]

theorem pteAddr_or_flags (pa flags : Word) (aligned : pa.toNat % 4096 = 0)
    (small : flags.toNat < 4096) : pteAddr (pa ||| flags) = pa := by
  apply BitVec.eq_of_toNat_eq
  rw [pteAddr_toNat, or_flags_toNat pa flags aligned small]
  omega

theorem tableEntry_eq (page : Nat) : tableEntry page = page2pa page ||| 7 := by
  have cleared : page2pa page &&& ~~~flagMask = page2pa page := pteAddr_page2pa page
  rw [tableEntry, cleared, BitVec.or_assoc, BitVec.or_assoc]
  rfl

theorem tableEntry_toNat (page : Nat) (bound : page < 2^52) :
    (tableEntry page).toNat = page * 4096 + 7 := by
  rw [tableEntry_eq, or_flags_toNat _ _ (page2pa_aligned page) (by decide), page2pa_toNat]
  change page * 4096 % 2^64 + 7 = _
  omega

theorem entryPage_tableEntry (page : Nat) (bound : page < 2^52) : entryPage (tableEntry page) = page := by
  rw [entryPage_eq, tableEntry_toNat page bound]
  omega

theorem present_tableEntry (page : Nat) : Present (tableEntry page) := by
  rw [present_iff, tableEntry_eq, or_flags_toNat _ _ (page2pa_aligned page) (by decide)]
  have aligned := page2pa_aligned page
  change ((page2pa page).toNat + 7) % 2 = 1
  omega

theorem refresh_tableEntry (page : Nat) :
    (tableEntry page &&& ~~~flagMask) ||| pteU ||| pteP ||| pteW = tableEntry page := by
  have cleared : tableEntry page &&& ~~~flagMask = page2pa page := by
    rw [tableEntry_eq]
    exact pteAddr_or_flags _ _ (page2pa_aligned page) (by decide)
  have base : page2pa page &&& ~~~flagMask = page2pa page := pteAddr_page2pa page
  rw [cleared, tableEntry, base]

theorem leafFlags_eq (perm : BitVec 32) (small : perm.toNat < 4096) :
    leafFlags perm = (perm ||| pteP.setWidth 32).setWidth 64 := by
  have joined : (perm ||| pteP.setWidth 32).toNat = perm.toNat ||| 1 := by
    rw [BitVec.toNat_or]
    rfl
  have bound : perm.toNat ||| 1 < 2^12 := Nat.or_lt_two_pow small (by decide)
  have positive : (perm ||| pteP.setWidth 32).msb = false := by
    rw [BitVec.msb_eq_false_iff_two_mul_lt, joined]
    omega
  rw [leafFlags, BitVec.signExtend_eq_setWidth_of_msb_false positive]

theorem leafFlags_toNat (perm : BitVec 32) (small : perm.toNat < 4096) :
    (leafFlags perm).toNat = perm.toNat ||| 1 := by
  have joined : (perm ||| pteP.setWidth 32).toNat = perm.toNat ||| 1 := by
    rw [BitVec.toNat_or]
    rfl
  have bound : perm.toNat ||| 1 < 2^12 := Nat.or_lt_two_pow small (by decide)
  rw [leafFlags_eq perm small, BitVec.toNat_setWidth, joined]
  omega

section LeafEntry

variable (page : Nat) (perm : BitVec 32)

theorem leafFlags_small (small : perm.toNat < 4096) : (leafFlags perm).toNat < 4096 := by
  rw [leafFlags_toNat perm small]
  exact Nat.or_lt_two_pow (n := 12) small (by decide)

theorem pteAddr_leafEntry (small : perm.toNat < 4096) : pteAddr (leafEntry page perm) = page2pa page :=
  pteAddr_or_flags _ _ (page2pa_aligned page) (leafFlags_small perm small)

theorem leafEntry_toNat (bound : page < 2^52) (small : perm.toNat < 4096) :
    (leafEntry page perm).toNat = page * 4096 + (perm.toNat ||| 1) := by
  rw [leafEntry, or_flags_toNat _ _ (page2pa_aligned page) (leafFlags_small perm small),
    page2pa_toNat, leafFlags_toNat perm small]
  omega

theorem entryPage_leafEntry (bound : page < 2^52) (small : perm.toNat < 4096) :
    entryPage (leafEntry page perm) = page := by
  have flags : perm.toNat ||| 1 < 2^12 := Nat.or_lt_two_pow small (by decide)
  rw [entryPage_eq, leafEntry_toNat page perm bound small]
  omega

theorem leafEntry_flags (small : perm.toNat < 4096) :
    leafEntry page perm &&& flagMask = leafFlags perm := by
  apply BitVec.eq_of_toNat_eq
  have flags := leafFlags_small perm small
  have aligned := page2pa_aligned page
  rw [BitVec.toNat_and, leafEntry, or_flags_toNat _ _ aligned flags]
  have mask : ((page2pa page).toNat + (leafFlags perm).toNat) &&& flagMask.toNat =
      ((page2pa page).toNat + (leafFlags perm).toNat) % 2^12 := Nat.and_two_pow_sub_one_eq_mod _ 12
  rw [mask]
  omega

theorem leafEntry_getLsbD {i : Nat} (low : i < 12) :
    (leafEntry page perm).getLsbD i = (perm.getLsbD i || decide (i = 0)) := by
  have address : (page2pa page).getLsbD i = false := by simp [page2pa, low]
  have flag : (pteP.setWidth 32).getLsbD i = decide (i = 0) := by
    have table : ∀ j : Fin 12, (pteP.setWidth 32).getLsbD j.val = decide (j.val = 0) := by decide
    exact table ⟨i, low⟩
  rw [leafEntry, BitVec.getLsbD_or, address, leafFlags, BitVec.getLsbD_signExtend,
    BitVec.getLsbD_or, flag]
  simp [show i < 64 by omega, show i < 32 by omega]

theorem present_leafEntry : Present (leafEntry page perm) := by
  have bit : (leafEntry page perm).getLsbD 0 = true := by
    rw [leafEntry_getLsbD page perm (by decide)]
    simp
  have := BitVec.testBit_toNat (leafEntry page perm) (i := 0)
  rw [bit, Nat.testBit_zero, decide_eq_true_eq] at this
  exact (present_iff _).mpr this

end LeafEntry

-- Addresses

theorem utop_toNat : utop.toNat = 0x8000800000 := by decide
theorem ulim_toNat : ulim.toNat = 0x8003c00000 := by decide

theorem page_of_indices {la lb : Word} (ha : la.toNat < 2^48) (hb : lb.toNat < 2^48)
    (m : pml4 la = pml4 lb) (p : pdpe la = pdpe lb) (d : pdx la = pdx lb) (t : ptx la = ptx lb) :
    la.toNat / 4096 = lb.toNat / 4096 := by
  rw [pml4_eq, pml4_eq] at m
  rw [pdpe_eq, pdpe_eq] at p
  rw [pdx_eq, pdx_eq] at d
  rw [ptx_eq, ptx_eq] at t
  omega

theorem indices_of_page {la lb : Word} (same : la.toNat / 4096 = lb.toNat / 4096) :
    pml4 la = pml4 lb ∧ pdpe la = pdpe lb ∧ pdx la = pdx lb ∧ ptx la = ptx lb := by
  simp only [pml4_eq, pdpe_eq, pdx_eq, ptx_eq]
  omega

end Jos
