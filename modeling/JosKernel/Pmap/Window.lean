import JosKernel.Pmap.ReadOnly
import JosKernel.Pmap.Runs

namespace Jos

-- lib/entry.S

def uvpd : Word := uvpt + 0x80000000
def uvpde : Word := uvpd + 0x400000
def uvpml4e : Word := uvpde + 0x2000

-- inc/mmu.h: the indices into these arrays

def pgNum (la : Word) : Word := la >>> 12
def vpd (la : Word) : Word := la >>> 21
def vpdpe (la : Word) : Word := la >>> 30
def vpml4e (la : Word) : Word := la >>> 39

/-- `&array[index]`, where the elements have 64 bits. -/
def elementAddr (array index : Word) : Word := array + 8 * index

namespace Memory

/-- A load by the user from `address` gets the entry in `slot`, and a store faults. -/
def UserReads (m : Memory) (root : Nat) (address : Word) (slot : Slot) : Prop :=
  ∃ translation, m.mmuWalk root address = some translation ∧ translation.page = slot.1 ∧
    pgOff address = 8 * slot.2 ∧ translation.user = true ∧ translation.writable = false

/-- A PML4 with the entry for UVPT that `env_setup_vm` writes. What is present in the levels above the leaves
    has PTE_U, as the walks write it. -/
structure UserWindow (m : Memory) (root : Nat) : Prop where
  inside : root < 2^52
  entry : m.word root (pml4 uvpt) = page2pa root ||| pteP ||| pteU
  user : ∀ path table index, path.length ≤ 2 → (∀ i ∈ path, i < 512) → index < 512 →
    Radix.descend m.child root path = some table → Present (m.word table index) → m.word table index &&& pteU ≠ 0

/-- The entries that a walk for `va` comes to are those that the user reads in the four arrays. -/
structure WindowFaithful (m : Memory) (root : Nat) (va : Word) : Prop where
  pml4Entry : m.UserReads root (elementAddr uvpml4e (vpml4e va)) (root, pml4 va)
  pdpeEntry : ∀ pdpt, m.child root (pml4 va) = some pdpt →
    m.UserReads root (elementAddr uvpde (vpdpe va)) (pdpt, pdpe va)
  pdeEntry : ∀ pdpt pgdir, m.child root (pml4 va) = some pdpt → m.child pdpt (pdpe va) = some pgdir →
    m.UserReads root (elementAddr uvpd (vpd va)) (pgdir, pdx va)
  pteEntry : ∀ pdpt pgdir table, m.child root (pml4 va) = some pdpt → m.child pdpt (pdpe va) = some pgdir →
    m.child pgdir (pdx va) = some table → m.UserReads root (elementAddr uvpt (pgNum va)) (table, ptx va) ∧
      ∀ create slot m', m.pml4eWalk root va create = .ok (some slot, m') → slot = (table, ptx va)

end Memory

-- Addresses in the arrays

section Addresses

variable {va : Word}

theorem elementAddr_toNat (array : Word) (shift : Nat) (low : 12 ≤ shift) (near : array.toNat < 2^41)
    (small : va.toNat < 2^48) : (elementAddr array (va >>> shift)).toNat = array.toNat + 8 * (va.toNat / 2^shift) := by
  have index : va.toNat / 2^shift ≤ va.toNat / 2^12 :=
    Nat.div_le_div_left (Nat.pow_le_pow_right (by decide) low) (by decide)
  rw [elementAddr, BitVec.toNat_add, BitVec.toNat_mul, BitVec.toNat_ushiftRight, Nat.shiftRight_eq_div_pow]
  change (array.toNat + 8 * (va.toNat / 2^shift) % 2^64) % 2^64 = _
  omega

def parts (la : Word) : List Nat := [pml4 la, pdpe la, pdx la, ptx la, pgOff la]

theorem parts_eq (la : Word) : parts la = [la.toNat / 2^39 % 512, la.toNat / 2^30 % 512, la.toNat / 2^21 % 512,
    la.toNat / 2^12 % 512, la.toNat % 4096] := by
  rw [parts, pml4_eq, pdpe_eq, pdx_eq, ptx_eq, pgOff_eq]

theorem parts_uvpml4e (small : va.toNat < 2^48) :
    parts (elementAddr uvpml4e (vpml4e va)) = [2, 2, 2, 2, 8 * pml4 va] := by
  have base : uvpml4e.toNat = 0x10080402000 := rfl
  rw [parts_eq, vpml4e, elementAddr_toNat _ _ (by decide) (by decide) small, base, pml4_eq]
  simp only [List.cons.injEq, and_true]
  omega

theorem parts_uvpde (small : va.toNat < 2^48) :
    parts (elementAddr uvpde (vpdpe va)) = [2, 2, 2, pml4 va, 8 * pdpe va] := by
  have base : uvpde.toNat = 0x10080400000 := rfl
  rw [parts_eq, vpdpe, elementAddr_toNat _ _ (by decide) (by decide) small, base, pml4_eq, pdpe_eq]
  simp only [List.cons.injEq, and_true]
  omega

theorem parts_uvpd (small : va.toNat < 2^48) :
    parts (elementAddr uvpd (vpd va)) = [2, 2, pml4 va, pdpe va, 8 * pdx va] := by
  have base : uvpd.toNat = 0x10080000000 := rfl
  rw [parts_eq, vpd, elementAddr_toNat _ _ (by decide) (by decide) small, base, pml4_eq, pdpe_eq, pdx_eq]
  simp only [List.cons.injEq, and_true]
  omega

theorem parts_uvpt (small : va.toNat < 2^48) :
    parts (elementAddr uvpt (pgNum va)) = [2, pml4 va, pdpe va, pdx va, 8 * ptx va] := by
  have base : uvpt.toNat = 0x10000000000 := rfl
  rw [parts_eq, pgNum, elementAddr_toNat _ _ (by decide) (by decide) small, base, pml4_eq, pdpe_eq, pdx_eq, ptx_eq]
  simp only [List.cons.injEq, and_true]
  omega

end Addresses

-- The walk of the MMU through the window

namespace Memory

variable {m : Memory} {root : Nat}

theorem UserWindow.self (window : m.UserWindow root) : m.child root 2 = some root := by
  have entry : m.word root 2 = page2pa root ||| (pteP ||| pteU) := by
    rw [← BitVec.or_assoc]
    exact window.entry
  have inside := window.inside
  rw [child_eq_some, entry, present_iff, or_flags_toNat _ _ (page2pa_aligned root) (by decide), entryPage,
    pteAddr_or_flags _ _ (page2pa_aligned root) (by decide), ppn_eq, page2pa_toNat]
  change (root * 4096 % 2^64 + 5) % 2 = 1 ∧ _
  omega

theorem page2pa_and (page : Nat) {flags : Word} (low : ~~~flagMask &&& flags = 0) : page2pa page &&& flags = 0 := by
  rw [← pteAddr_page2pa, pteAddr, BitVec.and_assoc, low]
  exact BitVec.and_zero

theorem UserWindow.readOnly (window : m.UserWindow root) : m.word root 2 &&& pteW = 0 := by
  have entry : m.word root 2 = page2pa root ||| pteP ||| pteU := window.entry
  rw [entry, BitVec.or_assoc, BitVec.and_or_distrib_right, page2pa_and root (by decide)]
  decide

/-- A walk through the entry for UVPT ends one level higher than the walk behind it. -/
theorem UserWindow.reads (window : m.UserWindow root) {address : Word} {first second third index page : Nat}
    (place : parts address = [2, first, second, third, 8 * index])
    (small : first < 512 ∧ second < 512 ∧ third < 512)
    (found : Radix.descend m.child root [first, second, third] = some page) :
    m.UserReads root address (page, index) := by
  simp only [parts, List.cons.injEq, and_true] at place
  obtain ⟨top, middle, lower, last, offset⟩ := place
  simp only [Radix.descend_cons, Radix.descend_nil, Option.bind_eq_some_iff, Option.some.injEq] at found
  obtain ⟨pdpt, one, pgdir, two, _, three, rfl⟩ := found
  refine ⟨_, by simp only [mmuWalk, top, middle, lower, last, window.self, one, two, three, bind, Option.bind]; rfl,
    rfl, offset, ?_, ?_⟩
  · have user := window.user
    simp only [List.all_cons, List.all_nil, Bool.and_true, Bool.and_eq_true, decide_eq_true_eq]
    refine ⟨?_, ?_, ?_, ?_⟩
    · exact user [] root 2 (by simp) (by simp) (by decide) rfl (child_eq_some.mp window.self).1
    · exact user [] root first (by simp) (by simp) small.1 rfl (child_eq_some.mp one).1
    · exact user [first] pdpt second (by simp) (by simp [small.1]) small.2.1 (by simp [one]) (child_eq_some.mp two).1
    · exact user [first, second] pgdir third (by simp) (by simp [small.1, small.2.1]) small.2.2 (by simp [one, two])
        (child_eq_some.mp three).1
  · simp only [List.all_cons, window.readOnly]
    rfl

-- The walk of the kernel

theorem UserWindow.faithful (window : m.UserWindow root) {va : Word} (small : va.toNat < 2^48) :
    m.WindowFaithful root va where
  pml4Entry := by
    have place := parts_uvpml4e small
    exact window.reads place (by omega) (by simp [window.self])
  pdpeEntry := by
    intro pdpt one
    have bound := pml4_lt va
    exact window.reads (parts_uvpde small) (by omega) (by simp [window.self, one])
  pdeEntry := by
    intro pdpt pgdir one two
    have bound := pml4_lt va
    have bound' := pdpe_lt va
    exact window.reads (parts_uvpd small) (by omega) (by simp [window.self, one, two])
  pteEntry := by
    intro pdpt pgdir table one two three
    refine ⟨window.reads (parts_uvpt small) ⟨pml4_lt va, pdpe_lt va, pdx_lt va⟩ (by simp [one, two, three]), ?_⟩
    intro create slot m' walked
    exact (pml4eWalk_present one two three walked).1 slot rfl

end Memory

-- The address spaces of the kernel

variable {m : Memory} {g : Layout}

theorem tableEntry_user (page : Nat) : tableEntry page &&& pteU ≠ 0 := by
  rw [tableEntry_eq, BitVec.and_or_distrib_right, Memory.page2pa_and page (by decide)]
  decide

theorem Consistent.upper_user (valid : Consistent m g) {table root index : Nat} {path : List Nat}
    (role : g.role table = .table root path) (higher : path.length < 3) (small : index < 512)
    (present : Present (m.word table index)) : m.word table index &&& pteU ≠ 0 := by
  by_cases owned : g.Owned root path index
  · obtain ⟨next, entry, -⟩ := valid.tables.down table root path index role higher owned present
    rw [entry]
    exact tableEntry_user next
  · simp only [Layout.Owned, small, true_and, not_forall] at owned
    obtain ⟨rfl, special⟩ := owned
    have here := valid.tables.top table root role
    subst here
    by_cases window : index = 2
    · subst window
      rw [valid.tables.window table role, Memory.windowEntry] at present ⊢
      split at present
      · exact absurd present (by decide)
      · rename_i other
        rw [if_neg other, BitVec.or_assoc, BitVec.and_or_distrib_right, Memory.page2pa_and table (by decide)]
        decide
    · have sharing : index = 1 ∧ g.shares table = true := by
        simpa [window] using special
      obtain ⟨rfl, sharing⟩ := sharing
      obtain ⟨-, -, presentBoot, same⟩ := valid.tables.shared table sharing
      obtain ⟨next, entry, -⟩ := valid.tables.down _ _ [] 1 valid.tables.boot (by simp)
        ⟨by omega, fun _ => ⟨by omega, fun _ => valid.tables.shares_boot⟩⟩ presentBoot
      rw [same, entry]
      exact tableEntry_user next

theorem Consistent.userWindow (valid : Consistent m g) {root : Nat} (role : g.role root = .table root [])
    (notBoot : root ≠ m.bootPml4e) : m.UserWindow root where
  inside := by
    have small := valid.small
    have inside := (valid.tables.inside root root [] role).1
    omega
  entry := by
    have entry := valid.tables.window root role
    rwa [Memory.windowEntry, if_neg notBoot] at entry
  user := by
    intro path table index short small low reached present
    obtain ⟨root', path', role', length⟩ := valid.descend_table role (by simp; omega) small reached
    simp only [List.length_nil, Nat.zero_add] at length
    exact valid.upper_user role' (by omega) low present

end Jos
