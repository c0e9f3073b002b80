import Mathlib.Data.Set.Card
import JosKernel.Pmap.Spaces

namespace Jos

variable {m m' : Memory} {g g' : Layout}

/-- The leaf entries below UTOP, in the address spaces under `roots`, that map a page. -/
def Memory.leafRefs (m : Memory) (roots : Nat → Prop) (page : Nat) : Set Slot :=
  {slot | ∃ root va, roots root ∧ va < utop ∧ m.leafSlot root va = some slot ∧
    m.child slot.1 slot.2 = some page}

noncomputable def Memory.leafCount (m : Memory) (roots : Nat → Prop) (page : Nat) : Nat :=
  (m.leafRefs roots page).ncard

def mapSlots (m : Memory) (g : Layout) (page : Nat) : Finset Slot :=
  (area m).filter fun slot => leafTarget m g slot = some page

theorem card_mapSlots (m : Memory) (g : Layout) (page : Nat) : (mapSlots m g page).card = mappings m g page := rfl

section Roots

variable {roots : Nat → Prop} {page : Nat}

theorem Consistent.leafRefs_subset (valid : Consistent m g)
    (known : ∀ root, roots root → g.role root = .table root []) :
    m.leafRefs roots page ⊆ mapSlots m g page := by
  rintro slot ⟨root, va, member, below, found, target⟩
  obtain ⟨small, ⟨path, role, user⟩, -⟩ := valid.leafSlot_user (known root member) below found
  refine Finset.mem_coe.mpr (Finset.mem_filter.mpr ⟨mem_area.mpr ⟨(valid.tables.inside _ _ _ role).1, small⟩, ?_⟩)
  rw [leafTarget_of_role role user]
  exact target

theorem Consistent.leafCount_le (valid : Consistent m g)
    (known : ∀ root, roots root → g.role root = .table root []) (page : Nat) :
    m.leafCount roots page ≤ mappings m g page := by
  rw [Memory.leafCount, ← card_mapSlots, ← Set.ncard_coe_finset]
  exact Set.ncard_le_ncard (valid.leafRefs_subset known) (Finset.finite_toSet _)

def indexAddr (top middle last leaf : Nat) : Word :=
  BitVec.ofNat 64 (top * 2^39 + middle * 2^30 + last * 2^21 + leaf * 2^12)

theorem indexAddr_spec {top middle last leaf : Nat} (user : userPath [top, middle, last] = true)
    (hm : middle < 512) (hl : last < 512) (ht : leaf < 512) :
    indexAddr top middle last leaf < utop ∧ pml4 (indexAddr top middle last leaf) = top ∧
      pdpe (indexAddr top middle last leaf) = middle ∧ pdx (indexAddr top middle last leaf) = last ∧
      ptx (indexAddr top middle last leaf) = leaf := by
  have low := userPath_top user
  have value : (indexAddr top middle last leaf).toNat = top * 2^39 + middle * 2^30 + last * 2^21 + leaf * 2^12 := by
    rw [indexAddr, BitVec.toNat_ofNat]
    omega
  have bound : top = 0 ∨ (top = 1 ∧ middle = 0 ∧ last < 4) := by
    unfold userPath at user
    split at user
    · simp_all
    · simp_all
    · cases user
  refine ⟨?_, ?_, ?_, ?_, ?_⟩
  · rw [BitVec.lt_def, utop_toNat, value]
    omega
  · rw [pml4_eq, value]
    omega
  · rw [pdpe_eq, value]
    omega
  · rw [pdx_eq, value]
    omega
  · rw [ptx_eq, value]
    omega

theorem Tables.space_of_path (tables : Tables m g) {table root top : Nat} {path : List Nat}
    (role : g.role table = .table root (top :: path)) : g.space m.bootPml4e root top = root := by
  have owned : g.Owned root [] top := by
    induction path using List.reverseRecOn generalizing table with
    | nil =>
      obtain ⟨_, -, owned, -⟩ := tables.up table root [] top role
      exact owned
    | append_singleton path last ih =>
      obtain ⟨_, above, -, -⟩ := tables.up table root (top :: path) last role
      exact ih above
  rw [Layout.space, if_neg]
  rintro ⟨one, shares⟩
  rw [(owned.2 rfl).2 one] at shares
  cases shares

/-- Every mapping is the leaf entry for an address in the space whose table it lies in. -/
theorem Consistent.leafSlot_of_map (valid : Consistent m g) {slot : Slot} (member : slot ∈ mapSlots m g page) :
    ∃ root path va, g.role slot.1 = .table root path ∧ va < utop ∧ m.leafSlot root va = some slot ∧
      m.child slot.1 slot.2 = some page := by
  obtain ⟨inArea, target⟩ := Finset.mem_filter.mp member
  obtain ⟨root, path, role, user, found⟩ := leafTarget_eq_some target
  obtain ⟨top, middle, last, rfl⟩ := List.length_eq_three.mp (userPath_length user)
  obtain ⟨below, topIndex, middleIndex, lastIndex, leafIndex⟩ := indexAddr_spec user
    (valid.tables.index_lt [top] role) (valid.tables.index_lt [top, middle] role)
    (mem_area.mp inArea).2
  refine ⟨root, _, _, role, below, ?_, Memory.child_eq_some.mpr found⟩
  rw [valid.leafSlot_iff (valid.tables.root_role role) (pml4_of_user below), topIndex, middleIndex, lastIndex,
    leafIndex, valid.tables.space_of_path role]
  exact ⟨rfl, role⟩

end Roots

end Jos
