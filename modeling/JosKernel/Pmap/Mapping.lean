import JosKernel.Pmap.Walk

namespace Jos

variable {m : Memory} {g : Layout}

-- Addresses of the user half

theorem pml4_of_user {va : Word} (below : va < utop) : pml4 va < 2 := by
  rw [BitVec.lt_def, utop_toNat] at below
  rw [pml4_eq]
  omega

theorem userPath_of_user {va : Word} (below : va < utop) :
    userPath [pml4 va, pdpe va, pdx va] = true := by
  rw [BitVec.lt_def, utop_toNat] at below
  have top : pml4 va = 0 ∨ (pml4 va = 1 ∧ pdpe va = 0 ∧ pdx va < 4) := by
    rw [pml4_eq, pdpe_eq, pdx_eq]
    omega
  rcases top with zero | ⟨one, zero, small⟩
  · rw [zero]
    rfl
  · rw [one, zero]
    simpa [userPath] using small

-- Looking up

/-- What `page_lookup` finds: the page mapped at `va`, if the walk for `va` is let through. -/
def Memory.lookup (m : Memory) (root : Nat) (va : Word) : Option (Nat × Slot) :=
  if m.visible root va then
    (m.leafSlot root va).bind fun slot =>
      if Present (m.read slot) then some (entryPage (m.read slot), slot) else none
  else none

theorem Memory.lookup_eq_some {root page : Nat} {va : Word} {slot : Slot} :
    m.lookup root va = some (page, slot) ↔ m.visible root va = true ∧
      m.leafSlot root va = some slot ∧ Present (m.read slot) ∧ entryPage (m.read slot) = page := by
  unfold Memory.lookup
  split
  · rename_i visible
    simp only [visible, true_and, Option.bind_eq_some_iff]
    constructor
    · rintro ⟨found, here, result⟩
      split at result
      · rename_i present
        cases result
        exact ⟨here, present, rfl⟩
      · cases result
    · rintro ⟨here, present, rfl⟩
      exact ⟨slot, here, by rw [if_pos present]⟩
  · rename_i hidden
    simp [hidden]

theorem Consistent.leafSlot_user (valid : Consistent m g) {root : Nat} {va : Word} {slot : Slot}
    (role : g.role root = .table root []) (below : va < utop) (found : m.leafSlot root va = some slot) :
    slot.2 < 512 ∧ (∃ path, g.role slot.1 = .table (g.space m.bootPml4e root (pml4 va)) path ∧
      userPath path = true) ∧ (Present (m.read slot) → g.role (entryPage (m.read slot)) = .data) := by
  obtain ⟨index, table⟩ := (valid.leafSlot_iff role (pml4_of_user below) slot).mp found
  have small : slot.2 < 512 := by rw [index]; exact ptx_lt va
  exact ⟨small, ⟨_, table, userPath_of_user below⟩, fun present =>
    valid.refs.leaf _ _ _ slot.2 table (userPath_of_user below) small present⟩

theorem Consistent.pageLookup (valid : Consistent m g) {root : Nat} {va : Word}
    (role : g.role root = .table root []) (below : va < utop) :
    m.pageLookup root va = .ok (m.lookup root va, m) := by
  rw [Memory.pageLookup, valid.pml4eWalk_find role (pml4_of_user below), Memory.lookup]
  simp only [bind, Except.bind]
  cases m.visible root va with
  | false => rfl
  | true =>
    simp only [if_true]
    cases found : m.leafSlot root va with
    | none => rfl
    | some slot =>
      simp only [Option.bind_some]
      split
      · rename_i present
        have data := (valid.leafSlot_user role below found).2.2 present
        have bound := (valid.refs.counted _ data).1
        rw [Memory.pa2page, if_neg (by rw [entryPage] at bound; omega)]
        rfl
      · rfl

-- Giving up a reference

def Memory.release (m : Memory) (page : Nat) : Memory :=
  if m.ppRef page = 1 then ((m.setRef page 0).setLink page m.pageFreeList).setFreeList (some page)
  else m.setRef page (m.ppRef page - 1)

def Layout.release (g : Layout) (m : Memory) (page : Nat) : Layout :=
  if m.ppRef page = 1 then g.setRole page .free else g

theorem sub_one_eq_zero (count : BitVec 16) : count - 1 = 0 ↔ count = 1 := by
  rw [← BitVec.toNat_inj, ← BitVec.toNat_inj, BitVec.toNat_sub]
  have := count.isLt
  change (2^16 - 1 + count.toNat) % 2^16 = 0 ↔ count.toNat = 1
  omega

theorem Memory.pageDecref_release {page : Nat} (unlinked : m.ppLink page = none) :
    m.pageDecref (some page) = .ok (m.release page) := by
  have count : (m.setRef page (m.ppRef page - 1)).ppRef page = m.ppRef page - 1 := if_pos rfl
  rw [Memory.pageDecref, Memory.release]
  simp only [count, sub_one_eq_zero]
  split
  · rename_i one
    have zero : m.ppRef page - 1 = 0 := (sub_one_eq_zero _).mpr one
    rw [Memory.pageFree, zero, if_neg]
    · rfl
    · simp [unlinked]
  · rfl

theorem Memory.release_write (m : Memory) (page : Nat) (slot : Slot) (value : Word) :
    (m.release page).write slot value = (m.write slot value).release page := by
  unfold Memory.release
  rw [Memory.write_ppRef]
  split <;> rfl

@[simp] theorem Memory.release_word (m : Memory) (page : Nat) : (m.release page).word = m.word := by
  unfold Memory.release
  split <;> rfl

@[simp] theorem Memory.release_npages (m : Memory) (page : Nat) : (m.release page).npages = m.npages := by
  unfold Memory.release
  split <;> rfl

@[simp] theorem Memory.release_bootPml4e (m : Memory) (page : Nat) :
    (m.release page).bootPml4e = m.bootPml4e := by
  unfold Memory.release
  split <;> rfl

theorem Memory.release_ppRef (m : Memory) (page other : Nat) :
    (m.release page).ppRef other = if other = page then m.ppRef page - 1 else m.ppRef other := by
  unfold Memory.release
  split
  · rename_i one
    simp [one]
  · rfl

@[simp] theorem Layout.release_shares (g : Layout) (m : Memory) (page : Nat) :
    (g.release m page).shares = g.shares := by
  unfold Layout.release
  split <;> rfl

@[simp] theorem Layout.release_extra (g : Layout) (m : Memory) (page : Nat) :
    (g.release m page).extra = g.extra := by
  unfold Layout.release
  split <;> rfl

theorem Layout.release_role_of_ne (g : Layout) (m : Memory) {page other : Nat} (different : other ≠ page) :
    (g.release m page).role other = g.role other := by
  unfold Layout.release
  split
  · rw [Layout.setRole_role, if_neg different]
  · rfl

theorem Consistent.release (valid : Consistent m g) {page extra : Nat} (data : g.role page = .data)
    (spare : g.extra page = extra + 1) :
    Consistent (m.release page) ((g.setExtra page extra).release m page) := by
  have counted := (valid.refs.counted page data).2
  have lower : (m.ppRef page - 1).toNat = mappings m g page + extra := by
    have bound := (m.ppRef page).isLt
    rw [BitVec.toNat_sub]
    change (2^16 - 1 + (m.ppRef page).toNat) % 2^16 = _
    omega
  have fewer := valid.setRef data lower
  unfold Memory.release Layout.release
  split
  · rename_i one
    have zero : m.ppRef page - 1 = 0 := (sub_one_eq_zero _).mpr one
    rw [zero] at fewer
    exact fewer.putPage data (if_pos rfl)
  · exact fewer

theorem setExtra_setExtra (g : Layout) (page first second : Nat) :
    (g.setExtra page first).setExtra page second = g.setExtra page second := by
  unfold Layout.setExtra
  congr 1
  funext other
  split
  · rfl
  · rename_i different
    simp [different]

theorem setExtra_self (g : Layout) (page : Nat) : g.setExtra page (g.extra page) = g := by
  unfold Layout.setExtra
  congr 1
  funext other
  split
  · rename_i here
    rw [here]
  · rfl

theorem Consistent.unmap (valid : Consistent m g) {root : Nat} {path : List Nat} {slot : Slot}
    (role : g.role slot.1 = .table root path) (user : userPath path = true) (small : slot.2 < 512)
    (present : Present (m.read slot)) :
    m.pageDecref (some (entryPage (m.read slot))) = .ok (m.release (entryPage (m.read slot))) ∧
      Consistent ((m.release (entryPage (m.read slot))).write slot 0)
        (g.release m (entryPage (m.read slot))) := by
  have data : g.role (entryPage (m.read slot)) = .data :=
    valid.refs.leaf slot.1 root path slot.2 role user small present
  have cleared : Consistent (m.write slot 0)
      (g.setExtra (entryPage (m.read slot)) (g.extra (entryPage (m.read slot)) + 1)) :=
    (valid.clearLeaf role user small present).2
  refine ⟨Memory.pageDecref_release (valid.freeList.unlinked _ (by simp [data])), ?_⟩
  rw [Memory.release_write]
  have spare : (g.setExtra (entryPage (m.read slot)) (g.extra (entryPage (m.read slot)) + 1)).extra
      (entryPage (m.read slot)) = g.extra (entryPage (m.read slot)) + 1 := if_pos rfl
  have released := cleared.release data spare
  rwa [setExtra_setExtra, setExtra_self] at released

theorem Consistent.map (valid : Consistent m g) {root page : Nat} {path : List Nat} {slot : Slot}
    {value : Word} (role : g.role slot.1 = .table root path) (user : userPath path = true)
    (small : slot.2 < 512) (vacant : ¬ Present (m.read slot)) (present : Present value)
    (target : entryPage value = page) (data : g.role page = .data) (room : m.ppRef page ≠ 65535) :
    Consistent ((m.write slot value).setRef page (m.ppRef page + 1)) g := by
  have counted := (valid.refs.counted page data).2
  have higher : (m.ppRef page + 1).toNat = mappings m g page + (g.extra page + 1) := by
    have bound := (m.ppRef page).isLt
    have below : (m.ppRef page).toNat ≠ 65535 := fun full => room (BitVec.eq_of_toNat_eq full)
    rw [BitVec.toNat_add]
    change ((m.ppRef page).toNat + 1) % 2^16 = _
    omega
  have more := valid.setRef data higher
  subst target
  have spare : (g.setExtra (entryPage value) (g.extra (entryPage value) + 1)).extra (entryPage value) =
      g.extra (entryPage value) + 1 := if_pos rfl
  have set := more.setLeaf role user small vacant present data spare
  rwa [setExtra_setExtra, setExtra_self] at set

-- Where an address is mapped

def Layout.place (g : Layout) (boot root : Nat) (va : Word) : Nat × Nat :=
  (g.space boot root (pml4 va), va.toNat / 4096)

theorem lt_of_pml4 {va : Word} (below : va < utop) : va.toNat < 2^48 := by
  rw [BitVec.lt_def, utop_toNat] at below
  omega

theorem Consistent.leafSlot_place (valid : Consistent m g) {root root' : Nat} {va va' : Word}
    {slot slot' : Slot} (role : g.role root = .table root []) (role' : g.role root' = .table root' [])
    (below : va < utop) (below' : va' < utop) (found : m.leafSlot root va = some slot)
    (found' : m.leafSlot root' va' = some slot') :
    slot = slot' ↔ g.place m.bootPml4e root va = g.place m.bootPml4e root' va' := by
  obtain ⟨index, table⟩ := (valid.leafSlot_iff role (pml4_of_user below) slot).mp found
  obtain ⟨index', table'⟩ := (valid.leafSlot_iff role' (pml4_of_user below') slot').mp found'
  constructor
  · rintro rfl
    rw [table] at table'
    simp only [Role.table.injEq, List.cons.injEq, and_true] at table'
    obtain ⟨space, top, middle, last⟩ := table'
    exact Prod.ext space (page_of_indices (lt_of_pml4 below) (lt_of_pml4 below') top middle last
      (index.symm.trans index'))
  · intro same
    have space : g.space m.bootPml4e root (pml4 va) = g.space m.bootPml4e root' (pml4 va') :=
      congrArg Prod.fst same
    have page : va.toNat / 4096 = va'.toNat / 4096 := congrArg Prod.snd same
    obtain ⟨top, middle, last, leaf⟩ := indices_of_page page
    rw [space, top, middle, last] at table
    have same := valid.tables.role_injective valid.small table table'
    exact Prod.ext same (by rw [index, index', leaf])

/-- A memory operation that leaves the tables in place and the contents of other pages alone, and sets
    the entries at one place. -/
structure Sets (m : Memory) (g : Layout) (root : Nat) (va value : Word) (m' : Memory) (g' : Layout) :
    Prop where
  npages : m'.npages = m.npages
  bootPml4e : m'.bootPml4e = m.bootPml4e
  shares : g'.shares = g.shares
  table : ∀ page root path, g.role page = .table root path → g'.role page = .table root path
  roots : ∀ root, g'.role root = .table root [] → g.role root = .table root []
  content : ∀ page i, g.Still page → m'.word page i = m.word page i
  keeps : g.Keeps g'
  entry : ∀ root' va', g.role root' = .table root' [] → va' < utop → m'.entry root' va' =
    if g.place m.bootPml4e root' va' = g.place m.bootPml4e root va then value else m.entry root' va'

theorem Memory.entry_of_leafSlot {root : Nat} {va : Word} {slot : Slot}
    (found : m.leafSlot root va = some slot) : m.entry root va = m.read slot := by
  rw [Memory.entry, found]

theorem Consistent.sets_of_write {m' : Memory} {g' : Layout} (valid : Consistent m g)
    (valid' : Consistent m' g') {root : Nat} {va value : Word} {slot : Slot}
    (role : g.role root = .table root []) (below : va < utop) (found : m.leafSlot root va = some slot)
    (npages : m'.npages = m.npages) (bootPml4e : m'.bootPml4e = m.bootPml4e)
    (shares : g'.shares = g.shares)
    (table : ∀ page root path, g'.role page = .table root path ↔ g.role page = .table root path)
    (keeps : g.Keeps g') (word : m'.word = (m.write slot value).word) : Sets m g root va value m' g' where
  npages := npages
  keeps := keeps
  bootPml4e := bootPml4e
  shares := shares
  table := fun page root path => (table page root path).mpr
  roots := fun root => (table root root []).mp
  content := by
    intro page i still
    obtain ⟨-, ⟨path, tableRole, -⟩, -⟩ := valid.leafSlot_user role below found
    rw [word, Memory.write_word, if_neg]
    rintro ⟨rfl, -⟩
    exact still.not_table tableRole
  entry := by
    intro root' va' role' below'
    have space : g'.space m'.bootPml4e root' (pml4 va') = g.space m.bootPml4e root' (pml4 va') := by
      rw [Layout.space, Layout.space, shares, bootPml4e]
    have slots : ∀ other, m'.leafSlot root' va' = some other ↔ m.leafSlot root' va' = some other := by
      intro other
      rw [valid'.leafSlot_iff ((table _ _ _).mpr role') (pml4_of_user below'), space, table,
        valid.leafSlot_iff role' (pml4_of_user below')]
    cases before : m.leafSlot root' va' with
    | some other =>
      have same := valid.leafSlot_place role' role below' below before found
      rw [Memory.entry_of_leafSlot ((slots other).mpr before), Memory.entry_of_leafSlot before,
        Memory.read, word, Memory.write_word]
      by_cases here : other = slot
      · rw [if_pos (same.mp here), if_pos ⟨congrArg Prod.fst here, congrArg Prod.snd here⟩]
      · rw [if_neg (mt same.mpr here), if_neg fun both => here (Prod.ext both.1 both.2)]
        rfl
    | none =>
      have after : m'.leafSlot root' va' = none := by
        by_contra found'
        obtain ⟨other, found'⟩ := Option.ne_none_iff_exists'.mp found'
        rw [(slots other).mp found'] at before
        cases before
      rw [Memory.entry, Memory.entry, before, after, if_neg]
      intro here
      have there := (valid.leafSlot_iff role (pml4_of_user below) slot).mp found
      have space' : g.space m.bootPml4e root' (pml4 va') = g.space m.bootPml4e root (pml4 va) :=
        congrArg Prod.fst here
      have page : va'.toNat / 4096 = va.toNat / 4096 := congrArg Prod.snd here
      obtain ⟨top, middle, last, leaf⟩ := indices_of_page page
      have found' := (valid.leafSlot_iff role' (pml4_of_user below') slot).mpr
        ⟨there.1.trans leaf.symm, by rw [there.2, space', top, middle, last]⟩
      rw [found'] at before
      cases before

theorem Sets.after {m₁ m' : Memory} {g₁ g' : Layout} {root : Nat} {va value : Word}
    (sets : Sets m₁ g₁ root va value m' g') (grows : Grows m g m₁ g₁) (valid : Consistent m g)
    (valid₁ : Consistent m₁ g₁) : Sets m g root va value m' g' where
  npages := sets.npages.trans grows.npages
  keeps := fun page kept => sets.keeps page (by rw [grows.role page (by simp [kept]), kept])
  bootPml4e := sets.bootPml4e.trans grows.bootPml4e
  shares := sets.shares.trans grows.shares
  table := by
    intro page root' path role
    apply sets.table
    rw [grows.role page (by simp [role]), role]
  roots := fun root role => (grows.root_iff root).mp (sets.roots root role)
  content := by
    intro page i still
    rw [sets.content page i (grows.still still), grows.stillWord still]
  entry := by
    intro root' va' role' below'
    have role₁ : g₁.role root' = .table root' [] := by rw [grows.role root' (by simp [role']), role']
    have place : ∀ r v, g₁.place m₁.bootPml4e r v = g.place m.bootPml4e r v := by
      intro r v
      unfold Layout.place Layout.space
      rw [grows.shares, grows.bootPml4e]
    rw [sets.entry root' va' role₁ below', place, place,
      grows.entry valid valid₁ role' (pml4_of_user below')]

end Jos
