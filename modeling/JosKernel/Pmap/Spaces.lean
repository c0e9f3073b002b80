import JosKernel.Pmap.Operations

namespace Jos

variable {m : Memory} {g : Layout}

namespace Memory

/-- One page of `boot_map_region`, which does not look whether the walk succeeded. -/
def bootMapPage (m : Memory) (la pa : Word) (perm : BitVec 32) : Except Stop Memory := do
  let (slot, m) ← m.pml4eWalk m.bootPml4e la true
  match slot with
  | none => .error .nullDeref
  | some slot => .ok (m.write slot (pa ||| perm.signExtend 64 ||| pteP))

def bootMapRegion (m : Memory) (la : Word) (pages : Nat) (pa : Word) (perm : BitVec 32) :
    Except Stop Memory :=
  match pages with
  | 0 => .ok m
  | pages + 1 => do
    let m ← m.bootMapPage la pa perm
    m.bootMapRegion (la + BitVec.ofNat 64 pgSize) pages (pa + BitVec.ofNat 64 pgSize) perm

/-- What `env_setup_vm` does to memory. The page it gives is the new PML4. -/
def envSetupVm (m : Memory) : Except Stop (Option Nat × Memory) := do
  let (p, m) ← m.pageAlloc true
  match p with
  | none => .ok (none, m)
  | some p =>
    let m := m.setRef p (m.ppRef p + 1)
    let m := m.write (p, 1) (m.word m.bootPml4e 1)
    .ok (some p, m.write (p, pml4 uvpt) (page2pa p ||| pteP ||| pteU))

end Memory

-- Mappings at and above UTOP

theorem static_path {la : Word} (above : utop ≤ la) (low : la < uvpt) :
    pml4 la = 1 ∧ userPath [pml4 la, pdpe la, pdx la] = false := by
  rw [BitVec.le_def, utop_toNat] at above
  rw [BitVec.lt_def, show uvpt.toNat = 0x10000000000 from rfl] at low
  have top : pml4 la = 1 := by rw [pml4_eq]; omega
  have high : pdpe la ≠ 0 ∨ 4 ≤ pdx la := by
    rw [pdpe_eq, pdx_eq]
    omega
  refine ⟨top, ?_⟩
  rw [top]
  unfold userPath
  split
  · rename_i same
    simp at same
  · rename_i c same
    simp only [List.cons.injEq, and_true, true_and] at same
    rw [← same.2]
    simp only [decide_eq_false_iff_not]
    omega
  · rfl

/-- What is written into a table for addresses at and above UTOP shows nowhere below. -/
theorem Consistent.entry_writeStatic (valid : Consistent m g) {table index root : Nat} {path : List Nat}
    {value : Word} (role : g.role table = .table root path) (lowest : path.length = 3)
    (static : userPath path = false) (small : index < 512) {other : Nat} {va : Word}
    (otherRole : g.role other = .table other []) (below : va < utop) :
    (m.write (table, index) value).entry other va = m.entry other va := by
  have valid' : Consistent (m.write (table, index) value) g := valid.writeStatic role lowest static small
  have low := pml4_of_user below
  have slots : (m.write (table, index) value).leafSlot other va = m.leafSlot other va := by
    apply Option.ext
    intro slot
    rw [valid'.leafSlot_iff otherRole low, valid.leafSlot_iff otherRole low]
    rfl
  rw [Memory.entry, Memory.entry, slots]
  cases found : m.leafSlot other va with
  | none => rfl
  | some slot =>
    have tableRole := ((valid.leafSlot_iff otherRole low slot).mp found).2
    have user := userPath_of_user below
    simp only [Memory.read, Memory.write_word]
    rw [if_neg]
    rintro ⟨here, -⟩
    rw [here, role] at tableRole
    cases tableRole
    rw [static] at user
    cases user

theorem Consistent.bootMapPage (valid : Consistent m g) {la pa : Word} {perm : BitVec 32} {m' : Memory}
    (above : utop ≤ la) (low : la < uvpt) (mapped : m.bootMapPage la pa perm = .ok m') :
    ∃ g', Consistent m' g' ∧ m'.bootPml4e = m.bootPml4e ∧ g.Keeps g' ∧
      (∀ root, g'.role root = .table root [] ↔ g.role root = .table root []) ∧
      (∀ root va, g.role root = .table root [] → va < utop → m'.entry root va = m.entry root va) ∧
      ∀ page i, g.Still page → m'.word page i = m.word page i := by
  obtain ⟨top, static⟩ := static_path above low
  have inHalf : pml4 la < 2 := by omega
  obtain ⟨result, m₁, g₁, walk, walked⟩ := valid.pml4eWalk valid.tables.boot inHalf
  rw [Memory.bootMapPage, walk] at mapped
  cases result with
  | none => cases mapped
  | some slot =>
    cases mapped
    obtain ⟨index, role⟩ := walked.slot slot rfl
    have small : slot.2 < 512 := by rw [index]; exact ptx_lt la
    refine ⟨g₁, walked.valid.writeStatic role (by simp) static small, walked.grows.bootPml4e,
      fun page kept => by rw [walked.grows.role page (by simp [kept]), kept], walked.grows.root_iff, ?_, ?_⟩
    · intro root va rootRole below
      rw [walked.valid.entry_writeStatic role (by simp) static small
        ((walked.grows.root_iff root).mpr rootRole) below]
      exact walked.grows.entry valid walked.valid rootRole (pml4_of_user below)
    · intro page i still
      rw [Memory.write_word, if_neg, walked.grows.stillWord still]
      rintro ⟨rfl, -⟩
      exact (walked.grows.still still).not_table role

-- New address spaces

theorem Tables.root_role (tables : Tables m g) {page root : Nat} {path : List Nat}
    (role : g.role page = .table root path) : g.role root = .table root [] := by
  induction path using List.reverseRecOn generalizing page with
  | nil =>
    have here := tables.top page root role
    rwa [here] at role
  | append_singleton path index ih =>
    obtain ⟨parent, above, -, -⟩ := tables.up page root path index role
    exact ih above

def Memory.newRoot (m : Memory) (page : Nat) : Memory :=
  ((m.setRef page 1).write (page, 1) (m.word m.bootPml4e 1)).write (page, 2)
    (page2pa page ||| pteP ||| pteU)

def Layout.newRoot (g : Layout) (m : Memory) (page : Nat) : Layout :=
  { (g.setRole page (.table page [])) with
    shares := fun other => if other = page then decide (Present (m.word m.bootPml4e 1)) else g.shares other }

section NewRoot

variable {page : Nat}

theorem newRoot_word_of_ne {other i : Nat} (different : other ≠ page) :
    (m.newRoot page).word other i = m.word other i := by
  rw [Memory.newRoot, Memory.write_word, if_neg (by rintro ⟨here, -⟩; exact different here),
    Memory.write_word, if_neg (by rintro ⟨here, -⟩; exact different here), Memory.setRef_word]

theorem newRoot_role_of_ne {other : Nat} (different : other ≠ page) :
    (g.newRoot m page).role other = g.role other := by
  rw [Layout.newRoot]
  simp [different]

theorem newRoot_role_here : (g.newRoot m page).role page = .table page [] := by
  rw [Layout.newRoot]
  simp

theorem newRoot_shares {other : Nat} : (g.newRoot m page).shares other =
    if other = page then decide (Present (m.word m.bootPml4e 1)) else g.shares other := rfl

theorem newRoot_ppRef {other : Nat} : (m.newRoot page).ppRef other =
    if other = page then 1 else m.ppRef other := rfl

theorem newRoot_role_cases {other root : Nat} {path : List Nat}
    (role : (g.newRoot m page).role other = .table root path) :
    (other = page ∧ root = page ∧ path = []) ∨ (other ≠ page ∧ g.role other = .table root path) := by
  by_cases here : other = page
  · rw [here, newRoot_role_here] at role
    cases role
    exact .inl ⟨here, rfl, rfl⟩
  · rw [newRoot_role_of_ne here] at role
    exact .inr ⟨here, role⟩

variable (data : g.role page = .data)

include data

theorem table_ne_data {other root : Nat} {path : List Nat} (role : g.role other = .table root path) :
    other ≠ page := by
  rintro rfl
  rw [data] at role
  cases role

theorem newRoot_tables (valid : Consistent m g) (empty : ∀ i, m.word page i = 0) :
    Tables (m.newRoot page) (g.newRoot m page) where
  inside := by
    intro other root path role
    rcases newRoot_role_cases role with ⟨rfl, rfl, rfl⟩ | ⟨-, role⟩
    · exact ⟨(valid.refs.counted _ data).1, by simp⟩
    · exact valid.tables.inside other root path role
  top := by
    intro other root role
    rcases newRoot_role_cases role with ⟨rfl, rfl, -⟩ | ⟨-, role⟩
    · rfl
    · exact valid.tables.top other root role
  down := by
    intro other root path index role short owned present
    rcases newRoot_role_cases role with ⟨rfl, rfl, rfl⟩ | ⟨different, role⟩
    · obtain ⟨-, notWindow, notShared⟩ := owned.1, owned.2 rfl
      rw [newRoot_shares, if_pos rfl] at notShared
      rw [Memory.newRoot, Memory.write_word, if_neg (by simp [notWindow]), Memory.write_word] at present
      split at present
      · rename_i one
        have absent := notShared one.2
        rw [decide_eq_false_iff_not] at absent
        exact absurd present absent
      · rw [Memory.setRef_word, empty] at present
        exact absurd present (by decide)
    · have rootRole := valid.tables.root_role role
      rw [Layout.Owned, newRoot_shares, if_neg (table_ne_data data rootRole)] at owned
      rw [newRoot_word_of_ne different] at present ⊢
      obtain ⟨next, entry, below⟩ := valid.tables.down other root path index role short owned present
      exact ⟨next, entry, by rwa [newRoot_role_of_ne (table_ne_data data below)]⟩
  up := by
    intro other root path index role
    rcases newRoot_role_cases role with ⟨-, -, nonempty⟩ | ⟨-, role⟩
    · simp at nonempty
    · obtain ⟨parent, above, owned, entry⟩ := valid.tables.up other root path index role
      have rootRole := valid.tables.root_role role
      refine ⟨parent, by rwa [newRoot_role_of_ne (table_ne_data data above)], ?_, ?_⟩
      · rwa [Layout.Owned, newRoot_shares, if_neg (table_ne_data data rootRole)]
      · rwa [newRoot_word_of_ne (table_ne_data data above)]
  shared := by
    intro root sharing
    have bootDifferent := table_ne_data data valid.tables.boot
    rw [newRoot_shares] at sharing
    rw [show (m.newRoot page).bootPml4e = m.bootPml4e from rfl, newRoot_word_of_ne bootDifferent]
    split at sharing
    · rename_i here
      rw [here]
      refine ⟨newRoot_role_here, Ne.symm bootDifferent, by simpa using sharing, ?_⟩
      rw [Memory.newRoot, Memory.write_word, if_neg (by simp), Memory.write_word, if_pos ⟨rfl, rfl⟩]
    · rename_i different
      rw [newRoot_word_of_ne different, newRoot_role_of_ne different]
      exact valid.tables.shared root sharing
  window := by
    intro root role
    rcases newRoot_role_cases role with ⟨rfl, -, -⟩ | ⟨different, role⟩
    · rw [Memory.newRoot, Memory.write_word, if_pos ⟨rfl, rfl⟩, Memory.windowEntry, if_neg]
      exact Ne.symm (table_ne_data data valid.tables.boot)
    · rw [newRoot_word_of_ne different]
      exact valid.tables.window root role
  boot := by
    rw [show (m.newRoot page).bootPml4e = m.bootPml4e from rfl,
      newRoot_role_of_ne (table_ne_data data valid.tables.boot)]
    exact valid.tables.boot

theorem newRoot_leafTarget (slot : Slot) :
    leafTarget (m.newRoot page) (g.newRoot m page) slot = leafTarget m g slot := by
  by_cases here : slot.1 = page
  · unfold leafTarget
    rw [here, newRoot_role_here, data]
    simp [userPath]
  · refine leafTarget_congr (fun _ _ _ => newRoot_word_of_ne here) ?_
    intro root path
    rw [newRoot_role_of_ne here]

theorem newRoot_consistent (valid : Consistent m g) (empty : ∀ i, m.word page i = 0)
    (unmapped : mappings m g page = 0) : Consistent (m.newRoot page) (g.newRoot m page) where
  small := valid.small
  freeList := by
    refine valid.freeList.congr rfl rfl rfl ?_ ?_
    · intro other free
      rw [newRoot_ppRef, if_neg]
      rintro rfl
      rw [data] at free
      cases free
    · intro other
      by_cases here : other = page
      · rw [here, newRoot_role_here, data]
        simp
      · rw [newRoot_role_of_ne here]
  tables := newRoot_tables data valid empty
  refs := {
    leaf := by
      intro table root path index role user small present
      rcases newRoot_role_cases role with ⟨-, -, rfl⟩ | ⟨different, role⟩
      · cases user
      · rw [newRoot_word_of_ne different] at present ⊢
        have target := valid.refs.leaf table root path index role user small present
        rw [newRoot_role_of_ne, target]
        intro here
        rw [mappings, Counting.count_eq_zero] at unmapped
        refine unmapped (table, index) (mem_area.mpr ⟨(valid.tables.inside _ _ _ role).1, small⟩) ?_
        rw [leafTarget_of_role role user]
        exact Memory.child_eq_some.mpr ⟨present, here⟩
    counted := by
      intro other isData
      by_cases here : other = page
      · rw [here, newRoot_role_here] at isData
        cases isData
      · rw [newRoot_role_of_ne here] at isData
        have same : mappings (m.newRoot page) (g.newRoot m page) other = mappings m g other :=
          Counting.count_congr fun slot _ => by rw [newRoot_leafTarget data slot]
        rw [same, newRoot_ppRef, if_neg here]
        exact valid.refs.counted other isData
    table := by
      intro other root path role
      rw [newRoot_ppRef]
      rcases newRoot_role_cases role with ⟨rfl, -, -⟩ | ⟨different, role⟩
      · rw [if_pos rfl]
      · rw [if_neg different]
        exact valid.refs.table other root path role }

end NewRoot

/-- `env_setup_vm` makes a PML4 of a free page, or fails because there is none. -/
theorem Consistent.envSetupVm (valid : Consistent m g) :
    (m.pageFreeList = none ∧ m.envSetupVm = .ok (none, m)) ∨
      ∃ page first g', m.envSetupVm = .ok (some page, first.newRoot page) ∧ Fresh m g page first g' ∧
        Consistent (first.newRoot page) (g'.newRoot first page) := by
  rcases valid.pageAlloc with ⟨empty, alloc⟩ | ⟨page, first, -, alloc, -⟩
  · refine .inl ⟨empty, ?_⟩
    rw [Memory.envSetupVm, alloc]
    rfl
  · obtain ⟨-, g', fresh⟩ := valid.fresh alloc
    have count : first.ppRef page + 1 = 1 := by
      rw [fresh.ppRef valid]
      rfl
    have counted := (fresh.valid.refs.counted page fresh.data).2
    rw [fresh.ppRef valid] at counted
    have unmapped := (Nat.add_eq_zero_iff.mp counted.symm).1
    refine .inr ⟨page, first, g', ?_, fresh, newRoot_consistent fresh.data fresh.valid fresh.zero unmapped⟩
    rw [Memory.envSetupVm, alloc]
    simp only [bind, Except.bind, count]
    rfl

end Jos
