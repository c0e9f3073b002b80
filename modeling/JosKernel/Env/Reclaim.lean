import JosKernel.Env.Loaded
import JosKernel.Env.Evolution

namespace Jos

variable {m m' : Memory} {g g' : Layout} {root page : Nat}

-- What the tables under a PML4 refer to

/-- An entry above the leaves refers to the next table, or to the PML4 itself, or to what entry 1 of
    `boot_pml4e` refers to. -/
theorem Consistent.child_cases (valid : Consistent m g) (role : g.role root = .table root [])
    (notBoot : root ≠ m.bootPml4e) {table index : Nat} {path : List Nat} (here : g.role table = .table root path)
    (higher : path.length < 3) (inside : index < 512) (child : m.child table index = some page) :
    g.role page = .table root (path ++ [index]) ∨ page = root ∨ m.child m.bootPml4e 1 = some page := by
  by_cases owned : g.Owned root path index
  · exact .inl (valid.child_role here higher owned child)
  · have top : path = [] := by
      by_contra nonempty
      exact owned ⟨inside, fun empty => absurd empty nonempty⟩
    subst top
    have same : table = root := valid.tables.role_injective valid.small here role
    rw [same] at child
    by_cases window : index = 2
    · rw [window, valid.child_window role notBoot] at child
      exact .inr (.inl (Option.some.inj child).symm)
    · by_cases shares : index = 1 ∧ g.shares root = true
      · rw [shares.1] at child
        have shared : m.child m.bootPml4e 1 = m.child root 1 := by
          unfold Memory.child
          rw [(valid.tables.shared root shares.2).2.2.2]
        exact .inr (.inr (shared.trans child))
      · refine absurd ⟨inside, fun _ => ⟨window, fun first => ?_⟩⟩ owned
        rw [← Bool.not_eq_true]
        exact fun both => shares ⟨first, both⟩

theorem Consistent.boot_first (valid : Consistent m g) (child : m.child m.bootPml4e 1 = some page) :
    g.role page = .table m.bootPml4e [1] := by
  refine valid.child_role valid.tables.boot (by simp) ⟨by omega, fun _ => ⟨by omega, fun _ => ?_⟩⟩ child
  exact valid.tables.shares_boot

/-- A table that is reached from a PML4 is one of its own, or one of those that it shares. -/
theorem Consistent.role_of_reached (valid : Consistent m g) (role : g.role root = .table root [])
    (notBoot : root ≠ m.bootPml4e) {path : List Nat} {table : Nat} (short : path.length ≤ 3)
    (small : ∀ index ∈ path, index < 512) (found : Radix.descend m.child root path = some table) :
    ∃ own, own.length ≤ path.length ∧
      (g.role table = .table root own ∨ (own ≠ [] ∧ g.role table = .table m.bootPml4e own)) := by
  induction path using List.reverseRecOn generalizing table with
  | nil =>
    cases found
    exact ⟨[], by simp, .inl role⟩
  | append_singleton path index ih =>
    rw [Radix.descend_snoc, Option.bind_eq_some_iff] at found
    obtain ⟨parent, above, child⟩ := found
    rw [List.length_append, List.length_singleton] at short
    obtain ⟨own, bound, here⟩ := ih (by omega) (fun i member => small i (by simp [member])) above
    have inside : index < 512 := small index (by simp)
    rw [List.length_append, List.length_singleton]
    rcases here with own' | ⟨nonempty, shared⟩
    · rcases valid.child_cases role notBoot own' (by omega) inside child with below | rfl | first
      · exact ⟨own ++ [index], by simpa using bound, .inl below⟩
      · exact ⟨[], by simp, .inl role⟩
      · exact ⟨[1], by simp, .inr ⟨by simp, valid.boot_first first⟩⟩
    · refine ⟨own ++ [index], by simpa using bound, .inr ⟨by simp, ?_⟩⟩
      exact valid.child_role shared (by omega) ⟨inside, fun empty => absurd empty nonempty⟩ child

theorem Consistent.tidy_head (valid : Consistent m g) (role : g.role root = .table root [])
    (notBoot : root ≠ m.bootPml4e) (tidy : m.Tidy root) {table i : Nat} {path : List Nat}
    (here : g.role table = .table root (i :: path)) : i = 0 := by
  induction path using List.reverseRecOn generalizing table with
  | nil => exact valid.tidy_top role notBoot tidy here
  | append_singleton path last ih =>
    obtain ⟨parent, above, -, -⟩ := valid.tables.up table root (i :: path) last here
    exact ih above

/-- What a tidy address space refers to: its own tables, the pages that it maps, and what `boot_pml4e`
    refers to as well. -/
theorem Consistent.refers_cases (valid : Consistent m g) (role : g.role root = .table root [])
    (notBoot : root ≠ m.bootPml4e) (tidy : m.Tidy root) (refers : m.RefersTo root page) :
    (∃ path, g.role page = .table root path) ∨
      (∃ slot path, slot ∈ mapSlots m g page ∧ g.role slot.1 = .table root path) ∨ m.RefersTo m.bootPml4e page := by
  obtain ⟨table, index, ⟨path, short, small, found⟩, inside, child⟩ := refers
  obtain ⟨own, bound, here⟩ := valid.role_of_reached role notBoot short small found
  rcases here with own' | ⟨-, shared⟩
  · by_cases higher : own.length < 3
    · rcases valid.child_cases role notBoot own' higher inside child with below | rfl | first
      · exact .inl ⟨_, below⟩
      · exact .inl ⟨[], role⟩
      · exact .inr (.inr ⟨m.bootPml4e, 1, m.reached_root _, by omega, first⟩)
    · obtain ⟨top, middle, last, rfl⟩ := List.length_eq_three.mp (show own.length = 3 by omega)
      have zero : top = 0 := valid.tidy_head role notBoot tidy own'
      have user : userPath [top, middle, last] = true := by rw [zero]; rfl
      refine .inr (.inl ⟨(table, index), _, ?_, own'⟩)
      refine Finset.mem_filter.mpr ⟨mem_area.mpr ⟨(valid.tables.inside _ _ _ own').1, inside⟩, ?_⟩
      rw [leafTarget_of_role own' user]
      exact child
  · exact .inr (.inr ⟨table, index, valid.reached_of_role shared, inside, child⟩)

-- Counting what an address space maps

def ownSlots (m : Memory) (g : Layout) (root page : Nat) : Finset Slot :=
  (mapSlots m g page).filter fun slot => (g.label slot.1).map Prod.fst = some root

theorem mem_ownSlots {slot : Slot} : slot ∈ ownSlots m g root page ↔
    slot ∈ mapSlots m g page ∧ ∃ path, g.role slot.1 = .table root path := by
  rw [ownSlots, Finset.mem_filter, Option.map_eq_some_iff]
  refine and_congr_right fun _ => ?_
  constructor
  · rintro ⟨⟨root', path⟩, label, rfl⟩
    exact ⟨path, Layout.label_eq_some.mp label⟩
  · rintro ⟨path, role⟩
    exact ⟨(root, path), Layout.label_eq_some.mpr role, rfl⟩

/-- The mappings of one address space that maps nothing where tables are shared. -/
theorem Consistent.leafRefs_own (valid : Consistent m g) (role : g.role root = .table root [])
    (bare : ∀ va, va < utop → pml4 va = 1 → ¬ Present (m.entry root va)) :
    m.leafRefs (fun other => other = root) page = ownSlots m g root page := by
  ext slot
  rw [Finset.mem_coe, mem_ownSlots]
  constructor
  · rintro ⟨_, va, rfl, below, found, target⟩
    obtain ⟨small, ⟨path, tableRole, user⟩, -⟩ := valid.leafSlot_user role below found
    have low : pml4 va = 0 := by
      have top := pml4_of_user below
      by_contra high
      refine bare va below (by omega) ?_
      rw [Memory.entry_of_leafSlot found]
      exact (Memory.child_eq_some.mp target).1
    refine ⟨Finset.mem_filter.mpr ⟨mem_area.mpr ⟨(valid.tables.inside _ _ _ tableRole).1, small⟩, ?_⟩, path, ?_⟩
    · rw [leafTarget_of_role tableRole user]
      exact target
    · rwa [low, Layout.space_zero] at tableRole
  · rintro ⟨member, path, here⟩
    obtain ⟨root', path', va, here', below, found, child⟩ := valid.leafSlot_of_map member
    rw [here] at here'
    cases here'
    exact ⟨root, va, rfl, below, found, child⟩

theorem Consistent.leafCount_own (valid : Consistent m g) (role : g.role root = .table root [])
    (bare : ∀ va, va < utop → pml4 va = 1 → ¬ Present (m.entry root va)) (page : Nat) :
    m.leafCount (fun other => other = root) page = (ownSlots m g root page).card := by
  rw [Memory.leafCount, valid.leafRefs_own role bare, Set.ncard_coe_finset]

-- What is left when it is gone

section Gone

variable (teardown : Teardown m g root [] m' g') (gone : ∀ page path, g'.role page ≠ .table root path)

include teardown gone

theorem mem_mapSlots_gone {slot : Slot} :
    slot ∈ mapSlots m' g' page ↔ slot ∈ mapSlots m g page ∧ slot ∉ ownSlots m g root page := by
  have sameArea : area m' = area m := by
    unfold area
    rw [teardown.npages]
  have sameTarget : ∀ {other path}, other ≠ root → g.role slot.1 = .table other path →
      leafTarget m' g' slot = leafTarget m g slot := by
    intro other path different role
    obtain ⟨role', words⟩ := teardown.others _ _ _ different role
    unfold leafTarget
    rw [role, role']
    simp only [Memory.child_congr (words slot.2)]
  rw [mem_ownSlots, mapSlots, mapSlots, Finset.mem_filter, Finset.mem_filter, sameArea]
  constructor
  · rintro ⟨inArea, target⟩
    obtain ⟨other, path, role', -, -⟩ := leafTarget_eq_some target
    have different : other ≠ root := by
      rintro rfl
      exact gone _ _ role'
    have role := teardown.tables _ _ _ role'
    rw [sameTarget different role] at target
    refine ⟨⟨inArea, target⟩, ?_⟩
    rintro ⟨-, path', own⟩
    rw [role] at own
    cases own
    exact different rfl
  · rintro ⟨⟨inArea, target⟩, notOwn⟩
    obtain ⟨other, path, role, -, -⟩ := leafTarget_eq_some target
    have different : other ≠ root := by
      rintro rfl
      exact notOwn ⟨⟨inArea, target⟩, path, role⟩
    rw [sameTarget different role]
    exact ⟨inArea, target⟩

/-- The mappings of a page are those of the address space and those that are left. -/
theorem mappings_gone : mappings m g page = (ownSlots m g root page).card + mappings m' g' page := by
  have split : mapSlots m' g' page = mapSlots m g page \ ownSlots m g root page := by
    ext slot
    rw [mem_mapSlots_gone teardown gone, Finset.mem_sdiff]
  have within : ownSlots m g root page ⊆ mapSlots m g page := Finset.filter_subset _ _
  rw [← card_mapSlots, ← card_mapSlots, split, Finset.card_sdiff_of_subset within]
  have bound := Finset.card_le_card within
  omega

/-- A page has lost as many references as the address space had mappings of it. -/
theorem ppRef_gone (valid : Consistent m g) (accounts : Accounts m g root m' g') (data : g.role page = .data) :
    (m'.ppRef page).toNat + (ownSlots m g root page).card = (m.ppRef page).toNat := by
  have counted := (valid.refs.counted page data).2
  have split : mappings m g page = (ownSlots m g root page).card + mappings m' g' page :=
    mappings_gone teardown gone
  rcases accounts.data page data with ⟨free, zero⟩ | ⟨data', extra, -⟩
  · have unused := (teardown.valid.freeList.unused page free).2
    have unmapped : mappings m' g' page = 0 := teardown.valid.refs.mappings_eq_zero (by simp [free])
    rw [unused]
    change 0 + _ = _
    omega
  · have counted' := (teardown.valid.refs.counted page data').2
    omega

theorem free_gone (valid : Consistent m g) (accounts : Accounts m g root m' g') (data : g.role page = .data)
    (some : (ownSlots m g root page).Nonempty) (all : (m.ppRef page).toNat = (ownSlots m g root page).card) :
    g'.role page = .free := by
  have lost := ppRef_gone teardown gone valid accounts data
  have positive := Finset.card_pos.mpr some
  rcases accounts.data page data with ⟨free, -⟩ | ⟨-, -, alive⟩
  · exact free
  · have zero : m'.ppRef page = 0 := BitVec.eq_of_toNat_eq (by change _ = 0; omega)
    refine absurd zero (alive fun none => ?_)
    rw [none] at all
    change 0 = _ at all
    omega

end Gone

/-- What is to come back when the address space under `root` is taken apart: the pages that only its
    tables refer to, and of each page that it maps as many references as it has mappings. -/
structure Kernel.ReclaimsAll (k k' : Kernel) (root : Nat) : Prop where
  own : ∀ page, k.mem.RefersTo root page → (∀ other, k.Roots other → other ≠ root → ¬ k.mem.RefersTo other page) →
    k'.mem.OnFreeList page
  counts : ∀ page, (k.mem.leafRefs (fun other => other = root) page).Nonempty →
    (k'.mem.ppRef page).toNat + k.mem.leafCount (fun other => other = root) page = (k.mem.ppRef page).toNat

def Kernel.CountsOwn (k : Kernel) (root : Nat) : Prop :=
  ∀ page, (k.mem.leafRefs (fun other => other = root) page).Nonempty →
    (∀ other, k.Roots other → other ≠ root → ¬ k.mem.RefersTo other page) →
    (k.mem.ppRef page).toNat = k.mem.leafCount (fun other => other = root) page

theorem Spaces.countsOwn_of_single {reserved : Nat → Prop} {k : Kernel} (spaces : Spaces reserved k g)
    (role : g.role root = .table root [])
    (single : ∀ page slot, slot ∈ k.mem.leafRefs (fun other => other = root) page → (k.mem.ppRef page).toNat ≤ 1) :
    k.CountsOwn root := by
  intro page some alone
  have valid := spaces.memory
  have known : ∀ other, other = root → g.role other = .table other [] := by
    rintro other rfl
    exact role
  obtain ⟨slot, member⟩ := some
  have few := single page slot member
  have bound := valid.leafCount_le known page
  have finite : (k.mem.leafRefs (fun other => other = root) page).Finite :=
    (Finset.finite_toSet _).subset (valid.leafRefs_subset known)
  have positive : 0 < k.mem.leafCount (fun other => other = root) page :=
    (Set.ncard_pos finite).mpr ⟨slot, member⟩
  obtain ⟨_, va, rfl, below, found, child⟩ := member
  obtain ⟨present, target⟩ := Memory.child_eq_some.mp child
  have data : g.role page = .data := by
    rw [← target]
    exact (valid.leafSlot_user role below found).2.2 present
  have counted := (valid.refs.counted page data).2
  omega

theorem Spaces.envFree_reclaims {reserved : Nat → Prop} {k k' : Kernel} (spaces : Spaces reserved k g)
    {cur : Option Nat} {e : Nat} (inUse : k.InUse e) (pml4e : (k.envs e).envPml4e = some root)
    (present : Present (k.mem.word root 0)) (tidy : k.mem.Tidy root) (exact : k.CountsOwn root)
    (freed : k.envFree cur e = .ok k') : k.ReclaimsAll k' root := by
  have valid := spaces.memory
  have role := spaces.role inUse pml4e
  have notBoot := spaces.notBoot inUse pml4e
  have rooted : ∀ other, (k.envs e).envPml4e = some other → Present (k.mem.word other 0) := by
    intro other pml4e'
    rw [pml4e] at pml4e'
    cases pml4e'
    exact present
  obtain ⟨⟨root', g', pml4e', spaces', teardown, gone⟩, -, -⟩ := spaces.envFree inUse rooted freed
  rw [pml4e] at pml4e'
  cases pml4e'
  have accounts := teardown.accounts tidy
  have bare : ∀ va, va < utop → pml4 va = 1 → ¬ Present (k.mem.entry root va) :=
    fun va below high => spaces.bare root va role below high
  have refs : ∀ page, k.mem.leafRefs (fun other => other = root) page = ownSlots k.mem g root page :=
    fun page => valid.leafRefs_own role bare
  have data : ∀ page slot, slot ∈ mapSlots k.mem g page → g.role page = .data := by
    intro page slot member
    obtain ⟨other, path, va, tableRole, below, found, child⟩ := valid.leafSlot_of_map member
    obtain ⟨present', target⟩ := Memory.child_eq_some.mp child
    rw [← target]
    exact (valid.leafSlot_user (valid.tables.root_role tableRole) below found).2.2 present'
  refine ⟨?_, ?_⟩
  · intro page refers alone
    rw [spaces'.memory.onFreeList_iff]
    rcases valid.refers_cases role notBoot tidy refers with ⟨path, table⟩ | ⟨slot, path, member, table⟩ | boot
    · exact (accounts.table page path table).resolve_left (gone page path)
    · have own : slot ∈ ownSlots k.mem g root page := mem_ownSlots.mpr ⟨member, path, table⟩
      refine free_gone teardown gone valid accounts (data page slot member) ⟨slot, own⟩ ?_
      rw [exact page (by rw [refs]; exact ⟨slot, own⟩) alone, valid.leafCount_own role bare]
    · exact absurd boot (alone _ (.inl rfl) (Ne.symm notBoot))
  · intro page some
    rw [refs] at some
    obtain ⟨slot, own⟩ := some
    rw [valid.leafCount_own role bare]
    exact ppRef_gone teardown gone valid accounts (data page slot (mem_ownSlots.mp own).1)

end Jos
