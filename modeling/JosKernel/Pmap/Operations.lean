import JosKernel.Pmap.Mapping

namespace Jos

variable {m : Memory} {g : Layout}

theorem Layout.release_role_iff {page : Nat} (data : g.role page = .data)
    (other root : Nat) (path : List Nat) :
    (g.release m page).role other = .table root path ↔ g.role other = .table root path := by
  unfold Layout.release
  split
  · exact setRole_table_iff (by simp [data]) (by simp) other root path
  · rfl

theorem Layout.release_keeps {page : Nat} (data : g.role page = .data) : g.Keeps (g.release m page) := by
  unfold Layout.release
  split
  · exact keeps_setRole (by simp [data])
  · exact fun _ kept => kept

section Remove

variable {root page : Nat} {va : Word} {slot : Slot}

/-- `page_remove` gives up a page that `page_lookup` finds, and otherwise does nothing or, where the
    page table exists but maps nothing, dereferences NULL. -/
theorem Consistent.pageRemove (valid : Consistent m g) (role : g.role root = .table root [])
    (below : va < utop) :
    m.pageRemove root va = match m.lookup root va with
      | some (page, slot) => .ok ((m.release page).write slot 0)
      | none => if m.visible root va ∧ m.leafSlot root va ≠ none then .error .nullDeref else .ok m := by
  rw [Memory.pageRemove, valid.pml4eWalk_find role (pml4_of_user below)]
  cases visible : m.visible root va with
  | false => simp [Memory.lookup, visible, bind, Except.bind]
  | true =>
    cases found : m.leafSlot root va with
    | none => simp [Memory.lookup, visible, found, bind, Except.bind]
    | some slot =>
      simp only [bind, Except.bind, if_true, valid.pageLookup role below]
      cases lookup : m.lookup root va with
      | none => simp [Memory.pageDecref]
      | some result =>
        obtain ⟨page, slot'⟩ := result
        obtain ⟨-, found', present, rfl⟩ := Memory.lookup_eq_some.mp lookup
        rw [found] at found'
        cases found'
        obtain ⟨small, ⟨path, tableRole, user⟩, -⟩ := valid.leafSlot_user role below found
        simp only [Option.map_some, (valid.unmap tableRole user small present).1]

theorem Consistent.pageRemove_ok {m' : Memory} (valid : Consistent m g)
    (role : g.role root = .table root []) (below : va < utop) (removed : m.pageRemove root va = .ok m') :
    (m' = m ∧ m.lookup root va = none) ∨
      ∃ page slot, m.lookup root va = some (page, slot) ∧ m' = (m.release page).write slot 0 := by
  rw [valid.pageRemove role below] at removed
  split at removed
  · rename_i page slot lookup
    cases removed
    exact .inr ⟨page, slot, lookup, rfl⟩
  · rename_i lookup
    split at removed
    · cases removed
    · cases removed
      exact .inl ⟨rfl, lookup⟩

theorem Consistent.removed (valid : Consistent m g) (role : g.role root = .table root [])
    (below : va < utop) (lookup : m.lookup root va = some (page, slot)) :
    Consistent ((m.release page).write slot 0) (g.release m page) ∧
      Sets m g root va 0 ((m.release page).write slot 0) (g.release m page) := by
  obtain ⟨-, found, present, rfl⟩ := Memory.lookup_eq_some.mp lookup
  obtain ⟨small, ⟨path, tableRole, user⟩, data⟩ := valid.leafSlot_user role below found
  have valid' := (valid.unmap tableRole user small present).2
  refine ⟨valid', valid.sets_of_write valid' role below found (by simp) (by simp) (by simp)
    (Layout.release_role_iff (data present)) (Layout.release_keeps (data present)) ?_⟩
  rw [Memory.release_write, Memory.release_word]

end Remove

-- A walk that finds all tables

theorem Consistent.nextTable_present (valid : Consistent m g) {table root index next : Nat}
    {path : List Nat} (role : g.role table = .table root path) (higher : path.length < 3)
    (owned : g.Owned root path index) (found : m.child table index = some next) (create : Bool) :
    m.nextTable (table, index) create = .ok (some next, m) := by
  have below := valid.child_role role higher owned found
  have bound := (valid.tables.inside next root _ below).1
  obtain ⟨present, page⟩ := Memory.child_eq_some.mp found
  have here : ppn (pteAddr (m.word table index)) = next := page
  rw [Memory.nextTable, Memory.read, if_pos present, Memory.kaddr_page valid.small (by rwa [here]), here]
  rfl

theorem Consistent.pml4eWalk_present (valid : Consistent m g) {root : Nat} {va : Word} {slot : Slot}
    (role : g.role root = .table root []) (low : pml4 va < 2) (found : m.leafSlot root va = some slot) :
    m.pml4eWalk root va true = .ok (some slot, m) := by
  simp only [Memory.leafSlot, Option.map_eq_some_iff, Radix.descend_cons, Radix.descend_nil,
    Option.bind_eq_some_iff, Option.some.injEq] at found
  obtain ⟨_, ⟨pdpt, top, pgdir, middle, table, last, rfl⟩, rfl⟩ := found
  have spaceRole := valid.tables.space_role role (pml4 va)
  have top' := top
  rw [← valid.tables.space_child root (pml4 va)] at top'
  have pdptRole := valid.child_role spaceRole (by simp) (valid.tables.space_owned root low) top'
  have owned : g.Owned (g.space m.bootPml4e root (pml4 va)) [pml4 va] (pdpe va) := ⟨pdpe_lt va, by simp⟩
  have pgdirRole := valid.child_role pdptRole (by simp) owned middle
  have first : m.nextTable (root, pml4 va) true = .ok (some pdpt, m) := by
    have step := valid.nextTable_present spaceRole (by simp) (valid.tables.space_owned root low) top' true
    rw [← step, Memory.nextTable, Memory.nextTable, Memory.read, Memory.read,
      valid.tables.space_word root (pml4 va)]
    have present : Present (m.word root (pml4 va)) := (Memory.child_eq_some.mp top).1
    rw [if_pos present, if_pos present]
  rw [Memory.pml4eWalk, if_neg (by simp), first]
  simp only [bind, Except.bind, Memory.pdpeWalk]
  rw [if_neg (by simp), valid.refresh pdptRole (by simp) owned,
    valid.nextTable_present pdptRole (by simp) owned middle true]
  simp only [bind, Except.bind, Memory.pgdirWalk]
  rw [valid.nextTable_present pgdirRole (by simp) ⟨pdx_lt va, by simp⟩ last true]

theorem Memory.write_write (m : Memory) (slot : Slot) (first second : Word) :
    (m.write slot first).write slot second = m.write slot second := by
  unfold Memory.write
  congr 1
  funext page index
  split <;> simp_all

/-- What `page_insert` does once the walk has found the slot: the entry in it is given up, unless a
    zero entry 0 on the way hides it from `page_remove`, and then overwritten. -/
theorem Memory.pageInsert_of_walk {m₁ : Memory} {root page : Nat} {va : Word} {perm : BitVec 32}
    {slot : Slot} (walk : m.pml4eWalk root va true = .ok (some slot, m₁)) :
    m.pageInsert root page va perm =
      ((if Present (m₁.read slot) then m₁.pageRemove root va else .ok m₁ : Except Stop Memory) >>=
        fun m₂ => .ok (true, (m₂.write slot (leafEntry page perm)).setRef page (m₂.ppRef page + 1))) := by
  rw [Memory.pageInsert, walk]
  simp only [bind, Except.bind, Memory.write_write, Memory.write_ppRef]

/-- The page that `page_insert` is given, and the reference it gets, leave the invariant intact: the
    entry refers to the page, removing the old mapping does not free it, and its count does not wrap. -/
structure Insertable (m : Memory) (g : Layout) (root page : Nat) (va : Word) (perm : BitVec 32) : Prop where
  data : g.role page = .data
  target : entryPage (leafEntry page perm) = page
  kept : ∀ slot, m.lookup root va = some (page, slot) → m.ppRef page ≠ 1
  room : m.ppRef page = 65535 → ∃ slot, m.lookup root va = some (page, slot)

section Insert

variable {root page : Nat} {va : Word} {perm : BitVec 32} {slot : Slot}

theorem Consistent.mapLeaf (valid : Consistent m g) (role : g.role root = .table root [])
    (below : va < utop) (found : m.leafSlot root va = some slot) (vacant : ¬ Present (m.read slot))
    (data : g.role page = .data) (target : entryPage (leafEntry page perm) = page)
    (room : m.ppRef page ≠ 65535) :
    Consistent ((m.write slot (leafEntry page perm)).setRef page (m.ppRef page + 1)) g ∧
      Sets m g root va (leafEntry page perm)
        ((m.write slot (leafEntry page perm)).setRef page (m.ppRef page + 1)) g := by
  obtain ⟨small, ⟨path, tableRole, user⟩, -⟩ := valid.leafSlot_user role below found
  have valid' := valid.map tableRole user small vacant (present_leafEntry page perm) target data room
  exact ⟨valid', valid.sets_of_write valid' role below found rfl rfl rfl (fun _ _ _ => Iff.rfl)
    (fun _ kept => kept) rfl⟩

theorem Layout.release_data_of_kept (data : g.role page = .data) {old : Nat}
    (kept : old = page → m.ppRef page ≠ 1) : (g.release m old).role page = .data := by
  by_cases here : page = old
  · subst here
    rw [Layout.release, if_neg (kept rfl), data]
  · rw [Layout.release_role_of_ne g m here, data]

theorem Consistent.pageInsert_replace (valid : Consistent m g) (role : g.role root = .table root [])
    (below : va < utop) (insertable : Insertable m g root page va perm) {old : Nat}
    (lookup : m.lookup root va = some (old, slot)) :
    ∃ m', m.pageInsert root page va perm = .ok (true, m') ∧ Consistent m' (g.release m old) ∧
      Sets m g root va (leafEntry page perm) m' (g.release m old) := by
  obtain ⟨visible, found, present, same⟩ := Memory.lookup_eq_some.mp lookup
  obtain ⟨small, ⟨path, tableRole, user⟩, oldData⟩ := valid.leafSlot_user role below found
  have oldData : g.role old = .data := by rw [← same]; exact oldData present
  have valid₂ := (valid.removed role below lookup).1
  have tables := Layout.release_role_iff (m := m) oldData
  have data₂ : (g.release m old).role page = .data :=
    Layout.release_data_of_kept insertable.data fun here => insertable.kept slot (here ▸ lookup)
  have room₂ : ((m.release old).write slot 0).ppRef page ≠ 65535 := by
    rw [Memory.write_ppRef, Memory.release_ppRef]
    split
    · rename_i here
      intro full
      have counted := (valid.refs.counted old oldData).2
      have positive : 0 < mappings m g old := by
        refine Counting.count_pos (mem_area.mpr ⟨(valid.tables.inside _ _ _ tableRole).1, small⟩) ?_
        rw [leafTarget_of_role tableRole user]
        exact Memory.child_eq_some.mpr ⟨present, same⟩
      have bound := (m.ppRef old).isLt
      have value := congrArg BitVec.toNat full
      rw [BitVec.toNat_sub] at value
      change (2^16 - 1 + (m.ppRef old).toNat) % 2^16 = 65535 at value
      omega
    · rename_i different
      intro full
      obtain ⟨slot', lookup'⟩ := insertable.room full
      rw [lookup] at lookup'
      cases lookup'
      exact different rfl
  have vacant : ¬ Present (((m.release old).write slot 0).read slot) := by
    rw [Memory.read, Memory.write_word, if_pos ⟨rfl, rfl⟩]
    decide
  have mapped := valid₂.map ((tables _ _ _).mpr tableRole) user small vacant
    (present_leafEntry page perm) insertable.target data₂ room₂
  rw [Memory.write_write] at mapped
  refine ⟨_, ?_, mapped, valid.sets_of_write mapped role below found (by simp) (by simp) (by simp) tables
    (Layout.release_keeps oldData) ?_⟩
  · rw [Memory.pageInsert_of_walk (valid.pml4eWalk_present role (pml4_of_user below) found),
      if_pos present, valid.pageRemove role below, lookup]
    simp only [bind, Except.bind, Memory.write_write]
  · rw [Memory.setRef_word, Memory.release_write, Memory.release_word]

def Layout.lose (g : Layout) (page : Nat) : Layout := g.setExtra page (g.extra page + 1)

/-- The page mapped at `va`, where `page_remove` does not see it. -/
def Memory.hiddenPage (m : Memory) (root : Nat) (va : Word) : Option Nat :=
  if m.visible root va then none else (m.leafSlot root va).bind fun slot => m.child slot.1 slot.2

/-- `page_insert` over a page that `page_remove` does not see: the page keeps its reference. -/
theorem Consistent.pageInsert_hidden (valid : Consistent m g) (role : g.role root = .table root [])
    (below : va < utop) (insertable : Insertable m g root page va perm)
    (found : m.leafSlot root va = some slot) (present : Present (m.read slot))
    (hidden : m.visible root va = false) :
    ∃ m', m.pageInsert root page va perm = .ok (true, m') ∧ Consistent m' (g.lose (entryPage (m.read slot))) ∧
      Sets m g root va (leafEntry page perm) m' (g.lose (entryPage (m.read slot))) := by
  obtain ⟨small, ⟨path, tableRole, user⟩, -⟩ := valid.leafSlot_user role below found
  have lookup : m.lookup root va = none := by simp [Memory.lookup, hidden]
  have room : m.ppRef page ≠ 65535 := by
    intro full
    obtain ⟨slot', found'⟩ := insertable.room full
    rw [lookup] at found'
    cases found'
  have cleared : Consistent (m.write slot 0) (g.lose (entryPage (m.read slot))) :=
    (valid.clearLeaf tableRole user small present).2
  have vacant : ¬ Present ((m.write slot 0).read slot) := by
    rw [Memory.read, Memory.write_word, if_pos ⟨rfl, rfl⟩]
    decide
  have mapped := cleared.map tableRole user small vacant (present_leafEntry page perm) insertable.target
    insertable.data room
  rw [Memory.write_write] at mapped
  refine ⟨_, ?_, mapped, valid.sets_of_write mapped role below found rfl rfl rfl
    (fun _ _ _ => Iff.rfl) (fun _ kept => kept) rfl⟩
  rw [Memory.pageInsert_of_walk (valid.pml4eWalk_present role (pml4_of_user below) found), if_pos present,
    valid.pageRemove role below, lookup]
  simp [hidden, bind, Except.bind]

/-- `page_insert` where nothing is mapped: the walk makes the tables, or runs out of memory. -/
theorem Consistent.pageInsert_vacant (valid : Consistent m g) (role : g.role root = .table root [])
    (below : va < utop) (insertable : Insertable m g root page va perm)
    (vacant : ¬ Present (m.entry root va)) :
    ∃ done m' g', m.pageInsert root page va perm = .ok (done, m') ∧ Consistent m' g' ∧
      (done = true → Sets m g root va (leafEntry page perm) m' g') ∧
      (done = false → Grows m g m' g' ∧ m'.pageFreeList = none) ∧
      ∀ other, g.role other ≠ .free → g'.extra other = g.extra other := by
  have low := pml4_of_user below
  have lookup : m.lookup root va = none := by
    by_contra found
    obtain ⟨⟨old, slot⟩, found⟩ := Option.ne_none_iff_exists'.mp found
    obtain ⟨-, found, present, -⟩ := Memory.lookup_eq_some.mp found
    rw [Memory.entry_of_leafSlot found] at vacant
    exact vacant present
  have room : m.ppRef page ≠ 65535 := by
    intro full
    obtain ⟨slot', found'⟩ := insertable.room full
    rw [lookup] at found'
    cases found'
  obtain ⟨result, m₁, g₁, walk, walked⟩ := valid.pml4eWalk role low
  have used : g.role page ≠ .free := by simp [insertable.data]
  cases result with
  | none =>
    refine ⟨false, m₁, g₁, ?_, walked.valid, by simp, fun _ => ⟨walked.grows, walked.empty rfl⟩,
      walked.grows.extra⟩
    rw [Memory.pageInsert, walk]
    rfl
  | some slot =>
    have role₁ : g₁.role root = .table root [] := by rw [walked.grows.role root (by simp [role]), role]
    have found₁ := walked.leafSlot role low
    have vacant₁ : ¬ Present (m₁.read slot) := by
      rwa [← Memory.entry_of_leafSlot found₁, walked.grows.entry valid walked.valid role low]
    obtain ⟨valid', sets⟩ := walked.valid.mapLeaf role₁ below found₁ vacant₁
      ((walked.grows.data_iff page).mpr insertable.data) insertable.target
      (by rwa [walked.grows.ppRef page used])
    refine ⟨true, _, g₁, ?_, valid', fun _ => sets.after walked.grows valid walked.valid, by simp,
      walked.grows.extra⟩
    rw [Memory.pageInsert_of_walk walk, if_neg vacant₁]
    rfl

/-- `page_insert` sets one entry or nothing, and only a page that it loses sight of is counted more often
    than it is mapped. -/
theorem Consistent.pageInsert_counts (valid : Consistent m g) (role : g.role root = .table root [])
    (below : va < utop) (insertable : Insertable m g root page va perm) :
    ∃ done m' g', m.pageInsert root page va perm = .ok (done, m') ∧ Consistent m' g' ∧
      (done = true → Sets m g root va (leafEntry page perm) m' g') ∧
      (done = false → Grows m g m' g' ∧ m'.pageFreeList = none) ∧
      ∀ other, g.role other ≠ .free →
        g'.extra other = g.extra other + if m.hiddenPage root va = some other then 1 else 0 := by
  by_cases present : Present (m.entry root va)
  · cases found : m.leafSlot root va with
    | none =>
      rw [Memory.entry, found] at present
      exact absurd present (show ¬ Present 0 by decide)
    | some slot =>
      rw [Memory.entry_of_leafSlot found] at present
      cases visible : m.visible root va with
      | true =>
        have lookup := Memory.lookup_eq_some.mpr ⟨visible, found, present, rfl⟩
        obtain ⟨m', result, valid', sets⟩ := valid.pageInsert_replace role below insertable lookup
        refine ⟨true, m', _, result, valid', fun _ => sets, by simp, fun other _ => ?_⟩
        rw [Memory.hiddenPage, if_pos visible, if_neg (by simp), Layout.release_extra, Nat.add_zero]
      | false =>
        obtain ⟨m', result, valid', sets⟩ :=
          valid.pageInsert_hidden role below insertable found present visible
        have hidden : m.hiddenPage root va = some (entryPage (m.read slot)) := by
          rw [Memory.hiddenPage, visible, if_neg (by simp), found]
          exact Memory.child_eq_some.mpr ⟨present, rfl⟩
        refine ⟨true, m', _, result, valid', fun _ => sets, by simp, fun other _ => ?_⟩
        rw [hidden, Layout.lose, Layout.setExtra_extra]
        by_cases here : other = entryPage (m.read slot)
        · rw [if_pos here, if_pos (by rw [here]), here]
        · rw [if_neg here, if_neg (by rintro ⟨⟩; exact here rfl), Nat.add_zero]
  · obtain ⟨done, m', g', result, valid', sets, failed, extra⟩ :=
      valid.pageInsert_vacant role below insertable present
    have mapsNone : m.hiddenPage root va = none := by
      rw [Memory.hiddenPage]
      split
      · rfl
      · cases found : m.leafSlot root va with
        | none => rfl
        | some slot =>
          rw [Memory.entry_of_leafSlot found] at present
          exact Memory.child_eq_none.mpr present
    refine ⟨done, m', g', result, valid', sets, failed, fun other used => ?_⟩
    rw [mapsNone, if_neg (by simp), extra other used, Nat.add_zero]

/-- `page_insert` keeps the invariant, and as the MMU sees it sets one entry or nothing. -/
theorem Consistent.pageInsert (valid : Consistent m g) (role : g.role root = .table root [])
    (below : va < utop) (insertable : Insertable m g root page va perm) :
    ∃ done m' g', m.pageInsert root page va perm = .ok (done, m') ∧ Consistent m' g' ∧
      (done = true → Sets m g root va (leafEntry page perm) m' g') ∧
      (done = false → Grows m g m' g' ∧ m'.pageFreeList = none) := by
  obtain ⟨done, m', g', result, valid', sets, failed, -⟩ := valid.pageInsert_counts role below insertable
  exact ⟨done, m', g', result, valid', sets, failed⟩

end Insert

-- `page_alloc` and `page_free` around an insertion

theorem Consistent.entry_congr {m' : Memory} {g' : Layout} (valid : Consistent m g)
    (valid' : Consistent m' g') (bootPml4e : m'.bootPml4e = m.bootPml4e) (shares : g'.shares = g.shares)
    (words : ∀ page root path, g.role page = .table root path → m'.word page = m.word page)
    (table : ∀ page root path, g'.role page = .table root path ↔ g.role page = .table root path)
    {root : Nat} {va : Word} (role : g.role root = .table root []) (low : pml4 va < 2) :
    m'.entry root va = m.entry root va := by
  have space : g'.space m'.bootPml4e root (pml4 va) = g.space m.bootPml4e root (pml4 va) := by
    rw [Layout.space, Layout.space, shares, bootPml4e]
  have slots : m'.leafSlot root va = m.leafSlot root va := by
    apply Option.ext
    intro slot
    rw [valid'.leafSlot_iff ((table _ _ _).mpr role) low, space, table, valid.leafSlot_iff role low]
  rw [Memory.entry, Memory.entry, slots]
  cases found : m.leafSlot root va with
  | none => rfl
  | some slot =>
    have tableRole := ((valid.leafSlot_iff role low slot).mp found).2
    simp only [Memory.read, words _ _ _ tableRole]

/-- What `page_alloc` gives is data that nothing maps or counts. -/
structure Fresh (m : Memory) (g : Layout) (page : Nat) (m₁ : Memory) (g₁ : Layout) : Prop where
  free : g.role page = .free
  valid : Consistent m₁ g₁
  layout : g₁ = (g.setRole page .data).setExtra page 0
  memory : m₁ = ((m.clearPage page).setFreeList (m.ppLink page)).setLink page none

theorem Consistent.fresh {m₁ : Memory} {page : Nat} (valid : Consistent m g)
    (allocated : m.pageAlloc true = .ok (some page, m₁)) :
    m.pageFreeList = some page ∧ ∃ g₁, Fresh m g page m₁ g₁ := by
  rcases valid.pageAlloc with ⟨-, alloc⟩ | ⟨page', m', head, alloc, free, valid', memory⟩
  · rw [alloc] at allocated
    cases allocated
  · rw [alloc] at allocated
    cases allocated
    exact ⟨head, _, free, valid', rfl, memory⟩

namespace Fresh

variable {page : Nat} {m₁ : Memory} {g₁ : Layout}

theorem data (fresh : Fresh m g page m₁ g₁) : g₁.role page = .data := by
  rw [fresh.layout]
  simp

theorem table_iff (fresh : Fresh m g page m₁ g₁) (other root : Nat) (path : List Nat) :
    g₁.role other = .table root path ↔ g.role other = .table root path := by
  rw [fresh.layout]
  exact setRole_table_iff (by simp [fresh.free]) (by simp) other root path

theorem keeps (fresh : Fresh m g page m₁ g₁) : g.Keeps g₁ := by
  rw [fresh.layout]
  exact Layout.keeps_setRole (by simp [fresh.free])

theorem ppRef (fresh : Fresh m g page m₁ g₁) (valid : Consistent m g) : m₁.ppRef page = 0 := by
  rw [fresh.memory]
  exact (valid.freeList.unused page fresh.free).2

theorem zero (fresh : Fresh m g page m₁ g₁) (i : Nat) : m₁.word page i = 0 := by
  rw [fresh.memory]
  simp

theorem word_of_ne (fresh : Fresh m g page m₁ g₁) {other : Nat} (different : other ≠ page) :
    m₁.word other = m.word other := by
  funext i
  rw [fresh.memory]
  simp [different]

theorem word_of_used (fresh : Fresh m g page m₁ g₁) {other : Nat} (used : g.role other ≠ .free) :
    m₁.word other = m.word other := by
  apply fresh.word_of_ne
  rintro rfl
  exact used fresh.free

theorem entry (fresh : Fresh m g page m₁ g₁) (valid : Consistent m g) {root : Nat} {va : Word}
    (role : g.role root = .table root []) (low : pml4 va < 2) : m₁.entry root va = m.entry root va := by
  refine valid.entry_congr fresh.valid ?_ ?_ ?_ fresh.table_iff role low
  · rw [fresh.memory]
    rfl
  · rw [fresh.layout]
    rfl
  · intro other root' path role'
    exact fresh.word_of_used (by simp [role'])

/-- A fresh page can be inserted anywhere, as long as the entry refers to it. -/
theorem insertable (fresh : Fresh m g page m₁ g₁) (valid : Consistent m g) {root : Nat} {va : Word}
    {perm : BitVec 32} (target : entryPage (leafEntry page perm) = page) : Insertable m₁ g₁ root page va perm where
  data := fresh.data
  target := target
  kept := by
    intro slot _
    rw [fresh.ppRef valid]
    decide
  room := by
    rw [fresh.ppRef valid]
    intro full
    cases full

end Fresh

theorem Consistent.pageFree_fresh {page : Nat} (valid : Consistent m g) (data : g.role page = .data)
    (zero : m.ppRef page = 0) :
    ∃ m', m.pageFree page = .ok m' ∧ Consistent m' (g.setRole page .free) ∧
      m' = (m.setLink page m.pageFreeList).setFreeList (some page) := by
  have unlinked := valid.freeList.unlinked page (by simp [data])
  refine ⟨_, ?_, valid.putPage data zero, rfl⟩
  rw [Memory.pageFree, if_neg (by simp [zero, unlinked])]

-- What every operation keeps

/-- `after` is a consistent memory in which the PML4s of `m` are still PML4s. -/
def Preserved (m : Memory) (g : Layout) (after : Memory) : Prop :=
  ∃ g', Consistent after g' ∧ after.bootPml4e = m.bootPml4e ∧
    ∀ root, g.role root = .table root [] → g'.role root = .table root []

theorem Preserved.refl (valid : Consistent m g) : Preserved m g m := ⟨g, valid, rfl, fun _ role => role⟩

theorem Preserved.of_insert {m₁ m' : Memory} {g₁ g' : Layout} {root : Nat} {va : Word} {value : Word}
    {done : Bool} (valid' : Consistent m' g') (sets : done = true → Sets m₁ g₁ root va value m' g')
    (failed : done = false → Grows m₁ g₁ m' g' ∧ m'.pageFreeList = none) : Preserved m₁ g₁ m' := by
  cases done with
  | true => exact ⟨g', valid', (sets rfl).bootPml4e, fun r role => (sets rfl).table r r [] role⟩
  | false =>
    have grows := (failed rfl).1
    exact ⟨g', valid', grows.bootPml4e, fun r role => by rw [grows.role r (by simp [role]), role]⟩

theorem Preserved.andThen {middle after : Memory} (first : Preserved m g middle)
    (second : ∀ g', Consistent middle g' → (∀ root, g.role root = .table root [] → g'.role root = .table root []) →
      Preserved middle g' after) : Preserved m g after := by
  obtain ⟨g', valid', boot, kept⟩ := first
  obtain ⟨g'', valid'', boot', kept'⟩ := second g' valid' kept
  exact ⟨g'', valid'', boot'.trans boot, fun root role => kept' root (kept root role)⟩

end Jos
