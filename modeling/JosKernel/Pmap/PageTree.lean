import JosKernel.Pmap.Agreement

namespace Jos

def Inside (path : List Nat) : Prop :=
  path.length ≤ 3 ∧ (∀ i ∈ path, i < 512) ∧ path.head? ≠ some (pml4 uvpt)

theorem Inside.front {front back : List Nat} (within : Inside (front ++ back)) : Inside front := by
  obtain ⟨short, small, outside⟩ := within
  rw [List.length_append] at short
  refine ⟨by omega, fun i member => small i (List.mem_append_left _ member), ?_⟩
  cases front with
  | nil => simp
  | cons first rest => simpa using outside

theorem Inside.nil : Inside [] := ⟨by simp, by simp, by simp⟩

section Addresses

variable {va : Word}

theorem inside_of_va (outside : pml4 va ≠ pml4 uvpt) : Inside [pml4 va, pdpe va, pdx va] :=
  ⟨by simp, by simp [pml4_lt, pdpe_lt, pdx_lt], by simpa using outside⟩

theorem inside_middle (outside : pml4 va ≠ pml4 uvpt) : Inside [pml4 va, pdpe va] :=
  Inside.front (show Inside ([pml4 va, pdpe va] ++ [pdx va]) from inside_of_va outside)

theorem inside_top (outside : pml4 va ≠ pml4 uvpt) : Inside [pml4 va] :=
  Inside.front (show Inside ([pml4 va] ++ [pdpe va]) from inside_middle outside)

end Addresses

/-- A tree of tables, none of which is used twice or free. `free` lists the pages under `page_free_list`. -/
structure PageTree (m : Memory) (root : Nat) (free : List Nat) : Prop where
  small : m.npages ≤ 2^52
  entry : ∀ path index table, Inside (path ++ [index]) → Radix.descend m.child root path = some table →
    Present (m.word table index) → entryPage (m.word table index) < m.npages
  alone : ∀ path path' table, Inside path → Inside path' → Radix.descend m.child root path = some table →
    Radix.descend m.child root path' = some table → path' = path
  list : Linked.Chain m.ppLink m.pageFreeList free
  unused : ∀ page ∈ free, page < m.npages ∧
    ∀ path, Inside path → Radix.descend m.child root path ≠ some page

/-- The leaf entry with `index` in the page table at `path`, or 0 where there is no such table. -/
def Memory.entryAt (m : Memory) (root : Nat) (path : List Nat) (index : Nat) : Word :=
  (Radix.descend m.child root path).elim 0 fun table => m.word table index

theorem Memory.entry_eq_entryAt (m : Memory) (root : Nat) (va : Word) :
    m.entry root va = m.entryAt root [pml4 va, pdpe va, pdx va] (ptx va) := by
  rw [Memory.entry, Memory.entryAt, Memory.leafSlot]
  cases Radix.descend m.child root [pml4 va, pdpe va, pdx va] <;> rfl

structure Expands (m : Memory) (root : Nat) (m' : Memory) (rest : List Nat) : Prop where
  tree : PageTree m' root rest
  npages : m'.npages = m.npages
  kept : ∀ path table, Inside path → Radix.descend m.child root path = some table →
    Radix.descend m'.child root path = some table
  leaf : ∀ path index, Inside path → path.length = 3 →
    m'.entryAt root path index = m.entryAt root path index

variable {m m' m'' : Memory} {root table index : Nat} {free rest rest' path : List Nat}

theorem Expands.trans (first : Expands m root m' rest) (second : Expands m' root m'' rest') :
    Expands m root m'' rest' where
  tree := second.tree
  npages := second.npages.trans first.npages
  kept := fun path table within found => second.kept path table within (first.kept path table within found)
  leaf := fun path index within lowest =>
    (second.leaf path index within lowest).trans (first.leaf path index within lowest)

-- One step of a walk

/-- A free page taken for a table under `(table, index)`. -/
def Memory.expand (m : Memory) (page : Nat) (slot : Slot) : Memory :=
  ((((m.clearPage page).setFreeList (m.ppLink page)).setLink page none).setRef page (m.ppRef page + 1)).write
    slot (tableEntry page)

namespace PageTree

theorem refl (tree : PageTree m root free) : Expands m root m free :=
  ⟨tree, rfl, fun _ _ _ found => found, fun _ _ _ _ => rfl⟩

theorem refreshed (tree : PageTree m root free) (slot : Slot) : PageTree (m.refresh slot) root free := by
  have children := Memory.child_refresh m slot
  have lists : (m.refresh slot).ppLink = m.ppLink ∧ (m.refresh slot).pageFreeList = m.pageFreeList := by
    unfold Memory.refresh
    split <;> exact ⟨rfl, rfl⟩
  refine ⟨?_, ?_, ?_, ?_, ?_⟩
  · rw [Memory.refresh_npages]
    exact tree.small
  · intro p i node inside found present
    rw [children] at found
    obtain ⟨same, page⟩ := Memory.read_present (node, i) children
    have before := same.mp present
    change entryPage ((m.refresh slot).read (node, i)) < _
    rw [Memory.refresh_npages, page before]
    exact tree.entry p i node inside found before
  · rw [children]
    exact tree.alone
  · rw [lists.1, lists.2]
    exact tree.list
  · rw [children, Memory.refresh_npages]
    exact tree.unused

theorem refresh (tree : PageTree m root free) (within : Inside (path ++ [index]))
    (reached : Radix.descend m.child root path = some table) : Expands m root (m.refresh (table, index)) free := by
  have children := Memory.child_refresh m (table, index)
  refine ⟨tree.refreshed _, Memory.refresh_npages _, ?_, ?_⟩
  · rw [children]
    exact fun _ _ _ found => found
  · intro p i inside lowest
    rw [Memory.entryAt, Memory.entryAt, children]
    cases found : Radix.descend m.child root p with
    | none => rfl
    | some node =>
      refine Memory.refresh_word_of_ne (.inl ?_)
      rintro rfl
      have short := within.1
      rw [List.length_append, tree.alone p path node inside within.front found reached, lowest] at short
      simp at short

section Expand

variable {page : Nat}

theorem grafts (tree : PageTree m root (page :: rest)) (within : Inside (path ++ [index]))
    (reached : Radix.descend m.child root path = some table) (vacant : m.child table index = none) :
    Radix.Grafts m.child (m.expand page (table, index)).child Inside root table page path index := by
  obtain ⟨bound, unreached⟩ := tree.unused page (by simp)
  have different : page ≠ table := by
    rintro rfl
    exact unreached path within.front reached
  have small := tree.small
  exact {
    reached := reached
    alone := fun p inside found => tree.alone path p table within.front inside reached found
    vacant := vacant
    unreached := unreached
    here := by
      rw [Memory.child_eq_some, Memory.expand, Memory.write_word, if_pos ⟨rfl, rfl⟩]
      exact ⟨present_tableEntry page, entryPage_tableEntry page (by omega)⟩
    bare := by
      intro i
      rw [Memory.child_eq_none, Memory.expand, Memory.write_word, if_neg fun both => different both.1]
      simp only [Memory.setRef_word, Memory.setLink_word, Memory.setFreeList_word, Memory.clearPage_word, if_true]
      decide
    same := by
      intro node i old apart
      apply Memory.child_congr
      rw [Memory.expand, Memory.write_word, if_neg apart]
      simp [old] }

theorem expands (tree : PageTree m root (page :: rest)) (within : Inside (path ++ [index]))
    (reached : Radix.descend m.child root path = some table) (vacant : m.child table index = none) :
    Expands m root (m.expand page (table, index)) rest := by
  have grafts := tree.grafts within reached vacant
  obtain ⟨bound, unreached⟩ := tree.unused page (by simp)
  obtain ⟨_, split, tail⟩ := Linked.chain_some (show Linked.Chain m.ppLink (some page) (page :: rest) from
    ⟨rfl, tree.list.2⟩)
  cases split
  obtain ⟨first, nodup⟩ := List.nodup_cons.mp (Linked.chain_nodup tree.list)
  have descend : ∀ {p}, Inside p → Radix.descend (m.expand page (table, index)).child root p =
      if p = path ++ [index] then some page else Radix.descend m.child root p :=
    fun inside => grafts.descend_eq (fun _ _ inside => inside.front) inside
  have word : ∀ {node i}, node ≠ page → ¬ (node = table ∧ i = index) →
      (m.expand page (table, index)).word node i = m.word node i := by
    intro node i old apart
    rw [Memory.expand, Memory.write_word, if_neg apart]
    simp [old]
  have empty : ∀ i, (m.expand page (table, index)).word page i = 0 := by
    intro i
    have different : page ≠ table := by
      rintro rfl
      exact unreached path within.front reached
    rw [Memory.expand, Memory.write_word, if_neg fun both => different both.1]
    simp
  have absent : Radix.descend m.child root (path ++ [index]) = none := by
    rw [Radix.descend_snoc, reached, Option.bind_some, vacant]
  have old : ∀ {p node}, Inside p → Radix.descend m.child root p = some node → node ≠ page := by
    rintro p node inside found rfl
    exact unreached p inside found
  refine ⟨⟨tree.small, ?_, ?_, ?_, ?_⟩, rfl, ?_, ?_⟩
  · intro p i node inside found present
    rw [descend inside.front] at found
    split at found
    · cases found
      rw [empty] at present
      exact absurd present (by decide)
    · by_cases slot : node = table ∧ i = index
      · rw [slot.1, slot.2]
        have small := tree.small
        rw [Memory.expand, Memory.write_word, if_pos ⟨rfl, rfl⟩, entryPage_tableEntry page (by omega)]
        exact bound
      · rw [word (old inside.front found) slot] at present ⊢
        exact tree.entry p i node inside found present
  · intro p p' node inside inside' found found'
    rw [descend inside] at found
    rw [descend inside'] at found'
    split at found
    · rename_i new
      cases found
      split at found'
      · rename_i new'
        rw [new, new']
      · exact absurd rfl (old inside' found')
    · split at found'
      · cases found'
        exact absurd rfl (old inside found)
      · exact tree.alone p p' node inside inside' found found'
  · refine Linked.chain_congr ?_ tail
    intro node member
    change (if node = page then none else m.ppLink node) = _
    rw [if_neg (by rintro rfl; exact first member)]
  · intro other member
    obtain ⟨bound', unreached'⟩ := tree.unused other (List.mem_cons_of_mem _ member)
    refine ⟨bound', fun p inside found => ?_⟩
    rw [descend inside] at found
    split at found
    · cases found
      exact first member
    · exact unreached' p inside found
  · intro p node inside found
    rw [descend inside, if_neg, found]
    rintro rfl
    rw [absent] at found
    cases found
  · intro p i inside lowest
    rw [Memory.entryAt, Memory.entryAt, descend inside]
    split
    · rename_i new
      rw [new, absent]
      exact empty i
    · cases found : Radix.descend m.child root p with
      | none => rfl
      | some node =>
        refine word (old inside found) ?_
        rintro ⟨rfl, -⟩
        have short := within.1
        rw [List.length_append, tree.alone p path node inside within.front found reached, lowest] at short
        simp at short

end Expand

/-- Whether the entry is there, whether a page is free, and what the step does. -/
theorem nextTable (tree : PageTree m root free) (within : Inside (path ++ [index]))
    (reached : Radix.descend m.child root path = some table) :
    (∃ next, m.child table index = some next ∧ m.nextTable (table, index) true = .ok (some next, m)) ∨
      m.child table index = none ∧
        (free = [] ∧ m.nextTable (table, index) true = .ok (none, m) ∨
          ∃ page rest, free = page :: rest ∧
            m.nextTable (table, index) true = .ok (some page, m.expand page (table, index))) := by
  by_cases present : Present (m.word table index)
  · have bound := tree.entry path index table within reached present
    refine .inl ⟨_, Memory.child_eq_some.mpr ⟨present, rfl⟩, ?_⟩
    rw [Memory.nextTable, Memory.read, if_pos present, Memory.InReach.kaddr rfl bound]
    rfl
  · refine .inr ⟨Memory.child_eq_none.mpr present, ?_⟩
    cases free with
    | nil =>
      have empty : m.pageFreeList = none := tree.list
      refine .inl ⟨rfl, ?_⟩
      rw [Memory.nextTable, Memory.read, if_neg present, if_pos rfl, Memory.pageAlloc, empty]
      rfl
    | cons page rest =>
      have head : m.pageFreeList = some page := tree.list.1
      obtain ⟨bound, -⟩ := tree.unused page (by simp)
      have small := tree.small
      have cleared : m.kaddr (page2pa page) = .ok page := by
        refine Memory.InReach.kaddr ?_ bound
        rw [ppn_eq, page2pa_toNat]
        omega
      have followed : (m.expand page (table, index)).kaddr (pteAddr (tableEntry page)) = .ok page :=
        Memory.InReach.kaddr (entryPage_tableEntry page (by omega)) bound
      refine .inr ⟨page, rest, rfl, ?_⟩
      rw [Memory.nextTable, Memory.read, if_neg present, if_pos rfl, Memory.pageAlloc, head]
      simp only [if_true, cleared, bind, Except.bind, Except.map]
      have written : (m.expand page (table, index)).read (table, index) = tableEntry page := if_pos ⟨rfl, rfl⟩
      rw [← written] at followed
      rw [show ((((m.clearPage page).setFreeList ((m.clearPage page).ppLink page)).setLink page none).setRef page
        ((((m.clearPage page).setFreeList ((m.clearPage page).ppLink page)).setLink page none).ppRef page + 1)).write
          (table, index) (tableEntry page) = m.expand page (table, index) from rfl, followed]

end PageTree

-- The trees of a consistent memory

variable {g : Layout}

theorem Tables.space_owned_of_ne (tables : Tables m g) (root : Nat) {top : Nat} (small : top < 512)
    (outside : top ≠ pml4 uvpt) : g.Owned (g.space m.bootPml4e root top) [] top := by
  have window : pml4 uvpt = 2 := by decide
  refine ⟨small, fun _ => ⟨by omega, ?_⟩⟩
  rintro rfl
  unfold Layout.space
  split
  · exact tables.shares_boot
  · rename_i other
    simpa using other

/-- A table of the tree, or of the part that it shares, is labelled with its path. -/
theorem Consistent.role_of_descend (valid : Consistent m g) (role : g.role root = .table root []) {top : Nat}
    (inside : Inside (top :: path)) (reached : Radix.descend m.child root (top :: path) = some table) :
    g.role table = .table (g.space m.bootPml4e root top) (top :: path) := by
  obtain ⟨short, small, outside⟩ := inside
  have forest := valid.tables.labelled valid.small
  have start := Layout.label_eq_some.mpr (valid.tables.space_role role top)
  rw [Radix.descend_cons, ← valid.tables.space_child, ← Radix.descend_cons] at reached
  refine Layout.label_eq_some.mp (forest.descend_label start (by simpa using short) ?_ reached)
  intro before index after split
  cases before with
  | nil =>
    cases split
    exact valid.tables.space_owned_of_ne root (small top (by simp)) (by simpa using outside)
  | cons first before =>
    refine ⟨small index ?_, by simp⟩
    rw [split]
    simp

theorem Consistent.pageTree (valid : Consistent m g) (role : g.role root = .table root []) :
    ∃ free, PageTree m root free ∧ ∀ page, page ∈ free ↔ g.role page = .free := by
  obtain ⟨free, chain, members⟩ := valid.freeList.chain
  have labelled : ∀ {path table}, Inside path → Radix.descend m.child root path = some table →
      ∃ space, g.role table = .table space path := by
    intro path table inside reached
    cases path with
    | nil =>
      cases reached
      exact ⟨root, role⟩
    | cons top path => exact ⟨_, valid.role_of_descend role inside reached⟩
  have small := valid.small
  refine ⟨free, ⟨by omega, ?_, ?_, chain, ?_⟩, members⟩
  · intro path index table inside reached present
    have window : pml4 uvpt = 2 := by decide
    have below : ∃ next space, m.word table index = tableEntry next ∧
        g.role next = .table space (path ++ [index]) := by
      cases path with
      | nil =>
        cases reached
        obtain ⟨-, small, outside⟩ := inside
        have owned := valid.tables.space_owned_of_ne root (small index (by simp)) (by simpa using outside)
        rw [← valid.tables.space_word] at present ⊢
        obtain ⟨next, entry, below⟩ :=
          valid.tables.down _ _ _ index (valid.tables.space_role role index) (by simp) owned present
        exact ⟨next, _, entry, below⟩
      | cons top path =>
        have above := valid.role_of_descend role inside.front reached
        have short := inside.1
        rw [List.length_append] at short
        have lengths : (top :: path).length < 3 := by simp at short ⊢; omega
        obtain ⟨next, entry, below⟩ := valid.tables.down _ _ _ index above lengths
          ⟨inside.2.1 index (by simp), by simp⟩ present
        exact ⟨next, _, entry, below⟩
    obtain ⟨next, space, entry, below⟩ := below
    have bound := (valid.tables.inside next space _ below).1
    rw [entry, entryPage_tableEntry next (by omega)]
    exact bound
  · intro path path' table inside inside' reached reached'
    obtain ⟨space, here⟩ := labelled inside reached
    obtain ⟨space', here'⟩ := labelled inside' reached'
    rw [here] at here'
    cases here'
    rfl
  · intro page member
    have unused := (members page).mp member
    refine ⟨(valid.freeList.unused page unused).1, fun path inside reached => ?_⟩
    obtain ⟨space, here⟩ := labelled inside reached
    rw [unused] at here
    cases here

end Jos
