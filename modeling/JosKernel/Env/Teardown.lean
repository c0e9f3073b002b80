import JosKernel.Pmap.Detach
import JosKernel.Pmap.Reach
import JosKernel.Env.State

namespace Jos

-- kern/env.c: how `env_free` takes an address space apart

namespace Memory

def freeEntry (root table pdpeIndex pdeno : Nat) (m : Memory) (pteno : Nat) : Except Stop Memory :=
  if Present (m.word table pteno) then m.pageRemove root (pgAddr 0 pdpeIndex pdeno pteno 0) else .ok m

def freeTable (root pgdir pdpeIndex : Nat) (m : Memory) (pdeno : Nat) : Except Stop Memory :=
  if Present (m.word pgdir pdeno) then do
    let pa := pteAddr (m.word pgdir pdeno)
    let table ← m.kaddr pa
    let m ← (List.range (ptx (~~~0))).foldlM (freeEntry root table pdpeIndex pdeno) m
    let m := m.write (pgdir, pdeno) 0
    let page ← m.pa2page pa
    m.pageDecref (some page)
  else .ok m

def freeDirectory (root pdpt : Nat) (m : Memory) (pdpeIndex : Nat) : Except Stop Memory :=
  if Present (m.word pdpt pdpeIndex) then do
    let pgdir ← m.kaddr (pteAddr (m.word pdpt pdpeIndex))
    let limit := if pdpeIndex = 3 then pdx utop else pdx 0xFFFFFFFF
    let m ← (List.range limit).foldlM (freeTable root pgdir pdpeIndex) m
    let pa := pteAddr (m.word pdpt pdpeIndex)
    let m := m.write (pdpt, pdpeIndex) 0
    let page ← m.pa2page pa
    m.pageDecref (some page)
  else .ok m

/-- The first four gigabytes of the address space under `root`, its PDPT and the PML4 itself. Entry 0
    of the PML4 is not looked at before it is used. -/
def freeSpace (m : Memory) (root : Nat) (cr3 : Word) : Except Stop Memory := do
  let pdpt ← m.kaddr (pteAddr (m.word root 0))
  let m ← (List.range 4).foldlM (freeDirectory root pdpt) m
  let page ← m.pa2page (pteAddr (m.word root 0))
  let m ← m.pageDecref (some page)
  let m := m.write (root, 0) 0
  let page ← m.pa2page cr3
  m.pageDecref (some page)

theorem cut_clears {m m' : Memory} {slot : Slot} {pa : Word}
    (done : ((m.write slot 0).pa2page pa >>= fun page => (m.write slot 0).pageDecref (some page)) = .ok m') :
    m.Clears m' := by
  obtain ⟨page, -, decref⟩ := Fallible.bind_ok.mp done
  exact ((Clears.refl m).write slot).of_child (child_of_word (pageDecref_word decref).1)

theorem freeEntry_clears {m m' : Memory} {root table i j t : Nat}
    (done : m.freeEntry root table i j t = .ok m') : m.Clears m' := by
  unfold freeEntry at done
  split at done
  · exact pageRemove_clears done
  · cases done
    exact .refl m

theorem freeTable_clears {m m' : Memory} {root pgdir i j : Nat} (done : m.freeTable root pgdir i j = .ok m') :
    m.Clears m' := by
  unfold freeTable at done
  split at done
  · obtain ⟨table, -, rest⟩ := Fallible.bind_ok.mp done
    obtain ⟨middle, loop, rest⟩ := Fallible.bind_ok.mp rest
    have first : m.Clears middle := Fallible.foldlM_keeps m.Clears
      (fun _ _ _ _ before ran => before.trans (freeEntry_clears ran)) (.refl m) loop
    exact first.trans (cut_clears rest)
  · cases done
    exact .refl m

theorem freeDirectory_clears {m m' : Memory} {root pdpt i : Nat} (done : m.freeDirectory root pdpt i = .ok m') :
    m.Clears m' := by
  unfold freeDirectory at done
  split at done
  · obtain ⟨table, -, rest⟩ := Fallible.bind_ok.mp done
    obtain ⟨middle, loop, rest⟩ := Fallible.bind_ok.mp rest
    have first : m.Clears middle := Fallible.foldlM_keeps m.Clears
      (fun _ _ _ _ before ran => before.trans (freeTable_clears ran)) (.refl m) loop
    exact first.trans (cut_clears rest)
  · cases done
    exact .refl m

/-- How many entries of a page directory `freeDirectory` looks at. -/
def dirLimit (pdpeIndex : Nat) : Nat := if pdpeIndex = 3 then pdx utop else pdx 0xFFFFFFFF

theorem dirLimit_lt (pdpeIndex : Nat) : dirLimit pdpeIndex < 512 := by
  unfold dirLimit
  split <;> exact pdx_lt _

/-- All entries of an address space are ones that `freeSpace` gets to and can give up, or entries of the
    PML4 that refer to what `boot_pml4e` refers to. -/
structure Tidy (m : Memory) (root : Nat) : Prop where
  top : ∀ i page, i < 512 → i ≠ 0 → i ≠ 2 → m.child root i = some page → m.child m.bootPml4e i = some page
  pdpt : ∀ pdpt i page, Radix.descend m.child root [0] = some pdpt → i < 512 → m.child pdpt i = some page → i < 4
  pgdir : ∀ pgdir i j page, Radix.descend m.child root [0, i] = some pgdir → i < 512 → j < 512 →
    m.child pgdir j = some page → j < dirLimit i
  table : ∀ table i j t page, Radix.descend m.child root [0, i, j] = some table → i < 512 → j < 512 → t < 512 →
    m.child table t = some page → i = 0 ∧ t < ptx (~~~0)

end Memory

variable {m : Memory} {g : Layout}

/-- What has become of the pages while a tidy address space is taken apart: they are given up or used as
    before, and no reference has been lost. -/
structure Accounts (m : Memory) (g : Layout) (root : Nat) (m' : Memory) (g' : Layout) : Prop where
  table : ∀ page path, g.role page = .table root path → g'.role page = .table root path ∨ g'.role page = .free
  data : ∀ page, g.role page = .data → (g'.role page = .free ∧ g.extra page = 0) ∨
    (g'.role page = .data ∧ g'.extra page = g.extra page ∧ (m.ppRef page ≠ 0 → m'.ppRef page ≠ 0))

/-- What holds of memory while an address space is taken apart: the invariant, the other address
    spaces, and the tables of this one that are still worked on. -/
structure Teardown (m : Memory) (g : Layout) (root : Nat) (held : List (Nat × List Nat)) (m' : Memory)
    (g' : Layout) : Prop where
  valid : Consistent m' g'
  npages : m'.npages = m.npages
  bootPml4e : m'.bootPml4e = m.bootPml4e
  keeps : g.Keeps g'
  kept : ∀ page i, g.role page = .kept → m'.word page i = m.word page i
  tables : ∀ page other path, g'.role page = .table other path → g.role page = .table other path
  others : ∀ page other path, other ≠ root → g.role page = .table other path →
    g'.role page = .table other path ∧ ∀ i, m'.word page i = m.word page i
  clears : m.Clears m'
  counts : ∀ page, m'.ppRef page ≠ m.ppRef page → m.RefersTo root page
  accounts : m.Tidy root → Accounts m g root m' g'
  held : ∀ table path, (table, path) ∈ held → g'.role table = .table root path

namespace Teardown

variable {root : Nat} {held : List (Nat × List Nat)} {m' : Memory} {g' : Layout}

theorem start (valid : Consistent m g) (role : g.role root = .table root []) :
    Teardown m g root [(root, [])] m g where
  valid := valid
  npages := rfl
  bootPml4e := rfl
  keeps := fun _ kept => kept
  kept := fun _ _ _ => rfl
  tables := fun _ _ _ role => role
  others := fun _ _ _ _ role => ⟨role, fun _ => rfl⟩
  clears := .refl m
  counts := fun _ changed => absurd rfl changed
  accounts := fun _ => ⟨fun _ _ role => .inl role, fun _ isData => .inr ⟨isData, rfl, id⟩⟩
  held := by
    intro table path member
    simp only [List.mem_cons, Prod.mk.injEq, List.not_mem_nil, or_false] at member
    rw [member.1, member.2, role]

theorem hold (teardown : Teardown m g root held m' g') {page : Nat} {path : List Nat}
    (role : g'.role page = .table root path) : Teardown m g root ((page, path) :: held) m' g' :=
  { teardown with
    held := by
      intro table path' member
      rcases List.mem_cons.mp member with same | member
      · cases same
        exact role
      · exact teardown.held table path' member }

theorem release {entry : Nat × List Nat} (teardown : Teardown m g root (entry :: held) m' g') :
    Teardown m g root held m' g' :=
  { teardown with held := fun table path member => teardown.held table path (List.mem_cons_of_mem _ member) }

theorem root_iff (teardown : Teardown m g root held m' g') {other : Nat} (different : other ≠ root) :
    g'.role other = .table other [] ↔ g.role other = .table other [] :=
  ⟨teardown.tables other other [], fun role => (teardown.others other other [] different role).1⟩

theorem descend (teardown : Teardown m g root held m' g') {table : Nat} {path : List Nat}
    (role : g'.role table = .table root path) : Radix.descend m.child root path = some table :=
  Radix.descend_mono teardown.clears
    ((teardown.valid.tables.labelled teardown.valid.small).descend_of_label (Layout.label_eq_some.mpr role))

theorem child (teardown : Teardown m g root held m' g') {table index : Nat} {path : List Nat}
    (member : (table, path) ∈ held) (higher : path.length < 3) (owned : g'.Owned root path index)
    (present : Present (m'.word table index)) :
    ∃ page, g'.role page = .table root (path ++ [index]) ∧
      m'.kaddr (pteAddr (m'.word table index)) = .ok page ∧ ppn (pteAddr (m'.word table index)) = page := by
  have valid := teardown.valid
  have role := teardown.held table path member
  obtain ⟨page, entry, below⟩ := valid.tables.down table root path index role higher owned present
  have bound := (valid.tables.inside page root _ below).1
  have small := valid.small
  refine ⟨page, below, ?_, ?_⟩
  · rw [entry, Memory.kaddr_tableEntry small bound]
  · rw [entry]
    exact entryPage_tableEntry page (by omega)

/-- A table that is reached no more is given up. In a tidy address space it has no entries then. -/
theorem detach (teardown : Teardown m g root held m' g') {m'' : Memory} {page : Nat} {path : List Nat}
    (detaches : Detaches m' g' page root path m'') (clears : m'.Clears m'') (refers : m'.RefersTo root page)
    (bare : m.Tidy root → ∀ i, g'.Owned root path i → ¬ Present (m'.word page i))
    (apart : ∀ other path', (other, path') ∈ held → ¬ path <+: path') :
    ∃ g'', m''.pageDecref (some page) = .ok (m''.release page) ∧
      Teardown m g root held (m''.release page) g'' ∧
      ∀ other path', g''.role other = .table root path' → ¬ path <+: path' := by
  have valid := teardown.valid
  obtain ⟨g'', decref, valid'', keeps, tables, exact⟩ := detaches.pageDecref valid
  have counted : ∀ other, other ≠ page → (m''.release page).ppRef other = m'.ppRef other := by
    intro other different
    rw [Memory.release_ppRef, if_neg different, detaches.ppRef]
  refine ⟨g'', decref, ⟨valid'', ?_, ?_, ?_, ?_, ?_, ?_, ?_, ?_, ?_, ?_⟩, ?_⟩
  · rw [Memory.release_npages, detaches.npages, teardown.npages]
  · rw [Memory.release_bootPml4e, detaches.bootPml4e, teardown.bootPml4e]
  · exact fun other kept => keeps other (teardown.keeps other kept)
  · intro other i kept
    rw [Memory.release_word, detaches.still other i (.inr (teardown.keeps other kept)), teardown.kept other i kept]
  · exact fun other root' path' role => teardown.tables other root' path' ((tables _ _ _).mp role).1
  · intro other root' path' different role
    obtain ⟨role', words⟩ := teardown.others other root' path' different role
    refine ⟨(tables _ _ _).mpr ⟨role', fun below => different below.1⟩, fun i => ?_⟩
    rw [Memory.release_word, ← words i]
    exact detaches.word other root' path' i role' (fun below => different below.1) fun cut => different cut.1
  · exact teardown.clears.trans (clears.of_child (Memory.child_of_word (Memory.release_word m'' page)))
  · intro other changed
    by_cases here : other = page
    · rw [here]
      exact teardown.clears.refers refers
    · rw [counted other here] at changed
      exact teardown.counts other changed
  · intro tidy
    obtain ⟨free, same, extra⟩ := exact (bare tidy)
    have accounts := teardown.accounts tidy
    have used : ∀ other, g'.role other ≠ .table root path → other ≠ page := by
      rintro other role rfl
      exact role detaches.role
    refine ⟨?_, ?_⟩
    · intro other path' role
      by_cases here : other = page
      · rw [here]
        exact .inr free
      · rw [same other here]
        exact accounts.table other path' role
    · intro other isData
      rcases accounts.data other isData with ⟨freed, zero⟩ | ⟨data, spare, alive⟩
      · rw [same other (used other (by simp [freed]))]
        exact .inl ⟨freed, zero⟩
      · have different := used other (by simp [data])
        rw [same other different, extra other data, counted other different]
        exact .inr ⟨data, spare, alive⟩
  · intro other path' member
    exact (tables _ _ _).mpr ⟨teardown.held other path' member, fun inside => apart other path' member inside.2⟩
  · exact fun other path' role inside => ((tables _ _ _).mp role).2 ⟨rfl, inside⟩

theorem cut (teardown : Teardown m g root held m' g') (notBoot : root ≠ m.bootPml4e)
    {table index page : Nat} {path : List Nat} {pa : Word} (member : (table, path) ∈ held)
    (below : g'.role page = .table root (path ++ [index])) (target : ppn pa = page)
    (bare : m.Tidy root → ∀ i, i < 512 → ¬ Present (m'.word page i))
    (apart : ∀ other path', (other, path') ∈ held → ¬ path ++ [index] <+: path') :
    ∃ m'', ((m'.write (table, index) 0).pa2page pa >>=
        fun page => (m'.write (table, index) 0).pageDecref (some page)) = .ok m'' ∧
      ∃ g'', Teardown m g root held m'' g'' ∧ m''.word table index = 0 := by
  have valid := teardown.valid
  have role := teardown.held table path member
  have notBoot' : root ≠ m'.bootPml4e := by rwa [teardown.bootPml4e]
  have detaches := valid.detaches_child role notBoot' below
  obtain ⟨parent, parentRole, owned, entry⟩ := valid.tables.up page root path index below
  have same : parent = table := valid.tables.role_injective valid.small parentRole role
  rw [same] at entry
  have bound : page < m'.npages := (valid.tables.inside page root _ below).1
  have small := valid.small
  have refers : m'.RefersTo root page := by
    refine ⟨table, index, valid.reached_of_role role, owned.1, Memory.child_eq_some.mpr ?_⟩
    rw [entry]
    exact ⟨present_tableEntry page, entryPage_tableEntry page (by omega)⟩
  obtain ⟨g'', decref, teardown'', -⟩ := teardown.detach detaches ((Memory.Clears.refl m').write _) refers
    (fun tidy i owned => bare tidy i owned.1) apart
  have found : (m'.write (table, index) 0).pa2page pa = .ok page := by
    rw [Memory.pa2page, target, if_neg (by rw [Memory.write_npages]; omega)]
  refine ⟨_, ?_, g'', teardown'', ?_⟩
  · rw [Fallible.bind_of_ok found, decref]
  · rw [Memory.release_word, Memory.write_word, if_pos ⟨rfl, rfl⟩]

end Teardown

/-- Below the first gigabyte `page_remove` gets to the page tables: entry 0 of both tables on its way is
    the one that it follows. -/
theorem Consistent.visible_of_first (valid : Consistent m g) {root table j : Nat} {va : Word}
    (role : g.role root = .table root []) (below : g.role table = .table root [0, 0, j]) (top : pml4 va = 0) :
    m.visible root va = true := by
  have nonzero : ∀ page, tableEntry page ≠ 0 := by
    intro page zero
    exact absurd (zero ▸ present_tableEntry page) (show ¬ Present 0 by decide)
  obtain ⟨pgdir, pgdirRole, -, -⟩ := valid.tables.up table root [0, 0] j below
  obtain ⟨pdpt, pdptRole, -, entry⟩ := valid.tables.up pgdir root [0] 0 pgdirRole
  obtain ⟨parent, parentRole, -, entry'⟩ := valid.tables.up pdpt root [] 0 pdptRole
  have same : parent = root := valid.tables.role_injective valid.small parentRole role
  rw [same] at entry'
  have small := valid.small
  have bound := (valid.tables.inside pdpt root _ pdptRole).1
  have child : m.child root 0 = some pdpt := by
    rw [Memory.child_eq_some, entry']
    exact ⟨present_tableEntry pdpt, entryPage_tableEntry pdpt (by omega)⟩
  rw [Memory.visible, top, child, Option.all_some, Bool.and_eq_true, bne_iff_ne, bne_iff_ne, entry, entry']
  exact ⟨nonzero pdpt, nonzero pgdir⟩

section Loops

variable {root : Nat} {m' : Memory} {g' : Layout} {held : List (Nat × List Nat)}

theorem Teardown.unmap (teardown : Teardown m g root held m' g') (rootRole : g'.role root = .table root [])
    {va : Word} (below : va < utop) (top : pml4 va = 0) {page : Nat} {slot : Slot}
    (lookup : m'.lookup root va = some (page, slot)) :
    Teardown m g root held ((m'.release page).write slot 0) (g'.release m' page) := by
  have valid := teardown.valid
  obtain ⟨-, found, present, target⟩ := Memory.lookup_eq_some.mp lookup
  obtain ⟨small, ⟨path, role, user⟩, data⟩ := valid.leafSlot_user rootRole below found
  rw [top, Layout.space_zero] at role
  have data : g'.role page = .data := target ▸ data present
  have child : m'.child slot.1 slot.2 = some page := Memory.child_eq_some.mpr ⟨present, target⟩
  have roles := Layout.release_role_iff (m := m') data
  refine ⟨(valid.removed rootRole below lookup).1, ?_, ?_, ?_, ?_, ?_, ?_, ?_, ?_, ?_, ?_⟩
  · rw [Memory.write_npages, Memory.release_npages, teardown.npages]
  · rw [Memory.write_bootPml4e, Memory.release_bootPml4e, teardown.bootPml4e]
  · exact fun other kept => Layout.release_keeps data other (teardown.keeps other kept)
  · intro other i kept
    rw [Memory.write_word, if_neg, Memory.release_word, teardown.kept other i kept]
    rintro ⟨rfl, -⟩
    rw [teardown.keeps _ kept] at role
    cases role
  · exact fun other root' path' role' => teardown.tables other root' path' ((roles _ _ _).mp role')
  · intro other root' path' different role'
    obtain ⟨role', words⟩ := teardown.others other root' path' different role'
    refine ⟨(roles _ _ _).mpr role', fun i => ?_⟩
    rw [Memory.write_word, if_neg, Memory.release_word, words i]
    rintro ⟨rfl, -⟩
    rw [role] at role'
    cases role'
    exact different rfl
  · exact teardown.clears.trans
      (((Memory.Clears.refl m').of_child (Memory.child_of_word (Memory.release_word m' page))).write _)
  · intro other changed
    rw [Memory.write_ppRef, Memory.release_ppRef] at changed
    split at changed
    · rename_i here
      rw [here]
      exact teardown.clears.refers ⟨slot.1, slot.2, valid.reached_of_role role, small, child⟩
    · exact teardown.counts other changed
  · intro tidy
    have accounts := teardown.accounts tidy
    refine ⟨?_, ?_⟩
    · intro other path' role'
      rcases accounts.table other path' role' with kept | freed
      · exact .inl ((roles _ _ _).mpr kept)
      · rw [Layout.release_role_of_ne]
        · exact .inr freed
        · rintro rfl
          rw [freed] at data
          cases data
    · intro other isData
      rcases accounts.data other isData with ⟨freed, zero⟩ | ⟨data', spare, alive⟩
      · rw [Layout.release_role_of_ne]
        · exact .inl ⟨freed, zero⟩
        · rintro rfl
          rw [freed] at data
          cases data
      · rw [Layout.release_extra, Memory.write_ppRef, Memory.release_ppRef]
        by_cases here : other = page
        · subst here
          have counted := (valid.refs.counted other data).2
          have positive : 0 < mappings m' g' other := by
            refine Counting.count_pos (mem_area.mpr ⟨(valid.tables.inside _ _ _ role).1, small⟩) ?_
            rw [leafTarget_of_role role user]
            exact child
          rw [if_pos rfl]
          by_cases one : m'.ppRef other = 1
          · rw [one] at counted
            change 1 = _ at counted
            refine .inl ⟨?_, by omega⟩
            rw [Layout.release, if_pos one, Layout.setRole_role, if_pos rfl]
          · refine .inr ⟨?_, spare, fun _ => (sub_one_eq_zero _).not.mpr one⟩
            rw [Layout.release, if_neg one, data]
        · rw [if_neg here, Layout.release_role_of_ne _ _ here]
          exact .inr ⟨data', spare, alive⟩
  · exact fun other path' member => (roles _ _ _).mpr (teardown.held other path' member)

/-- One leaf entry: it is unmapped, or nothing happens because the walk does not get through. -/
theorem Teardown.freeEntry {table i j t : Nat}
    (teardown : Teardown m g root held m' g') (member : (table, [0, i, j]) ∈ held)
    (rootHeld : (root, []) ∈ held) (hi : i < 4) (hj : j < 512) (ht : t < 512) :
    ∃ m'', Memory.freeEntry root table i j m' t = .ok m'' ∧ (∃ g'', Teardown m g root held m'' g'') ∧
      (m.Tidy root → ¬ Present (m''.word table t)) := by
  have valid := teardown.valid
  have role := teardown.held root [] rootHeld
  have tableRole := teardown.held table _ member
  unfold Memory.freeEntry
  split
  · rename_i present
    have address := pgAddr_toNat (p := i) (by omega) hj ht
    have below : pgAddr 0 i j t 0 < utop := by
      rw [BitVec.lt_def, address, utop_toNat]
      omega
    have top : pml4 (pgAddr 0 i j t 0) = 0 := by rw [pml4_eq, address]; omega
    have middle : pdpe (pgAddr 0 i j t 0) = i := by rw [pdpe_eq, address]; omega
    have last : pdx (pgAddr 0 i j t 0) = j := by rw [pdx_eq, address]; omega
    have leaf : ptx (pgAddr 0 i j t 0) = t := by rw [ptx_eq, address]; omega
    have found : m'.leafSlot root (pgAddr 0 i j t 0) = some (table, t) := by
      rw [valid.leafSlot_iff role (pml4_of_user below)]
      refine ⟨leaf.symm, ?_⟩
      rw [top, middle, last, Layout.space, if_neg (by simp)]
      exact tableRole
    rw [valid.pageRemove role below]
    cases visible : m'.visible root (pgAddr 0 i j t 0) with
    | false =>
      refine ⟨m', ?_, ⟨g', teardown⟩, ?_⟩
      · simp [Memory.lookup, visible]
      · intro tidy
        have child := teardown.clears _ _ _ (Memory.child_eq_some.mpr ⟨present, rfl⟩)
        obtain ⟨rfl, -⟩ := tidy.table table i j t _ (teardown.descend tableRole) (by omega) hj ht child
        rw [valid.visible_of_first role tableRole top] at visible
        cases visible
    | true =>
      have lookup := Memory.lookup_eq_some.mpr ⟨visible, found, present, rfl⟩
      rw [lookup]
      have after := teardown.unmap role below top lookup
      refine ⟨_, rfl, ⟨_, after⟩, fun _ => ?_⟩
      rw [Memory.write_word, if_pos ⟨rfl, rfl⟩]
      exact show ¬ Present 0 by decide
  · rename_i absent
    exact ⟨m', rfl, ⟨g', teardown⟩, fun _ => absent⟩

theorem Memory.Clears.absent {before after : Memory} (clears : before.Clears after) {page index : Nat}
    (absent : ¬ Present (before.word page index)) : ¬ Present (after.word page index) := by
  intro present
  have child := clears page index _ (Memory.child_eq_some.mpr ⟨present, rfl⟩)
  exact absent (Memory.child_eq_some.mp child).1

theorem absent_zero {m'' : Memory} {page index : Nat} (zero : m''.word page index = 0) :
    ¬ Present (m''.word page index) := by
  rw [zero]
  decide

theorem Teardown.freeTable {pgdir pdpt i j : Nat} (notBoot : root ≠ m.bootPml4e)
    (teardown : Teardown m g root [(pgdir, [0, i]), (pdpt, [0]), (root, [])] m' g') (hi : i < 4)
    (hj : j < 512) : ∃ m'', Memory.freeTable root pgdir i m' j = .ok m'' ∧
      (∃ g'', Teardown m g root [(pgdir, [0, i]), (pdpt, [0]), (root, [])] m'' g'') ∧
      (m.Tidy root → ¬ Present (m''.word pgdir j)) := by
  unfold Memory.freeTable
  split
  · rename_i present
    obtain ⟨table, below, kaddr, target⟩ :=
      teardown.child (List.mem_cons_self ..) (by simp) ⟨hj, by simp⟩ present
    rw [Fallible.bind_of_ok kaddr]
    have whole : ∃ middle, (List.range (ptx (~~~0))).foldlM (Memory.freeEntry root table i j) m' = .ok middle ∧
        (∃ g₁, Teardown m g root [(table, [0, i, j]), (pgdir, [0, i]), (pdpt, [0]), (root, [])] middle g₁) ∧
        ∀ t ∈ List.range (ptx (~~~0)), m.Tidy root → ¬ Present (middle.word table t) := by
      refine Fallible.foldlM_each (fun t (middle : Memory) => m.Tidy root → ¬ Present (middle.word table t)) ?_ ?_
        ⟨g', teardown.hold below⟩
      · rintro middle t member ⟨g₁, teardown₁⟩
        have bound := List.mem_range.mp member
        have limit := ptx_lt (~~~0)
        exact teardown₁.freeEntry (by simp) (by simp) hi hj (by omega)
      · exact fun _ _ _ _ ran absent tidy => (Memory.freeEntry_clears ran).absent (absent tidy)
    obtain ⟨middle, loop, ⟨g₁, teardown₁⟩, emptied⟩ := whole
    rw [Fallible.bind_of_ok loop]
    have tableRole := teardown₁.held table [0, i, j] (by simp)
    have bare : m.Tidy root → ∀ t, t < 512 → ¬ Present (middle.word table t) := by
      intro tidy t small left
      have child := teardown₁.clears _ _ _ (Memory.child_eq_some.mpr ⟨left, rfl⟩)
      obtain ⟨-, reached⟩ := tidy.table table i j t _ (teardown₁.descend tableRole) (by omega) hj small child
      exact emptied t (List.mem_range.mpr reached) tidy left
    obtain ⟨m'', done, g'', teardown'', zero⟩ :=
      teardown₁.release.cut notBoot (List.mem_cons_self ..) tableRole target bare (by
        intro other path' member inside
        simp only [List.mem_cons, Prod.mk.injEq, List.not_mem_nil, or_false] at member
        rcases member with ⟨-, rfl⟩ | ⟨-, rfl⟩ | ⟨-, rfl⟩ <;> simpa using inside.length_le)
    exact ⟨m'', done, ⟨g'', teardown''⟩, fun _ => absent_zero zero⟩
  · rename_i absent
    exact ⟨m', rfl, ⟨g', teardown⟩, fun _ => absent⟩

theorem Teardown.freeDirectory {pdpt i : Nat} (notBoot : root ≠ m.bootPml4e)
    (teardown : Teardown m g root [(pdpt, [0]), (root, [])] m' g') (hi : i < 4) :
    ∃ m'', Memory.freeDirectory root pdpt m' i = .ok m'' ∧
      (∃ g'', Teardown m g root [(pdpt, [0]), (root, [])] m'' g'') ∧
      (m.Tidy root → ¬ Present (m''.word pdpt i)) := by
  unfold Memory.freeDirectory
  split
  · rename_i present
    obtain ⟨pgdir, below, kaddr, -⟩ :=
      teardown.child (List.mem_cons_self ..) (by simp) ⟨by omega, by simp⟩ present
    rw [Fallible.bind_of_ok kaddr]
    have whole : ∃ middle, (List.range (if i = 3 then pdx utop else pdx 0xFFFFFFFF)).foldlM
          (Memory.freeTable root pgdir i) m' = .ok middle ∧
        (∃ g₁, Teardown m g root [(pgdir, [0, i]), (pdpt, [0]), (root, [])] middle g₁) ∧
        ∀ j ∈ List.range (Memory.dirLimit i), m.Tidy root → ¬ Present (middle.word pgdir j) := by
      refine Fallible.foldlM_each (fun j (middle : Memory) => m.Tidy root → ¬ Present (middle.word pgdir j)) ?_ ?_
        ⟨g', teardown.hold below⟩
      · rintro middle j member ⟨g₁, teardown₁⟩
        have bound : j < Memory.dirLimit i := List.mem_range.mp member
        have limit := Memory.dirLimit_lt i
        exact teardown₁.freeTable notBoot hi (by omega)
      · exact fun _ _ _ _ ran absent tidy => (Memory.freeTable_clears ran).absent (absent tidy)
    obtain ⟨middle, loop, ⟨g₁, teardown₁⟩, emptied⟩ := whole
    rw [Fallible.bind_of_ok loop]
    have pgdirRole := teardown₁.held pgdir [0, i] (by simp)
    obtain ⟨parent, parentRole, -, entry⟩ := teardown₁.valid.tables.up pgdir root [0] i pgdirRole
    have same : parent = pdpt := teardown₁.valid.tables.role_injective teardown₁.valid.small parentRole
      (teardown₁.held pdpt [0] (by simp))
    have small := teardown₁.valid.small
    have bound := (teardown₁.valid.tables.inside pgdir root _ pgdirRole).1
    have target : ppn (pteAddr (middle.word pdpt i)) = pgdir := by
      rw [← same, entry]
      exact entryPage_tableEntry pgdir (by omega)
    have bare : m.Tidy root → ∀ j, j < 512 → ¬ Present (middle.word pgdir j) := by
      intro tidy j small left
      have child := teardown₁.clears _ _ _ (Memory.child_eq_some.mpr ⟨left, rfl⟩)
      have reached := tidy.pgdir pgdir i j _ (teardown₁.descend pgdirRole) (by omega) small child
      exact emptied j (List.mem_range.mpr reached) tidy left
    obtain ⟨m'', done, g'', teardown'', zero⟩ :=
      teardown₁.release.cut notBoot (List.mem_cons_self ..) pgdirRole target bare (by
        intro other path' member inside
        simp only [List.mem_cons, Prod.mk.injEq, List.not_mem_nil, or_false] at member
        rcases member with ⟨-, rfl⟩ | ⟨-, rfl⟩ <;> simpa using inside.length_le)
    exact ⟨m'', done, ⟨g'', teardown''⟩, fun _ => absent_zero zero⟩
  · rename_i absent
    exact ⟨m', rfl, ⟨g', teardown⟩, fun _ => absent⟩

end Loops

theorem Teardown.entry {root : Nat} {held : List (Nat × List Nat)} {m' : Memory} {g' : Layout}
    (teardown : Teardown m g root held m' g') (valid : Consistent m g) (notBoot : root ≠ m.bootPml4e)
    {other : Nat} {va : Word} (role : g.role other = .table other []) (different : other ≠ root)
    (below : va < utop) : m'.entry other va = m.entry other va := by
  have apart : g.space m.bootPml4e other (pml4 va) ≠ root := by
    unfold Layout.space
    split
    · exact Ne.symm notBoot
    · exact different
  refine valid.entry_of_tree role (pml4_of_user below) ((teardown.others _ _ _ different role).2 _) ?_
  exact fun table path i inside => (teardown.others table _ path apart inside).2 i

theorem Consistent.child_window (valid : Consistent m g) {root : Nat} (role : g.role root = .table root [])
    (notBoot : root ≠ m.bootPml4e) : m.child root 2 = some root := by
  have small := valid.small
  have bound := (valid.tables.inside root root _ role).1
  have aligned := page2pa_aligned root
  have entry : m.word root 2 = page2pa root ||| 5 := by
    rw [valid.tables.window root role, Memory.windowEntry, if_neg notBoot, BitVec.or_assoc]
    rfl
  have value : (m.word root 2).toNat = root * 4096 + 5 := by
    rw [entry, or_flags_toNat _ _ aligned (by decide), page2pa_toNat]
    change root * 4096 % 2^64 + 5 = _
    omega
  rw [Memory.child_eq_some, present_iff, entryPage_eq, value]
  omega

/-- A tidy address space has tables of its own below entry 0 of the PML4 only. -/
theorem Consistent.tidy_top (valid : Consistent m g) {root : Nat} (role : g.role root = .table root [])
    (notBoot : root ≠ m.bootPml4e) (tidy : m.Tidy root) {page i : Nat} (below : g.role page = .table root [i]) :
    i = 0 := by
  obtain ⟨parent, parentRole, owned, entry⟩ := valid.tables.up page root [] i below
  have same : parent = root := valid.tables.role_injective valid.small parentRole role
  have small := valid.small
  have bound := (valid.tables.inside page root _ below).1
  have child : m.child root i = some page := by
    rw [← same, Memory.child_eq_some, entry]
    exact ⟨present_tableEntry page, entryPage_tableEntry page (by omega)⟩
  by_contra first
  have shared := tidy.top i page owned.1 first (owned.2 rfl).1 child
  have bootOwned : g.Owned m.bootPml4e [] i :=
    ⟨owned.1, fun _ => ⟨(owned.2 rfl).1, fun _ => valid.tables.shares_boot⟩⟩
  have theirs := valid.child_role valid.tables.boot (by simp) bootOwned shared
  rw [below] at theirs
  cases theirs
  exact notBoot rfl

/-- An address space whose PML4 has entry 0 is taken apart without harm to the others. -/
theorem Consistent.freeSpace (valid : Consistent m g) {root : Nat} (role : g.role root = .table root [])
    (notBoot : root ≠ m.bootPml4e) (present : Present (m.word root 0)) :
    ∃ m' g', m.freeSpace root (page2pa root) = .ok m' ∧ Teardown m g root [] m' g' ∧
      ∀ page path, g'.role page ≠ .table root path := by
  have start := Teardown.start valid role
  obtain ⟨pdpt, below, kaddr, -⟩ :=
    start.child (List.mem_cons_self ..) (by simp) ⟨by omega, by simp⟩ present
  have whole : ∃ middle, (List.range 4).foldlM (Memory.freeDirectory root pdpt) m = .ok middle ∧
      (∃ g₁, Teardown m g root [(pdpt, [0]), (root, [])] middle g₁) ∧
      ∀ i ∈ List.range 4, m.Tidy root → ¬ Present (middle.word pdpt i) := by
    refine Fallible.foldlM_each (fun i (middle : Memory) => m.Tidy root → ¬ Present (middle.word pdpt i)) ?_ ?_
      ⟨g, start.hold below⟩
    · rintro middle i member ⟨g₁, teardown₁⟩
      exact teardown₁.freeDirectory notBoot (List.mem_range.mp member)
    · exact fun _ _ _ _ ran absent tidy => (Memory.freeDirectory_clears ran).absent (absent tidy)
  obtain ⟨middle, loop, ⟨g₁, teardown₁⟩, emptied⟩ := whole
  have valid₁ := teardown₁.valid
  have small := valid₁.small
  have pdptRole := teardown₁.held pdpt [0] (by simp)
  have rootRole := teardown₁.held root [] (by simp)
  have notBoot₁ : root ≠ middle.bootPml4e := by rwa [teardown₁.bootPml4e]
  obtain ⟨parent, parentRole, -, entry⟩ := valid₁.tables.up pdpt root [] 0 pdptRole
  have same : parent = root := valid₁.tables.role_injective small parentRole rootRole
  rw [same] at entry
  have pdptBound := (valid₁.tables.inside pdpt root _ pdptRole).1
  have rootBound := (valid₁.tables.inside root root _ rootRole).1
  have target : ppn (pteAddr (middle.word root 0)) = pdpt := by
    rw [entry]
    exact entryPage_tableEntry pdpt (by omega)
  have pdptPage : middle.pa2page (pteAddr (middle.word root 0)) = .ok pdpt := by
    rw [Memory.pa2page, target, if_neg (by omega)]
  have refers : middle.RefersTo root pdpt := by
    refine ⟨root, 0, middle.reached_root root, by omega, Memory.child_eq_some.mpr ⟨?_, target⟩⟩
    rw [entry]
    exact present_tableEntry pdpt
  have bare : m.Tidy root → ∀ i, g₁.Owned root [0] i → ¬ Present (middle.word pdpt i) := by
    intro tidy i owned left
    have child := teardown₁.clears _ _ _ (Memory.child_eq_some.mpr ⟨left, rfl⟩)
    have reached := tidy.pdpt pdpt i _ (teardown₁.descend pdptRole) owned.1 child
    exact emptied i (List.mem_range.mpr reached) tidy left
  -- the PDPT is given up before its entry is cleared; memory is the same as the other way round
  have detaches := valid₁.detaches_child rootRole notBoot₁ pdptRole
  obtain ⟨g₂, -, teardown₂, -⟩ := teardown₁.release.detach detaches ((Memory.Clears.refl middle).write _) refers bare
    (by
      intro other path' member inside
      simp only [List.mem_cons, Prod.mk.injEq, List.not_mem_nil, or_false] at member
      rw [member.2] at inside
      simpa using inside.length_le)
  have decref : middle.pageDecref (some pdpt) = .ok (middle.release pdpt) :=
    Memory.pageDecref_release (valid₁.freeList.unlinked pdpt (by simp [pdptRole]))
  have valid₂ := teardown₂.valid
  have rootRole₂ := teardown₂.held root [] (by simp)
  have notBoot₂ : root ≠ ((middle.write (root, 0) 0).release pdpt).bootPml4e := by rwa [teardown₂.bootPml4e]
  have refers₂ : ((middle.write (root, 0) 0).release pdpt).RefersTo root root := by
    exact ⟨root, 2, Memory.reached_root _ root, by omega, valid₂.child_window rootRole₂ notBoot₂⟩
  have bare₂ : m.Tidy root → ∀ i, g₂.Owned root [] i →
      ¬ Present (((middle.write (root, 0) 0).release pdpt).word root i) := by
    intro tidy i owned left
    by_cases first : i = 0
    · rw [first, Memory.release_word, Memory.write_word, if_pos ⟨rfl, rfl⟩] at left
      exact absurd left (by decide)
    · have child := Memory.child_eq_some.mpr ⟨left, rfl⟩
      have own := teardown₂.tables _ _ _ (valid₂.child_role rootRole₂ (by simp) owned child)
      exact first (valid.tidy_top role notBoot tidy own)
  have rootPage : ((middle.write (root, 0) 0).release pdpt).pa2page (page2pa root) = .ok root := by
    have target : ppn (page2pa root) = root := by
      rw [ppn_eq, page2pa_toNat]
      omega
    rw [Memory.pa2page, target, if_neg]
    simpa using rootBound
  obtain ⟨g₃, decref₃, teardown₃, gone⟩ :=
    teardown₂.release.detach (detaches_root rootRole₂ notBoot₂) (.refl _) refers₂ bare₂ (by simp)
  refine ⟨_, g₃, ?_, teardown₃, fun page path role => gone page path role List.nil_prefix⟩
  rw [Memory.freeSpace, Fallible.bind_of_ok kaddr, Fallible.bind_of_ok loop, Fallible.bind_of_ok pdptPage,
    Fallible.bind_of_ok decref]
  simp only [Memory.release_write]
  rw [Fallible.bind_of_ok rootPage, decref₃]

end Jos
