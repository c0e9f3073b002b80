import JosKernel.Pmap.Layout

namespace Jos

variable {m m' : Memory} {g g' : Layout}

-- What each part of the invariant depends on

theorem FreeList.congr (list : FreeList m g) (links : m'.ppLink = m.ppLink)
    (head : m'.pageFreeList = m.pageFreeList) (size : m'.npages = m.npages)
    (counts : ∀ page, g.role page = .free → m'.ppRef page = m.ppRef page)
    (same : ∀ page, g'.role page = .free ↔ g.role page = .free) : FreeList m' g' where
  chain := by
    obtain ⟨nodes, chain, members⟩ := list.chain
    rw [links, head]
    exact ⟨nodes, chain, fun page => (members page).trans (same page).symm⟩
  unused := by
    intro page free
    have free := (same page).mp free
    rw [size, counts page free]
    exact list.unused page free
  unlinked := by
    intro page used
    rw [links]
    exact list.unlinked page (mt (same page).mpr used)

theorem Tables.congr (tables : Tables m g) (size : m'.npages = m.npages)
    (bootSame : m'.bootPml4e = m.bootPml4e) (shares : g'.shares = g.shares)
    (words : ∀ page root path, g.role page = .table root path → m'.word page = m.word page)
    (same : ∀ page root path, g'.role page = .table root path ↔ g.role page = .table root path) :
    Tables m' g' where
  inside := by
    intro page root path role
    rw [size]
    exact tables.inside page root path ((same _ _ _).mp role)
  top := fun page root role => tables.top page root ((same _ _ _).mp role)
  down := by
    intro page root path index role short owned present
    have role := (same _ _ _).mp role
    rw [Layout.Owned, shares] at owned
    rw [words page root path role] at present ⊢
    obtain ⟨next, entry, below⟩ := tables.down page root path index role short owned present
    exact ⟨next, entry, (same _ _ _).mpr below⟩
  up := by
    intro page root path index role
    obtain ⟨parent, above, owned, entry⟩ := tables.up page root path index ((same _ _ _).mp role)
    refine ⟨parent, (same _ _ _).mpr above, ?_, ?_⟩
    · rwa [Layout.Owned, shares]
    · rw [words parent root path above, entry]
  shared := by
    intro root sharing
    rw [shares] at sharing
    obtain ⟨role, other, present, entry⟩ := tables.shared root sharing
    rw [bootSame, words _ _ _ tables.boot, words _ _ _ role]
    exact ⟨(same _ _ _).mpr role, other, present, entry⟩
  window := by
    intro root role
    have role := (same _ _ _).mp role
    rw [words root root [] role, Memory.windowEntry, bootSame]
    exact tables.window root role
  boot := by
    rw [bootSame]
    exact (same _ _ _).mpr tables.boot

theorem Tables.writeLeaf (tables : Tables m g) {table root index : Nat} {path : List Nat} {value : Word}
    (role : g.role table = .table root path) (lowest : path.length = 3) :
    Tables (m.write (table, index) value) g := by
  have higher : ∀ page root' path', g.role page = .table root' path' → path'.length < 3 →
      (m.write (table, index) value).word page = m.word page := by
    intro page root' path' role' short
    funext i
    rw [Memory.write_word, if_neg]
    rintro ⟨rfl, -⟩
    rw [role] at role'
    cases role'
    omega
  exact {
    inside := tables.inside
    top := tables.top
    down := by
      intro page root' path' i role' short owned present
      rw [higher page root' path' role' short] at present ⊢
      exact tables.down page root' path' i role' short owned present
    up := by
      intro page root' path' i role'
      have bound := (tables.inside page root' _ role').2
      obtain ⟨parent, above, owned, entry⟩ := tables.up page root' path' i role'
      refine ⟨parent, above, owned, ?_⟩
      rw [higher parent root' path' above (by simp at bound; omega), entry]
    shared := by
      intro root' sharing
      obtain ⟨role', other, present, entry⟩ := tables.shared root' sharing
      rw [Memory.write_bootPml4e, higher _ _ _ tables.boot (by simp), higher _ _ _ role' (by simp)]
      exact ⟨role', other, present, entry⟩
    window := by
      intro root' role'
      rw [higher root' root' [] role' (by simp)]
      exact tables.window root' role'
    boot := tables.boot }

theorem leafTarget_congr {slot : Slot}
    (words : ∀ root path, g.role slot.1 = .table root path → m'.word slot.1 slot.2 = m.word slot.1 slot.2)
    (same : ∀ root path, g'.role slot.1 = .table root path ↔ g.role slot.1 = .table root path) :
    leafTarget m' g' slot = leafTarget m g slot := by
  unfold leafTarget
  cases role : g.role slot.1 with
  | table root path =>
    rw [(same root path).mpr role]
    simp only
    rw [Memory.child_congr (words root path role)]
  | _ =>
    cases role' : g'.role slot.1 with
    | table root path =>
      rw [(same root path).mp role'] at role
      cases role
    | _ => rfl

theorem mappings_congr {page : Nat} (size : m'.npages = m.npages)
    (words : ∀ page root path, g.role page = .table root path → m'.word page = m.word page)
    (same : ∀ page root path, g'.role page = .table root path ↔ g.role page = .table root path) :
    mappings m' g' page = mappings m g page := by
  unfold mappings area
  rw [size]
  apply Counting.count_congr
  intro slot _
  have here : leafTarget m' g' slot = leafTarget m g slot :=
    leafTarget_congr (fun root path role => by rw [words slot.1 root path role]) (same slot.1)
  rw [here]

theorem leafTarget_eq_some {slot : Slot} {page : Nat} (found : leafTarget m g slot = some page) :
    ∃ root path, g.role slot.1 = .table root path ∧ userPath path = true ∧
      Present (m.read slot) ∧ entryPage (m.read slot) = page := by
  unfold leafTarget at found
  split at found
  · rename_i root path role
    split at found
    · rename_i user
      obtain ⟨present, entry⟩ := Memory.child_eq_some.mp found
      exact ⟨root, path, role, user, present, entry⟩
    · cases found
  · cases found

theorem leafTarget_of_role {table index root : Nat} {path : List Nat}
    (role : g.role table = .table root path) (user : userPath path = true) :
    leafTarget m g (table, index) = m.child table index := by
  unfold leafTarget
  rw [role]
  simp only [user, if_true]

theorem mem_area {slot : Slot} : slot ∈ area m ↔ slot.1 < m.npages ∧ slot.2 < 512 := by
  rw [area, Finset.mem_product, Finset.mem_range, Finset.mem_range]

theorem Refs.mappings_eq_zero (refs : Refs m g) {page : Nat} (other : g.role page ≠ .data) :
    mappings m g page = 0 := by
  rw [mappings, Counting.count_eq_zero]
  intro slot member found
  obtain ⟨root, path, role, user, present, rfl⟩ := leafTarget_eq_some found
  exact other (refs.leaf slot.1 root path slot.2 role user (mem_area.mp member).2 present)

theorem Consistent.congr_word (valid : Consistent m g) (size : m'.npages = m.npages)
    (bootSame : m'.bootPml4e = m.bootPml4e) (links : m'.ppLink = m.ppLink)
    (head : m'.pageFreeList = m.pageFreeList) (counts : m'.ppRef = m.ppRef)
    (words : ∀ page root path, g.role page = .table root path → m'.word page = m.word page) :
    Consistent m' g where
  small := by
    rw [size]
    exact valid.small
  freeList := valid.freeList.congr links head size (by simp [counts]) (by simp)
  tables := valid.tables.congr size bootSame rfl words (by simp)
  refs := {
    leaf := by
      intro table root path index role user small present
      rw [words table root path role] at present ⊢
      exact valid.refs.leaf table root path index role user small present
    counted := by
      intro page data
      rw [size, counts, mappings_congr size words (by simp)]
      exact valid.refs.counted page data
    table := by
      rw [counts]
      exact valid.refs.table }

theorem Consistent.clearPage (valid : Consistent m g) {page : Nat}
    (other : ∀ root path, g.role page ≠ .table root path) : Consistent (m.clearPage page) g := by
  refine valid.congr_word rfl rfl rfl rfl rfl ?_
  intro table root path role
  funext index
  rw [Memory.clearPage_word, if_neg]
  rintro rfl
  exact other root path role

-- Pages that move between the free list and data

theorem setRole_table_iff {page : Nat} {role : Role} (before : ∀ root path, g.role page ≠ .table root path)
    (after : ∀ root path, role ≠ .table root path) (other root : Nat) (path : List Nat) :
    (g.setRole page role).role other = .table root path ↔ g.role other = .table root path := by
  rw [Layout.setRole_role]
  split
  · rename_i here
    subst here
    exact iff_of_false (after root path) (before root path)
  · rfl

theorem Consistent.takePage (valid : Consistent m g) {page : Nat} (head : m.pageFreeList = some page) :
    g.role page = .free ∧
      Consistent ((m.setFreeList (m.ppLink page)).setLink page none)
        ((g.setRole page .data).setExtra page 0) := by
  obtain ⟨nodes, chain, members⟩ := valid.freeList.chain
  rw [head] at chain
  obtain ⟨rest, rfl, tail⟩ := Linked.chain_some chain
  have free : g.role page = .free := (members page).mp (by simp)
  obtain ⟨first, -⟩ := List.nodup_cons.mp (Linked.chain_nodup chain)
  have tables : ∀ other root path, (g.setRole page .data).role other = .table root path ↔
      g.role other = .table root path :=
    setRole_table_iff (by simp [free]) (by simp)
  refine ⟨free, ?_⟩
  exact {
    small := valid.small
    freeList := {
      chain := by
        refine ⟨rest, ?_, ?_⟩
        · refine Linked.chain_congr ?_ tail
          intro node member
          rw [Memory.setLink_ppLink, if_neg (by rintro rfl; exact first member)]
          rfl
        · intro other
          rw [Layout.setExtra_role, Layout.setRole_role]
          split
          · rename_i here
            simp [here, first]
          · rename_i different
            simpa [different] using members other
      unused := by
        intro other free'
        rw [Layout.setExtra_role, Layout.setRole_role] at free'
        split at free'
        · cases free'
        · exact valid.freeList.unused other free'
      unlinked := by
        intro other used
        rw [Memory.setLink_ppLink]
        split
        · rfl
        · rename_i different
          rw [Layout.setExtra_role, Layout.setRole_role, if_neg different] at used
          exact valid.freeList.unlinked other used }
    tables := valid.tables.congr rfl rfl rfl (fun _ _ _ _ => rfl) tables
    refs := {
      leaf := by
        intro table root path index role user small present
        have target := valid.refs.leaf table root path index ((tables _ _ _).mp role) user small present
        rw [Layout.setExtra_role, Layout.setRole_role]
        split
        · rfl
        · exact target
      counted := by
        intro other data
        have same : mappings ((m.setFreeList (m.ppLink page)).setLink page none)
            ((g.setRole page .data).setExtra page 0) other = mappings m g other :=
          mappings_congr rfl (fun _ _ _ _ => rfl) tables
        rw [same, Layout.setExtra_extra]
        rw [Layout.setExtra_role, Layout.setRole_role] at data
        split at data
        · rename_i here
          subst here
          obtain ⟨bound, zero⟩ := valid.freeList.unused other free
          rw [valid.refs.mappings_eq_zero (by simp [free]), if_pos rfl]
          exact ⟨bound, congrArg BitVec.toNat zero⟩
        · rename_i different
          rw [if_neg different]
          exact valid.refs.counted other data
      table := fun other root path role => valid.refs.table other root path ((tables _ _ _).mp role) } }

theorem Consistent.putPage (valid : Consistent m g) {page : Nat} (data : g.role page = .data)
    (zero : m.ppRef page = 0) :
    Consistent ((m.setLink page m.pageFreeList).setFreeList (some page)) (g.setRole page .free) := by
  obtain ⟨nodes, chain, members⟩ := valid.freeList.chain
  have fresh : page ∉ nodes := by
    rw [members, data]
    simp
  have tables : ∀ other root path, (g.setRole page .free).role other = .table root path ↔
      g.role other = .table root path :=
    setRole_table_iff (by simp [data]) (by simp)
  have unmapped : mappings m g page = 0 := by
    have counted := (valid.refs.counted page data).2
    rw [zero] at counted
    exact (Nat.add_eq_zero_iff.mp counted.symm).1
  exact {
    small := valid.small
    freeList := {
      chain := by
        refine ⟨page :: nodes, ?_, ?_⟩
        · refine Linked.chain_push ?_ ?_ chain
          · rw [Memory.setFreeList_ppLink, Memory.setLink_ppLink, if_pos rfl]
          · intro other member
            rw [Memory.setFreeList_ppLink, Memory.setLink_ppLink, if_neg (by rintro rfl; exact fresh member)]
        · intro other
          rw [List.mem_cons, Layout.setRole_role]
          split
          · rename_i here
            simp [here]
          · rename_i different
            simpa [different] using members other
      unused := by
        intro other free
        rw [Layout.setRole_role] at free
        split at free
        · rename_i here
          subst here
          exact ⟨(valid.refs.counted other data).1, zero⟩
        · exact valid.freeList.unused other free
      unlinked := by
        intro other used
        rw [Layout.setRole_role] at used
        rw [Memory.setFreeList_ppLink, Memory.setLink_ppLink]
        split at used
        · exact absurd rfl used
        · rename_i different
          rw [if_neg different]
          exact valid.freeList.unlinked other used }
    tables := valid.tables.congr rfl rfl rfl (fun _ _ _ _ => rfl) tables
    refs := {
      leaf := by
        intro table root path index role user small present
        have role := (tables _ _ _).mp role
        have target := valid.refs.leaf table root path index role user small present
        rw [Layout.setRole_role, if_neg]
        · exact target
        · intro here
          rw [mappings, Counting.count_eq_zero] at unmapped
          refine unmapped (table, index) (mem_area.mpr ⟨(valid.tables.inside _ _ _ role).1, small⟩) ?_
          rw [leafTarget_of_role role user]
          exact Memory.child_eq_some.mpr ⟨present, here⟩
      counted := by
        intro other counted
        rw [Layout.setRole_role] at counted
        split at counted
        · cases counted
        · have same : mappings ((m.setLink page m.pageFreeList).setFreeList (some page))
              (g.setRole page .free) other = mappings m g other :=
            mappings_congr rfl (fun _ _ _ _ => rfl) tables
          rw [same]
          exact valid.refs.counted other counted
      table := fun other root path role => valid.refs.table other root path ((tables _ _ _).mp role) } }

theorem Consistent.setRef (valid : Consistent m g) {page extra : Nat} {count : BitVec 16}
    (data : g.role page = .data) (balance : count.toNat = mappings m g page + extra) :
    Consistent (m.setRef page count) (g.setExtra page extra) where
  small := valid.small
  freeList := by
    refine valid.freeList.congr rfl rfl rfl ?_ (fun _ => Iff.rfl)
    intro other free
    rw [Memory.setRef_ppRef, if_neg]
    rintro rfl
    rw [data] at free
    cases free
  tables := valid.tables.congr rfl rfl rfl (fun _ _ _ _ => rfl) (fun _ _ _ => Iff.rfl)
  refs := {
    leaf := valid.refs.leaf
    counted := by
      intro other counted
      have same : mappings (m.setRef page count) (g.setExtra page extra) other = mappings m g other :=
        mappings_congr rfl (fun _ _ _ _ => rfl) (fun _ _ _ => Iff.rfl)
      rw [same, Memory.setRef_ppRef, Layout.setExtra_extra]
      split
      · rename_i here
        subst here
        exact ⟨(valid.refs.counted other data).1, balance⟩
      · exact valid.refs.counted other counted
    table := by
      intro other root path role
      rw [Memory.setRef_ppRef, if_neg]
      · exact valid.refs.table other root path role
      · rintro rfl
        rw [Layout.setExtra_role, data] at role
        cases role }

-- Leaf entries

theorem mappings_write {slot : Slot} (inArea : slot ∈ area m) (g : Layout) (value : Word) (page : Nat) :
    mappings (m.write slot value) g page + (if leafTarget m g slot = some page then 1 else 0) =
      mappings m g page + (if leafTarget (m.write slot value) g slot = some page then 1 else 0) := by
  refine Counting.count_set inArea ?_ page
  intro other different
  refine leafTarget_congr ?_ (fun _ _ => Iff.rfl)
  intro root path _
  rw [Memory.write_word, if_neg]
  rintro ⟨first, second⟩
  exact different (Prod.ext first second)

theorem leafTarget_write {table index root : Nat} {path : List Nat} {value : Word}
    (role : g.role table = .table root path) (user : userPath path = true) :
    leafTarget (m.write (table, index) value) g (table, index) =
      if Present value then some (entryPage value) else none := by
  have here : (m.write (table, index) value).word table index = value := if_pos ⟨rfl, rfl⟩
  rw [leafTarget_of_role role user, Memory.child, here]

theorem leafTarget_static {table index root : Nat} {path : List Nat}
    (role : g.role table = .table root path) (other : userPath path = false) :
    leafTarget m g (table, index) = none := by
  unfold leafTarget
  rw [role]
  simp [other]

/-- A leaf entry may change if the balance of the pages it mapped and maps is kept. -/
theorem Consistent.writeLeaf (valid : Consistent m g) {table index root : Nat} {path : List Nat}
    {value : Word} {extra : Nat → Nat} (role : g.role table = .table root path) (lowest : path.length = 3)
    (target : userPath path = true → Present value → g.role (entryPage value) = .data)
    (balance : ∀ page, g.role page = .data →
      mappings (m.write (table, index) value) g page + extra page = mappings m g page + g.extra page) :
    Consistent (m.write (table, index) value) { g with extra := extra } where
  small := valid.small
  freeList := valid.freeList.congr rfl rfl rfl (fun _ _ => rfl) (fun _ => Iff.rfl)
  tables := (valid.tables.writeLeaf role lowest).congr rfl rfl rfl (fun _ _ _ _ => rfl)
    (fun _ _ _ => Iff.rfl)
  refs := {
    leaf := by
      intro table' root' path' index' role' user' small' present
      rw [Memory.write_word] at present ⊢
      split at present
      · rename_i here
        obtain ⟨rfl, rfl⟩ := here
        have same := role'.symm.trans role
        cases same
        rw [if_pos ⟨rfl, rfl⟩]
        exact target user' present
      · rename_i other
        rw [if_neg other]
        exact valid.refs.leaf table' root' path' index' role' user' small' present
    counted := by
      intro page data
      obtain ⟨bound, counted⟩ := valid.refs.counted page data
      exact ⟨bound, counted.trans (balance page data).symm⟩
    table := valid.refs.table }

theorem Consistent.writeStatic (valid : Consistent m g) {table index root : Nat} {path : List Nat}
    {value : Word} (role : g.role table = .table root path) (lowest : path.length = 3)
    (static : userPath path = false) (small : index < 512) : Consistent (m.write (table, index) value) g := by
  refine valid.writeLeaf role lowest (fun user => by rw [static] at user; cases user) ?_
  intro page data
  have inArea : (table, index) ∈ area m := mem_area.mpr ⟨(valid.tables.inside _ _ _ role).1, small⟩
  have moved := mappings_write inArea g value page
  simp only [leafTarget_static role static, reduceCtorEq, if_false, Nat.add_zero] at moved
  rw [moved]

/-- Clearing a leaf entry leaves the page it mapped with one reference too many. -/
theorem Consistent.clearLeaf (valid : Consistent m g) {table index root : Nat} {path : List Nat}
    (role : g.role table = .table root path) (user : userPath path = true) (small : index < 512)
    (present : Present (m.word table index)) :
    mappings (m.write (table, index) 0) g (entryPage (m.word table index)) + 1 =
        mappings m g (entryPage (m.word table index)) ∧
      Consistent (m.write (table, index) 0) (g.setExtra (entryPage (m.word table index))
        (g.extra (entryPage (m.word table index)) + 1)) := by
  have inArea : (table, index) ∈ area m := mem_area.mpr ⟨(valid.tables.inside _ _ _ role).1, small⟩
  have before : leafTarget m g (table, index) = some (entryPage (m.word table index)) := by
    rw [leafTarget_of_role role user]
    exact Memory.child_eq_some.mpr ⟨present, rfl⟩
  have absent : ¬ Present 0 := by decide
  have moved : ∀ page, mappings (m.write (table, index) 0) g page +
      (if entryPage (m.word table index) = page then 1 else 0) = mappings m g page := by
    intro page
    have moved := mappings_write inArea g 0 page
    rw [leafTarget_write role user, before, if_neg absent] at moved
    simpa using moved
  refine ⟨by simpa using moved (entryPage (m.word table index)), ?_⟩
  refine valid.writeLeaf role (userPath_length user) (fun _ present => absurd present absent) ?_
  intro page _
  have moved := moved page
  split at moved
  · rename_i here
    rw [if_pos here.symm, ← here]
    rw [← here] at moved
    omega
  · rename_i different
    rw [if_neg (Ne.symm different)]
    omega

theorem Consistent.setLeaf (valid : Consistent m g) {table index root : Nat} {path : List Nat}
    {value : Word} {extra : Nat} (role : g.role table = .table root path) (user : userPath path = true)
    (small : index < 512) (vacant : ¬ Present (m.word table index)) (present : Present value)
    (data : g.role (entryPage value) = .data) (spare : g.extra (entryPage value) = extra + 1) :
    Consistent (m.write (table, index) value) (g.setExtra (entryPage value) extra) := by
  have inArea : (table, index) ∈ area m := mem_area.mpr ⟨(valid.tables.inside _ _ _ role).1, small⟩
  have before : leafTarget m g (table, index) = none := by
    rw [leafTarget_of_role role user]
    exact Memory.child_eq_none.mpr vacant
  refine valid.writeLeaf role (userPath_length user) (fun _ _ => data) ?_
  intro page _
  have moved := mappings_write inArea g value page
  rw [leafTarget_write role user, before, if_pos present] at moved
  simp only [reduceCtorEq, if_false, Nat.add_zero, Option.some.injEq] at moved
  split at moved
  · rename_i here
    rw [if_pos here.symm]
    rw [here] at spare
    omega
  · rename_i different
    rw [if_neg (Ne.symm different)]
    omega

end Jos
