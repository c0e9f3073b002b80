import JosKernel.Pmap.Boot
import JosKernel.Pmap.PageTree
import JosKernel.Pmap.Unmapping

namespace Jos

-- Walks that create

def Memory.createPath (m : Memory) (node : Nat) : List Nat → Except Stop (Option Nat × Memory)
  | [] => .ok (some node, m)
  | index :: path => do
    let (next, m) ← m.nextTable (node, index) true
    match next with
    | none => .ok (none, m)
    | some next => m.createPath next path

def Memory.reflag (m : Memory) (root : Nat) (va : Word) : Memory :=
  (m.child root (pml4 va)).elim m fun pdpt => m.refresh (pdpt, pdpe va)

variable {m m' m'' : Memory} {root node : Nat} {free rest path base : List Nat} {va : Word}

theorem Memory.child_reflag : (m.reflag root va).child = m.child := by
  rw [reflag]
  cases m.child root (pml4 va) with
  | none => rfl
  | some pdpt => exact child_refresh _ _

theorem Memory.reflag_of_absent (absent : m.child root (pml4 va) = none) : m.reflag root va = m := by
  rw [reflag, absent, Option.elim_none]

/-- Going down a path fails if fewer pages are free than tables are missing, and then takes all of
    them. -/
structure Creates (m : Memory) (root node : Nat) (free base path : List Nat) (result : Option Nat)
    (m' : Memory) (rest : List Nat) : Prop where
  expands : Expands m root m' rest
  reached : ∀ table, result = some table → Radix.descend m'.child root (base ++ path) = some table
  failed : result = none ↔ free.length < Radix.missing m.child node path
  used : result = none → rest = []
  nothing : free = [] → m' = m

namespace PageTree

theorem createPath (tree : PageTree m root free) (reached : Radix.descend m.child root base = some node)
    (within : Inside (base ++ path)) :
    ∃ result m' rest, m.createPath node path = .ok (result, m') ∧
      Creates m root node free base path result m' rest := by
  induction path generalizing m node base free with
  | nil =>
    refine ⟨some node, m, free, rfl, tree.refl, ?_, by simp [Radix.missing], by simp, fun _ => rfl⟩
    rintro _ ⟨⟩
    rwa [List.append_nil]
  | cons index path ih =>
    have split : base ++ index :: path = (base ++ [index]) ++ path := by simp
    have within' : Inside ((base ++ [index]) ++ path) := split ▸ within
    rcases tree.nextTable within'.front reached with
      ⟨next, found, step⟩ | ⟨absent, ⟨rfl, step⟩ | ⟨page, rest, rfl, step⟩⟩
    · have below : Radix.descend m.child root (base ++ [index]) = some next := by
        rw [Radix.descend_snoc, reached, Option.bind_some, found]
      obtain ⟨result, m', rest, done, creates⟩ := ih tree below within'
      refine ⟨result, m', rest, ?_, creates.expands, ?_, ?_, creates.used, creates.nothing⟩
      · rw [Memory.createPath, step]
        exact done
      · rw [split]
        exact creates.reached
      · rw [Radix.missing_cons_some found]
        exact creates.failed
    · refine ⟨none, m, [], ?_, tree.refl, by simp, ?_, fun _ => rfl, fun _ => rfl⟩
      · rw [Memory.createPath, step]
        rfl
      · rw [Radix.missing_cons_none absent]
        simp
    · have expands := tree.expands within'.front reached absent
      have grafts := tree.grafts within'.front reached absent
      have below : Radix.descend (m.expand page (node, index)).child root (base ++ [index]) = some page := by
        rw [grafts.descend_eq (fun _ _ inside => inside.front) within'.front, if_pos rfl]
      obtain ⟨result, m', rest', done, creates⟩ := ih expands.tree below within'
      refine ⟨result, m', rest', ?_, expands.trans creates.expands, ?_, ?_, creates.used, by simp⟩
      · rw [Memory.createPath, step]
        exact done
      · rw [split]
        exact creates.reached
      · rw [creates.failed, Radix.missing_cons_none absent, Radix.missing_bare grafts.bare, List.length_cons]
        omega

theorem reflag (tree : PageTree m root free) (outside : pml4 va ≠ pml4 uvpt) :
    Expands m root (m.reflag root va) free := by
  rw [Memory.reflag]
  cases top : m.child root (pml4 va) with
  | none => exact tree.refl
  | some pdpt =>
    have middle : Inside ([pml4 va] ++ [pdpe va]) := inside_middle outside
    exact tree.refresh middle (by simp [top])

theorem walkPath (tree : PageTree m root free) (outside : pml4 va ≠ pml4 uvpt) :
    ∃ result m' rest, (m.reflag root va).createPath root [pml4 va, pdpe va, pdx va] = .ok (result, m') ∧
      Creates (m.reflag root va) root root free [] [pml4 va, pdpe va, pdx va] result m' rest :=
  (tree.reflag outside).tree.createPath (show Radix.descend _ root [] = some root from rfl) (inside_of_va outside)

/-- The walks for an address go down its path, and rewrite the flags of the PDPT entry if it is there. -/
theorem pml4eWalk (tree : PageTree m root free) (outside : pml4 va ≠ pml4 uvpt) :
    m.pml4eWalk root va true = ((m.reflag root va).createPath root [pml4 va, pdpe va, pdx va]).map fun result =>
      (result.1.map fun table => (table, ptx va), result.2) := by
  have top : Inside ([] ++ [pml4 va]) := inside_top outside
  have last : ∀ (m₁ : Memory) (pgdir : Nat), m₁.pgdirWalk pgdir va true = (m₁.createPath pgdir [pdx va]).map fun result =>
      (result.1.map fun table => (table, ptx va), result.2) := by
    intro m₁ pgdir
    rw [Memory.pgdirWalk, Memory.createPath]
    cases m₁.nextTable (pgdir, pdx va) true with
    | error stop => rfl
    | ok result =>
      obtain ⟨next, m₂⟩ := result
      cases next <;> rfl
  have second : ∀ (m₁ : Memory) (pdpt : Nat), m₁.pdpeWalk pdpt va true =
      ((m₁.refresh (pdpt, pdpe va)).createPath pdpt [pdpe va, pdx va]).map fun result =>
        (result.1.map fun table => (table, ptx va), result.2) := by
    intro m₁ pdpt
    rw [Memory.pdpeWalk, if_neg (by simp), Memory.createPath]
    cases (m₁.refresh (pdpt, pdpe va)).nextTable (pdpt, pdpe va) true with
    | error stop => rfl
    | ok result =>
      obtain ⟨next, m₂⟩ := result
      cases next with
      | none => rfl
      | some pgdir => exact last m₂ pgdir
  rw [Memory.pml4eWalk, if_neg (by simp), Memory.createPath]
  rcases tree.nextTable top rfl with
    ⟨pdpt, found, step⟩ | ⟨absent, ⟨rfl, step⟩ | ⟨page, rest, rfl, step⟩⟩
  · have reflagged : m.reflag root va = m.refresh (pdpt, pdpe va) := by rw [Memory.reflag, found, Option.elim_some]
    rcases (tree.reflag outside).tree.nextTable top rfl with ⟨pdpt', found', step'⟩ | ⟨absent, -⟩
    · rw [Memory.child_reflag, found] at found'
      cases found'
      rw [step, step', reflagged]
      exact second m pdpt
    · rw [Memory.child_reflag, found] at absent
      cases absent
  · rw [Memory.reflag_of_absent absent, step]
    rfl
  · have grafts := tree.grafts top rfl absent
    have fresh : (m.expand page (root, pml4 va)).refresh (page, pdpe va) = m.expand page (root, pml4 va) :=
      if_neg (Memory.child_eq_none.mp (grafts.bare (pdpe va)))
    have walk := second (m.expand page (root, pml4 va)) page
    rw [fresh] at walk
    rw [Memory.reflag_of_absent absent, step]
    exact walk

theorem reach (tree : PageTree m root free) (outside : pml4 va ≠ pml4 uvpt) : m.InReach root va := by
  have step : ∀ above index table, Inside (above ++ [index]) →
      Radix.descend m.child root (above ++ [index]) = some table → table < m.npages := by
    intro above index table inside reached
    rw [Radix.descend_snoc, Option.bind_eq_some_iff] at reached
    obtain ⟨parent, reached, found⟩ := reached
    obtain ⟨present, page⟩ := Memory.child_eq_some.mp found
    rw [← page]
    exact tree.entry above index parent inside reached present
  exact {
    pdpt := fun table => step [] (pml4 va) table (inside_top outside)
    pgdir := fun table => step [pml4 va] (pdpe va) table (inside_middle outside)
    table := fun table => step [pml4 va, pdpe va] (pdx va) table (inside_of_va outside) }

-- Walks that create nothing

theorem probe (tree : PageTree m root free) (outside : pml4 va ≠ pml4 uvpt) :
    Expands m root (m.probe root va) free := by
  rw [Memory.probe]
  split
  · exact tree.reflag outside
  · exact tree.refl

theorem lookup_probe (tree : PageTree m root free) (outside : pml4 va ≠ pml4 uvpt)
    {found : Option (Nat × Slot)} (looked : m.pageLookup root va = .ok (found, m')) : m' = m.probe root va := by
  rw [Memory.pageLookup, (tree.reach outside).pml4eWalk] at looked
  generalize (if m.visible root va then m.leafSlot root va else none) = slot at looked
  cases slot with
  | none =>
    cases looked
    rfl
  | some slot =>
    simp only [bind, Except.bind] at looked
    split at looked
    · obtain ⟨page, -, rest⟩ := Fallible.bind_ok.mp looked
      cases rest
      rfl
    · cases looked
      rfl

theorem lookup_reflag (tree : PageTree m root free) (outside : pml4 va ≠ pml4 uvpt) {found : Nat × Slot}
    (looked : m.pageLookup root va = .ok (some found, m')) : m' = m.reflag root va := by
  have probed := tree.lookup_probe outside looked
  by_cases shown : m.visible root va = true
  · rw [probed, Memory.probe, if_pos shown, Memory.reflag]
  · rw [Memory.pageLookup, (tree.reach outside).pml4eWalk, if_neg shown] at looked
    cases looked

end PageTree

/-- Whatever `page_remove` does to counts and lists, of the tables it changes flags and one entry at most. -/
theorem PageTree.pageRemove_word (tree : PageTree m root free) (outside : pml4 va ≠ pml4 uvpt) {slot : Slot}
    (found : m.leafSlot root va = some slot) (removed : m.pageRemove root va = .ok m') :
    m'.npages = m.npages ∧ ∀ value, (m'.write slot value).word = ((m.probe root va).write slot value).word := by
  rw [Memory.pageRemove, (tree.reach outside).pml4eWalk] at removed
  by_cases shown : m.visible root va = true
  · rw [if_pos shown, found] at removed
    simp only [bind, Except.bind] at removed
    obtain ⟨⟨page, middle⟩, look, rest⟩ := Fallible.bind_ok.mp removed
    have again := (tree.probe outside).tree.lookup_probe outside look
    rw [Memory.probe_probe] at again
    subst again
    obtain ⟨freed, decref, rest⟩ := Fallible.bind_ok.mp rest
    cases rest
    obtain ⟨words, size⟩ := Memory.pageDecref_word decref
    refine ⟨size.trans Memory.probe_npages, fun value => ?_⟩
    rw [Memory.write_write]
    funext page index
    rw [Memory.write_word, Memory.write_word, words]
  · rw [if_neg shown] at removed
    cases removed
    exact ⟨Memory.probe_npages, fun _ => rfl⟩

/-- A successful insertion walks, and then sets the entry that the walk found. -/
theorem PageTree.pageInsert_word (tree : PageTree m root free) (outside : pml4 va ≠ pml4 uvpt) {page : Nat}
    {perm : BitVec 32} (inserted : m.pageInsert root page va perm = .ok (true, m')) :
    ∃ table middle rest, Expands m root middle rest ∧
      Radix.descend middle.child root [pml4 va, pdpe va, pdx va] = some table ∧ m'.npages = m.npages ∧
      m'.word = (middle.write (table, ptx va) (leafEntry page perm)).word := by
  obtain ⟨⟨slot, middle⟩, walk, done⟩ := Fallible.bind_ok.mp inserted
  obtain ⟨result, m₁, rest, created, creates⟩ := tree.walkPath outside
  rw [tree.pml4eWalk outside, created] at walk
  cases walk
  cases result with
  | none => cases done
  | some table =>
    have reached := creates.reached table rfl
    have found : m₁.leafSlot root va = some (table, ptx va) := by
      rw [Memory.leafSlot, show [pml4 va, pdpe va, pdx va] = [] ++ [pml4 va, pdpe va, pdx va] from rfl, reached]
      rfl
    obtain ⟨removed, removal, done⟩ := Fallible.bind_ok.mp done
    cases done
    have walked : Expands m root m₁ rest := (tree.reflag outside).trans creates.expands
    split at removal
    · have probed := walked.tree.probe outside
      obtain ⟨size, word⟩ := walked.tree.pageRemove_word outside found removal
      refine ⟨table, m₁.probe root va, rest, walked.trans probed, ?_, ?_, ?_⟩
      · rw [Memory.child_probe]
        exact reached
      · exact size.trans walked.npages
      · rw [Memory.setRef_word, Memory.write_write]
        exact word _
    · cases removal
      refine ⟨table, m₁, rest, walked, reached, walked.npages, ?_⟩
      rw [Memory.setRef_word, Memory.write_write]

-- What the MMU sees of an insertion

def vpn (va : Word) : Nat := va.toNat / 4096 % 2^36

theorem vpn_eq_iff {va va' : Word} :
    vpn va = vpn va' ↔ pml4 va = pml4 va' ∧ pdpe va = pdpe va' ∧ pdx va = pdx va' ∧ ptx va = ptx va' := by
  simp only [vpn, pml4_eq, pdpe_eq, pdx_eq, ptx_eq]
  omega

theorem PageTree.write_leaf (tree : PageTree m root free) (outside : pml4 va ≠ pml4 uvpt) {table : Nat}
    {value : Word} (reached : Radix.descend m.child root [pml4 va, pdpe va, pdx va] = some table)
    (size : m'.npages = m.npages) (word : m'.word = (m.write (table, ptx va) value).word) :
    m'.entry root va = value ∧ ∀ va', pml4 va' ≠ pml4 uvpt →
      m'.InReach root va' ∧ (vpn va' ≠ vpn va → m'.entry root va' = m.entry root va') := by
  have within := inside_of_va outside
  have children : ∀ path, Inside path → Radix.descend m'.child root path = Radix.descend m.child root path := by
    intro path inside
    refine Radix.descend_congr ?_
    intro before index after split last found
    apply Memory.child_congr
    rw [word, Memory.write_word, if_neg]
    rintro ⟨rfl, -⟩
    have short := inside.1
    rw [split] at inside
    have same := tree.alone _ _ _ within inside.front reached found
    rw [split, same] at short
    simp only [List.length_append, List.length_cons, List.length_nil] at short
    omega
  have entries : ∀ va', pml4 va' ≠ pml4 uvpt → m'.entry root va' =
      (Radix.descend m.child root [pml4 va', pdpe va', pdx va']).elim 0 fun node =>
        if node = table ∧ ptx va' = ptx va then value else m.word node (ptx va') := by
    intro va' outside'
    rw [Memory.entry_eq_entryAt, Memory.entryAt, children _ (inside_of_va outside'), word]
    rfl
  refine ⟨?_, fun va' outside' => ⟨?_, fun other => ?_⟩⟩
  · rw [entries va outside, reached, Option.elim_some, if_pos ⟨rfl, rfl⟩]
  · have reach := tree.reach outside'
    have top := children [pml4 va'] (inside_top outside')
    have middle := children [pml4 va', pdpe va'] (inside_middle outside')
    have last := children _ (inside_of_va outside')
    refine ⟨?_, ?_, ?_⟩
    · rw [top, size]
      exact reach.pdpt
    · rw [middle, size]
      exact reach.pgdir
    · rw [last, size]
      exact reach.table
  · rw [entries va' outside', Memory.entry_eq_entryAt, Memory.entryAt]
    cases found : Radix.descend m.child root [pml4 va', pdpe va', pdx va'] with
    | none => rfl
    | some node =>
      rw [Option.elim_some, Option.elim_some, if_neg]
      rintro ⟨rfl, leaf⟩
      have same := tree.alone _ _ _ within (inside_of_va outside') reached found
      simp only [List.cons.injEq, and_true] at same
      exact other (vpn_eq_iff.mpr ⟨same.1, same.2.1, same.2.2, leaf⟩)

theorem outside_of_user (below : va < utop) : pml4 va ≠ pml4 uvpt := by
  rw [BitVec.lt_def, utop_toNat] at below
  rw [pml4_eq, pml4_eq, show uvpt.toNat = 0x10000000000 from rfl]
  omega

theorem leafEntry_eq (page : Nat) {perm : BitVec 32} (small : perm.toNat < 4096) :
    leafEntry page perm = page2pa page ||| (perm.setWidth 64 ||| pteP) := by
  rw [leafEntry, leafFlags_eq perm small, BitVec.setWidth_or]
  rfl

/-- `page_insert` sets what the MMU finds for one page of addresses and leaves all others alone. -/
theorem pageInsert_update (tree : PageTree m root free) {page : Nat} {perm : BitVec 32} (below : va < utop)
    (small : perm.toNat < 4096)
    (inserted : m.pageInsert root page va perm = .ok (true, m')) :
    (m'.checkVa2pa root va = .ok (page2pa page) ∧
        m'.entry root va = page2pa page ||| (perm.setWidth 64 ||| pteP)) ∧
      ∀ va', pml4 va' ≠ pml4 uvpt → vpn va' ≠ vpn va →
        m'.checkVa2pa root va' = m.checkVa2pa root va' ∧ m'.entry root va' = m.entry root va' := by
  have outside := outside_of_user below
  obtain ⟨table, middle, rest, expands, reached, size, word⟩ := tree.pageInsert_word outside inserted
  obtain ⟨here, others⟩ :=
    expands.tree.write_leaf outside reached (size.trans expands.npages.symm) word
  have address : Memory.address (leafEntry page perm) = page2pa page := by
    rw [Memory.address, if_pos (present_leafEntry page perm), pteAddr_leafEntry page perm small]
  refine ⟨⟨?_, ?_⟩, fun va' outside' other => ?_⟩
  · rw [(others va outside).1.checkVa2pa, here, address]
  · rw [here, leafEntry_eq page small]
  · obtain ⟨reach, same⟩ := others va' outside'
    have kept : middle.entry root va' = m.entry root va' := by
      rw [Memory.entry_eq_entryAt, Memory.entry_eq_entryAt]
      exact expands.leaf _ _ (inside_of_va outside') rfl
    rw [reach.checkVa2pa, (tree.reach outside').checkVa2pa, same other, kept]
    exact ⟨rfl, rfl⟩

theorem pageInsert_update_smallMachine : ∃ m', smallMachine.pageInit.pageInsert 9 5 utext 7 = .ok (true, m') ∧
    (m'.checkVa2pa 9 utext = .ok (page2pa 5) ∧
        m'.entry 9 utext = page2pa 5 ||| ((7 : BitVec 32).setWidth 64 ||| pteP)) ∧
      ∀ va', pml4 va' ≠ pml4 uvpt → vpn va' ≠ vpn utext →
        m'.checkVa2pa 9 va' = smallMachine.pageInit.checkVa2pa 9 va' ∧
          m'.entry 9 va' = smallMachine.pageInit.entry 9 va' := by
  have role : smallMachine.layout.role 9 = .table 9 [] := smallMachine.layout_table.mpr ⟨rfl, rfl, rfl⟩
  obtain ⟨free, tree, -⟩ := smallMachine.pageInit_consistent.pageTree role
  have done : (smallMachine.pageInit.pageInsert 9 5 utext 7).toOption.map Prod.fst = some true := by
    decide +kernel
  cases inserted : smallMachine.pageInit.pageInsert 9 5 utext 7 with
  | error stop =>
    rw [inserted] at done
    cases done
  | ok result =>
    obtain ⟨success, m'⟩ := result
    rw [inserted] at done
    cases done
    exact ⟨m', rfl, pageInsert_update tree (by decide) (by decide) inserted⟩

end Jos
