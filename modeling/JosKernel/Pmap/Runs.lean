import JosKernel.Lib.Transition
import JosKernel.Pmap.Boot
import JosKernel.Pmap.Spaces

namespace Jos

structure PageState where
  mem : Memory
  spaces : List Nat

/-- What the kernel does with pages: the boot-time mappings at and above UTOP, new address spaces, and
    the combinations that the system calls perform. -/
inductive PageOp
  | bootMap (la pa : Word) (perm : BitVec 32)
  | newSpace
  | alloc (root : Nat) (va : Word) (perm : BitVec 32)
  | lookup (root : Nat) (va : Word)
  | map (srcRoot : Nat) (srcva : Word) (root : Nat) (va : Word) (perm : BitVec 32)
  | unmap (root : Nat) (va : Word)

namespace PageState

def roots (s : PageState) : List Nat := s.mem.bootPml4e :: s.spaces

def setMem (s : PageState) (mem : Memory) : PageState := { s with mem := mem }

end PageState

namespace PageOp

def runAlloc (m : Memory) (root : Nat) (va : Word) (perm : BitVec 32) : Except Stop Memory := do
  let (page, m) ← m.pageAlloc true
  match page with
  | none => .ok m
  | some page =>
    let (inserted, m) ← m.pageInsert root page va perm
    if inserted then .ok m else m.pageFree page

/-- `sys_page_map`, and `sys_ipc_try_send` with a page -/
def runMap (m : Memory) (srcRoot : Nat) (srcva : Word) (root : Nat) (va : Word) (perm : BitVec 32) :
    Except Stop Memory := do
  let (found, m) ← m.pageLookup srcRoot srcva
  match found with
  | none => .ok m
  | some (page, _) =>
    let (_, m) ← m.pageInsert root page va perm
    .ok m

def run (s : PageState) : PageOp → Except Stop PageState
  | bootMap la pa perm => (s.mem.bootMapPage la pa perm).map s.setMem
  | newSpace => s.mem.envSetupVm.map fun (page, m) => { mem := m, spaces := page.toList ++ s.spaces }
  | alloc root va perm => (runAlloc s.mem root va perm).map s.setMem
  | lookup root va => (s.mem.pageLookup root va).map fun (_, m) => s.setMem m
  | map srcRoot srcva root va perm => (runMap s.mem srcRoot srcva root va perm).map s.setMem
  | unmap root va => (s.mem.pageRemove root va).map s.setMem

def Legal (s : PageState) : PageOp → Prop
  | bootMap la _ _ => utop ≤ la ∧ la < uvpt
  | newSpace => True
  | alloc root va _ | lookup root va | unmap root va => root ∈ s.roots ∧ va < utop
  | map srcRoot srcva root va _ => (srcRoot ∈ s.roots ∧ srcva < utop) ∧ root ∈ s.roots ∧ va < utop

instance decidableLegal (s : PageState) : (op : PageOp) → Decidable (op.Legal s)
  | bootMap la _ _ => inferInstanceAs (Decidable (utop ≤ la ∧ la < uvpt))
  | newSpace => inferInstanceAs (Decidable True)
  | alloc root va _ | lookup root va | unmap root va => inferInstanceAs (Decidable (root ∈ s.roots ∧ va < utop))
  | map srcRoot srcva root va _ =>
    inferInstanceAs (Decidable ((srcRoot ∈ s.roots ∧ srcva < utop) ∧ root ∈ s.roots ∧ va < utop))

def Step (before : PageState) (op : PageOp) (after : PageState) : Prop :=
  op.Legal before ∧ op.run before = .ok after

/-- The insertion of `page` at `va` is none of those that `page_insert` gets wrong: the bits of `perm`
    above the flags change the page, removing the mapping that is there frees the page before it is
    counted again, or the 16-bit count wraps. -/
def Fits (m : Memory) (page root : Nat) (va : Word) (perm : BitVec 32) : Prop :=
  entryPage (leafEntry page perm) = page ∧
    ((m.lookup root va).map Prod.fst = some page → m.ppRef page ≠ 1) ∧
    (m.ppRef page = 65535 → (m.lookup root va).map Prod.fst = some page)

instance (m : Memory) (page root : Nat) (va : Word) (perm : BitVec 32) : Decidable (Fits m page root va perm) :=
  inferInstanceAs (Decidable (_ ∧ _))

/-- The steps that the invariant survives. -/
def Careful (s : PageState) : PageOp → Prop
  | alloc _ _ perm => ∀ page, s.mem.pageFreeList = some page → entryPage (leafEntry page perm) = page
  | map srcRoot srcva root va perm => ∀ page slot, s.mem.lookup srcRoot srcva = some (page, slot) →
      Fits s.mem page root va perm
  | _ => True

end PageOp

-- One step

section Step

variable {m : Memory} {g : Layout}

theorem Insertable.of_fits {page root : Nat} {va : Word} {perm : BitVec 32} (data : g.role page = .data)
    (fits : PageOp.Fits m page root va perm) : Insertable m g root page va perm where
  data := data
  target := fits.1
  kept := fun slot lookup => fits.2.1 (by rw [lookup]; rfl)
  room := by
    intro full
    obtain ⟨⟨found, slot⟩, lookup, same⟩ := Option.map_eq_some_iff.mp (fits.2.2 full)
    cases same
    exact ⟨slot, lookup⟩

theorem Consistent.lookup_data (valid : Consistent m g) {root page : Nat} {va : Word} {slot : Slot}
    (role : g.role root = .table root []) (below : va < utop) (found : m.lookup root va = some (page, slot)) :
    g.role page = .data := by
  obtain ⟨-, leaf, present, rfl⟩ := Memory.lookup_eq_some.mp found
  exact (valid.leafSlot_user role below leaf).2.2 present

theorem Consistent.runMap (valid : Consistent m g) {srcRoot root : Nat} {srcva va : Word}
    {perm : BitVec 32} {after : Memory} (srcRole : g.role srcRoot = .table srcRoot [])
    (srcBelow : srcva < utop) (role : g.role root = .table root []) (below : va < utop)
    (careful : ∀ page slot, m.lookup srcRoot srcva = some (page, slot) → PageOp.Fits m page root va perm)
    (done : PageOp.runMap m srcRoot srcva root va perm = .ok after) : Preserved m g after := by
  rw [PageOp.runMap, valid.pageLookup srcRole srcBelow] at done
  cases found : m.lookup srcRoot srcva with
  | none =>
    rw [found] at done
    cases done
    exact ⟨g, valid, rfl, fun _ role => role⟩
  | some result =>
    obtain ⟨page, slot⟩ := result
    rw [found] at done
    have insertable := Insertable.of_fits (valid.lookup_data srcRole srcBelow found) (careful page slot found)
    obtain ⟨inserted, m', g', result, valid', sets, failed⟩ := valid.pageInsert role below insertable
    simp only [bind, Except.bind, result] at done
    cases done
    exact .of_insert valid' sets failed

theorem Consistent.runAlloc (valid : Consistent m g) {root : Nat} {va : Word} {perm : BitVec 32}
    {after : Memory} (role : g.role root = .table root []) (below : va < utop)
    (careful : ∀ page, m.pageFreeList = some page → entryPage (leafEntry page perm) = page)
    (done : PageOp.runAlloc m root va perm = .ok after) : Preserved m g after := by
  obtain ⟨⟨page, m₁⟩, allocated, rest⟩ := Fallible.bind_ok.mp done
  cases page with
  | none =>
    rcases valid.pageAlloc with ⟨-, alloc⟩ | ⟨page, m', -, alloc, -⟩
    · rw [alloc] at allocated
      cases allocated
      cases rest
      exact ⟨g, valid, rfl, fun _ role => role⟩
    · rw [alloc] at allocated
      cases allocated
  | some page =>
    obtain ⟨head, g₁, fresh⟩ := valid.fresh allocated
    have kept : ∀ r, g.role r = .table r [] → g₁.role r = .table r [] :=
      fun r role => (fresh.table_iff r r []).mpr role
    have boot : m₁.bootPml4e = m.bootPml4e := by rw [fresh.memory]; rfl
    obtain ⟨inserted, m', g', result, valid', sets, failed⟩ :=
      fresh.valid.pageInsert (kept root role) below (fresh.insertable valid (careful page head))
    simp only [bind, Except.bind, result] at rest
    have preserved : Preserved m₁ g₁ m' := .of_insert valid' sets failed
    cases inserted with
    | true =>
      cases rest
      obtain ⟨g'', valid'', boot', kept'⟩ := preserved
      exact ⟨g'', valid'', boot'.trans boot, fun r role => kept' r (kept r role)⟩
    | false =>
      have grows := (failed rfl).1
      have data : g'.role page = .data := (grows.data_iff page).mpr fresh.data
      have zero : m'.ppRef page = 0 := by
        rw [grows.ppRef page (by simp [fresh.data]), fresh.ppRef valid]
      obtain ⟨freed, free, valid'', rfl⟩ := valid'.pageFree_fresh data zero
      rw [if_neg (by simp), free] at rest
      cases rest
      refine ⟨_, valid'', grows.bootPml4e.trans boot, ?_⟩
      intro r role
      have role' : g'.role r = .table r [] := by rw [grows.role r (by simp [kept r role]), kept r role]
      rwa [setRole_table_iff (by simp [data]) (by simp)]

end Step

-- Runs

def PageState.Valid (s : PageState) : Prop :=
  ∃ g, Consistent s.mem g ∧ ∀ root ∈ s.spaces, g.role root = .table root []

theorem PageState.Valid.root {s : PageState} {g : Layout} (valid : Consistent s.mem g)
    (spaces : ∀ root ∈ s.spaces, g.role root = .table root []) {root : Nat} (member : root ∈ s.roots) :
    g.role root = .table root [] := by
  rcases List.mem_cons.mp member with rfl | member
  · exact valid.tables.boot
  · exact spaces root member

theorem PageState.Valid.of_preserved {s : PageState} {g : Layout} {after : Memory}
    (preserved : Preserved s.mem g after) (spaces : ∀ root ∈ s.spaces, g.role root = .table root []) :
    (s.setMem after).Valid := by
  obtain ⟨g', valid', -, kept⟩ := preserved
  exact ⟨g', valid', fun root member => kept root (spaces root member)⟩

theorem Consistent.bootMapPage_preserved {m m' : Memory} {g : Layout} (valid : Consistent m g)
    {la pa : Word} {perm : BitVec 32} (above : utop ≤ la) (low : la < uvpt)
    (mapped : m.bootMapPage la pa perm = .ok m') : Preserved m g m' := by
  obtain ⟨g', valid', boot, -, roots, -⟩ := valid.bootMapPage above low mapped
  exact ⟨g', valid', boot, fun root => (roots root).mpr⟩

theorem PageOp.step_valid {before after : PageState} {op : PageOp} (valid : before.Valid)
    (step : Transition.Guarded Careful Step before op after) : after.Valid := by
  obtain ⟨careful, legal, ran⟩ := step
  obtain ⟨g, valid, spaces⟩ := valid
  have role : ∀ root ∈ before.roots, g.role root = .table root [] :=
    fun root member => PageState.Valid.root valid spaces member
  cases op with
  | bootMap la pa perm =>
    obtain ⟨mem, mapped, rfl⟩ := Fallible.map_ok.mp ran
    exact .of_preserved (valid.bootMapPage_preserved legal.1 legal.2 mapped) spaces
  | newSpace =>
    obtain ⟨⟨page, mem⟩, made, rfl⟩ := Fallible.map_ok.mp ran
    rcases valid.envSetupVm with ⟨-, setup⟩ | ⟨page', first, g', setup, fresh, valid'⟩
    · rw [setup] at made
      cases made
      exact ⟨g, valid, spaces⟩
    · rw [setup] at made
      cases made
      refine ⟨_, valid', ?_⟩
      intro root member
      rcases List.mem_cons.mp member with rfl | member
      · exact newRoot_role_here
      · have old := (fresh.table_iff root root []).mpr (spaces root member)
        rwa [newRoot_role_of_ne (table_ne_data fresh.data old)]
  | alloc root va perm =>
    obtain ⟨mem, done, rfl⟩ := Fallible.map_ok.mp ran
    exact .of_preserved (valid.runAlloc (role root legal.1) legal.2 careful done) spaces
  | lookup root va =>
    obtain ⟨⟨found, mem⟩, done, rfl⟩ := Fallible.map_ok.mp ran
    rw [valid.pageLookup (role root legal.1) legal.2] at done
    cases done
    exact ⟨g, valid, spaces⟩
  | map srcRoot srcva root va perm =>
    obtain ⟨mem, done, rfl⟩ := Fallible.map_ok.mp ran
    exact .of_preserved (valid.runMap (role srcRoot legal.1.1) legal.1.2 (role root legal.2.1) legal.2.2
      careful done) spaces
  | unmap root va =>
    obtain ⟨mem, done, rfl⟩ := Fallible.map_ok.mp ran
    rcases valid.pageRemove_ok (role root legal.1) legal.2 done with ⟨rfl, -⟩ | ⟨page, slot, lookup, rfl⟩
    · exact ⟨g, valid, spaces⟩
    · obtain ⟨valid', sets⟩ := valid.removed (role root legal.1) legal.2 lookup
      exact .of_preserved ⟨_, valid', sets.bootPml4e, fun r role => sets.table r r [] role⟩ spaces

/-- A present entry of a page table refers to `page`. The tables are those that a walk of at most three
    steps reaches from one of the PML4s; of the leaf entries only those below UTOP are meant, as
    `boot_map_region` maps all of memory above it without counting. -/
def Memory.Refers (m : Memory) (roots : List Nat) (page : Nat) : Prop :=
  ∃ root ∈ roots, ∃ path table index, Radix.descend m.child root path = some table ∧
    (∀ i ∈ path, i < 512) ∧ index < 512 ∧ (path.length < 3 ∨ userPath path = true) ∧
    m.child table index = some page

/-- What is to hold of the free list: it ends, no page is on it twice, and its pages are unused. -/
def PageState.FreeListSound (s : PageState) : Prop :=
  ∃ nodes, Linked.Chain s.mem.ppLink s.mem.pageFreeList nodes ∧ nodes.Nodup ∧
    ∀ page ∈ nodes, s.mem.ppRef page = 0 ∧ ¬ s.mem.Refers s.roots page

section Sound

variable {m : Memory} {g : Layout}

/-- Entries above the leaves refer to tables, also where they are shared or lead back to a PML4. -/
theorem Consistent.child_table (valid : Consistent m g) {table root index next : Nat} {path : List Nat}
    (role : g.role table = .table root path) (higher : path.length < 3) (small : index < 512)
    (found : m.child table index = some next) :
    ∃ root' path', g.role next = .table root' path' ∧ path'.length ≤ path.length + 1 := by
  by_cases owned : g.Owned root path index
  · exact ⟨root, _, valid.child_role role higher owned found, by simp⟩
  · simp only [Layout.Owned, small, true_and, not_forall] at owned
    obtain ⟨rfl, special⟩ := owned
    have here := valid.tables.top table root role
    subst here
    have boundary := valid.small
    by_cases window : index = 2
    · subst window
      obtain ⟨present, page⟩ := Memory.child_eq_some.mp found
      rw [valid.tables.window table role] at present page
      unfold Memory.windowEntry at present page
      split at present
      · exact absurd present (show ¬ Present 0 by decide)
      · rename_i other
        rw [if_neg other] at page
        have bound := (valid.tables.inside table table _ role).1
        have self : entryPage (page2pa table ||| pteP ||| pteU) = table := by
          rw [BitVec.or_assoc, entryPage, pteAddr_or_flags _ _ (page2pa_aligned table) (by decide),
            ppn_eq, page2pa_toNat]
          omega
        rw [self] at page
        subst page
        exact ⟨_, _, role, by simp⟩
    · have sharing : index = 1 ∧ g.shares table = true := by
        simpa [window] using special
      obtain ⟨rfl, sharing⟩ := sharing
      have same := valid.tables.space_child table 1
      rw [Layout.space, if_pos ⟨rfl, sharing⟩, found] at same
      refine ⟨_, _, valid.child_role valid.tables.boot (by simp) ⟨by omega, fun _ => ⟨by omega, ?_⟩⟩ same,
        by simp⟩
      intro _
      exact valid.tables.shares_boot

theorem Consistent.descend_table (valid : Consistent m g) {path base : List Nat} {start root table : Nat}
    (role : g.role start = .table root base) (short : base.length + path.length ≤ 3)
    (small : ∀ i ∈ path, i < 512) (walked : Radix.descend m.child start path = some table) :
    ∃ root' path', g.role table = .table root' path' ∧ path'.length ≤ base.length + path.length := by
  induction path generalizing start root base with
  | nil =>
    cases walked
    exact ⟨root, base, role, by simp⟩
  | cons first rest ih =>
    obtain ⟨next, found, tail⟩ := Option.bind_eq_some_iff.mp walked
    simp only [List.length_cons] at short
    obtain ⟨root₁, path₁, role₁, length₁⟩ :=
      valid.child_table role (by omega) (small first (by simp)) found
    obtain ⟨root', path', role', length'⟩ :=
      ih role₁ (by omega) (fun i member => small i (List.mem_cons_of_mem _ member)) tail
    exact ⟨root', path', role', by simp; omega⟩

theorem Consistent.not_refers (valid : Consistent m g) {roots : List Nat} {page : Nat}
    (pml4s : ∀ root ∈ roots, g.role root = .table root []) (free : g.role page = .free) :
    ¬ m.Refers roots page := by
  rintro ⟨root, member, path, table, index, walked, small, low, level, found⟩
  have role := pml4s root member
  rcases level with short | user
  · obtain ⟨root', path', role', length'⟩ := valid.descend_table role (by simp; omega) small walked
    simp only [List.length_nil, Nat.zero_add] at length'
    obtain ⟨_, _, tableRole, -⟩ := valid.child_table role' (by omega) low found
    rw [free] at tableRole
    cases tableRole
  · obtain ⟨top, middle, last, rfl⟩ := List.length_eq_three.mp (userPath_length user)
    have middleSmall : middle < 512 := small middle (by simp)
    have lastSmall : last < 512 := small last (by simp)
    have tableRole := (valid.descend_iff role (userPath_top user) middleSmall lastSmall).mp walked
    obtain ⟨present, rfl⟩ := Memory.child_eq_some.mp found
    rw [valid.refs.leaf _ _ _ index tableRole user low present] at free
    cases free

theorem PageState.Valid.freeListSound {s : PageState} (valid : s.Valid) : s.FreeListSound := by
  obtain ⟨g, valid, spaces⟩ := valid
  obtain ⟨nodes, chain, members⟩ := valid.freeList.chain
  refine ⟨nodes, chain, Linked.chain_nodup chain, ?_⟩
  intro page member
  have free := (members page).mp member
  exact ⟨(valid.freeList.unused page free).2,
    valid.not_refers (fun root member => PageState.Valid.root valid spaces member) free⟩

theorem PageState.FreeListSound.pageAlloc {s : PageState} (sound : s.FreeListSound) {allocZero : Bool}
    {page : Nat} {m : Memory} (allocated : s.mem.pageAlloc allocZero = .ok (some page, m)) :
    ¬ s.mem.Refers s.roots page := by
  obtain ⟨nodes, chain, -, unused⟩ := sound
  have head : s.mem.pageFreeList = some page := by
    unfold Memory.pageAlloc at allocated
    split at allocated
    · cases allocated
    · rename_i first head
      obtain ⟨_, _, rest⟩ := Fallible.bind_ok.mp allocated
      cases rest
      exact head
  rw [head] at chain
  obtain ⟨rest, rfl, -⟩ := Linked.chain_some chain
  exact (unused page (by simp)).2

end Sound

theorem BootConfig.pageInit_valid (c : BootConfig) : PageState.Valid ⟨c.pageInit, []⟩ :=
  ⟨c.layout, c.pageInit_consistent, by simp⟩

/-- The free list is sound after every run whose steps are careful, so that no allocation gives out a
    page that is mapped somewhere. -/
theorem freeList_sound (c : BootConfig) {ops : List PageOp} {s : PageState}
    (run : Transition.Run (Transition.Guarded PageOp.Careful PageOp.Step) ⟨c.pageInit, []⟩ ops s) :
    s.FreeListSound ∧ ∀ allocZero page m, s.mem.pageAlloc allocZero = .ok (some page, m) →
      ¬ s.mem.Refers s.roots page := by
  have sound := (run.invariant (fun _ _ _ => PageOp.step_valid) c.pageInit_valid).freeListSound
  exact ⟨sound, fun _ _ _ allocated => sound.pageAlloc allocated⟩

def PageState.next (s : PageState) (op : PageOp) : Option PageState :=
  if op.Legal s then (op.run s).toOption else none

theorem PageOp.step_of_next {before after : PageState} {op : PageOp}
    (moved : before.next op = some after) : op.Step before after := by
  unfold PageState.next at moved
  split at moved
  · rename_i legal
    refine ⟨legal, ?_⟩
    cases ran : op.run before with
    | error stop =>
      rw [ran] at moved
      cases moved
    | ok result =>
      rw [ran] at moved
      cases moved
      rfl
  · cases moved

theorem freeList_sound_smallMachine : ∃ s : PageState, s.FreeListSound ∧ s.mem.ppRef 2 = 1 := by
  have made : (PageState.next ⟨smallMachine.pageInit, []⟩ .newSpace).map (fun s => s.mem.pageFreeList) =
      some (some 2) := by decide +kernel
  have mapped : (Transition.exec PageState.next ⟨smallMachine.pageInit, []⟩
      [.newSpace, .alloc 1 utext 7]).map (fun s => s.mem.ppRef 2) = some 1 := by decide +kernel
  obtain ⟨last, done, count⟩ := Option.map_eq_some_iff.mp mapped
  obtain ⟨middle, first, rest⟩ := Option.bind_eq_some_iff.mp done
  obtain ⟨_, second, finish⟩ := Option.bind_eq_some_iff.mp rest
  cases finish
  have careful : PageOp.Careful middle (.alloc 1 utext 7) := by
    intro page head
    rw [first, Option.map_some, head] at made
    cases made
    decide
  have run : Transition.Run (Transition.Guarded PageOp.Careful PageOp.Step) ⟨smallMachine.pageInit, []⟩
      [.newSpace, .alloc 1 utext 7] last :=
    .cons ⟨trivial, PageOp.step_of_next first⟩
      (.cons ⟨careful, PageOp.step_of_next second⟩ (.nil _))
  exact ⟨last, (freeList_sound smallMachine run).1, count⟩

def mapTwice : List PageOp := [.newSpace, .alloc 1 utext 7, .map 1 utext 1 utext 7]

theorem mapTwice_unsound : ∃ s,
    Transition.Run PageOp.Step ⟨smallMachine.pageInit, []⟩ mapTwice s ∧ ¬ s.FreeListSound := by
  have result : (Transition.exec PageState.next ⟨smallMachine.pageInit, []⟩ mapTwice).map
      (fun s => (s.mem.pageFreeList, s.mem.ppRef 2)) = some (some 2, 1) := by decide +kernel
  obtain ⟨s, done, head⟩ := Option.map_eq_some_iff.mp result
  refine ⟨s, .of_exec (fun _ _ _ => PageOp.step_of_next) done, ?_⟩
  rintro ⟨nodes, chain, -, unused⟩
  have first : s.mem.pageFreeList = some 2 := congrArg Prod.fst head
  have count : s.mem.ppRef 2 = 1 := congrArg Prod.snd head
  rw [first] at chain
  obtain ⟨rest, rfl, -⟩ := Linked.chain_some chain
  rw [(unused 2 (by simp)).1] at count
  cases count

end Jos
