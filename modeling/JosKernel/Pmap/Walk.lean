import JosKernel.Pmap.Growth

namespace Jos

variable {m : Memory} {g : Layout}

theorem Memory.kaddr_page {pa : Word} (small : m.npages ≤ 2^32) (bound : ppn pa < m.npages) :
    m.kaddr pa = .ok (ppn pa) := by
  rw [Memory.kaddr, if_neg]
  rw [Nat.mod_eq_of_lt (by omega)]
  omega

theorem Memory.kaddr_page2pa {page : Nat} (small : m.npages ≤ 2^32) (bound : page < m.npages) :
    m.kaddr (page2pa page) = .ok page := by
  have here : ppn (page2pa page) = page := by
    rw [ppn_eq, page2pa_toNat]
    omega
  rw [kaddr_page small (by rwa [here]), here]

theorem Memory.kaddr_tableEntry {page : Nat} (small : m.npages ≤ 2^32) (bound : page < m.npages) :
    m.kaddr (pteAddr (tableEntry page)) = .ok page := by
  have here : ppn (pteAddr (tableEntry page)) = page := entryPage_tableEntry page (by omega)
  rw [kaddr_page small (by rwa [here]), here]

/-- What `page_alloc(ALLOC_ZERO)` leaves when it gives `page`. -/
abbrev Memory.taken (m : Memory) (page : Nat) : Memory :=
  ((m.clearPage page).setFreeList (m.ppLink page)).setLink page none

/-- `page_alloc(ALLOC_ZERO)` fails only when no page is free. It gives a page that was free, cleared. -/
theorem Consistent.pageAlloc (valid : Consistent m g) :
    (m.pageFreeList = none ∧ m.pageAlloc true = .ok (none, m)) ∨
      ∃ page m', m.pageFreeList = some page ∧ m.pageAlloc true = .ok (some page, m') ∧
        g.role page = .free ∧ Consistent m' ((g.setRole page .data).setExtra page 0) ∧
        m' = m.taken page := by
  cases head : m.pageFreeList with
  | none => exact .inl ⟨rfl, by rw [Memory.pageAlloc, head]⟩
  | some page =>
    have free := (valid.takePage head).1
    have bound := (valid.freeList.unused page free).1
    have cleared : Consistent (m.clearPage page) g := valid.clearPage (by simp [free])
    refine .inr ⟨page, _, rfl, ?_, free, (cleared.takePage head).2, rfl⟩
    rw [Memory.pageAlloc, head]
    simp only [if_true, Memory.kaddr_page2pa valid.small bound]
    rfl

section Taken

variable {page table root index : Nat} {path : List Nat} (free : g.role page = .free) (role : g.role table = .table root path)

include free role

theorem taken_parent : table ≠ page := by
  rintro rfl
  rw [role] at free
  cases free

theorem Consistent.taken_hangs (valid : Consistent m g)
    (valid' : Consistent (m.taken page) ((g.setRole page .data).setExtra page 0)) (higher : path.length < 3)
    (owned : g.Owned root path index) (vacant : ¬ Present (m.word table index)) :
    Hangs (m.taken page) ((g.setRole page .data).setExtra page 0) page table root index path where
  data := by simp
  unmapped := by
    have counted := (valid'.refs.counted page (by simp)).2
    have count : (m.taken page).ppRef page = 0 := (valid.freeList.unused page free).2
    rw [count] at counted
    exact (Nat.add_eq_zero_iff.mp counted.symm).1
  empty := by simp [Memory.taken]
  parent := by simp [taken_parent free role, role]
  higher := higher
  owned := owned
  vacant := by simpa [Memory.taken, taken_parent free role] using vacant

theorem taken_grows (higher : path.length < 3) (vacant : ¬ Present (m.word table index)) :
    Grows m g ((m.taken page).hang page (table, index))
      (((g.setRole page .data).setExtra page 0).hang page root path index) := by
  have different := taken_parent free role
  have others : ∀ other, g.role other ≠ .free → other ≠ page := by
    rintro other used rfl
    exact used free
  exact {
    npages := rfl
    bootPml4e := rfl
    shares := rfl
    role := fun other used => by
      rw [hang_role_of_ne (others other used)]
      simp [others other used]
    fresh := by
      intro other free'
      by_cases here : other = page
      · refine .inr ⟨root, path ++ [index], by rw [here, hang_role_here], by simp, ?_⟩
        intro _ i
        rw [hang_word_of_ne (by rintro ⟨same, -⟩; exact different (same.symm.trans here))]
        simp [Memory.taken, here]
      · left
        rw [hang_role_of_ne here]
        simp [here, free']
    word := by
      intro other i used
      by_cases slot : other = table ∧ i = index
      · obtain ⟨rfl, rfl⟩ := slot
        exact .inr ⟨vacant, root, path, role, higher⟩
      · left
        rw [hang_word_of_ne slot]
        simp [Memory.taken, others other used]
    ppRef := fun other used => by
      rw [hang_ppRef, if_neg (others other used)]
      rfl
    extra := fun other used => by
      change (if other = page then 0 else g.extra other) = _
      rw [if_neg (others other used)] }

end Taken

theorem Consistent.nextTable_taken (valid : Consistent m g) {page table index : Nat} (free : g.role page = .free)
    (vacant : ¬ Present (m.word table index)) (alloc : m.pageAlloc true = .ok (some page, m.taken page)) :
    m.nextTable (table, index) true = .ok (some page, (m.taken page).hang page (table, index)) := by
  obtain ⟨bound, zero⟩ := valid.freeList.unused page free
  have count : (m.taken page).ppRef page + 1 = 1 := by
    change m.ppRef page + 1 = 1
    rw [zero]
    rfl
  rw [Memory.nextTable, Memory.read, if_neg vacant, if_pos rfl, alloc]
  simp only [bind, Except.bind, count]
  rw [Memory.read, Memory.write_word, if_pos ⟨rfl, rfl⟩, Memory.kaddr_tableEntry]
  · rfl
  · exact valid.small
  · exact bound

/-- What a step of a walk that may create does to an entry of the tree: it follows the entry, or hangs
    a cleared page under it. It gives nothing only when no page is left. -/
theorem Consistent.nextTable (valid : Consistent m g) {table root index : Nat} {path : List Nat}
    (role : g.role table = .table root path) (higher : path.length < 3) (owned : g.Owned root path index) :
    ∃ next m' g', m.nextTable (table, index) true = .ok (next, m') ∧ Consistent m' g' ∧ Grows m g m' g' ∧
      (∀ page, next = some page → g'.role page = .table root (path ++ [index])) ∧
      (next = none → m'.pageFreeList = none) := by
  by_cases present : Present (m.word table index)
  · obtain ⟨page, entry, below⟩ := valid.tables.down table root path index role higher owned present
    have bound := (valid.tables.inside page root _ below).1
    refine ⟨some page, m, g, ?_, valid, .refl m g, ?_, by simp⟩
    · rw [Memory.nextTable, Memory.read, if_pos present, entry,
        Memory.kaddr_tableEntry valid.small bound]
      rfl
    · rintro _ ⟨⟩
      exact below
  · rcases valid.pageAlloc with ⟨empty, alloc⟩ | ⟨page, m', -, alloc, free, valid', rfl⟩
    · refine ⟨none, m, g, ?_, valid, .refl m g, by simp, fun _ => empty⟩
      rw [Memory.nextTable, Memory.read, if_neg present, if_pos rfl, alloc]
      rfl
    · have hangs := valid.taken_hangs free role valid' higher owned present
      refine ⟨some page, _, _, valid.nextTable_taken free present alloc, hangs.consistent valid',
        taken_grows free role higher present, ?_, by simp⟩
      rintro _ ⟨⟩
      exact hang_role_here

/-- The entries that `pdpe_walk` rewrites already have the flags it gives them. -/
theorem Consistent.refresh (valid : Consistent m g) {table root index : Nat} {path : List Nat}
    (role : g.role table = .table root path) (higher : path.length < 3) (owned : g.Owned root path index) :
    m.refresh (table, index) = m := by
  rw [Memory.refresh]
  split
  · rename_i present
    obtain ⟨page, entry, -⟩ := valid.tables.down table root path index role higher owned present
    have same : (m.read (table, index) &&& ~~~flagMask) ||| pteU ||| pteP ||| pteW =
        m.read (table, index) := by
      rw [Memory.read, entry, refresh_tableEntry]
    rw [same, Memory.write_same]
  · rfl

-- Walks that create

structure Walked (m : Memory) (g : Layout) (root : Nat) (va : Word) (result : Option Slot) (m' : Memory)
    (g' : Layout) : Prop where
  valid : Consistent m' g'
  grows : Grows m g m' g'
  slot : ∀ slot, result = some slot → slot.2 = ptx va ∧
    g'.role slot.1 = .table root [pml4 va, pdpe va, pdx va]
  empty : result = none → m'.pageFreeList = none

theorem Consistent.pgdirWalk (valid : Consistent m g) {pgdir root : Nat} {va : Word}
    (role : g.role pgdir = .table root [pml4 va, pdpe va]) :
    ∃ result m' g', m.pgdirWalk pgdir va true = .ok (result, m') ∧ Walked m g root va result m' g' := by
  obtain ⟨next, m', g', step, valid', grows, below, empty⟩ :=
    valid.nextTable role (by simp) ⟨pdx_lt va, by simp⟩
  rw [Memory.pgdirWalk, step]
  cases next with
  | none => exact ⟨none, m', g', rfl, valid', grows, by simp, fun _ => empty rfl⟩
  | some table =>
    refine ⟨_, m', g', rfl, valid', grows, ?_, by simp⟩
    rintro slot ⟨⟩
    exact ⟨rfl, below table rfl⟩

theorem Walked.after {m₁ m' : Memory} {g₁ g' : Layout} {root : Nat} {va : Word} {result : Option Slot}
    (walked : Walked m₁ g₁ root va result m' g') (grows : Grows m g m₁ g₁) :
    Walked m g root va result m' g' :=
  ⟨walked.valid, grows.trans walked.grows, walked.slot, walked.empty⟩

theorem Consistent.pdpeWalk (valid : Consistent m g) {pdpt root : Nat} {va : Word}
    (role : g.role pdpt = .table root [pml4 va]) :
    ∃ result m' g', m.pdpeWalk pdpt va true = .ok (result, m') ∧ Walked m g root va result m' g' := by
  have owned : g.Owned root [pml4 va] (pdpe va) := ⟨pdpe_lt va, by simp⟩
  obtain ⟨next, m₁, g₁, step, valid₁, grows, below, empty⟩ := valid.nextTable role (by simp) owned
  rw [Memory.pdpeWalk, if_neg (by simp), valid.refresh role (by simp) owned, step]
  cases next with
  | none => exact ⟨none, m₁, g₁, rfl, valid₁, grows, by simp, fun _ => empty rfl⟩
  | some pgdir =>
    obtain ⟨result, m', g', rest, walked⟩ := valid₁.pgdirWalk (below pgdir rfl)
    exact ⟨result, m', g', rest, walked.after grows⟩

/-- The first step of a walk. The tables are those of the tree that holds the address. -/
theorem Consistent.nextPdpt (valid : Consistent m g) {root : Nat} {va : Word}
    (role : g.role root = .table root []) (low : pml4 va < 2) :
    ∃ next m' g', m.nextTable (root, pml4 va) true = .ok (next, m') ∧ Consistent m' g' ∧
      Grows m g m' g' ∧
      (∀ page, next = some page →
        g'.role page = .table (g.space m.bootPml4e root (pml4 va)) [pml4 va]) ∧
      (next = none → m'.pageFreeList = none) := by
  by_cases sharing : pml4 va = 1 ∧ g.shares root = true
  · obtain ⟨-, -, present, same⟩ := valid.tables.shared root sharing.2
    have space : g.space m.bootPml4e root (pml4 va) = m.bootPml4e := if_pos sharing
    have owned := valid.tables.space_owned root low
    rw [space] at owned
    obtain ⟨page, entry, below⟩ :=
      valid.tables.down _ _ [] (pml4 va) valid.tables.boot (by simp) owned (by rwa [sharing.1])
    have bound := (valid.tables.inside page _ _ below).1
    refine ⟨some page, m, g, ?_, valid, .refl m g, ?_, by simp⟩
    · have here : m.read (root, pml4 va) = tableEntry page := by
        rw [Memory.read, ← entry]
        simp only [sharing.1, same]
      rw [Memory.nextTable, here, if_pos (present_tableEntry page),
        Memory.kaddr_tableEntry valid.small bound]
      rfl
    · rintro _ ⟨⟩
      rw [space]
      exact below
  · have space : g.space m.bootPml4e root (pml4 va) = root := if_neg sharing
    rw [space]
    refine valid.nextTable role (by simp) ⟨by omega, fun _ => ⟨by omega, fun one => ?_⟩⟩
    simpa [one] using sharing

theorem Consistent.pml4eWalk (valid : Consistent m g) {root : Nat} {va : Word}
    (role : g.role root = .table root []) (low : pml4 va < 2) :
    ∃ result m' g', m.pml4eWalk root va true = .ok (result, m') ∧
      Walked m g (g.space m.bootPml4e root (pml4 va)) va result m' g' := by
  obtain ⟨next, m₁, g₁, step, valid₁, grows, below, empty⟩ := valid.nextPdpt role low
  rw [Memory.pml4eWalk, if_neg (by simp), step]
  cases next with
  | none => exact ⟨none, m₁, g₁, rfl, valid₁, grows, by simp, fun _ => empty rfl⟩
  | some pdpt =>
    obtain ⟨result, m', g', rest, walked⟩ := valid₁.pdpeWalk (below pdpt rfl)
    exact ⟨result, m', g', rest, walked.after grows⟩

theorem Walked.leafSlot {m' : Memory} {g' : Layout} {root : Nat} {va : Word} {slot : Slot}
    (walked : Walked m g (g.space m.bootPml4e root (pml4 va)) va (some slot) m' g')
    (role : g.role root = .table root []) (low : pml4 va < 2) : m'.leafSlot root va = some slot := by
  have role' : g'.role root = .table root [] := by rw [walked.grows.role root (by simp [role]), role]
  have space : g'.space m'.bootPml4e root (pml4 va) = g.space m.bootPml4e root (pml4 va) := by
    rw [Layout.space, Layout.space, walked.grows.shares, walked.grows.bootPml4e]
  rw [walked.valid.leafSlot_iff role' low, space]
  exact walked.slot slot rfl

-- Walks that create nothing

/-- Whether the tests `!*pml4e` and `!*pdpe`, which look at entry 0 of a table instead of the entry
    for the address, let a walk for `va` go on. -/
def Memory.visible (m : Memory) (root : Nat) (va : Word) : Bool :=
  m.word root 0 != 0 && (m.child root (pml4 va)).all fun pdpt => m.word pdpt 0 != 0

theorem Consistent.child_role (valid : Consistent m g) {table root index next : Nat} {path : List Nat}
    (role : g.role table = .table root path) (higher : path.length < 3) (owned : g.Owned root path index)
    (found : m.child table index = some next) : g.role next = .table root (path ++ [index]) :=
  Layout.label_eq_some.mp ((valid.tables.labelled valid.small).down table root path index next
    (Layout.label_eq_some.mpr role) higher owned found)

theorem Consistent.nextTable_find (valid : Consistent m g) {table root index : Nat} {path : List Nat}
    (role : g.role table = .table root path) (higher : path.length < 3) (owned : g.Owned root path index) :
    m.nextTable (table, index) false = .ok (m.child table index, m) := by
  rw [Memory.nextTable, Memory.child, Memory.read]
  split
  · rename_i present
    obtain ⟨page, entry, below⟩ := valid.tables.down table root path index role higher owned present
    have bound := (valid.tables.inside page root _ below).1
    rw [entry, Memory.kaddr_tableEntry valid.small bound, entryPage_tableEntry page]
    · rfl
    · have := valid.small
      omega
  · rfl

/-- A walk that creates nothing changes nothing, and finds the slot for the address unless entry 0 of
    a table on its way is 0. -/
theorem Consistent.pml4eWalk_find (valid : Consistent m g) {root : Nat} {va : Word}
    (role : g.role root = .table root []) (low : pml4 va < 2) :
    m.pml4eWalk root va false = .ok (if m.visible root va then m.leafSlot root va else none, m) := by
  have spaceRole := valid.tables.space_role role (pml4 va)
  have step : m.nextTable (root, pml4 va) false = .ok (m.child root (pml4 va), m) := by
    have found := valid.nextTable_find spaceRole (by simp) (valid.tables.space_owned root low)
    rw [valid.tables.space_child] at found
    rw [← found, Memory.nextTable, Memory.nextTable, Memory.read, Memory.read,
      valid.tables.space_word root (pml4 va)]
    rfl
  rw [Memory.pml4eWalk, Memory.visible]
  split
  · rename_i zero
    simp [zero.1]
  rename_i nonzero
  have top : m.word root 0 ≠ 0 := by simpa using nonzero
  rw [step]
  simp only [bind, Except.bind, Memory.leafSlot, Radix.descend_cons]
  cases next : m.child root (pml4 va) with
  | none => simp
  | some pdpt =>
    simp only [Memory.pdpeWalk, Option.bind_some, Option.all_some]
    by_cases zero : m.word pdpt 0 = 0
    · simp [zero]
    have pdptRole : g.role pdpt = .table (g.space m.bootPml4e root (pml4 va)) [pml4 va] := by
      rw [← valid.tables.space_child root (pml4 va)] at next
      exact valid.child_role spaceRole (by simp) (valid.tables.space_owned root low) next
    have owned : g.Owned (g.space m.bootPml4e root (pml4 va)) [pml4 va] (pdpe va) :=
      ⟨pdpe_lt va, by simp⟩
    rw [if_neg (fun hidden => zero hidden.1), valid.refresh pdptRole (by simp) owned,
      valid.nextTable_find pdptRole (by simp) owned]
    simp only [bind, Except.bind]
    have visible : (m.word root 0 != 0 && m.word pdpt 0 != 0) = true := by
      rw [Bool.and_eq_true, bne_iff_ne, bne_iff_ne]
      exact ⟨top, zero⟩
    rw [visible, if_pos rfl]
    cases next' : m.child pdpt (pdpe va) with
    | none => simp
    | some pgdir =>
      have pgdirRole : g.role pgdir =
          .table (g.space m.bootPml4e root (pml4 va)) [pml4 va, pdpe va] :=
        valid.child_role pdptRole (by simp) owned next'
      simp only [Memory.pgdirWalk]
      rw [valid.nextTable_find pgdirRole (by simp) ⟨pdx_lt va, by simp⟩]
      simp only [bind, Except.bind, Option.bind_some]
      cases m.child pgdir (pdx va) <;> simp

end Jos
