import JosKernel.Pmap.Operations
import JosKernel.Pmap.PageInit

namespace Jos

/-- What kern/pmap.c knows when it calls `page_init`: the size of memory and of base memory in pages,
    the page at the address that `boot_alloc(0)` returns, the PML4 it has cleared, and the contents of memory. -/
structure BootConfig where
  npages : Nat
  npagesBasemem : Nat
  kernEnd : Nat
  bootPml4e : Nat
  word : Nat → Nat → Word
  small : npages ≤ 2^32
  pml4Extended : npagesBasemem ≤ bootPml4e
  pml4Allocated : bootPml4e ≤ kernEnd
  pml4Inside : bootPml4e < npages
  pml4Cleared : ∀ index, word bootPml4e index = 0

namespace BootConfig

def counts (c : BootConfig) : PageCounts := ⟨c.npages, c.npagesBasemem, c.kernEnd⟩

def Reserved (c : BootConfig) (page : Nat) : Prop := c.counts.Reserved page

instance (c : BootConfig) (page : Nat) : Decidable (c.Reserved page) := inferInstanceAs (Decidable (c.counts.Reserved page))

/-- Memory before `page_init`; nothing depends on the `pages` array yet. -/
def memory (c : BootConfig) : Memory where
  npages := c.npages
  bootPml4e := c.bootPml4e
  word := c.word
  ppRef := fun _ => 0
  ppLink := fun _ => none
  pageFreeList := none
  userMemCheckAddr := 0

def pageInit (c : BootConfig) : Memory := c.counts.pageInit c.memory

variable (c : BootConfig)

def freePages (bound : Nat) : List Nat := c.counts.freePages bound

theorem mem_freePages {bound page : Nat} : page ∈ c.freePages bound ↔ page < bound ∧ ¬ c.Reserved page :=
  c.counts.mem_freePages

theorem initialised : c.counts.Initialised c.memory c.npages c.pageInit
    ((List.range c.npages).foldl c.counts.pageInitStep (c.memory, none)).2 :=
  c.counts.initialised_loop c.memory rfl c.npages

theorem pageInit_npages : c.pageInit.npages = c.npages := c.initialised.npages

theorem pageInit_bootPml4e : c.pageInit.bootPml4e = c.bootPml4e := c.initialised.bootPml4e

theorem pageInit_word : c.pageInit.word = c.word := c.initialised.word

theorem pageInit_chain : Linked.Chain c.pageInit.ppLink c.pageInit.pageFreeList (c.freePages c.npages) :=
  c.initialised.chain

theorem pageInit_unlinked {page : Nat} (other : page ∉ c.freePages c.npages) : c.pageInit.ppLink page = none :=
  (c.initialised.unlinked page other).trans (ite_self none)

theorem pageInit_ppRef {page : Nat} (below : page < c.npages) : c.pageInit.ppRef page = if c.Reserved page then 1 else 0 :=
  c.initialised.ppRef page below

def layout : Layout where
  role := fun page =>
    if page = c.bootPml4e then .table c.bootPml4e []
    else if page < c.npages ∧ ¬ c.Reserved page then .free
    else .kept
  shares := fun _ => false
  extra := fun _ => 0

theorem pml4Reserved : c.Reserved c.bootPml4e := by
  have extended := c.pml4Extended
  have allocated := c.pml4Allocated
  exact .inr (show ¬ (c.bootPml4e < c.npagesBasemem ∨ c.kernEnd < c.bootPml4e) by omega)

theorem layout_free {page : Nat} : c.layout.role page = .free ↔ page ∈ c.freePages c.npages := by
  rw [layout, mem_freePages]
  simp only
  split
  · rename_i here
    simp [here, c.pml4Reserved]
  · split <;> simp_all

theorem layout_table {page root : Nat} {path : List Nat} :
    c.layout.role page = .table root path ↔ page = c.bootPml4e ∧ root = c.bootPml4e ∧ path = [] := by
  rw [layout]
  simp only
  split
  · rename_i here
    simp only [Role.table.injEq, here, true_and]
    exact ⟨fun same => ⟨same.1.symm, same.2.symm⟩, fun same => ⟨same.1.symm, same.2.symm⟩⟩
  · split <;> simp_all

theorem layout_not_data (page : Nat) : c.layout.role page ≠ .data := by
  rw [layout]
  simp only
  split
  · simp
  · split <;> simp

theorem pageInit_consistent : Consistent c.pageInit c.layout := by
  have absent : ∀ index, ¬ Present (c.word c.bootPml4e index) := by
    intro index
    rw [c.pml4Cleared]
    decide
  exact {
    small := by
      rw [c.pageInit_npages]
      exact c.small
    freeList := {
      chain := ⟨_, c.pageInit_chain, fun page => c.layout_free.symm⟩
      unused := by
        intro page free
        obtain ⟨below, usable⟩ := (c.mem_freePages).mp (c.layout_free.mp free)
        rw [c.pageInit_npages, c.pageInit_ppRef below, if_neg usable]
        exact ⟨below, rfl⟩
      unlinked := fun page used => c.pageInit_unlinked (mt c.layout_free.mpr used) }
    tables := {
      inside := by
        intro page root path role
        obtain ⟨rfl, -, rfl⟩ := c.layout_table.mp role
        rw [c.pageInit_npages]
        exact ⟨c.pml4Inside, by simp⟩
      top := by
        intro page root role
        obtain ⟨rfl, rfl, -⟩ := c.layout_table.mp role
        rfl
      down := by
        intro page root path index role _ _ present
        obtain ⟨rfl, -, -⟩ := c.layout_table.mp role
        rw [c.pageInit_word] at present
        exact absurd present (absent index)
      up := by
        intro page root path index role
        obtain ⟨-, -, empty⟩ := c.layout_table.mp role
        simp at empty
      shared := by
        intro root sharing
        cases sharing
      window := by
        intro root role
        obtain ⟨rfl, -, -⟩ := c.layout_table.mp role
        rw [c.pageInit_word, c.pml4Cleared, Memory.windowEntry, if_pos c.pageInit_bootPml4e.symm]
      boot := by
        rw [c.pageInit_bootPml4e]
        exact c.layout_table.mpr ⟨rfl, rfl, rfl⟩ }
    refs := {
      leaf := by
        intro table root path index role user
        obtain ⟨-, -, rfl⟩ := c.layout_table.mp role
        cases user
      counted := fun page data => absurd data (c.layout_not_data page)
      table := by
        intro page root path role
        obtain ⟨rfl, -, -⟩ := c.layout_table.mp role
        rw [c.pageInit_ppRef c.pml4Inside, if_pos c.pml4Reserved] } }

end BootConfig

/-- A machine with sixteen pages, of which `boot_alloc` has given out two. -/
def smallMachine : BootConfig where
  npages := 16
  npagesBasemem := 8
  kernEnd := 9
  bootPml4e := 9
  word := fun _ _ => 0
  small := by decide
  pml4Extended := by decide
  pml4Allocated := by decide
  pml4Inside := by decide
  pml4Cleared := fun _ => rfl

end Jos
