import JosKernel.Pmap.Boot
import JosKernel.Pmap.BootAlloc
import JosKernel.Pmap.Regions

namespace Jos

-- inc/memlayout.h, kern/cpu.h

def kstkSize : Nat := 16 * pgSize
def kstkGap : Nat := 8 * pgSize
def ncpu : Nat := 8

/-- What `x64_vm_init` works from: the size of memory and of base memory in pages, the end of the kernel counted
    from KERNBASE, the physical addresses of the stacks, and the contents of memory. The kernel lies behind base
    memory, and memory has room for the PML4. -/
structure VmConfig where
  npages : Nat
  npagesBasemem : Nat
  kernelEnd : Nat
  bootstack : Word
  percpuKstacks : Nat → Word
  word : Nat → Nat → Word
  limited : npages ≤ maxNpages
  extended : npagesBasemem * pgSize ≤ kernelEnd
  room : bootStart kernelEnd < npages * pgSize

theorem maxNpages_eq : maxNpages = 3276800 := by decide +kernel

namespace VmConfig

variable (c : VmConfig)

def pages : Nat := bootCursor c.kernelEnd [BitVec.ofNat 32 pgSize]

def envs : Nat := bootCursor c.kernelEnd [BitVec.ofNat 32 pgSize, BitVec.ofNat 32 (c.npages * sizeofPageInfo)]

def cleared (page index : Nat) : Word := if page = bootStart c.kernelEnd / pgSize then 0 else c.word page index

theorem npages_small : c.npages ≤ 2^32 := by
  have limited := c.limited
  rw [maxNpages_eq] at limited
  omega

theorem pml4_extended : c.npagesBasemem ≤ bootStart c.kernelEnd / pgSize := by
  have extended := c.extended
  have behind := bootStart_le c.kernelEnd
  rw [pgSize] at *
  omega

theorem pml4_allocated :
    bootStart c.kernelEnd / pgSize ≤ bootCursor c.kernelEnd (bootCalls c.npages) / pgSize := by
  rw [bootCursor_eq]
  exact Nat.div_le_div_right (Nat.le_add_right ..)

theorem pml4_inside : bootStart c.kernelEnd / pgSize < c.npages := by
  have room := c.room
  rw [pgSize] at *
  omega

theorem pml4_cleared (index : Nat) : c.cleared (bootStart c.kernelEnd / pgSize) index = 0 := if_pos rfl

def boot : BootConfig where
  npages := c.npages
  npagesBasemem := c.npagesBasemem
  kernEnd := bootCursor c.kernelEnd (bootCalls c.npages) / pgSize
  bootPml4e := bootStart c.kernelEnd / pgSize
  word := c.cleared
  small := c.npages_small
  pml4Extended := c.pml4_extended
  pml4Allocated := c.pml4_allocated
  pml4Inside := c.pml4_inside
  pml4Cleared := c.pml4_cleared

def x64VmInit : Except Stop Memory := do
  let m := c.boot.pageInit
  let m ← m.bootMapRegion upages (ptSize / pgSize) (BitVec.ofNat 64 c.pages) ((pteU ||| pteP).setWidth 32)
  let m ← m.bootMapRegion uenvs (ptSize / pgSize) (BitVec.ofNat 64 c.envs) ((pteU ||| pteP).setWidth 32)
  let m ← m.bootMapRegion (kstackTop - BitVec.ofNat 64 kstkSize) (kstkSize / pgSize) c.bootstack (pteW.setWidth 32)
  let m ← m.bootMapRegion kernBase c.npages 0 (pteW.setWidth 32)
  -- mem_init_mp
  (List.range ncpu).foldlM (fun m i => m.bootMapRegion
    (kstackTop - BitVec.ofNat 64 (i * (kstkSize + kstkGap)) - BitVec.ofNat 64 kstkSize) (kstkSize / pgSize)
    (c.percpuKstacks i) (pteW.setWidth 32)) m

def windowEntry (va : Word) : Word :=
  if pageNumber uenvs ≤ pageNumber va ∧ pageNumber va < pageNumber uenvs + 512 then
    regionEntry (BitVec.ofNat 64 c.envs) ((pteU ||| pteP).setWidth 32) (pageNumber va - pageNumber uenvs)
  else if pageNumber upages ≤ pageNumber va ∧ pageNumber va < pageNumber upages + 512 then
    regionEntry (BitVec.ofNat 64 c.pages) ((pteU ||| pteP).setWidth 32) (pageNumber va - pageNumber upages)
  else 0

/-- A state of `x64_vm_init` after both windows have been mapped. -/
def Windows (m : Memory) : Prop :=
  (∃ g, Consistent m g) ∧ m.bootPml4e = c.boot.bootPml4e ∧
    ∀ va, va < ulim → m.entry m.bootPml4e va = c.windowEntry va

variable {c} {m m' : Memory}

theorem pageInit_entry (va : Word) : c.boot.pageInit.entry c.boot.bootPml4e va = 0 := by
  have absent : c.boot.pageInit.child c.boot.bootPml4e (pml4 va) = none := by
    rw [Memory.child_eq_none, c.boot.pageInit_word, c.boot.pml4Cleared]
    decide
  rw [Memory.entry, Memory.leafSlot, Radix.descend_cons, absent]
  rfl

theorem Windows.region {la pa : Word} {perm : BitVec 32} {pages : Nat} (windows : c.Windows m) (above : ulim ≤ la)
    (inside : la.toNat + pages * pgSize ≤ 0x10000000000) (mapped : m.bootMapRegion la pages pa perm = .ok m') :
    c.Windows m' := by
  obtain ⟨⟨g, valid⟩, boot, entry⟩ := windows
  have ulim_eq : ulim.toNat = 0x8003c00000 := rfl
  have utop_eq : utop.toNat = 0x8000800000 := rfl
  have aboveTop : utop ≤ la := by
    rw [BitVec.le_def] at above ⊢
    omega
  obtain ⟨g', valid', boot', entry'⟩ := valid.bootMapRegion aboveTop inside mapped
  refine ⟨⟨g', valid'⟩, boot'.trans boot, ?_⟩
  intro va below
  have belowWindow : va < uvpt := by
    rw [BitVec.lt_def] at below ⊢
    change _ < 0x10000000000
    omega
  rw [boot', entry' va belowWindow, if_neg, entry va below]
  rw [BitVec.le_def] at above
  rw [BitVec.lt_def] at below
  rw [pageNumber, pageNumber]
  omega

theorem kstack_toNat {i : Nat} (below : i < ncpu) :
    (kstackTop - BitVec.ofNat 64 (i * (kstkSize + kstkGap)) - BitVec.ofNat 64 kstkSize).toNat =
      0x8003ff0000 - i * 0x18000 := by
  rw [ncpu] at below
  have gap : (BitVec.ofNat 64 (i * (kstkSize + kstkGap))).toNat = i * 0x18000 := by
    rw [BitVec.toNat_ofNat, kstkSize, kstkGap, pgSize]
    omega
  have size : (BitVec.ofNat 64 kstkSize).toNat = 0x10000 := rfl
  have top : kstackTop.toNat = 0x8004000000 := rfl
  rw [BitVec.toNat_sub, BitVec.toNat_sub, gap, size, top]
  omega

/-- The regions that are mapped at and above ULIM: the stacks and all of memory. -/
theorem kernel_regions (c : VmConfig) :
    (ulim ≤ kstackTop - BitVec.ofNat 64 kstkSize ∧
      (kstackTop - BitVec.ofNat 64 kstkSize).toNat + kstkSize / pgSize * pgSize ≤ 0x10000000000) ∧
    (ulim ≤ kernBase ∧ kernBase.toNat + c.npages * pgSize ≤ 0x10000000000) ∧
    ∀ i < ncpu, ulim ≤ kstackTop - BitVec.ofNat 64 (i * (kstkSize + kstkGap)) - BitVec.ofNat 64 kstkSize ∧
      (kstackTop - BitVec.ofNat 64 (i * (kstkSize + kstkGap)) - BitVec.ofNat 64 kstkSize).toNat +
        kstkSize / pgSize * pgSize ≤ 0x10000000000 := by
  refine ⟨by decide, ⟨by decide, ?_⟩, ?_⟩
  · have limited := c.limited
    have base : kernBase.toNat = 0x8004000000 := rfl
    rw [maxNpages_eq] at limited
    rw [base, pgSize]
    omega
  · intro i below
    have place := kstack_toNat below
    have limit : ulim.toNat = 0x8003c00000 := rfl
    have size : kstkSize / pgSize * pgSize = 0x10000 := by decide
    rw [ncpu] at below
    rw [BitVec.le_def, place, limit, size]
    omega

theorem windows_mapped {m₁ m₂ : Memory} (pages : c.boot.pageInit.bootMapRegion upages (ptSize / pgSize)
      (BitVec.ofNat 64 c.pages) ((pteU ||| pteP).setWidth 32) = .ok m₁)
    (envs : m₁.bootMapRegion uenvs (ptSize / pgSize) (BitVec.ofNat 64 c.envs) ((pteU ||| pteP).setWidth 32) = .ok m₂) :
    c.Windows m₂ := by
  have root : c.boot.pageInit.bootPml4e = c.boot.bootPml4e :=
    c.boot.pageInit_bootPml4e
  obtain ⟨g₁, valid₁, boot₁, entry₁⟩ := c.boot.pageInit_consistent.bootMapRegion (by decide) (by decide) pages
  obtain ⟨g₂, valid₂, boot₂, entry₂⟩ := valid₁.bootMapRegion (by decide) (by decide) envs
  refine ⟨⟨g₂, valid₂⟩, by rw [boot₂, boot₁, root], ?_⟩
  intro va below
  have belowWindow : va < uvpt := by
    rw [BitVec.lt_def] at below ⊢
    exact Nat.lt_trans below (by decide)
  rw [boot₂, entry₂ va belowWindow, boot₁, entry₁ va belowWindow, root, pageInit_entry]
  rfl

theorem x64VmInit_windows (done : c.x64VmInit = .ok m') : c.Windows m' := by
  obtain ⟨⟨stackAbove, stackInside⟩, ⟨baseAbove, baseInside⟩, cpus⟩ := kernel_regions c
  obtain ⟨m₁, pages, done⟩ := Fallible.bind_ok.mp done
  obtain ⟨m₂, envs, done⟩ := Fallible.bind_ok.mp done
  obtain ⟨m₃, stack, done⟩ := Fallible.bind_ok.mp done
  obtain ⟨m₄, base, done⟩ := Fallible.bind_ok.mp done
  have mapped := ((windows_mapped pages envs).region stackAbove stackInside stack).region baseAbove baseInside base
  refine Fallible.foldlM_keeps c.Windows ?_ mapped done
  intro state i next member kept step
  obtain ⟨above, inside⟩ := cpus i (List.mem_range.mp member)
  exact kept.region above inside step

-- Where there is memory for the page tables

theorem pageInit_spare {count : Nat} (enough : c.boot.kernEnd + 8 + count ≤ c.npages) : c.boot.pageInit.Spare count := by
  refine ⟨_, c.boot.pageInit_chain, ?_⟩
  have behind : List.range' (c.boot.kernEnd + 8) count ⊆ c.boot.freePages c.boot.npages := by
    intro page member
    rw [List.mem_range'_1] at member
    rw [BootConfig.mem_freePages]
    have entry : ppn mpentryPaddr = 7 := rfl
    have size : c.boot.npages = c.npages := rfl
    change page < c.boot.npages ∧
      ¬ ((page = 0 ∨ page = ppn mpentryPaddr) ∨ ¬ (page < c.boot.npagesBasemem ∨ c.boot.kernEnd < page))
    omega
  have nodup : (List.range' (c.boot.kernEnd + 8) count).Nodup := List.nodup_range'
  have fewer := (nodup.subperm behind).length_le
  rwa [List.length_range'] at fewer

theorem Windows.region_done {la pa : Word} {perm : BitVec 32} {pages count : Nat} (windows : c.Windows m)
    (above : ulim ≤ la) (inside : la.toNat + pages * pgSize ≤ 0x10000000000)
    (spare : m.Spare (count + 3 * tablesFor la pages)) :
    ∃ m', m.bootMapRegion la pages pa perm = .ok m' ∧ c.Windows m' ∧ m'.Spare count := by
  obtain ⟨g, valid⟩ := windows.1
  have aboveTop : utop ≤ la := by
    rw [BitVec.le_def] at above ⊢
    exact Nat.le_trans (by decide) above
  obtain ⟨m', mapped, spare'⟩ := valid.bootMapRegion_done pa perm aboveTop inside (.inl spare)
  exact ⟨m', mapped, windows.region above inside mapped, spare'⟩

theorem kstk_pages : kstkSize / pgSize = 16 := by decide

theorem tablesFor_kstack {i : Nat} (below : i < ncpu) :
    tablesFor (kstackTop - BitVec.ofNat 64 (i * (kstkSize + kstkGap)) - BitVec.ofNat 64 kstkSize)
      (kstkSize / pgSize) = 1 := by
  rw [kstk_pages, tablesFor, pageNumber, kstack_toNat below]
  rw [ncpu] at below
  omega

theorem cpu_stacks_done {cpus : List Nat} {count : Nat} (small : ∀ i ∈ cpus, i < ncpu) (windows : c.Windows m)
    (spare : m.Spare (count + 3 * cpus.length)) :
    ∃ m', cpus.foldlM (fun m i => m.bootMapRegion
      (kstackTop - BitVec.ofNat 64 (i * (kstkSize + kstkGap)) - BitVec.ofNat 64 kstkSize) (kstkSize / pgSize)
      (c.percpuKstacks i) (pteW.setWidth 32)) m = .ok m' ∧ m'.Spare count := by
  induction cpus generalizing m with
  | nil => exact ⟨m, rfl, spare⟩
  | cons i cpus ih =>
    have below := small i (List.mem_cons_self ..)
    obtain ⟨above, inside⟩ := (kernel_regions c).2.2 i below
    have first : m.Spare (count + 3 * cpus.length + 3 * tablesFor
        (kstackTop - BitVec.ofNat 64 (i * (kstkSize + kstkGap)) - BitVec.ofNat 64 kstkSize) (kstkSize / pgSize)) := by
      rw [tablesFor_kstack below]
      refine spare.weaken ?_
      rw [List.length_cons]
      omega
    obtain ⟨m₁, mapped, windows₁, spare₁⟩ := windows.region_done above inside first
    obtain ⟨m', rest, left⟩ := ih (fun other member => small other (List.mem_cons_of_mem _ member)) windows₁ spare₁
    refine ⟨m', ?_, left⟩
    rw [List.foldlM_cons, Fallible.bind_of_ok mapped, rest]

/-- `x64_vm_init` succeeds where three pages are free for each page table, and leaves the others. -/
theorem x64VmInit_spare (c : VmConfig) {count : Nat}
    (enough : c.boot.kernEnd + 8 + (count + 3 * (11 + tablesFor kernBase c.npages)) ≤ c.npages) :
    ∃ m', c.x64VmInit = .ok m' ∧ m'.Spare count := by
  obtain ⟨⟨stackAbove, stackInside⟩, ⟨baseAbove, baseInside⟩, -⟩ := kernel_regions c
  have spare : c.boot.pageInit.Spare
      (count + 3 * (10 + tablesFor kernBase c.npages) + 3 * tablesFor upages (ptSize / pgSize)) := by
    have one : tablesFor upages (ptSize / pgSize) = 1 := by decide
    rw [one]
    exact (pageInit_spare enough).weaken (by omega)
  obtain ⟨m₁, pages, spare₁⟩ := c.boot.pageInit_consistent.bootMapRegion_done (BitVec.ofNat 64 c.pages)
    ((pteU ||| pteP).setWidth 32) (by decide) (by decide) (.inl spare)
  obtain ⟨g₁, valid₁, -, -⟩ := c.boot.pageInit_consistent.bootMapRegion (by decide) (by decide) pages
  have spare₁ : m₁.Spare (count + 3 * (9 + tablesFor kernBase c.npages) + 3 * tablesFor uenvs (ptSize / pgSize)) := by
    have one : tablesFor uenvs (ptSize / pgSize) = 1 := by decide
    rw [one]
    exact spare₁.weaken (by omega)
  obtain ⟨m₂, envs, spare₂⟩ := valid₁.bootMapRegion_done (BitVec.ofNat 64 c.envs)
    ((pteU ||| pteP).setWidth 32) (by decide) (by decide) (.inl spare₁)
  have spare₂ : m₂.Spare (count + 3 * (8 + tablesFor kernBase c.npages) +
      3 * tablesFor (kstackTop - BitVec.ofNat 64 kstkSize) (kstkSize / pgSize)) := by
    have one : tablesFor (kstackTop - BitVec.ofNat 64 kstkSize) (kstkSize / pgSize) = 1 := by decide
    rw [one]
    exact spare₂.weaken (by omega)
  obtain ⟨m₃, stack, windows₃, spare₃⟩ := (windows_mapped pages envs).region_done stackAbove stackInside spare₂
  have spare₃ : m₃.Spare (count + 3 * (List.range ncpu).length + 3 * tablesFor kernBase c.npages) := by
    rw [List.length_range, ncpu]
    exact spare₃.weaken (by omega)
  obtain ⟨m₄, base, windows₄, spare₄⟩ := windows₃.region_done baseAbove baseInside spare₃
  obtain ⟨m', cpus, left⟩ := cpu_stacks_done (fun i member => List.mem_range.mp member) windows₄ spare₄
  refine ⟨m', ?_, left⟩
  exact Fallible.bind_ok.mpr ⟨m₁, pages, Fallible.bind_ok.mpr ⟨m₂, envs, Fallible.bind_ok.mpr ⟨m₃, stack,
    Fallible.bind_ok.mpr ⟨m₄, base, cpus⟩⟩⟩⟩

theorem x64VmInit_done (c : VmConfig)
    (enough : c.boot.kernEnd + 8 + 3 * (11 + tablesFor kernBase c.npages) ≤ c.npages) :
    ∃ m', c.x64VmInit = .ok m' := by
  have none : c.boot.kernEnd + 8 + (0 + 3 * (11 + tablesFor kernBase c.npages)) ≤ c.npages := by
    rwa [Nat.zero_add]
  obtain ⟨m', done, -⟩ := x64VmInit_spare c none
  exact ⟨m', done⟩

end VmConfig

end Jos
