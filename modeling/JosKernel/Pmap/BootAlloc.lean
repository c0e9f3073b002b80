import Mathlib.Data.List.Induction
import JosKernel.Pmap.Detect

namespace Jos

-- kern/pmap.c: boot_alloc

/-- The first value of `nextfree`, where the kernel ends at `kernelEnd`. Like `nextfree` it is counted from
    KERNBASE. -/
def bootStart (kernelEnd : Nat) : Nat := (kernelEnd + (pgSize - 1)) / pgSize * pgSize

/-- `nextfree` after the calls `boot_alloc(n)` for the `n` of the list. -/
def bootCursor (kernelEnd : Nat) (calls : List (BitVec 32)) : Nat := calls.foldl bootAlloc (bootStart kernelEnd)

structure BootRegion where
  addr : Nat
  size : Nat
  deriving DecidableEq, Repr

/-- The results of the calls from `nextfree` on. No call fails. -/
def bootAllocs (nextfree : Nat) : List (BitVec 32) → List BootRegion
  | [] => []
  | n :: calls => ⟨nextfree, n.toNat⟩ :: bootAllocs (bootAlloc nextfree n) calls

def pagesFor (n : BitVec 32) : Nat := (n.toNat + (pgSize - 1)) / pgSize

theorem bootStart_aligned (kernelEnd : Nat) : bootStart kernelEnd % pgSize = 0 := Nat.mul_mod_left ..

theorem bootStart_le (kernelEnd : Nat) : kernelEnd ≤ bootStart kernelEnd := by
  rw [bootStart, pgSize]
  omega

theorem bootAlloc_aligned {nextfree : Nat} (aligned : nextfree % pgSize = 0) (n : BitVec 32) :
    bootAlloc nextfree n = nextfree + pgSize * pagesFor n := by
  rw [bootAlloc, pagesFor]
  rw [pgSize] at aligned ⊢
  split
  · omega
  · rename_i zero
    rw [BitVec.lt_def] at zero
    have none : n.toNat = 0 := Nat.eq_zero_of_not_pos zero
    rw [none]
    omega

theorem bootCursor_append (kernelEnd : Nat) (early late : List (BitVec 32)) :
    bootCursor kernelEnd (early ++ late) = late.foldl bootAlloc (bootCursor kernelEnd early) := List.foldl_append ..

theorem bootCursor_eq (kernelEnd : Nat) (calls : List (BitVec 32)) :
    bootCursor kernelEnd calls = bootStart kernelEnd + pgSize * (calls.map pagesFor).sum := by
  induction calls using List.reverseRecOn with
  | nil => rw [bootCursor, List.foldl_nil, List.map_nil, List.sum_nil, Nat.mul_zero, Nat.add_zero]
  | append_singleton calls n ih =>
    have aligned : bootCursor kernelEnd calls % pgSize = 0 := by
      have start := bootStart_aligned kernelEnd
      rw [ih]
      rw [pgSize] at start ⊢
      omega
    rw [bootCursor_append, List.foldl_cons, List.foldl_nil, bootAlloc_aligned aligned, ih, List.map_append,
      List.sum_append, List.map_singleton, List.sum_singleton, Nat.mul_add, Nat.add_assoc]

theorem bootCursor_aligned (kernelEnd : Nat) (calls : List (BitVec 32)) : bootCursor kernelEnd calls % pgSize = 0 := by
  have start := bootStart_aligned kernelEnd
  rw [bootCursor_eq]
  rw [pgSize] at start ⊢
  omega

theorem bootAllocs_append (nextfree : Nat) (early late : List (BitVec 32)) : bootAllocs nextfree (early ++ late) =
    bootAllocs nextfree early ++ bootAllocs (early.foldl bootAlloc nextfree) late := by
  induction early generalizing nextfree with
  | nil => rfl
  | cons n early ih =>
    rw [List.cons_append, bootAllocs, bootAllocs, ih]
    rfl

theorem mem_bootAllocs {kernelEnd : Nat} {calls : List (BitVec 32)} {region : BootRegion} :
    region ∈ bootAllocs (bootStart kernelEnd) calls ↔ ∃ early n late, calls = early ++ n :: late ∧
      region = ⟨bootCursor kernelEnd early, n.toNat⟩ := by
  constructor
  · intro member
    induction calls using List.reverseRecOn with
    | nil => cases member
    | append_singleton calls n ih =>
      rw [bootAllocs_append] at member
      rcases List.mem_append.mp member with before | last
      · obtain ⟨early, k, late, rfl, rfl⟩ := ih before
        exact ⟨early, k, late ++ [n], by simp, rfl⟩
      · exact ⟨calls, n, [], rfl, List.mem_singleton.mp last⟩
  · rintro ⟨early, n, late, rfl, rfl⟩
    rw [bootAllocs_append]
    exact List.mem_append_right _ (List.mem_cons_self ..)

namespace BootRegion

def Contains (region : BootRegion) (address : Nat) : Prop :=
  region.addr ≤ address ∧ address < region.addr + region.size

instance (region : BootRegion) (address : Nat) : Decidable (region.Contains address) :=
  inferInstanceAs (Decidable (_ ∧ _))

def Apart (left right : BootRegion) : Prop := ∀ address, ¬ (left.Contains address ∧ right.Contains address)

end BootRegion

/-- What the callers of `boot_alloc` rely on, in a machine with `npages` pages. -/
structure BootAllocSound (npages kernelEnd : Nat) (regions : List BootRegion) : Prop where
  aligned : ∀ region ∈ regions, region.addr % pgSize = 0
  behind : ∀ region ∈ regions, kernelEnd ≤ region.addr
  apart : regions.Pairwise BootRegion.Apart
  inside : ∀ region ∈ regions, ∀ address, region.Contains address → address < npages * pgSize

theorem bootAllocs_apart (nextfree : Nat) (aligned : nextfree % pgSize = 0) (calls : List (BitVec 32)) :
    (bootAllocs nextfree calls).Pairwise BootRegion.Apart ∧
      ∀ region ∈ bootAllocs nextfree calls, nextfree ≤ region.addr := by
  induction calls generalizing nextfree with
  | nil => exact ⟨.nil, by simp [bootAllocs]⟩
  | cons n calls ih =>
    have next := bootAlloc_aligned aligned n
    have beyond : nextfree + n.toNat ≤ bootAlloc nextfree n := by
      rw [next, pagesFor, pgSize]
      omega
    obtain ⟨apart, behind⟩ := ih (bootAlloc nextfree n) (by
      rw [next]
      rw [pgSize] at aligned ⊢
      omega)
    refine ⟨List.pairwise_cons.mpr ⟨fun region member address both => ?_, apart⟩, fun region member => ?_⟩
    · have later := behind region member
      have upper := both.1.2
      have lower := both.2.1
      simp only at upper
      omega
    · rcases List.mem_cons.mp member with rfl | member
      · exact Nat.le_refl _
      · have later := behind region member
        omega

/-- The regions are what they should be exactly if the memory holds them, which no call checks. -/
theorem boot_alloc_regions (npages kernelEnd : Nat) (calls : List (BitVec 32)) :
    BootAllocSound npages kernelEnd (bootAllocs (bootStart kernelEnd) calls) ↔
      ∀ early n late, calls = early ++ n :: late → 0 < n →
        bootStart kernelEnd + pgSize * (early.map pagesFor).sum + n.toNat ≤ npages * pgSize := by
  constructor
  · rintro ⟨-, -, -, inside⟩ early n late split some
    rw [BitVec.lt_def] at some
    have size : 0 < n.toNat := some
    have last := inside _ (mem_bootAllocs.mpr ⟨early, n, late, split, rfl⟩) (bootCursor kernelEnd early + n.toNat - 1) ⟨by
      simp only
      omega, by
      simp only
      omega⟩
    rw [bootCursor_eq] at last
    omega
  · intro fits
    refine ⟨?_, ?_, (bootAllocs_apart _ (bootStart_aligned kernelEnd) calls).1, ?_⟩
    · intro region member
      obtain ⟨early, n, late, -, rfl⟩ := mem_bootAllocs.mp member
      exact bootCursor_aligned kernelEnd early
    · intro region member
      exact Nat.le_trans (bootStart_le kernelEnd)
        ((bootAllocs_apart _ (bootStart_aligned kernelEnd) calls).2 region member)
    · intro region member address within
      obtain ⟨early, n, late, split, rfl⟩ := mem_bootAllocs.mp member
      obtain ⟨lower, upper⟩ := within
      simp only at lower upper
      have some : 0 < n := by
        rw [BitVec.lt_def]
        change 0 < n.toNat
        omega
      have room := fits early n late split some
      rw [bootCursor_eq] at upper
      omega

/-- What `x64_vm_init` allocates: the PML4, `pages` and `envs`. -/
def bootCalls (npages : Nat) : List (BitVec 32) :=
  [BitVec.ofNat 32 pgSize, BitVec.ofNat 32 (npages * sizeofPageInfo), BitVec.ofNat 32 (1024 * sizeofEnv)]

/-- In a machine with 5 MB, most of which the kernel takes, `envs` ends behind the memory. -/
theorem boot_alloc_beyond : ¬ BootAllocSound 1280 0x4c0000 (bootAllocs (bootStart 0x4c0000) (bootCalls 1280)) := by
  intro sound
  have last : (⟨0x4c6000, 0x48000⟩ : BootRegion) ∈ bootAllocs (bootStart 0x4c0000) (bootCalls 1280) := by
    decide +kernel
  exact absurd (sound.inside _ last 0x500000 (by decide)) (by decide)

-- kern/pmap.c: page_init

/-- The pages that are free where `boot_alloc(0)` returns `nextfree`. -/
def Unclaimed (npages npagesBasemem nextfree page : Nat) : Prop :=
  0 < page ∧ page < npages ∧ page ≠ ppn mpentryPaddr ∧ (page < npagesBasemem ∨ nextfree ≤ page * pgSize)

instance (npages npagesBasemem nextfree page : Nat) : Decidable (Unclaimed npages npagesBasemem nextfree page) :=
  inferInstanceAs (Decidable (_ ∧ _))

structure PagesInitialised (npages npagesBasemem nextfree : Nat) (m : Memory) : Prop where
  free : ∃ pages, Linked.Chain m.ppLink m.pageFreeList pages ∧ pages.Pairwise (· < ·) ∧
    ∀ page, page ∈ pages ↔ Unclaimed npages npagesBasemem nextfree page
  refs : ∀ page, page < npages →
    m.ppRef page = if Unclaimed npages npagesBasemem nextfree page then 0 else 1

def pagesInit (npages npagesBasemem kernelEnd : Nat) (calls : List (BitVec 32)) (start : Memory) : Memory :=
  PageCounts.pageInit ⟨npages, npagesBasemem, bootCursor kernelEnd calls / pgSize⟩
    { start with npages := npages, pageFreeList := none }

section PageInit

variable {npages npagesBasemem kernelEnd : Nat} {calls : List (BitVec 32)}

theorem PageCounts.freePages_ascending (c : PageCounts) (bound : Nat) : (c.freePages bound).Pairwise (· < ·) :=
  List.Pairwise.filter _ List.pairwise_lt_range

theorem unclaimed_iff {page : Nat} (inside : page < npages) :
    Unclaimed npages npagesBasemem (bootCursor kernelEnd calls) page ↔
      ¬ PageCounts.Reserved ⟨npages, npagesBasemem, bootCursor kernelEnd calls / pgSize⟩ page ∨
        page = bootCursor kernelEnd calls / pgSize ∧ page ≠ 0 ∧ page ≠ ppn mpentryPaddr := by
  have aligned := bootCursor_aligned kernelEnd calls
  rw [Unclaimed, PageCounts.Reserved]
  rw [pgSize] at aligned ⊢
  simp only
  omega

theorem pagesInit_refs {start : Memory} {page : Nat} (inside : page < npages) :
    (pagesInit npages npagesBasemem kernelEnd calls start).ppRef page =
      if PageCounts.Reserved ⟨npages, npagesBasemem, bootCursor kernelEnd calls / pgSize⟩ page then 1 else 0 :=
  (PageCounts.initialised_loop _ { start with npages := npages, pageFreeList := none } rfl npages).ppRef page inside

theorem pagesInit_reserved {start : Memory} (inside : bootCursor kernelEnd calls / pgSize < npages)
    (extended : npagesBasemem ≤ bootCursor kernelEnd calls / pgSize) :
    (pagesInit npages npagesBasemem kernelEnd calls start).ppRef (bootCursor kernelEnd calls / pgSize) = 1 := by
  rw [pagesInit_refs inside, if_pos]
  exact .inr (by
    simp only
    omega)

end PageInit

/-- The list and the counters are what they should be exactly if no page starts where `boot_alloc` has stopped. -/
theorem page_init_free_pages (npages npagesBasemem kernelEnd : Nat) (calls : List (BitVec 32)) (start : Memory) :
    PagesInitialised npages npagesBasemem (bootCursor kernelEnd calls)
        (pagesInit npages npagesBasemem kernelEnd calls start) ↔
      npages ≤ bootCursor kernelEnd calls / pgSize ∨ bootCursor kernelEnd calls / pgSize < npagesBasemem ∨
        bootCursor kernelEnd calls / pgSize = 0 ∨ bootCursor kernelEnd calls / pgSize = ppn mpentryPaddr := by
  have built := PageCounts.initialised_loop ⟨npages, npagesBasemem, bootCursor kernelEnd calls / pgSize⟩
    { start with npages := npages, pageFreeList := none } rfl npages
  constructor
  · intro initialised
    by_contra fails
    have inside : bootCursor kernelEnd calls / pgSize < npages := by omega
    have count := initialised.refs _ inside
    rw [pagesInit_reserved inside (by omega), if_pos] at count
    · cases count
    · rw [unclaimed_iff inside]
      exact .inr (by omega)
  · intro condition
    have usable : ∀ page, page < npages → (Unclaimed npages npagesBasemem (bootCursor kernelEnd calls) page ↔
        ¬ PageCounts.Reserved ⟨npages, npagesBasemem, bootCursor kernelEnd calls / pgSize⟩ page) := by
      intro page inside
      rw [unclaimed_iff inside, PageCounts.Reserved]
      simp only
      omega
    constructor
    · refine ⟨_, built.chain, PageCounts.freePages_ascending .., ?_⟩
      intro page
      rw [PageCounts.mem_freePages]
      constructor
      · rintro ⟨inside, free⟩
        exact (usable page inside).mpr free
      · intro free
        exact ⟨free.2.1, (usable page free.2.1).mp free⟩
    · intro page inside
      rw [pagesInit_refs inside]
      by_cases reserved : PageCounts.Reserved ⟨npages, npagesBasemem, bootCursor kernelEnd calls / pgSize⟩ page
      · rw [if_pos reserved, if_neg (mt (usable page inside).mp (not_not_intro reserved))]
      · rw [if_neg reserved, if_pos ((usable page inside).mpr reserved)]

def unusedMemory : Memory where
  npages := 0
  bootPml4e := 0
  word := fun _ _ => 0
  ppRef := fun _ => 0
  ppLink := fun _ => none
  pageFreeList := none
  userMemCheckAddr := 0

/-- In a machine with 8 MB and a kernel that ends at 0x180000, page 0x1d1 is neither given out nor free. -/
theorem page_init_leaks : 160 ≤ iophysMem / pgSize ∧
    ¬ PagesInitialised 2048 160 (bootCursor 0x180000 (bootCalls 2048))
      (pagesInit 2048 160 0x180000 (bootCalls 2048) unusedMemory) := by
  refine ⟨by decide, ?_⟩
  intro initialised
  have next : bootCursor 0x180000 (bootCalls 2048) / pgSize = 0x1d1 := by decide +kernel
  have count := initialised.refs 0x1d1 (by decide)
  have leaked : (pagesInit 2048 160 0x180000 (bootCalls 2048) unusedMemory).ppRef
      (bootCursor 0x180000 (bootCalls 2048) / pgSize) = 1 :=
    pagesInit_reserved (by rw [next]; decide) (by rw [next]; decide)
  rw [next] at leaked
  rw [leaked] at count
  exact absurd count (by decide +kernel)

end Jos
