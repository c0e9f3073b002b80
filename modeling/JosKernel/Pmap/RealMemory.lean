import JosKernel.Env.Loaded
import JosKernel.Pmap.Multiboot

namespace Jos

namespace BootMemory

def cmosWord (d : BootMemory) (r : Nat) : Nat := (d.mc146818 r).toNat + 256 * (d.mc146818 (r + 1)).toNat

def Usable (d : BootMemory) (address : Nat) : Prop :=
  match d.mmap with
  | some mmap => ∃ map ∈ mmap, map.region.Usable ∧
      map.addr.toNat ≤ address ∧ address < map.addr.toNat + map.length.toNat
  | none => address < 1024 * d.cmosWord nvramBaselo ∨ extphysMem ≤ address ∧
      address < if d.cmosWord nvramExtlo = 0xffff then 2^24 + 2^16 * d.cmosWord nvramExtgt16lo
        else extphysMem + 1024 * d.cmosWord nvramExtlo

/-- How much base memory there is: the usable blocks of the map that begin below 1 MB, put together. -/
def baseTotal (d : BootMemory) : Nat :=
  match d.mmap with
  | some mmap => (MemoryRange.lowUsable (MemoryRange.blocks (mmap.map MemoryMap.region))).toNat
  | none => 1024 * d.cmosWord nvramBaselo

/-- How much extended memory there is. The blocks of 64 KB are counted in an `int`, which is negative from
    2 GB on. -/
def extTotal (d : BootMemory) : Nat :=
  if d.cmosWord nvramExtlo = 0xffff then
    let blocks := d.cmosWord nvramExtgt16lo
    (15 * 2^20 + if blocks < 2^15 then 2^16 * blocks else 2^64 - 2^32 + 2^16 * blocks) % 2^64
  else
    match d.mmap with
    | some mmap => (MemoryRange.highUsable (MemoryRange.blocks (mmap.map MemoryMap.region))).toNat
    | none => 1024 * d.cmosWord nvramExtlo

/-- The number of pages that this amounts to, if base memory starts at 0 and extended memory at 1 MB. -/
def top (d : BootMemory) : Nat :=
  let pages := if d.extTotal / pgSize = 0 then d.baseTotal / pgSize
    else extphysMem / pgSize + d.extTotal / pgSize
  if maxNpages < pages then maxNpages - 1024 else pages

theorem nvramRead_toNat (d : BootMemory) (r : Nat) : (d.nvramRead r).toNat = d.cmosWord r := by
  have low := (d.mc146818 r).isLt
  have high := (d.mc146818 (r + 1)).isLt
  have shifted : ((d.mc146818 (r + 1)).setWidth 32 <<< 8 : BitVec 32).toNat = 2^8 * (d.mc146818 (r + 1)).toNat := by
    rw [BitVec.toNat_shiftLeft, BitVec.toNat_setWidth, Nat.shiftLeft_eq]
    omega
  rw [nvramRead, BitVec.toNat_or, shifted, Nat.or_comm, BitVec.toNat_setWidth, Nat.mod_eq_of_lt (by omega),
    ← Nat.two_pow_add_eq_or_of_lt low, cmosWord]
  omega

theorem nvramRead_eq_iff (d : BootMemory) (r : Nat) : d.nvramRead r = 0xffff ↔ d.cmosWord r = 0xffff := by
  rw [← BitVec.toNat_inj, nvramRead_toNat]
  rfl

theorem cmosWord_lt (d : BootMemory) (r : Nat) : d.cmosWord r < 2^16 := by
  have low := (d.mc146818 r).isLt
  have high := (d.mc146818 (r + 1)).isLt
  rw [cmosWord]
  omega

theorem signExtend_toNat (x : BitVec 32) :
    (x.signExtend 64).toNat = if x.toNat < 2^31 then x.toNat else 2^64 - 2^32 + x.toNat := by
  have bound := x.isLt
  rw [BitVec.toNat_signExtend, BitVec.toNat_setWidth, BitVec.msb_eq_decide]
  simp only [decide_eq_true_eq]
  split <;> split <;> omega

theorem kilobytes_toNat (d : BootMemory) (r : Nat) :
    ((d.nvramRead r * 1024).signExtend 64).toNat = 1024 * d.cmosWord r := by
  have bound := d.cmosWord_lt r
  have product : (d.nvramRead r * 1024).toNat = 1024 * d.cmosWord r := by
    rw [BitVec.toNat_mul, nvramRead_toNat]
    change d.cmosWord r * 1024 % 2^32 = _
    omega
  rw [signExtend_toNat, product, if_pos (by omega)]

theorem blocks_toNat (d : BootMemory) (r : Nat) :
    ((d.nvramRead r * (64 * 1024)).signExtend 64).toNat =
      if d.cmosWord r < 2^15 then 2^16 * d.cmosWord r else 2^64 - 2^32 + 2^16 * d.cmosWord r := by
  have bound := d.cmosWord_lt r
  have product : (d.nvramRead r * (64 * 1024)).toNat = 2^16 * d.cmosWord r := by
    rw [BitVec.toNat_mul, nvramRead_toNat]
    change d.cmosWord r * 65536 % 2^32 = _
    omega
  rw [signExtend_toNat, product]
  exact if_congr (by omega) rfl rfl

theorem sizes_base (d : BootMemory) (stack : Nat → Option Nat) : (d.sizes stack).1.toNat = d.baseTotal := by
  rw [sizes, baseTotal]
  cases d.mmap with
  | some mmap => exact congrArg (fun sums => BitVec.toNat sums.1) (multibootRead_eq mmap stack)
  | none => exact d.kilobytes_toNat nvramBaselo

theorem sizes_ext (d : BootMemory) (stack : Nat → Option Nat) (below : d.cmosWord nvramExtlo ≠ 0xffff) :
    (d.sizes stack).2.toNat = d.extTotal := by
  rw [sizes, extTotal, if_neg below]
  cases d.mmap with
  | some mmap => exact congrArg (fun sums => BitVec.toNat sums.2) (multibootRead_eq mmap stack)
  | none => exact d.kilobytes_toNat nvramExtlo

theorem pages_toNat (bytes : Word) : (bytes / BitVec.ofNat 64 pgSize).toNat = bytes.toNat / pgSize := by
  rw [BitVec.toNat_udiv, BitVec.toNat_ofNat]
  rfl

theorem npagesExtmem_toNat (d : BootMemory) (stack : Nat → Option Nat) :
    (d.npagesExtmem (d.sizes stack).2).toNat = d.extTotal / pgSize := by
  by_cases full : d.cmosWord nvramExtlo = 0xffff
  · have bound := d.cmosWord_lt nvramExtgt16lo
    rw [npagesExtmem, if_pos ((d.nvramRead_eq_iff nvramExtlo).mpr full), pages_toNat, extTotal, if_pos full,
      BitVec.toNat_sub, BitVec.toNat_add, blocks_toNat]
    change (2^64 - 2^20 + (2^24 + _) % 2^64) % 2^64 / pgSize = _
    refine congrArg (· / pgSize) ?_
    simp only
    split <;> omega
  · rw [npagesExtmem, if_neg (mt (d.nvramRead_eq_iff nvramExtlo).mp full), pages_toNat, d.sizes_ext stack full]

theorem extTotal_lt (d : BootMemory) : d.extTotal < 2^64 := by
  have bound := d.cmosWord_lt nvramExtlo
  rw [extTotal]
  split
  · exact Nat.mod_lt _ (by decide)
  · split
    · exact BitVec.isLt _
    · omega

theorem i386DetectMemory_eq (d : BootMemory) (stack : Nat → Option Nat) : d.i386DetectMemory stack =
    if d.baseTotal = 0 then .error .panic else .ok (d.top, d.baseTotal / pgSize) := by
  have ext := d.npagesExtmem_toNat stack
  have base := d.sizes_base stack
  have none : (d.sizes stack).1 = 0 ↔ d.baseTotal = 0 := by
    rw [← base, ← BitVec.toNat_inj]
    rfl
  rw [i386DetectMemory]
  by_cases empty : d.baseTotal = 0
  · rw [if_pos empty]
    exact if_pos (none.mpr empty)
  · rw [if_neg empty]
    refine (if_neg (mt none.mp empty)).trans ?_
    have some : d.npagesExtmem (d.sizes stack).2 ≠ 0 ↔ ¬ d.extTotal / pgSize = 0 := by
      rw [← ext, Ne, ← BitVec.toNat_inj]
      rfl
    have pages : (if d.npagesExtmem (d.sizes stack).2 ≠ 0 then
        BitVec.ofNat 64 (extphysMem / pgSize) + d.npagesExtmem (d.sizes stack).2
        else (d.sizes stack).1 / BitVec.ofNat 64 pgSize).toNat =
        if d.extTotal / pgSize = 0 then d.baseTotal / pgSize else extphysMem / pgSize + d.extTotal / pgSize := by
      have bound : d.extTotal / pgSize < 2^52 := Nat.div_lt_of_lt_mul d.extTotal_lt
      by_cases found : d.extTotal / pgSize = 0
      · rw [if_neg (mt some.mp (not_not.mpr found)), if_pos found, pages_toNat, base]
      · rw [if_pos (some.mpr found), if_neg found, BitVec.toNat_add, ext]
        change (256 + _) % 2^64 = 256 + _
        omega
    simp only [npages, top, pages, pages_toNat, base]

def counts (d : BootMemory) (kernelEnd : Nat) : PageCounts :=
  ⟨d.top, d.baseTotal / pgSize, bootAllocated kernelEnd d.top / pgSize⟩

theorem vmInit_onFreeList (d : BootMemory) (stack : Nat → Option Nat) (kernelEnd : Nat) (start m : Memory)
    (built : d.vmInit stack kernelEnd start = .ok m) (page : Nat) :
    m.OnFreeList page ↔ page < d.top ∧ ¬ (d.counts kernelEnd).Reserved page := by
  rw [vmInit, i386DetectMemory_eq] at built
  split at built
  · cases built
  · cases built
    have done := (d.counts kernelEnd).initialised_loop
      { start with npages := d.top, pageFreeList := none } rfl d.top
    rw [← (d.counts kernelEnd).mem_freePages]
    constructor
    · rintro ⟨nodes, chain, member⟩
      rwa [Linked.chain_unique done.chain chain]
    · exact fun member => ⟨_, done.chain, member⟩

theorem vmInit_ok (d : BootMemory) (stack : Nat → Option Nat) (kernelEnd : Nat) (start : Memory)
    (some : d.baseTotal ≠ 0) : ∃ m, d.vmInit stack kernelEnd start = .ok m := by
  rw [vmInit, i386DetectMemory_eq, if_neg some]
  exact ⟨_, rfl⟩

def OnlyRealMemory (d : BootMemory) (stack : Nat → Option Nat) (kernelEnd : Nat) (start : Memory) : Prop :=
  ∀ m, d.vmInit stack kernelEnd start = .ok m →
    ∀ page, m.OnFreeList page → ∀ address, address / pgSize = page → d.Usable address

/-- What the machine does not report lies where `page_init` frees nothing: in page 0 or the page of
    MPENTRY_PADDR, between the end of base memory and the end of the kernel, or behind all memory, if base
    and extended memory each are one block without holes. Without base memory the kernel panics. -/
def HolesKept (d : BootMemory) (kernelEnd : Nat) : Prop :=
  d.baseTotal = 0 ∨ ∀ address, ¬ d.Usable address →
    address / pgSize = 0 ∨ address / pgSize = ppn mpentryPaddr ∨ d.top ≤ address / pgSize ∨
      d.baseTotal / pgSize ≤ address / pgSize ∧
        address / pgSize ≤ bootAllocated kernelEnd d.top / pgSize

/-- Only real memory is free exactly if all holes lie where nothing is freed. -/
theorem free_memory_real (d : BootMemory) (stack : Nat → Option Nat) (kernelEnd : Nat) (start : Memory) :
    d.OnlyRealMemory stack kernelEnd start ↔ d.HolesKept kernelEnd := by
  by_cases empty : d.baseTotal = 0
  · refine iff_of_true (fun m built => ?_) (.inl empty)
    rw [vmInit, i386DetectMemory_eq, if_pos empty] at built
    cases built
  · obtain ⟨m, built⟩ := d.vmInit_ok stack kernelEnd start empty
    have free := d.vmInit_onFreeList stack kernelEnd start m built
    have reserved : ∀ page, (d.counts kernelEnd).Reserved page ↔
        (page = 0 ∨ page = ppn mpentryPaddr) ∨
          ¬ (page < d.baseTotal / pgSize ∨ bootAllocated kernelEnd d.top / pgSize < page) := fun _ => Iff.rfl
    constructor
    · intro real
      refine .inr fun address hole => ?_
      have kept := mt (fun listed => real m built _ listed address rfl) hole
      rw [free, reserved] at kept
      omega
    · rintro (none | kept) m' built' page listed address rfl
      · exact absurd none empty
      · rw [built] at built'
        cases built'
        rw [free, reserved] at listed
        by_contra hole
        have := kept address hole
        omega

def Disjoint (d : BootMemory) : Prop :=
  ∀ mmap, d.mmap = some mmap → mmap.Pairwise fun left right =>
    left.addr.toNat + left.length.toNat ≤ right.addr.toNat ∨
      right.addr.toNat + right.length.toNat ≤ left.addr.toNat

/-- The map of a machine with 4 GB, of which the last lies above the addresses of the devices. -/
def deviceMap : List MemoryMap :=
  [⟨0, 0, 0x9fc00, 0, mbTypeUsable⟩, ⟨0x9fc00, 0, 0x400, 0, mbTypeReserved⟩,
    ⟨0x100000, 0, 0xbff00000, 0, mbTypeUsable⟩, ⟨0xc0000000, 0, 0x40000000, 0, mbTypeReserved⟩,
    ⟨0, 1, 0x40000000, 0, mbTypeUsable⟩]

def deviceMachine : BootMemory := ⟨some ⟨mbFlagMmap, deviceMap⟩, fun _ => 0⟩

theorem deviceMachine_mmap : deviceMachine.mmap = some deviceMap := rfl

/-- Among the free pages of that machine are those of its devices. -/
theorem free_memory_hole : deviceMachine.Disjoint ∧
    ∀ stack start, ¬ deviceMachine.OnlyRealMemory stack 0x400000 start := by
  constructor
  · intro mmap found
    rw [deviceMachine_mmap, Option.some.injEq] at found
    subst found
    decide +kernel
  · intro stack start real
    obtain ⟨m, built⟩ := deviceMachine.vmInit_ok stack 0x400000 start (by decide +kernel)
    have listed : m.OnFreeList 0xc0000 :=
      (deviceMachine.vmInit_onFreeList stack 0x400000 start m built 0xc0000).mpr (by decide +kernel)
    have hole : ¬ ∃ map ∈ deviceMap, map.region.Usable ∧
        map.addr.toNat ≤ 0xc0000000 ∧ 0xc0000000 < map.addr.toNat + map.length.toNat := by decide +kernel
    exact hole (real m built 0xc0000 listed 0xc0000000 rfl)

end BootMemory

end Jos
