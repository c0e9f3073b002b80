import JosKernel.Pmap.PageInit

namespace Jos

-- kern/multiboot.h

/-- `memory_map_t`, without the field `size`, which is only printed. -/
structure MemoryMap where
  baseAddrLow : BitVec 32
  baseAddrHigh : BitVec 32
  lengthLow : BitVec 32
  lengthHigh : BitVec 32
  type : BitVec 32
  deriving Inhabited, DecidableEq, Repr

/-- The fields of `multiboot_info_t` that the kernel reads; `mmap` is the array at `mmap_addr`, of
    `mmap_length / sizeof(memory_map_t)` entries. -/
structure MultibootInfo where
  flags : BitVec 32
  mmap : List MemoryMap

def appendHilo (hi lo : BitVec 32) : Word := (hi.setWidth 64 <<< 32) + lo.setWidth 64

def mbTypeUsable : BitVec 32 := 1
def mbTypeReserved : BitVec 32 := 2
def mbTypeAcpiReclm : BitVec 32 := 3
def mbTypeAcpiNvs : BitVec 32 := 4
def mbTypeBad : BitVec 32 := 5
def mbFlagMmap : BitVec 32 := 0x40

def restrictiveType (t1 t2 : BitVec 32) : BitVec 32 :=
  if t1 = mbTypeBad ∨ t2 = mbTypeBad then mbTypeBad
  else if t1 = mbTypeAcpiNvs ∨ t2 = mbTypeAcpiNvs then mbTypeAcpiNvs
  else if t1 = mbTypeReserved ∨ t2 = mbTypeReserved then mbTypeReserved
  else if t1 = mbTypeAcpiReclm ∨ t2 = mbTypeAcpiReclm then mbTypeAcpiReclm
  else mbTypeUsable

namespace MemoryMap

def addr (map : MemoryMap) : Word := appendHilo map.baseAddrHigh map.baseAddrLow
def length (map : MemoryMap) : Word := appendHilo map.lengthHigh map.lengthLow

end MemoryMap

-- kern/pmap.c: multiboot_read

/-- The entries at `mmap_base` and the pointers to them in `mmap_list`, as the words of the stack from
    the array on: the last insertion may write the word behind the array. -/
structure MapList where
  base : Nat → MemoryMap
  list : Nat → Option Nat

namespace MapList

def setBase (s : MapList) (k : Nat) (map : MemoryMap) : MapList :=
  { s with base := Function.update s.base k map }

def setList (s : MapList) (j : Nat) (map : Option Nat) : MapList :=
  { s with list := Function.update s.list j map }

def map (s : MapList) (j : Nat) : MemoryMap := ((s.list j).map s.base).getD default

def setMap (s : MapList) (j : Nat) (map : MemoryMap) : MapList :=
  match s.list j with
  | some k => s.setBase k map
  | none => s

/-- The loop that moves `mmap_list[j .. j + count)` up by one. -/
def shift (list : Nat → Option Nat) (j : Nat) : Nat → Nat → Option Nat
  | 0 => list
  | count + 1 => shift (Function.update list (j + count + 1) (list (j + count))) j count

def position (s : MapList) (i : Nat) : Nat :=
  ((List.range i).find? fun j => (s.base i).addr < (s.map j).addr).getD i

def insertMap (s : MapList) (i : Nat) : MapList :=
  let type := (s.base i).type
  let s := if 5 < type ∨ type < 1 then s.setBase i { s.base i with type := mbTypeReserved } else s
  let j := s.position i
  let s := if j < i then { s with list := shift s.list j (i + 1 - j) } else s
  s.setList j (some i)

def sanitizeMap (s : MapList) (i : Nat) : MapList :=
  let prev := s.map (i - 1)
  let this := s.map i
  if prev.addr + prev.length = this.addr ∧ prev.type = this.type then
    (s.setMap i { this with
      lengthLow := ((prev.length.setWidth 32).setWidth 64 + this.length).setWidth 32
      lengthHigh := ((prev.length + this.length) >>> 32).setWidth 32
      baseAddrLow := prev.baseAddrLow
      baseAddrHigh := prev.baseAddrHigh }).setList (i - 1) none
  else if this.addr < prev.addr + prev.length then
    let type := restrictiveType prev.type this.type
    (s.setMap (i - 1) { prev with type := type }).setMap i { this with type := type }
  else s

/-- An iteration of the loop that adds up `basemem` and `extmem`. -/
def addMap (s : MapList) (sums : Word × Word) (i : Nat) : Word × Word :=
  match s.list i with
  | some k =>
    let map := s.base k
    if map.type = mbTypeUsable ∨ map.type = mbTypeAcpiReclm then
      if map.baseAddrLow < 0x100000 ∧ map.baseAddrHigh = 0 then (sums.1 + map.length, sums.2)
      else (sums.1, sums.2 + map.length)
    else sums
  | none => sums

end MapList

/-- `stack` is what `mmap_list` holds before it is written. -/
def multibootRead (mmap : List MemoryMap) (stack : Nat → Option Nat) : Word × Word :=
  let n := mmap.length
  let s := (List.range n).foldl MapList.insertMap ⟨fun i => mmap.getD i default, stack⟩
  let s := (List.range' 1 (n - 1)).foldl MapList.sanitizeMap s
  (List.range n).foldl s.addMap (0, 0)

-- kern/kclock.h

def nvramBaselo : Nat := 0x15
def nvramExtlo : Nat := 0x17
def nvramExtgt16lo : Nat := 0x34

/-- What the machine says about its memory when the kernel starts: the structure that the boot loader
    passes, and the registers of the CMOS as `mc146818_read` reads them. -/
structure BootMemory where
  mbinfo : Option MultibootInfo
  mc146818 : Nat → BitVec 8

def iophysMem : Nat := 0xA0000
def extphysMem : Nat := 0x100000
def sizeofPageInfo : Nat := 16
def sizeofEnv : Nat := 288
def upagesMax : Nat := (ulim - upages).toNat / sizeofPageInfo
def kernMemMax : Nat := (uvpt - kernBase).toNat / pgSize
def maxNpages : Nat := if upagesMax < kernMemMax then upagesMax else kernMemMax

namespace BootMemory

-- kern/pmap.c

def nvramRead (d : BootMemory) (r : Nat) : BitVec 32 :=
  (d.mc146818 r).setWidth 32 ||| ((d.mc146818 (r + 1)).setWidth 32 <<< 8)

def mmap (d : BootMemory) : Option (List MemoryMap) :=
  match d.mbinfo with
  | some mbinfo => if mbinfo.flags &&& mbFlagMmap ≠ 0 then some mbinfo.mmap else none
  | none => none

def sizes (d : BootMemory) (stack : Nat → Option Nat) : Word × Word :=
  match d.mmap with
  | some mmap => multibootRead mmap stack
  | none => ((d.nvramRead nvramBaselo * 1024).signExtend 64, (d.nvramRead nvramExtlo * 1024).signExtend 64)

def npagesExtmem (d : BootMemory) (extmem : Word) : Word :=
  if d.nvramRead nvramExtlo = 0xffff then
    let pextmem := (d.nvramRead nvramExtgt16lo * (64 * 1024)).signExtend 64
    (16 * 1024 * 1024 + pextmem - 1 * 1024 * 1024) / BitVec.ofNat 64 pgSize
  else extmem / BitVec.ofNat 64 pgSize

def npages (npagesBasemem npagesExtmem : Word) : Nat :=
  let npages :=
    if npagesExtmem ≠ 0 then BitVec.ofNat 64 (extphysMem / pgSize) + npagesExtmem else npagesBasemem
  if maxNpages < npages.toNat then maxNpages - 1024 else npages.toNat

def i386DetectMemory (d : BootMemory) (stack : Nat → Option Nat) : Except Stop (Nat × Nat) :=
  let sizes := d.sizes stack
  if sizes.1 = 0 then .error .panic
  else
    let npagesBasemem := sizes.1 / BitVec.ofNat 64 pgSize
    .ok (npages npagesBasemem (d.npagesExtmem sizes.2), npagesBasemem.toNat)

end BootMemory

/-- `nextfree` after `boot_alloc(n)`, counted from KERNBASE. -/
def bootAlloc (nextfree : Nat) (n : BitVec 32) : Nat :=
  if 0 < n then (nextfree + n.toNat + (pgSize - 1)) / pgSize * pgSize else nextfree

/-- Where `boot_alloc` has come to when `x64_vm_init` calls `page_init`: behind the kernel, which ends at
    `kernelEnd` from KERNBASE, the PML4, `pages` and `envs`. -/
def bootAllocated (kernelEnd npages : Nat) : Nat :=
  let nextfree := (kernelEnd + (pgSize - 1)) / pgSize * pgSize
  let nextfree := bootAlloc nextfree (BitVec.ofNat 32 pgSize)
  let nextfree := bootAlloc nextfree (BitVec.ofNat 32 (npages * sizeofPageInfo))
  bootAlloc nextfree (BitVec.ofNat 32 (1024 * sizeofEnv))

/-- Memory detection and `page_init`, as `x64_vm_init` calls them on the memory `start`. -/
def BootMemory.vmInit (d : BootMemory) (stack : Nat → Option Nat) (kernelEnd : Nat) (start : Memory) :
    Except Stop Memory := do
  let (npages, npagesBasemem) ← d.i386DetectMemory stack
  let counts : PageCounts := ⟨npages, npagesBasemem, bootAllocated kernelEnd npages / pgSize⟩
  return counts.pageInit { start with npages := npages, pageFreeList := none }

end Jos
