import JosKernel.Console.Format
import JosKernel.Debug.Disk
import JosKernel.Program.Elf
import JosKernel.Strings.Compare

namespace Jos

open Format (text)

-- inc/elf.h

def sizeofSecthdr : Nat := 64

structure ElfSecthdr where
  shName : Word
  shAddr : Word
  shOffset : Word
  shSize : Word
  deriving DecidableEq

namespace Binary

variable (binary : Binary)

def eShoff : Word := binary.field 40 8
def eShentsize : Word := binary.field 58 2
def eShnum : Word := binary.field 60 2
def eShstrndx : Word := binary.field 62 2

def secthdrAt (sh : Word) : ElfSecthdr where
  shName := binary.field sh 4
  shAddr := binary.field (sh + 16) 8
  shOffset := binary.field (sh + 24) 8
  shSize := binary.field (sh + 32) 8

def loadedAt (m : Bytes.Memory 64) (base : Word) : Binary := fun offset => m (base + offset)

end Binary

-- kern/elf_rw.c

def kelfhdr : Word := 0x10000 + kernBase

/-- An element of `section_info`. `ds_addr` is left out, it is always `ds_data`. -/
structure SectionRecord where
  dsData : Word
  dsSize : Word
  deriving DecidableEq

abbrev SectionTable := DebugSection → SectionRecord

namespace Disk

/-- `x` above the sector boundary below it: `OFFSET_CORRECT(x)` -/
def offsetCorrect (x : Word) : Word := x - (x - x % BitVec.ofNat 64 sectSize)

/-- What `read_section_headers` has stored: memory, the offset behind the last sector read, and `section_info`. -/
structure Loading where
  m : Bytes.Memory 64
  kvoffset : Word
  sectionInfo : SectionTable

/-- `none` stands for a loop that has not ended after the given number of steps. -/
abbrev Attempt := ExceptT Stop Option

section

variable (disk : Disk) (fuel : Nat) (kvbase : Word)

/-- Read the section that the header at `sh` describes, and enter it. -/
def Loading.load (s : Loading) (sh : Word) (d : DebugSection) : Attempt Loading := do
  let hdr := Binary.secthdrAt s.m sh
  let (m, kvoffset) ← ExceptT.mk (readseg disk fuel s.m (kvbase + s.kvoffset) hdr.shSize hdr.shOffset s.kvoffset)
  let hdr := Binary.secthdrAt m sh
  pure ⟨m, kvoffset,
    Function.update s.sectionInfo d ⟨kvbase + s.kvoffset + offsetCorrect hdr.shOffset, hdr.shSize⟩⟩

def Loading.step (nametab sh : Word) (s : Loading) : Attempt Loading := do
  let hdr := Binary.secthdrAt s.m sh
  let name := nametab + hdr.shName
  if s.kvoffset % BitVec.ofNat 64 sectSize ≠ 0 then throw .panic
  else if strcmp s.m name (text DebugSection.debugInfo.dsName) = 0 then s.load disk fuel kvbase sh .debugInfo
  else if strcmp s.m name (text DebugSection.debugAbbrev.dsName) = 0 then s.load disk fuel kvbase sh .debugAbbrev
  else if strcmp s.m name (text DebugSection.debugLine.dsName) = 0 then s.load disk fuel kvbase sh .debugLine
  else if strcmp s.m name (text DebugSection.debugFrame.dsName) = 0 then
    pure { s with sectionInfo := Function.update s.sectionInfo .debugFrame ⟨hdr.shAddr, hdr.shSize⟩ }
  else if strcmp s.m name (text DebugSection.debugStr.dsName) = 0 then s.load disk fuel kvbase sh .debugStr
  else pure s

end

def secthdrPtrs : Nat := 20

/-- What is left behind, with the end of the buffer and the stack from `secthdr_ptr` on. -/
structure SectionsRead where
  endDebug : Word
  m : Bytes.Memory 64
  sectionInfo : SectionTable
  stack : Nat → Word

/-- The stack from `secthdr_ptr` on when the pointers to `num` headers have been stored. -/
def storePtrs (stack : Nat → Word) (secthdr : Word) (num : Nat) (i : Nat) : Word :=
  if i < num then secthdr + BitVec.ofNat 64 (sizeofSecthdr * i) else if i < secthdrPtrs then 0 else stack i

def readSectionHeaders (disk : Disk) (fuel : Nat) (m : Bytes.Memory 64) (sectionInfo : SectionTable) (stack : Nat → Word)
    (elfhdr toVa : Word) : Attempt SectionsRead := do
  let sect := BitVec.ofNat 64 sectSize
  let ehdr := Binary.loadedAt m elfhdr
  let kvbase := toVa + (sect - 1) - (toVa + (sect - 1)) % sect
  let offset := if elfhdr = kelfhdr then ehdr.eShoff else ehdr.eShoff + (elfhdr - kernBase)
  let num := ehdr.eShnum
  let size : BitVec 32 := num.setWidth 32 * ehdr.eShentsize.setWidth 32
  let (m, kvoffset) ← ExceptT.mk (readseg disk fuel m kvbase (size.signExtend 64) offset 0)
  let secthdr := kvbase + offsetCorrect offset
  let stack := storePtrs stack secthdr num.toNat
  let secName := stack (Binary.loadedAt m elfhdr).eShstrndx.toNat
  let hdr := Binary.secthdrAt m secName
  let temp := kvoffset
  let (m, kvoffset) ← ExceptT.mk (readseg disk fuel m (kvbase + kvoffset) hdr.shSize hdr.shOffset kvoffset)
  let nametab := kvbase + temp + offsetCorrect (Binary.secthdrAt m secName).shOffset
  let s ← (List.range num.toNat).foldlM
    (fun s i => Loading.step disk fuel kvbase nametab (stack i) s) ⟨m, kvoffset, sectionInfo⟩
  pure ⟨kvbase + s.kvoffset, s.m, s.sectionInfo, stack⟩

-- What the image contains

def image (disk : Disk) : Binary := fun offset => disk.byte offset.toNat

def secthdr (disk : Disk) (i : Nat) : ElfSecthdr :=
  disk.image.secthdrAt (disk.image.eShoff + BitVec.ofNat 64 (sizeofSecthdr * i))

def strtab (disk : Disk) : ElfSecthdr := disk.secthdr disk.image.eShstrndx.toNat

def Named (disk : Disk) (i : Nat) (name : List (BitVec 8)) : Prop :=
  Bytes.StringAt disk.image (disk.strtab.shOffset + (disk.secthdr i).shName) name

/-- The `i`-th section is the one that `section_info` has a place for. -/
def Holds (disk : Disk) (i : Nat) (d : DebugSection) : Prop := disk.Named i (text d.dsName)

/-- An ELF image whose tables, names and debug sections lie within its `length` bytes, which are on the disk. -/
structure IsImage (disk : Disk) (length : Nat) : Prop where
  onDisk : length ≤ sectSize * (2 ^ 28 - 1)
  entsize : disk.image.eShentsize.toNat = sizeofSecthdr
  headers : disk.image.eShoff.toNat + sizeofSecthdr * disk.image.eShnum.toNat ≤ length
  strndx : disk.image.eShstrndx.toNat < disk.image.eShnum.toNat ∨
    disk.image.eShnum = 0 ∧ disk.image.eShstrndx = 0
  names : disk.image.eShnum ≠ 0 → disk.strtab.shOffset.toNat + disk.strtab.shSize.toNat ≤ length
  named : ∀ i < disk.image.eShnum.toNat, ∃ name, disk.Named i name ∧
    (disk.secthdr i).shName.toNat + name.length < disk.strtab.shSize.toNat
  sections : ∀ i < disk.image.eShnum.toNat, ∀ d ≠ DebugSection.debugFrame, disk.Holds i d →
    (disk.secthdr i).shOffset.toNat + (disk.secthdr i).shSize.toNat ≤ length

end Disk

namespace SectionRecord

structure Copies (r : SectionRecord) (disk : Disk) (m : Bytes.Memory 64) (low high : Nat) (hdr : ElfSecthdr) : Prop where
  size : r.dsSize = hdr.shSize
  fits : Bytes.Fits r.dsData hdr.shSize.toNat
  contents : ∀ j < hdr.shSize.toNat, m (r.dsData + BitVec.ofNat 64 j) = disk.byte (hdr.shOffset.toNat + j)
  inside : ∀ a, Bytes.Within r.dsData hdr.shSize.toNat a → low ≤ a.toNat ∧ a.toNat < high

def Apart (r r' : SectionRecord) : Prop :=
  ∀ a, ¬ (Bytes.Within r.dsData r.dsSize.toNat a ∧ Bytes.Within r'.dsData r'.dsSize.toNat a)

end SectionRecord

namespace Disk

def Has (disk : Disk) (num : Nat) (d : DebugSection) : Prop :=
  d ≠ .debugFrame ∧ ∃ i < num, disk.Holds i d

/-- The sections among the first `num` are recorded, and their copies are apart. -/
structure Recorded (disk : Disk) (num : Nat) (m : Bytes.Memory 64) (sectionInfo : SectionTable) (low high : Nat) :
    Prop where
  copied : ∀ d, disk.Has num d → ∃ i < num, disk.Holds i d ∧ (sectionInfo d).Copies disk m low high (disk.secthdr i)
  apart : ∀ d d', d ≠ d' → disk.Has num d → disk.Has num d' → (sectionInfo d).Apart (sectionInfo d')

structure Complete (disk : Disk) (m : Bytes.Memory 64) (stack : Nat → Word) (toVa : Word) (r : SectionsRead) : Prop where
  stack : ∀ i, secthdrPtrs ≤ i → r.stack i = stack i
  outside : ∀ a : Word, a.toNat < toVa.toNat ∨ r.endDebug.toNat ≤ a.toNat → r.m a = m a
  recorded : disk.Recorded disk.image.eShnum.toNat r.m r.sectionInfo toVa.toNat r.endDebug.toNat

def HeaderLoaded (disk : Disk) (m : Bytes.Memory 64) : Prop :=
  ∀ k < 64, m (kelfhdr + BitVec.ofNat 64 k) = disk.byte k

def Reads (disk : Disk) (toVa : Word) : Prop :=
  ∀ m sectionInfo stack, disk.HeaderLoaded m → ∃ bound r,
    (∀ fuel, bound ≤ fuel → readSectionHeaders disk fuel m sectionInfo stack kelfhdr toVa = pure r) ∧
      disk.Complete m stack toVa r

end Disk

end Jos
