import JosKernel.Debug.Headers

namespace Jos

-- With what the headers of an image say as numbers, the sections go to the same places.

namespace SectionLoad

variable {kvbase : Nat} {s : SectionLoad} {sh : Secthdr}

theorem step_frame (name : sh.shName = DebugSection.debugFrame.dsName) :
    s.step kvbase sh = s.record .debugFrame sh.shAddr sh.shSize := by
  simp [step, name, DebugSection.dsName]

theorem step_unnamed (unnamed : ∀ d : DebugSection, sh.shName ≠ d.dsName) : s.step kvbase sh = s := by
  simp [step, unnamed]

end SectionLoad

namespace Disk

structure Describes (disk : Disk) (i : Nat) (sh : Secthdr) : Prop where
  name : ∀ d : DebugSection, sh.shName = d.dsName ↔ disk.Holds i d
  addr : sh.shAddr = (disk.secthdr i).shAddr.toNat
  offset : sh.shOffset = (disk.secthdr i).shOffset.toNat
  size : sh.shSize = (disk.secthdr i).shSize.toNat

structure DescribedBy (disk : Disk) (elf : KernelElf) : Prop where
  shoff : elf.eShoff = disk.image.eShoff.toNat
  entsize : elf.eShentsize = disk.image.eShentsize.toNat
  strndx : elf.eShstrndx = disk.image.eShstrndx.toNat
  count : elf.sections.length = disk.image.eShnum.toNat
  headers : ∀ i sh, elf.sections[i]? = some sh → disk.Describes i sh

/-- The entries of `section_info` are the same numbers. -/
def Tallies (table : SectionTable) (sectionInfo : DebugSection → DwarfSection) : Prop :=
  ∀ d, (sectionInfo d).dsData = (table d).dsData.toNat ∧ (sectionInfo d).dsSize = (table d).dsSize.toNat

structure Loading.Follows (s : Loading) (t : SectionLoad) : Prop where
  kvoffset : t.kvoffset = s.kvoffset.toNat
  sectionInfo : Tallies s.sectionInfo t.sectionInfo

variable {disk : Disk} {m : Bytes.Memory 64} {length i : Nat} {kvbase toVa : Word} {s s' : Loading} {t : SectionLoad}
  {sh : Secthdr} {elf : KernelElf}

theorem Tallies.update {table : SectionTable} {sectionInfo : DebugSection → DwarfSection}
    (tallies : Tallies table sectionInfo) (d : DebugSection) (r : SectionRecord) :
    Tallies (Function.update table d r) (Function.update sectionInfo d ⟨r.dsData.toNat, r.dsSize.toNat⟩) := by
  intro d'
  by_cases same : d' = d
  · rw [same, Function.update_self, Function.update_self]
    exact ⟨rfl, rfl⟩
  · rw [Function.update_of_ne same, Function.update_of_ne same]
    exact tallies d'

theorem Stepped.follows (stepped : disk.Stepped kvbase i s s') (describes : disk.Describes i sh) (follows : s.Follows t) :
    s'.Follows (t.step kvbase.toNat sh) := by
  cases stepped with
  | load d r _ loaded holds kvoffset data size info =>
    rw [SectionLoad.step_load loaded ((describes.name d).mpr holds)]
    have entry : (⟨kvbase.toNat + t.kvoffset + sh.shOffset % sectSize, sh.shSize⟩ : DwarfSection) =
        ⟨r.dsData.toNat, r.dsSize.toNat⟩ := by
      rw [follows.kvoffset, describes.offset, describes.size, data, size]
    constructor
    · rw [kvoffset, ← follows.kvoffset, ← describes.size, ← describes.offset]
      rfl
    · rw [info]
      change Tallies _ (Function.update t.sectionInfo d ⟨_, _⟩)
      rw [entry]
      exact follows.sectionInfo.update d r
  | frame holds =>
    rw [SectionLoad.step_frame ((describes.name _).mpr holds), describes.addr, describes.size]
    exact ⟨follows.kvoffset, follows.sectionInfo.update _ _⟩
  | skip unnamed =>
    rw [SectionLoad.step_unnamed fun d name => unnamed d ((describes.name d).mp name)]
    exact follows

theorem bufferAt_toNat (low : toVa.toNat < 2 ^ 63) :
    (bufferAt toVa).toNat = (toVa.toNat + (sectSize - 1)) / sectSize * sectSize := by
  obtain ⟨aligned, up, near⟩ := bufferAt_bounds low
  rw [sectSize] at aligned near ⊢
  omega

theorem DescribedBy.secName (described : disk.DescribedBy elf) (isImage : disk.IsImage length)
    (some_ : disk.image.eShnum ≠ 0) : ∃ secName, elf.sections[elf.eShstrndx]? = some secName ∧
      secName.shSize = disk.strtab.shSize.toNat ∧ secName.shOffset = disk.strtab.shOffset.toNat := by
  have strndx := isImage.strndx.resolve_right fun none_ => some_ none_.1
  rw [← described.strndx, ← described.count] at strndx
  have found : elf.sections[elf.eShstrndx]? = some elf.sections[elf.eShstrndx] := List.getElem?_eq_getElem strndx
  have describes := described.headers _ _ found
  refine ⟨_, found, ?_, ?_⟩
  · rw [describes.size, described.strndx, strtab]
  · rw [describes.offset, described.strndx, strtab]

theorem DescribedBy.headerSectors (described : disk.DescribedBy elf) (isImage : disk.IsImage length)
    (some_ : disk.image.eShnum ≠ 0) : elf.headerSectors = disk.tableSectors := by
  obtain ⟨secName, found, size, offset⟩ := described.secName isImage some_
  rw [KernelElf.headerSectors, found, Option.elim_some, size, offset, described.count, described.entsize, isImage.entsize,
    described.shoff, Nat.mul_comm, tableSectors]

/-- The two models of `read_section_headers` end at the same place and record the same sections, where the array of
    pointers has room. -/
theorem readSectionHeaders_numbers (isImage : disk.IsImage length) (some_ : disk.image.eShnum ≠ 0)
    (few : disk.image.eShnum.toNat ≤ secthdrPtrs) (loaded : disk.HeaderLoaded m)
    (above : kelfhdr.toNat + 64 ≤ toVa.toNat) (low : toVa.toNat < 2 ^ 63) (described : disk.DescribedBy elf)
    (stack : Nat → Word) : ∃ r sectionInfo,
      (∀ fuel, 2 ^ 29 ≤ fuel → readSectionHeaders disk fuel m (fun _ => ⟨0, 0⟩) stack kelfhdr toVa = pure r) ∧
      Jos.readSectionHeaders elf toVa.toNat = .ok (r.endDebug.toNat, sectionInfo) ∧ Tallies r.sectionInfo sectionInfo := by
  let start : SectionLoad := ⟨sectSize * disk.tableSectors, fun _ => ⟨0, 0⟩⟩
  let loads := fun i => (elf.sections.take i).foldl (SectionLoad.step (bufferAt toVa).toNat) start
  have kept : ∀ i < disk.image.eShnum.toNat, ∀ s s' : Loading, s.Follows (loads i) →
      disk.Stepped (bufferAt toVa) i s s' → s'.Follows (loads (i + 1)) := by
    intro i below s s' follows stepped
    rw [← described.count] at below
    have found : elf.sections[i]? = some elf.sections[i] := List.getElem?_eq_getElem below
    have next := stepped.follows (described.headers i _ found) follows
    change s'.Follows ((elf.sections.take (i + 1)).foldl _ _)
    rwa [List.take_add_one, found, List.foldl_append]
  obtain ⟨_, _, started, -⟩ := readSectionHeaders_starts isImage some_ loaded above low (fun _ => ⟨0, 0⟩) stack
  have short := started.few
  rw [span] at short
  have initial : ∀ m', Loading.Follows ⟨m', BitVec.ofNat 64 (sectSize * disk.tableSectors), fun _ => ⟨0, 0⟩⟩
      (loads 0) := by
    intro m'
    refine ⟨?_, fun d => ⟨rfl, rfl⟩⟩
    rw [BitVec.toNat_ofNat, Nat.mod_eq_of_lt (by omega)]
    rfl
  obtain ⟨r, runs, -, s, follows, info, last⟩ := readSectionHeaders_complete (P := fun i s => s.Follows (loads i)) isImage
    some_ few loaded above low (fun _ => ⟨0, 0⟩) stack kept initial
  obtain ⟨secName, found, -⟩ := described.secName isImage some_
  have whole : loads disk.image.eShnum.toNat =
      elf.sections.foldl (SectionLoad.step (bufferAt toVa).toNat) ⟨sectSize * disk.tableSectors, fun _ => ⟨0, 0⟩⟩ := by
    change (elf.sections.take _).foldl _ _ = _
    rw [← described.count, List.take_length]
  refine ⟨r, (loads disk.image.eShnum.toNat).sectionInfo, runs, ?_, info ▸ follows.sectionInfo⟩
  rw [readSectionHeaders_eq found, described.headerSectors isImage some_, last, ← follows.kvoffset, ← bufferAt_toNat low,
    whole]

end Disk

end Jos
