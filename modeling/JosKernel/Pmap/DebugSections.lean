import JosKernel.Pmap.BootAlloc

namespace Jos

-- kern/elf_rw.c

def sectSize : Nat := 512

inductive DebugSection
  | debugInfo
  | debugAbbrev
  | debugFrame
  | debugLine
  | debugStr
  deriving DecidableEq, Repr

def DebugSection.dsName : DebugSection → String
  | debugInfo => ".debug_info"
  | debugAbbrev => ".debug_abbrev"
  | debugFrame => ".eh_frame"
  | debugLine => ".debug_line"
  | debugStr => ".debug_str"

/-- `ds_addr` is left out, it is always `ds_data`. -/
structure DwarfSection where
  dsData : Nat
  dsSize : Nat
  deriving DecidableEq, Repr

structure Secthdr where
  shName : String
  shAddr : Nat
  shOffset : Nat
  shSize : Nat
  deriving DecidableEq, Repr

/-- The ELF header of the kernel and its section headers. Numbers are not bounded: what is loaded fits into the
    address space. -/
structure KernelElf where
  eShoff : Nat
  eShentsize : Nat
  eShstrndx : Nat
  sections : List Secthdr

/-- How many sectors `readseg` reads, which may be one more than the bytes take. -/
def sectors (count offset : Nat) : Nat :=
  (count + (sectSize - 1)) / sectSize + if sectSize < offset % sectSize + count then 1 else 0

def readseg (kvoffset count offset : Nat) : Nat := kvoffset + sectSize * sectors count offset

structure SectionLoad where
  kvoffset : Nat
  sectionInfo : DebugSection → DwarfSection

namespace SectionLoad

def record (s : SectionLoad) (d : DebugSection) (data size : Nat) : SectionLoad :=
  { s with sectionInfo := Function.update s.sectionInfo d ⟨data, size⟩ }

def load (kvbase : Nat) (s : SectionLoad) (sh : Secthdr) (d : DebugSection) : SectionLoad :=
  { s.record d (kvbase + s.kvoffset + sh.shOffset % sectSize) sh.shSize with
    kvoffset := readseg s.kvoffset sh.shSize sh.shOffset }

def step (kvbase : Nat) (s : SectionLoad) (sh : Secthdr) : SectionLoad :=
  if sh.shName = DebugSection.debugInfo.dsName then s.load kvbase sh .debugInfo
  else if sh.shName = DebugSection.debugAbbrev.dsName then s.load kvbase sh .debugAbbrev
  else if sh.shName = DebugSection.debugLine.dsName then s.load kvbase sh .debugLine
  else if sh.shName = DebugSection.debugFrame.dsName then s.record .debugFrame sh.shAddr sh.shSize
  else if sh.shName = DebugSection.debugStr.dsName then s.load kvbase sh .debugStr
  else s

end SectionLoad

/-- The result, and `section_info` after it. The array of pointers to the headers, which has room for 20, is not
    modelled. -/
def readSectionHeaders (elf : KernelElf) (toVa : Nat) : Except Stop (Nat × (DebugSection → DwarfSection)) :=
  let kvbase := (toVa + (sectSize - 1)) / sectSize * sectSize
  let kvoffset := readseg 0 (elf.sections.length * elf.eShentsize) elf.eShoff
  match elf.sections[elf.eShstrndx]? with
  | none => .error .nullDeref
  | some secName =>
    let kvoffset := readseg kvoffset secName.shSize secName.shOffset
    let s := elf.sections.foldl (SectionLoad.step kvbase) ⟨kvoffset, fun _ => ⟨0, 0⟩⟩
    .ok (kvbase + s.kvoffset, s.sectionInfo)

-- Where the sections go

namespace Secthdr

def Loads (sh : Secthdr) : Prop := ∃ d, d ≠ DebugSection.debugFrame ∧ sh.shName = d.dsName

instance (sh : Secthdr) : Decidable sh.Loads :=
  decidable_of_iff (sh.shName = DebugSection.debugInfo.dsName ∨ sh.shName = DebugSection.debugAbbrev.dsName ∨
      sh.shName = DebugSection.debugLine.dsName ∨ sh.shName = DebugSection.debugStr.dsName) (by
    constructor
    · rintro (name | name | name | name)
      · exact ⟨.debugInfo, by decide, name⟩
      · exact ⟨.debugAbbrev, by decide, name⟩
      · exact ⟨.debugLine, by decide, name⟩
      · exact ⟨.debugStr, by decide, name⟩
    · rintro ⟨d, other, name⟩
      cases d <;> simp_all)

end Secthdr

theorem dsName_injective : Function.Injective DebugSection.dsName := by
  intro left right same
  cases left <;> cases right <;> first | rfl | exact absurd same (by decide)

namespace SectionLoad

variable {kvbase : Nat} {s : SectionLoad} {sh : Secthdr}

theorem step_load {d : DebugSection} (other : d ≠ .debugFrame) (name : sh.shName = d.dsName) :
    s.step kvbase sh = s.load kvbase sh d := by
  have names : ∀ d' : DebugSection, sh.shName = d'.dsName ↔ d = d' := by
    intro d'
    rw [name]
    exact dsName_injective.eq_iff
  simp only [step, names]
  cases d <;> simp at other ⊢

theorem step_other (unloaded : ¬ sh.Loads) : (s.step kvbase sh).kvoffset = s.kvoffset ∧
    ∀ d, d ≠ DebugSection.debugFrame → (s.step kvbase sh).sectionInfo d = s.sectionInfo d := by
  have names : ∀ d : DebugSection, d ≠ .debugFrame → sh.shName ≠ d.dsName := fun d other name => unloaded ⟨d, other, name⟩
  rw [step, if_neg (names .debugInfo (by decide)), if_neg (names .debugAbbrev (by decide)), if_neg (names .debugLine (by decide)),
    if_neg (names .debugStr (by decide))]
  split
  · refine ⟨rfl, ?_⟩
    intro d other
    exact Function.update_of_ne other _ _
  · exact ⟨rfl, fun _ _ => rfl⟩

end SectionLoad

namespace KernelElf

def loadedSectors (sections : List Secthdr) : Nat :=
  (sections.map fun sh => if sh.Loads then sectors sh.shSize sh.shOffset else 0).sum

def headerSectors (elf : KernelElf) : Nat :=
  sectors (elf.sections.length * elf.eShentsize) elf.eShoff +
    elf.sections[elf.eShstrndx]?.elim 0 fun secName => sectors secName.shSize secName.shOffset

/-- Where a section is read to that follows the sections `early`. -/
def loadAddr (elf : KernelElf) (toVa : Nat) (early : List Secthdr) : Nat :=
  (toVa + (sectSize - 1)) / sectSize * sectSize + sectSize * (elf.headerSectors + loadedSectors early)

theorem loadedSectors_append (early late : List Secthdr) :
    loadedSectors (early ++ late) = loadedSectors early + loadedSectors late := by
  rw [loadedSectors, List.map_append, List.sum_append]
  rfl

theorem loadedSectors_singleton (sh : Secthdr) :
    loadedSectors [sh] = if sh.Loads then sectors sh.shSize sh.shOffset else 0 := by
  rw [loadedSectors, List.map_singleton, List.sum_singleton]

end KernelElf

def NoneNamed (name : String) (sections : List Secthdr) : Prop := ∀ sh ∈ sections, sh.shName ≠ name

theorem noneNamed_or_exists (name : String) (sections : List Secthdr) : NoneNamed name sections ∨
    ∃ early sh late, sections = early ++ sh :: late ∧ sh.shName = name ∧ NoneNamed name late := by
  induction sections with
  | nil => exact .inl (fun sh member => absurd member List.not_mem_nil)
  | cons first sections ih =>
    rcases ih with absent | ⟨early, sh, late, rfl, named, last⟩
    · by_cases named : first.shName = name
      · exact .inr ⟨[], first, sections, rfl, named, absent⟩
      · refine .inl ?_
        intro sh member
        rcases List.mem_cons.mp member with rfl | member
        · exact named
        · exact absent sh member
    · exact .inr ⟨first :: early, sh, late, rfl, named, last⟩

/-- The loop has been through the sections `done`, where the first one could go to `base`. -/
structure SectionsLoaded (kvbase start : Nat) (done : List Secthdr) (s : SectionLoad) : Prop where
  kvoffset : s.kvoffset = start + sectSize * KernelElf.loadedSectors done
  absent : ∀ d, d ≠ DebugSection.debugFrame → NoneNamed d.dsName done → s.sectionInfo d = ⟨0, 0⟩
  recorded : ∀ d, d ≠ DebugSection.debugFrame → ∀ early sh late, done = early ++ sh :: late → sh.shName = d.dsName →
    NoneNamed d.dsName late → s.sectionInfo d =
      ⟨kvbase + (start + sectSize * KernelElf.loadedSectors early) + sh.shOffset % sectSize, sh.shSize⟩

namespace SectionsLoaded

variable {kvbase start : Nat} {done : List Secthdr} {s : SectionLoad} {sh : Secthdr}

theorem step_keeps {d : DebugSection} (other : d ≠ .debugFrame) (unnamed : sh.shName ≠ d.dsName) :
    (s.step kvbase sh).sectionInfo d = s.sectionInfo d := by
  by_cases loads : sh.Loads
  · obtain ⟨d', other', name⟩ := loads
    have apart : d ≠ d' := by
      rintro rfl
      exact unnamed name
    rw [SectionLoad.step_load other' name]
    exact Function.update_of_ne apart _ _
  · exact (SectionLoad.step_other loads).2 d other

theorem step (loaded : SectionsLoaded kvbase start done s) (sh : Secthdr) :
    SectionsLoaded kvbase start (done ++ [sh]) (s.step kvbase sh) := by
  constructor
  · rw [KernelElf.loadedSectors_append, KernelElf.loadedSectors_singleton]
    by_cases loads : sh.Loads
    · obtain ⟨d, other, name⟩ := loads
      rw [if_pos ⟨d, other, name⟩, SectionLoad.step_load other name, Nat.mul_add, ← Nat.add_assoc, ← loaded.kvoffset]
      rfl
    · rw [if_neg loads, (SectionLoad.step_other loads).1, Nat.add_zero, loaded.kvoffset]
  · intro d other unnamed
    rw [step_keeps other (unnamed sh (List.mem_append_right _ (List.mem_singleton_self _)))]
    exact loaded.absent d other fun sh' member => unnamed sh' (List.mem_append_left _ member)
  · intro d other early sh' late split name last
    rcases List.eq_nil_or_concat late with rfl | ⟨late, x, rfl⟩
    · obtain ⟨rfl, single⟩ := List.append_inj' split rfl
      obtain rfl := List.singleton_inj.mp single
      rw [SectionLoad.step_load other name, ← loaded.kvoffset]
      exact Function.update_self ..
    · rw [List.concat_eq_append, ← List.cons_append, ← List.append_assoc] at split
      obtain ⟨rfl, single⟩ := List.append_inj' split rfl
      obtain rfl := List.singleton_inj.mp single
      rw [List.concat_eq_append] at last
      rw [step_keeps other (last _ (List.mem_append_right _ (List.mem_singleton_self _)))]
      exact loaded.recorded d other early sh' late rfl name fun later member =>
        last later (List.mem_append_left _ member)

theorem foldl (kvbase start : Nat) (sections : List Secthdr) : SectionsLoaded kvbase start sections
    (sections.foldl (SectionLoad.step kvbase) ⟨start, fun _ => ⟨0, 0⟩⟩) := by
  induction sections using List.reverseRecOn with
  | nil =>
    refine ⟨rfl, fun _ _ _ => rfl, ?_⟩
    intro d other early sh late split
    exact absurd split.symm (by simp)
  | append_singleton sections sh ih =>
    rw [List.foldl_append]
    exact ih.step sh

end SectionsLoaded

namespace DwarfSection

def Contains (ds : DwarfSection) (address : Nat) : Prop := ds.dsData ≤ address ∧ address < ds.dsData + ds.dsSize

instance (ds : DwarfSection) (address : Nat) : Decidable (ds.Contains address) :=
  inferInstanceAs (Decidable (_ ∧ _))

end DwarfSection

section

variable {elf : KernelElf} {toVa endDebug : Nat} {sectionInfo : DebugSection → DwarfSection}

theorem readSectionHeaders_eq {secName : Secthdr} (names : elf.sections[elf.eShstrndx]? = some secName) (toVa : Nat) :
    let kvbase := (toVa + (sectSize - 1)) / sectSize * sectSize
    let s := elf.sections.foldl (SectionLoad.step kvbase) ⟨sectSize * elf.headerSectors, fun _ => ⟨0, 0⟩⟩
    readSectionHeaders elf toVa = .ok (kvbase + s.kvoffset, s.sectionInfo) := by
  have start : readseg (readseg 0 (elf.sections.length * elf.eShentsize) elf.eShoff) secName.shSize
      secName.shOffset = sectSize * elf.headerSectors := by
    rw [readseg, readseg, KernelElf.headerSectors, names, Option.elim_some, Nat.mul_add, Nat.zero_add]
  rw [readSectionHeaders, names]
  dsimp only
  rw [start]

theorem readSectionHeaders_loaded (read : readSectionHeaders elf toVa = .ok (endDebug, sectionInfo)) :
    ∃ s : SectionLoad, s.sectionInfo = sectionInfo ∧
      SectionsLoaded ((toVa + (sectSize - 1)) / sectSize * sectSize) (sectSize * elf.headerSectors) elf.sections s := by
  cases names : elf.sections[elf.eShstrndx]? with
  | none =>
    rw [readSectionHeaders, names] at read
    cases read
  | some secName =>
    cases (readSectionHeaders_eq names toVa).symm.trans read
    exact ⟨_, rfl, SectionsLoaded.foldl _ _ _⟩

theorem sectionInfo_last (read : readSectionHeaders elf toVa = .ok (endDebug, sectionInfo)) {d : DebugSection}
    (other : d ≠ .debugFrame) {early late : List Secthdr} {sh : Secthdr} (split : elf.sections = early ++ sh :: late)
    (name : sh.shName = d.dsName) (last : NoneNamed d.dsName late) :
    sectionInfo d = ⟨elf.loadAddr toVa early + sh.shOffset % sectSize, sh.shSize⟩ := by
  obtain ⟨s, rfl, loaded⟩ := readSectionHeaders_loaded read
  rw [loaded.recorded d other early sh late split name last, KernelElf.loadAddr, Nat.mul_add]

theorem sectionInfo_absent (read : readSectionHeaders elf toVa = .ok (endDebug, sectionInfo)) {d : DebugSection}
    (other : d ≠ .debugFrame) (absent : NoneNamed d.dsName elf.sections) : sectionInfo d = ⟨0, 0⟩ := by
  obtain ⟨s, rfl, loaded⟩ := readSectionHeaders_loaded read
  exact loaded.absent d other absent

end

-- What `boot_alloc` gives out afterwards

/-- No call of `boot_alloc` gives out a byte of a section that was read from the disk. -/
def SectionsKept (kernelEnd : Nat) (sectionInfo : DebugSection → DwarfSection) (calls : List (BitVec 32)) : Prop :=
  ∀ region ∈ bootAllocs (bootStart kernelEnd) calls, ∀ d, d ≠ DebugSection.debugFrame → ∀ address,
    ¬ (region.Contains address ∧ (sectionInfo d).Contains (kernBase.toNat + address))

theorem bootAllocs_reaches {kernelEnd address : Nat} (behind : bootStart kernelEnd ≤ address) :
    ∃ calls, ∃ region ∈ bootAllocs (bootStart kernelEnd) calls, region.Contains address := by
  let page := BitVec.ofNat 32 pgSize
  have pages : pagesFor page = 1 := by decide
  have count : ((List.replicate ((address - bootStart kernelEnd) / pgSize) page).map pagesFor).sum =
      (address - bootStart kernelEnd) / pgSize := by
    rw [List.map_replicate, pages, List.sum_replicate_nat, Nat.mul_one]
  refine ⟨List.replicate ((address - bootStart kernelEnd) / pgSize) page ++ [page], _,
    mem_bootAllocs.mpr ⟨_, page, [], rfl, rfl⟩, ?_⟩
  have size : page.toNat = pgSize := rfl
  rw [BootRegion.Contains, bootCursor_eq, count, size, pgSize]
  simp only
  omega

/-- The sections are kept exactly if `boot_alloc` starts behind each of them: it does not start at `end_debug`. -/
theorem debug_sections_kept {elf : KernelElf} {kernelEnd endDebug : Nat} {sectionInfo : DebugSection → DwarfSection}
    (read : readSectionHeaders elf (kernBase.toNat + kernelEnd) = .ok (endDebug, sectionInfo)) :
    (∀ calls, SectionsKept kernelEnd sectionInfo calls) ↔
      ∀ early sh late, elf.sections = early ++ sh :: late → sh.Loads → NoneNamed sh.shName late →
        sh.shSize = 0 ∨ elf.loadAddr (kernBase.toNat + kernelEnd) early + sh.shOffset % sectSize + sh.shSize ≤
          kernBase.toNat + bootStart kernelEnd := by
  constructor
  · rintro kept early sh late split ⟨d, other, name⟩ last
    by_contra fails
    rw [name] at last
    have entry := sectionInfo_last read other split name last
    have behind : bootStart kernelEnd ≤ elf.loadAddr (kernBase.toNat + kernelEnd) early + sh.shOffset % sectSize +
        sh.shSize - 1 - kernBase.toNat := by
      omega
    obtain ⟨calls, region, member, contains⟩ := bootAllocs_reaches behind
    refine kept calls region member d other _ ⟨contains, ?_⟩
    rw [entry, DwarfSection.Contains]
    simp only
    omega
  · intro condition calls region member d other address both
    obtain ⟨lower, upper⟩ := both.2
    have behind := (bootAllocs_apart _ (bootStart_aligned kernelEnd) calls).2 region member
    have first := both.1.1
    rcases noneNamed_or_exists d.dsName elf.sections with absent | ⟨early, sh, late, split, name, last⟩
    · rw [sectionInfo_absent read other absent] at lower upper
      exact absurd upper (by simp)
    · rw [sectionInfo_last read other split name last] at lower upper
      rw [← name] at last
      have fits := condition early sh late split ⟨d, other, name⟩ last
      simp only at lower upper
      omega

def debugElf (size : Nat) : KernelElf where
  eShoff := 0x8000
  eShentsize := 64
  eShstrndx := 2
  sections := [⟨"", 0, 0, 0⟩, ⟨".debug_info", 0, 0x2000, size⟩, ⟨".shstrtab", 0, 0x1000, 0x40⟩]

/-- Where the kernel ends at 0x180000 and its debug section takes five pages, the PML4 goes over the section. -/
theorem debug_sections_overwritten : ∃ endDebug sectionInfo,
    readSectionHeaders (debugElf 0x5000) (kernBase.toNat + 0x180000) = .ok (endDebug, sectionInfo) ∧
      ¬ SectionsKept 0x180000 sectionInfo (bootCalls 2048) := by
  refine ⟨_, _, rfl, ?_⟩
  intro kept
  have first : (⟨0x180000, 0x1000⟩ : BootRegion) ∈ bootAllocs (bootStart 0x180000) (bootCalls 2048) := by
    decide +kernel
  exact kept _ first .debugInfo (by decide) 0x180400 (by decide +kernel)

/-- A debug section of 1024 bytes lies in the rest of the last page of a kernel that ends at 0x17f400. -/
theorem debug_sections_kept_small : ∃ endDebug sectionInfo,
    readSectionHeaders (debugElf 0x400) (kernBase.toNat + 0x17f400) = .ok (endDebug, sectionInfo) ∧
      ∀ calls, SectionsKept 0x17f400 sectionInfo calls := by
  have read : readSectionHeaders (debugElf 0x400) (kernBase.toNat + 0x17f400) = .ok _ := rfl
  refine ⟨_, _, read, (debug_sections_kept read).mpr ?_⟩
  intro early sh late split loads last
  rw [debugElf] at split
  rcases early with _ | ⟨first, _ | ⟨second, _ | ⟨third, early⟩⟩⟩
  · simp only [List.nil_append, List.cons.injEq] at split
    obtain ⟨rfl, rfl⟩ := split
    exact absurd loads (by decide)
  · simp only [List.cons_append, List.nil_append, List.cons.injEq] at split
    obtain ⟨rfl, rfl, rfl⟩ := split
    exact .inr (by decide +kernel)
  · simp only [List.cons_append, List.nil_append, List.cons.injEq] at split
    obtain ⟨rfl, rfl, rfl, rfl⟩ := split
    exact absurd loads (by decide)
  · exact absurd (congrArg List.length split) (by simp)

end Jos
