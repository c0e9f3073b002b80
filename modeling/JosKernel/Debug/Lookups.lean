import JosKernel.Debug.Headers
import JosKernel.Lib.Transition

namespace Jos

open Format (text)
open Transition (Run Guarded)

-- inc/memlayout.h

def ustabData : Word := BitVec.ofNat 64 ptSize

-- kern/elf_rw.c: find_debug_sections

structure Scan where
  sectionInfo : SectionTable
  debugAddress : Word

section

variable (m : Bytes.Memory 64) (elf : Word)

def secthdrOf (i : Nat) : ElfSecthdr :=
  Binary.secthdrAt m (elf + (Binary.loadedAt m elf).eShoff + BitVec.ofNat 64 (sizeofSecthdr * i))

/-- The element of `section_info` that the name of a section belongs to. -/
def sectionOf (i : Nat) : Option DebugSection :=
  let shstrTab := secthdrOf m elf (Binary.loadedAt m elf).eShstrndx.toNat
  let name := elf + shstrTab.shOffset + (secthdrOf m elf i).shName
  [DebugSection.debugInfo, .debugAbbrev, .debugLine, .debugFrame, .debugStr].find? fun d =>
    strcmp m name (text d.dsName) = 0

def Scan.step (s : Scan) (i : Nat) : Scan :=
  let sh := secthdrOf m elf i
  match sectionOf m elf i with
  | some d => {
      sectionInfo := Function.update s.sectionInfo d
        (if d = .debugFrame then ⟨sh.shAddr, sh.shSize⟩ else ⟨s.debugAddress, sh.shSize⟩)
      debugAddress := s.debugAddress + sh.shSize }
  | none => s

def findDebugSections (sectionInfo : SectionTable) : SectionTable :=
  ((List.range (Binary.loadedAt m elf).eShnum.toNat).foldl (Scan.step m elf) ⟨sectionInfo, ustabData⟩).sectionInfo

def HasSection (d : DebugSection) : Prop := ∃ i < (Binary.loadedAt m elf).eShnum.toNat, sectionOf m elf i = some d

instance (d : DebugSection) : Decidable (HasSection m elf d) := inferInstanceAs (Decidable (∃ i < _, _))

end

-- kern/kdebug.c

/-- The variables that `debuginfo_rip` depends on, with the field `elf` of each environment. -/
structure Debuginfo where
  sectionInfo : SectionTable
  lastenv : Option Nat
  curenv : Option Nat
  elf : Nat → Word

/-- What libdwarf is started with, the ELF base and the sections, and the variables afterwards. -/
def debuginfoRip (m : Bytes.Memory 64) (s : Debuginfo) (addr : Word) :
    Except Stop ((Word × SectionTable) × Debuginfo) :=
  if ulim ≤ addr then .ok ((kelfhdr, s.sectionInfo), s)
  else match s.curenv with
    | none => .error .nullDeref
    | some e =>
      let s := if s.lastenv ≠ some e then
          { s with sectionInfo := findDebugSections m (s.elf e) s.sectionInfo, lastenv := some e }
        else s
      .ok ((s.elf e, s.sectionInfo), s)

-- Whole runs

/-- What happens to environments between lookups. Only `load_icode` sets `elf`. -/
inductive DebugEvent
  | lookup (addr : Word)
  | switch (curenv : Option Nat)
  | create (e : Nat) (binary : Word)
  | fork (parent child : Nat)
  | free (e : Nat)

/-- The images that the environments run, and those that have been scanned, the last one first, are kept along. -/
structure DebugRun extends Debuginfo where
  own : Nat → Word
  scanned : List Word

namespace DebugRun

def scans (s : DebugRun) (addr : Word) : Option Word :=
  match s.curenv with
  | none => none
  | some e => if ulim ≤ addr ∨ s.lastenv = some e then none else some (s.elf e)

def next (m : Bytes.Memory 64) (s : DebugRun) : DebugEvent → Except Stop DebugRun
  | .lookup addr => do
    let (_, debuginfo) ← debuginfoRip m s.toDebuginfo addr
    .ok { s with toDebuginfo := debuginfo, scanned := (s.scans addr).toList ++ s.scanned }
  | .switch curenv => .ok { s with curenv }
  | .create e binary => .ok { s with elf := Function.update s.elf e binary, own := Function.update s.own e binary }
  | .fork parent child => .ok { s with own := Function.update s.own child (s.own parent) }
  | .free _ => .ok s

def Step (m : Bytes.Memory 64) (s : DebugRun) (event : DebugEvent) (s' : DebugRun) : Prop := s.next m event = .ok s'

def Booted (kernel : SectionTable) (s : DebugRun) : Prop :=
  s.sectionInfo = kernel ∧ s.lastenv = none ∧ s.scanned = []

def fresh (kernel : SectionTable) (s : DebugRun) : Debuginfo where
  sectionInfo := kernel
  lastenv := none
  curenv := s.curenv
  elf := s.own

/-- When a lookup gives what it would give first. -/
def Careful (m : Bytes.Memory 64) (s : DebugRun) : DebugEvent → Prop
  | .lookup addr =>
    if ulim ≤ addr then ∀ elf ∈ s.scanned, ∀ d, ¬ HasSection m elf d
    else ∃ e, s.curenv = some e ∧ s.elf e = s.own e ∧
      if s.lastenv = some e then s.scanned.head? = some (s.own e)
      else ∀ elf ∈ s.scanned, ∀ d, HasSection m elf d → HasSection m (s.own e) d
  | _ => True

end DebugRun

-- What a scan does

section

variable {m : Bytes.Memory 64} {elf : Word} {d : DebugSection} {t t' : SectionTable}

theorem scan_foldl (headers : List Nat) (s s' : Scan) (same : s.debugAddress = s'.debugAddress) :
    (headers.foldl (Scan.step m elf) s).debugAddress = (headers.foldl (Scan.step m elf) s').debugAddress ∧
    (∀ d, (∃ i ∈ headers, sectionOf m elf i = some d) →
      (headers.foldl (Scan.step m elf) s).sectionInfo d = (headers.foldl (Scan.step m elf) s').sectionInfo d) ∧
    ∀ d, (¬ ∃ i ∈ headers, sectionOf m elf i = some d) →
      (headers.foldl (Scan.step m elf) s).sectionInfo d = s.sectionInfo d := by
  induction headers using List.reverseRecOn with
  | nil =>
    refine ⟨same, fun d found => ?_, fun d _ => rfl⟩
    obtain ⟨i, member, -⟩ := found
    cases member
  | append_singleton headers i ih =>
    obtain ⟨address, found, absent⟩ := ih
    rw [List.foldl_append, List.foldl_append, List.foldl_cons, List.foldl_cons, List.foldl_nil, List.foldl_nil]
    cases here : sectionOf m elf i with
    | none =>
      have idle : ∀ s : Scan, s.step m elf i = s := by
        intro s
        rw [Scan.step, here]
      rw [idle, idle]
      refine ⟨address, fun d named => found d ?_, fun d unnamed => absent d ?_⟩
      · obtain ⟨j, member, named⟩ := named
        rcases List.mem_append.mp member with before | last
        · exact ⟨j, before, named⟩
        · rw [List.mem_singleton.mp last, here] at named
          cases named
      · rintro ⟨j, before, named⟩
        exact unnamed ⟨j, List.mem_append_left _ before, named⟩
    | some entered =>
      have enters : ∀ s : Scan, s.step m elf i = ⟨Function.update s.sectionInfo entered
          (if entered = .debugFrame then ⟨(secthdrOf m elf i).shAddr, (secthdrOf m elf i).shSize⟩
            else ⟨s.debugAddress, (secthdrOf m elf i).shSize⟩), s.debugAddress + (secthdrOf m elf i).shSize⟩ := by
        intro s
        rw [Scan.step, here]
      rw [enters, enters]
      refine ⟨?_, fun d named => ?_, fun d unnamed => ?_⟩
      · dsimp only
        rw [address]
      · dsimp only
        rw [address]
        by_cases this : d = entered
        · rw [this, Function.update_self, Function.update_self]
        · rw [Function.update_of_ne this, Function.update_of_ne this]
          apply found
          obtain ⟨j, member, named⟩ := named
          rcases List.mem_append.mp member with before | last
          · exact ⟨j, before, named⟩
          · rw [List.mem_singleton.mp last, here] at named
            exact absurd (Option.some.inj named).symm this
      · have other : d ≠ entered := by
          rintro rfl
          exact unnamed ⟨i, List.mem_append_right _ (List.mem_singleton_self i), here⟩
        dsimp only
        rw [Function.update_of_ne other]
        apply absent
        rintro ⟨j, before, named⟩
        exact unnamed ⟨j, List.mem_append_left _ before, named⟩

theorem findDebugSections_has (has : HasSection m elf d) : findDebugSections m elf t d = findDebugSections m elf t' d := by
  obtain ⟨i, below, named⟩ := has
  exact (scan_foldl _ ⟨t, ustabData⟩ ⟨t', ustabData⟩ rfl).2.1 d ⟨i, List.mem_range.mpr below, named⟩

theorem findDebugSections_absent (absent : ¬ HasSection m elf d) : findDebugSections m elf t d = t d := by
  apply (scan_foldl _ ⟨t, ustabData⟩ ⟨t, ustabData⟩ rfl).2.2 d
  rintro ⟨i, member, named⟩
  exact absent ⟨i, List.mem_range.mp member, named⟩

theorem findDebugSections_hides {elf' : Word} (covers : ∀ d, HasSection m elf d → HasSection m elf' d) :
    findDebugSections m elf' (findDebugSections m elf t) = findDebugSections m elf' t := by
  funext d
  by_cases has : HasSection m elf' d
  · exact findDebugSections_has has
  · rw [findDebugSections_absent has, findDebugSections_absent has]
    exact findDebugSections_absent (mt (covers d) has)

theorem findDebugSections_none (none_ : ∀ d, ¬ HasSection m elf d) : findDebugSections m elf t = t := by
  funext d
  exact findDebugSections_absent (none_ d)

end

namespace DebugRun

variable {m : Bytes.Memory 64} {kernel : SectionTable} {s s' : DebugRun} {addr : Word} {event : DebugEvent}

/-- The table is the kernel's, with the sections of the image scanned last, which hides those scanned before. -/
structure Sound (m : Bytes.Memory 64) (kernel : SectionTable) (s : DebugRun) : Prop where
  unscanned : s.scanned = [] → s.sectionInfo = kernel ∧ s.lastenv = none
  scanned : ∀ elf rest, s.scanned = elf :: rest → s.sectionInfo = findDebugSections m elf kernel ∧
    ∀ elf' ∈ rest, ∀ d, HasSection m elf' d → HasSection m elf d

theorem Booted.sound (booted : s.Booted kernel) : s.Sound m kernel where
  unscanned _ := ⟨booted.1, booted.2.1⟩
  scanned elf rest some_ := by
    rw [booted.2.2] at some_
    cases some_

theorem Sound.scan (sound : s.Sound m kernel) {elf : Word}
    (covers : ∀ elf' ∈ s.scanned, ∀ d, HasSection m elf' d → HasSection m elf d) :
    findDebugSections m elf s.sectionInfo = findDebugSections m elf kernel := by
  cases history : s.scanned with
  | nil => rw [(sound.unscanned history).1]
  | cons last rest =>
    rw [(sound.scanned last rest history).1]
    apply findDebugSections_hides
    apply covers
    rw [history]
    exact List.mem_cons_self ..

theorem Sound.keep (sound : s.Sound m kernel) (table : s'.sectionInfo = s.sectionInfo) (last : s'.lastenv = s.lastenv)
    (history : s'.scanned = s.scanned) : s'.Sound m kernel where
  unscanned none_ := by
    rw [table, last]
    exact sound.unscanned (history.symm.trans none_)
  scanned elf rest some_ := by
    rw [table]
    exact sound.scanned elf rest (history.symm.trans some_)

theorem rip_kernel (high : ulim ≤ addr) (debuginfo : Debuginfo) :
    debuginfoRip m debuginfo addr = .ok ((kelfhdr, debuginfo.sectionInfo), debuginfo) := if_pos high

theorem rip_cached (low : ¬ ulim ≤ addr) {debuginfo : Debuginfo} {e : Nat} (current : debuginfo.curenv = some e)
    (last : debuginfo.lastenv = some e) :
    debuginfoRip m debuginfo addr = .ok ((debuginfo.elf e, debuginfo.sectionInfo), debuginfo) := by
  rw [debuginfoRip, if_neg low, current]
  dsimp only
  rw [if_neg (not_not.mpr last)]

theorem rip_scans (low : ¬ ulim ≤ addr) {debuginfo : Debuginfo} {e : Nat} (current : debuginfo.curenv = some e)
    (last : debuginfo.lastenv ≠ some e) : debuginfoRip m debuginfo addr =
      .ok ((debuginfo.elf e, findDebugSections m (debuginfo.elf e) debuginfo.sectionInfo), { debuginfo with
        sectionInfo := findDebugSections m (debuginfo.elf e) debuginfo.sectionInfo, lastenv := some e }) := by
  rw [debuginfoRip, if_neg low, current]
  dsimp only
  rw [if_pos last]

theorem Sound.step (sound : s.Sound m kernel) (careful : s.Careful m event) (step : s.Step m event s') :
    s'.Sound m kernel := by
  cases event with
  | lookup addr =>
    rw [Step, next] at step
    by_cases high : ulim ≤ addr
    · have unscanned : s.scans addr = none := by
        rw [scans]
        cases s.curenv with
        | none => rfl
        | some e => exact if_pos (.inl high)
      rw [rip_kernel high, unscanned] at step
      cases step
      exact sound.keep rfl rfl rfl
    · rw [Careful, if_neg high] at careful
      obtain ⟨e, current, own, rest⟩ := careful
      by_cases last : s.lastenv = some e
      · have unscanned : s.scans addr = none := by
          rw [scans, current]
          exact if_pos (.inr last)
        rw [rip_cached high current last, unscanned] at step
        cases step
        exact sound.keep rfl rfl rfl
      · have scanned : s.scans addr = some (s.elf e) := by
          rw [scans, current]
          exact if_neg (not_or.mpr ⟨high, last⟩)
        rw [if_neg last, ← own] at rest
        rw [rip_scans high current last, scanned] at step
        cases step
        constructor
        · intro none_
          cases none_
        · intro elf others some_
          cases some_
          exact ⟨sound.scan rest, rest⟩
  | switch curenv =>
    cases step
    exact sound.keep rfl rfl rfl
  | create e binary =>
    cases step
    exact sound.keep rfl rfl rfl
  | fork parent child =>
    cases step
    exact sound.keep rfl rfl rfl
  | free e =>
    cases step
    exact sound.keep rfl rfl rfl

def Consults (m : Bytes.Memory 64) (kernel : SectionTable) (s : DebugRun) (addr : Word)
    (consulted : Word × SectionTable) : Prop :=
  if ulim ≤ addr then consulted = (kelfhdr, kernel)
  else ∃ e, s.curenv = some e ∧ consulted = (s.own e, findDebugSections m (s.own e) kernel)

theorem Sound.consults (sound : s.Sound m kernel) (careful : s.Careful m (.lookup addr)) : ∃ consulted after,
    debuginfoRip m s.toDebuginfo addr = .ok (consulted, after) ∧ s.Consults m kernel addr consulted := by
  rw [Careful] at careful
  unfold Consults
  by_cases high : ulim ≤ addr
  · rw [if_pos high] at careful
    refine ⟨_, _, rip_kernel high _, ?_⟩
    rw [if_pos high]
    cases history : s.scanned with
    | nil => rw [(sound.unscanned history).1]
    | cons elf rest =>
      rw [(sound.scanned elf rest history).1, findDebugSections_none]
      apply careful
      rw [history]
      exact List.mem_cons_self ..
  · rw [if_neg high] at careful
    obtain ⟨e, current, own, rest⟩ := careful
    by_cases last : s.lastenv = some e
    · refine ⟨_, _, rip_cached high current last, ?_⟩
      rw [if_pos last] at rest
      rw [if_neg high]
      refine ⟨e, current, ?_⟩
      cases history : s.scanned with
      | nil =>
        rw [history] at rest
        cases rest
      | cons elf others =>
        rw [history] at rest
        cases rest
        rw [own, (sound.scanned _ others history).1]
    · refine ⟨_, _, rip_scans high current last, ?_⟩
      rw [if_neg last, ← own] at rest
      rw [if_neg high]
      exact ⟨e, current, by rw [sound.scan rest, own]⟩

theorem fresh_consults {consulted : Word × SectionTable} (consults : s.Consults m kernel addr consulted) :
    ∃ after, debuginfoRip m (s.fresh kernel) addr = .ok (consulted, after) := by
  unfold Consults at consults
  by_cases high : ulim ≤ addr
  · rw [if_pos high] at consults
    rw [consults]
    exact ⟨_, rip_kernel high _⟩
  · rw [if_neg high] at consults
    obtain ⟨e, current, rfl⟩ := consults
    exact ⟨_, @rip_scans m addr high (s.fresh kernel) e current (by simp [fresh])⟩

def result {β : Type} (m : Bytes.Memory 64) (dwarf : Word → SectionTable → Word → β) (s : Debuginfo) (addr : Word) :
    Except Stop β :=
  (debuginfoRip m s addr).map fun r => dwarf r.1.1 r.1.2 addr

/-- After every run of careful steps, a careful lookup consults what it should, and gives what it would give first. -/
theorem debuginfo_rip_history_free {β : Type} (m : Bytes.Memory 64) (kernel : SectionTable) (first last : DebugRun)
    (events : List DebugEvent) (addr : Word) (dwarf : Word → SectionTable → Word → β) (booted : first.Booted kernel)
    (run : Run (Guarded (Careful m) (Step m)) first events last) (careful : last.Careful m (.lookup addr)) :
    (∃ consulted after, debuginfoRip m last.toDebuginfo addr = .ok (consulted, after) ∧
      last.Consults m kernel addr consulted) ∧
    result m dwarf last.toDebuginfo addr = result m dwarf (last.fresh kernel) addr := by
  have sound : last.Sound m kernel :=
    run.invariant (fun _ _ _ sound step => sound.step step.1 step.2) booted.sound
  obtain ⟨consulted, after, looked, consults⟩ := sound.consults careful
  obtain ⟨after', looked'⟩ := fresh_consults consults
  refine ⟨⟨consulted, after, looked, consults⟩, ?_⟩
  rw [result, result, looked, looked']
  rfl

-- A file with a section .debug_info, and a kernel with all sections

def userElf : Word := 0x8004500000

def userImage : Bytes.Memory 64 := fun a => Disk.sampleBytes 2 (a - userElf).toNat

def kernelSections : SectionTable := fun _ => ⟨0x8004400000, 100⟩

def bootState : DebugRun where
  sectionInfo := kernelSections
  lastenv := none
  curenv := none
  elf := 0
  own := 0
  scanned := []

def userLookup : List DebugEvent := [.create 0 userElf, .switch (some 0), .lookup 0x800020]

def afterLookup : DebugRun where
  sectionInfo := findDebugSections userImage userElf kernelSections
  lastenv := some 0
  curenv := some 0
  elf := Function.update 0 0 userElf
  own := Function.update 0 0 userElf
  scanned := [userElf]

theorem userLookup_run : Run (Guarded (Careful userImage) (Step userImage)) bootState userLookup afterLookup := by
  refine .cons ⟨trivial, rfl⟩ (.cons ⟨trivial, rfl⟩ (.cons ⟨?_, ?_⟩ (.nil _)))
  · exact ⟨0, rfl, rfl, fun elf none_ => absurd none_ List.not_mem_nil⟩
  · rfl

theorem debuginfo_rip_history_free_user :
    result userImage (fun _ sections _ => sections .debugInfo) afterLookup.toDebuginfo 0x800100 =
      result userImage (fun _ sections _ => sections .debugInfo) (afterLookup.fresh kernelSections) 0x800100 := by
  have careful : afterLookup.Careful userImage (.lookup 0x800100) := ⟨0, rfl, rfl, rfl⟩
  exact (debuginfo_rip_history_free userImage kernelSections bootState afterLookup userLookup 0x800100
    (fun _ sections _ => sections .debugInfo) ⟨rfl, rfl, rfl⟩ userLookup_run careful).2

/-- `debuginfo_rip` itself, looked up behind an address of an environment, is given the sections of the environment. -/
theorem debuginfo_rip_remembers : ∃ last, Run (Step userImage) bootState userLookup last ∧
    result userImage (fun _ sections _ => sections .debugInfo) last.toDebuginfo 0x8004202000 = .ok ⟨ustabData, 3⟩ ∧
    result userImage (fun _ sections _ => sections .debugInfo) (last.fresh kernelSections) 0x8004202000 =
      .ok ⟨0x8004400000, 100⟩ := by
  refine ⟨afterLookup, userLookup_run.mono fun _ _ _ step => step.2, ?_, rfl⟩
  have entered : findDebugSections userImage userElf kernelSections .debugInfo = ⟨ustabData, 3⟩ := by decide +kernel
  rw [← entered]
  rfl

end DebugRun
end Jos
