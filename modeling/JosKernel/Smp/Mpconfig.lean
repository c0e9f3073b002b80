import Mathlib.Data.BitVec
import JosKernel.Lib.Fallible
import JosKernel.Env.State

namespace Jos.Smp

-- kern/cpu.h

def maxCpus : Nat := 8

structure CpuInfo where
  cpuId : BitVec 8
  cpuStatus : CpuStatus
  deriving DecidableEq, Repr

-- kern/mpconfig.c

structure Firmware where
  byte : Nat → BitVec 8
  npages : Nat

namespace Firmware

variable (f : Firmware)

def half (a : Nat) : BitVec 16 := f.byte (a + 1) ++ f.byte a

def word (a : Nat) : BitVec 32 := f.half (a + 2) ++ f.half a

/-- The address is one that `KADDR` takes. It stands for the pointer as well. -/
def kaddr (pa : Nat) : Except Stop Nat := if pa / 4096 < f.npages then .ok pa else .error .panic

def sum (a len : Nat) : BitVec 8 := ((List.range len).map fun i => f.byte (a + i)).sum

def matchesText (a : Nat) (s : List (BitVec 8)) : Bool := (List.range s.length).map (fun i => f.byte (a + i)) = s

/-- The fields of `struct mp` are read from memory. -/
structure Mp where
  physaddr : BitVec 32
  type : BitVec 8
  imcrp : BitVec 8
  deriving DecidableEq, Repr

def mp (a : Nat) : Mp := ⟨f.word (a + 4), f.byte (a + 11), f.byte (a + 12)⟩

structure Mpconf where
  length : BitVec 16
  version : BitVec 8
  entry : BitVec 16
  lapicaddr : BitVec 32
  xlength : BitVec 16
  xchecksum : BitVec 8
  deriving DecidableEq, Repr

def mpconf (a : Nat) : Mpconf :=
  ⟨f.half (a + 4), f.byte (a + 6), f.half (a + 34), f.word (a + 36), f.half (a + 40), f.byte (a + 42)⟩

structure Mpproc where
  apicid : BitVec 8
  version : BitVec 8
  flags : BitVec 8
  deriving DecidableEq, Repr

def Mpproc.Enabled (proc : Mpproc) : Prop := proc.flags &&& 0x01 ≠ 0

def Mpproc.Boot (proc : Mpproc) : Prop := proc.flags &&& 0x02 ≠ 0

instance (proc : Mpproc) : Decidable proc.Enabled := inferInstanceAs (Decidable (_ ≠ _))

instance (proc : Mpproc) : Decidable proc.Boot := inferInstanceAs (Decidable (_ ≠ _))

def mpproc (a : Nat) : Mpproc := ⟨f.byte (a + 1), f.byte (a + 2), f.byte (a + 3)⟩

def mpsearch1 (a len : Nat) : Except Stop (Option Nat) := do
  let mp ← f.kaddr a
  let stop ← f.kaddr (a + len)
  .ok (((List.range ((stop - mp + 15) / 16)).map fun i => mp + 16 * i).find? fun mp =>
    f.matchesText mp [0x5F, 0x4D, 0x50, 0x5F] ∧ f.sum mp 16 = 0)

def mpsearch : Except Stop (Option Nat) := do
  let bda ← f.kaddr (0x40 <<< 4)
  let segment := f.half (bda + 0x0E)
  let found ←
    if segment ≠ 0 then f.mpsearch1 (segment.toNat <<< 4) 1024
    else f.mpsearch1 (BitVec.ofNat 32 ((f.half (bda + 0x13)).toNat * 1024) - 1024).toNat 1024
  match found with
  | some mp => .ok (some mp)
  | none => f.mpsearch1 0xF0000 0x10000

def mpconfig : Except Stop (Option (Nat × Nat)) := do
  match ← f.mpsearch with
  | none => .ok none
  | some mp =>
    if (f.mp mp).physaddr = 0 ∨ (f.mp mp).type ≠ 0 then .ok none
    else
      let conf ← f.kaddr (f.mp mp).physaddr.toNat
      if ¬ f.matchesText conf [0x50, 0x43, 0x4D, 0x50] then .ok none
      else if f.sum conf (f.mpconf conf).length.toNat ≠ 0 then .ok none
      else if (f.mpconf conf).version ≠ 1 ∧ (f.mpconf conf).version ≠ 4 then .ok none
      else if f.sum (conf + (f.mpconf conf).length.toNat) (f.mpconf conf).xlength.toNat ≠ (f.mpconf conf).xchecksum
        then .ok none
      else .ok (some (mp, conf))

end Firmware

open Firmware

/-- `cpus` with what lies behind it, and `bootcpu` as an index into it. -/
structure Mps where
  cpus : Nat → CpuInfo
  bootcpu : Nat
  ismp : Bool
  ncpu : Nat
  lapicaddr : BitVec 32
  outs : List (Nat × BitVec 8)

namespace Mps

def initial : Mps := ⟨fun _ => ⟨0, .unused⟩, 0, false, 0, 0, []⟩

def mark (s : Mps) (proc : Mpproc) : Mps := if proc.Boot then { s with bootcpu := s.ncpu } else s

def enter (s : Mps) (proc : Mpproc) : Mps :=
  if s.ncpu < maxCpus then
    if proc.Enabled then
      { s with
        cpus := Function.update s.cpus s.ncpu { s.cpus s.ncpu with cpuId := BitVec.ofNat 8 s.ncpu }
        ncpu := s.ncpu + 1 }
    else s
  else s

def add (s : Mps) (proc : Mpproc) : Mps := (s.mark proc).enter proc

def walk (f : Firmware) : Nat → Nat → Mps → Mps
  | 0, _, s => s
  | i + 1, p, s =>
    if f.byte p = 0 then walk f i (p + 20) (s.add (f.mpproc p))
    else if f.byte p ≤ 4 then walk f i (p + 8) s
    else { s with ismp := false }

def outb (s : Mps) (port : Nat) (data : BitVec 8) : Mps := { s with outs := s.outs ++ [(port, data)] }

def startBoot (s : Mps) : Mps :=
  { s with cpus := Function.update s.cpus s.bootcpu { s.cpus s.bootcpu with cpuStatus := .started } }

def mpInit (f : Firmware) (imcr : BitVec 8) (s : Mps) : Except Stop Mps := do
  let s := { s with bootcpu := 0 }
  match ← f.mpconfig with
  | none => .ok s
  | some (mp, conf) =>
    let s := { s with ismp := true, lapicaddr := (f.mpconf conf).lapicaddr }
    let s := (walk f (f.mpconf conf).entry.toNat (conf + 44) s).startBoot
    if ¬ s.ismp then .ok { s with ncpu := 1, lapicaddr := 0 }
    else if (f.mp mp).imcrp ≠ 0 then .ok ((s.outb 0x22 0x70).outb 0x23 (imcr ||| 1))
    else .ok s

end Mps

-- What the table says

def Firmware.processors (f : Firmware) : Nat → Nat → List Mpproc
  | 0, _ => []
  | i + 1, p => if f.byte p = 0 then f.mpproc p :: f.processors i (p + 20) else f.processors i (p + 8)

def first (procs : List Mpproc) : List Mpproc := (procs.filter fun proc => proc.Enabled).take maxCpus

structure Mps.Describes (s : Mps) (procs : List Mpproc) : Prop where
  ncpu : s.ncpu = (first procs).length
  ids : ∀ j proc, (first procs)[j]? = some proc → (s.cpus j).cpuId = proc.apicid
  boot : (∃ proc ∈ procs, proc.Boot) → ∃ proc, (first procs)[s.bootcpu]? = some proc ∧ proc.Boot

def Numbered (procs : List Mpproc) : Prop := ∀ j proc, (first procs)[j]? = some proc → proc.apicid = BitVec.ofNat 8 j

def BootFits (procs : List Mpproc) : Prop :=
  ∀ front proc back, procs = front ++ proc :: back → proc.Boot → (∀ other ∈ back, ¬ other.Boot) →
    proc.Enabled ∧ (first front).length < maxCpus

variable {s : Mps} {procs front back : List Mpproc} {proc : Mpproc} {f : Firmware}

theorem first_room : (first procs).length ≤ maxCpus := List.length_take_le ..

theorem first_append : first (procs ++ [proc]) =
    if (first procs).length < maxCpus ∧ proc.Enabled then first procs ++ [proc] else first procs := by
  rw [first, first, List.filter_append, List.length_take]
  by_cases enabled : proc.Enabled
  · rw [List.filter_cons_of_pos (by simpa using enabled), List.filter_nil]
    by_cases room : (procs.filter fun proc => proc.Enabled).length < maxCpus
    · rw [if_pos ⟨by omega, enabled⟩, List.take_of_length_le (by simp; omega), List.take_of_length_le room.le]
    · rw [if_neg (by omega), List.take_append_of_le_length (Nat.not_lt.mp room)]
  · rw [List.filter_cons_of_neg (by simpa using enabled), List.filter_nil, List.append_nil, if_neg fun both => enabled both.2]

structure Mps.Loaded (s : Mps) (procs : List Mpproc) : Prop where
  ncpu : s.ncpu = (first procs).length
  ids : ∀ j < s.ncpu, (s.cpus j).cpuId = BitVec.ofNat 8 j
  boot : ∀ front proc back, procs = front ++ proc :: back → proc.Boot → (∀ other ∈ back, ¬ other.Boot) →
    s.bootcpu = (first front).length

namespace Mps

theorem mark_bootcpu : (s.mark proc).bootcpu = if proc.Boot then s.ncpu else s.bootcpu := by
  rw [mark]
  split <;> rfl

theorem mark_others : (s.mark proc).ncpu = s.ncpu ∧ (s.mark proc).cpus = s.cpus ∧ (s.mark proc).ismp = s.ismp := by
  unfold mark
  split <;> exact ⟨rfl, rfl, rfl⟩

theorem enter_others : (s.enter proc).bootcpu = s.bootcpu ∧ (s.enter proc).ismp = s.ismp := by
  unfold enter
  split
  · split <;> exact ⟨rfl, rfl⟩
  · exact ⟨rfl, rfl⟩

theorem enter_full (full : ¬ (s.ncpu < maxCpus ∧ proc.Enabled)) : s.enter proc = s := by
  rw [enter]
  by_cases room : s.ncpu < maxCpus
  · rw [if_pos room, if_neg fun present => full ⟨room, present⟩]
  · rw [if_neg room]

theorem add_bootcpu : (s.add proc).bootcpu = if proc.Boot then s.ncpu else s.bootcpu :=
  enter_others.1.trans mark_bootcpu

theorem Loaded.add (loaded : s.Loaded procs) (proc : Mpproc) : (s.add proc).Loaded (procs ++ [proc]) := by
  obtain ⟨ncpu, cpus, -⟩ := @mark_others s proc
  have boot : ∀ front other back, procs ++ [proc] = front ++ other :: back → other.Boot →
      (∀ later ∈ back, ¬ later.Boot) → (s.add proc).bootcpu = (first front).length := by
    intro front other back parts flagged last
    rcases List.eq_nil_or_concat back with rfl | ⟨back', final, rfl⟩
    · obtain ⟨rfl, same⟩ := List.append_inj' parts rfl
      cases same
      rw [add_bootcpu, if_pos flagged, loaded.ncpu]
    · rw [List.concat_eq_append] at parts last
      have parts' : procs ++ [proc] = (front ++ other :: back') ++ [final] := by rw [parts, List.append_assoc]; rfl
      obtain ⟨rfl, same⟩ := List.append_inj' parts' rfl
      cases same
      rw [add_bootcpu, if_neg (last proc (by simp))]
      exact loaded.boot front other back' rfl flagged fun later member => last later (by simp [member])
  by_cases entered : s.ncpu < maxCpus ∧ proc.Enabled
  · have added : (s.add proc).ncpu = s.ncpu + 1 ∧
        (s.add proc).cpus = Function.update s.cpus s.ncpu { s.cpus s.ncpu with cpuId := BitVec.ofNat 8 s.ncpu } := by
      rw [Mps.add, enter, ncpu, cpus, if_pos entered.1, if_pos entered.2]
      exact ⟨rfl, rfl⟩
    refine ⟨?_, fun j below => ?_, boot⟩
    · rw [added.1, first_append, if_pos (by rw [← loaded.ncpu]; exact entered), List.length_append, loaded.ncpu]
      rfl
    · rw [added.2]
      rw [added.1] at below
      rcases Nat.lt_succ_iff_lt_or_eq.mp below with old | rfl
      · rw [Function.update_of_ne (Nat.ne_of_lt old)]
        exact loaded.ids j old
      · rw [Function.update_self]
  · have kept : s.add proc = s.mark proc := by
      rw [Mps.add, enter_full]
      rwa [ncpu]
    refine ⟨?_, fun j below => ?_, boot⟩
    · rw [kept, ncpu, first_append, if_neg (by rwa [← loaded.ncpu])]
      exact loaded.ncpu
    · rw [kept, ncpu] at below
      rw [kept, cpus]
      exact loaded.ids j below

theorem Loaded.adds (loaded : s.Loaded procs) (entries : List Mpproc) :
    (entries.foldl Mps.add s).Loaded (procs ++ entries) := by
  induction entries generalizing s procs with
  | nil => rwa [List.append_nil]
  | cons proc entries ih =>
    have rest := ih (loaded.add proc)
    rwa [List.append_assoc] at rest

theorem walk_adds {i p : Nat} (kept : (walk f i p s).ismp = true) : walk f i p s = (f.processors i p).foldl Mps.add s := by
  induction i generalizing p s with
  | zero => rfl
  | succ i ih =>
    rw [walk] at kept ⊢
    rw [Firmware.processors]
    split at kept
    · rename_i processor
      rw [if_pos processor, if_pos processor]
      exact ih kept
    · rename_i other
      split at kept
      · rename_i known
        rw [if_neg other, if_neg other, if_pos known]
        exact ih kept
      · cases kept

theorem first_next (rest : List Mpproc) (room : (first front).length < maxCpus) :
    (first (front ++ rest))[(first front).length]? = (rest.filter fun proc => proc.Enabled).head? := by
  rw [first, List.length_take] at room
  have whole : (first front).length = (front.filter fun proc => proc.Enabled).length := by
    rw [first, List.length_take]
    omega
  rw [whole, first, List.filter_append, List.getElem?_take_of_lt (by omega), List.getElem?_append_right (Nat.le_refl _),
    Nat.sub_self, List.head?_eq_getElem?]

theorem exists_last (flagged : ∃ proc ∈ procs, proc.Boot) : ∃ front proc back, procs = front ++ proc :: back ∧
    proc.Boot ∧ ∀ later ∈ back, ¬ later.Boot := by
  induction procs with
  | nil =>
    obtain ⟨_, absent, -⟩ := flagged
    cases absent
  | cons head procs ih =>
    by_cases later : ∃ proc ∈ procs, proc.Boot
    · obtain ⟨front, proc, back, rfl, boot, last⟩ := ih later
      exact ⟨head :: front, proc, back, rfl, boot, last⟩
    · obtain ⟨proc, member, boot⟩ := flagged
      rcases List.mem_cons.mp member with rfl | old
      · exact ⟨[], proc, procs, rfl, boot, fun other member boot => later ⟨other, member, boot⟩⟩
      · exact absurd ⟨proc, old, boot⟩ later

theorem Loaded.describes_iff (loaded : s.Loaded procs) : s.Describes procs ↔ Numbered procs ∧ BootFits procs := by
  constructor
  · intro describes
    refine ⟨fun j proc found => ?_, fun front proc back parts flagged last => ?_⟩
    · obtain ⟨inside, -⟩ := List.getElem?_eq_some_iff.mp found
      rw [← loaded.ncpu] at inside
      rw [← describes.ids j proc found, loaded.ids j inside]
    · obtain ⟨chosen, found, boot⟩ := describes.boot ⟨proc, by simp [parts], flagged⟩
      rw [loaded.boot front proc back parts flagged last] at found
      obtain ⟨inside, -⟩ := List.getElem?_eq_some_iff.mp found
      have room := inside.trans_le first_room
      refine ⟨?_, room⟩
      by_contra disabled
      rw [parts, first_next _ room, List.filter_cons_of_neg (by simpa using disabled)] at found
      have later := (List.mem_filter.mp (List.mem_of_head? found)).1
      exact last chosen later boot
  · rintro ⟨numbered, fits⟩
    refine ⟨loaded.ncpu, fun j proc found => ?_, fun flagged => ?_⟩
    · obtain ⟨inside, -⟩ := List.getElem?_eq_some_iff.mp found
      rw [numbered j proc found]
      exact loaded.ids j (by rwa [loaded.ncpu])
    · obtain ⟨front, proc, back, parts, boot, last⟩ := exists_last flagged
      obtain ⟨enabled, room⟩ := fits front proc back parts boot last
      refine ⟨proc, ?_, boot⟩
      rw [loaded.boot front proc back parts boot last, parts, first_next _ room,
        List.filter_cons_of_pos (by simpa using enabled)]
      rfl

theorem Loaded.startBoot (loaded : s.Loaded procs) : s.startBoot.Loaded procs := by
  refine ⟨loaded.ncpu, fun j below => ?_, loaded.boot⟩
  rw [← loaded.ids j below, Mps.startBoot]
  dsimp only
  by_cases here : j = s.bootcpu
  · rw [here, Function.update_self]
  · rw [Function.update_of_ne here]

theorem Loaded.outb (loaded : s.Loaded procs) (port : Nat) (data : BitVec 8) : (s.outb port data).Loaded procs :=
  ⟨loaded.ncpu, loaded.ids, loaded.boot⟩

theorem walk_loaded {i p : Nat} (lapicaddr : BitVec 32)
    (kept : (walk f i p { initial with ismp := true, lapicaddr }).ismp = true) :
    (walk f i p { initial with ismp := true, lapicaddr }).Loaded (f.processors i p) := by
  have start : ({ initial with ismp := true, lapicaddr } : Mps).Loaded [] :=
    ⟨rfl, fun j below => absurd below (Nat.not_lt_zero j), fun front proc back parts => by simp at parts⟩
  have loaded := start.adds (f.processors i p)
  rwa [List.nil_append, ← walk_adds kept] at loaded

theorem mpInit_loaded (f : Firmware) (imcr : BitVec 8) {mp conf : Nat} (accepted : f.mpconfig = .ok (some (mp, conf))) :
    ∃ s, mpInit f imcr initial = .ok s ∧
      (s.ismp = true → s.Loaded (f.processors (f.mpconf conf).entry.toNat (conf + 44))) := by
  rw [mpInit, accepted, Fallible.bind_of_ok rfl]
  dsimp only
  set walked := walk f (f.mpconf conf).entry.toNat (conf + 44)
    { initial with bootcpu := 0, ismp := true, lapicaddr := (f.mpconf conf).lapicaddr } with walking
  by_cases kept : walked.ismp = true
  · have loaded : walked.startBoot.Loaded (f.processors (f.mpconf conf).entry.toNat (conf + 44)) :=
      (walk_loaded (f.mpconf conf).lapicaddr kept).startBoot
    rw [if_neg (not_not.mpr (show walked.startBoot.ismp = true from kept))]
    split
    · exact ⟨_, rfl, fun _ => (loaded.outb _ _).outb _ _⟩
    · exact ⟨_, rfl, fun _ => loaded⟩
  · rw [if_pos (show ¬ walked.startBoot.ismp = true from kept)]
    exact ⟨_, rfl, fun other => absurd other kept⟩

/-- With a table that is accepted, and whose entries have known types, `cpus` describes the processors just if the
    APIC ids happen to be the indices, and the last entry with the boot flag is that of a processor in use. -/
theorem mp_init_describes_iff (f : Firmware) (imcr : BitVec 8) {mp conf : Nat}
    (accepted : f.mpconfig = .ok (some (mp, conf))) : ∃ s, mpInit f imcr initial = .ok s ∧
      (s.ismp = true → (s.Describes (f.processors (f.mpconf conf).entry.toNat (conf + 44)) ↔
        Numbered (f.processors (f.mpconf conf).entry.toNat (conf + 44)) ∧
          BootFits (f.processors (f.mpconf conf).entry.toNat (conf + 44)))) := by
  obtain ⟨s, done, loaded⟩ := mpInit_loaded f imcr accepted
  exact ⟨s, done, fun kept => (loaded kept).describes_iff⟩

-- Two processors

def checked (bytes : List (BitVec 8)) (place : Nat) : List (BitVec 8) := bytes.set place (-bytes.sum)

def mpBytes : List (BitVec 8) :=
  checked ([0x5F, 0x4D, 0x50, 0x5F, 0x10, 0x10, 0, 0, 1, 4, 0, 0, 0, 0, 0, 0]) 10

def confBytes (procs : List Mpproc) : List (BitVec 8) :=
  checked ([0x50, 0x43, 0x4D, 0x50, BitVec.ofNat 8 (44 + 20 * procs.length), 0, 4, 0] ++ List.replicate 26 0 ++
    [BitVec.ofNat 8 procs.length, 0, 0, 0, 0xE0, 0xFE, 0, 0, 0, 0] ++
    procs.flatMap fun proc => [0, proc.apicid, proc.version, proc.flags] ++ List.replicate 16 0) 7

def ebda (procs : List Mpproc) : Firmware where
  byte a := if a = 0x40F then 0x01 else if a < 0x1000 then 0 else (mpBytes ++ confBytes procs).getD (a - 0x1000) 0
  npages := 16

theorem mp_init_describes_iff_dual : ∃ s, mpInit (ebda [⟨0, 0x14, 3⟩, ⟨1, 0x14, 1⟩]) 0 initial = .ok s ∧
    s.Describes [⟨0, 0x14, 3⟩, ⟨1, 0x14, 1⟩] := by
  have accepted : (ebda [⟨0, 0x14, 3⟩, ⟨1, 0x14, 1⟩]).mpconfig = .ok (some (0x1000, 0x1010)) := by decide +kernel
  have kept : (mpInit (ebda [⟨0, 0x14, 3⟩, ⟨1, 0x14, 1⟩]) 0 initial).toOption.map Mps.ismp = some true := by
    decide +kernel
  have table : (ebda [⟨0, 0x14, 3⟩, ⟨1, 0x14, 1⟩]).processors
      ((ebda [⟨0, 0x14, 3⟩, ⟨1, 0x14, 1⟩]).mpconf 0x1010).entry.toNat (0x1010 + 44) =
        [⟨0, 0x14, 3⟩, ⟨1, 0x14, 1⟩] := by
    decide +kernel
  obtain ⟨s, done, exact_⟩ := mp_init_describes_iff (ebda [⟨0, 0x14, 3⟩, ⟨1, 0x14, 1⟩]) 0 accepted
  rw [done] at kept
  rw [table] at exact_
  have all : first [⟨0, 0x14, 3⟩, ⟨1, 0x14, 1⟩] = [⟨0, 0x14, 3⟩, ⟨1, 0x14, 1⟩] := by decide
  refine ⟨s, done, (exact_ (Option.some.inj kept)).mpr ⟨fun j proc found => ?_, fun front proc back parts boot last => ?_⟩⟩
  · rw [all] at found
    match j with
    | 0 =>
      cases found
      rfl
    | 1 =>
      cases found
      rfl
    | j + 2 => cases found
  · match front with
    | [] =>
      cases parts
      decide
    | [_] =>
      cases parts
      exact absurd boot (by decide)
    | _ :: _ :: front => simp at parts

/-- The second of the two processors has the APIC id 2. -/
theorem mp_init_renumbers :
    (ebda [⟨0, 0x14, 3⟩, ⟨2, 0x14, 1⟩]).mpconfig = .ok (some (0x1000, 0x1010)) ∧
    (ebda [⟨0, 0x14, 3⟩, ⟨2, 0x14, 1⟩]).processors
      ((ebda [⟨0, 0x14, 3⟩, ⟨2, 0x14, 1⟩]).mpconf 0x1010).entry.toNat (0x1010 + 44) =
        [⟨0, 0x14, 3⟩, ⟨2, 0x14, 1⟩] ∧
    ∃ s, mpInit (ebda [⟨0, 0x14, 3⟩, ⟨2, 0x14, 1⟩]) 0 initial = .ok s ∧ s.ismp = true ∧
      ¬ s.Describes [⟨0, 0x14, 3⟩, ⟨2, 0x14, 1⟩] := by
  have accepted : (ebda [⟨0, 0x14, 3⟩, ⟨2, 0x14, 1⟩]).mpconfig = .ok (some (0x1000, 0x1010)) := by decide +kernel
  have kept : (mpInit (ebda [⟨0, 0x14, 3⟩, ⟨2, 0x14, 1⟩]) 0 initial).toOption.map Mps.ismp = some true := by
    decide +kernel
  have table : (ebda [⟨0, 0x14, 3⟩, ⟨2, 0x14, 1⟩]).processors
      ((ebda [⟨0, 0x14, 3⟩, ⟨2, 0x14, 1⟩]).mpconf 0x1010).entry.toNat (0x1010 + 44) =
        [⟨0, 0x14, 3⟩, ⟨2, 0x14, 1⟩] := by
    decide +kernel
  obtain ⟨s, done, loaded⟩ := mpInit_loaded (ebda [⟨0, 0x14, 3⟩, ⟨2, 0x14, 1⟩]) 0 accepted
  rw [done] at kept
  rw [table] at loaded
  have ismp : s.ismp = true := Option.some.inj kept
  refine ⟨accepted, table, s, done, ismp, fun describes => ?_⟩
  have numbered := ((loaded ismp).describes_iff.mp describes).1
  exact absurd (numbered 1 ⟨2, 0x14, 1⟩ rfl) (by decide)

end Mps

end Jos.Smp
