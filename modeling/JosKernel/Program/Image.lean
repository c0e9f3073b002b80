import JosKernel.Env.Boot
import JosKernel.Program.Elf
import JosKernel.Program.Room

namespace Jos

variable {headers front behind : List Proghdr} {ph : Proghdr} {va : Word} {before : CellView}

-- One address of the image

def Uses (headers : List Proghdr) (va : Word) : Prop := SamePage va stackPage ∨ ∃ ph ∈ headers, ph.Occupies va

structure Correct (headers : List Proghdr) (va : Word) (cell : CellView) : Prop where
  segment : ∀ ph ∈ headers, ph.Covers va → cell = some (ph.byteAt va, true, true)
  padding : Uses headers va → (∀ ph ∈ headers, ¬ ph.Covers va) → cell = some (0, true, true)
  other : ¬ Uses headers va → cell = none

/-- Nothing is mapped where no page is put, and an empty segment, for which `region_alloc` takes a page if it
    does not begin with one, takes none with other bytes on it than zeros. -/
structure Clear (headers : List Proghdr) (va : Word) (before : CellView) : Prop where
  vacant : (∀ ph ∈ headers, ¬ ph.Touches va) → before = none
  empty : ∀ front ph behind, headers = front ++ ph :: behind → ph.pMemsz = 0 → ph.Touches va →
    (∃ later ∈ behind, later.Touches va) ∨
      (∃ earlier ∈ front, earlier.Occupies va) ∧ ∀ earlier ∈ front, earlier.byteAt va = 0

def Apart (ph ph' : Proghdr) : Prop := ∀ va, ph.Occupies va → ¬ ph'.Occupies va

theorem Proghdr.Occupies.nonempty (occupies : ph.Occupies va) : ph.pMemsz ≠ 0 := by
  obtain ⟨other, ⟨low, high⟩, -⟩ := occupies
  rintro zero
  rw [zero] at high
  change other.toNat < ph.pVa.toNat + 0 at high
  omega

theorem Proghdr.Occupies.of_page {va' : Word} (occupies : ph.Occupies va) (same : SamePage va va') : ph.Occupies va' := by
  obtain ⟨other, covers, page⟩ := occupies
  exact ⟨other, covers, page.trans same⟩

theorem split_cases {α : Type} {front behind front' behind' : List α} {x x' : α}
    (same : front' ++ x' :: behind' = front ++ x :: behind) :
    x ∈ behind' ∨ (front' = front ∧ x' = x) ∨ x' ∈ behind := by
  rcases List.append_eq_append_iff.mp same with ⟨middle, left, right⟩ | ⟨middle, left, right⟩
  · cases middle with
    | nil =>
      rw [List.nil_append, List.cons.injEq] at right
      exact .inr (.inl ⟨by rw [left, List.append_nil], right.1⟩)
    | cons first middle =>
      rw [List.cons_append, List.cons.injEq] at right
      rw [right.2]
      exact .inl (by simp)
  · cases middle with
    | nil =>
      rw [List.nil_append, List.cons.injEq] at right
      exact .inr (.inl ⟨by rw [left, List.append_nil], right.1.symm⟩)
    | cons first middle =>
      rw [List.cons_append, List.cons.injEq] at right
      rw [right.2]
      exact .inr (.inr (by simp))

section Last

variable (touches : ph.Touches va) (last : ∀ later ∈ behind, ¬ later.Touches va)

include touches last

theorem correct_iff_empty (empty : ph.pMemsz = 0) (elsewhere : ¬ SamePage va stackPage) :
    Correct (front ++ ph :: behind) va (some (ph.byteAt va, true, true)) ↔ Clear (front ++ ph :: behind) va before := by
  have none : ¬ ph.Occupies va := fun occupies => occupies.nonempty empty
  have zero : ph.byteAt va = 0 := Proghdr.byteAt_other fun covers => none covers.occupies
  have covering : ∀ other ∈ front ++ ph :: behind, other.Occupies va → other ∈ front := by
    intro other member occupies
    rcases List.mem_append.mp member with early | late
    · exact early
    · rcases List.mem_cons.mp late with rfl | late
      · exact absurd occupies none
      · exact absurd occupies.touches (last other late)
  constructor
  · intro correct
    have used : Uses (front ++ ph :: behind) va := by
      by_contra unused
      cases correct.other unused
    obtain ⟨earlier, member, occupies⟩ := used.resolve_left elsewhere
    have zeros : ∀ earlier ∈ front, earlier.byteAt va = 0 := by
      intro earlier member
      by_cases covers : earlier.Covers va
      · have shown := correct.segment earlier (List.mem_append_left _ member) covers
        rw [zero] at shown
        exact (congrArg Prod.fst (Option.some.inj shown)).symm
      · exact Proghdr.byteAt_other covers
    refine ⟨fun untouched => absurd touches (untouched ph (by simp)), fun front' ph' behind' same _ touches' => ?_⟩
    rcases split_cases same.symm with later | ⟨rfl, rfl⟩ | later
    · exact .inl ⟨ph, later, touches⟩
    · exact .inr ⟨⟨earlier, covering earlier member occupies, occupies⟩, zeros⟩
    · exact absurd touches' (last ph' later)
  · intro clear
    rcases clear.empty front ph behind rfl empty touches with ⟨later, member, touches'⟩ | ⟨⟨earlier, member, occupies⟩, zeros⟩
    · exact absurd touches' (last later member)
    · refine ⟨fun other member' covers => ?_, fun _ _ => by rw [zero], fun unused => ?_⟩
      · rw [zero, zeros other (covering other member' covers.occupies)]
      · exact absurd (.inr ⟨earlier, List.mem_append_left _ member, occupies⟩) unused

theorem correct_of_nonempty (apart : (front ++ ph :: behind).Pairwise Apart) (nonempty : ph.pMemsz ≠ 0) :
    Correct (front ++ ph :: behind) va (some (ph.byteAt va, true, true)) ∧ Clear (front ++ ph :: behind) va before := by
  have here := touches.occupies nonempty
  have unique : ∀ other ∈ front ++ ph :: behind, other.Covers va → other = ph := by
    intro other member covers
    rcases List.mem_append.mp member with early | late
    · exact absurd here ((List.pairwise_append.mp apart).2.2 other early ph (by simp) va covers.occupies)
    · rcases List.mem_cons.mp late with rfl | late
      · rfl
      · exact absurd covers.touches (last other late)
  constructor
  · refine ⟨fun other member covers => by rw [unique other member covers], fun _ uncovered => ?_, fun unused => ?_⟩
    · rw [Proghdr.byteAt_other (uncovered ph (by simp))]
    · exact absurd (.inr ⟨ph, by simp, here⟩) unused
  · refine ⟨fun untouched => absurd touches (untouched ph (by simp)), fun front' ph' behind' same empty touches' => ?_⟩
    rcases split_cases same.symm with later | ⟨-, rfl⟩ | later
    · exact .inl ⟨ph, later, touches⟩
    · exact absurd empty nonempty
    · exact absurd touches' (last ph' later)

end Last

theorem correct_iff_clear (apart : headers.Pairwise Apart) (elsewhere : ¬ SamePage va stackPage) :
    Correct headers va (imageCell headers va before) ↔ Clear headers va before := by
  rcases last_touching headers va with untouched | ⟨front, ph, behind, rfl, touches, last⟩
  · rw [imageCell_untouched untouched]
    have unused : ¬ Uses headers va := by
      rintro (stack | ⟨ph, member, occupies⟩)
      · exact elsewhere stack
      · exact untouched ph member occupies.touches
    constructor
    · intro correct
      refine ⟨fun _ => correct.other unused, fun front ph behind same _ touches => ?_⟩
      exact absurd touches (untouched ph (by rw [same]; simp))
    · intro clear
      refine ⟨fun ph member covers => absurd covers.touches (untouched ph member), fun used => absurd used unused, ?_⟩
      exact fun _ => clear.vacant untouched
  · rw [imageCell_last touches last]
    by_cases empty : ph.pMemsz = 0
    · exact correct_iff_empty touches last empty elsewhere
    · have both : _ ∧ Clear (front ++ ph :: behind) va before := correct_of_nonempty touches last apart empty
      exact iff_of_true both.1 both.2

theorem correct_stack (free : ∀ ph ∈ headers, ¬ ph.Occupies stackPage) (stack : SamePage va stackPage) :
    Correct headers va (some (0, true, true)) := by
  refine ⟨fun ph member covers => ?_, fun _ _ => rfl, fun unused => absurd (.inl stack) unused⟩
  exact absurd (covers.occupies.of_page stack) (free ph member)

-- The image

/-- What the program headers promise: the parts lie below UTOP, and share no page with each other or the stack. -/
structure Binary.Legal (binary : Binary) : Prop where
  magic : binary.eMagic = elfMagic
  filled : ∀ ph ∈ binary.loadable, ph.pFilesz.toNat ≤ ph.pMemsz.toNat
  below : ∀ ph ∈ binary.loadable, ph.pVa.toNat + ph.pMemsz.toNat ≤ utop.toNat
  apart : binary.program.headers.Pairwise Apart
  stack : ∀ ph ∈ binary.program.headers, ¬ ph.Occupies stackPage

/-- The program image in the environment `e`, which has the PML4 `root`. -/
structure Kernel.Image (k : Kernel) (e root : Nat) (binary : Binary) : Prop where
  segments : ∀ ph ∈ binary.loadable, ∀ i < ph.pMemsz.toNat,
    k.mem.loadByte root (ph.pVa + BitVec.ofNat 64 i) =
      some (if i < ph.pFilesz.toNat then binary (ph.pOffset + BitVec.ofNat 64 i) else 0)
  padding : ∀ va, Uses binary.program.headers va → (∀ ph ∈ binary.program.headers, ¬ ph.Covers va) →
    k.mem.loadByte root va = some 0
  writable : ∀ va, Uses binary.program.headers va → k.mem.UserWritable root va
  nothingElse : ∀ va < utop, ¬ Uses binary.program.headers va → k.mem.mmuWalk root va = none
  entry : (k.envs e).envTf.rip = binary.eEntry

/-- Each page below UTOP other than that of the stack is `Clear`. -/
def Memory.Loadable (m : Memory) (root : Nat) (headers : List Proghdr) : Prop :=
  ∀ va < utop, ¬ SamePage va stackPage → Clear headers va (m.cell root va)

section Reading

variable {binary : Binary} {k k' : Kernel} {m : Memory} {e root : Nat}

theorem Binary.segment_byteAt (binary : Binary) (raw : ElfProghdr) (covers : (binary.segment raw).Covers va) :
    (binary.segment raw).byteAt va = if va.toNat - raw.pVa.toNat < raw.pFilesz.toNat
      then binary (raw.pOffset + BitVec.ofNat 64 (va.toNat - raw.pVa.toNat)) else 0 := by
  rw [Proghdr.byteAt, if_pos covers]
  change ((List.range raw.pFilesz.toNat).map _).getD (va.toNat - raw.pVa.toNat) 0 = _
  rw [List.getD_eq_getElem?_getD, List.getElem?_map]
  split
  · rename_i inside
    rw [List.getElem?_range inside]
    rfl
  · rename_i outside
    rw [List.getElem?_eq_none (by simpa using outside)]
    rfl

theorem Binary.mem_headers {ph : Proghdr} : ph ∈ binary.program.headers ↔ ∃ raw ∈ binary.loadable, binary.segment raw = ph :=
  List.mem_map

theorem Binary.Legal.inUserPart (legal : binary.Legal) : ∀ ph ∈ binary.program.headers, ph.InUserPart := by
  intro ph member
  obtain ⟨raw, rawMember, rfl⟩ := Binary.mem_headers.mp member
  refine ⟨?_, legal.below raw rawMember⟩
  change ((List.range raw.pFilesz.toNat).map _).length ≤ _
  rw [List.length_map, List.length_range]
  exact legal.filled raw rawMember

theorem Uses.below (inside : ∀ ph ∈ headers, ph.InUserPart) (uses : Uses headers va) : va < utop := by
  have limit := utop_toNat
  rw [BitVec.lt_def]
  rcases uses with stack | ⟨ph, member, other, ⟨-, high⟩, same⟩
  · have page : va.toNat / 4096 = stackPage.toNat / 4096 := stack
    have inUserPart : stackPage.toNat / 4096 < utop.toNat / 4096 := by decide
    omega
  · have room := (inside ph member).2
    have page : other.toNat / 4096 = va.toNat / 4096 := same
    omega

theorem Memory.cell_of_writable {byte : BitVec 8} (writable : m.UserWritable root va)
    (loaded : m.loadByte root va = some byte) : m.cell root va = some (byte, true, true) := by
  obtain ⟨translation, found, w, u⟩ := writable
  rw [Memory.loadByte_cell, Memory.cell, found, Option.map_some, Option.map_some] at loaded
  have first : m.byteAt translation.page va = byte := Option.some.inj loaded
  rw [Memory.cell, found, Option.map_some, w, u, first]

theorem Kernel.image_iff (legal : binary.Legal) (entry : (k.envs e).envTf.rip = binary.eEntry) :
    k.Image e root binary ↔ ∀ va < utop, Correct binary.program.headers va (k.mem.cell root va) := by
  have inside := legal.inUserPart
  constructor
  · intro image va below
    refine ⟨fun ph member covers => ?_, fun uses uncovered => ?_, fun unused => ?_⟩
    · obtain ⟨raw, rawMember, rfl⟩ := Binary.mem_headers.mp member
      have low := covers.1
      have high := covers.2
      have loaded := image.segments raw rawMember (va.toNat - raw.pVa.toNat) (by
        change raw.pVa.toNat ≤ va.toNat at low
        change va.toNat < raw.pVa.toNat + raw.pMemsz.toNat at high
        omega)
      have here : raw.pVa + BitVec.ofNat 64 (va.toNat - raw.pVa.toNat) = va := by
        change raw.pVa.toNat ≤ va.toNat at low
        have small := va.isLt
        apply BitVec.eq_of_toNat_eq
        rw [BitVec.toNat_add, BitVec.toNat_ofNat]
        omega
      rw [here, ← binary.segment_byteAt raw covers] at loaded
      exact Memory.cell_of_writable (image.writable va (.inr ⟨_, member, covers.occupies⟩)) loaded
    · exact Memory.cell_of_writable (image.writable va uses) (image.padding va uses uncovered)
    · exact Memory.cell_none.mpr (image.nothingElse va below unused)
  · intro correct
    refine ⟨fun raw member i bound => ?_, fun va uses uncovered => ?_, fun va uses => ?_, fun va below unused => ?_, entry⟩
    · have room := legal.below raw member
      have limit := utop_toNat
      have value : (raw.pVa + BitVec.ofNat 64 i).toNat = raw.pVa.toNat + i := by
        rw [BitVec.toNat_add, BitVec.toNat_ofNat]
        omega
      have below : raw.pVa + BitVec.ofNat 64 i < utop := by
        rw [BitVec.lt_def]
        omega
      have covers : (binary.segment raw).Covers (raw.pVa + BitVec.ofNat 64 i) := by
        change raw.pVa.toNat ≤ _ ∧ _ < raw.pVa.toNat + raw.pMemsz.toNat
        omega
      have cell := (correct _ below).segment _ (Binary.mem_headers.mpr ⟨raw, member, rfl⟩) covers
      rw [Memory.loadByte_cell, cell, Option.map_some, binary.segment_byteAt raw covers, value, Nat.add_sub_cancel_left]
    · rw [Memory.loadByte_cell, (correct va (uses.below inside)).padding uses uncovered]
      rfl
    · have here := correct va (uses.below inside)
      by_cases covered : ∃ ph ∈ binary.program.headers, ph.Covers va
      · obtain ⟨ph, member, covers⟩ := covered
        exact Memory.userWritable_of_cell (here.segment ph member covers)
      · exact Memory.userWritable_of_cell (here.padding uses fun ph member covers => covered ⟨ph, member, covers⟩)
    · exact Memory.cell_none.mp ((correct va below).other unused)

theorem Kernel.loadIcode_ok (pml4e : (k.envs e).envPml4e = some root) (magic : binary.eMagic = elfMagic) :
    k.loadIcode e binary = .ok k' ↔ ∃ mem, k.mem.loadIcode root binary.program = .ok mem ∧
      k' = (k.setMem mem).setEnv e { k.envs e with envTf := { (k.envs e).envTf with rip := binary.eEntry } } := by
  rw [Kernel.loadIcode, if_neg (by simp [magic]), Fallible.bind_of_ok (Kernel.pml4eOf_ok.mpr pml4e), Fallible.bind_ok]
  refine exists_congr fun mem => and_congr_right fun _ => ?_
  rw [Except.ok.injEq]
  exact eq_comm

/-- `load_icode` builds the image of each program that finds nothing mapped and has no empty segment in the way,
    and of no other. Where four pages are free for each page that it maps, it does not panic. -/
theorem Kernel.loadIcode_image_iff {g : Layout} (valid : Consistent k.mem g) (role : g.role root = .table root [])
    (pml4e : (k.envs e).envPml4e = some root) (legal : binary.Legal) :
    (∀ k', k.loadIcode e binary = .ok k' →
      (k'.Image e root binary ↔ k.mem.Loadable root binary.program.headers)) ∧
    (k.mem.Spare (4 * ((binary.program.headers.map Proghdr.pages).sum + 1)) → ∃ k', k.loadIcode e binary = .ok k') := by
  have inside := legal.inUserPart
  constructor
  · intro k' done
    obtain ⟨mem, loaded, rfl⟩ := (Kernel.loadIcode_ok pml4e legal.magic).mp done
    rw [Kernel.image_iff legal (by simp)]
    refine forall_congr' fun va => forall_congr' fun below => ?_
    change Correct _ va (mem.cell root va) ↔ _
    rw [valid.loadIcode_cell role inside loaded below]
    by_cases stack : SamePage va stackPage
    · rw [if_pos stack]
      exact iff_of_true (correct_stack legal.stack stack) fun elsewhere => absurd stack elsewhere
    · rw [if_neg stack, correct_iff_clear legal.apart stack]
      exact ⟨fun clear _ => clear, fun clear => clear stack⟩
  · intro spare
    obtain ⟨mem, loaded⟩ := valid.loadIcode_done role inside spare
    exact ⟨_, (Kernel.loadIcode_ok pml4e legal.magic).mpr ⟨mem, loaded, rfl⟩⟩

end Reading

-- Programs that are not built

def overlaid : Binary := fun offset =>
  match offset.toNat with
  | 0 => 0x7F
  | 1 => 0x45
  | 2 => 0x4C
  | 3 => 0x46
  | 32 => 64
  | 56 => 2
  | 64 => 1
  | 82 => 0x80
  | 96 => 1
  | 104 => 1
  | 120 => 1
  | 136 => 1
  | 138 => 0x80
  | _ => 0

def distant : Binary := fun offset =>
  match offset.toNat with
  | 0 => 0x7F
  | 1 => 0x45
  | 2 => 0x4C
  | 3 => 0x46
  | 32 => 64
  | 56 => 1
  | 64 => 1
  | 82 => 0x60
  | 84 => 0x80
  | 96 => 1
  | 104 => 1
  | _ => 0

def blank : Binary := fun offset => if offset = 0 then 0x7F else if offset = 1 then 0x45 else if offset = 2 then 0x4C else
  if offset = 3 then 0x46 else 0

theorem overlaid_loadable : overlaid.loadable = [⟨1, 0, 0x800000, 1, 1⟩, ⟨1, 0, 0x800001, 0, 0⟩] := by decide +kernel

theorem blank_loadable : blank.loadable = [] := by decide +kernel

theorem overlaid_headers :
    overlaid.program.headers = [⟨0x800000, 1, [0x7F]⟩, ⟨0x800001, 0, []⟩] := by
  change overlaid.loadable.map overlaid.segment = _
  rw [overlaid_loadable]
  rfl

theorem overlaid_legal : overlaid.Legal where
  magic := by decide +kernel
  filled := by
    rw [overlaid_loadable]
    decide
  below := by
    rw [overlaid_loadable]
    decide
  apart := by
    rw [overlaid_headers, List.pairwise_pair]
    exact fun va _ occupies => absurd rfl occupies.nonempty
  stack := by
    rw [overlaid_headers]
    intro ph member occupies
    have none : ∀ ph ∈ ([⟨0x800000, 1, [0x7F]⟩, ⟨0x800001, 0, []⟩] : List Proghdr), ¬ ph.Touches stackPage := by decide
    exact none ph member occupies.touches

theorem blank_legal : blank.Legal where
  magic := by decide +kernel
  filled := by simp [blank_loadable]
  below := by simp [blank_loadable]
  apart := by simp [Binary.program, blank_loadable]
  stack := by simp [Binary.program, blank_loadable]

/-- The small machine with one environment, which has nothing mapped. -/
def idleMachine : Kernel where
  mem := smallMachine.pageInit
  envs := fun _ => { (default : Env) with envPml4e := some 9 }
  envFreeList := none
  console := []

theorem Kernel.loadIcode_image_iff_overlaid :
    (∀ k', idleMachine.loadIcode 0 overlaid = .ok k' →
      (k'.Image 0 9 overlaid ↔ idleMachine.mem.Loadable 9 overlaid.program.headers)) ∧
    (idleMachine.mem.Spare (4 * ((overlaid.program.headers.map Proghdr.pages).sum + 1)) →
      ∃ k', idleMachine.loadIcode 0 overlaid = .ok k') :=
  Kernel.loadIcode_image_iff smallMachine.pageInit_consistent (smallMachine.layout_table.mpr ⟨rfl, rfl, rfl⟩) rfl
    overlaid_legal

def mediumMachine : BootConfig := { smallMachine with npages := 24, small := by decide, pml4Inside := by decide }

theorem mediumMachine_kernel : (mediumMachine.kernel fun _ => default) =
    { mem := mediumMachine.pageInit
      envs := fun e => if e < nenv then (default : Env).unused (if e + 1 = nenv then none else some (e + 1))
        else default
      envFreeList := some 0
      console := [] } := by
  rw [BootConfig.kernel, Kernel.envInit_eq]

/-- The empty segment replaces the page of the segment before it. A program finds the page of another one mapped,
    where the address spaces share their tables. -/
theorem Kernel.loadIcode_differs :
    (∃ k k' : Kernel, ∃ root, (mediumMachine.kernel fun _ => default).envAlloc none 0 = .ok (.ok 0, k) ∧
      (k.envs 0).envPml4e = some root ∧ k.loadIcode 0 overlaid = .ok k' ∧ overlaid.Legal ∧
      k'.mem.loadByte root 0x800000 = some 0 ∧ ¬ k'.Image 0 root overlaid) ∧
    ∃ k₁ k₂ k₃ k' : Kernel, ∃ root, (BootOp.map utop 0 4).run (mediumMachine.kernel fun _ => default) = .ok k₁ ∧
      k₁.envCreate distant.program = .ok k₂ ∧ k₂.envAlloc none 0 = .ok (.ok 1, k₃) ∧
      (k₃.envs 1).envPml4e = some root ∧ k₃.loadIcode 1 blank = .ok k' ∧ blank.Legal ∧ ¬ k'.Image 1 root blank := by
  constructor
  · have result : ((mediumMachine.kernel fun _ => default).envAlloc none 0).toOption.bind (fun made =>
        (made.2.envs 0).envPml4e.bind fun root => (made.2.loadIcode 0 overlaid).toOption.map fun loaded =>
          (made.1.toOption, loaded.mem.loadByte root 0x800000)) = some (some 0, some 0) := by
      rw [mediumMachine_kernel]
      decide +kernel
    obtain ⟨⟨made, k⟩, allocated, rest⟩ := Option.bind_eq_some_iff.mp result
    obtain ⟨root, pml4e, rest⟩ := Option.bind_eq_some_iff.mp rest
    obtain ⟨k', loaded, shown⟩ := Option.map_eq_some_iff.mp rest
    have first : made.toOption = some 0 := congrArg Prod.fst shown
    have zero : k'.mem.loadByte root 0x800000 = some 0 := congrArg Prod.snd shown
    obtain rfl := Fallible.toOption_eq_some.mp first
    refine ⟨k, k', root, Fallible.toOption_eq_some.mp allocated, pml4e, Fallible.toOption_eq_some.mp loaded,
      overlaid_legal, zero, ?_⟩
    intro image
    have byte := image.segments ⟨1, 0, 0x800000, 1, 1⟩ (by rw [overlaid_loadable]; simp) 0 (by decide)
    rw [show (0x800000 : Word) + BitVec.ofNat 64 0 = 0x800000 from rfl, zero] at byte
    exact absurd byte (by decide)
  · have result : ((BootOp.map utop 0 4).run (mediumMachine.kernel fun _ => default)).toOption.bind (fun mapped =>
        (mapped.envCreate distant.program).toOption.bind fun created => (created.envAlloc none 0).toOption.bind fun made =>
          (made.2.envs 1).envPml4e.bind fun root => (made.2.loadIcode 1 blank).toOption.map fun loaded =>
            (made.1.toOption, (loaded.mem.mmuWalk root 0x8000600000).isSome)) = some (some 1, true) := by
      rw [mediumMachine_kernel]
      decide +kernel
    obtain ⟨k₁, mapped, rest⟩ := Option.bind_eq_some_iff.mp result
    obtain ⟨k₂, created, rest⟩ := Option.bind_eq_some_iff.mp rest
    obtain ⟨⟨made, k₃⟩, allocated, rest⟩ := Option.bind_eq_some_iff.mp rest
    obtain ⟨root, pml4e, rest⟩ := Option.bind_eq_some_iff.mp rest
    obtain ⟨k', loaded, shown⟩ := Option.map_eq_some_iff.mp rest
    have second : made.toOption = some 1 := congrArg Prod.fst shown
    have there : (k'.mem.mmuWalk root 0x8000600000).isSome = true := congrArg Prod.snd shown
    obtain rfl := Fallible.toOption_eq_some.mp second
    refine ⟨k₁, k₂, k₃, k', root, Fallible.toOption_eq_some.mp mapped, Fallible.toOption_eq_some.mp created,
      Fallible.toOption_eq_some.mp allocated, pml4e, Fallible.toOption_eq_some.mp loaded, blank_legal, ?_⟩
    intro image
    have unused : ¬ Uses blank.program.headers 0x8000600000 := by
      rintro (stack | ⟨ph, member, -⟩)
      · exact absurd stack (by decide)
      · simp [Binary.program, blank_loadable] at member
    rw [image.nothingElse 0x8000600000 (by decide) unused] at there
    cases there

end Jos
