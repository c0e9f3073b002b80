import JosKernel.Lib.Transition
import JosKernel.Pmap.KernelWindows

namespace Jos

-- inc/mmu.h

def ptePwt : Word := 0x008
def ptePcd : Word := 0x010

-- kern/pmap.c: mmio_map_region

structure MmioState where
  memory : Memory
  base : Word

/-- How a call of `mmio_map_region` ends. A page table that cannot be allocated stops the kernel in the middle
    of it. -/
inductive MmioResult
  | returned (address : Word) (s : MmioState)
  | panicked (s : MmioState)
  | stopped (reason : Stop)

def mmioPerm : BitVec 32 := (ptePcd ||| ptePwt ||| pteW).setWidth 32

def mmioMapRegion (s : MmioState) (pa size : Word) : MmioResult :=
  let paRounded := roundDown pa pgSize
  let sizeRounded := roundUp size pgSize
  if mmioLim < s.base + sizeRounded then .panicked s
  else
    match s.memory.bootMapRegion s.base (sizeRounded.toNat / pgSize) paRounded mmioPerm with
    | .error reason => .stopped reason
    | .ok m =>
      let base := s.base + sizeRounded
      .returned (base - sizeRounded) ⟨m, base⟩

-- What the callers rely on

structure MmioRequest where
  pa : Word
  size : Word
  deriving DecidableEq, Repr

structure Reservation where
  request : MmioRequest
  address : Word
  deriving DecidableEq, Repr

def physicalBytes : Nat := 2^52

namespace MmioRequest

def Asks (request : MmioRequest) (byte : Nat) : Prop :=
  request.pa.toNat ≤ byte ∧ byte < request.pa.toNat + request.size.toNat ∧ byte < physicalBytes

def Fits (request : MmioRequest) (base : Word) : Prop := base.toNat + request.size.toNat ≤ mmioLim.toNat

def Sums (request : MmioRequest) (base : Word) : Prop :=
  base.toNat + (roundUp request.size pgSize).toNat < 2^64

def Covered (request : MmioRequest) : Prop :=
  request.size = 0 ∨ min (request.pa.toNat + request.size.toNat) physicalBytes ≤
    (roundDown request.pa pgSize).toNat + (roundUp request.size pgSize).toNat

instance (request : MmioRequest) (base : Word) : Decidable (request.Sums base) := inferInstanceAs (Decidable (_ < _))

instance (request : MmioRequest) : Decidable request.Covered := inferInstanceAs (Decidable (_ ∨ _))

end MmioRequest

namespace Reservation

def pages (r : Reservation) : Nat := (roundUp r.request.size pgSize).toNat / pgSize

def Contains (r : Reservation) (va : Word) : Prop :=
  r.address.toNat ≤ va.toNat ∧ va.toNat < r.address.toNat + r.pages * pgSize

def Apart (left right : Reservation) : Prop := ∀ va, ¬ (left.Contains va ∧ right.Contains va)

def Reaches (r : Reservation) (m : Memory) (byte : Nat) : Prop :=
  ∃ va translation, r.Contains va ∧ m.mmuWalk m.bootPml4e va = some translation ∧
    translation.page * pgSize + pgOff va = byte ∧ translation.writable = true ∧
    translation.leaf &&& ptePcd ≠ 0 ∧ translation.leaf &&& ptePwt ≠ 0

end Reservation

structure MmioRun where
  state : MmioState
  reservations : List Reservation

namespace MmioRun

def Step (before : MmioRun) (request : MmioRequest) (after : MmioRun) : Prop :=
  ∃ address, mmioMapRegion before.state request.pa request.size = .returned address after.state ∧
    after.reservations = before.reservations ++ [⟨request, address⟩]

structure Sound (run : MmioRun) : Prop where
  inside : ∀ r ∈ run.reservations, mmioBase ≤ r.address ∧ r.address.toNat + r.pages * pgSize ≤ mmioLim.toNat
  apart : run.reservations.Pairwise Reservation.Apart
  mapped : ∀ r ∈ run.reservations, ∀ byte, r.request.Asks byte → r.Reaches run.state.memory byte

end MmioRun

-- The entries

theorem mmio_flags : mmioPerm.signExtend 64 ||| pteP = 0x1b := by decide

theorem mmio_bounds : mmioBase.toNat = 0x8003c00000 ∧ mmioLim.toNat = 0x8003e00000 := by decide

theorem Reservation.pages_mul (r : Reservation) : r.pages * pgSize = (roundUp r.request.size pgSize).toNat := by
  rw [pages, roundUp_toNat, pgSize]
  omega

theorem mmioMapRegion_returned {s s' : MmioState} {request : MmioRequest} {address : Word}
    (sums : request.Sums s.base)
    (returned : mmioMapRegion s request.pa request.size = .returned address s') :
    address = s.base ∧ s'.base.toNat = s.base.toNat + (Reservation.mk request address).pages * pgSize ∧
      s'.base.toNat ≤ mmioLim.toNat ∧
      s.memory.bootMapRegion s.base (Reservation.mk request address).pages (roundDown request.pa pgSize) mmioPerm =
        .ok s'.memory := by
  rw [mmioMapRegion] at returned
  simp only at returned
  have sum : (s.base + roundUp request.size pgSize).toNat = s.base.toNat + (roundUp request.size pgSize).toNat := by
    rw [BitVec.toNat_add, Nat.mod_eq_of_lt sums]
  split at returned
  · cases returned
  · rename_i within
    rw [BitVec.lt_def] at within
    split at returned
    · cases returned
    · rename_i m mapped
      injection returned with place state
      rw [BitVec.add_sub_cancel] at place
      subst state place
      rw [Reservation.pages_mul]
      exact ⟨rfl, sum, Nat.le_of_not_lt within, mapped⟩

theorem mmioMapRegion_panicked {s : MmioState} {request : MmioRequest} (sums : request.Sums s.base)
    (rounded : request.size.toNat + (pgSize - 1) < 2^64) (excess : ¬ request.Fits s.base) :
    mmioMapRegion s request.pa request.size = .panicked s := by
  rw [mmioMapRegion]
  refine if_pos ?_
  rw [BitVec.lt_def, BitVec.toNat_add, Nat.mod_eq_of_lt sums, roundUp_toNat]
  rw [MmioRequest.Fits] at excess
  rw [pgSize] at rounded
  omega

namespace MmioRun

structure Tracked (run : MmioRun) : Prop where
  valid : ∃ g, Consistent run.state.memory g
  aligned : run.state.base.toNat % pgSize = 0
  lower : mmioBase.toNat ≤ run.state.base.toNat
  upper : run.state.base.toNat ≤ mmioLim.toNat
  addresses : ∀ r ∈ run.reservations, mmioBase.toNat ≤ r.address.toNat ∧ r.address.toNat % pgSize = 0 ∧
    r.address.toNat + r.pages * pgSize ≤ run.state.base.toNat
  apart : run.reservations.Pairwise Reservation.Apart
  entry : ∀ r ∈ run.reservations, ∀ va, r.Contains va →
    run.state.memory.entry run.state.memory.bootPml4e va =
      regionEntry (roundDown r.request.pa pgSize) mmioPerm (pageNumber va - pageNumber r.address)

theorem Tracked.contains_below {run : MmioRun} (tracked : Tracked run) {r : Reservation} (member : r ∈ run.reservations)
    {va : Word} (contains : r.Contains va) : va.toNat < run.state.base.toNat :=
  Nat.lt_of_lt_of_le contains.2 (tracked.addresses r member).2.2

theorem Tracked.reserve {run : MmioRun} {request : MmioRequest} {m : Memory} (tracked : Tracked run)
    (fits : run.state.base.toNat + (Reservation.mk request run.state.base).pages * pgSize ≤ mmioLim.toNat)
    (mapped : run.state.memory.bootMapRegion run.state.base (Reservation.mk request run.state.base).pages
      (roundDown request.pa pgSize) mmioPerm = .ok m) :
    (∃ g, Consistent m g) ∧ m.bootPml4e = run.state.memory.bootPml4e ∧
      (∀ va, (Reservation.mk request run.state.base).Contains va → m.entry m.bootPml4e va =
        regionEntry (roundDown request.pa pgSize) mmioPerm (pageNumber va - pageNumber run.state.base)) ∧
      ∀ va, va.toNat < run.state.base.toNat → m.entry m.bootPml4e va =
        run.state.memory.entry run.state.memory.bootPml4e va := by
  obtain ⟨-, limit⟩ := mmio_bounds
  obtain ⟨g, valid⟩ := tracked.valid
  have above : utop ≤ run.state.base := by
    rw [BitVec.le_def]
    exact Nat.le_trans (by decide) tracked.lower
  obtain ⟨g', valid', boot, entry⟩ := valid.bootMapRegion above (by omega) mapped
  have aligned := tracked.aligned
  have within : ∀ va : Word, va.toNat < mmioLim.toNat → va < uvpt := by
    intro va small
    rw [BitVec.lt_def]
    exact Nat.lt_trans small (by decide)
  refine ⟨⟨g', valid'⟩, boot, ?_, ?_⟩
  · rintro va ⟨first, last⟩
    rw [boot, entry va (within va (Nat.lt_of_lt_of_le last fits)), if_pos]
    simp only at first last
    rw [pgSize] at last aligned
    rw [pageNumber, pageNumber]
    omega
  · intro va below
    rw [boot, entry va (within va (Nat.lt_of_lt_of_le below tracked.upper)), if_neg]
    rw [pgSize] at aligned
    rw [pageNumber, pageNumber]
    omega

theorem Tracked.step {before after : MmioRun} {request : MmioRequest} (tracked : Tracked before)
    (sums : request.Sums before.state.base) (step : before.Step request after) : Tracked after := by
  obtain ⟨address, returned, reserved⟩ := step
  obtain ⟨rfl, next, within, mapped⟩ := mmioMapRegion_returned sums returned
  obtain ⟨valid, -, new, old⟩ := tracked.reserve (by rw [← next]; exact within) mapped
  have lower := tracked.lower
  have aligned := tracked.aligned
  have members : ∀ r ∈ after.reservations, r ∈ before.reservations ∨ r = ⟨request, before.state.base⟩ := by
    intro r member
    rw [reserved] at member
    exact (List.mem_append.mp member).imp_right List.mem_singleton.mp
  constructor
  · exact valid
  · rw [next, Nat.add_mul_mod_self_right, aligned]
  · omega
  · exact within
  · intro r member
    rcases members r member with early | rfl
    · obtain ⟨first, page, behind⟩ := tracked.addresses r early
      exact ⟨first, page, by omega⟩
    · exact ⟨lower, aligned, Nat.le_of_eq next.symm⟩
  · rw [reserved, List.pairwise_append]
    refine ⟨tracked.apart, List.pairwise_singleton _ _, ?_⟩
    intro r early r' last va both
    obtain rfl := List.mem_singleton.mp last
    exact absurd both.2.1 (Nat.not_le_of_lt (tracked.contains_below early both.1))
  · intro r member va contains
    rcases members r member with early | rfl
    · rw [old va (tracked.contains_below early contains)]
      exact tracked.entry r early va contains
    · exact new va contains

theorem Tracked.run {m : Memory} {g : Layout} {requests : List MmioRequest} {last : MmioRun} (valid : Consistent m g)
    (run : Transition.Run (Transition.Guarded (fun run request => request.Sums run.state.base) Step)
      ⟨⟨m, mmioBase⟩, []⟩ requests last) : Tracked last := by
  have aligned : mmioBase.toNat % pgSize = 0 := by decide
  have below : mmioBase.toNat ≤ mmioLim.toNat := by decide
  refine run.invariant ?_ ?_
  · rintro before request after tracked ⟨sums, step⟩
    exact tracked.step sums step
  · exact ⟨⟨g, valid⟩, aligned, Nat.le_refl _, below, by simp, .nil, by simp⟩

theorem Step.requests {before after : MmioRun} {request : MmioRequest} (step : before.Step request after) :
    after.reservations.map Reservation.request = before.reservations.map Reservation.request ++ [request] := by
  obtain ⟨address, -, reserved⟩ := step
  rw [reserved, List.map_append, List.map_singleton]

theorem run_requests {condition : MmioRun → MmioRequest → Prop} {first last : MmioRun} {requests : List MmioRequest}
    (run : Transition.Run (Transition.Guarded condition Step) first requests last) :
    last.reservations.map Reservation.request = first.reservations.map Reservation.request ++ requests := by
  induction run with
  | nil => rw [List.append_nil]
  | cons head _ ih => rw [ih, head.2.requests, List.append_assoc, List.singleton_append]

-- What is reached through a reservation

section Reach

variable {run : MmioRun} {r : Reservation}

/-- An address of a reservation is mapped to the byte that lies as far behind the first page. -/
theorem Tracked.walk (tracked : Tracked run) (member : r ∈ run.reservations)
    (small : r.request.pa.toNat < physicalBytes) {va : Word} (contains : r.Contains va) :
    ∃ translation, run.state.memory.mmuWalk run.state.memory.bootPml4e va = some translation ∧
      translation.page * pgSize + pgOff va =
        (roundDown r.request.pa pgSize).toNat + (va.toNat - r.address.toNat) ∧
      translation.writable = true ∧ translation.leaf &&& ptePcd ≠ 0 ∧ translation.leaf &&& ptePwt ≠ 0 := by
  obtain ⟨g, valid⟩ := tracked.valid
  obtain ⟨lower, upper⟩ := mmio_bounds
  obtain ⟨first, aligned, last⟩ := tracked.addresses r member
  have limit := tracked.upper
  have high := tracked.contains_below member contains
  have start := contains.1
  have low : pml4 va < 2 := by
    rw [pml4_eq]
    omega
  have rounded := roundDown_toNat r.request.pa
  rw [physicalBytes] at small
  rw [pgSize] at aligned last
  have entry : (regionEntry (roundDown r.request.pa pgSize) mmioPerm (pageNumber va - pageNumber r.address)).toNat =
      (roundDown r.request.pa pgSize).toNat + (pageNumber va - pageNumber r.address) * 4096 + 27 := by
    refine regionEntry_toNat ?_ (by decide) ?_
    · rw [rounded]
      omega
    · rw [rounded, pageNumber, pageNumber]
      omega
  have present : Present (regionEntry (roundDown r.request.pa pgSize) mmioPerm (pageNumber va - pageNumber r.address)) := by
    rw [present_iff, entry, rounded]
    omega
  have granted : ∀ bit : Word, 27 &&& bit = bit → bit ≠ 0 →
      regionEntry (roundDown r.request.pa pgSize) mmioPerm (pageNumber va - pageNumber r.address) &&& bit ≠ 0 :=
    fun bit inFlags set => regionEntry_bit _ (by rw [mmio_flags]; exact inFlags) set
  have walk := valid.mmuWalk valid.tables.boot low
  rw [tracked.entry r member va contains, translate, if_pos present] at walk
  refine ⟨_, walk, ?_, decide_eq_true (granted pteW (by decide) (by decide)), granted ptePcd (by decide) (by decide),
    granted ptePwt (by decide) (by decide)⟩
  simp only
  rw [entryPage_eq, entry, pgOff_eq, rounded, pageNumber, pageNumber, pgSize]
  omega

/-- The bytes that are asked for are reached exactly if the rounded size covers them. -/
theorem Tracked.covered_iff (tracked : Tracked run) (member : r ∈ run.reservations) :
    (∀ byte, r.request.Asks byte → r.Reaches run.state.memory byte) ↔ r.request.Covered := by
  obtain ⟨lower, upper⟩ := mmio_bounds
  obtain ⟨first, aligned, last⟩ := tracked.addresses r member
  have limit := tracked.upper
  have size := r.pages_mul
  have rounded := roundDown_toNat r.request.pa
  constructor
  · intro reached
    by_contra uncovered
    rw [MmioRequest.Covered, not_or, ← size, ← BitVec.toNat_inj] at uncovered
    change ¬ r.request.size.toNat = 0 ∧ _ at uncovered
    have small : r.request.pa.toNat < physicalBytes := by
      rw [physicalBytes] at uncovered ⊢
      omega
    obtain ⟨va, translation, contains, walk, place, -⟩ := reached
      (max r.request.pa.toNat ((roundDown r.request.pa pgSize).toNat + r.pages * pgSize)) ⟨by omega, by omega, by
        omega⟩
    obtain ⟨translation', walk', place', -⟩ := tracked.walk member small contains
    rw [walk] at walk'
    cases walk'
    obtain ⟨start, inside⟩ := contains
    omega
  · rintro covered byte ⟨after, before, nameable⟩
    rw [MmioRequest.Covered, ← size, ← BitVec.toNat_inj] at covered
    change r.request.size.toNat = 0 ∨ _ at covered
    have place : (r.address + BitVec.ofNat 64 (byte - (roundDown r.request.pa pgSize).toNat)).toNat =
        r.address.toNat + (byte - (roundDown r.request.pa pgSize).toNat) := by
      rw [BitVec.toNat_add, BitVec.toNat_ofNat]
      omega
    have contains : r.Contains (r.address + BitVec.ofNat 64 (byte - (roundDown r.request.pa pgSize).toNat)) := by
      rw [Reservation.Contains, place]
      omega
    obtain ⟨translation, walk, physical, rights⟩ := tracked.walk member (by omega) contains
    refine ⟨_, translation, contains, walk, ?_, rights⟩
    rw [physical, place]
    omega

end Reach

theorem Tracked.sound_iff {run : MmioRun} (tracked : Tracked run) :
    run.Sound ↔ ∀ request ∈ run.reservations.map Reservation.request, request.Covered := by
  constructor
  · intro sound request member
    obtain ⟨r, reserved, rfl⟩ := List.mem_map.mp member
    exact (tracked.covered_iff reserved).mp (sound.mapped r reserved)
  · intro covered
    refine ⟨?_, tracked.apart, ?_⟩
    · intro r member
      obtain ⟨first, -, last⟩ := tracked.addresses r member
      exact ⟨BitVec.le_def.mpr first, Nat.le_trans last tracked.upper⟩
    · intro r member
      exact (tracked.covered_iff member).mpr (covered _ (List.mem_map_of_mem member))

/-- A call returns where it fits and the page tables can be allocated. -/
theorem Tracked.returns {run : MmioRun} (tracked : Tracked run) {request : MmioRequest} {count : Nat}
    (fits : run.state.base.toNat + (Reservation.mk request run.state.base).pages * pgSize ≤ mmioLim.toNat)
    (spare : run.state.memory.Spare
      (count + 3 * tablesFor run.state.base (Reservation.mk request run.state.base).pages)) :
    ∃ after, Transition.Guarded (fun run request => request.Sums run.state.base) Step run request after ∧
      after.state.base = run.state.base + roundUp request.size pgSize ∧ after.state.memory.Spare count := by
  obtain ⟨-, limit⟩ := mmio_bounds
  obtain ⟨g, valid⟩ := tracked.valid
  have above : utop ≤ run.state.base := by
    rw [BitVec.le_def]
    exact Nat.le_trans (by decide) tracked.lower
  have size := (Reservation.mk request run.state.base).pages_mul
  have sums : request.Sums run.state.base := by
    rw [MmioRequest.Sums, ← size]
    omega
  obtain ⟨m, mapped, left⟩ := valid.bootMapRegion_done (roundDown request.pa pgSize) mmioPerm above
    (show _ + _ ≤ 0x10000000000 by omega) (.inl spare)
  have within : ¬ mmioLim < run.state.base + roundUp request.size pgSize := by
    rw [BitVec.lt_def, BitVec.toNat_add, Nat.mod_eq_of_lt sums, ← size]
    omega
  refine ⟨⟨⟨m, run.state.base + roundUp request.size pgSize⟩, run.reservations ++ [⟨request, run.state.base⟩]⟩,
    ⟨sums, run.state.base, ?_, rfl⟩, rfl, left⟩
  rw [Reservation.pages] at mapped
  simp only at mapped
  rw [mmioMapRegion]
  simp only [if_neg within, mapped, BitVec.add_sub_cancel]

theorem Tracked.all_return {run : MmioRun} (tracked : Tracked run) {requests : List MmioRequest}
    (single : ∀ request ∈ requests, (roundUp request.size pgSize).toNat = pgSize)
    (fits : run.state.base.toNat + requests.length * pgSize ≤ mmioLim.toNat)
    (spare : run.state.memory.Spare (3 * requests.length)) :
    ∃ last, Transition.Run (Transition.Guarded (fun run request => request.Sums run.state.base) Step) run requests last := by
  induction requests generalizing run with
  | nil => exact ⟨run, .nil run⟩
  | cons request requests ih =>
    have one := single request (List.mem_cons_self ..)
    have pages : (Reservation.mk request run.state.base).pages = 1 := by
      rw [Reservation.pages, one]
      rfl
    have tables : tablesFor run.state.base 1 = 1 := by
      rw [tablesFor]
      omega
    rw [List.length_cons] at fits spare
    have room : (requests.length + 1) * pgSize = pgSize + requests.length * pgSize := by
      rw [Nat.add_mul, Nat.one_mul, Nat.add_comm]
    obtain ⟨-, limit⟩ := mmio_bounds
    have fitting : run.state.base.toNat + (Reservation.mk request run.state.base).pages * pgSize ≤ mmioLim.toNat := by
      rw [pages]
      omega
    have tablesSpare : run.state.memory.Spare
        (3 * requests.length + 3 * tablesFor run.state.base (Reservation.mk request run.state.base).pages) := by
      rw [pages, tables]
      exact spare.weaken (by omega)
    obtain ⟨after, step, base, left⟩ := tracked.returns fitting tablesSpare
    have moved : after.state.base.toNat = run.state.base.toNat + pgSize := by
      rw [base, BitVec.toNat_add, one]
      omega
    obtain ⟨last, run'⟩ := ih (tracked.step step.1 step.2) (fun other member => single other (List.mem_cons_of_mem _ member))
      (by omega) left
    exact ⟨last, .cons step run'⟩

/-- The reservations are what they should be exactly if each rounded size covers its request, and what does not fit
    is refused. No sum in the limit test may wrap. -/
theorem mmio_reservations {m : Memory} {g : Layout} {requests : List MmioRequest} {last : MmioRun}
    (valid : Consistent m g)
    (run : Transition.Run (Transition.Guarded (fun run request => request.Sums run.state.base) Step)
      ⟨⟨m, mmioBase⟩, []⟩ requests last) :
    (last.Sound ↔ ∀ request ∈ requests, request.Covered) ∧
      ∀ request : MmioRequest, request.Sums last.state.base → request.size.toNat + (pgSize - 1) < 2^64 →
        ¬ request.Fits last.state.base → mmioMapRegion last.state request.pa request.size = .panicked last.state := by
  constructor
  · rw [(Tracked.run valid run).sound_iff, run_requests run]
    rfl
  · intro request sums rounded excess
    exact mmioMapRegion_panicked sums rounded excess

/-- The first calls in a machine with 16 MB, each for one page. -/
theorem first_calls (requests : List MmioRequest) (few : requests.length ≤ 2)
    (single : ∀ request ∈ requests, (roundUp request.size pgSize).toNat = pgSize) :
    ∃ m last, VmConfig.sixteenMegabytes.x64VmInit = .ok m ∧ (∃ g, Consistent m g) ∧
      Transition.Run (Transition.Guarded (fun run request => request.Sums run.state.base) Step)
        ⟨⟨m, mmioBase⟩, []⟩ requests last := by
  obtain ⟨m, done, spare⟩ := VmConfig.sixteenMegabytes.x64VmInit_spare (show _ + (6 + _) ≤ _ by decide +kernel)
  obtain ⟨g, valid⟩ := (VmConfig.x64VmInit_windows done).1
  have start : Tracked ⟨⟨m, mmioBase⟩, []⟩ := Tracked.run valid (.nil _)
  have room : mmioBase.toNat + 2 * pgSize ≤ mmioLim.toNat := by decide
  have fits : mmioBase.toNat + requests.length * pgSize ≤ mmioLim.toNat :=
    Nat.le_trans (Nat.add_le_add_left (Nat.mul_le_mul_right pgSize few) _) room
  obtain ⟨last, run⟩ := start.all_return single fits (spare.weaken (by omega))
  exact ⟨m, last, done, ⟨g, valid⟩, run⟩

/-- Of 4096 bytes in the middle of a page and the next one, only the first half is mapped. -/
theorem mmio_uncovered : ∃ m last, VmConfig.sixteenMegabytes.x64VmInit = .ok m ∧
    Transition.Run Step ⟨⟨m, mmioBase⟩, []⟩ [⟨0xfee00800, 4096⟩] last ∧ ¬ last.Sound := by
  obtain ⟨m, last, done, ⟨g, valid⟩, run⟩ := first_calls [⟨0xfee00800, 4096⟩] (by decide) (by decide)
  refine ⟨m, last, done, run.mono (fun _ _ _ guarded => guarded.2), ?_⟩
  rw [(Tracked.run valid run).sound_iff, run_requests run]
  intro covered
  exact absurd (covered ⟨0xfee00800, 4096⟩ (List.mem_singleton_self _)) (by decide)

/-- The local APIC and the I/O APIC of a machine with 16 MB are reserved as they should be. -/
theorem mmio_reservations_apics : ∃ m last, VmConfig.sixteenMegabytes.x64VmInit = .ok m ∧
    Transition.Run Step ⟨⟨m, mmioBase⟩, []⟩ [⟨0xfee00000, 4096⟩, ⟨0xfec00000, 0x20⟩] last ∧ last.Sound := by
  obtain ⟨m, last, done, ⟨g, valid⟩, run⟩ :=
    first_calls [⟨0xfee00000, 4096⟩, ⟨0xfec00000, 0x20⟩] (by decide) (by decide)
  exact ⟨m, last, done, run.mono (fun _ _ _ guarded => guarded.2), (mmio_reservations valid run).1.mpr (by decide)⟩

end MmioRun

end Jos
