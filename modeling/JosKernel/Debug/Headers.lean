import JosKernel.Debug.Copies

namespace Jos

open Bytes (StringAt)
open Format (text)

namespace Disk

variable {disk : Disk} {m : Bytes.Memory 64} {length i : Nat} {toVa : Word}

def bufferAt (toVa : Word) : Word :=
  toVa + (BitVec.ofNat 64 sectSize - 1) - (toVa + (BitVec.ofNat 64 sectSize - 1)) % BitVec.ofNat 64 sectSize

theorem bufferAt_bounds (low : toVa.toNat < 2 ^ 63) : (bufferAt toVa).toNat % sectSize = 0 ∧
    toVa.toNat ≤ (bufferAt toVa).toNat ∧ (bufferAt toVa).toNat < toVa.toNat + sectSize := by
  have up : (toVa + (BitVec.ofNat 64 sectSize - 1)).toNat = toVa.toNat + 511 := by
    rw [show BitVec.ofNat 64 sectSize - 1 = BitVec.ofNat 64 511 by decide]
    exact Bytes.toNat_add_ofNat (by omega)
  have part := toNat_mod_sect (toVa + (BitVec.ofNat 64 sectSize - 1))
  have down : (bufferAt toVa).toNat = toVa.toNat + 511 - (toVa.toNat + 511) % 512 := by
    rw [bufferAt, BitVec.toNat_sub_of_le, part, up]
    · rfl
    · rw [BitVec.le_def, part]
      exact Nat.mod_le ..
  rw [down, sectSize]
  omega

-- The ELF header

theorem field_lt (binary : Binary) (a : Word) {size : Nat} (small : size ≤ 8) :
    (binary.field a size).toNat < 2 ^ (8 * size) := by
  induction size generalizing a with
  | zero => exact Nat.one_pos
  | succ size ih =>
    rw [Binary.field, BitVec.toNat_or]
    apply Nat.or_lt_two_pow
    · rw [BitVec.toNat_setWidth]
      apply (Nat.mod_le ..).trans_lt
      exact (binary a).isLt.trans_le (Nat.pow_le_pow_right (by decide) (by omega))
    · have rest := ih (a + 1) (by omega)
      rw [BitVec.toNat_shiftLeft, Nat.shiftLeft_eq]
      apply (Nat.mod_le ..).trans_lt
      rw [show 2 ^ (8 * (size + 1)) = 2 ^ (8 * size) * 2 ^ 8 by rw [← Nat.pow_add, Nat.mul_succ]]
      exact Nat.mul_lt_mul_of_pos_right rest (by decide)

theorem eShnum_lt (binary : Binary) : binary.eShnum.toNat < 2 ^ 16 := field_lt binary 60 (by decide)

theorem headers_size {num size : Word} (few : num.toNat < 2 ^ 16) (whole : size.toNat = sizeofSecthdr) :
    ((num.setWidth 32 * size.setWidth 32).signExtend 64).toNat = sizeofSecthdr * num.toNat := by
  have product : (num.setWidth 32 * size.setWidth 32).toNat = 64 * num.toNat := by
    rw [BitVec.toNat_mul, BitVec.toNat_setWidth, BitVec.toNat_setWidth, whole, sizeofSecthdr]
    omega
  have positive : (num.setWidth 32 * size.setWidth 32).msb = false := by
    rw [BitVec.msb_eq_decide, product, decide_eq_false_iff_not]
    omega
  rw [BitVec.signExtend_eq_setWidth_of_msb_false positive, BitVec.toNat_setWidth, product, sizeofSecthdr]
  omega

theorem HeaderLoaded.keep {m' : Bytes.Memory 64} (loaded : disk.HeaderLoaded m) (above : kelfhdr.toNat + 64 ≤ toVa.toNat)
    (same : ∀ a : Word, a.toNat < toVa.toNat → m' a = m a) : disk.HeaderLoaded m' := by
  intro k below
  rw [← loaded k below]
  apply same
  rw [Bytes.toNat_add_ofNat]
  · omega
  · have bound := toVa.isLt
    omega

structure HeaderRead (disk : Disk) (ehdr : Binary) : Prop where
  shoff : ehdr.eShoff = disk.image.eShoff
  entsize : ehdr.eShentsize = disk.image.eShentsize
  shnum : ehdr.eShnum = disk.image.eShnum
  shstrndx : ehdr.eShstrndx = disk.image.eShstrndx

theorem HeaderLoaded.read (loaded : disk.HeaderLoaded m) : disk.HeaderRead (Binary.loadedAt m kelfhdr) where
  shoff := loaded.field 40 8 (by decide)
  entsize := loaded.field 58 2 (by decide)
  shnum := loaded.field 60 2 (by decide)
  shstrndx := loaded.field 62 2 (by decide)

-- The tables

/-- The loop begins with the tables read, `start` bytes into the buffer. -/
structure Started (disk : Disk) (m : Bytes.Memory 64) (kvbase : Word) (ptrs : Nat → Word) (start : Nat) (nametab : Word)
    (m' : Bytes.Memory 64) : Prop where
  whole : start % sectSize = 0
  few : start ≤ span * 2
  outside : ∀ a : Word, a.toNat < kvbase.toNat ∨ kvbase.toNat + start ≤ a.toNat → m' a = m a
  tables : disk.Tables m' (kvbase.toNat + start) nametab ptrs

theorem Started.progress {kvbase nametab : Word} {ptrs : Nat → Word} {start : Nat} {m' : Bytes.Memory 64}
    (started : disk.Started m kvbase ptrs start nametab m') (sectionInfo : SectionTable) :
    disk.Progress kvbase start m' 0 ⟨m', BitVec.ofNat 64 start, sectionInfo⟩ := by
  have few := started.few
  rw [span] at few
  have place : (BitVec.ofNat 64 start).toNat = start := by
    rw [BitVec.toNat_ofNat, Nat.mod_eq_of_lt (by omega)]
  have none_ : ∀ d, ¬ disk.Has 0 d := by
    rintro d ⟨-, i, below, -⟩
    exact Nat.not_lt_zero i below
  constructor
  · dsimp only
    rw [place]
    exact started.whole
  · exact place.ge
  · dsimp only
    rw [place, Nat.mul_zero, Nat.add_zero]
  · exact fun _ _ => rfl
  · exact ⟨fun d has => absurd has (none_ d), fun d _ _ has => absurd has (none_ d)⟩

theorem table_read (disk : Disk) (m : Bytes.Memory 64) (pa count offset kvoffset : Word) (aligned : pa.toNat % sectSize = 0)
    (room : pa.toNat + span < 2 ^ 64) (onDisk : offset.toNat + count.toNat ≤ sectSize * (2 ^ 28 - 1))
    (whole : kvoffset.toNat % sectSize = 0) : ∃ size m', size = sectSize * sectors count.toNat offset.toNat ∧ size ≤ span ∧
      (∀ fuel, 2 ^ 29 ≤ fuel → (ExceptT.mk (readseg disk fuel m pa count offset kvoffset) : Attempt _) =
        pure (m', kvoffset + BitVec.ofNat 64 size)) ∧
      (∀ a : Word, a.toNat < pa.toNat ∨ pa.toNat + size ≤ a.toNat → m' a = m a) ∧
      ∀ j < count.toNat, m' (pa + offsetCorrect offset + BitVec.ofNat 64 j) = disk.byte (offset.toNat + j) ∧
        (pa + offsetCorrect offset + BitVec.ofNat 64 j).toNat < pa.toNat + size := by
  have small : count.toNat ≤ 2 ^ 37 := by
    rw [sectSize] at onDisk
    omega
  have room' : pa.toNat + 2 ^ 38 < 2 ^ 64 := room
  have bound := sectors_bound offset.toNat small
  have copies := @sectorsAt_copies disk m pa ⟨0, 0, offset, count⟩ room' onDisk
  refine ⟨_, _, rfl, bound, fun fuel enough => readseg_pure aligned room' small whole enough,
    fun a outside => sectorsAt_outside (by omega) outside, fun j inside => ⟨copies.contents j inside, ?_⟩⟩
  exact (copies.inside _ (copies.within inside)).2

def tableSectors (disk : Disk) : Nat :=
  sectors (sizeofSecthdr * disk.image.eShnum.toNat) disk.image.eShoff.toNat +
    sectors disk.strtab.shSize.toNat disk.strtab.shOffset.toNat

theorem readSectionHeaders_starts (isImage : disk.IsImage length) (some_ : disk.image.eShnum ≠ 0)
    (loaded : disk.HeaderLoaded m) (above : kelfhdr.toNat + 64 ≤ toVa.toNat) (low : toVa.toNat < 2 ^ 63)
    (sectionInfo : SectionTable) (stack : Nat → Word) :
    let ptrs := storePtrs stack (bufferAt toVa + offsetCorrect disk.image.eShoff) disk.image.eShnum.toNat
    let start := sectSize * disk.tableSectors
    ∃ nametab m', disk.Started m (bufferAt toVa) ptrs start nametab m' ∧
      ∀ fuel, 2 ^ 29 ≤ fuel → readSectionHeaders disk fuel m sectionInfo stack kelfhdr toVa = (do
        let s ← (List.range disk.image.eShnum.toNat).foldlM
          (fun s i => Loading.step disk fuel (bufferAt toVa) nametab (ptrs i) s) ⟨m', BitVec.ofNat 64 start, sectionInfo⟩
        pure ⟨bufferAt toVa + s.kvoffset, s.m, s.sectionInfo, ptrs⟩) := by
  intro ptrs start
  obtain ⟨aligned, up, near⟩ := bufferAt_bounds low
  have onDisk := isImage.onDisk
  have headers := isImage.headers
  have names := isImage.names some_
  have size := headers_size (eShnum_lt disk.image) isImage.entsize
  have strndx : disk.image.eShstrndx.toNat < disk.image.eShnum.toNat :=
    isImage.strndx.resolve_right fun none_ => some_ none_.1
  have width : span + span < 2 ^ 62 := by decide
  rw [sectSize] at near
  set kvbase := bufferAt toVa with base
  obtain ⟨first, m₁, size₁, few₁, read₁, outside₁, headers₁⟩ := table_read disk m kvbase _ disk.image.eShoff 0 aligned
    (by omega) (by rw [size]; exact headers.trans onDisk) (Nat.zero_mod _)
  rw [zero_add] at read₁
  have whole₁ : first % sectSize = 0 := by
    rw [size₁]
    exact Nat.mul_mod_right ..
  have kv₁ : (BitVec.ofNat 64 first).toNat = first := by
    rw [BitVec.toNat_ofNat, Nat.mod_eq_of_lt (by omega)]
  have place : (kvbase + BitVec.ofNat 64 first).toNat = kvbase.toNat + first := Bytes.toNat_add_ofNat (by omega)
  have aligned₁ : (kvbase + BitVec.ofNat 64 first).toNat % sectSize = 0 := by
    rw [place, Nat.add_mod, aligned, whole₁]
    rfl
  obtain ⟨second, m₂, size₂, few₂, read₂, outside₂, names₂⟩ := table_read disk m₁
    (kvbase + BitVec.ofNat 64 first) disk.strtab.shSize disk.strtab.shOffset (BitVec.ofNat 64 first) aligned₁ (by omega)
    (names.trans onDisk) (by rw [kv₁, whole₁])
  have start_eq : start = first + second := by
    rw [size] at size₁
    rw [size₁, size₂, ← Nat.mul_add]
    rfl
  rw [place] at outside₂ names₂
  have ptr : ∀ i < disk.image.eShnum.toNat, ∀ k < sizeofSecthdr, ptrs i + BitVec.ofNat 64 k =
      kvbase + offsetCorrect disk.image.eShoff + BitVec.ofNat 64 (sizeofSecthdr * i + k) := by
    intro i inside k below
    have stored : ptrs i = kvbase + offsetCorrect disk.image.eShoff + BitVec.ofNat 64 (sizeofSecthdr * i) := if_pos inside
    rw [stored, BitVec.ofNat_add, ← BitVec.add_assoc]
  have tables₁ : ∀ i < disk.image.eShnum.toNat, ∀ k < sizeofSecthdr,
      m₁ (ptrs i + BitVec.ofNat 64 k) = disk.byte (disk.image.eShoff.toNat + sizeofSecthdr * i + k) ∧
        (ptrs i + BitVec.ofNat 64 k).toNat < kvbase.toNat + first := by
    intro i inside k below
    have here := headers₁ (sizeofSecthdr * i + k) (by rw [size]; rw [sizeofSecthdr] at below ⊢; omega)
    rwa [ptr i inside k below, Nat.add_assoc]
  have tables : disk.Tables m₂ (kvbase.toNat + (first + second))
      (kvbase + BitVec.ofNat 64 first + offsetCorrect disk.strtab.shOffset) ptrs := by
    constructor
    · intro i inside k below
      obtain ⟨read, beneath⟩ := tables₁ i inside k below
      exact ⟨(outside₂ _ (.inl beneath)).trans read, by omega⟩
    · intro j below
      obtain ⟨read, beneath⟩ := names₂ j below
      exact ⟨read, by omega⟩
  rw [start_eq]
  refine ⟨_, m₂, ⟨?_, by omega, fun a beyond => ?_, tables⟩, fun fuel enough => ?_⟩
  · rw [← start_eq]
    exact Nat.mul_mod_right ..
  · rw [outside₂ a (by omega), outside₁ a (by omega)]
  · have loaded₁ := (loaded.keep above fun a below => outside₁ a (.inl (by omega))).read
    have strtab₁ : Binary.secthdrAt m₁ (ptrs disk.image.eShstrndx.toNat) = disk.strtab :=
      secthdr_read isImage strndx fun k below => (tables₁ _ strndx k below).1
    have strtab₂ : Binary.secthdrAt m₂ (ptrs disk.image.eShstrndx.toNat) = disk.strtab :=
      tables.secthdr isImage strndx
    rw [readSectionHeaders]
    dsimp only
    rw [if_pos rfl, loaded.read.shoff, loaded.read.shnum, loaded.read.entsize, ← bufferAt, ← base, read₁ fuel enough,
      pure_bind]
    dsimp only
    rw [loaded₁.shstrndx]
    rw [show storePtrs stack (kvbase + offsetCorrect disk.image.eShoff) disk.image.eShnum.toNat = ptrs from rfl]
    rw [strtab₁, read₂ fuel enough, pure_bind]
    dsimp only
    rw [strtab₂, ← BitVec.ofNat_add]

theorem Recorded.mono {num low high low' : Nat} {sectionInfo : SectionTable}
    (recorded : disk.Recorded num m sectionInfo low high) (lower : low' ≤ low) :
    disk.Recorded num m sectionInfo low' high := by
  refine ⟨fun d has => ?_, recorded.apart⟩
  obtain ⟨i, below, holds, copies⟩ := recorded.copied d has
  exact ⟨i, below, holds, copies.mono (fun _ _ _ => rfl) lower (Nat.le_refl _)⟩

theorem readSectionHeaders_complete (isImage : disk.IsImage length) (some_ : disk.image.eShnum ≠ 0)
    (few : disk.image.eShnum.toNat ≤ secthdrPtrs) (loaded : disk.HeaderLoaded m)
    (above : kelfhdr.toNat + 64 ≤ toVa.toNat) (low : toVa.toNat < 2 ^ 63) (sectionInfo : SectionTable)
    (stack : Nat → Word) {P : Nat → Loading → Prop}
    (kept : ∀ i < disk.image.eShnum.toNat, ∀ s s', P i s → disk.Stepped (bufferAt toVa) i s s' → P (i + 1) s')
    (initial : ∀ m', P 0 ⟨m', BitVec.ofNat 64 (sectSize * disk.tableSectors), sectionInfo⟩) :
    ∃ r, (∀ fuel, 2 ^ 29 ≤ fuel → readSectionHeaders disk fuel m sectionInfo stack kelfhdr toVa = pure r) ∧
      disk.Complete m stack toVa r ∧ ∃ s, P disk.image.eShnum.toNat s ∧ r.sectionInfo = s.sectionInfo ∧
        r.endDebug.toNat = (bufferAt toVa).toNat + s.kvoffset.toNat := by
  obtain ⟨nametab, m', started, runs⟩ := readSectionHeaders_starts isImage some_ loaded above low sectionInfo stack
  obtain ⟨aligned, up, near⟩ := bufferAt_bounds low
  have short := started.few
  rw [secthdrPtrs] at few
  rw [sectSize] at near
  have within : span * (disk.image.eShnum.toNat + 1) ≤ span * 21 := Nat.mul_le_mul_left span (by omega)
  have width : span * 23 < 2 ^ 62 := by decide
  obtain ⟨s, loop, progress, holds⟩ := Progress.loop kept (initial m') (started.progress sectionInfo) isImage
    started.tables aligned (by omega) (Nat.le_refl _)
  have bounded := progress.bounded
  rw [Nat.mul_succ] at within
  have last : (bufferAt toVa + s.kvoffset).toNat = (bufferAt toVa).toNat + s.kvoffset.toNat := by
    rw [BitVec.toNat_add, Nat.mod_eq_of_lt (by omega)]
  refine ⟨⟨bufferAt toVa + s.kvoffset, s.m, s.sectionInfo, storePtrs stack
    (bufferAt toVa + offsetCorrect disk.image.eShoff) disk.image.eShnum.toNat⟩, fun fuel enough => ?_, ?_,
    s, holds, rfl, last⟩
  · rw [runs fuel enough, loop fuel enough, pure_bind]
  · have beginning := progress.started
    constructor
    · intro i beyond
      change storePtrs _ _ _ i = stack i
      rw [storePtrs, if_neg (by rw [secthdrPtrs] at beyond; omega), if_neg (by omega)]
    · intro a beyond
      dsimp only at beyond ⊢
      rw [last] at beyond
      rw [progress.outside a (by omega), started.outside a (by omega)]
    · dsimp only
      rw [last]
      exact progress.recorded.mono (by omega)

-- Where it fails

theorem run_eq_pure {α β : Type} {first : Attempt α} {f : α → β} {b : β} (run : (first >>= fun a => pure (f a)) = pure b) :
    ∃ a, b = f a := by
  rcases first with _ | stop | a
  · cases run
  · cases run
  · cases run
    exact ⟨a, rfl⟩

/-- Memory that holds what the boot loader has read, with `low` in front of it. -/
def bootMemory (disk : Disk) (low : Word → BitVec 8) : Bytes.Memory 64 := fun a =>
  if a.toNat < 64 then low a else disk.image (a - kelfhdr)

theorem bootMemory_loaded (disk : Disk) (low : Word → BitVec 8) : disk.HeaderLoaded (disk.bootMemory low) := by
  intro k below
  have place : (kelfhdr + BitVec.ofNat 64 k).toNat = kelfhdr.toNat + k :=
    Bytes.toNat_add_ofNat (by have : kelfhdr.toNat < 2 ^ 63 := by decide
                              omega)
  have high : 64 ≤ kelfhdr.toNat := by decide
  rw [bootMemory, if_neg (by omega), image, BitVec.add_comm, BitVec.add_sub_cancel, BitVec.toNat_ofNat,
    Nat.mod_eq_of_lt (by omega)]

/-- With more headers than `secthdr_ptr` has room for, the word behind it is overwritten. -/
theorem Reads.few (isImage : disk.IsImage length) (above : kelfhdr.toNat + 64 ≤ toVa.toNat) (low : toVa.toNat < 2 ^ 63)
    (reads : disk.Reads toVa) : disk.image.eShnum.toNat ≤ secthdrPtrs := by
  by_contra many
  have some_ : disk.image.eShnum ≠ 0 := by
    intro none_
    rw [none_] at many
    exact many (Nat.zero_le _)
  let stored := bufferAt toVa + offsetCorrect disk.image.eShoff + BitVec.ofNat 64 (sizeofSecthdr * secthdrPtrs)
  let stack : Nat → Word := fun _ => stored + 1
  have loaded := bootMemory_loaded disk 0
  obtain ⟨bound, r, runs, complete⟩ := reads _ (fun _ => ⟨0, 0⟩) stack loaded
  obtain ⟨nametab, m', -, starts⟩ := readSectionHeaders_starts isImage some_ loaded above low (fun _ => ⟨0, 0⟩) stack
  have run := runs (max bound (2 ^ 29)) (Nat.le_max_left ..)
  rw [starts _ (Nat.le_max_right ..)] at run
  obtain ⟨s, rfl⟩ := run_eq_pure run
  have kept := complete.stack secthdrPtrs (Nat.le_refl _)
  have written : storePtrs stack (bufferAt toVa + offsetCorrect disk.image.eShoff) disk.image.eShnum.toNat secthdrPtrs =
      stored := if_pos (Nat.not_le.mp many)
  dsimp only at kept
  rw [written] at kept
  have differ : stored ≠ stored + 1 := by
    intro same
    exact absurd (left_eq_add.mp same) (by decide)
  exact differ kept

theorem Reading.loop_endless {endPa : Word} (last : endPa.toNat = 2 ^ 64 - 1) (fuel : Nat) {s : Reading}
    (aligned : s.pa.toNat % sectSize = 0) : Reading.loop disk endPa fuel s = none := by
  induction fuel generalizing s with
  | zero => rfl
  | succ fuel ih =>
    rw [sectSize] at aligned
    have bound := s.pa.isLt
    have goesOn : s.pa < endPa := by
      rw [BitVec.lt_def, last]
      omega
    rw [Reading.loop, if_pos goesOn]
    apply ih
    change (s.pa + BitVec.ofNat 64 sectSize).toNat % sectSize = 0
    rw [BitVec.toNat_add, BitVec.toNat_ofNat, sectSize]
    omega

theorem readseg_endless {fuel : Nat} {pa count offset kvoffset : Word} (aligned : pa.toNat % sectSize = 0)
    (last : (pa + count).toNat = 2 ^ 64 - 1) : readseg disk fuel m pa count offset kvoffset = none := by
  rw [readseg]
  dsimp only
  rw [if_neg (not_not.mpr ((mod_sect_eq_zero pa).mpr aligned)), rounded aligned, Reading.loop_endless last fuel aligned]
  rfl

theorem field_bytes {binary : Binary} {a value : Word} {size : Nat} (small : value.toNat < 2 ^ (8 * size))
    (stored : ∀ k < size, binary (a + BitVec.ofNat 64 k) = (value >>> (8 * k)).setWidth 8) :
    binary.field a size = value := by
  induction size generalizing a value with
  | zero =>
    apply BitVec.eq_of_toNat_eq
    exact (Nat.lt_one_iff.mp small).symm
  | succ size ih =>
    have first := stored 0 (Nat.succ_pos size)
    rw [BitVec.add_zero, Nat.mul_zero, BitVec.ushiftRight_zero] at first
    have rest : binary.field (a + 1) size = value >>> 8 := by
      apply ih
      · rw [BitVec.toNat_ushiftRight, Nat.shiftRight_eq_div_pow]
        rw [show 8 * (size + 1) = 8 * size + 8 by omega, Nat.pow_add] at small
        exact Nat.div_lt_of_lt_mul (by rwa [Nat.mul_comm])
      · intro k below
        have next := stored (k + 1) (Nat.succ_lt_succ below)
        rw [Nat.add_comm k, BitVec.ofNat_add, ← BitVec.add_assoc, Nat.mul_add, Nat.mul_one, BitVec.shiftRight_add] at next
        exact next
    rw [Binary.field, first, rest]
    apply BitVec.eq_of_getLsbD_eq
    intro i inside
    rw [BitVec.getLsbD_or, BitVec.getLsbD_setWidth, BitVec.getLsbD_setWidth, BitVec.getLsbD_shiftLeft,
      BitVec.getLsbD_ushiftRight]
    by_cases low : i < 8
    · simp [low, inside]
    · rw [Nat.add_sub_cancel' (Nat.not_lt.mp low)]
      simp [low, inside]

/-- Without headers, what address 0 holds is taken for the header of the names. -/
theorem Reads.nonzero (isImage : disk.IsImage length) (low : toVa.toNat < 2 ^ 63) (reads : disk.Reads toVa) :
    disk.image.eShnum ≠ 0 := by
  intro none_
  obtain ⟨aligned, up, near⟩ := bufferAt_bounds low
  rw [sectSize] at near
  have strndx : disk.image.eShstrndx = 0 := by
    rcases isImage.strndx with below | zero
    · rw [none_] at below
      exact absurd below (Nat.not_lt_zero _)
    · exact zero.2
  let value := BitVec.ofNat 64 (2 ^ 64 - 1) - bufferAt toVa
  let m := disk.bootMemory fun a => (value >>> (8 * (a.toNat - 32))).setWidth 8
  have loaded : disk.HeaderLoaded m := bootMemory_loaded disk _
  have size : (Binary.secthdrAt m 0).shSize = value := by
    apply field_bytes value.isLt
    intro k below
    have place : ((0 : Word) + 32 + BitVec.ofNat 64 k).toNat = 32 + k := Bytes.toNat_add_ofNat (by
      have : ((0 : Word) + 32).toNat = 32 := rfl
      omega)
    change (if _ then _ else _) = _
    rw [place, if_pos (by omega)]
    dsimp only
    rw [place, Nat.add_sub_cancel_left]
  obtain ⟨bound, r, runs, -⟩ := reads m (fun _ => ⟨0, 0⟩) 0 loaded
  have run := runs (max bound (2 ^ 29)) (Nat.le_max_left ..)
  have nothing := headers_size (eShnum_lt disk.image) isImage.entsize
  rw [none_] at nothing
  have none_read : sectors 0 disk.image.eShoff.toNat = 0 := by
    rw [sectors, sectSize]
    split <;> omega
  have first := @readseg_pure disk m (max bound (2 ^ 29)) (bufferAt toVa)
    (((0 : Word).setWidth 32 * disk.image.eShentsize.setWidth 32).signExtend 64) disk.image.eShoff 0 aligned
    (by omega) (by rw [nothing]; exact Nat.zero_le _) (Nat.zero_mod _) (Nat.le_max_right ..)
  rw [nothing, show sizeofSecthdr * (0 : Word).toNat = 0 from rfl, none_read, sectorsAt_zero, Nat.mul_zero,
    BitVec.add_zero] at first
  have aligned' : (bufferAt toVa + (0 : Word)).toNat % sectSize = 0 := by
    rw [add_zero]
    exact aligned
  have last : (bufferAt toVa + (0 : Word) + value).toNat = 2 ^ 64 - 1 := by
    rw [add_zero, BitVec.add_comm, BitVec.sub_add_cancel]
    rfl
  rw [readSectionHeaders] at run
  dsimp only at run
  rw [if_pos rfl, loaded.read.shoff, loaded.read.shnum, loaded.read.entsize, none_, ← bufferAt, first, pure_bind] at run
  dsimp only at run
  rw [loaded.read.shstrndx, strndx] at run
  change (ExceptT.mk (readseg disk (max bound (2 ^ 29)) m (bufferAt toVa + 0) (Binary.secthdrAt m 0).shSize
    (Binary.secthdrAt m 0).shOffset 0) >>= _ : Attempt SectionsRead) = _ at run
  rw [size, readseg_endless aligned' last] at run
  cases run

/-- With as many headers as `secthdr_ptr` has room for, and at least one, every copy is complete. -/
theorem read_section_headers_iff (disk : Disk) (length : Nat) (toVa : Word) (isImage : disk.IsImage length)
    (above : kelfhdr.toNat + 64 ≤ toVa.toNat) (low : toVa.toNat < 2 ^ 63) :
    disk.Reads toVa ↔ 1 ≤ disk.image.eShnum.toNat ∧ disk.image.eShnum.toNat ≤ secthdrPtrs := by
  constructor
  · intro reads
    have some_ := reads.nonzero isImage low
    refine ⟨?_, reads.few isImage above low⟩
    rw [Nat.one_le_iff_ne_zero]
    exact fun zero => some_ (BitVec.eq_of_toNat_eq zero)
  · rintro ⟨some_, few⟩ m sectionInfo stack loaded
    have nonzero : disk.image.eShnum ≠ 0 := by
      intro none_
      rw [none_] at some_
      exact absurd some_ (by decide)
    obtain ⟨r, runs, complete, -⟩ := readSectionHeaders_complete (P := fun _ _ => True) isImage nonzero few
      loaded above low sectionInfo stack (fun _ _ _ _ _ _ => trivial) fun _ => trivial
    exact ⟨2 ^ 29, r, runs, complete⟩

/-- The bytes that are not 0 of an image with the given number of headers: the names are at 2048, and the second
    section is the three bytes of .debug_info from 4095 on. -/
def sampleBytes (num : BitVec 8) : Nat → BitVec 8
  | 0 => 0x7F | 1 => 0x45 | 2 => 0x4C | 3 => 0x46
  | 40 => 64 | 58 => 64 | 60 => num
  | 89 => 8 | 96 => 13
  | 128 => 1 | 152 => 0xFF | 153 => 0x0F | 160 => 3
  | offset => if offset < 2048 then 0 else (text "\x00.debug_info").getD (offset - 2048) 0

def sampleDisk (num : BitVec 8) : Disk := fun sector i => sampleBytes num (sectSize * (sector - 1) + i)

/-- What an image with these bytes is to satisfy, as far as it can be looked up. -/
theorem sampleDisk_isImage {num : BitVec 8} (entsize : (sampleDisk num).image.eShentsize.toNat = sizeofSecthdr)
    (headers : (sampleDisk num).image.eShoff.toNat + sizeofSecthdr * (sampleDisk num).image.eShnum.toNat ≤ 4098)
    (strndx : (sampleDisk num).image.eShstrndx.toNat < (sampleDisk num).image.eShnum.toNat)
    (names : (sampleDisk num).strtab.shOffset.toNat + (sampleDisk num).strtab.shSize.toNat ≤ 4098)
    (named : ∀ i < (sampleDisk num).image.eShnum.toNat, ∃ name ∈ [[], text ".debug_info"], (sampleDisk num).Named i name ∧
      ((sampleDisk num).secthdr i).shName.toNat + name.length < (sampleDisk num).strtab.shSize.toNat)
    (sections : ∀ i < (sampleDisk num).image.eShnum.toNat,
      ((sampleDisk num).secthdr i).shOffset.toNat + ((sampleDisk num).secthdr i).shSize.toNat ≤ 4098) :
    (sampleDisk num).IsImage 4098 where
  onDisk := by decide
  entsize := entsize
  headers := headers
  strndx := .inl strndx
  names _ := names
  named i below := by
    obtain ⟨name, -, rest⟩ := named i below
    exact ⟨name, rest⟩
  sections i below _ _ _ := sections i below

instance (disk : Disk) (i : Nat) (name : List (BitVec 8)) : Decidable (disk.Named i name) :=
  inferInstanceAs (Decidable (StringAt _ _ _))

theorem read_section_headers_two : (sampleDisk 2).Holds 1 .debugInfo ∧ (sampleDisk 2).Reads 0x8004300000 := by
  have isImage : (sampleDisk 2).IsImage 4098 := by
    apply sampleDisk_isImage <;> decide +kernel
  have two := read_section_headers_iff (sampleDisk 2) 4098 0x8004300000 isImage (by decide) (by decide)
  exact ⟨by unfold Holds; decide +kernel, two.mpr (by decide +kernel)⟩

/-- An image with 21 headers, one more than there is room for. -/
theorem read_section_headers_overruns : (sampleDisk 21).IsImage 4098 ∧ ¬ (sampleDisk 21).Reads 0x8004300000 := by
  have isImage : (sampleDisk 21).IsImage 4098 := by
    apply sampleDisk_isImage <;> decide +kernel
  refine ⟨isImage, fun reads => ?_⟩
  have few := reads.few isImage (by decide) (by decide)
  exact absurd few (by decide +kernel)

end Disk
end Jos
