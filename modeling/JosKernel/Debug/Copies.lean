import JosKernel.Debug.Sections

namespace Jos

open Bytes (Within Fits StringAt)
open Format (text)

-- Fields

theorem Binary.field_congr {b b' : Binary} {a a' : Word} {size : Nat}
    (same : ∀ k < size, b (a + BitVec.ofNat 64 k) = b' (a' + BitVec.ofNat 64 k)) : b.field a size = b'.field a' size := by
  induction size generalizing a a' with
  | zero => rfl
  | succ size ih =>
    have first := same 0 (Nat.succ_pos size)
    rw [BitVec.add_zero, BitVec.add_zero] at first
    rw [Binary.field, Binary.field, first]
    congr 2
    apply ih
    intro k inside
    have next := same (k + 1) (Nat.succ_lt_succ inside)
    rw [Nat.add_comm k, BitVec.ofNat_add, ← BitVec.add_assoc, ← BitVec.add_assoc] at next
    exact next

theorem Binary.field_within {b b' : Binary} {a a' : Word} {size : Nat}
    (same : ∀ k < size, b (a + BitVec.ofNat 64 k) = b' (a' + BitVec.ofNat 64 k)) (offset count : Nat)
    (inside : offset + count ≤ size) :
    b.field (a + BitVec.ofNat 64 offset) count = b'.field (a' + BitVec.ofNat 64 offset) count := by
  apply field_congr
  intro k below
  rw [BitVec.add_assoc, BitVec.add_assoc, ← BitVec.ofNat_add]
  exact same (offset + k) (by omega)

theorem Binary.secthdrAt_congr {b b' : Binary} {a a' : Word}
    (same : ∀ k < sizeofSecthdr, b (a + BitVec.ofNat 64 k) = b' (a' + BitVec.ofNat 64 k)) :
    b.secthdrAt a = b'.secthdrAt a' := by
  rw [sizeofSecthdr] at same
  have name := field_within same 0 4 (by decide)
  rw [BitVec.add_zero, BitVec.add_zero] at name
  have addr := field_within same 16 8 (by decide)
  have place := field_within same 24 8 (by decide)
  have size := field_within same 32 8 (by decide)
  exact ElfSecthdr.mk.injEq .. |>.mpr ⟨name, addr, place, size⟩

namespace Disk

variable {disk : Disk} {m m' : Bytes.Memory 64} {fuel : Nat} {pa count offset kvoffset : Word}

theorem HeaderLoaded.field (loaded : disk.HeaderLoaded m) (offset count : Nat) (inside : offset + count ≤ 64) :
    (Binary.loadedAt m kelfhdr).field (BitVec.ofNat 64 offset) count = disk.image.field (BitVec.ofNat 64 offset) count := by
  have same : ∀ k < 64, (Binary.loadedAt m kelfhdr) (0 + BitVec.ofNat 64 k) = disk.image (0 + BitVec.ofNat 64 k) := by
    intro k below
    rw [zero_add, Binary.loadedAt, loaded k below, image, BitVec.toNat_ofNat, Nat.mod_eq_of_lt (by omega)]
  have read := Binary.field_within same offset count inside
  rwa [zero_add] at read

theorem offsetCorrect_eq (x : Word) : offsetCorrect x = BitVec.ofNat 64 (x.toNat % sectSize) := by
  rw [offsetCorrect, sub_sub_cancel]
  apply BitVec.eq_of_toNat_eq
  rw [toNat_mod_sect, BitVec.toNat_ofNat, Nat.mod_eq_of_lt ((Nat.mod_le ..).trans_lt x.isLt)]

theorem sectors_bound {count : Nat} (offset : Nat) (small : count ≤ 2 ^ 37) : sectSize * sectors count offset ≤ 2 ^ 38 := by
  rw [sectors, sectSize]
  split <;> omega

theorem readseg_pure (aligned : pa.toNat % sectSize = 0) (room : pa.toNat + 2 ^ 38 < 2 ^ 64)
    (small : count.toNat ≤ 2 ^ 37) (whole : kvoffset.toNat % sectSize = 0) (enough : 2 ^ 29 ≤ fuel) :
    (ExceptT.mk (readseg disk fuel m pa count offset kvoffset) : Attempt _) =
      pure (sectorsAt disk pa (offset.toNat / sectSize + 1) (sectors count.toNat offset.toNat) m,
        kvoffset + BitVec.ofNat 64 (sectSize * sectors count.toNat offset.toNat)) := by
  rw [readseg_sectors aligned _ _, if_pos whole]
  · rfl
  · rw [sectSize]
    omega
  · rw [sectSize]
    omega

end Disk

-- Copies

namespace SectionRecord.Copies

variable {r r' : SectionRecord} {disk : Disk} {m m' : Bytes.Memory 64} {low high low' high' : Nat} {hdr : ElfSecthdr}

theorem within {j : Nat} (copies : r.Copies disk m low high hdr) (inside : j < hdr.shSize.toNat) :
    Within r.dsData hdr.shSize.toNat (r.dsData + BitVec.ofNat 64 j) := by
  have fits := copies.fits
  rw [Fits] at fits
  rw [Within, Bytes.toNat_add_ofNat (by omega)]
  omega

theorem mono (copies : r.Copies disk m low high hdr) (same : ∀ a : Word, low ≤ a.toNat → a.toNat < high → m' a = m a)
    (lower : low' ≤ low) (higher : high ≤ high') : r.Copies disk m' low' high' hdr := by
  refine ⟨copies.size, copies.fits, fun j inside => ?_, fun a within => ?_⟩
  · have bounds := copies.inside _ (copies.within inside)
    rw [same _ bounds.1 bounds.2]
    exact copies.contents j inside
  · have bounds := copies.inside a within
    omega

theorem apart (copies : r.Copies disk m low high hdr) {hdr' : ElfSecthdr} (copies' : r'.Copies disk m' low' high' hdr')
    (above : high ≤ low') : r.Apart r' ∧ r'.Apart r := by
  have never : ∀ a, Within r.dsData hdr.shSize.toNat a → Within r'.dsData hdr'.shSize.toNat a → False := by
    intro a first second
    have bounds := copies.inside a first
    have bounds' := copies'.inside a second
    omega
  rw [Apart, Apart, copies.size, copies'.size]
  exact ⟨fun a both => never a both.1 both.2, fun a both => never a both.2 both.1⟩

end SectionRecord.Copies

namespace Disk

variable {disk : Disk} {m m' : Bytes.Memory 64} {pa : Word}

theorem sectorsAt_copies {hdr : ElfSecthdr} (room : pa.toNat + 2 ^ 38 < 2 ^ 64)
    (onDisk : hdr.shOffset.toNat + hdr.shSize.toNat ≤ sectSize * (2 ^ 28 - 1)) :
    SectionRecord.Copies ⟨pa + offsetCorrect hdr.shOffset, hdr.shSize⟩ disk
      (sectorsAt disk pa (hdr.shOffset.toNat / sectSize + 1) (sectors hdr.shSize.toNat hdr.shOffset.toNat) m)
      pa.toNat (pa.toNat + sectSize * sectors hdr.shSize.toNat hdr.shOffset.toNat) hdr := by
  have small := sectors_bound hdr.shOffset.toNat (show hdr.shSize.toNat ≤ 2 ^ 37
    by rw [sectSize] at onDisk; omega)
  have part := Nat.mod_lt hdr.shOffset.toNat (show 0 < sectSize by decide)
  rw [offsetCorrect_eq]
  have start : (pa + BitVec.ofNat 64 (hdr.shOffset.toNat % sectSize)).toNat = pa.toNat + hdr.shOffset.toNat % sectSize := by
    apply Bytes.toNat_add_ofNat
    rw [sectSize] at part ⊢
    omega
  refine ⟨rfl, ?_, fun j inside => ?_, fun a within => ?_⟩
  · rw [Fits]
    dsimp only
    rw [start]
    rw [sectSize] at part onDisk ⊢
    omega
  · have cover := sectors_cover hdr.shOffset.toNat (Nat.zero_lt_of_lt inside)
    dsimp only
    rw [BitVec.add_assoc, ← BitVec.ofNat_add]
    exact sectorsAt_image (by omega) (by omega) (by omega)
  · rw [Within] at within
    dsimp only at within
    rw [start] at within
    have cover := sectors_cover hdr.shOffset.toNat (show 0 < hdr.shSize.toNat by omega)
    omega

-- The tables

/-- The tables of the image as the loop finds them, below `low`. -/
structure Tables (disk : Disk) (m : Bytes.Memory 64) (low : Nat) (nametab : Word) (ptrs : Nat → Word) : Prop where
  headers : ∀ i < disk.image.eShnum.toNat, ∀ k < sizeofSecthdr,
    m (ptrs i + BitVec.ofNat 64 k) = disk.byte (disk.image.eShoff.toNat + sizeofSecthdr * i + k) ∧
      (ptrs i + BitVec.ofNat 64 k).toNat < low
  names : ∀ j < disk.strtab.shSize.toNat,
    m (nametab + BitVec.ofNat 64 j) = disk.byte (disk.strtab.shOffset.toNat + j) ∧
      (nametab + BitVec.ofNat 64 j).toNat < low

variable {length low i : Nat} {nametab : Word} {ptrs : Nat → Word} {name : List (BitVec 8)}

theorem Tables.keep (tables : disk.Tables m low nametab ptrs) (same : ∀ a : Word, a.toNat < low → m' a = m a) :
    disk.Tables m' low nametab ptrs := by
  refine ⟨fun i inside k below => ?_, fun j below => ?_⟩
  · obtain ⟨read, beneath⟩ := tables.headers i inside k below
    exact ⟨(same _ beneath).trans read, beneath⟩
  · obtain ⟨read, beneath⟩ := tables.names j below
    exact ⟨(same _ beneath).trans read, beneath⟩

theorem image_byte (disk : Disk) {a : Word} {k : Nat} (small : a.toNat + k < 2 ^ 64) :
    disk.image (a + BitVec.ofNat 64 k) = disk.byte (a.toNat + k) := by
  rw [image, Bytes.toNat_add_ofNat small]

theorem secthdr_read {ptr : Word} (isImage : disk.IsImage length) (inside : i < disk.image.eShnum.toNat)
    (read : ∀ k < sizeofSecthdr,
      m (ptr + BitVec.ofNat 64 k) = disk.byte (disk.image.eShoff.toNat + sizeofSecthdr * i + k)) :
    Binary.secthdrAt m ptr = disk.secthdr i := by
  apply Binary.secthdrAt_congr
  intro k below
  have bound := isImage.headers
  have onDisk := isImage.onDisk
  rw [sizeofSecthdr] at bound below
  rw [sectSize] at onDisk
  have start : (disk.image.eShoff + BitVec.ofNat 64 (64 * i)).toNat = disk.image.eShoff.toNat + 64 * i :=
    Bytes.toNat_add_ofNat (by omega)
  rw [read k (by rwa [sizeofSecthdr]), sizeofSecthdr, image_byte disk (by omega), start]

theorem Tables.secthdr (tables : disk.Tables m low nametab ptrs) (isImage : disk.IsImage length)
    (inside : i < disk.image.eShnum.toNat) : Binary.secthdrAt m (ptrs i) = disk.secthdr i :=
  secthdr_read isImage inside fun k below => (tables.headers i inside k below).1

theorem Tables.nameAt (tables : disk.Tables m low nametab ptrs) (isImage : disk.IsImage length)
    (nonempty : disk.image.eShnum ≠ 0) (named : disk.Named i name)
    (within : (disk.secthdr i).shName.toNat + name.length < disk.strtab.shSize.toNat) :
    StringAt m (nametab + (disk.secthdr i).shName) name := by
  have bound := isImage.names nonempty
  have onDisk := isImage.onDisk
  rw [sectSize] at onDisk
  apply named.congr
  intro j inside
  have start : (disk.strtab.shOffset + (disk.secthdr i).shName).toNat =
      disk.strtab.shOffset.toNat + (disk.secthdr i).shName.toNat := by
    rw [BitVec.toNat_add, Nat.mod_eq_of_lt (by omega)]
  have place : nametab + (disk.secthdr i).shName + BitVec.ofNat 64 j =
      nametab + BitVec.ofNat 64 ((disk.secthdr i).shName.toNat + j) := by
    rw [BitVec.add_assoc, BitVec.ofNat_add, BitVec.ofNat_toNat, BitVec.setWidth_eq]
  rw [place, (tables.names _ (by omega)).1, image_byte disk (by omega), start, Nat.add_assoc]

-- The loop

theorem dsName_text {d d' : DebugSection} (same : text d.dsName = text d'.dsName) : d = d' := by
  cases d <;> cases d' <;> first | rfl | exact absurd same (by decide)

theorem dsName_nonzero (d : DebugSection) : 0 ∉ text d.dsName := by
  cases d <;> decide

theorem Holds.unique {d d' : DebugSection} (holds : disk.Holds i d) (holds' : disk.Holds i d') : d = d' :=
  dsName_text (StringAt.unique holds holds')

theorem Has.split {num : Nat} {d : DebugSection} (has : disk.Has (num + 1) d) :
    disk.Has num d ∨ d ≠ .debugFrame ∧ disk.Holds num d := by
  obtain ⟨loaded, i, below, holds⟩ := has
  rcases Nat.lt_succ_iff_lt_or_eq.mp below with early | rfl
  · exact .inl ⟨loaded, i, early, holds⟩
  · exact .inr ⟨loaded, holds⟩

def span : Nat := 274877906944

structure Progress (disk : Disk) (kvbase : Word) (start : Nat) (m : Bytes.Memory 64) (i : Nat) (s : Loading) : Prop where
  aligned : s.kvoffset.toNat % sectSize = 0
  started : start ≤ s.kvoffset.toNat
  bounded : s.kvoffset.toNat ≤ start + span * i
  outside : ∀ a : Word, a.toNat < kvbase.toNat + start ∨ kvbase.toNat + s.kvoffset.toNat ≤ a.toNat → s.m a = m a
  recorded : disk.Recorded i s.m s.sectionInfo (kvbase.toNat + start) (kvbase.toNat + s.kvoffset.toNat)

variable {kvbase : Word} {start : Nat} {s s' : Loading} {d : DebugSection}

/-- What the loop does with the `i`-th section, apart from memory. -/
inductive Stepped (disk : Disk) (kvbase : Word) (i : Nat) (s : Loading) : Loading → Prop
  | load (d : DebugSection) (r : SectionRecord) (s' : Loading) (loaded : d ≠ .debugFrame) (holds : disk.Holds i d)
      (kvoffset : s'.kvoffset.toNat = s.kvoffset.toNat +
        sectSize * sectors (disk.secthdr i).shSize.toNat (disk.secthdr i).shOffset.toNat)
      (data : r.dsData.toNat = kvbase.toNat + s.kvoffset.toNat + (disk.secthdr i).shOffset.toNat % sectSize)
      (size : r.dsSize = (disk.secthdr i).shSize) (info : s'.sectionInfo = Function.update s.sectionInfo d r) :
      Stepped disk kvbase i s s'
  | frame (holds : disk.Holds i .debugFrame) :
      Stepped disk kvbase i s { s with
        sectionInfo := Function.update s.sectionInfo .debugFrame ⟨(disk.secthdr i).shAddr, (disk.secthdr i).shSize⟩ }
  | skip (unnamed : ∀ d, ¬ disk.Holds i d) : Stepped disk kvbase i s s

theorem Progress.skip (progress : disk.Progress kvbase start m i s)
    (unnamed : ∀ d, d ≠ DebugSection.debugFrame → ¬ disk.Holds i d) (memory : s'.m = s.m) (place : s'.kvoffset = s.kvoffset)
    (info : ∀ d, d ≠ DebugSection.debugFrame → s'.sectionInfo d = s.sectionInfo d) :
    disk.Progress kvbase start m (i + 1) s' := by
  have before : ∀ d, disk.Has (i + 1) d → disk.Has i d := by
    intro d has
    rcases has.split with old | ⟨loaded, holds⟩
    · exact old
    · exact absurd holds (unnamed d loaded)
  have bounded : s.kvoffset.toNat ≤ start + span * (i + 1) := by
    rw [Nat.mul_succ]
    exact progress.bounded.trans (by omega)
  refine ⟨?_, ?_, ?_, ?_, fun d has => ?_, fun d d' other has has' => ?_⟩
  · rw [place]
    exact progress.aligned
  · rw [place]
    exact progress.started
  · rwa [place]
  · rw [place, memory]
    exact progress.outside
  · obtain ⟨i', below, holds, copies⟩ := progress.recorded.copied d (before d has)
    rw [info d has.1, memory, place]
    exact ⟨i', Nat.lt_succ_of_lt below, holds, copies⟩
  · rw [info d has.1, info d' has'.1]
    exact progress.recorded.apart d d' other (before d has) (before d' has')

/-- The copy of one more section, behind those of the others. -/
theorem Recorded.load {low high high' : Nat} {sectionInfo : SectionTable} {r : SectionRecord}
    (recorded : disk.Recorded i m sectionInfo low high) (holds : disk.Holds i d)
    (copies : r.Copies disk m' high high' (disk.secthdr i))
    (kept : ∀ a : Word, low ≤ a.toNat → a.toNat < high → m' a = m a) (started : low ≤ high) (grown : high ≤ high') :
    disk.Recorded (i + 1) m' (Function.update sectionInfo d r) low high' := by
  have records : ∀ d', disk.Has (i + 1) d' → (d' = d ∨ d' ≠ d ∧ disk.Has i d') := by
    intro d' has
    by_cases same : d' = d
    · exact .inl same
    · rcases has.split with old | ⟨_, holds'⟩
      · exact .inr ⟨same, old⟩
      · exact absurd (holds'.unique holds) same
  constructor
  · intro d' has
    rcases records d' has with rfl | ⟨different, old⟩
    · refine ⟨i, Nat.lt_succ_self i, holds, ?_⟩
      rw [Function.update_self]
      exact copies.mono (fun a _ _ => rfl) started (Nat.le_refl _)
    · obtain ⟨i', below, holds', copied⟩ := recorded.copied d' old
      refine ⟨i', Nat.lt_succ_of_lt below, holds', ?_⟩
      rw [Function.update_of_ne different]
      exact copied.mono kept (Nat.le_refl _) grown
  · intro d₁ d₂ other has₁ has₂
    rcases records d₁ has₁ with rfl | ⟨different₁, old₁⟩
    · rcases records d₂ has₂ with rfl | ⟨different₂, old₂⟩
      · exact absurd rfl other
      · obtain ⟨i', -, -, copied⟩ := recorded.copied d₂ old₂
        rw [Function.update_self, Function.update_of_ne different₂]
        exact (copied.apart copies (Nat.le_refl _)).2
    · obtain ⟨i', -, -, copied⟩ := recorded.copied d₁ old₁
      rw [Function.update_of_ne different₁]
      rcases records d₂ has₂ with rfl | ⟨different₂, old₂⟩
      · rw [Function.update_self]
        exact (copied.apart copies (Nat.le_refl _)).1
      · rw [Function.update_of_ne different₂]
        exact recorded.apart d₁ d₂ other old₁ old₂

theorem Progress.load (progress : disk.Progress kvbase start m i s) (isImage : disk.IsImage length)
    (tables : disk.Tables m (kvbase.toNat + start) nametab ptrs) (aligned : kvbase.toNat % sectSize = 0)
    (room : kvbase.toNat + start + span * (i + 2) < 2 ^ 64) (inside : i < disk.image.eShnum.toNat)
    (loaded : d ≠ .debugFrame) (holds : disk.Holds i d) :
    ∃ s', (∀ fuel, 2 ^ 29 ≤ fuel → s.load disk fuel kvbase (ptrs i) d = pure s') ∧
      disk.Progress kvbase start m (i + 1) s' ∧ disk.Stepped kvbase i s s' := by
  have whole := isImage.sections i inside d loaded holds
  have onDisk := isImage.onDisk
  have started := progress.started
  have bounded := progress.bounded
  have whole_ := progress.aligned
  rw [Nat.mul_add] at room
  rw [sectSize] at onDisk whole_ aligned
  have size : (disk.secthdr i).shSize.toNat ≤ 2 ^ 37 := by omega
  have few := sectors_bound (disk.secthdr i).shOffset.toNat size
  have one : 2 ^ 38 ≤ span := by decide
  have place : (kvbase + s.kvoffset).toNat = kvbase.toNat + s.kvoffset.toNat := by
    rw [BitVec.toNat_add, Nat.mod_eq_of_lt (by omega)]
  have above : (kvbase + s.kvoffset).toNat + 2 ^ 38 < 2 ^ 64 := by
    rw [place]
    omega
  have header : Binary.secthdrAt s.m (ptrs i) = disk.secthdr i :=
    (tables.keep fun a below => progress.outside a (.inl below)).secthdr isImage inside
  have read := fun fuel => @readseg_pure disk s.m fuel (kvbase + s.kvoffset) (disk.secthdr i).shSize
    (disk.secthdr i).shOffset s.kvoffset (by rw [place, sectSize]; omega) above size progress.aligned
  set n := sectors (disk.secthdr i).shSize.toNat (disk.secthdr i).shOffset.toNat with count
  set m' := sectorsAt disk (kvbase + s.kvoffset) ((disk.secthdr i).shOffset.toNat / sectSize + 1) n s.m with after
  have behind : (s.kvoffset + BitVec.ofNat 64 (sectSize * n)).toNat = s.kvoffset.toNat + sectSize * n :=
    Bytes.toNat_add_ofNat (by omega)
  have outside : ∀ a : Word, a.toNat < kvbase.toNat + s.kvoffset.toNat ∨
      kvbase.toNat + s.kvoffset.toNat + sectSize * n ≤ a.toNat → m' a = s.m a := by
    intro a beyond
    apply sectorsAt_outside
    · rw [place]
      omega
    · rwa [place]
  have header' : Binary.secthdrAt m' (ptrs i) = disk.secthdr i := by
    apply (tables.keep _).secthdr isImage inside
    intro a below
    rw [outside a (.inl (by omega))]
    exact progress.outside a (.inl below)
  have copies := @sectorsAt_copies disk s.m (kvbase + s.kvoffset) (disk.secthdr i) above
    (by rw [sectSize]; omega)
  rw [place, ← count, ← after] at copies
  refine ⟨⟨m', s.kvoffset + BitVec.ofNat 64 (sectSize * n), Function.update s.sectionInfo d
    ⟨kvbase + s.kvoffset + offsetCorrect (disk.secthdr i).shOffset, (disk.secthdr i).shSize⟩⟩, ?_, ?_, ?_⟩
  · intro fuel enough
    rw [Loading.load]
    dsimp only
    rw [header, read fuel enough, pure_bind]
    dsimp only
    rw [header']
  · refine ⟨?_, ?_, ?_, fun a beyond => ?_, ?_⟩
    · dsimp only
      rw [behind, sectSize]
      omega
    · dsimp only
      rw [behind]
      omega
    · dsimp only
      rw [behind, Nat.mul_succ]
      omega
    · dsimp only at beyond ⊢
      rw [behind] at beyond
      rw [outside a (by omega)]
      exact progress.outside a (by omega)
    · dsimp only
      rw [behind, ← Nat.add_assoc]
      exact progress.recorded.load holds copies (fun a _ below => outside a (.inl below)) (by omega) (by omega)
  · refine .load d _ _ loaded holds behind ?_ rfl rfl
    have part := Nat.mod_lt (disk.secthdr i).shOffset.toNat (show 0 < sectSize by decide)
    rw [sectSize] at part
    dsimp only
    rw [offsetCorrect_eq, Bytes.toNat_add_ofNat (by rw [sectSize]; omega), place]

theorem Progress.step (progress : disk.Progress kvbase start m i s) (isImage : disk.IsImage length)
    (tables : disk.Tables m (kvbase.toNat + start) nametab ptrs) (aligned : kvbase.toNat % sectSize = 0)
    (room : kvbase.toNat + start + span * (i + 2) < 2 ^ 64) (inside : i < disk.image.eShnum.toNat) :
    ∃ s', (∀ fuel, 2 ^ 29 ≤ fuel → Loading.step disk fuel kvbase nametab (ptrs i) s = pure s') ∧
      disk.Progress kvbase start m (i + 1) s' ∧ disk.Stepped kvbase i s s' := by
  have nonempty : disk.image.eShnum ≠ 0 := by
    intro none_
    rw [none_] at inside
    exact Nat.not_lt_zero i inside
  obtain ⟨name, named, within⟩ := isImage.named i inside
  have here := tables.keep fun a below => progress.outside a (.inl below)
  have string := here.nameAt isImage nonempty named within
  have compared : ∀ d : DebugSection, strcmp s.m (nametab + (disk.secthdr i).shName) (text d.dsName) = 0 ↔
      disk.Holds i d := by
    intro d
    rw [strcmp_eq_zero string (dsName_nonzero d)]
    constructor
    · rintro rfl
      exact named
    · exact fun holds => named.unique holds
  have whole : ¬ s.kvoffset % BitVec.ofNat 64 sectSize ≠ 0 := not_not.mpr ((mod_sect_eq_zero _).mpr progress.aligned)
  have load : ∀ d, d ≠ DebugSection.debugFrame → disk.Holds i d → ∃ s',
      (∀ fuel, 2 ^ 29 ≤ fuel → s.load disk fuel kvbase (ptrs i) d = pure s') ∧
        disk.Progress kvbase start m (i + 1) s' ∧ disk.Stepped kvbase i s s' :=
    fun d loaded holds => progress.load isImage tables aligned room inside loaded holds
  simp only [Loading.step, here.secthdr isImage inside, if_neg whole]
  by_cases info : disk.Holds i .debugInfo
  · simp only [if_pos ((compared _).mpr info)]
    exact load _ (by decide) info
  · simp only [if_neg (mt (compared _).mp info)]
    by_cases abbrev_ : disk.Holds i .debugAbbrev
    · simp only [if_pos ((compared _).mpr abbrev_)]
      exact load _ (by decide) abbrev_
    · simp only [if_neg (mt (compared _).mp abbrev_)]
      by_cases line : disk.Holds i .debugLine
      · simp only [if_pos ((compared _).mpr line)]
        exact load _ (by decide) line
      · simp only [if_neg (mt (compared _).mp line)]
        by_cases frame : disk.Holds i .debugFrame
        · simp only [if_pos ((compared _).mpr frame)]
          refine ⟨_, fun _ _ => rfl, progress.skip (fun d loaded holds => loaded (holds.unique frame)) rfl rfl
            fun d loaded => ?_, .frame frame⟩
          exact Function.update_of_ne loaded ..
        · simp only [if_neg (mt (compared _).mp frame)]
          by_cases str : disk.Holds i .debugStr
          · simp only [if_pos ((compared _).mpr str)]
            exact load _ (by decide) str
          · simp only [if_neg (mt (compared _).mp str)]
            have unnamed : ∀ d, ¬ disk.Holds i d := by
              intro d holds
              cases d with
              | debugInfo => exact info holds
              | debugAbbrev => exact abbrev_ holds
              | debugFrame => exact frame holds
              | debugLine => exact line holds
              | debugStr => exact str holds
            exact ⟨s, fun _ _ => rfl, progress.skip (fun d _ => unnamed d) rfl rfl fun _ _ => rfl, .skip unnamed⟩

theorem Progress.loop {num : Nat} {P : Nat → Loading → Prop}
    (kept : ∀ i < num, ∀ s s', P i s → disk.Stepped kvbase i s s' → P (i + 1) s') (initial : P 0 s)
    (progress : disk.Progress kvbase start m 0 s) (isImage : disk.IsImage length)
    (tables : disk.Tables m (kvbase.toNat + start) nametab ptrs) (aligned : kvbase.toNat % sectSize = 0)
    (room : kvbase.toNat + start + span * (disk.image.eShnum.toNat + 1) < 2 ^ 64)
    (few : num ≤ disk.image.eShnum.toNat) :
    ∃ s', (∀ fuel, 2 ^ 29 ≤ fuel →
        (List.range num).foldlM (fun s i => Loading.step disk fuel kvbase nametab (ptrs i) s) s = pure s') ∧
      disk.Progress kvbase start m num s' ∧ P num s' := by
  induction num with
  | zero => exact ⟨s, fun _ _ => rfl, progress, initial⟩
  | succ num ih =>
    obtain ⟨middle, before, progress', holds⟩ := ih (fun i below => kept i (by omega)) (by omega)
    have room' : kvbase.toNat + start + span * (num + 2) < 2 ^ 64 :=
      (Nat.add_le_add_left (Nat.mul_le_mul_left span (by omega)) _).trans_lt room
    obtain ⟨s', last, progress'', stepped⟩ := progress'.step isImage tables aligned room' (by omega)
    refine ⟨s', fun fuel enough => ?_, progress'', kept num (Nat.lt_succ_self num) _ _ holds stepped⟩
    rw [List.range_succ, List.foldlM_append, before fuel enough, pure_bind, List.foldlM_cons, last fuel enough,
      pure_bind]
    rfl

end Disk

end Jos
