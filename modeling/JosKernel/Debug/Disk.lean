import JosKernel.Lib.Bytes
import JosKernel.Pmap.DebugSections

namespace Jos

abbrev Disk := Nat → Nat → BitVec 8

namespace Disk

-- kern/elf_rw.c

def lba (offset : Word) : Nat :=
  let head : BitVec 8 := (offset >>> 24).setWidth 8 ||| 0xE0
  let high : BitVec 8 := (offset >>> 16).setWidth 8
  let mid : BitVec 8 := (offset >>> 8).setWidth 8
  let low : BitVec 8 := offset.setWidth 8
  ((head &&& 0x0F) ++ high ++ mid ++ low).toNat

def readsect (disk : Disk) (dst offset : Word) (m : Bytes.Memory 64) : Bytes.Memory 64 := fun a =>
  if (a - dst).toNat < sectSize then disk (lba offset) (a - dst).toNat else m a

structure Reading where
  m : Bytes.Memory 64
  pa : Word
  offset : Word
  kvoffset : Word

/-- Read the sector at `offset`, without going on to the next. -/
def Reading.read (disk : Disk) (s : Reading) : Reading :=
  { s with m := readsect disk s.pa s.offset s.m, kvoffset := s.kvoffset + BitVec.ofNat 64 sectSize }

def Reading.loop (disk : Disk) (endPa : Word) : Nat → Reading → Option Reading
  | 0, _ => none
  | fuel + 1, s =>
    if s.pa < endPa then
      let s := s.read disk
      loop disk endPa fuel { s with pa := s.pa + BitVec.ofNat 64 sectSize, offset := s.offset + 1 }
    else some s

def readseg (disk : Disk) (fuel : Nat) (m : Bytes.Memory 64) (pa count offset kvoffset : Word) :
    Option (Except Stop (Bytes.Memory 64 × Word)) :=
  let sect := BitVec.ofNat 64 sectSize
  let endPa := pa + count
  if pa % sect ≠ 0 then some (.error .panic)
  else do
    let s ← Reading.loop disk endPa fuel ⟨m, pa &&& ~~~(sect - 1), offset / sect + 1, kvoffset⟩
    let s := if offset % sect + count > sect then s.read disk else s
    some (if s.kvoffset % sect = 0 then .ok (s.m, s.kvoffset) else .error .panic)

-- What is read

def byte (disk : Disk) (offset : Nat) : BitVec 8 := disk (offset / sectSize + 1) (offset % sectSize)

/-- `n` sectors from `first` on are at `pa`. -/
def sectorsAt (disk : Disk) (pa : Word) (first : Nat) (n : Nat) (m : Bytes.Memory 64) : Bytes.Memory 64 := fun a =>
  if (a - pa).toNat < sectSize * n then
    disk (lba (BitVec.ofNat 64 (first + (a - pa).toNat / sectSize))) ((a - pa).toNat % sectSize)
  else m a

variable {disk : Disk} {m : Bytes.Memory 64} {pa count offset kvoffset : Word} {first n fuel : Nat}

theorem toNat_append_byte {w : Nat} (x : BitVec w) (y : BitVec 8) : (x ++ y).toNat = x.toNat * 256 + y.toNat := by
  rw [BitVec.toNat_append, ← Nat.shiftLeft_add_eq_or_of_lt y.isLt, Nat.shiftLeft_eq]

theorem lba_of_lt (small : offset.toNat < 2 ^ 28) : lba offset = offset.toNat := by
  have masked : ∀ x : BitVec 8, x.toNat < 16 → (x ||| 0xE0) &&& 0x0F = x := by decide +kernel
  rw [lba, masked, toNat_append_byte, toNat_append_byte, toNat_append_byte]
  · simp only [BitVec.toNat_setWidth, BitVec.toNat_ushiftRight, Nat.shiftRight_eq_div_pow]
    omega
  · simp only [BitVec.toNat_setWidth, BitVec.toNat_ushiftRight, Nat.shiftRight_eq_div_pow]
    omega

theorem sectorsAt_zero : sectorsAt disk pa first 0 m = m := by
  funext a
  exact if_neg (Nat.not_lt_zero _)

theorem toNat_sub_add (a pa : Word) {k : Nat} (small : k < 2 ^ 64) : (a - (pa + BitVec.ofNat 64 k)).toNat =
    (2 ^ 64 - k + (a - pa).toNat) % 2 ^ 64 := by
  rw [sub_add_eq_sub_sub, BitVec.toNat_sub, BitVec.toNat_ofNat, Nat.mod_eq_of_lt small]

theorem sectorsAt_succ (small : sectSize * (n + 1) ≤ 2 ^ 64) :
    readsect disk (pa + BitVec.ofNat 64 (sectSize * n)) (BitVec.ofNat 64 (first + n)) (sectorsAt disk pa first n m) =
      sectorsAt disk pa first (n + 1) m := by
  funext a
  have bound := (a - pa).isLt
  have shifted := toNat_sub_add a pa (k := sectSize * n) (by rw [sectSize] at small ⊢; omega)
  rw [readsect, sectorsAt, sectorsAt]
  rw [sectSize] at small shifted ⊢
  by_cases early : (a - pa).toNat < 512 * n
  · have outside : ¬ (a - (pa + BitVec.ofNat 64 (512 * n))).toNat < 512 := by
      rw [shifted, Nat.mod_eq_of_lt (by omega)]
      omega
    rw [if_neg outside, if_pos early, if_pos (by omega)]
  · have place : (a - (pa + BitVec.ofNat 64 (512 * n))).toNat = (a - pa).toNat - 512 * n := by
      rw [shifted, show 2 ^ 64 - 512 * n + (a - pa).toNat = 2 ^ 64 + ((a - pa).toNat - 512 * n) by omega,
        Nat.add_mod_left, Nat.mod_eq_of_lt (by omega)]
    rw [place]
    by_cases here : (a - pa).toNat < 512 * (n + 1)
    · have sector : (a - pa).toNat / 512 = n := by omega
      have inside : (a - pa).toNat - 512 * n = (a - pa).toNat % 512 := by omega
      rw [if_pos (by omega), if_pos here, sector, inside]
    · rw [if_neg (by omega), if_neg early, if_neg here]

def Reading.after (disk : Disk) (m : Bytes.Memory 64) (pa : Word) (first : Nat) (kvoffset : Word) (n : Nat) : Reading where
  m := sectorsAt disk pa first n m
  pa := pa + BitVec.ofNat 64 (sectSize * n)
  offset := BitVec.ofNat 64 (first + n)
  kvoffset := kvoffset + BitVec.ofNat 64 (sectSize * n)

theorem add_ofNat_succ (a : Word) (n : Nat) : a + BitVec.ofNat 64 (sectSize * n) + BitVec.ofNat 64 sectSize =
    a + BitVec.ofNat 64 (sectSize * (n + 1)) := by
  rw [BitVec.add_assoc, ← BitVec.ofNat_add, Nat.mul_succ]

theorem read_after (small : sectSize * (n + 1) ≤ 2 ^ 64) : (Reading.after disk m pa first kvoffset n).read disk =
    { Reading.after disk m pa first kvoffset n with
      m := sectorsAt disk pa first (n + 1) m
      kvoffset := kvoffset + BitVec.ofNat 64 (sectSize * (n + 1)) } := by
  rw [Reading.read, Reading.after]
  dsimp only
  rw [sectorsAt_succ small, add_ofNat_succ]

theorem loop_reads {endPa : Word} {i : Nat} (started : i ≤ n)
    (below : ∀ j < n, pa + BitVec.ofNat 64 (sectSize * j) < endPa)
    (stop : ¬ pa + BitVec.ofNat 64 (sectSize * n) < endPa) (small : sectSize * n ≤ 2 ^ 64) (enough : n < fuel + i) :
    Reading.loop disk endPa fuel (.after disk m pa first kvoffset i) = some (.after disk m pa first kvoffset n) := by
  induction fuel generalizing i with
  | zero => omega
  | succ fuel ih =>
    rw [Reading.loop]
    rcases Nat.eq_or_lt_of_le started with rfl | more
    · exact if_neg stop
    · have room : sectSize * (i + 1) ≤ 2 ^ 64 := (Nat.mul_le_mul_left _ more).trans small
      have goesOn : (Reading.after disk m pa first kvoffset i).pa < endPa := below i more
      rw [if_pos goesOn, read_after room, ← ih (show i + 1 ≤ n from more) (by omega)]
      dsimp only [Reading.after]
      rw [add_ofNat_succ, ← Nat.add_assoc, BitVec.ofNat_add (first + i)]
      rfl

theorem rounded (aligned : pa.toNat % sectSize = 0) : pa &&& ~~~(BitVec.ofNat 64 sectSize - 1) = pa := by
  apply BitVec.eq_of_getLsbD_eq
  intro i inside
  have mask : BitVec.ofNat 64 sectSize - 1 = BitVec.ofNat 64 (2 ^ 9 - 1) := by decide
  rw [mask, BitVec.getLsbD_and, BitVec.getLsbD_not, BitVec.getLsbD_ofNat, Nat.testBit_two_pow_sub_one]
  by_cases low : i < 9
  · obtain ⟨q, multiple⟩ := Nat.dvd_of_mod_eq_zero aligned
    rw [BitVec.getLsbD, multiple, show sectSize = 2 ^ 9 from rfl, Nat.testBit_two_pow_mul]
    simp [low]
  · simp [low, inside]

theorem toNat_mod_sect (a : Word) : (a % BitVec.ofNat 64 sectSize).toNat = a.toNat % sectSize := by
  rw [BitVec.toNat_umod]
  rfl

theorem mod_sect_eq_zero (a : Word) : a % BitVec.ofNat 64 sectSize = 0 ↔ a.toNat % sectSize = 0 := by
  rw [← toNat_mod_sect, ← BitVec.toNat_inj]
  rfl

theorem readseg_sectors (aligned : pa.toNat % sectSize = 0)
    (noWrap : pa.toNat + sectSize * ((count.toNat + (sectSize - 1)) / sectSize) < 2 ^ 64)
    (enough : (count.toNat + (sectSize - 1)) / sectSize < fuel) :
    readseg disk fuel m pa count offset kvoffset =
      some (if kvoffset.toNat % sectSize = 0 then
        .ok (sectorsAt disk pa (offset.toNat / sectSize + 1) (sectors count.toNat offset.toNat) m,
          kvoffset + BitVec.ofNat 64 (sectSize * sectors count.toNat offset.toNat))
      else .error .panic) := by
  have zero := (mod_sect_eq_zero pa).mpr aligned
  rw [readseg]
  dsimp only
  rw [if_neg (not_not.mpr zero), rounded aligned]
  generalize whole : (count.toNat + (sectSize - 1)) / sectSize = n at noWrap enough
  have ceil : n * sectSize ≥ count.toNat ∧ n * sectSize < count.toNat + sectSize := by
    rw [← whole, sectSize]
    omega
  rw [sectSize] at ceil noWrap
  have first : offset / BitVec.ofNat 64 sectSize + 1 = BitVec.ofNat 64 (offset.toNat / sectSize + 1) := by
    rw [BitVec.ofNat_add]
    congr 1
    apply BitVec.eq_of_toNat_eq
    rw [BitVec.toNat_udiv, BitVec.toNat_ofNat (x := offset.toNat / sectSize),
      Nat.mod_eq_of_lt ((Nat.div_le_self ..).trans_lt offset.isLt)]
    rfl
  have start : (⟨m, pa, offset / BitVec.ofNat 64 sectSize + 1, kvoffset⟩ : Reading) =
      .after disk m pa (offset.toNat / sectSize + 1) kvoffset 0 := by
    rw [Reading.after, sectorsAt_zero, Nat.mul_zero, BitVec.add_zero, BitVec.add_zero, first, Nat.add_zero]
  have place : ∀ j ≤ n, (pa + BitVec.ofNat 64 (sectSize * j)).toNat = pa.toNat + 512 * j := by
    intro j within
    rw [sectSize]
    exact Bytes.toNat_add_ofNat (by omega)
  have last : (pa + count).toNat = pa.toNat + count.toNat := by
    rw [BitVec.toNat_add, Nat.mod_eq_of_lt (by omega)]
  have below : ∀ j < n, pa + BitVec.ofNat 64 (sectSize * j) < pa + count := by
    intro j within
    rw [BitVec.lt_def, place j within.le, last]
    omega
  have stop : ¬ pa + BitVec.ofNat 64 (sectSize * n) < pa + count := by
    rw [BitVec.lt_def, place n (Nat.le_refl n), last]
    omega
  have loop := @loop_reads disk m pa kvoffset (offset.toNat / sectSize + 1) n fuel (pa + count) 0 (Nat.zero_le n)
    below stop (by rw [sectSize]; omega) (by omega)
  have extra : offset % BitVec.ofNat 64 sectSize + count > BitVec.ofNat 64 sectSize ↔
      sectSize < offset.toNat % sectSize + count.toNat := by
    have part := Nat.mod_lt offset.toNat (show 0 < 512 by decide)
    rw [gt_iff_lt, BitVec.lt_def, BitVec.toNat_add, toNat_mod_sect, sectSize, Nat.mod_eq_of_lt (by omega)]
    rfl
  have count_ : sectors count.toNat offset.toNat = n + if sectSize < offset.toNat % sectSize + count.toNat then 1 else 0 := by
    rw [sectors, whole]
  have kept : ∀ k, (kvoffset + BitVec.ofNat 64 (sectSize * k)) % BitVec.ofNat 64 sectSize = 0 ↔
      kvoffset.toNat % sectSize = 0 := by
    intro k
    rw [mod_sect_eq_zero, BitVec.toNat_add, BitVec.toNat_ofNat, sectSize]
    omega
  rw [start, loop, Option.bind_eq_bind, Option.bind_some, count_]
  by_cases more : sectSize < offset.toNat % sectSize + count.toNat
  · rw [if_pos (extra.mpr more), if_pos more, read_after (by rw [sectSize]; omega)]
    simp only [kept]
  · rw [if_neg fun other => more (extra.mp other), if_neg more, Reading.after]
    simp only [kept, Nat.add_zero]

-- What is covered

theorem sectors_cover {count : Nat} (offset : Nat) (some_ : 0 < count) :
    offset % sectSize + count ≤ sectSize * sectors count offset := by
  rw [sectors, sectSize]
  split <;> omega

theorem toNat_add_sub (a : Word) {i : Nat} (small : i < 2 ^ 64) : (a + BitVec.ofNat 64 i - a).toNat = i := by
  rw [BitVec.add_comm, BitVec.add_sub_cancel, BitVec.toNat_ofNat, Nat.mod_eq_of_lt small]

theorem sectorsAt_stored {i : Nat} (inside : i < sectSize * n) (small : sectSize * n ≤ 2 ^ 64) :
    sectorsAt disk pa first n m (pa + BitVec.ofNat 64 i) =
      disk (lba (BitVec.ofNat 64 (first + i / sectSize))) (i % sectSize) := by
  rw [sectorsAt, toNat_add_sub pa (inside.trans_le small), if_pos inside]

/-- What was asked for is there, where its sectors have numbers that the disk knows. -/
theorem sectorsAt_image {offset j : Nat} (inside : offset % sectSize + j < sectSize * n) (small : sectSize * n ≤ 2 ^ 64)
    (onDisk : offset + j < sectSize * (2 ^ 28 - 1)) :
    sectorsAt disk pa (offset / sectSize + 1) n m (pa + BitVec.ofNat 64 (offset % sectSize + j)) =
      disk.byte (offset + j) := by
  rw [sectSize] at onDisk
  have sector : offset / sectSize + 1 + (offset % sectSize + j) / sectSize = (offset + j) / sectSize + 1 := by
    rw [sectSize]
    omega
  have place : (offset % sectSize + j) % sectSize = (offset + j) % sectSize := by rw [Nat.mod_add_mod]
  have small_ : (BitVec.ofNat 64 ((offset + j) / sectSize + 1)).toNat = (offset + j) / sectSize + 1 := by
    rw [BitVec.toNat_ofNat, Nat.mod_eq_of_lt (by rw [sectSize]; omega)]
  rw [sectorsAt_stored inside small, sector, place, lba_of_lt (by rw [small_, sectSize]; omega), small_]
  rfl

theorem sectorsAt_outside (small : pa.toNat + sectSize * n ≤ 2 ^ 64) {a : Word}
    (outside : a.toNat < pa.toNat ∨ pa.toNat + sectSize * n ≤ a.toNat) : sectorsAt disk pa first n m a = m a := by
  apply if_neg
  have bound := a.isLt
  rw [BitVec.toNat_sub]
  omega

/-- What `readseg` reads covers what it is asked for, and `*kvoffset` counts it. Where `*kvoffset` is not a multiple
    of the sector size, the assertion at the end fails. -/
theorem readseg_covers (disk : Disk) (m : Bytes.Memory 64) (pa count offset kvoffset : Word)
    (aligned : pa.toNat % sectSize = 0) (onDisk : offset.toNat + count.toNat ≤ sectSize * (2 ^ 28 - 1))
    (noWrap : pa.toNat + sectSize * ((count.toNat + (sectSize - 1)) / sectSize) < 2 ^ 64) :
    ∃ n m', (∀ fuel, (count.toNat + (sectSize - 1)) / sectSize < fuel →
        readseg disk fuel m pa count offset kvoffset =
          some (if kvoffset.toNat % sectSize = 0 then .ok (m', kvoffset + BitVec.ofNat 64 (sectSize * n))
            else .error .panic)) ∧
      (∀ i < sectSize * n, m' (pa + BitVec.ofNat 64 i) =
        disk (lba (BitVec.ofNat 64 (offset.toNat / sectSize + 1 + i / sectSize))) (i % sectSize)) ∧
      (∀ j < count.toNat, m' (pa + BitVec.ofNat 64 (offset.toNat % sectSize + j)) = disk.byte (offset.toNat + j)) ∧
      ∀ a : Word, a.toNat < pa.toNat ∨ pa.toNat + sectSize * n ≤ a.toNat → m' a = m a := by
  have room : pa.toNat + sectSize * sectors count.toNat offset.toNat ≤ 2 ^ 64 := by
    rw [sectors]
    rw [sectSize] at aligned noWrap ⊢
    split <;> omega
  refine ⟨sectors count.toNat offset.toNat,
    sectorsAt disk pa (offset.toNat / sectSize + 1) (sectors count.toNat offset.toNat) m,
    fun fuel enough => readseg_sectors aligned noWrap enough, fun i inside => ?_, fun j inside => ?_, fun a outside => ?_⟩
  · exact sectorsAt_stored inside (by omega)
  · have cover := sectors_cover offset.toNat (Nat.zero_lt_of_lt inside)
    exact sectorsAt_image (by omega) (by omega) (by omega)
  · exact sectorsAt_outside room outside

theorem readseg_covers_straddling : ∃ n m',
    readseg (fun sector i => BitVec.ofNat 8 (sector + i)) 2 (fun _ => 0) 0x200000 2 511 0 =
      some (.ok (m', 0 + BitVec.ofNat 64 (sectSize * n))) ∧ m' 0x2001FF = 0 ∧ m' 0x200200 = 2 := by
  obtain ⟨n, m', done, -, image, -⟩ := readseg_covers (fun sector i => BitVec.ofNat 8 (sector + i)) (fun _ => 0) 0x200000
    2 511 0 (by decide) (by decide) (by decide)
  exact ⟨n, m', done 2 (by decide), image 0 (by decide), image 1 (by decide)⟩

end Disk

end Jos
