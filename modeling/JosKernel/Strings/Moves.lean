import JosKernel.Arch.Mmu
import JosKernel.Lib.Bytes

namespace Jos

open Bytes

-- String instructions

inductive Direction
  | cld
  | std

def Direction.next (direction : Direction) (a : Word) (width : Nat) : Word :=
  match direction with
  | .cld => a + BitVec.ofNat 64 width
  | .std => a - BitVec.ofNat 64 width

/-- `rep movsb` and `rep movsl`, with the operand size in bytes and the value of rcx. -/
def repMovs (direction : Direction) (width : Nat) : Nat → Word → Word → Bytes.Memory 64 → Bytes.Memory 64
  | 0, _, _, m => m
  | count + 1, rdi, rsi, m =>
    repMovs direction width count (direction.next rdi width) (direction.next rsi width) (copy m rdi rsi width)

def storeLow (m : Bytes.Memory 64) (a : Word) (width : Nat) (value : BitVec 32) : Bytes.Memory 64 := fun x =>
  if Within a width x then (value >>> (8 * (x - a).toNat)).setWidth 8 else m x

/-- `rep stosb` and `rep stosl`. -/
def repStos (width : Nat) (eax : BitVec 32) : Nat → Word → Bytes.Memory 64 → Bytes.Memory 64
  | 0, _, m => m
  | count + 1, rdi, m => repStos width eax count (rdi + BitVec.ofNat 64 width) (storeLow m rdi width eax)

-- lib/string.c

/-- `(int64_t) a % 4 == 0` -/
def Aligned4 (a : Word) : Prop := a.toInt.tmod 4 = 0

instance (a : Word) : Decidable (Aligned4 a) := inferInstanceAs (Decidable (_ = _))

def memset (m : Bytes.Memory 64) (v : Word) (c : BitVec 32) (n : Word) : Word × Bytes.Memory 64 :=
  if n = 0 then (v, m)
  else if Aligned4 v ∧ n.toNat % 4 = 0 then
    let c := c &&& 0xFF
    let c := c <<< 24 ||| c <<< 16 ||| c <<< 8 ||| c
    (v, repStos 4 c (n.toNat / 4) v m)
  else (v, repStos 1 c n.toNat v m)

def memmove (m : Bytes.Memory 64) (dst src n : Word) : Word × Bytes.Memory 64 :=
  let s := src
  let d := dst
  if s < d ∧ s + n > d then
    let s := s + n
    let d := d + n
    if Aligned4 s ∧ Aligned4 d ∧ n.toNat % 4 = 0 then
      (dst, repMovs .std 4 (n.toNat / 4) (d - 4) (s - 4) m)
    else (dst, repMovs .std 1 n.toNat (d - 1) (s - 1) m)
  else if Aligned4 s ∧ Aligned4 d ∧ n.toNat % 4 = 0 then
    (dst, repMovs .cld 4 (n.toNat / 4) d s m)
  else (dst, repMovs .cld 1 n.toNat d s m)

def memcpy (m : Bytes.Memory 64) (dst src n : Word) : Word × Bytes.Memory 64 := memmove m dst src n

/-- `while (n-- > 0) *d++ = *s++;` -/
def copyUp : Nat → Word → Word → Bytes.Memory 64 → Bytes.Memory 64
  | 0, _, _, m => m
  | n + 1, d, s, m => copyUp n (d + 1) (s + 1) (Function.update m d (m s))

/-- `while (n-- > 0) *--d = *--s;` -/
def copyDown : Nat → Word → Word → Bytes.Memory 64 → Bytes.Memory 64
  | 0, _, _, m => m
  | n + 1, d, s, m => copyDown n (d - 1) (s - 1) (Function.update m (d - 1) (m (s - 1)))

def memmoveBytes (m : Bytes.Memory 64) (dst src n : Word) : Word × Bytes.Memory 64 :=
  if src < dst ∧ src + n > dst then (dst, copyDown n.toNat (dst + n) (src + n) m)
  else (dst, copyUp n.toNat dst src m)

/-- `while (--m >= 0) *p++ = c;` -/
def fillUp (c : BitVec 32) : Nat → Word → Bytes.Memory 64 → Bytes.Memory 64
  | 0, _, m => m
  | n + 1, p, m => fillUp c n (p + 1) (Function.update m p (c.setWidth 8))

/-- `memset` without string instructions. The counter is an int. -/
def memsetBytes (m : Bytes.Memory 64) (v : Word) (c : BitVec 32) (n : Word) : Word × Bytes.Memory 64 :=
  (v, fillUp c (n.setWidth 32).toInt.toNat v m)

-- What the string instructions do

section Instructions

variable {m : Bytes.Memory 64} {dst src : Word} {width count : Nat}

theorem repMovs_cld (positive : 0 < width) (fitsDst : Fits dst (width * count)) (fitsSrc : Fits src (width * count))
    (order : dst.toNat ≤ src.toNat ∨ src.toNat + width * count ≤ dst.toNat) :
    repMovs .cld width count dst src m = copy m dst src (width * count) := by
  induction count generalizing m dst src with
  | zero => exact copy_zero.symm
  | succ count ih =>
    have total : width * (count + 1) = width + width * count := by rw [Nat.mul_succ, Nat.add_comm]
    rw [total] at fitsDst fitsSrc order ⊢
    have step : repMovs .cld width (count + 1) dst src m =
        repMovs .cld width count (dst + BitVec.ofNat 64 width) (src + BitVec.ofNat 64 width) (copy m dst src width) := rfl
    rw [step, ← copy_front fitsDst fitsSrc order]
    cases count with
    | zero => exact copy_zero.symm
    | succ count =>
      have some : 0 < width * (count + 1) := Nat.mul_pos positive (Nat.succ_pos count)
      apply ih fitsDst.back fitsSrc.back
      rw [Fits] at fitsDst fitsSrc
      rw [toNat_add_ofNat (by omega), toNat_add_ofNat (by omega)]
      omega

theorem repMovs_std (fitsDst : Fits dst (width * count)) (fitsSrc : Fits src (width * count))
    (order : src.toNat ≤ dst.toNat) :
    repMovs .std width count (dst + BitVec.ofNat 64 (width * count) - BitVec.ofNat 64 width)
        (src + BitVec.ofNat 64 (width * count) - BitVec.ofNat 64 width) m = copy m dst src (width * count) := by
  induction count generalizing m with
  | zero => exact copy_zero.symm
  | succ count ih =>
    have total : width * (count + 1) = width * count + width := Nat.mul_succ ..
    have top : ∀ a : Word, a + BitVec.ofNat 64 (width * count + width) - BitVec.ofNat 64 width =
        a + BitVec.ofNat 64 (width * count) := by
      intro a
      rw [BitVec.ofNat_add]
      abel
    rw [total] at fitsDst fitsSrc ⊢
    rw [top, top, repMovs, Direction.next, Direction.next, ih fitsDst.front fitsSrc.front, copy_back fitsDst fitsSrc order]

theorem storeLow_byte (m : Bytes.Memory 64) (a : Word) (value : BitVec 32) :
    storeLow m a 1 value = fill m a (value.setWidth 8) 1 := by
  funext x
  rw [storeLow, fill]
  apply ite_congr rfl
  · intro within
    have low := within.1
    have high := within.2
    rw [toNat_sub_of_le low, show x.toNat - a.toNat = 0 by omega]
    rfl
  · exact fun _ => rfl

def spread (c : BitVec 32) : BitVec 32 :=
  (c &&& 0xFF) <<< 24 ||| (c &&& 0xFF) <<< 16 ||| (c &&& 0xFF) <<< 8 ||| (c &&& 0xFF)

theorem spread_byte (c : BitVec 32) {i : Nat} (inside : i < 4) :
    (spread c >>> (8 * i)).setWidth 8 = c.setWidth 8 := by
  apply BitVec.eq_of_getLsbD_eq
  intro b small
  have ones : ∀ n, (0xFF : BitVec 32).getLsbD n = decide (n < 8) := by
    intro n
    by_cases within : n < 32
    · have table : ∀ n : Fin 32, (0xFF : BitVec 32).getLsbD n = decide (n.val < 8) := by decide
      exact table ⟨n, within⟩
    · rw [BitVec.getLsbD_of_ge _ _ (by omega), eq_comm, decide_eq_false_iff_not]
      omega
  simp only [spread, BitVec.getLsbD_setWidth, BitVec.getLsbD_ushiftRight, BitVec.getLsbD_or, BitVec.getLsbD_and,
    BitVec.getLsbD_shiftLeft, ones, small, decide_true, Bool.true_and]
  have cases : i = 0 ∨ i = 1 ∨ i = 2 ∨ i = 3 := by omega
  rcases cases with rfl | rfl | rfl | rfl <;> grind

theorem storeLow_spread (m : Bytes.Memory 64) (a : Word) (c : BitVec 32) :
    storeLow m a 4 (spread c) = fill m a (c.setWidth 8) 4 := by
  funext x
  rw [storeLow, fill]
  apply ite_congr rfl
  · intro within
    have low := within.1
    have high := within.2
    rw [toNat_sub_of_le low]
    exact spread_byte c (by omega)
  · exact fun _ => rfl

theorem repStos_fill {value : BitVec 32} {byte : BitVec 8}
    (stores : ∀ m a, storeLow m a width value = fill m a byte width) (fits : Fits dst (width * count)) :
    repStos width value count dst m = fill m dst byte (width * count) := by
  induction count generalizing m dst with
  | zero => exact fill_zero.symm
  | succ count ih =>
    have total : width * (count + 1) = width + width * count := by rw [Nat.mul_succ, Nat.add_comm]
    rw [total] at fits ⊢
    rw [repStos, stores, ih fits.back, fill_front fits]

end Instructions

-- The loops without string instructions

section Loops

theorem within_one {a x : Word} : Within a 1 x ↔ x = a := by
  rw [Within, ← BitVec.toNat_inj]
  omega

theorem update_copy (m : Bytes.Memory 64) (dst src : Word) : Function.update m dst (m src) = copy m dst src 1 := by
  funext x
  rw [Function.update_apply, copy]
  apply ite_congr (propext within_one.symm)
  · intro same
    rw [within_one.mp same, sub_self, add_zero]
  · exact fun _ => rfl

theorem copyUp_movs (n : Nat) (dst src : Word) (m : Bytes.Memory 64) :
    copyUp n dst src m = repMovs .cld 1 n dst src m := by
  induction n generalizing m dst src with
  | zero => rfl
  | succ n ih =>
    rw [copyUp, repMovs, ih, update_copy]
    rfl

theorem copyDown_movs (n : Nat) (dst src : Word) (m : Bytes.Memory 64) :
    copyDown n dst src m = repMovs .std 1 n (dst - 1) (src - 1) m := by
  induction n generalizing m dst src with
  | zero => rfl
  | succ n ih =>
    rw [copyDown, repMovs, ih, update_copy]
    rfl

theorem fillUp_stos (c : BitVec 32) (n : Nat) (p : Word) (m : Bytes.Memory 64) : fillUp c n p m = repStos 1 c n p m := by
  induction n generalizing m p with
  | zero => rfl
  | succ n ih =>
    have one : Function.update m p (c.setWidth 8) = storeLow m p 1 c := by
      rw [storeLow_byte]
      funext x
      rw [Function.update_apply, fill]
      exact if_congr within_one.symm rfl rfl
    rw [fillUp, repStos, ih, one]
    rfl

end Loops

-- The routines

section Routines

variable (m : Bytes.Memory 64) {dst src n : Word}

theorem four_mul {n : Word} (whole : n.toNat % 4 = 0) : 4 * (n.toNat / 4) = n.toNat := by omega

theorem order_of_forward (fitsDst : Fits dst n.toNat) (front : ¬ (src < dst ∧ src + n > dst)) :
    dst.toNat ≤ src.toNat ∨ src.toNat + n.toNat ≤ dst.toNat := by
  rw [Fits] at fitsDst
  rw [gt_iff_lt, BitVec.lt_def, BitVec.lt_def, BitVec.toNat_add] at front
  rcases Nat.lt_or_ge src.toNat dst.toNat with low | high
  · rw [Nat.mod_eq_of_lt (by omega)] at front
    omega
  · exact .inl high

theorem movsb_cld (fitsDst : Fits dst n.toNat) (fitsSrc : Fits src n.toNat)
    (order : dst.toNat ≤ src.toNat ∨ src.toNat + n.toNat ≤ dst.toNat) :
    repMovs .cld 1 n.toNat dst src m = copy m dst src n.toNat := by
  have moved := @repMovs_cld m dst src 1 n.toNat Nat.one_pos
  rw [Nat.one_mul] at moved
  exact moved fitsDst fitsSrc order

theorem movsb_std (fitsDst : Fits dst n.toNat) (fitsSrc : Fits src n.toNat) (order : src < dst) :
    repMovs .std 1 n.toNat (dst + n - 1) (src + n - 1) m = copy m dst src n.toNat := by
  have moved := @repMovs_std m dst src 1 n.toNat
  rw [Nat.one_mul, BitVec.ofNat_toNat] at moved
  exact moved fitsDst fitsSrc (Nat.le_of_lt order)

/-- `memmove` leaves at `dst` what was at `src`, and all other bytes as they were. -/
theorem memmove_copy (fitsDst : Fits dst n.toNat) (fitsSrc : Fits src n.toNat) :
    memmove m dst src n = (dst, copy m dst src n.toNat) := by
  rw [memmove]
  split
  · rename_i back
    dsimp only
    split
    · rename_i aligned
      have total := four_mul aligned.2.2
      have moved := @repMovs_std m dst src 4 (n.toNat / 4)
      rw [total, BitVec.ofNat_toNat] at moved
      exact congrArg (Prod.mk dst) (moved fitsDst fitsSrc (Nat.le_of_lt back.1))
    · exact congrArg (Prod.mk dst) (movsb_std m fitsDst fitsSrc back.1)
  · rename_i front
    have order := order_of_forward fitsDst front
    split
    · rename_i aligned
      have total := four_mul aligned.2.2
      have moved := @repMovs_cld m dst src 4 (n.toNat / 4) (by decide)
      rw [total] at moved
      exact congrArg (Prod.mk dst) (moved fitsDst fitsSrc order)
    · exact congrArg (Prod.mk dst) (movsb_cld m fitsDst fitsSrc order)

theorem memmoveBytes_copy (fitsDst : Fits dst n.toNat) (fitsSrc : Fits src n.toNat) :
    memmoveBytes m dst src n = (dst, copy m dst src n.toNat) := by
  rw [memmoveBytes]
  split
  · rename_i back
    rw [copyDown_movs, movsb_std m fitsDst fitsSrc back.1]
  · rename_i front
    rw [copyUp_movs, movsb_cld m fitsDst fitsSrc (order_of_forward fitsDst front)]

theorem memset_fill (c : BitVec 32) (fits : Fits dst n.toNat) :
    memset m dst c n = (dst, fill m dst (c.setWidth 8) n.toNat) := by
  rw [memset]
  split
  · rename_i zero
    rw [zero]
    exact congrArg (Prod.mk dst) fill_zero.symm
  · split
    · rename_i aligned
      have total := four_mul aligned.2
      have filled := repStos_fill (fun m a => storeLow_spread m a c) (by rwa [total]) (m := m)
      rw [total] at filled
      exact congrArg (Prod.mk dst) filled
    · rw [repStos_fill (fun m a => storeLow_byte m a c) (by rwa [Nat.one_mul]), Nat.one_mul]

theorem memsetBytes_fill (c : BitVec 32) (small : n.toNat < 2^31) (fits : Fits dst n.toNat) :
    memsetBytes m dst c n = (dst, fill m dst (c.setWidth 8) n.toNat) := by
  have counter : (n.setWidth 32).toInt.toNat = n.toNat := by
    rw [BitVec.toInt_eq_toNat_of_lt, BitVec.toNat_setWidth, Nat.mod_eq_of_lt (by omega)]
    · rfl
    · rw [BitVec.toNat_setWidth, Nat.mod_eq_of_lt (by omega)]
      omega
  rw [memsetBytes, counter, fillUp_stos,
    repStos_fill (fun m a => storeLow_byte m a c) (by rwa [Nat.one_mul]), Nat.one_mul]

/-- The word-wise routines do what the byte-wise ones do. -/
theorem string_routines_exact (c : BitVec 32) (fitsDst : Fits dst n.toNat) (fitsSrc : Fits src n.toNat) :
    memmove m dst src n = (dst, copy m dst src n.toNat) ∧ memcpy m dst src n = (dst, copy m dst src n.toNat) ∧
      memmoveBytes m dst src n = (dst, copy m dst src n.toNat) ∧
      memset m dst c n = (dst, fill m dst (c.setWidth 8) n.toNat) :=
  ⟨memmove_copy m fitsDst fitsSrc, memmove_copy m fitsDst fitsSrc, memmoveBytes_copy m fitsDst fitsSrc,
    memset_fill m c fitsDst⟩

end Routines

theorem string_routines_exact_overlap :
    let m : Bytes.Memory 64 := fun a => a.setWidth 8
    memmove m 0x1004 0x1000 8 = (0x1004, copy m 0x1004 0x1000 8) ∧
      memcpy m 0x1004 0x1000 8 = (0x1004, copy m 0x1004 0x1000 8) ∧
      memmoveBytes m 0x1004 0x1000 8 = (0x1004, copy m 0x1004 0x1000 8) ∧
      memset m 0x1004 0x1FF 8 = (0x1004, fill m 0x1004 0xFF 8) :=
  @string_routines_exact (fun a => a.setWidth 8) 0x1004 0x1000 8 0x1FF (by decide) (by decide)

end Jos
