import Mathlib.Logic.Function.Basic
import JosKernel.Console.Decimal
import JosKernel.Pmap.Memory

namespace Jos.Format

-- Writing to memory

def storeAll (bytes : Word → Byte) : Word → List Byte → Word → Byte
  | _, [] => bytes
  | va, ch :: chars => storeAll (Function.update bytes va ch) (va + 1) chars

theorem step_address (va : Word) (i : Nat) : va + BitVec.ofNat 64 (i + 1) = va + 1 + BitVec.ofNat 64 i := by
  rw [Nat.add_comm, BitVec.ofNat_add, BitVec.add_assoc]
  rfl

theorem storeAll_other {bytes : Word → Byte} {va other : Word} {chars : List Byte}
    (outside : ∀ i < chars.length, other ≠ va + BitVec.ofNat 64 i) : storeAll bytes va chars other = bytes other := by
  induction chars generalizing va bytes with
  | nil => rfl
  | cons ch chars ih =>
    have here : other ≠ va := by simpa using outside 0 (by simp)
    rw [storeAll, ih fun i small => ?_, Function.update_of_ne here]
    rw [← step_address]
    exact outside (i + 1) (by simpa using small)

theorem offset_inj {va : Word} {i j : Nat} (small : i < 2 ^ 64) (small' : j < 2 ^ 64)
    (same : va + BitVec.ofNat 64 i = va + BitVec.ofNat 64 j) : i = j := by
  have offsets := congrArg BitVec.toNat (add_left_cancel same)
  rwa [BitVec.toNat_ofNat, BitVec.toNat_ofNat, Nat.mod_eq_of_lt small, Nat.mod_eq_of_lt small'] at offsets

theorem storeAll_at {bytes : Word → Byte} {va : Word} {chars : List Byte} (short : chars.length ≤ 2 ^ 64) {i : Nat}
    (inside : i < chars.length) : storeAll bytes va chars (va + BitVec.ofNat 64 i) = chars[i] := by
  induction chars generalizing va bytes i with
  | nil => exact absurd inside (Nat.not_lt_zero i)
  | cons ch chars ih =>
    rw [List.length_cons] at short inside
    cases i with
    | zero =>
      rw [storeAll, storeAll_other]
      · simp
      · intro j small same
        rw [← step_address] at same
        have := offset_inj (by omega) (by omega) same
        omega
    | succ i =>
      rw [storeAll, step_address, ih (by omega) (by omega)]
      rfl

-- lib/printfmt.c

structure SprintBuf where
  buf : Word
  ebuf : Word
  cnt : BitVec 32
  bytes : Word → Byte

def sprintputch (ch : BitVec 32) (b : SprintBuf) : SprintBuf :=
  if b.buf < b.ebuf then
    { b with cnt := b.cnt + 1, bytes := Function.update b.bytes b.buf (ch.setWidth 8), buf := b.buf + 1 }
  else { b with cnt := b.cnt + 1 }

def vsnprintf (mem : Loads) (buf : Word) (n : BitVec 32) (fmt : CString) (args : Nat → Word) (bytes : Word → Byte) :
    Except Cut (BitVec 32 × (Word → Byte)) := do
  let b : SprintBuf := ⟨buf, buf + n.signExtend 64 - 1, 0, bytes⟩
  if buf = 0 ∨ n.toInt < 1 then .ok (BitVec.ofInt 32 (-eInval), bytes)
  else
    let done ← (vprintfmt sprintputch mem fmt args).run b
    .ok (done.2.cnt, Function.update done.2.bytes done.2.buf 0)

theorem feed_sprintputch (b : SprintBuf) (out : List (BitVec 32)) {room : Nat} (space : b.buf.toNat + room = b.ebuf.toNat) :
    Emission.feed sprintputch b out = {
      buf := b.buf + BitVec.ofNat 64 (min room out.length)
      ebuf := b.ebuf
      cnt := b.cnt + BitVec.ofNat 32 out.length
      bytes := storeAll b.bytes b.buf ((out.take room).map (·.setWidth 8)) } := by
  induction out generalizing b room with
  | nil => simp [storeAll]
  | cons ch out ih =>
    have count : ∀ cnt : BitVec 32, cnt + BitVec.ofNat 32 (out.length + 1) = cnt + 1 + BitVec.ofNat 32 out.length := by
      intro cnt
      rw [Nat.add_comm, BitVec.ofNat_add, BitVec.add_assoc]
      rfl
    rw [Emission.feed_cons, List.length_cons, count]
    have bound := b.ebuf.isLt
    cases room with
    | zero =>
      have full : ¬ b.buf < b.ebuf := by
        rw [BitVec.lt_def]
        omega
      rw [sprintputch, if_neg full, @ih { b with cnt := b.cnt + 1 } 0 space]
      simp [storeAll]
    | succ room =>
      have free : b.buf < b.ebuf := by
        rw [BitVec.lt_def]
        omega
      have next : (b.buf + 1).toNat + room = b.ebuf.toNat := by
        rw [BitVec.toNat_add_of_lt] <;> simp <;> omega
      rw [sprintputch, if_pos free, ih _ next]
      simp only [List.take_succ_cons, List.map_cons, storeAll, Nat.succ_min_succ, step_address]

/-- What `vsnprintf` must leave of the output `out` in a buffer for `n` characters at `buf`. -/
structure Truncated (buf : Word) (n : Nat) (bytes : Word → Byte) (out : List (BitVec 32)) (after : Word → Byte) :
    Prop where
  chars : ∀ i ch, i < n - 1 → out[i]? = some ch → after (buf + BitVec.ofNat 64 i) = ch.setWidth 8
  nul : after (buf + BitVec.ofNat 64 (min (n - 1) out.length)) = 0
  behind : ∀ i, min (n - 1) out.length < i → i < n → after (buf + BitVec.ofNat 64 i) = bytes (buf + BitVec.ofNat 64 i)
  others : ∀ va, (∀ i < n, va ≠ buf + BitVec.ofNat 64 i) → after va = bytes va

theorem truncated_storeAll {buf : Word} {n : Nat} {bytes : Word → Byte} {out : List (BitVec 32)} (room : 0 < n)
    (small : n ≤ 2 ^ 64) : Truncated buf n bytes out
      (Function.update (storeAll bytes buf ((out.take (n - 1)).map (·.setWidth 8)))
        (buf + BitVec.ofNat 64 (min (n - 1) out.length)) 0) := by
  have length : ((out.take (n - 1)).map (·.setWidth 8)).length = min (n - 1) out.length := by
    rw [List.length_map, List.length_take]
  have apart : ∀ i, i < n → i ≠ min (n - 1) out.length →
      buf + BitVec.ofNat 64 i ≠ buf + BitVec.ofNat 64 (min (n - 1) out.length) := by
    intro i inside other same
    exact other (offset_inj (by omega) (by omega) same)
  refine ⟨?_, Function.update_self _ _ _, ?_, ?_⟩
  · intro i ch inside found
    have below := (List.getElem?_eq_some_iff.mp found).1
    rw [Function.update_of_ne (apart i (by omega) (by omega)), storeAll_at (by omega) (by omega), List.getElem_map,
      List.getElem_take]
    rw [(List.getElem?_eq_some_iff.mp found).2]
  · intro i above inside
    rw [Function.update_of_ne (apart i inside (by omega)), storeAll_other]
    intro j small' same
    have := offset_inj (by omega) (by omega) same
    omega
  · intro va outside
    rw [Function.update_of_ne (outside _ (by omega)), storeAll_other fun j small' => outside j (by omega)]

section Vsnprintf

variable {mem : Loads} {fmt : CString} {args : Nat → Word} {buf : Word} {n : BitVec 32} {bytes : Word → Byte}

theorem toNat_signExtend {n : BitVec 32} (positive : 1 ≤ n.toInt) :
    (n.signExtend 64).toNat = n.toNat ∧ n.toInt = n.toNat := by
  have sign : n.msb = false := by
    rw [BitVec.msb_eq_toInt, decide_eq_false_iff_not]
    omega
  constructor
  · rw [BitVec.signExtend_eq_setWidth_of_msb_false sign, BitVec.toNat_setWidth_of_le (by decide)]
  · exact BitVec.toInt_eq_toNat_of_msb sign

theorem vsnprintf_done {out : List (BitVec 32)} (nonnull : buf ≠ 0) (positive : 1 ≤ n.toInt)
    (fits : buf.toNat + n.toNat ≤ 2 ^ 64) (full : formatted mem fmt args = .ok out) :
    ∃ after, vsnprintf mem buf n fmt args bytes = .ok (BitVec.ofNat 32 out.length, after) ∧
      Truncated buf n.toNat bytes out after := by
  obtain ⟨width, size⟩ := toNat_signExtend positive
  have ebuf : buf.toNat + (n.toNat - 1) = (buf + n.signExtend 64 - 1).toNat := by
    have less : (n.signExtend 64 - 1).toNat = n.toNat - 1 := by
      rw [BitVec.toNat_sub_of_le (by rw [BitVec.le_def, width]; simp; omega), width]
      rfl
    rw [add_sub_assoc, BitVec.toNat_add_of_lt (by omega), less]
  have run := vprintfmt_full sprintputch full ⟨buf, buf + n.signExtend 64 - 1, 0, bytes⟩
  rw [feed_sprintputch _ _ ebuf] at run
  refine ⟨_, ?_, truncated_storeAll (by omega) (by omega)⟩
  unfold vsnprintf
  simp only
  rw [if_neg (by simp only [nonnull, false_or]; omega), run]
  simp [bind, Except.bind]

end Vsnprintf

/-- For no buffer, or one for no character, nothing is written. Otherwise the output, cut off in front of
    the last place of the buffer, is followed by NUL, and an `int` counts the whole of it. -/
theorem vsnprintf_truncates (mem : Loads) (fmt : CString) (args : Nat → Word) (buf : Word) (n : BitVec 32)
    (bytes : Word → Byte) (buffer : buf ≠ 0 → 1 ≤ n.toInt → buf.toNat + n.toNat ≤ 2 ^ 64) :
    (buf = 0 ∨ n.toInt < 1 → vsnprintf mem buf n fmt args bytes = .ok (BitVec.ofInt 32 (-eInval), bytes)) ∧
      (buf ≠ 0 → 1 ≤ n.toInt → ∀ out, formatted mem fmt args = .ok out → ∃ after,
        vsnprintf mem buf n fmt args bytes = .ok (BitVec.ofNat 32 out.length, after) ∧
          Truncated buf n.toNat bytes out after) :=
  ⟨fun refused => if_pos refused, fun nonnull positive _ full => vsnprintf_done nonnull positive (buffer nonnull positive) full⟩

theorem vsnprintf_truncates_42 : ∃ after : Word → Byte,
    vsnprintf noLoads 0x1000 4 (widthFormat 5) (fun _ => 42) (fun _ => 0xFF) = .ok (5, after) ∧
      after 0x1002 = ascii ' ' ∧ after 0x1003 = 0 ∧ after 0x1004 = 0xFF := by
  have output : formatted noLoads (widthFormat 5) (fun _ => 42) = .ok ((text "   42").map (·.signExtend 32)) := by
    have abs : (42 : Word).toInt.natAbs = 42 := by decide
    rw [formatted_width (by decide), widthOutput, abs, numeralChars_42]
    decide
  obtain ⟨after, result, truncated⟩ := (vsnprintf_truncates noLoads (widthFormat 5) (fun _ => 42) 0x1000 4 (fun _ => 0xFF)
    (by decide)).2 (by decide) (by decide) _ output
  refine ⟨after, result, truncated.chars 2 _ (by decide) rfl, truncated.nul, truncated.others _ ?_⟩
  decide

/-- `snprintf(buf, 1, "%2147483647d", -1)`: the sign is one character more than the width. -/
theorem vsnprintf_overflows : ∃ out after, formatted noLoads (widthFormat 2147483647) (fun _ => -1) = .ok out ∧
    out.length = 2 ^ 31 ∧
    vsnprintf noLoads 0x1000 1 (widthFormat 2147483647) (fun _ => -1) (fun _ => 0xFF) =
      .ok (BitVec.intMin 32, after) ∧ (BitVec.intMin 32).toInt ≠ (out.length : Int) := by
  have abs : (-1 : Word).toInt.natAbs = 1 := by decide
  have digits : numeralChars 10 1 = [(ascii '1').signExtend 32] := by
    rw [numeralChars, Numeral.digits_small (by decide)]
    rfl
  have padding : pads 2147483647 1 = 2147483646 := by decide
  have length : (widthOutput 2147483647 (-1 : Word).toInt).length = 2 ^ 31 := by
    rw [widthOutput, abs, digits, List.length_singleton, padding, if_pos (by decide), List.length_append,
      List.length_append, List.length_replicate, List.length_singleton, List.length_singleton]
    rfl
  obtain ⟨after, result, -⟩ := @vsnprintf_done noLoads _ _ 0x1000 1 (fun _ => 0xFF) _
    (by decide) (by decide) (by decide) (@formatted_width noLoads (fun _ => -1) 2147483647 (by decide))
  rw [length] at result
  exact ⟨_, after, formatted_width (by decide), length, result, by rw [length]; decide⟩

end Jos.Format
