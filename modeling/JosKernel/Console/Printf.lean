import JosKernel.Console.Silence

namespace Jos.Format

open Emission (feed)

variable {mem : Loads} {fmt : CString} {args : Nat → Word} {out : List (BitVec 32)}

-- kern/printf.c

/-- What the console has got through `cputchar`, and the counter. -/
structure KernelOut where
  console : List (BitVec 32)
  cnt : BitVec 32

/-- `*cnt++` moves the pointer, and leaves the counter as it is. -/
def kernelPutch (ch : BitVec 32) (out : KernelOut) : KernelOut := { out with console := out.console ++ [ch] }

def kernelVcprintf (mem : Loads) (fmt : CString) (args : Nat → Word) (console : List (BitVec 32)) :
    Except Cut (BitVec 32 × List (BitVec 32)) := do
  let done ← (vprintfmt kernelPutch mem fmt args).run ⟨console, 0⟩
  .ok (done.2.cnt, done.2.console)

-- lib/printf.c

structure PrintBuf where
  idx : Nat
  cnt : BitVec 32
  buf : Nat → Byte
  inside : idx < 256 - 1

structure Call where
  s : Word
  len : Word
  buf : Nat → Byte

section User

variable (s : Word)

def userPutch (ch : BitVec 32) (out : PrintBuf × List Call) : PrintBuf × List Call :=
  let b := out.1
  let buf := Function.update b.buf b.idx (ch.setWidth 8)
  if full : b.idx + 1 = 256 - 1 then
    (⟨0, b.cnt + 1, buf, by decide⟩, out.2 ++ [⟨s, BitVec.ofNat 64 (b.idx + 1), buf⟩])
  else (⟨b.idx + 1, b.cnt + 1, buf, by have := b.inside; omega⟩, out.2)

def userVcprintf (mem : Loads) (fmt : CString) (args : Nat → Word) (buf : Nat → Byte) :
    Except Cut (BitVec 32 × List Call) := do
  let done ← (vprintfmt (userPutch s) mem fmt args).run (⟨0, 0, buf, by decide⟩, [])
  .ok (done.2.1.cnt, done.2.2 ++ [⟨s, BitVec.ofNat 64 done.2.1.idx, done.2.1.buf⟩])

end User

-- What comes of a whole output

theorem feed_kernelPutch (b : KernelOut) (out : List (BitVec 32)) :
    feed kernelPutch b out = { b with console := b.console ++ out } := by
  induction out generalizing b with
  | nil => simp
  | cons ch out ih => simp [ih, kernelPutch]

theorem kernelVcprintf_full (full : formatted mem fmt args = .ok out) (console : List (BitVec 32)) :
    kernelVcprintf mem fmt args console = .ok (0, console ++ out) := by
  rw [kernelVcprintf, vprintfmt_full kernelPutch full, feed_kernelPutch]
  rfl

def Call.chars (call : Call) : List Byte := (List.range call.len.toNat).map call.buf

/-- The state behind the output `done`: it is in the calls, and then in the buffer. -/
structure Collected (s : Word) (done : List (BitVec 32)) (state : PrintBuf × List Call) : Prop where
  chars : state.2.flatMap Call.chars ++ (List.range state.1.idx).map state.1.buf = done.map (·.setWidth 8)
  cnt : state.1.cnt = BitVec.ofNat 32 done.length
  calls : ∀ call ∈ state.2, call.s = s ∧ call.len.toNat < 256

theorem range_update (buf : Nat → Byte) (n : Nat) (ch : Byte) :
    (List.range (n + 1)).map (Function.update buf n ch) = (List.range n).map buf ++ [ch] := by
  rw [List.range_succ, List.map_append, List.map_singleton, Function.update_self]
  congr 1
  refine List.map_congr_left fun i small => ?_
  have other : i ≠ n := Nat.ne_of_lt (List.mem_range.mp small)
  rw [Function.update_of_ne other]

theorem Collected.userPutch {s : Word} {done : List (BitVec 32)} {state : PrintBuf × List Call}
    (collected : Collected s done state) (ch : BitVec 32) :
    Collected s (done ++ [ch]) (userPutch s ch state) := by
  have cnt : state.1.cnt + 1 = BitVec.ofNat 32 (done ++ [ch]).length := by
    rw [collected.cnt, List.length_append, List.length_singleton, BitVec.ofNat_add]
    rfl
  have chars : state.2.flatMap Call.chars ++
      (List.range (state.1.idx + 1)).map (Function.update state.1.buf state.1.idx (ch.setWidth 8)) =
        (done ++ [ch]).map (·.setWidth 8) := by
    rw [range_update, ← List.append_assoc, collected.chars, List.map_append]
    rfl
  have inside := state.1.inside
  unfold Format.userPutch
  simp only
  split
  · have length : (BitVec.ofNat 64 (state.1.idx + 1)).toNat = state.1.idx + 1 := by
      rw [BitVec.toNat_ofNat]
      omega
    constructor
    · rw [← chars]
      simp [Call.chars, length]
    · exact cnt
    · intro call member
      rcases List.mem_append.mp member with earlier | last
      · exact collected.calls call earlier
      · rw [List.mem_singleton.mp last]
        exact ⟨rfl, lt_of_eq_of_lt length (by omega)⟩
  · exact ⟨chars, cnt, collected.calls⟩

theorem Collected.feed {s : Word} {done : List (BitVec 32)} {state : PrintBuf × List Call}
    (collected : Collected s done state) (out : List (BitVec 32)) :
    Collected s (done ++ out) (feed (Format.userPutch s) state out) := by
  induction out generalizing done state with
  | nil => simpa using collected
  | cons ch out ih => simpa using ih (collected.userPutch ch)

theorem userVcprintf_full (full : formatted mem fmt args = .ok out) (s : Word) (buf : Nat → Byte) :
    ∃ calls, userVcprintf s mem fmt args buf = .ok (BitVec.ofNat 32 out.length, calls) ∧
      calls.flatMap Call.chars = out.map (·.setWidth 8) ∧ ∀ call ∈ calls, call.s = s ∧ call.len.toNat < 256 := by
  have start : Collected s [] (⟨0, 0, buf, by decide⟩, []) := ⟨rfl, rfl, by simp⟩
  have collected := start.feed out
  rw [List.nil_append] at collected
  have run := vprintfmt_full (userPutch s) full (⟨0, 0, buf, by decide⟩, [])
  generalize feed (userPutch s) _ out = last at collected run
  have inside := last.1.inside
  have length : (BitVec.ofNat 64 last.1.idx).toNat = last.1.idx := by
    rw [BitVec.toNat_ofNat]
    omega
  refine ⟨last.2 ++ [⟨s, BitVec.ofNat 64 last.1.idx, last.1.buf⟩], ?_, ?_, ?_⟩
  · rw [userVcprintf, run, ← collected.cnt]
    rfl
  · rw [← collected.chars]
    simp [Call.chars, length]
  · intro call member
    rcases List.mem_append.mp member with earlier | final
    · exact collected.calls call earlier
    · rw [List.mem_singleton.mp final]
      exact ⟨rfl, lt_of_eq_of_lt length (by omega)⟩

theorem count_iff (n : Nat) : (BitVec.ofNat 32 n).toInt = n ↔ n < 2 ^ 31 := by
  constructor
  · intro same
    have := (BitVec.ofNat 32 n).toInt_lt
    omega
  · intro small
    rw [BitVec.toInt_ofNat']
    exact Int.bmod_eq_of_le (by omega) (by omega)

/-- Both functions return how often the formatter calls `putch`. -/
structure Counted (mem : Loads) (fmt : CString) (args : Nat → Word) (out : List (BitVec 32)) : Prop where
  kernel : ∀ console, ∃ cnt console', kernelVcprintf mem fmt args console = .ok (cnt, console') ∧ cnt.toInt = out.length
  user : ∀ s buf, ∃ cnt calls, userVcprintf s mem fmt args buf = .ok (cnt, calls) ∧ cnt.toInt = out.length

/-- The kernel always returns 0, which is right for formats without output only. -/
theorem counted_iff (full : formatted mem fmt args = .ok out) :
    Counted mem fmt args out ↔ Silent mem args (pieces fmt.chars) 0 := by
  rw [← formatted_nil full]
  constructor
  · intro counted
    obtain ⟨cnt, console, done, count⟩ := counted.kernel []
    rw [kernelVcprintf_full full] at done
    cases done
    have none : out.length = 0 := Int.ofNat_inj.mp count.symm
    exact List.length_eq_zero_iff.mp none
  · rintro rfl
    refine ⟨fun console => ⟨_, _, kernelVcprintf_full full console, rfl⟩, fun s buf => ?_⟩
    obtain ⟨calls, done, -⟩ := userVcprintf_full full s buf
    exact ⟨_, calls, done, rfl⟩

def zeroLoads : Loads where
  byte va := if va.toNat < 2 ^ 47 then some 0 else none
  errorString := 0
  canonical := by
    intro va loaded
    split at loaded
    · exact .inl (by assumption)
    · exact absurd rfl loaded

theorem stringFormat_silent : Silent zeroLoads (fun _ => 0x1000) (pieces stringFormat.chars) 0 := by
  have shape : pieces stringFormat.chars = [.convert [] (ascii 's')] := pieces_bare (by decide)
  rw [shape]
  refine ⟨.inl ⟨rfl, ?_⟩, trivial⟩
  rw [Directive.modify]
  exact ⟨by decide, 0, rfl, fun goes => goes.1 rfl⟩

theorem stringFormat_empty : formatted zeroLoads stringFormat (fun _ => 0x1000) = .ok [] := by
  unfold formatted
  simp only [vprintfmt_eq]
  rw [render_silent stringFormat_silent]
  rfl

theorem counted_iff_empty : Counted zeroLoads stringFormat (fun _ => 0x1000) [] ↔
    Silent zeroLoads (fun _ => 0x1000) (pieces stringFormat.chars) 0 :=
  counted_iff stringFormat_empty

def plainFormat (ch : Byte) (nonzero : ch ≠ 0) : CString := ⟨[ch], by simpa using nonzero.symm⟩

theorem formatted_plain {ch : Byte} (nonzero : ch ≠ 0) (other : ch ≠ ascii '%') :
    formatted mem (plainFormat ch nonzero) args = .ok [ch.setWidth 32] := by
  have shape : pieces (plainFormat ch nonzero).chars = [.plain ch] := by
    rw [plainFormat, pieces, if_neg other, pieces]
  unfold formatted
  simp only [vprintfmt_eq]
  rw [shape]
  rfl

/-- `cprintf("x")`: the kernel returns 0, and the user library 1. -/
theorem counts_differ : ∃ fmt calls, formatted noLoads fmt (fun _ => 0) = .ok [(ascii 'x').setWidth 32] ∧
    kernelVcprintf noLoads fmt (fun _ => 0) [] = .ok (0, [(ascii 'x').setWidth 32]) ∧
    userVcprintf 0x1000 noLoads fmt (fun _ => 0) (fun _ => 0) = .ok (1, calls) ∧
    ¬ Counted noLoads fmt (fun _ => 0) [(ascii 'x').setWidth 32] := by
  have output := @formatted_plain noLoads (fun _ => 0) (ascii 'x') (by decide) (by decide)
  obtain ⟨calls, done, -⟩ := userVcprintf_full output 0x1000 fun _ => 0
  refine ⟨_, calls, output, kernelVcprintf_full output [], done, fun counted => ?_⟩
  obtain ⟨cnt, console, done, count⟩ := counted.kernel []
  rw [kernelVcprintf_full output] at done
  cases done
  exact absurd count (by decide)

end Jos.Format
