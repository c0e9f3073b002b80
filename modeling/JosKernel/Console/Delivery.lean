import JosKernel.Console.Printf
import JosKernel.Syscall.Cputs

namespace Jos.Format

open Emission (Printer put putAll collect)

-- The string of sys_cputs

def outputFormat : CString := ⟨text "%.*s", by decide⟩

def outputArgs (s len : Word) (i : Nat) : Word := [len, s].getD i 0

def shownChars (chars : List Byte) : List (BitVec 32) := (chars.takeWhile (· != 0)).map (·.signExtend 32)

theorem goesOn_iff {ch : Byte} {precision : BitVec 32} (bounded : 0 ≤ precision.toInt) :
    GoesOn ch precision ↔ ch ≠ 0 ∧ 0 < precision.toInt := by
  have positive : ¬ precision.toInt < 0 := by omega
  rw [GoesOn, decrement_positive positive]
  refine and_congr_right fun _ => ?_
  omega

theorem putChars_bounded {σ : Type} (putch : BitVec 32 → σ → σ) {char : Nat → Except Cut Byte} {chars : List Byte}
    {i space : Nat} {precision : BitVec 32} (reads : ∀ j ch, chars[j]? = some ch → char (i + j) = .ok ch)
    (behind : ∃ ch, char (i + chars.length) = .ok ch) (room : chars.length < space)
    (bound : precision.toInt = chars.length) (width : BitVec 32) :
    putChars putch char false space i width precision = (do
      putAll putch (shownChars chars)
      pure (width - BitVec.ofNat 32 (shownChars chars).length)) := by
  induction chars generalizing i space width precision with
  | nil =>
    obtain ⟨space, rfl⟩ := Nat.exists_eq_succ_of_ne_zero (Nat.ne_of_gt room)
    obtain ⟨ch, last⟩ := behind
    have stops : ¬ GoesOn ch precision := by
      rw [goesOn_iff (by omega), bound]
      simp
    have whole : width - BitVec.ofNat 32 (shownChars []).length = width := sub_zero width
    rw [putChars, show char i = .ok ch from last, whole]
    exact if_neg stops
  | cons ch chars ih =>
    obtain ⟨space, rfl⟩ := Nat.exists_eq_succ_of_ne_zero (Nat.ne_of_gt (Nat.zero_lt_of_lt room))
    have first : char i = .ok ch := reads 0 ch rfl
    rw [List.length_cons] at behind room bound
    have bounded : 0 ≤ precision.toInt := by omega
    by_cases ended : ch = 0
    · have stops : ¬ GoesOn ch precision := fun goes => goes.1 ended
      have none : shownChars (ch :: chars) = [] := by rw [shownChars, ended, List.takeWhile_cons_of_neg] <;> simp
      have whole : width - BitVec.ofNat 32 (shownChars (ch :: chars)).length = width := by
        rw [none]
        exact sub_zero width
      rw [putChars, first, whole, none]
      exact if_neg stops
    · have goes : GoesOn ch precision := (goesOn_iff bounded).mpr ⟨ended, by omega⟩
      have more : shownChars (ch :: chars) = ch.signExtend 32 :: shownChars chars := by
        rw [shownChars, List.takeWhile_cons_of_pos (by simpa using ended)]
        rfl
      have less : (decrement precision).toInt = chars.length := by
        rw [decrement_positive (by omega)]
        omega
      have rest := ih (i := i + 1) (fun j ch' found => by rw [Nat.add_right_comm]; exact reads (j + 1) ch' found)
        (by rwa [Nat.add_right_comm]) (by omega : chars.length < space) less (width - 1)
      have length : width - 1 - BitVec.ofNat 32 (shownChars chars).length =
          width - BitVec.ofNat 32 (shownChars (ch :: chars)).length := by
        rw [more, List.length_cons, BitVec.ofNat_add, BitVec.sub_sub, BitVec.add_comm 1]
        rfl
      rw [putChars, first]
      change (if GoesOn ch precision then _ else _) = _
      rw [if_pos goes, rest, length, more, Emission.putAll_cons]
      rfl

theorem modify_output (s len : Word) : Directive.initial.modify (outputArgs s len) [ascii '.', ascii '*'] 0 =
    ({ Directive.initial with width := 0, precision := len.setWidth 32 }, 1) := by
  rw [Directive.modify, if_neg (by decide), if_neg (by decide), if_neg (by decide), if_neg (by decide), if_pos rfl]
  rw [Directive.modify, if_neg (by decide), if_neg (by decide), if_neg (by decide), if_pos rfl, Directive.modify]
  rfl

theorem outputFormat_pieces : pieces outputFormat.chars = [.convert [ascii '.', ascii '*'] (ascii 's')] := by
  have modifiers : ∀ ch ∈ [ascii '.', ascii '*'], isModifier ch = true := by decide
  change pieces (ascii '%' :: ([ascii '.', ascii '*'] ++ ascii 's' :: [])) = _
  rw [pieces_convert modifiers (by decide), pieces]

theorem putString_output (mem : Loads) (precision : BitVec 32) (p : Chars) :
    putString collect mem { Directive.initial with width := 0, precision := precision } p = (do
      let width ← putChars collect (p.char mem) false (2 ^ 64) 0 0 precision
      discard (pad collect (ascii ' ') width)) := by
  have unpadded : padString collect mem { Directive.initial with width := 0, precision := precision } p = pure 0 :=
    if_neg fun both => absurd both.1 (by decide : ¬ 0 < (0 : BitVec 32).toInt)
  rw [putString, unpadded, pure_bind]
  rfl

theorem discard_pad_run (padc : Byte) (width : BitVec 32) (out : List (BitVec 32)) :
    (discard (pad collect padc width)).run out =
      .ok ((), out ++ List.replicate width.toInt.toNat (padc.signExtend 32)) := by
  rw [pad_eq, ← Emission.feed_collect]
  rfl

theorem width_left {n : Nat} (small : n < 2 ^ 31) : ((0 : BitVec 32) - BitVec.ofNat 32 n).toInt = -n := by
  rw [zero_sub, BitVec.toInt_neg, (count_iff n).mpr small]
  exact Int.bmod_eq_of_le (by omega) (by omega)

/-- The conversion of the string alone. -/
theorem formatted_string (mem : Loads) (s len : Word) :
    formatted mem outputFormat (outputArgs s len) = ((do
      let width ← putChars collect ((if s = 0 then Chars.constant (text "(null)") else .at s).char mem) false (2 ^ 64) 0 0
        (len.setWidth 32)
      discard (pad collect (ascii ' ') width)).run []).map Prod.snd := by
  refine formatted_convert outputFormat_pieces ?_
  rw [modify_output]
  exact congrArg some (putString_output mem _ _)

/-- What `%.*s` shows of `chars` at `s`, where the character behind them can be read, too. -/
theorem formatted_output {mem : Loads} {s len : Word} {chars : List Byte} (nonnull : s ≠ 0)
    (length : len.toNat = chars.length) (small : chars.length < 2 ^ 31)
    (reads : ∀ j ch, chars[j]? = some ch → mem.load (s + BitVec.ofNat 64 j) = .ok ch)
    (behind : ∃ ch, mem.load (s + len) = .ok ch) :
    formatted mem outputFormat (outputArgs s len) = .ok (shownChars chars) := by
  have narrow : (len.setWidth 32).toInt = chars.length := by
    rw [BitVec.toInt_eq_toNat_of_lt] <;> rw [BitVec.toNat_setWidth, length] <;> omega
  have last : ∃ ch, (Chars.at s).char mem (0 + chars.length) = .ok ch := by
    obtain ⟨ch, loaded⟩ := behind
    refine ⟨ch, ?_⟩
    rw [Chars.char, Nat.zero_add, ← length, BitVec.ofNat_toNat, BitVec.setWidth_eq]
    exact loaded
  have string := @putChars_bounded _ collect ((Chars.at s).char mem) chars 0 (2 ^ 64) (len.setWidth 32)
    (fun j ch found => by rw [Nat.zero_add]; exact reads j ch found) last (by omega) narrow 0
  have few : (shownChars chars).length ≤ chars.length := by
    rw [shownChars, List.length_map]
    exact (List.takeWhile_prefix _).length_le
  have none : ¬ 0 < ((0 : BitVec 32) - BitVec.ofNat 32 (shownChars chars).length).toInt := by
    rw [width_left (by omega)]
    omega
  rw [formatted_string, if_neg nonnull, string, bind_assoc]
  simp only [pure_bind]
  rw [pad, if_neg none]
  change Except.ok (Emission.feed collect [] (shownChars chars)) = _
  rw [Emission.feed_collect]
  rfl

theorem shownChars_length (chars : List Byte) : (shownChars chars).length = chars.length ↔ (0 : Byte) ∉ chars := by
  rw [shownChars, List.length_map]
  constructor
  · intro same
    have whole := (List.takeWhile_prefix (· != 0)).eq_of_length same
    intro member
    exact absurd rfl (bne_iff_ne.mp (List.takeWhile_eq_self_iff.mp whole 0 member))
  · intro absent
    rw [List.takeWhile_eq_self_iff.mpr]
    intro ch member
    refine bne_iff_ne.mpr ?_
    rintro rfl
    exact absent member

theorem narrow_signExtend (ch : Byte) : (ch.signExtend 32).setWidth 8 = ch := by
  revert ch
  decide

theorem shownChars_bytes {chars : List Byte} (absent : (0 : Byte) ∉ chars) :
    (shownChars chars).map (·.setWidth 8) = chars := by
  have whole : chars.takeWhile (· != 0) = chars := by
    have length := (shownChars_length chars).mpr absent
    rw [shownChars, List.length_map] at length
    exact (List.takeWhile_prefix (· != 0)).eq_of_length length
  rw [shownChars, whole, List.map_map]
  exact (List.map_congr_left fun ch _ => narrow_signExtend ch).trans (List.map_id _)

-- Print, which traces the loads as well, prints the same.

theorem goesOn_toInt (ch : Byte) (precision : BitVec 32) :
    GoesOn ch precision ↔ ch ≠ 0 ∧ (precision.toInt < 0 ∨ 0 ≤ precision.toInt - 1) := by
  unfold GoesOn
  by_cases negative : precision.toInt < 0
  · simp [negative]
  · rw [decrement_positive negative]

theorem decrement_toInt (precision : BitVec 32) :
    (decrement precision).toInt = if precision.toInt < 0 then precision.toInt else precision.toInt - 1 := by
  split
  · rw [decrement, if_pos ‹_›]
  · rw [decrement_positive ‹_›]

theorem putChars_printed {char : Nat → Except Cut Byte} {charAt : Nat → Print Byte}
    (reads : ∀ i ch, char i = .ok ch → ∀ trace, ∃ fetched,
      (charAt i).run.run trace = (.ok ch, { trace with fetched := fetched }))
    {space fuel i : Nat} (enough : space ≤ fuel) {width width' precision : BitVec 32} (left : Int)
    {out out' : List (BitVec 32)} {trace : Trace}
    (done : (putChars collect char false space i width precision).run out = .ok (width', out')) :
    ∃ shown fetched, out' = out ++ shown ∧ width' = width - BitVec.ofNat 32 shown.length ∧
      (Print.putString charAt false fuel i precision.toInt left).run.run trace =
        (.ok (left - shown.length), ⟨fetched, trace.printed ++ shown.map (·.setWidth 8)⟩) := by
  induction space generalizing fuel i width precision left out trace with
  | zero => cases done
  | succ space ih =>
    obtain ⟨fuel, rfl⟩ := Nat.exists_eq_add_of_le' (Nat.le_trans (Nat.le_add_left 1 space) enough)
    rw [putChars, StateT.run_bind] at done
    obtain ⟨⟨ch, _⟩, first, rest⟩ := Fallible.bind_ok.mp done
    obtain ⟨_, loaded, same⟩ := Fallible.bind_ok.mp first
    cases same
    obtain ⟨fetched, fetches⟩ := reads i ch loaded trace
    rw [Print.putString, Print.run_bind_ok fetches]
    by_cases more : GoesOn ch precision
    · rw [if_pos ((goesOn_toInt ch precision).mp more)]
      rw [if_pos more] at rest
      obtain ⟨shown, fetched', emitted, spent, ran⟩ := @ih fuel _ (by omega) _ _ (left - 1) _
        ⟨fetched, trace.printed ++ [ch]⟩ rest
      refine ⟨ch.signExtend 32 :: shown, fetched', ?_, ?_, ?_⟩
      · rw [emitted]
        simp [collect, Format.shown]
      · rw [spent, List.length_cons, BitVec.ofNat_add, BitVec.sub_sub, BitVec.add_comm 1]
        rfl
      · rw [decrement_toInt] at ran
        have count : left - ((ch.signExtend 32 :: shown).length : Int) = left - 1 - shown.length := by
          rw [List.length_cons]
          omega
        have printed : trace.printed ++ (ch.signExtend 32 :: shown).map (·.setWidth 8) =
            trace.printed ++ [ch] ++ shown.map (·.setWidth 8) := by
          rw [List.map_cons, narrow_signExtend, List.append_assoc, List.singleton_append]
        have putched : (Print.putch (if False then Print.code '?' else ch)).run.run ⟨fetched, trace.printed⟩ =
            (.ok (), ⟨fetched, trace.printed ++ [ch]⟩) := rfl
        rw [count, printed, ← ran]
        simp only [Bool.false_eq_true, false_and]
        rw [Print.run_bind_ok putched]
    · rw [if_neg fun both => more ((goesOn_toInt ch precision).mpr both)]
      rw [if_neg more] at rest
      cases rest
      exact ⟨[], fetched, by simp, by simp, by simp; rfl⟩

theorem charAt_reads {mem : Loads} {load : Word → Option Byte} (same : ∀ va ch, mem.load va = .ok ch → load va = some ch)
    (s : Word) (i : Nat) (ch : Byte)
    (read : (if s = 0 then Chars.constant (text "(null)") else .at s).char mem i = .ok ch) (trace : Trace) :
    ∃ fetched, (Print.charAt load s i).run.run trace = (.ok ch, { trace with fetched := fetched }) := by
  by_cases null : s = 0
  · rw [if_pos null] at read
    cases read
    refine ⟨trace.fetched, ?_⟩
    rw [Print.charAt, if_pos null]
    rfl
  · rw [if_neg null] at read
    exact ⟨_, Print.charAt_load null (same _ ch read)⟩

theorem cprintf_printed {mem : Loads} {load : Word → Option Byte} (same : ∀ va ch, mem.load va = .ok ch → load va = some ch)
    {s len : Word} {out : List (BitVec 32)} {fuel : Nat} (full : formatted mem outputFormat (outputArgs s len) = .ok out)
    (short : out.length < 2 ^ 31) (enough : 2 ^ 64 ≤ fuel) :
    (Print.after (Print.cprintf load fuel "%.*s" [len, s]) .empty).printed = out.map (·.setWidth 8) := by
  rw [formatted_string] at full
  obtain ⟨⟨_, out'⟩, ran, rfl⟩ := Fallible.map_ok.mp full
  rw [StateT.run_bind] at ran
  obtain ⟨⟨width, whole⟩, string, padded⟩ := Fallible.bind_ok.mp ran
  obtain ⟨shown, fetched, emitted, left, prints⟩ :=
    @putChars_printed _ _ (charAt_reads same s) _ _ _ enough _ _ _ 0 _ _ .empty string
  rw [List.nil_append] at emitted
  rw [emitted, left] at padded
  cases (discard_pad_run _ _ shown).symm.trans padded
  rw [List.length_append] at short
  have spent : ((0 : BitVec 32) - BitVec.ofNat 32 shown.length).toInt.toNat = 0 := by
    rw [width_left (by omega)]
    omega
  have nothing : (0 - (shown.length : Int)).toNat = 0 := by omega
  have precision : Print.intArg [len] = (len.setWidth 32).toInt := rfl
  rw [Print.cprintf_string, precision, Print.after_bind_ok prints, Print.pad, nothing, spent]
  simp only [List.replicate_zero, List.append_nil]
  exact List.nil_append _

end Jos.Format

namespace Jos

open Format

-- The system call

instance (va : Word) : Decidable (Canonical va) := inferInstanceAs (Decidable (_ ∨ _))

/-- What the kernel can load while it uses the tables under `root`. -/
def Memory.loads (m : Memory) (root : Nat) (errorString : Word) : Loads where
  byte va := if Canonical va then m.loadByte root va else none
  errorString := errorString
  canonical := by
    intro va loaded
    split at loaded
    · assumption
    · exact absurd rfl loaded

variable {k : Kernel} {cur : Nat} {errorString s : Word} {mem : Loads} {fmt : CString} {args : Nat → Word}
  {out : List (BitVec 32)} {buf : Nat → Byte} {cnt : BitVec 32} {calls : List Call} {states : List (Kernel × Call)}

def Kernel.cputsOutput (k : Kernel) (cur : Nat) (errorString s len : Word) : Except Format.Cut (List (BitVec 32)) :=
  match k.sysCputs cur s len with
  | .ok (.returned () k) =>
    match (k.envs cur).envPml4e with
    | some root =>
      (kernelVcprintf (k.mem.loads root errorString) outputFormat (outputArgs s len) []).map Prod.snd
    | none => .ok []
  | _ => .ok []

theorem Memory.loads_load {m : Memory} {root : Nat} {va : Word} {ch : Byte}
    (loaded : (m.loads root errorString).load va = .ok ch) : m.loadByte root va = some ch := by
  unfold Loads.load at loaded
  split at loaded
  · rename_i found
    cases loaded
    by_cases canonical : Canonical va
    · exact (if_pos canonical).symm.trans found
    · cases (if_neg canonical).symm.trans found
  · cases loaded

theorem kernelVcprintf_console {console : List (BitVec 32)} (done : kernelVcprintf mem fmt args [] = .ok (cnt, console)) :
    formatted mem fmt args = .ok console := by
  cases full : formatted mem fmt args with
  | error cut =>
    rw [kernelVcprintf, vprintfmt_run, full] at done
    cases done
  | ok out =>
    cases (kernelVcprintf_full full []).symm.trans done
    rfl

/-- The characters traced are those of the output, as long as an `int` counts them. -/
theorem Kernel.sysCputsTrace_printed {len : Word} {fuel : Nat} (done : k.cputsOutput cur errorString s len = .ok out)
    (short : out.length < 2 ^ 31) (enough : 2 ^ 64 ≤ fuel) :
    (k.sysCputsTrace cur s len fuel).printed = out.map (·.setWidth 8) := by
  unfold Kernel.cputsOutput at done
  unfold Kernel.sysCputsTrace
  split
  · rename_i k' returned
    rw [returned] at done
    dsimp only at done
    split
    · rename_i root pml4e
      rw [pml4e] at done
      obtain ⟨⟨_, console⟩, ran, rfl⟩ := Fallible.map_ok.mp done
      exact cprintf_printed (fun va ch => Memory.loads_load) (kernelVcprintf_console ran) short enough
    · rename_i pml4e
      rw [pml4e] at done
      cases done
      rfl
  · split at done
    · rename_i other _ k' returned
      exact absurd returned (other k')
    · cases done
      rfl

def Kernel.Holds (k : Kernel) (cur : Nat) (errorString : Word) (call : Call) : Prop :=
  ∃ root m, (k.envs cur).envPml4e = some root ∧
    k.mem.userMemCheck root call.s call.len (pteU.setWidth 32) = .ok (0, m) ∧
    ∀ i < 256, (m.loads root errorString).byte (call.s + BitVec.ofNat 64 i) = some (call.buf i)

theorem Kernel.Holds.output {call : Call} (holds : k.Holds cur errorString call) (nonnull : call.s ≠ 0)
    (short : call.len.toNat < 256) :
    k.cputsOutput cur errorString call.s call.len = .ok (shownChars call.chars) := by
  obtain ⟨root, m, pml4e, checked, bytes⟩ := holds
  have length : call.chars.length = call.len.toNat := by rw [Call.chars, List.length_map, List.length_range]
  have loads : ∀ i < 256, (m.loads root errorString).load (call.s + BitVec.ofNat 64 i) = .ok (call.buf i) := by
    intro i small
    rw [Loads.load, bytes i small]
  have reads : ∀ j ch, call.chars[j]? = some ch →
      (m.loads root errorString).load (call.s + BitVec.ofNat 64 j) = .ok ch := by
    intro j ch found
    have inside := (List.getElem?_eq_some_iff.mp found).1
    have here : call.chars[j]? = some (call.buf j) := by
      rw [Call.chars, List.getElem?_map, List.getElem?_range (by omega)]
      rfl
    rw [loads j (by omega)]
    exact congrArg Except.ok (Option.some.inj (here.symm.trans found))
  have behind : ∃ ch, (m.loads root errorString).load (call.s + call.len) = .ok ch := by
    refine ⟨call.buf call.len.toNat, ?_⟩
    have last := loads call.len.toNat short
    rwa [BitVec.ofNat_toNat, BitVec.setWidth_eq] at last
  have full := formatted_output nonnull length.symm (by omega) reads behind
  have returned : k.sysCputs cur call.s call.len = .ok (.returned () (k.setMem m)) := by
    rw [sysCputs_eq pml4e checked, if_neg (by decide)]
  rw [Kernel.cputsOutput, returned]
  simp only [Kernel.setMem_envs, pml4e]
  rw [Kernel.setMem_mem, kernelVcprintf_full full]
  rfl

def consoleOutput (cur : Nat) (errorString : Word) (states : List (Kernel × Call)) :
    Except Format.Cut (List (List (BitVec 32))) :=
  states.mapM fun state => state.1.cputsOutput cur errorString state.2.s state.2.len

/-- The calls put the bytes of the output on the console, as many of each chunk as it has, and an `int` counts
    them. -/
structure Exact (cur : Nat) (errorString : Word) (states : List (Kernel × Call)) (cnt : BitVec 32)
    (out : List (BitVec 32)) : Prop where
  chunks : ∃ chunks, consoleOutput cur errorString states = .ok chunks ∧
    chunks.map List.length = states.map (fun state => state.2.len.toNat) ∧
    chunks.flatten.map (·.setWidth 8) = out.map (·.setWidth 8)
  count : cnt.toInt = out.length

theorem consoleOutput_held (held : ∀ state ∈ states, state.1.Holds cur errorString state.2)
    (nonnull : ∀ state ∈ states, state.2.s ≠ 0) (short : ∀ state ∈ states, state.2.len.toNat < 256) :
    consoleOutput cur errorString states = .ok (states.map fun state => shownChars state.2.chars) := by
  unfold consoleOutput
  induction states with
  | nil => rfl
  | cons state states ih =>
    rw [List.mapM_cons, (held state (by simp)).output (nonnull state (by simp)) (short state (by simp)),
      ih (fun state member => held state (by simp [member])) (fun state member => nonnull state (by simp [member]))
        (fun state member => short state (by simp [member]))]
    rfl

/-- The output arrives as it is exactly if there is no NUL in it, and an `int` counts it. -/
theorem userVcprintf_exact (nonnull : s ≠ 0) (full : formatted mem fmt args = .ok out)
    (run : userVcprintf s mem fmt args buf = .ok (cnt, calls)) (served : states.map Prod.snd = calls)
    (held : ∀ state ∈ states, state.1.Holds cur errorString state.2) :
    Exact cur errorString states cnt out ↔ (∀ ch ∈ out, ch.setWidth 8 ≠ (0 : Byte)) ∧ out.length < 2 ^ 31 := by
  obtain ⟨calls', run', chars, shape⟩ := userVcprintf_full full s buf
  cases run.symm.trans run'
  have calls_shape : ∀ state ∈ states, state.2.s = s ∧ state.2.len.toNat < 256 := by
    intro state member
    refine shape state.2 ?_
    rw [← served]
    exact List.mem_map_of_mem member
  have output := consoleOutput_held held (fun state member => by rw [(calls_shape state member).1]; exact nonnull)
    fun state member => (calls_shape state member).2
  have bytes : states.flatMap (fun state => state.2.chars) = out.map (·.setWidth 8) := by
    rw [← chars, ← served, List.flatMap_map]
  have lengths : ∀ call : Call, call.len.toNat = call.chars.length := by
    intro call
    rw [Call.chars, List.length_map, List.length_range]
  have absent : (∀ state ∈ states, (0 : Byte) ∉ state.2.chars) ↔ ∀ ch ∈ out, ch.setWidth 8 ≠ (0 : Byte) := by
    have every : (0 : Byte) ∉ out.map (·.setWidth 8) ↔ ∀ ch ∈ out, ch.setWidth 8 ≠ (0 : Byte) := by
      simp [List.mem_map]
    rw [← every, ← bytes, List.mem_flatMap]
    simp only [not_exists, not_and]
  rw [← absent]
  constructor
  · intro exact
    obtain ⟨chunks, done, whole, -⟩ := exact.chunks
    cases output.symm.trans done
    refine ⟨?_, (count_iff _).mp exact.count⟩
    intro state member
    rw [List.map_map] at whole
    have here := List.map_inj_left.mp whole state member
    rw [← shownChars_length, ← lengths]
    exact here
  · rintro ⟨clean, small⟩
    refine ⟨⟨_, output, ?_, ?_⟩, (count_iff _).mpr small⟩
    · rw [List.map_map]
      refine List.map_congr_left fun state member => ?_
      exact ((shownChars_length _).mpr (clean state member)).trans (lengths _).symm
    · rw [← bytes, List.map_flatten, List.map_map, List.flatMap_def]
      congr 1
      exact List.map_congr_left fun state member => shownChars_bytes (clean state member)

-- An environment whose buffer has a page for itself

/-- The page 5 at 0x1000, which begins with `first`, in the address space of the PML4 in page 1. -/
def bufferPage (first : Word) : Memory where
  npages := 16
  bootPml4e := 9
  word := fun page index =>
    if page = 1 ∧ index = 0 then tableEntry 2
    else if page = 2 ∧ index = 0 then tableEntry 3
    else if page = 3 ∧ index = 0 then tableEntry 4
    else if page = 4 ∧ index = 1 then leafEntry 5 7
    else if page = 5 ∧ index = 0 then first
    else 0
  ppRef := fun page => if page ≤ 5 then 1 else 0
  ppLink := fun _ => none
  pageFreeList := none
  userMemCheckAddr := 0

def bufferKernel (first : Word) : Kernel where
  mem := bufferPage first
  envs := fun _ => { (default : Env) with envPml4e := some 1 }
  envFreeList := none
  console := []

theorem bufferKernel_holds {first : Word} {call : Call}
    (granted : ((bufferPage first).userMemCheck 1 call.s call.len (pteU.setWidth 32)).map Prod.fst = .ok 0)
    (bytes : ∀ i < 256, ((bufferPage first).userMemCheck 1 call.s call.len (pteU.setWidth 32)).map
      (fun checked => (checked.2.loads 1 0).byte (call.s + BitVec.ofNat 64 i)) = .ok (some (call.buf i))) :
    (bufferKernel first).Holds 0 0 call := by
  obtain ⟨⟨code, m⟩, checked, rfl⟩ := Fallible.map_ok.mp granted
  refine ⟨1, m, rfl, checked, fun i small => ?_⟩
  have byte := bytes i small
  rw [checked] at byte
  exact Except.ok.inj byte

def singleCall (ch : Byte) : Call := ⟨0x1000, 1, Function.update (fun _ => 0) 0 ch⟩

theorem singleCall_x : (bufferKernel 0x78).Holds 0 0 (singleCall (ascii 'x')) :=
  bufferKernel_holds (by decide +kernel) (by decide +kernel)

theorem singleCall_nul : (bufferKernel 0).Holds 0 0 (singleCall 0) :=
  bufferKernel_holds (by decide +kernel) (by decide +kernel)

theorem userVcprintf_single {ch : BitVec 32} (full : formatted mem fmt args = .ok [ch]) :
    userVcprintf 0x1000 mem fmt args (fun _ => 0) = .ok (1, [singleCall (ch.setWidth 8)]) := by
  rw [userVcprintf, vprintfmt_full (userPutch 0x1000) full]
  rfl

theorem userVcprintf_exact_x : Exact 0 0 [(bufferKernel 0x78, singleCall (ascii 'x'))] 1 [(ascii 'x').setWidth 32] ↔
    (∀ ch ∈ [(ascii 'x').setWidth 32], BitVec.setWidth 8 ch ≠ (0 : Byte)) ∧ [(ascii 'x').setWidth 32].length < 2 ^ 31 := by
  have output := @formatted_plain noLoads (fun _ => 0) (ascii 'x') (by decide) (by decide)
  refine userVcprintf_exact (by decide) output (userVcprintf_single output) rfl ?_
  intro state member
  rw [List.mem_singleton.mp member]
  exact singleCall_x

def charFormat : CString := ⟨text "%c", by decide⟩

theorem formatted_char : formatted mem charFormat args = .ok [(args 0).setWidth 32] := by
  refine formatted_single (pieces_bare (by decide) : pieces [ascii '%', ascii 'c'] = _) ?_
  rw [Directive.modify]
  rfl

/-- `cprintf("%c", 0)`: nothing comes of the one character. -/
theorem nul_lost : formatted noLoads charFormat (fun _ => 0) = .ok [0] ∧
    userVcprintf 0x1000 noLoads charFormat (fun _ => 0) (fun _ => 0) = .ok (1, [singleCall 0]) ∧
    (bufferKernel 0).Holds 0 0 (singleCall 0) ∧
    consoleOutput 0 0 [(bufferKernel 0, singleCall 0)] = .ok [[]] ∧
    ¬ Exact 0 0 [(bufferKernel 0, singleCall 0)] 1 [0] := by
  have output : consoleOutput 0 0 [(bufferKernel 0, singleCall 0)] = .ok [[]] := by
    have one : ∀ state ∈ [(bufferKernel 0, singleCall 0)], state = (bufferKernel 0, singleCall 0) :=
      fun state member => List.mem_singleton.mp member
    refine consoleOutput_held (fun state member => ?_) (fun state member => ?_) fun state member => ?_
    · rw [one state member]
      exact singleCall_nul
    · rw [one state member]
      decide
    · rw [one state member]
      decide
  refine ⟨formatted_char, userVcprintf_single formatted_char, singleCall_nul, output, fun exact => ?_⟩
  obtain ⟨chunks, done, lengths, -⟩ := exact.chunks
  cases output.symm.trans done
  exact absurd lengths (by decide)

end Jos
