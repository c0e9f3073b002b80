import JosKernel.Arch.Mmu

namespace Jos

/-- What printing has done so far: the addresses it has fetched characters from and the characters it
    has put on the console, in order. -/
structure Trace where
  fetched : List Word
  printed : List (BitVec 8)

def Trace.empty : Trace := ⟨[], []⟩

/-- Why printing stopped early: a fetch from an address that is not mapped, or no fuel to go on. -/
inductive Cut
  | pageFault
  | spent
  deriving DecidableEq, Repr

abbrev Print (α : Type) := ExceptT Cut (StateM Trace) α

namespace Print

def putch (ch : BitVec 8) : Print Unit := modify fun trace => { trace with printed := trace.printed ++ [ch] }

def code (ch : Char) : BitVec 8 := BitVec.ofNat 8 ch.toNat

def putText (text : List Char) : Print Unit := text.forM fun ch => putch (code ch)

/-- `for (; width > 0; width--) putch(padc, putdat)` -/
def pad (width : Int) (padc : Char) : Print Unit := putText (List.replicate width.toNat padc)

-- lib/printfmt.c

/-- The flags and numbers between `%` and the conversion. `l` is counted in the source but has no
    effect, as `getint` and `getuint` are always told 3. -/
structure Directive where
  padc : Char
  width : Int
  precision : Int
  altflag : Bool

def Directive.initial : Directive := ⟨' ', -1, -1, false⟩

def Directive.processPrecision (d : Directive) (number : Int) : Directive :=
  if d.width < 0 then { d with width := number, precision := -1 } else { d with precision := number }

def Directive.point (d : Directive) : Directive := if d.width < 0 then { d with width := 0 } else d

/-- `va_arg(aq, int)`: the low 32 bits of the next argument. -/
def intArg (args : List Word) : Int := ((args.headD 0).setWidth 32).toInt

def number (digits : List Char) : Int :=
  digits.foldl (fun n ch => n * 10 + (ch.toNat - '0'.toNat : Nat)) 0

/-- The switch up to the conversion character, which is the first of the characters it leaves. -/
def reswitch (d : Directive) (args : List Word) : List Char → Directive × List Word × List Char
  | [] => (d, args, [])
  | ch :: fmt =>
    if ch = '-' then reswitch { d with padc := '-' } args fmt
    else if ch = '0' then reswitch { d with padc := '0' } args fmt
    else if ch.isDigit then
      reswitch (d.processPrecision (number (ch :: fmt.takeWhile Char.isDigit))) args (fmt.dropWhile Char.isDigit)
    else if ch = '*' then reswitch (d.processPrecision (intArg args)) args.tail fmt
    else if ch = '.' then reswitch d.point args fmt
    else if ch = '#' then reswitch { d with altflag := true } args fmt
    else if ch = 'l' then reswitch d args fmt
    else (d, args, ch :: fmt)
termination_by fmt => fmt.length
decreasing_by
  all_goals simp only [List.length_cons]
  all_goals first
    | omega
    | exact Nat.lt_succ_of_le (List.dropWhile_suffix _).length_le

theorem reswitch_length (d : Directive) (args : List Word) (fmt : List Char) :
    (reswitch d args fmt).2.2.length ≤ fmt.length := by
  fun_induction reswitch d args fmt with
  | case4 d args ch fmt _ _ _ ih =>
    have shorter := (List.dropWhile_suffix Char.isDigit : fmt.dropWhile Char.isDigit <:+ fmt).length_le
    rw [List.length_cons]
    omega
  | _ => simp only [List.length_cons, List.length_nil]; omega

theorem reswitch_shorter {d d' : Directive} {args args' : List Word} {fmt rest : List Char} {ch : Char}
    (escape : reswitch d args fmt = (d', args', ch :: rest)) : rest.length < fmt.length := by
  have shorter := reswitch_length d args fmt
  rwa [escape] at shorter

def digit (n : Nat) : Char := "0123456789abcdef".toList.getD n '0'

def printnum (num base : Nat) (width : Int) (padc : Char) : Print Unit := do
  if 1 < base ∧ base ≤ num then printnum (num / base) base (width - 1) padc
  else pad (width - 1) padc
  putText [digit (num % base)]
termination_by num
decreasing_by
  rename_i more
  exact Nat.div_lt_self (by omega) more.1

/-- `error_string`, and what stands in for the codes it has no text for. -/
def errorText (err : Nat) : List Char :=
  match err with
  | 1 => "unspecified error".toList
  | 2 => "bad environment".toList
  | 3 => "invalid parameter".toList
  | 4 => "out of memory".toList
  | 5 => "out of environments".toList
  | 6 => "segmentation fault".toList
  | 8 => "env is not recving".toList
  | 9 => "unexpected end of file".toList
  | _ => "error ".toList ++ Nat.toDigits 10 err

/-- The `strnlen` of lib/string.c, for the characters from the `i`-th on. -/
def strnlen (charAt : Nat → Print (BitVec 8)) : Nat → Nat → Word → Print Int
  | 0, _, _ => throw .spent
  | fuel + 1, i, size =>
    if size = 0 then pure i
    else do
      let ch ← charAt i
      if ch = 0 then pure i else strnlen charAt fuel (i + 1) (size - 1)

/-- `for (; (ch = *p++) != '\0' && (precision < 0 || --precision >= 0); width--)`. It gives the width
    that is left. -/
def putString (charAt : Nat → Print (BitVec 8)) (altflag : Bool) : Nat → Nat → Int → Int → Print Int
  | 0, _, _, _ => throw .spent
  | fuel + 1, i, precision, width => do
    let ch ← charAt i
    if ch ≠ 0 ∧ (precision < 0 ∨ 0 ≤ precision - 1) then do
      putch (if altflag ∧ (ch.toInt < 0x20 ∨ 0x7E < ch.toInt) then code '?' else ch)
      putString charAt altflag fuel (i + 1) (if precision < 0 then precision else precision - 1) (width - 1)
    else pure width

section Load

variable (load : Word → Option (BitVec 8))

def fetch (p : Word) : Print (BitVec 8) := do
  modify fun trace => { trace with fetched := trace.fetched ++ [p] }
  match load p with
  | none => throw .pageFault
  | some ch => pure ch

def charAt (p : Word) (i : Nat) : Print (BitVec 8) :=
  if p = 0 then pure (("(null)".toList.map code).getD i 0) else fetch load (p + BitVec.ofNat 64 i)

def putArg (fuel : Nat) (d : Directive) (p : Word) : Print Unit := do
  let width ← if 0 < d.width ∧ d.padc ≠ '-' then do
      let length ← strnlen (charAt load p) fuel 0 (BitVec.ofInt 64 d.precision)
      pad (d.width - length) d.padc
      pure (min (d.width - length) 0)
    else pure d.width
  let width ← putString (charAt load p) d.altflag fuel 0 d.precision width
  pad width ' '

/-- The conversions, with the arguments they leave. `none` is the default case of the switch. -/
def convert (fuel : Nat) (d : Directive) (args : List Word) (ch : Char) : Option (Print Unit × List Word) :=
  let arg := args.headD 0
  match ch with
  | 'c' => some (putch (arg.setWidth 8), args.tail)
  | 'e' => some (putText (errorText (intArg args).natAbs), args.tail)
  | 's' => some (putArg load fuel d arg, args.tail)
  | 'd' => some ((if arg.toInt < 0 then putText ['-'] else pure ()) *>
      printnum arg.toInt.natAbs 10 d.width d.padc, args.tail)
  | 'u' => some (printnum arg.toNat 10 d.width d.padc, args.tail)
  | 'o' => some (printnum arg.toNat 8 d.width d.padc, args.tail)
  | 'p' => some (putText ['0', 'x'] *> printnum arg.toNat 16 d.width d.padc, args.tail)
  | 'x' => some (printnum arg.toNat 16 d.width d.padc, args.tail)
  | '%' => some (putText ['%'], args)
  | _ => none

/-- A format string ends where its list does. After an escape that is not recognised, printing goes on
    behind the `%`. -/
def vprintfmt (fuel : Nat) : List Char → List Word → Print Unit
  | [], _ => pure ()
  | ch :: fmt, args =>
    if ch ≠ '%' then do
      putText [ch]
      vprintfmt fuel fmt args
    else
      match _escape : reswitch .initial args fmt with
      | (_, args, []) => do
        putText ['%']
        vprintfmt fuel fmt args
      | (d, args, ch :: rest) =>
        match convert load fuel d args ch with
        | some (print, args) => do
          print
          vprintfmt fuel rest args
        | none => do
          putText ['%']
          vprintfmt fuel fmt args
termination_by fmt => fmt.length
decreasing_by
  all_goals first
    | exact Nat.lt_succ_self _
    | exact Nat.lt_succ_of_lt (reswitch_shorter _escape)

end Load

-- kern/printf.c: the string constants of the kernel are lists

def cprintf (load : Word → Option (BitVec 8)) (fuel : Nat) (fmt : String) (args : List Word) : Print Unit :=
  vprintfmt load fuel fmt.toList args

def after {α : Type} (print : Print α) (trace : Trace) : Trace := (print.run.run trace).2

-- What is fetched

def Silent (print : Print Unit) : Prop :=
  ∀ trace, ∃ printed, print.run.run trace = (.ok (), { trace with printed := printed })

theorem Silent.pure : Silent (Pure.pure ()) := fun trace => ⟨trace.printed, rfl⟩

theorem Silent.putch (ch : BitVec 8) : Silent (putch ch) := fun trace => ⟨trace.printed ++ [ch], rfl⟩

theorem Silent.bind {first second : Print Unit} (hf : Silent first) (hs : Silent second) :
    Silent (first >>= fun _ => second) := by
  intro trace
  obtain ⟨printed, ran⟩ := hf trace
  obtain ⟨printed', ran'⟩ := hs { trace with printed := printed }
  refine ⟨printed', ?_⟩
  rw [ExceptT.run_bind, StateT.run_bind, ran]
  exact ran'

theorem Silent.putText (text : List Char) : Silent (putText text) := by
  induction text with
  | nil => exact .pure
  | cons ch text ih => exact (Silent.putch (code ch)).bind ih

theorem after_silent {α : Type} {print : Print Unit} (silent : Silent print) (next : Print α) (trace : Trace) :
    ∃ printed, after (print >>= fun _ => next) trace = after next { trace with printed := printed } := by
  obtain ⟨printed, ran⟩ := silent trace
  refine ⟨printed, ?_⟩
  rw [after, ExceptT.run_bind, StateT.run_bind, ran]
  rfl

section Fetched

variable {load : Word → Option (BitVec 8)} {p : Word} {trace : Trace}

theorem charAt_fault (nonnull : p ≠ 0) {i : Nat} (absent : load (p + BitVec.ofNat 64 i) = none) :
    (charAt load p i).run.run trace =
      (.error .pageFault, { trace with fetched := trace.fetched ++ [p + BitVec.ofNat 64 i] }) := by
  rw [charAt, if_neg nonnull, fetch, absent]
  rfl

theorem charAt_load (nonnull : p ≠ 0) {i : Nat} {ch : BitVec 8}
    (found : load (p + BitVec.ofNat 64 i) = some ch) :
    (charAt load p i).run.run trace =
      (.ok ch, { trace with fetched := trace.fetched ++ [p + BitVec.ofNat 64 i] }) := by
  rw [charAt, if_neg nonnull, fetch, found]
  rfl

theorem charAt_null (load : Word → Option (BitVec 8)) (trace : Trace) (zero : p = 0) (i : Nat) :
    ∃ ch, (charAt load p i).run.run trace = (.ok ch, trace) := by
  rw [charAt, if_pos zero]
  exact ⟨_, rfl⟩

theorem run_bind_ok {α β : Type} {print : Print α} {next : α → Print β} {value : α} {trace' : Trace}
    (ran : print.run.run trace = (.ok value, trace')) :
    (print >>= next).run.run trace = (next value).run.run trace' := by
  rw [ExceptT.run_bind, StateT.run_bind, ran]
  rfl

theorem after_bind_ok {α β : Type} {print : Print α} {next : α → Print β} {value : α} {trace' : Trace}
    (ran : print.run.run trace = (.ok value, trace')) :
    after (print >>= next) trace = after (next value) trace' := by
  rw [after, ExceptT.run_bind, StateT.run_bind, ran]
  rfl

theorem after_bind_error {α β : Type} {print : Print α} {next : α → Print β} {cut : Cut} {trace' : Trace}
    (ran : print.run.run trace = (.error cut, trace')) : after (print >>= next) trace = trace' := by
  rw [after, ExceptT.run_bind, StateT.run_bind, ran]
  rfl

/-- The characters that the loop over a string looks at: those up to the first that is NUL or not
    there, and no more than one beyond the precision. -/
def Looks (load : Word → Option (BitVec 8)) (p : Word) (precision : Int) (n : Nat) : Prop :=
  (∀ j < n, ∃ ch, load (p + BitVec.ofNat 64 j) = some ch ∧ ch ≠ 0) ∧ (precision < 0 ∨ (n : Int) ≤ precision)

/-- What is left of the precision before the `i`-th character. -/
def remaining (precision : Int) (i : Nat) : Int := if precision < 0 then precision else precision - i

theorem Looks.here {precision : Int} {i : Nat}
    (before : ∀ j < i, ∃ ch, load (p + BitVec.ofNat 64 j) = some ch ∧ ch ≠ 0)
    (more : precision < 0 ∨ (i : Int) ≤ precision) (stops : ¬ Looks load p precision (i + 1)) (n : Nat) :
    i ≤ n ∧ Looks load p precision n ↔ n = i := by
  constructor
  · rintro ⟨low, seen, within⟩
    by_contra other
    refine stops ⟨fun j small => seen j (by omega), ?_⟩
    omega
  · rintro rfl
    exact ⟨Nat.le_refl _, before, more⟩

theorem putString_fetched (load : Word → Option (BitVec 8)) (nonnull : p ≠ 0) (precision : Int)
    (altflag : Bool) (va : Word) (fuel i : Nat)
    (width : Int) (trace : Trace)
    (before : ∀ j < i, ∃ ch, load (p + BitVec.ofNat 64 j) = some ch ∧ ch ≠ 0)
    (more : precision < 0 ∨ (i : Int) ≤ precision) :
    va ∈ (after (putString (charAt load p) altflag fuel i (remaining precision i) width) trace).fetched ↔
      va ∈ trace.fetched ∨
        ∃ n, (i ≤ n ∧ Looks load p precision n) ∧ n < i + fuel ∧ va = p + BitVec.ofNat 64 n := by
  induction fuel generalizing i width trace with
  | zero =>
    rw [putString]
    constructor
    · exact .inl
    · rintro (old | ⟨n, ⟨low, -⟩, high, -⟩)
      · exact old
      · omega
  | succ fuel ih =>
    have stopped : ¬ Looks load p precision (i + 1) →
        (va ∈ trace.fetched ++ [p + BitVec.ofNat 64 i] ↔ va ∈ trace.fetched ∨
          ∃ n, (i ≤ n ∧ Looks load p precision n) ∧ n < i + (fuel + 1) ∧ va = p + BitVec.ofNat 64 n) := by
      intro stops
      rw [List.mem_append, List.mem_singleton]
      refine or_congr_right ?_
      simp only [Looks.here before more stops]
      constructor
      · intro here
        exact ⟨i, rfl, by omega, here⟩
      · rintro ⟨n, rfl, -, here⟩
        exact here
    rw [putString]
    cases found : load (p + BitVec.ofNat 64 i) with
    | none =>
      rw [after_bind_error (charAt_fault nonnull found)]
      refine stopped ?_
      rintro ⟨seen, -⟩
      obtain ⟨ch, loaded, -⟩ := seen i (by omega)
      rw [found] at loaded
      cases loaded
    | some ch =>
      rw [after_bind_ok (charAt_load nonnull found)]
      have next : (remaining precision i < 0 ∨ 0 ≤ remaining precision i - 1) ↔
          (precision < 0 ∨ ((i + 1 : Nat) : Int) ≤ precision) := by
        unfold remaining
        split <;> omega
      split
      · rename_i goes
        have within := next.mp goes.2
        have seen : ∀ j < i + 1, ∃ ch, load (p + BitVec.ofNat 64 j) = some ch ∧ ch ≠ 0 := by
          intro j small
          by_cases here : j = i
          · exact ⟨ch, by rw [here, found], goes.1⟩
          · exact before j (by omega)
        have left : (if remaining precision i < 0 then remaining precision i else remaining precision i - 1) =
            remaining precision (i + 1) := by
          unfold remaining
          split_ifs <;> omega
        rw [left]
        obtain ⟨printed, same⟩ := after_silent (.putch _)
          (putString (charAt load p) altflag fuel (i + 1) (remaining precision (i + 1)) (width - 1)) _
        rw [same, ih _ _ _ seen within, List.mem_append, List.mem_singleton, or_assoc]
        refine or_congr_right ?_
        constructor
        · rintro (here | ⟨n, ⟨low, looks⟩, high, here⟩)
          · exact ⟨i, ⟨Nat.le_refl i, before, more⟩, by omega, here⟩
          · exact ⟨n, ⟨by omega, looks⟩, by omega, here⟩
        · rintro ⟨n, ⟨low, looks⟩, high, here⟩
          by_cases first : n = i
          · exact .inl (by rw [here, first])
          · exact .inr ⟨n, ⟨by omega, looks⟩, by omega, here⟩
      · rename_i ends
        refine stopped ?_
        rintro ⟨seen, within⟩
        obtain ⟨ch', loaded, nonzero⟩ := seen i (by omega)
        rw [found] at loaded
        cases loaded
        exact ends ⟨nonzero, next.mpr within⟩

theorem putString_null (zero : p = 0) {altflag : Bool} (fuel i : Nat) (precision width : Int) (trace : Trace) :
    (after (putString (charAt load p) altflag fuel i precision width) trace).fetched = trace.fetched := by
  induction fuel generalizing i precision width trace with
  | zero => rfl
  | succ fuel ih =>
    obtain ⟨ch, ran⟩ := charAt_null load trace zero i
    rw [putString, after_bind_ok ran]
    split
    · obtain ⟨printed, same⟩ := after_silent (.putch _) (putString (charAt load p) altflag fuel (i + 1)
        (if precision < 0 then precision else precision - 1) (width - 1)) trace
      rw [same, ih]
    · rfl

theorem after_bind_silent {α : Type} {print : Print α} {next : α → Print Unit}
    (silent : ∀ value, Silent (next value)) (trace : Trace) :
    (after (print >>= next) trace).fetched = (after print trace).fetched := by
  cases ran : print.run.run trace with
  | mk result trace' =>
    have here : after print trace = trace' := congrArg Prod.snd ran
    cases result with
    | error cut => rw [after_bind_error ran, here]
    | ok value =>
      obtain ⟨printed, done⟩ := silent value trace'
      rw [after_bind_ok ran, here, after, done]

theorem cprintf_string (load : Word → Option (BitVec 8)) (fuel : Nat) (len s : Word) :
    cprintf load fuel "%.*s" [len, s] =
      putString (charAt load s) false fuel 0 (intArg [len]) 0 >>= fun width => pad width ' ' := by
  have format : "%.*s".toList = ['%', '.', '*', 's'] := rfl
  have parsed : reswitch .initial [len, s] ['.', '*', 's'] = (⟨' ', 0, intArg [len], false⟩, [s], ['s']) := by
    simp [reswitch, Directive.initial, Directive.point, Directive.processPrecision, intArg]
  have convertible : convert load fuel ⟨' ', 0, intArg [len], false⟩ [s] 's' =
      some (putArg load fuel ⟨' ', 0, intArg [len], false⟩ s, []) := rfl
  have rest : vprintfmt load fuel [] [] = pure () := by rw [vprintfmt]
  rw [cprintf, format, vprintfmt, if_neg (by simp)]
  split
  · rename_i escape
    rw [parsed] at escape
    cases escape
  · rename_i escape
    rw [parsed] at escape
    cases escape
    rw [convertible]
    simp only [rest]
    rw [putArg, if_neg (by simp)]
    exact bind_pure _

theorem cprintf_fetched (fuel : Nat) (len s va : Word) :
    va ∈ (after (cprintf load fuel "%.*s" [len, s]) .empty).fetched ↔
      s ≠ 0 ∧ ∃ n, n < fuel ∧ va = s + BitVec.ofNat 64 n ∧ Looks load s (intArg [len]) n := by
  have string : (after (cprintf load fuel "%.*s" [len, s]) .empty).fetched =
      (after (putString (charAt load s) false fuel 0 (intArg [len]) 0) .empty).fetched := by
    rw [cprintf_string]
    exact after_bind_silent (fun width => .putText _) _
  rw [string]
  by_cases zero : s = 0
  · rw [putString_null zero]
    simp [zero, Trace.empty]
  · have precision : remaining (intArg [len]) 0 = intArg [len] := by
      unfold remaining
      split_ifs <;> omega
    have fetched := putString_fetched load zero (intArg [len]) false va fuel 0 0 .empty
      (by simp) (by omega)
    rw [precision] at fetched
    rw [fetched]
    constructor
    · rintro (nothing | ⟨n, ⟨-, looks⟩, small, here⟩)
      · cases nothing
      · exact ⟨zero, n, by omega, here, looks⟩
    · rintro ⟨-, n, small, here, looks⟩
      exact .inr ⟨n, ⟨Nat.zero_le n, looks⟩, by omega, here⟩

end Fetched

end Print

end Jos
