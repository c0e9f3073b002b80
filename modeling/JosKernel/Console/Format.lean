import Mathlib.Data.BitVec
import JosKernel.Arch.Mmu
import JosKernel.Lib.Emission

namespace Jos.Format

open Emission (Printer put putAll)

abbrev Byte := BitVec 8

def ascii (ch : Char) : Byte := BitVec.ofNat 8 ch.toNat

def text (s : String) : List Byte := s.toList.map ascii

/-- How formatting is cut short: by a load that faults, by a read outside the format, or never. -/
inductive Cut
  | fault
  | overrun
  | endless
  deriving DecidableEq, Repr

structure CString where
  chars : List Byte
  ended : (0 : Byte) ∉ chars

def Canonical (va : Word) : Prop := va.toNat < 2 ^ 47 ∨ 2 ^ 64 - 2 ^ 47 ≤ va.toNat

structure Loads where
  byte : Word → Option Byte
  errorString : Word
  canonical : ∀ va, byte va ≠ none → Canonical va

namespace Loads

variable (mem : Loads)

def load (va : Word) : Except Cut Byte :=
  match mem.byte va with
  | some ch => .ok ch
  | none => .error .fault

def pointer (va : Word) : Except Cut Word := do
  let bytes ← (List.range 8).mapM fun i => mem.load (va + BitVec.ofNat 64 i)
  .ok (bytes.foldr (fun byte p => p <<< 8 ||| byte.setWidth 64) 0)

end Loads

/-- A `char *`: to memory, or to a string constant of the formatter itself. -/
inductive Chars
  | at (p : Word)
  | constant (chars : List Byte)

def Chars.char (mem : Loads) : Chars → Nat → Except Cut Byte
  | .at p, i => mem.load (p + BitVec.ofNat 64 i)
  | .constant chars, i => .ok (chars.getD i 0)

-- lib/string.c

/-- `n` counts the characters from the `i`-th on. -/
def strnlen (char : Nat → Except Cut Byte) : (size i : Nat) → (n : BitVec 32) → Except Cut (BitVec 32)
  | 0, _, n => .ok n
  | size + 1, i, n => do
    let ch ← char i
    if ch = 0 then .ok n else strnlen char size (i + 1) (n + 1)

-- lib/printfmt.c

section Output

variable {σ : Type} (putch : BitVec 32 → σ → σ)

/-- `for (; width > 0; width--) putch(padc, putdat)`. It gives the width that is left. -/
def pad (padc : Byte) (width : BitVec 32) : Printer Cut σ (BitVec 32) := do
  if 0 < width.toInt then
    put putch (padc.signExtend 32)
    pad padc (width - 1)
  else pure width
termination_by width.toInt.toNat
decreasing_by
  have smaller : (width - 1).toInt = width.toInt - 1 := by
    rw [BitVec.toInt_sub]
    have := width.toInt_lt
    have := width.le_toInt
    exact Int.bmod_eq_of_le (by simp; omega) (by simp; omega)
  omega

def digit (n : Nat) : Byte := (text "0123456789abcdef").getD n 0

def printnum (num base : Nat) (width : BitVec 32) (padc : Byte) : Printer Cut σ Unit := do
  if 1 < base ∧ base ≤ num then printnum (num / base) base (width - 1) padc
  else discard (pad putch padc (width - 1))
  put putch ((digit (num % base)).signExtend 32)
termination_by num
decreasing_by
  rename_i more
  exact Nat.div_lt_self (by omega) more.1

end Output

/-- `va_arg` with `unsigned int`, `unsigned long` and `unsigned long long`. -/
def getuint (slot : Word) (lflag : BitVec 32) : Word :=
  if 2 ≤ lflag.toInt then slot
  else if lflag ≠ 0 then slot
  else (slot.setWidth 32).setWidth 64

/-- The same with `int`, `long` and `long long`. -/
def getint (slot : Word) (lflag : BitVec 32) : Word :=
  if 2 ≤ lflag.toInt then slot
  else if lflag ≠ 0 then slot
  else (slot.setWidth 32).signExtend 64

def maxError : Int := 22

/-- `error_string` from its start on; the codes that are not listed have no text. -/
def errorText : Nat → Option String
  | 1 => some "unspecified error"
  | 2 => some "bad environment"
  | 3 => some "invalid parameter"
  | 4 => some "out of memory"
  | 5 => some "out of environments"
  | 6 => some "segmentation fault"
  | 8 => some "env is not recving"
  | 9 => some "unexpected end of file"
  | _ => none

structure Directive where
  padc : Byte
  width : BitVec 32
  precision : BitVec 32
  lflag : BitVec 32
  altflag : Bool
  deriving DecidableEq

namespace Directive

def initial : Directive := ⟨ascii ' ', -1, -1, 0, false⟩

def processPrecision (d : Directive) (precision : BitVec 32) : Directive :=
  if d.width.toInt < 0 then { d with width := precision, precision := -1 } else { d with precision := precision }

def point (d : Directive) : Directive := if d.width.toInt < 0 then { d with width := 0 } else d

end Directive

-- The conversions

section Conversions

variable {σ : Type} (putch : BitVec 32 → σ → σ)

/-- What `precision < 0 || --precision >= 0` leaves of the precision. -/
def decrement (precision : BitVec 32) : BitVec 32 := if precision.toInt < 0 then precision else precision - 1

/-- `ch != '\0' && (precision < 0 || --precision >= 0)` -/
def GoesOn (ch : Byte) (precision : BitVec 32) : Prop :=
  ch ≠ 0 ∧ (precision.toInt < 0 ∨ 0 ≤ (decrement precision).toInt)

instance (ch : Byte) (precision : BitVec 32) : Decidable (GoesOn ch precision) :=
  inferInstanceAs (Decidable (_ ∧ _))

/-- A character of a string; the alternative form shows one that is not printable as a question mark. -/
def shown (altflag : Bool) (ch : Byte) : BitVec 32 :=
  if altflag ∧ (ch.toInt < 0x20 ∨ 0x7E < ch.toInt) then (ascii '?').signExtend 32 else ch.signExtend 32

/-- The loop over a string, from its `i`-th character on. It gives the width that is left. Whoever has
    read the whole address space begins again. -/
def putChars (char : Nat → Except Cut Byte) (altflag : Bool) :
    (space i : Nat) → (width precision : BitVec 32) → Printer Cut σ (BitVec 32)
  | 0, _, _, _ => throw .endless
  | space + 1, i, width, precision => do
    let ch ← char i
    if GoesOn ch precision then do
      put putch (shown altflag ch)
      putChars char altflag space (i + 1) (width - 1) (decrement precision)
    else pure width

/-- `for (width -= strnlen(p, precision); width > 0; width--) putch(padc, putdat)`, where there is a width. -/
def padString (mem : Loads) (d : Directive) (p : Chars) : Printer Cut σ (BitVec 32) :=
  if 0 < d.width.toInt ∧ d.padc ≠ ascii '-' then do
    let n ← strnlen (p.char mem) (d.precision.signExtend 64).toNat 0 0
    pad putch d.padc (d.width - n)
  else pure d.width

def putString (mem : Loads) (d : Directive) (p : Chars) : Printer Cut σ Unit := do
  let width ← padString putch mem d p
  let width ← putChars putch (p.char mem) d.altflag (2 ^ 64) 0 width d.precision
  discard (pad putch (ascii ' ') width)

def putSigned (num : Word) (width : BitVec 32) (padc : Byte) : Printer Cut σ Unit := do
  if num.toInt < 0 then
    put putch ((ascii '-').signExtend 32)
    printnum putch (-num).toNat 10 width padc
  else printnum putch num.toNat 10 width padc

/-- `printfmt(putch, putdat, "error %d", err)` -/
def putErrorNumber (err : BitVec 32) : Printer Cut σ Unit := do
  putAll putch ((text "error ").map (·.signExtend 32))
  putSigned putch (err.setWidth 64) (-1) (ascii ' ')

/-- `printfmt(putch, putdat, "%s", p)` -/
def putErrorText (mem : Loads) (p : Chars) : Printer Cut σ Unit := putString putch mem .initial p

/-- `if (err < 0) err = -err`, which leaves the smallest `int` as it is. -/
def errorCode (err : BitVec 32) : BitVec 32 := if err.toInt < 0 then -err else err

/-- With the smallest `int`, `error_string` is read before its start. -/
def putErrorCode (mem : Loads) (err : BitVec 32) : Printer Cut σ Unit :=
  if maxError ≤ err.toInt then putErrorNumber putch err
  else if err.toInt < 0 then do
    let p ← mem.pointer (mem.errorString + 8 * err.signExtend 64)
    if p = 0 then putErrorNumber putch err else putErrorText putch mem (.at p)
  else
    match errorText err.toNat with
    | some message => putErrorText putch mem (.constant (text message))
    | none => putErrorNumber putch err

def putError (mem : Loads) (err : BitVec 32) : Printer Cut σ Unit := putErrorCode putch mem (errorCode err)

/-- The cases of the switch that end a conversion, with the slot of the next argument. `none` is the
    default case. -/
def convert (mem : Loads) (d : Directive) (ch : Byte) (slot : Word) : Option (Printer Cut σ Unit) :=
  if ch = ascii 'c' then some (put putch (slot.setWidth 32))
  else if ch = ascii 'e' then some (putError putch mem (slot.setWidth 32))
  else if ch = ascii 's' then
    some (putString putch mem d (if slot = 0 then .constant (text "(null)") else .at slot))
  else if ch = ascii 'd' then some (putSigned putch (getint slot 3) d.width d.padc)
  else if ch = ascii 'u' then some (printnum putch (getuint slot 3).toNat 10 d.width d.padc)
  else if ch = ascii 'o' then some (printnum putch (getuint slot 3).toNat 8 d.width d.padc)
  else if ch = ascii 'p' then some do
    put putch ((ascii '0').signExtend 32)
    put putch ((ascii 'x').signExtend 32)
    printnum putch slot.toNat 16 d.width d.padc
  else if ch = ascii 'x' then some (printnum putch (getuint slot 3).toNat 16 d.width d.padc)
  else if ch = ascii '%' then some (put putch (ch.signExtend 32))
  else none

def takes (ch : Byte) : Nat := if ch = ascii '%' then 0 else 1

end Conversions

-- Reading the format

section Scan

variable (fmt : List Byte)

/-- `fmt[i]`; behind the characters there is the NUL. -/
def fetch (i : Nat) : Except Cut Byte :=
  match (fmt ++ [0])[i]? with
  | some ch => .ok ch
  | none => .error .overrun

variable {fmt} in
theorem fetch_le {i : Nat} {ch : Byte} (fetched : fetch fmt i = .ok ch) : i ≤ fmt.length := by
  unfold fetch at fetched
  split at fetched
  · rename_i found
    have inside := (List.getElem?_eq_some_iff.mp found).1
    rw [List.length_append, List.length_singleton] at inside
    omega
  · cases fetched

def isDigit (ch : Byte) : Prop := ascii '0' ≤ ch ∧ ch ≤ ascii '9'

instance (ch : Byte) : Decidable (isDigit ch) := inferInstanceAs (Decidable (_ ∧ _))

def number (i : Nat) (ch : Byte) (precision : BitVec 32) : Except Cut (BitVec 32 × Nat) :=
  match fetched : fetch fmt i with
  | .error cut => .error cut
  | .ok next =>
    let precision := precision * 10 + ch.setWidth 32 - (ascii '0').setWidth 32
    if isDigit next then number (i + 1) next precision else .ok (precision, i)
termination_by fmt.length + 1 - i
decreasing_by
  have := fetch_le fetched
  omega

variable {fmt} in
theorem number_le {i j : Nat} {ch : Byte} {precision result : BitVec 32}
    (done : number fmt i ch precision = .ok (result, j)) : i ≤ j := by
  fun_induction number fmt i ch precision with
  | case1 => cases done
  | case2 =>
    rename_i ih
    have := ih done
    omega
  | case3 => exact Nat.le_of_eq (congrArg Prod.snd (Except.ok.inj done))

/-- Where the switch ends a conversion: the character there, behind it, and the next argument. -/
structure Escape where
  directive : Directive
  ch : Byte
  next : Nat
  arg : Nat

/-- The switch from `fmt[i]` on, up to a character that does not go back to it. -/
def reswitch (args : Nat → Word) (i arg : Nat) (d : Directive) : Except Cut Escape :=
  match fetched : fetch fmt i with
  | .error cut => .error cut
  | .ok ch =>
    if ch = ascii '-' then reswitch args (i + 1) arg { d with padc := ascii '-' }
    else if ch = ascii '0' then reswitch args (i + 1) arg { d with padc := ascii '0' }
    else if isDigit ch then
      match _numbered : number fmt (i + 1) ch 0 with
      | .error cut => .error cut
      | .ok (precision, j) => reswitch args j arg (d.processPrecision precision)
    else if ch = ascii '*' then
      reswitch args (i + 1) (arg + 1) (d.processPrecision ((args arg).setWidth 32))
    else if ch = ascii '.' then reswitch args (i + 1) arg d.point
    else if ch = ascii '#' then reswitch args (i + 1) arg { d with altflag := true }
    else if ch = ascii 'l' then reswitch args (i + 1) arg { d with lflag := d.lflag + 1 }
    else .ok ⟨d, ch, i + 1, arg⟩
termination_by fmt.length + 1 - i
decreasing_by
  all_goals
    have inside := fetch_le fetched
    first
      | omega
      | have := number_le _numbered
        omega

variable {fmt} in
theorem reswitch_lt {args : Nat → Word} {i arg : Nat} {d : Directive} {e : Escape}
    (done : reswitch fmt args i arg d = .ok e) : i < e.next := by
  fun_induction reswitch fmt args i arg d with
  | case1 => cases done
  | case4 => cases done
  | case5 =>
    rename_i numbered ih
    have := ih done
    have := number_le numbered
    omega
  | case2 | case3 | case6 | case7 | case8 | case9 =>
    rename_i ih
    have := ih done
    omega
  | case10 =>
    cases done
    exact Nat.lt_succ_self _

/-- `for (fmt--; fmt[-1] != '%'; fmt--)`, from the first decrement on. -/
def back : Nat → Except Cut Nat
  | 0 => .error .overrun
  | j + 1 =>
    match fetch fmt j with
    | .error cut => .error cut
    | .ok ch => if ch = ascii '%' then .ok (j + 1) else back j

variable {fmt} in
theorem back_lt {i j j' : Nat} (percent : fetch fmt i = .ok (ascii '%')) (behind : i < j)
    (done : back fmt j = .ok j') : i < j' := by
  induction j with
  | zero => omega
  | succ j ih =>
    rw [back] at done
    split at done
    · cases done
    split at done
    · cases done
      exact behind
    · rename_i fetched other
      refine ih ?_ done
      have elsewhere : j ≠ i := by
        rintro rfl
        rw [percent] at fetched
        cases fetched
        exact other rfl
      omega

end Scan

section Main

variable {σ : Type} (putch : BitVec 32 → σ → σ) (mem : Loads) (fmt : List Byte) (args : Nat → Word)

/-- The main loop from `fmt[i]` on. -/
def scan (i arg : Nat) : Printer Cut σ Unit :=
  match fetched : fetch fmt i with
  | .error cut => throw cut
  | .ok ch =>
    if percent : ch = ascii '%' then
      match _escape : reswitch fmt args (i + 1) arg .initial with
      | .error cut => throw cut
      | .ok e =>
        match convert putch mem e.directive e.ch (args e.arg) with
        | some print => do
          print
          scan e.next (e.arg + takes e.ch)
        | none => do
          put putch ((ascii '%').signExtend 32)
          match _literally : back fmt (e.next - 1) with
          | .error cut => throw cut
          | .ok j => scan j e.arg
    else if ch = 0 then pure ()
    else do
      put putch (ch.setWidth 32)
      scan (i + 1) arg
termination_by fmt.length + 1 - i
decreasing_by
  all_goals have inside := fetch_le fetched
  · have := reswitch_lt _escape
    omega
  · have := reswitch_lt _escape
    have := back_lt (percent ▸ fetched) (by omega) _literally
    omega
  · omega

end Main

def vprintfmt {σ : Type} (putch : BitVec 32 → σ → σ) (mem : Loads) (fmt : CString) (args : Nat → Word) :
    Printer Cut σ Unit := scan putch mem fmt.chars args 0 0

end Jos.Format
