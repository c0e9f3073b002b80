import JosKernel.Console.Pieces
import JosKernel.Lib.Numeral

namespace Jos.Format

open Emission (Printer put putAll Program Emits Uniform)

-- Numbers

section Numbers

variable {σ : Type} (putch : BitVec 32 → σ → σ)

theorem pad_eq (padc : Byte) (width : BitVec 32) :
    pad putch padc width = (do
      putAll putch (List.replicate width.toInt.toNat (padc.signExtend 32))
      pure (if 0 < width.toInt then 0 else width)) := by
  generalize size : width.toInt.toNat = n
  induction n generalizing width with
  | zero =>
    have none : ¬ 0 < width.toInt := by omega
    rw [pad, if_neg none, if_neg none]
    rfl
  | succ n ih =>
    have more : 0 < width.toInt := by omega
    have left : (width - 1).toInt = width.toInt - 1 := by
      rw [BitVec.toInt_sub]
      have := width.toInt_lt
      exact Int.bmod_eq_of_le (by simp; omega) (by simp; omega)
    have last : (if 0 < (width - 1).toInt then (0 : BitVec 32) else width - 1) = 0 := by
      split
      · rfl
      · rename_i done
        have zero : (width - 1).toInt = 0 := by omega
        exact BitVec.eq_of_toInt_eq (zero.trans BitVec.toInt_zero.symm)
    rw [pad, if_pos more, ih (width - 1) (by omega), if_pos more, last, List.replicate_succ, Emission.putAll_cons]
    rfl

def numeralChars (base n : Nat) : List (BitVec 32) := (Numeral.digits base n).map fun d => (digit d).signExtend 32

theorem printnum_eq {base : Nat} (two : 1 < base) (num : Nat) (width : BitVec 32) (padc : Byte) :
    printnum putch num base width padc =
      putAll putch (List.replicate (width - BitVec.ofNat 32 (numeralChars base num).length).toInt.toNat
        (padc.signExtend 32) ++ numeralChars base num) := by
  induction num using Nat.strongRecOn generalizing width with
  | ind num ih =>
    by_cases large : base ≤ num
    · have length : width - 1 - BitVec.ofNat 32 (numeralChars base (num / base)).length =
          width - BitVec.ofNat 32 (numeralChars base num).length := by
        rw [numeralChars, numeralChars, Numeral.digits_step two large, List.map_append, List.length_append,
          List.map_singleton, List.length_singleton, BitVec.ofNat_add]
        rw [BitVec.sub_sub, BitVec.add_comm 1]
        rfl
      have digits : numeralChars base num =
          numeralChars base (num / base) ++ [(digit (num % base)).signExtend 32] := by
        rw [numeralChars, Numeral.digits_step two large, List.map_append]
        rfl
      rw [printnum, if_pos ⟨two, large⟩, ih (num / base) (Nat.div_lt_self (by omega) two), length]
      generalize (width - BitVec.ofNat 32 (numeralChars base num).length).toInt.toNat = pads
      rw [digits, ← List.append_assoc, Emission.putAll_append _ (_ ++ _)]
      rfl
    · have small : num < base := by omega
      have digits : numeralChars base num = [(digit (num % base)).signExtend 32] := by
        rw [numeralChars, Numeral.digits_small small, Nat.mod_eq_of_lt small]
        rfl
      rw [printnum, if_neg fun both => large both.2, pad_eq, digits, Emission.putAll_append]
      rfl

end Numbers

-- What the callback does not matter for

section Callback

theorem pad_uniform (padc : Byte) (width : BitVec 32) : Uniform fun σ putch => pad (σ := σ) putch padc width := by
  simp only [pad_eq]
  exact (Emits.putAll _).uniform.bind fun _ => (Emits.pure _).uniform

theorem printnum_uniform {base : Nat} (two : 1 < base) (num : Nat) (width : BitVec 32) (padc : Byte) :
    Uniform fun σ putch => printnum (σ := σ) putch num base width padc := by
  simp only [printnum_eq _ two]
  exact (Emits.putAll _).uniform

theorem putChars_uniform (char : Nat → Except Cut Byte) (altflag : Bool) (space i : Nat)
    (width precision : BitVec 32) :
    Uniform fun σ putch => putChars (σ := σ) putch char altflag space i width precision := by
  induction space generalizing i width precision with
  | zero => exact (Emits.throw _).uniform
  | succ space ih =>
    refine Uniform.bind (Uniform.lift (char i)) fun ch => ?_
    by_cases more : GoesOn ch precision
    · simp only [if_pos more]
      exact (Emits.put _).uniform.bind fun _ => ih _ _ _
    · simp only [if_neg more]
      exact (Emits.pure _).uniform

theorem padString_uniform (mem : Loads) (d : Directive) (p : Chars) :
    Uniform fun σ putch => padString (σ := σ) putch mem d p := by
  unfold padString
  by_cases pads : 0 < d.width.toInt ∧ d.padc ≠ ascii '-'
  · simp only [if_pos pads]
    exact (Uniform.lift _).bind fun n => pad_uniform _ _
  · simp only [if_neg pads]
    exact (Emits.pure _).uniform

theorem putString_uniform (mem : Loads) (d : Directive) (p : Chars) :
    Uniform fun σ putch => putString (σ := σ) putch mem d p := by
  refine (padString_uniform mem d p).bind fun width => ?_
  refine (putChars_uniform _ _ _ _ _ _).bind fun width => ?_
  exact (pad_uniform _ _).bind fun _ => (Emits.pure _).uniform

theorem putSigned_uniform (num : Word) (width : BitVec 32) (padc : Byte) :
    Uniform fun σ putch => putSigned (σ := σ) putch num width padc := by
  unfold putSigned
  by_cases negative : num.toInt < 0
  · simp only [if_pos negative]
    exact (Emits.put _).uniform.bind fun _ => printnum_uniform (by decide) _ _ _
  · simp only [if_neg negative]
    exact printnum_uniform (by decide) _ _ _

theorem putErrorNumber_uniform (err : BitVec 32) : Uniform fun σ putch => putErrorNumber (σ := σ) putch err :=
  (Emits.putAll _).uniform.bind fun _ => putSigned_uniform _ _ _

theorem putErrorCode_uniform (mem : Loads) (err : BitVec 32) :
    Uniform fun σ putch => putErrorCode (σ := σ) putch mem err := by
  unfold putErrorCode
  by_cases large : maxError ≤ err.toInt
  · simp only [if_pos large]
    exact putErrorNumber_uniform err
  simp only [if_neg large]
  by_cases negative : err.toInt < 0
  · simp only [if_pos negative]
    refine (Uniform.lift _).bind fun p => ?_
    by_cases null : p = 0
    · simp only [if_pos null]
      exact putErrorNumber_uniform err
    · simp only [if_neg null]
      exact putString_uniform mem _ _
  · simp only [if_neg negative]
    cases errorText err.toNat with
    | none => exact putErrorNumber_uniform err
    | some message => exact putString_uniform mem _ _

theorem convert_uniform (mem : Loads) (d : Directive) (ch : Byte) (slot : Word) :
    Uniform fun σ putch => (convert (σ := σ) putch mem d ch slot).getD (pure ()) := by
  unfold convert
  by_cases c : ch = ascii 'c'
  · simp only [if_pos c]
    exact (Emits.put _).uniform
  by_cases e : ch = ascii 'e'
  · simp only [if_neg c, if_pos e]
    exact putErrorCode_uniform mem _
  by_cases s : ch = ascii 's'
  · simp only [if_neg c, if_neg e, if_pos s]
    exact putString_uniform mem d _
  by_cases d' : ch = ascii 'd'
  · simp only [if_neg c, if_neg e, if_neg s, if_pos d']
    exact putSigned_uniform _ _ _
  by_cases u : ch = ascii 'u'
  · simp only [if_neg c, if_neg e, if_neg s, if_neg d', if_pos u]
    exact printnum_uniform (by decide) _ _ _
  by_cases o : ch = ascii 'o'
  · simp only [if_neg c, if_neg e, if_neg s, if_neg d', if_neg u, if_pos o]
    exact printnum_uniform (by decide) _ _ _
  by_cases p : ch = ascii 'p'
  · simp only [if_neg c, if_neg e, if_neg s, if_neg d', if_neg u, if_neg o, if_pos p]
    exact (Emits.put _).uniform.bind fun _ => (Emits.put _).uniform.bind fun _ => printnum_uniform (by decide) _ _ _
  by_cases x : ch = ascii 'x'
  · simp only [if_neg c, if_neg e, if_neg s, if_neg d', if_neg u, if_neg o, if_neg p, if_pos x]
    exact printnum_uniform (by decide) _ _ _
  by_cases percent : ch = ascii '%'
  · simp only [if_neg c, if_neg e, if_neg s, if_neg d', if_neg u, if_neg o, if_neg p, if_neg x, if_pos percent]
    exact (Emits.put _).uniform
  · simp only [if_neg c, if_neg e, if_neg s, if_neg d', if_neg u, if_neg o, if_neg p, if_neg x, if_neg percent]
    exact (Emits.pure _).uniform

theorem render_uniform (mem : Loads) (args : Nat → Word) (ps : List Piece) (arg : Nat) :
    Uniform fun σ putch => render (σ := σ) putch mem args ps arg := by
  induction ps generalizing arg with
  | nil => exact (Emits.pure _).uniform
  | cons piece ps ih =>
    cases piece with
    | plain ch => exact (Emits.put _).uniform.bind fun _ => ih _
    | echo chars => exact (Emits.putAll _).uniform.bind fun _ => ih _
    | convert mods ch => exact (convert_uniform mem _ _ _).bind fun _ => ih _

end Callback

theorem vprintfmt_eq {σ : Type} (putch : BitVec 32 → σ → σ) (mem : Loads) (fmt : CString) (args : Nat → Word) :
    vprintfmt putch mem fmt args = render putch mem args (pieces fmt.chars) 0 :=
  scan_eq fmt.ended (Nat.zero_le _) 0

-- The formats that the formatter itself uses

def errorFormat : CString := ⟨text "error %d", by decide⟩

def stringFormat : CString := ⟨text "%s", by decide⟩

theorem errorFormat_pieces : pieces errorFormat.chars = (text "error ").map .plain ++ [.convert [] (ascii 'd')] := by
  change pieces [ascii 'e', ascii 'r', ascii 'r', ascii 'o', ascii 'r', ascii ' ', ascii '%', ascii 'd'] = _
  iterate 6 rw [pieces, if_neg (by decide)]
  rw [pieces_bare (by decide)]
  rfl

theorem render_plain {σ : Type} (putch : BitVec 32 → σ → σ) (mem : Loads) (args : Nat → Word) (chars : List Byte)
    (rest : List Piece) (arg : Nat) : render putch mem args (chars.map .plain ++ rest) arg = (do
      putAll putch (chars.map (·.setWidth 32))
      render putch mem args rest arg) := by
  induction chars with
  | nil => rfl
  | cons ch chars ih =>
    rw [List.map_cons, List.cons_append, render, ih, List.map_cons, Emission.putAll_cons]
    rfl

theorem render_bare {σ : Type} {putch : BitVec 32 → σ → σ} {mem : Loads} {args : Nat → Word} {conv : Byte}
    {print : Printer Cut σ Unit} (converts : convert putch mem .initial conv (args 0) = some print) :
    render putch mem args [.convert [] conv] 0 = print := by
  rw [render, Directive.modify, converts]
  exact bind_pure_unit

theorem printfmt_error {σ : Type} (putch : BitVec 32 → σ → σ) (mem : Loads) (err : BitVec 32) :
    vprintfmt putch mem errorFormat (fun _ => err.setWidth 64) = putErrorNumber putch err := by
  have converts : convert putch mem .initial (ascii 'd') (err.setWidth 64) =
      some (putSigned putch (err.setWidth 64) (-1) (ascii ' ')) := rfl
  rw [vprintfmt_eq, errorFormat_pieces, render_plain, render_bare converts]
  rfl

theorem printfmt_string {σ : Type} (putch : BitVec 32 → σ → σ) (mem : Loads) {p : Word} (nonnull : p ≠ 0) :
    vprintfmt putch mem stringFormat (fun _ => p) = putErrorText putch mem (.at p) := by
  have converts : convert putch mem .initial (ascii 's') p = some (putErrorText putch mem (.at p)) := by
    change some (putString putch mem .initial (if p = 0 then _ else _)) = _
    rw [if_neg nonnull]
    rfl
  rw [vprintfmt_eq, show stringFormat.chars = [ascii '%', ascii 's'] from rfl, pieces_bare (by decide),
    render_bare converts]

def formatted (mem : Loads) (fmt : CString) (args : Nat → Word) : Except Cut (List (BitVec 32)) :=
  (Emission.output fun σ putch => vprintfmt (σ := σ) putch mem fmt args).map Prod.snd

/-- Whatever the callback does, it is called for the formatted output, character by character. -/
theorem vprintfmt_run {σ : Type} (putch : BitVec 32 → σ → σ) (mem : Loads) (fmt : CString) (args : Nat → Word) (s : σ) :
    (vprintfmt putch mem fmt args).run s = (formatted mem fmt args).map fun out => ((), Emission.feed putch s out) := by
  have uniform : Uniform fun σ putch => vprintfmt (σ := σ) putch mem fmt args := by
    simp only [vprintfmt_eq]
    exact render_uniform mem args _ _
  rw [uniform σ putch s, formatted]
  cases Emission.output fun σ putch => vprintfmt (σ := σ) putch mem fmt args with
  | error cut => rfl
  | ok done => rfl

theorem vprintfmt_full {σ : Type} (putch : BitVec 32 → σ → σ) {mem : Loads} {fmt : CString} {args : Nat → Word}
    {out : List (BitVec 32)} (full : formatted mem fmt args = .ok out) (s : σ) :
    (vprintfmt putch mem fmt args).run s = .ok ((), Emission.feed putch s out) := by
  rw [vprintfmt_run, full]
  rfl

end Jos.Format
