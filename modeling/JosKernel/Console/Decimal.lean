import JosKernel.Console.Outputs

namespace Jos.Format

open Emission (Printer put putAll)

variable {mem : Loads} {args : Nat → Word}

-- Numerals as text

def minus : BitVec 32 := (ascii '-').signExtend 32

def space : BitVec 32 := (ascii ' ').signExtend 32

def signedNumeral (n : Int) : List (BitVec 32) :=
  (if n < 0 then [minus] else []) ++ numeralChars 10 n.natAbs

def digitOf (ch : BitVec 32) : Nat := (List.range 16).findIdx fun d => (digit d).signExtend 32 = ch

theorem digitOf_digit : ∀ d < 16, digitOf ((digit d).signExtend 32) = d := by decide +kernel

theorem digit_plain : ∀ d < 16, (digit d).signExtend 32 ≠ minus ∧ (digit d).signExtend 32 ≠ space := by
  decide +kernel

theorem numeralChars_digits {base : Nat} (two : 1 < base) (small : base ≤ 16) (n : Nat) :
    (numeralChars base n).map digitOf = Numeral.digits base n := by
  rw [numeralChars, List.map_map]
  refine (List.map_congr_left fun d member => ?_).trans (List.map_id _)
  exact digitOf_digit d (Nat.lt_of_lt_of_le (Numeral.digits_lt two member) small)

theorem numeralChars_inj {base n m : Nat} (two : 1 < base) (small : base ≤ 16)
    (same : numeralChars base n = numeralChars base m) : n = m := by
  refine Numeral.digits_inj two ?_
  rw [← numeralChars_digits two small, same, numeralChars_digits two small]

theorem numeralChars_plain {base n : Nat} (two : 1 < base) (small : base ≤ 16) {ch : BitVec 32}
    (member : ch ∈ numeralChars base n) : ch ≠ minus ∧ ch ≠ space := by
  obtain ⟨d, here, rfl⟩ := List.mem_map.mp member
  exact digit_plain d (Nat.lt_of_lt_of_le (Numeral.digits_lt two here) small)

theorem numeralChars_ne_nil (base n : Nat) : numeralChars base n ≠ [] := by
  rw [numeralChars, ne_eq, List.map_eq_nil_iff]
  exact Numeral.digits_ne_nil base n

theorem signedNumeral_inj {n m : Int} (same : signedNumeral n = signedNumeral m) : n = m := by
  have apart : ∀ n m : Int, numeralChars 10 n.natAbs ≠ minus :: numeralChars 10 m.natAbs := by
    intro n m same
    have member : minus ∈ numeralChars 10 n.natAbs := by simp [same]
    exact (numeralChars_plain (by decide) (by decide) member).1 rfl
  unfold signedNumeral at same
  split at same <;> split at same
  · have abs := numeralChars_inj (by decide) (by decide) (List.append_cancel_left same)
    omega
  · exact absurd same.symm (apart m n)
  · exact absurd same (apart n m)
  · have abs := numeralChars_inj (by decide) (by decide) same
    omega

theorem natAbs_negative {num : Word} (negative : num.toInt < 0) : (-num).toNat = num.toInt.natAbs := by
  have positive : num ≠ 0 := by
    rintro rfl
    exact absurd negative (by decide)
  rw [BitVec.toInt_eq_toNat_cond] at negative ⊢
  rw [BitVec.toNat_neg]
  have := num.isLt
  split at negative
  · omega
  · rw [if_neg (by assumption)]
    omega

theorem natAbs_positive {num : Word} (positive : ¬ num.toInt < 0) : num.toNat = num.toInt.natAbs := by
  rw [BitVec.toInt_eq_toNat_cond] at positive ⊢
  split at positive
  · rw [if_pos (by assumption)]
    omega
  · have := num.isLt
    omega

theorem putSigned_eq {σ : Type} (putch : BitVec 32 → σ → σ) (num : Word) (width : BitVec 32) (padc : Byte) :
    putSigned putch num width padc = putAll putch ((if num.toInt < 0 then [minus] else []) ++
      (List.replicate (width - BitVec.ofNat 32 (numeralChars 10 num.toInt.natAbs).length).toInt.toNat
        (padc.signExtend 32) ++ numeralChars 10 num.toInt.natAbs)) := by
  unfold putSigned
  split
  · rename_i negative
    rw [printnum_eq putch (by decide), natAbs_negative negative]
    rfl
  · rename_i positive
    rw [printnum_eq putch (by decide), natAbs_positive positive, List.nil_append]

theorem formatted_convert {fmt : CString} {mods : List Byte} {ch : Byte} {print : Printer Cut (List (BitVec 32)) Unit}
    (shape : pieces fmt.chars = [.convert mods ch])
    (prints : convert Emission.collect mem (Directive.initial.modify args mods 0).1 ch
      (args (Directive.initial.modify args mods 0).2) = some print) :
    formatted mem fmt args = (print.run []).map Prod.snd := by
  unfold formatted Emission.output
  simp only [vprintfmt_eq]
  rw [shape, render, prints, Option.getD_some, StateT.run_bind]
  cases print.run [] <;> rfl

theorem formatted_single {fmt : CString} {mods : List Byte} {ch : Byte} {out : List (BitVec 32)}
    (shape : pieces fmt.chars = [.convert mods ch])
    (emits : convert Emission.collect mem (Directive.initial.modify args mods 0).1 ch
      (args (Directive.initial.modify args mods 0).2) = some (putAll Emission.collect out)) :
    formatted mem fmt args = .ok out := by
  rw [formatted_convert shape emits]
  change Except.ok (Emission.feed Emission.collect [] out) = _
  rw [Emission.feed_collect]
  rfl

-- Field widths

def widthChars (w : Nat) : List Byte := (Numeral.digits 10 w).map digit

theorem digit_decimal : ∀ d < 10, isDigit (digit d) ∧ (digit d).setWidth 32 - (ascii '0').setWidth 32 = BitVec.ofNat 32 d := by
  decide +kernel

theorem digit_zero : ∀ d < 10, digit d = ascii '0' → d = 0 := by decide +kernel

theorem widthChars_digits (w : Nat) : ∀ ch ∈ widthChars w, isDigit ch := by
  intro ch member
  obtain ⟨d, here, rfl⟩ := List.mem_map.mp member
  exact (digit_decimal d (Numeral.digits_lt (by decide) here)).1

/-- `%<w>d` -/
def widthFormat (w : Nat) : CString where
  chars := ascii '%' :: (widthChars w ++ [ascii 'd'])
  ended := by
    intro member
    rcases List.mem_cons.mp member with percent | member
    · exact absurd percent (by decide)
    rcases List.mem_append.mp member with width | conv
    · exact absurd (widthChars_digits w 0 width) (by decide)
    · exact absurd (List.mem_singleton.mp conv) (by decide)

theorem widthFormat_pieces (w : Nat) : pieces (widthFormat w).chars = [.convert (widthChars w) (ascii 'd')] := by
  have modifiers : ∀ ch ∈ widthChars w, isModifier ch = true :=
    fun ch member => isModifier_digit (widthChars_digits w ch member)
  rw [widthFormat, pieces_convert modifiers (by decide), pieces]

theorem numberOf_widthChars (w : Nat) : numberOf (widthChars w) = BitVec.ofNat 32 w := by
  have fold : ∀ (ds : List Nat) (n : Nat), (∀ d ∈ ds, d < 10) →
      (ds.map digit).foldl (fun n ch => n * 10 + ch.setWidth 32 - (ascii '0').setWidth 32) (BitVec.ofNat 32 n) =
        BitVec.ofNat 32 (ds.foldl (fun n d => n * 10 + d) n) := by
    intro ds
    induction ds with
    | nil => exact fun _ _ => rfl
    | cons d ds ih =>
      intro n small
      have here := (digit_decimal d (small d (by simp))).2
      have step : BitVec.ofNat 32 n * 10 + (digit d).setWidth 32 - (ascii '0').setWidth 32 =
          BitVec.ofNat 32 (n * 10 + d) := by
        rw [add_sub_assoc, here, BitVec.ofNat_add, BitVec.ofNat_mul]
        rfl
      rw [List.map_cons, List.foldl_cons, List.foldl_cons, step]
      exact ih _ fun d member => small d (by simp [member])
  have value := Numeral.value_digits (by decide : 1 < 10) w
  rw [Numeral.value] at value
  rw [numberOf, widthChars]
  exact (fold _ 0 fun d member => Numeral.digits_lt (by decide) member).trans (by rw [value])

theorem modify_width {w : Nat} (positive : 0 < w) :
    Directive.initial.modify args (widthChars w) 0 = ({ Directive.initial with width := BitVec.ofNat 32 w }, 0) := by
  cases chars : widthChars w with
  | nil =>
    rw [widthChars, List.map_eq_nil_iff] at chars
    exact absurd chars (Numeral.digits_ne_nil 10 w)
  | cons ch rest =>
    have digits := widthChars_digits w
    rw [chars] at digits
    have digit := digits ch (by simp)
    have others : ∀ ch ∈ rest, decide (isDigit ch) = true := fun ch member => by simp [digits ch, member]
    have noMinus : ch ≠ ascii '-' := by
      rintro rfl
      exact absurd digit (by decide)
    have noZero : ch ≠ ascii '0' := by
      intro zero
      obtain ⟨d, ds, first, head, -⟩ := List.map_eq_cons_iff.mp chars
      have small := Numeral.digits_lt (n := w) (by decide : 1 < 10) (show d ∈ _ by rw [first]; simp)
      exact Numeral.digits_head positive first (digit_zero d small (head.trans zero))
    have number := numberOf_widthChars w
    rw [chars] at number
    rw [Directive.modify, if_neg noMinus, if_neg noZero, if_pos digit, List.takeWhile_eq_self_iff.mpr others,
      List.dropWhile_eq_nil_iff.mpr others, number, Directive.modify]
    rfl

/-- How many padding characters a width makes in front of `d` digits. -/
def pads (w d : Nat) : Nat := (BitVec.ofNat 32 w - BitVec.ofNat 32 d).toInt.toNat

theorem pads_wide {w d : Nat} (wide : d ≤ w) : pads w d = (((w - d : Nat) : Int).bmod (2 ^ 32)).toNat := by
  have difference : BitVec.ofNat 32 w - BitVec.ofNat 32 d = BitVec.ofNat 32 (w - d) := by
    conv => lhs; rw [show w = w - d + d by omega, BitVec.ofNat_add, BitVec.add_sub_cancel]
  rw [pads, difference, BitVec.toInt_ofNat']

theorem pads_narrow {w d : Nat} (narrow : w ≤ d) (small : d < 2 ^ 31) : pads w d = 0 := by
  have difference : (BitVec.ofNat 32 w - BitVec.ofNat 32 d).toInt = (w : Int) - d := by
    have left : (BitVec.ofNat 32 w).toInt = w := by
      rw [BitVec.toInt_ofNat']
      exact Int.bmod_eq_of_le (by omega) (by omega)
    have right : (BitVec.ofNat 32 d).toInt = d := by
      rw [BitVec.toInt_ofNat']
      exact Int.bmod_eq_of_le (by omega) (by omega)
    rw [BitVec.toInt_sub, left, right]
    exact Int.bmod_eq_of_le (by simp; omega) (by simp; omega)
  rw [pads, difference]
  omega

theorem pads_eq {w d : Nat} (small : d < 2 ^ 31) : pads w d = w - d ↔ w - d < 2 ^ 31 := by
  by_cases wide : d ≤ w
  · rw [pads_wide wide]
    by_cases fits : w - d < 2 ^ 31
    · have same : ((w - d : Nat) : Int).bmod (2 ^ 32) = (w - d : Nat) := Int.bmod_eq_of_le (by omega) (by omega)
      rw [same]
      exact iff_of_true (Int.toNat_natCast _) fits
    · have below : ((w - d : Nat) : Int).bmod (2 ^ 32) < 2 ^ 31 := by
        have := @Int.bmod_lt ((w - d : Nat) : Int) (2 ^ 32) (by decide)
        simpa using this
      refine iff_of_false ?_ fits
      omega
  · rw [pads_narrow (by omega) small]
    omega

/-- What `%<w>d` writes: the padding stands between the sign and the digits. -/
def widthOutput (w : Nat) (n : Int) : List (BitVec 32) :=
  (if n < 0 then [minus] else []) ++
    (List.replicate (pads w (numeralChars 10 n.natAbs).length) space ++ numeralChars 10 n.natAbs)

theorem formatted_width {w : Nat} (positive : 0 < w) :
    formatted mem (widthFormat w) args = .ok (widthOutput w (args 0).toInt) := by
  refine formatted_single (widthFormat_pieces w) ?_
  have slot : getint (args 0) 3 = args 0 := if_pos (by decide)
  rw [modify_width positive]
  change some (putSigned _ (getint (args 0) 3) (BitVec.ofNat 32 w) (ascii ' ')) = _
  rw [slot, putSigned_eq]
  rfl

/-- The numeral at the right end of a field of `w` characters. -/
def rightAligned (w : Nat) (n : Int) : List (BitVec 32) :=
  List.replicate (w - (signedNumeral n).length) space ++ signedNumeral n

theorem numeralChars_short {n : Int} (small : n.natAbs < 2 ^ 64) : (numeralChars 10 n.natAbs).length ≤ 20 := by
  rw [numeralChars, List.length_map, Numeral.digits_length_le (by decide) (by decide)]
  exact Nat.lt_trans small (by decide)

theorem widthOutput_aligned {n : Int} (small : n.natAbs < 2 ^ 64) (w : Nat) :
    widthOutput w n = rightAligned w n ↔ w ≤ (numeralChars 10 n.natAbs).length ∨
      0 ≤ n ∧ w - (numeralChars 10 n.natAbs).length < 2 ^ 31 := by
  have short := numeralChars_short small
  generalize digits : (numeralChars 10 n.natAbs).length = d at short
  unfold widthOutput rightAligned signedNumeral
  rw [digits]
  by_cases negative : n < 0
  · rw [if_pos negative, List.length_append, List.length_singleton, digits]
    by_cases narrow : w ≤ d
    · rw [pads_narrow narrow (by omega), show w - (1 + d) = 0 by omega]
      simp [narrow]
    · refine iff_of_false ?_ (by omega)
      by_cases exact : w = d + 1
      · have one : pads w d = w - d := (pads_eq (by omega)).mpr (by omega)
        rw [one, exact, show d + 1 - (1 + d) = 0 by omega, show d + 1 - d = 1 by omega]
        intro same
        have lengths := congrArg List.length same
        simp at lengths
      · obtain ⟨more, left⟩ : ∃ more, w - (1 + d) = more + 1 := ⟨w - (1 + d) - 1, by omega⟩
        rw [left, List.replicate_succ]
        intro same
        exact absurd (List.cons.inj same).1 (by decide)
  · rw [if_neg negative, List.nil_append, List.nil_append, digits, List.append_left_inj, List.replicate_inj,
      pads_eq (by omega)]
    have positive : 0 ≤ n := by omega
    simp only [positive, true_and, and_true, or_true]
    omega

/-- A signed decimal is right-aligned exactly if the width asks for no padding, or the number is not
    negative and an `int` holds the padding. -/
theorem decimal_aligned {w : Nat} (positive : 0 < w) :
    formatted mem (widthFormat w) args = .ok (rightAligned w (args 0).toInt) ↔
      w ≤ (numeralChars 10 (args 0).toInt.natAbs).length ∨
        0 ≤ (args 0).toInt ∧ w - (numeralChars 10 (args 0).toInt.natAbs).length < 2 ^ 31 := by
  have small : (args 0).toInt.natAbs < 2 ^ 64 := by
    have := (args 0).toInt_lt
    have := (args 0).le_toInt
    omega
  rw [formatted_width positive, Except.ok.injEq]
  exact widthOutput_aligned small w

def noLoads : Loads := ⟨fun _ => none, 0, by simp⟩

theorem numeralChars_42 : numeralChars 10 42 = [(ascii '4').signExtend 32, (ascii '2').signExtend 32] := by
  rw [numeralChars, Numeral.digits_step (by decide) (by decide), Numeral.digits_small (by decide)]
  decide

theorem decimal_aligned_42 : formatted noLoads (widthFormat 5) (fun _ => 42) = .ok (rightAligned 5 42) := by
  refine (decimal_aligned (w := 5) (by decide)).mpr (.inr ⟨by decide, ?_⟩)
  have tail : ((42 : Word).toInt).natAbs = 42 := by decide
  rw [tail, numeralChars_42]
  decide

/-- `cprintf("%5d", -42)` -/
theorem decimal_misaligned : formatted noLoads (widthFormat 5) (fun _ => -42) =
      .ok ((text "-   42").map (·.signExtend 32)) ∧
    rightAligned 5 (-42) = (text "  -42").map (·.signExtend 32) ∧
    formatted noLoads (widthFormat 5) (fun _ => -42) ≠ .ok (rightAligned 5 (-42)) := by
  have abs : (-42 : Int).natAbs = 42 := rfl
  have number : (-42 : Word).toInt = -42 := by decide
  have output : formatted noLoads (widthFormat 5) (fun _ => -42) =
      .ok ((text "-   42").map (·.signExtend 32)) := by
    rw [formatted_width (by decide), number, widthOutput, abs, numeralChars_42]
    decide
  have aligned : rightAligned 5 (-42) = (text "  -42").map (·.signExtend 32) := by
    rw [rightAligned, signedNumeral, abs, numeralChars_42]
    decide
  refine ⟨output, aligned, ?_⟩
  rw [output, aligned]
  decide

-- Arguments of type int

theorem pads_none {base num : Nat} (two : 1 < base) (small : num < 2 ^ 64) :
    ((-1 : BitVec 32) - BitVec.ofNat 32 (numeralChars base num).length).toInt.toNat = 0 := by
  have short : (numeralChars base num).length ≤ 64 := by
    rw [numeralChars, List.length_map, Numeral.digits_length_le two (by decide)]
    exact Nat.lt_of_lt_of_le small (Nat.pow_le_pow_left two 64)
  have widths : ∀ n : Nat, n ≤ 64 → ((-1 : BitVec 32) - BitVec.ofNat 32 n).toInt.toNat = 0 := by decide
  exact widths _ short

theorem printnum_initial {σ : Type} (putch : BitVec 32 → σ → σ) {base : Nat} (two : 1 < base) (num : Word) (padc : Byte) :
    printnum putch num.toNat base (-1) padc = putAll putch (numeralChars base num.toNat) := by
  rw [printnum_eq putch two, pads_none two num.isLt]
  rfl

theorem putSigned_initial {σ : Type} (putch : BitVec 32 → σ → σ) (num : Word) (padc : Byte) :
    putSigned putch num (-1) padc = putAll putch (signedNumeral num.toInt) := by
  have small : num.toInt.natAbs < 2 ^ 64 := by
    have := num.toInt_lt
    have := num.le_toInt
    omega
  rw [putSigned_eq, pads_none (by decide) small]
  rfl

inductive IntConversion
  | d
  | u
  | o
  | x
  deriving DecidableEq

namespace IntConversion

def char : IntConversion → Byte
  | d => ascii 'd'
  | u => ascii 'u'
  | o => ascii 'o'
  | x => ascii 'x'

def format (conversion : IntConversion) : CString where
  chars := [ascii '%', conversion.char]
  ended := by cases conversion <;> decide

def base : IntConversion → Nat
  | d => 10
  | u => 10
  | o => 8
  | x => 16

def numeral (conversion : IntConversion) (value : BitVec 32) : List (BitVec 32) :=
  match conversion with
  | d => signedNumeral value.toInt
  | _ => numeralChars conversion.base value.toNat

def Extended (conversion : IntConversion) (slot : Word) : Prop :=
  match conversion with
  | d => slot = (slot.setWidth 32).signExtend 64
  | _ => slot = (slot.setWidth 32).setWidth 64

theorem formatted_slot (conversion : IntConversion) : formatted mem conversion.format args = .ok (match conversion with
    | d => signedNumeral (args 0).toInt
    | _ => numeralChars conversion.base (args 0).toNat) := by
  have shape : pieces conversion.format.chars = [.convert [] conversion.char] := by
    have known : isConversion conversion.char = true := by cases conversion <;> decide
    exact pieces_bare known
  have whole : getint (args 0) 3 = args 0 ∧ getuint (args 0) 3 = args 0 := ⟨if_pos (by decide), if_pos (by decide)⟩
  refine formatted_single shape ?_
  rw [Directive.modify]
  cases conversion with
  | d =>
    change some (putSigned _ (getint (args 0) 3) (-1) (ascii ' ')) = _
    rw [whole.1, putSigned_initial]
  | u =>
    change some (printnum _ (getuint (args 0) 3).toNat 10 (-1) (ascii ' ')) = _
    rw [whole.2, printnum_initial _ (by decide)]
    rfl
  | o =>
    change some (printnum _ (getuint (args 0) 3).toNat 8 (-1) (ascii ' ')) = _
    rw [whole.2, printnum_initial _ (by decide)]
    rfl
  | x =>
    change some (printnum _ (getuint (args 0) 3).toNat 16 (-1) (ascii ' ')) = _
    rw [whole.2, printnum_initial _ (by decide)]
    rfl

theorem slot_signed (slot : Word) : slot.toInt = (slot.setWidth 32).toInt ↔ slot = (slot.setWidth 32).signExtend 64 := by
  have extended : ((slot.setWidth 32).signExtend 64).toInt = (slot.setWidth 32).toInt :=
    BitVec.toInt_signExtend_of_le (by decide)
  rw [← extended]
  exact ⟨BitVec.eq_of_toInt_eq, congrArg BitVec.toInt⟩

theorem slot_unsigned (slot : Word) : slot.toNat = (slot.setWidth 32).toNat ↔ slot = (slot.setWidth 32).setWidth 64 := by
  have extended : ((slot.setWidth 32).setWidth 64).toNat = (slot.setWidth 32).toNat := BitVec.toNat_setWidth_of_le (by decide)
  rw [← extended]
  exact ⟨BitVec.eq_of_toNat_eq, congrArg BitVec.toNat⟩

/-- The numeral of the argument comes out exactly if the caller has extended it to the whole slot. -/
theorem prints_int (conversion : IntConversion) :
    formatted mem conversion.format args = .ok (conversion.numeral ((args 0).setWidth 32)) ↔
      conversion.Extended (args 0) := by
  rw [formatted_slot, Except.ok.injEq]
  have unsigned : ∀ base, 1 < base → base ≤ 16 →
      (numeralChars base (args 0).toNat = numeralChars base ((args 0).setWidth 32).toNat ↔
        args 0 = ((args 0).setWidth 32).setWidth 64) := by
    intro base two small
    rw [← slot_unsigned]
    exact ⟨numeralChars_inj two small, congrArg (numeralChars base)⟩
  cases conversion with
  | d =>
    change signedNumeral _ = signedNumeral _ ↔ args 0 = _
    rw [← slot_signed]
    exact ⟨signedNumeral_inj, congrArg signedNumeral⟩
  | u => exact unsigned 10 (by decide) (by decide)
  | o => exact unsigned 8 (by decide) (by decide)
  | x => exact unsigned 16 (by decide) (by decide)

/-- The argument 5 in a slot whose high half is 1. -/
theorem prints_high_half : (0x100000005 : Word).setWidth 32 = (5 : BitVec 32) ∧
    formatted noLoads (format d) (fun _ => 0x100000005) = .ok (signedNumeral 4294967301) ∧
    formatted noLoads (format d) (fun _ => 0x100000005) ≠ .ok (numeral d 5) := by
  have output : formatted noLoads (format d) (fun _ => 0x100000005) = .ok (signedNumeral 4294967301) :=
    formatted_slot d
  refine ⟨by decide, output, ?_⟩
  rw [output]
  intro same
  exact absurd (signedNumeral_inj (Except.ok.inj same)) (by decide)

end IntConversion

end Jos.Format
