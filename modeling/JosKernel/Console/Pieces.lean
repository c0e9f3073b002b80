import Mathlib.Data.List.TakeWhile
import JosKernel.Console.Format

namespace Jos.Format

open Emission (Printer put putAll)

/-- The characters that may stand between a `%` and the conversion. -/
def isModifier (ch : Byte) : Bool := isDigit ch ∨ ch ∈ text "-.*l#"

def isConversion (ch : Byte) : Bool := ch ∈ text "cesduopx%"

/-- What a format consists of: characters that stand for themselves, conversions with their modifiers,
    and what looks like one but is not, or is cut off. -/
inductive Piece
  | plain (ch : Byte)
  | convert (mods : List Byte) (ch : Byte)
  | echo (chars : List Byte)
  deriving DecidableEq

def pieces : List Byte → List Piece
  | [] => []
  | ch :: rest =>
    if ch = ascii '%' then
      let mods := rest.takeWhile isModifier
      match _split : rest.dropWhile isModifier with
      | [] => [.echo (ch :: mods)]
      | conv :: rest' =>
        (if isConversion conv then .convert mods conv else .echo (ch :: mods ++ [conv])) :: pieces rest'
    else .plain ch :: pieces rest
termination_by fmt => fmt.length
decreasing_by
  · have shorter := (List.dropWhile_suffix isModifier : rest.dropWhile isModifier <:+ rest).length_le
    rw [_split, List.length_cons] at shorter
    rw [List.length_cons]
    omega
  · exact Nat.lt_succ_self _

/-- The number that a sequence of digits stands for, as far as an `int` holds it. -/
def numberOf (digits : List Byte) : BitVec 32 :=
  digits.foldl (fun n ch => n * 10 + ch.setWidth 32 - (ascii '0').setWidth 32) 0

def Directive.modify (args : Nat → Word) : List Byte → Nat → Directive → Directive × Nat
  | [], arg, d => (d, arg)
  | ch :: mods, arg, d =>
    if ch = ascii '-' then modify args mods arg { d with padc := ascii '-' }
    else if ch = ascii '0' then modify args mods arg { d with padc := ascii '0' }
    else if isDigit ch then
      modify args (mods.dropWhile (isDigit ·)) arg (d.processPrecision (numberOf (ch :: mods.takeWhile (isDigit ·))))
    else if ch = ascii '*' then modify args mods (arg + 1) (d.processPrecision ((args arg).setWidth 32))
    else if ch = ascii '.' then modify args mods arg d.point
    else if ch = ascii '#' then modify args mods arg { d with altflag := true }
    else if ch = ascii 'l' then modify args mods arg { d with lflag := d.lflag + 1 }
    else (d, arg)
termination_by mods => mods.length
decreasing_by
  all_goals simp only [List.length_cons]
  all_goals first
    | omega
    | exact Nat.lt_succ_of_le (List.dropWhile_suffix _).length_le

section Render

variable {σ : Type} (putch : BitVec 32 → σ → σ) (mem : Loads) (args : Nat → Word)

def render : List Piece → Nat → Printer Cut σ Unit
  | [], _ => pure ()
  | .plain ch :: rest, arg => do
    put putch (ch.setWidth 32)
    render rest arg
  | .echo chars :: rest, arg => do
    putAll putch (chars.map (·.setWidth 32))
    render rest (arg + chars.count (ascii '*'))
  | .convert mods ch :: rest, arg => do
    let escape := Directive.initial.modify args mods arg
    (convert putch mem escape.1 ch (args escape.2)).getD (pure ())
    render rest (escape.2 + takes ch)

end Render

-- Reading characters

section Fetch

variable {fmt rest : List Byte} {i j : Nat} {ch : Byte}

theorem drop_next (here : fmt.drop i = ch :: rest) : fmt.drop (i + 1) = rest := by
  rw [← List.drop_drop, here]
  rfl

theorem drop_inside (here : fmt.drop i = ch :: rest) : i < fmt.length := by
  have length := congrArg List.length here
  rw [List.length_drop, List.length_cons] at length
  omega

theorem fetch_char (here : fmt.drop i = ch :: rest) : fetch fmt i = .ok ch := by
  have found : fmt[i]? = some ch := by
    have first := @List.getElem?_drop _ fmt i 0
    rw [here] at first
    exact first.symm
  unfold fetch
  rw [List.getElem?_append_left (drop_inside here), found]

theorem fetch_end (ended : fmt.drop i = []) (inside : i ≤ fmt.length) : fetch fmt i = .ok 0 := by
  have beyond := List.drop_eq_nil_iff.mp ended
  have last : i = fmt.length := by omega
  unfold fetch
  rw [last, List.getElem?_append_right (Nat.le_refl _), Nat.sub_self]
  rfl

theorem isDigit_zero : ¬ isDigit 0 := by decide

theorem number_eq (inside : i ≤ fmt.length) (ch : Byte) (precision : BitVec 32) :
    number fmt i ch precision =
      .ok ((ch :: (fmt.drop i).takeWhile (isDigit ·)).foldl
        (fun n ch => n * 10 + ch.setWidth 32 - (ascii '0').setWidth 32) precision,
        i + ((fmt.drop i).takeWhile (isDigit ·)).length) := by
  generalize rest : fmt.drop i = chars
  induction chars generalizing i ch precision with
  | nil =>
    rw [number, fetch_end rest inside]
    simp only
    rw [if_neg isDigit_zero]
    rfl
  | cons next chars ih =>
    rw [number, fetch_char rest]
    simp only
    have below := drop_inside rest
    split
    · rename_i digit
      rw [ih (by omega) next _ (drop_next rest), List.takeWhile_cons_of_pos (by simpa using digit)]
      simp only [List.foldl_cons, List.length_cons]
      congr 2
      omega
    · rename_i other
      rw [List.takeWhile_cons_of_neg (by simpa using other)]
      rfl

theorem isModifier_digit {ch : Byte} (digit : isDigit ch) : isModifier ch = true := by simp [isModifier, digit]

theorem isModifier_other {ch : Byte} (noMinus : ch ≠ ascii '-') (noDigit : ¬ isDigit ch) (noStar : ch ≠ ascii '*')
    (noPoint : ch ≠ ascii '.') (noHash : ch ≠ ascii '#') (noLong : ch ≠ ascii 'l') : isModifier ch = false := by
  simp [isModifier, text, noMinus, noDigit, noStar, noPoint, noHash, noLong]

theorem takeWhile_number (chars : List Byte) :
    chars.takeWhile isModifier =
      chars.takeWhile (isDigit ·) ++ (chars.dropWhile (isDigit ·)).takeWhile isModifier := by
  induction chars with
  | nil => rfl
  | cons ch chars ih =>
    by_cases digit : isDigit ch
    · rw [List.takeWhile_cons_of_pos (isModifier_digit digit), ih,
        List.takeWhile_cons_of_pos (by simpa using digit), List.dropWhile_cons_of_pos (by simpa using digit)]
      rfl
    · rw [List.takeWhile_cons_of_neg (p := (isDigit ·)) (by simpa using digit),
        List.dropWhile_cons_of_neg (by simpa using digit)]
      rfl

theorem dropWhile_number (chars : List Byte) :
    (chars.dropWhile (isDigit ·)).dropWhile isModifier = chars.dropWhile isModifier := by
  induction chars with
  | nil => rfl
  | cons ch chars ih =>
    by_cases digit : isDigit ch
    · rw [List.dropWhile_cons_of_pos (by simpa using digit), ih,
        List.dropWhile_cons_of_pos (isModifier_digit digit)]
    · rw [List.dropWhile_cons_of_neg (by simpa using digit)]

theorem modify_number (args : Nat → Word) {ch : Byte} (digit : isDigit ch) (nonzero : ch ≠ ascii '0')
    (chars : List Byte) (arg : Nat) (d : Directive) :
    d.modify args (ch :: chars.takeWhile isModifier) arg =
      (d.processPrecision (numberOf (ch :: chars.takeWhile (isDigit ·)))).modify args
        ((chars.dropWhile (isDigit ·)).takeWhile isModifier) arg := by
  have noMinus : ch ≠ ascii '-' := by
    rintro rfl
    exact absurd digit (by decide)
  have digits : (chars.takeWhile isModifier).takeWhile (isDigit ·) = chars.takeWhile (isDigit ·) := by
    rw [List.takeWhile_takeWhile]
    congr 1
    funext ch
    by_cases digit : isDigit ch
    · simp [digit, isModifier_digit digit]
    · simp [digit]
  have others : (chars.takeWhile isModifier).dropWhile (isDigit ·) =
      (chars.dropWhile (isDigit ·)).takeWhile isModifier := by
    have whole := @List.takeWhile_append_dropWhile _ (isDigit ·) (chars.takeWhile isModifier)
    rw [digits] at whole
    exact List.append_cancel_left (whole.trans (takeWhile_number chars))
  rw [Directive.modify, if_neg noMinus, if_neg nonzero, if_pos digit, digits, others]

theorem reswitch_eq (args : Nat → Word) (inside : i ≤ fmt.length) (arg : Nat) (d : Directive) :
    reswitch fmt args i arg d =
      let escape := d.modify args ((fmt.drop i).takeWhile isModifier) arg
      .ok ⟨escape.1, ((fmt.drop i).dropWhile isModifier).headD 0,
        i + ((fmt.drop i).takeWhile isModifier).length + 1, escape.2⟩ := by
  generalize size : (fmt.drop i).length = n
  induction n using Nat.strongRecOn generalizing i arg d with
  | ind n ih =>
    subst size
    cases chars : fmt.drop i with
    | nil =>
      rw [reswitch, fetch_end chars inside]
      simp only
      rw [if_neg (by decide), if_neg (by decide), if_neg (by decide), if_neg (by decide), if_neg (by decide),
        if_neg (by decide), if_neg (by decide), List.takeWhile_nil, Directive.modify]
      rfl
    | cons ch rest =>
      have below := drop_inside chars
      have next := drop_next chars
      have shorter : (fmt.drop (i + 1)).length < (fmt.drop i).length := by
        rw [next, chars, List.length_cons]
        exact Nat.lt_succ_self _
      have step : ∀ arg d, isModifier ch = true → reswitch fmt args (i + 1) arg d =
          .ok ⟨(d.modify args (rest.takeWhile isModifier) arg).1, ((ch :: rest).dropWhile isModifier).headD 0,
            i + ((ch :: rest).takeWhile isModifier).length + 1,
            (d.modify args (rest.takeWhile isModifier) arg).2⟩ := by
        intro arg d modifier
        rw [ih _ shorter (by omega) arg d rfl, next, List.takeWhile_cons_of_pos modifier,
          List.dropWhile_cons_of_pos modifier, List.length_cons]
        simp only [Except.ok.injEq, Escape.mk.injEq, true_and, and_true]
        omega
      rw [reswitch, fetch_char chars]
      simp only
      split
      · rename_i minus
        subst minus
        rw [step _ _ (by decide), List.takeWhile_cons_of_pos (by decide), Directive.modify, if_pos rfl]
      rename_i noMinus
      split
      · rename_i zero
        subst zero
        rw [step _ _ (by decide), List.takeWhile_cons_of_pos (by decide), Directive.modify,
          if_neg (by decide), if_pos rfl]
      rename_i noZero
      split
      · rename_i digit
        have many : (rest.takeWhile (isDigit ·)).length ≤ rest.length := (List.takeWhile_prefix _).length_le
        have length : rest.length = fmt.length - (i + 1) := by rw [← next, List.length_drop]
        have behind : fmt.drop (i + 1 + (rest.takeWhile (isDigit ·)).length) = rest.dropWhile (isDigit ·) := by
          rw [← List.drop_drop, next]
          conv => lhs; arg 2; rw [← @List.takeWhile_append_dropWhile _ (isDigit ·) rest]
          exact List.drop_left
        have fewer : (fmt.drop (i + 1 + (rest.takeWhile (isDigit ·)).length)).length < (fmt.drop i).length := by
          rw [List.length_drop, List.length_drop]
          omega
        have modifier := isModifier_digit digit
        rw [number_eq (by omega) ch 0, next]
        simp only
        rw [ih _ fewer (by omega) arg _ rfl, behind, List.takeWhile_cons_of_pos modifier,
          List.dropWhile_cons_of_pos modifier, modify_number args digit noZero, dropWhile_number, List.length_cons,
          takeWhile_number rest, List.length_append]
        simp only [numberOf, Except.ok.injEq, Escape.mk.injEq, true_and, and_true]
        omega
      rename_i noDigit
      split
      · rename_i star
        subst star
        rw [step _ _ (by decide), List.takeWhile_cons_of_pos (by decide), Directive.modify, if_neg (by decide),
          if_neg (by decide), if_neg (by decide), if_pos rfl]
      rename_i noStar
      split
      · rename_i point
        subst point
        rw [step _ _ (by decide), List.takeWhile_cons_of_pos (by decide), Directive.modify, if_neg (by decide),
          if_neg (by decide), if_neg (by decide), if_neg (by decide), if_pos rfl]
      rename_i noPoint
      split
      · rename_i hash
        subst hash
        rw [step _ _ (by decide), List.takeWhile_cons_of_pos (by decide), Directive.modify, if_neg (by decide),
          if_neg (by decide), if_neg (by decide), if_neg (by decide), if_neg (by decide), if_pos rfl]
      rename_i noHash
      split
      · rename_i long
        subst long
        rw [step _ _ (by decide), List.takeWhile_cons_of_pos (by decide), Directive.modify, if_neg (by decide),
          if_neg (by decide), if_neg (by decide), if_neg (by decide), if_neg (by decide), if_neg (by decide),
          if_pos rfl]
      · rename_i noLong
        have other := isModifier_other noMinus noDigit noStar noPoint noHash noLong
        rw [List.takeWhile_cons_of_neg (by simp [other]), List.dropWhile_cons_of_neg (by simp [other]),
          Directive.modify]
        rfl

theorem fetch_inside {chars : List Byte} (here : fmt.drop i = chars ++ rest) {n : Nat} (inside : n < chars.length) :
    fetch fmt (i + n) = .ok chars[n] := by
  have found : fmt[i + n]? = some chars[n] := by
    rw [← List.getElem?_drop, here, List.getElem?_append_left inside, List.getElem?_eq_getElem inside]
  have below := (List.getElem?_eq_some_iff.mp found).1
  unfold fetch
  rw [List.getElem?_append_left below, found]

theorem back_eq {chars : List Byte} (percent : fetch fmt i = .ok (ascii '%')) (here : fmt.drop (i + 1) = chars ++ rest)
    (others : ∀ ch ∈ chars, ch ≠ ascii '%') : back fmt (i + 1 + chars.length) = .ok (i + 1) := by
  have way : ∀ n, n ≤ chars.length → back fmt (i + 1 + n) = .ok (i + 1) := by
    intro n small
    induction n with
    | zero =>
      rw [Nat.add_zero, back, percent]
      exact if_pos rfl
    | succ n ih =>
      rw [← Nat.add_assoc, back, fetch_inside here (show n < chars.length by omega)]
      simp only
      rw [if_neg (others _ (List.getElem_mem _))]
      exact ih (by omega)
  exact way _ (Nat.le_refl _)

end Fetch

-- The main loop

theorem isConversion_iff {ch : Byte} : isConversion ch = true ↔ ch = ascii 'c' ∨ ch = ascii 'e' ∨ ch = ascii 's' ∨
    ch = ascii 'd' ∨ ch = ascii 'u' ∨ ch = ascii 'o' ∨ ch = ascii 'p' ∨ ch = ascii 'x' ∨ ch = ascii '%' := by
  simp [isConversion, text]

theorem convert_none {σ : Type} {putch : BitVec 32 → σ → σ} {mem : Loads} {d : Directive} {ch : Byte} {slot : Word} :
    convert putch mem d ch slot = none ↔ isConversion ch = false := by
  rw [← Bool.not_eq_true, isConversion_iff]
  unfold convert
  split_ifs with c e s d u o p x percent
  all_goals simp only [false_iff, not_not, *, true_or, or_true, or_self, not_false_eq_true]

theorem modify_arg (args : Nat → Word) (mods : List Byte) (arg : Nat) (d : Directive)
    (modifiers : ∀ ch ∈ mods, isModifier ch = true) : (d.modify args mods arg).2 = arg + mods.count (ascii '*') := by
  fun_induction Directive.modify args mods arg d with
  | case1 => rfl
  | case4 ch mods arg d noMinus noZero digit ih =>
    have split := congrArg (List.count (ascii '*')) (@List.takeWhile_append_dropWhile _ (isDigit ·) mods)
    have none : (mods.takeWhile (isDigit ·)).count (ascii '*') = 0 := by
      refine List.count_eq_zero.mpr fun member => ?_
      have digit := List.mem_takeWhile_imp member
      revert digit
      decide
    have star : ch ≠ ascii '*' := by
      rintro rfl
      exact absurd digit (by decide)
    rw [List.count_append, none] at split
    rw [ih fun ch member => modifiers ch (List.mem_cons_of_mem _ ((List.dropWhile_suffix _).subset member)),
      List.count_cons_of_ne star]
    omega
  | case5 =>
    rename_i ih
    rw [ih fun ch member => modifiers ch (List.mem_cons_of_mem _ member), List.count_cons_self]
    omega
  | case2 | case3 | case6 | case7 | case8 =>
    rename_i ih
    rw [ih fun ch member => modifiers ch (List.mem_cons_of_mem _ member), List.count_cons_of_ne (by decide)]
  | case9 ch mods arg d noMinus noZero noDigit noStar noPoint noHash noLong =>
    have modifier := modifiers ch (by simp)
    rw [isModifier_other noMinus noDigit noStar noPoint noHash noLong] at modifier
    cases modifier

theorem pieces_convert {mods : List Byte} {conv : Byte} (modifiers : ∀ ch ∈ mods, isModifier ch = true)
    (known : isConversion conv = true) (rest : List Byte) :
    pieces (ascii '%' :: (mods ++ conv :: rest)) = .convert mods conv :: pieces rest := by
  have ends : isModifier conv = false := by
    rcases isConversion_iff.mp known with rfl | rfl | rfl | rfl | rfl | rfl | rfl | rfl | rfl <;> decide
  have taken : (mods ++ conv :: rest).takeWhile isModifier = mods := by
    rw [List.takeWhile_append_of_pos modifiers, List.takeWhile_cons_of_neg (by simp [ends]), List.append_nil]
  have dropped : (mods ++ conv :: rest).dropWhile isModifier = conv :: rest := by
    rw [List.dropWhile_append_of_pos modifiers, List.dropWhile_cons_of_neg (by simp [ends])]
  rw [pieces, if_pos rfl]
  simp only
  split
  · rename_i split
    rw [dropped] at split
    cases split
  · rename_i split
    rw [dropped] at split
    cases split
    rw [if_pos known, taken]

theorem pieces_bare {conv : Byte} (known : isConversion conv = true) :
    pieces [ascii '%', conv] = [.convert [] conv] := by
  have none : ∀ ch ∈ ([] : List Byte), isModifier ch = true := by simp
  have read := pieces_convert none known []
  rw [pieces] at read
  exact read

section Scan

variable {σ : Type} {putch : BitVec 32 → σ → σ} {mem : Loads} {fmt : List Byte} {args : Nat → Word} {i : Nat}

theorem scan_end (fetched : fetch fmt i = .ok 0) (arg : Nat) : scan putch mem fmt args i arg = pure () := by
  rw [scan]
  split
  · rename_i other
    rw [fetched] at other
    cases other
  · rename_i ch other
    rw [fetched] at other
    cases other
    rfl

theorem scan_char {ch : Byte} (fetched : fetch fmt i = .ok ch) (noPercent : ch ≠ ascii '%') (nonzero : ch ≠ 0) (arg : Nat) :
    scan putch mem fmt args i arg = (do
      put putch (ch.setWidth 32)
      scan putch mem fmt args (i + 1) arg) := by
  rw [scan]
  split
  · rename_i other
    rw [fetched] at other
    cases other
  · rename_i ch' other
    rw [fetched] at other
    cases other
    rw [dif_neg noPercent, if_neg nonzero]

theorem scan_convert {arg : Nat} {e : Escape} {print : Printer Cut σ Unit} (fetched : fetch fmt i = .ok (ascii '%'))
    (escape : reswitch fmt args (i + 1) arg .initial = .ok e)
    (converts : convert putch mem e.directive e.ch (args e.arg) = some print) :
    scan putch mem fmt args i arg = (do
      print
      scan putch mem fmt args e.next (e.arg + takes e.ch)) := by
  rw [scan]
  split
  · rename_i other
    rw [fetched] at other
    cases other
  · rename_i ch other
    rw [fetched] at other
    cases other
    rw [dif_pos rfl]
    split
    · rename_i other
      rw [escape] at other
      cases other
    · rename_i e' other
      rw [escape] at other
      cases other
      rw [converts]

theorem scan_default {arg j : Nat} {e : Escape} (fetched : fetch fmt i = .ok (ascii '%'))
    (escape : reswitch fmt args (i + 1) arg .initial = .ok e)
    (unknown : convert putch mem e.directive e.ch (args e.arg) = none) (literally : back fmt (e.next - 1) = .ok j) :
    scan putch mem fmt args i arg = (do
      put putch ((ascii '%').signExtend 32)
      scan putch mem fmt args j e.arg) := by
  rw [scan]
  split
  · rename_i other
    rw [fetched] at other
    cases other
  · rename_i ch other
    rw [fetched] at other
    cases other
    rw [dif_pos rfl]
    split
    · rename_i other
      rw [escape] at other
      cases other
    · rename_i e' other
      rw [escape] at other
      cases other
      rw [unknown]
      simp only
      congr 1
      funext u
      split
      · rename_i other
        rw [literally] at other
        cases other
      · rename_i j' other
        rw [literally] at other
        cases other
        rfl

theorem scan_plain {chars rest : List Byte} (here : fmt.drop i = chars ++ rest)
    (plain : ∀ ch ∈ chars, ch ≠ ascii '%' ∧ ch ≠ 0) (arg : Nat) :
    scan putch mem fmt args i arg = (do
      putAll putch (chars.map (·.setWidth 32))
      scan putch mem fmt args (i + chars.length) arg) := by
  induction chars generalizing i with
  | nil => rfl
  | cons ch chars ih =>
    obtain ⟨noPercent, nonzero⟩ := plain ch (by simp)
    have whole := ih (drop_next here) fun ch member => plain ch (by simp [member])
    rw [scan_char (fetch_char here) noPercent nonzero, whole, List.map_cons, Emission.putAll_cons, List.length_cons,
      show i + (chars.length + 1) = i + 1 + chars.length by omega]
    rfl

theorem scan_echo {mods unknown rest : List Byte} (here : fmt.drop i = ascii '%' :: (mods ++ (unknown ++ rest)))
    {arg : Nat} {e : Escape} (escape : reswitch fmt args (i + 1) arg .initial = .ok e)
    (other : convert putch mem e.directive e.ch (args e.arg) = none) (next : e.next = i + 1 + mods.length + 1)
    (plain : ∀ ch ∈ mods ++ unknown, ch ≠ ascii '%' ∧ ch ≠ 0) :
    scan putch mem fmt args i arg = (do
      putAll putch ((ascii '%' :: (mods ++ unknown)).map (·.setWidth 32))
      scan putch mem fmt args (i + 1 + (mods ++ unknown).length) e.arg) := by
  have behind := drop_next here
  have returns : back fmt (e.next - 1) = .ok (i + 1) := by
    rw [next, Nat.add_sub_cancel]
    exact back_eq (fetch_char here) behind fun ch member => (plain ch (by simp [member])).1
  rw [← List.append_assoc] at behind
  have percent : (ascii '%').signExtend 32 = (ascii '%').setWidth 32 := by decide
  rw [scan_default (fetch_char here) escape other returns, scan_plain behind plain, percent, List.map_cons,
    Emission.putAll_cons]
  rfl

theorem scan_percent {rest : List Byte} (ended : (0 : Byte) ∉ fmt) (here : fmt.drop i = ascii '%' :: rest) (arg : Nat)
    (later : ∀ j arg, i < j → j ≤ fmt.length →
      scan putch mem fmt args j arg = render putch mem args (pieces (fmt.drop j)) arg) :
    scan putch mem fmt args i arg = render putch mem args (pieces (ascii '%' :: rest)) arg := by
  have below := drop_inside here
  have next := drop_next here
  have nonzero : ∀ ch ∈ rest, ch ≠ 0 := by
    rintro ch member rfl
    rw [← next] at member
    exact ended (List.mem_of_mem_drop member)
  have whole := @List.takeWhile_append_dropWhile _ isModifier rest
  have modifiers : ∀ ch ∈ rest.takeWhile isModifier, isModifier ch = true :=
    fun ch member => List.mem_takeWhile_imp member
  have plain : ∀ ch ∈ rest.takeWhile isModifier, ch ≠ ascii '%' ∧ ch ≠ 0 := by
    intro ch member
    refine ⟨?_, nonzero ch ((List.takeWhile_prefix _).subset member)⟩
    rintro rfl
    exact absurd (modifiers _ member) (by decide)
  have length := congrArg List.length next
  rw [List.length_drop] at length
  have size := congrArg List.length whole
  rw [List.length_append] at size
  have count := modify_arg args (rest.takeWhile isModifier) arg .initial modifiers
  have escape := reswitch_eq args (show i + 1 ≤ fmt.length by omega) arg .initial
  rw [next] at escape
  rw [pieces, if_pos rfl]
  cases split : rest.dropWhile isModifier with
  | nil =>
    rw [split, List.append_nil] at whole
    rw [split, List.length_nil] at size
    rw [split] at escape
    have here' : fmt.drop i = ascii '%' :: (rest.takeWhile isModifier ++ ([] ++ [])) := by
      rw [List.append_nil, List.append_nil, whole, here]
    have ends : fetch fmt (i + 1 + (rest.takeWhile isModifier ++ []).length) = .ok 0 := by
      refine fetch_end (List.drop_eq_nil_of_le ?_) ?_
      · rw [List.append_nil]
        omega
      · rw [List.append_nil]
        omega
    have unknown : isConversion 0 = false := by decide
    rw [scan_echo here' escape (convert_none.mpr unknown) rfl (by simpa using plain), scan_end ends]
    rw [List.append_nil]
    rfl
  | cons conv rest' =>
    rw [split] at escape whole
    rw [split, List.length_cons] at size
    have convHere : conv ∈ rest := by
      rw [← whole]
      simp
    have behind : fmt.drop (i + 1 + (rest.takeWhile isModifier ++ [conv]).length) = rest' := by
      rw [← List.drop_drop, next]
      conv => lhs; arg 2; rw [← whole, ← List.singleton_append, ← List.append_assoc]
      exact List.drop_left
    rw [List.length_append, List.length_singleton] at behind
    by_cases known : isConversion conv = true
    · have converts : convert putch mem (Directive.initial.modify args (rest.takeWhile isModifier) arg).1 conv
          (args (Directive.initial.modify args (rest.takeWhile isModifier) arg).2) ≠ none := by
        rw [ne_eq, convert_none, known]
        simp
      obtain ⟨print, converts⟩ := Option.ne_none_iff_exists'.mp converts
      rw [scan_convert (fetch_char here) escape converts, later _ _ (by simp only; omega) (by simp only; omega)]
      simp only
      rw [if_pos known, render, converts, Option.getD_some, Nat.add_assoc _ _ 1, behind]
      rfl
    · have unknown : isConversion conv = false := by simpa using known
      have here' : fmt.drop i = ascii '%' :: (rest.takeWhile isModifier ++ ([conv] ++ rest')) := by
        rw [List.singleton_append, whole, here]
      have last : conv ≠ ascii '%' ∧ conv ≠ 0 := by
        refine ⟨?_, nonzero conv convHere⟩
        rintro rfl
        exact known (by decide)
      have plain' : ∀ ch ∈ rest.takeWhile isModifier ++ [conv], ch ≠ ascii '%' ∧ ch ≠ 0 := by
        intro ch member
        rcases List.mem_append.mp member with member | member
        · exact plain ch member
        · rwa [List.mem_singleton.mp member]
      have noStar : conv ≠ ascii '*' := by
        rintro rfl
        have stopped := List.dropWhile_get_zero_not isModifier rest (by rw [split]; simp)
        simp [split] at stopped
        exact absurd stopped (by decide)
      rw [scan_echo here' escape (convert_none.mpr unknown) rfl plain', List.length_append, List.length_singleton,
        later _ _ (by omega) (by omega), behind]
      simp only
      have stars : (ascii '%' :: rest.takeWhile isModifier ++ [conv]).count (ascii '*') =
          (rest.takeWhile isModifier).count (ascii '*') := by
        rw [List.cons_append, List.count_cons_of_ne (by decide), List.count_append,
          List.count_singleton, if_neg (by simpa using noStar)]
        omega
      rw [if_neg known, render, count, stars]
      rfl

theorem scan_eq (ended : (0 : Byte) ∉ fmt) (inside : i ≤ fmt.length) (arg : Nat) :
    scan putch mem fmt args i arg = render putch mem args (pieces (fmt.drop i)) arg := by
  generalize size : fmt.length - i = n
  induction n using Nat.strongRecOn generalizing i arg with
  | ind n ih =>
    subst size
    cases chars : fmt.drop i with
    | nil =>
      rw [scan, fetch_end chars inside, pieces]
      rfl
    | cons ch rest =>
      have below := drop_inside chars
      have later : ∀ j arg, i < j → j ≤ fmt.length →
          scan putch mem fmt args j arg = render putch mem args (pieces (fmt.drop j)) arg :=
        fun j arg above inside => ih _ (by omega) inside arg rfl
      by_cases percent : ch = ascii '%'
      · subst percent
        exact scan_percent ended chars arg later
      · have nonzero : ch ≠ 0 := by
          rintro rfl
          refine ended (List.mem_of_mem_drop (i := i) ?_)
          rw [chars]
          simp
        rw [scan, fetch_char chars]
        simp only
        rw [dif_neg percent, if_neg nonzero, later (i + 1) arg (by omega) (by omega), drop_next chars, pieces,
          if_neg percent]
        rfl

end Scan

end Jos.Format
