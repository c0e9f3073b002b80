import JosKernel.Console.Decimal
import JosKernel.Lib.Fallible

namespace Jos.Format

open Emission (Printer put putAll Program Emits Uniform Loud output)

variable {mem : Loads} {args : Nat → Word}

-- Strings of which nothing is shown

theorem decrement_positive {precision : BitVec 32} (positive : ¬ precision.toInt < 0) :
    (decrement precision).toInt = precision.toInt - 1 := by
  have := precision.toInt_lt
  rw [decrement, if_neg positive, BitVec.toInt_sub]
  exact Int.bmod_eq_of_le (by simp; omega) (by simp; omega)

theorem strnlen_zero {char : Nat → Except Cut Byte} {ch : Byte} {precision : BitVec 32} (first : char 0 = .ok ch)
    (stops : ¬ GoesOn ch precision) : strnlen char (precision.signExtend 64).toNat 0 0 = .ok 0 := by
  by_cases ended : ch = 0
  · cases (precision.signExtend 64).toNat with
    | zero => rfl
    | succ size =>
      rw [strnlen, first, ended]
      rfl
  · have positive : ¬ precision.toInt < 0 := fun negative => stops ⟨ended, .inl negative⟩
    have below : ¬ 0 ≤ (decrement precision).toInt := fun more => stops ⟨ended, .inr more⟩
    rw [decrement_positive positive] at below
    have none : precision.toInt = (0 : BitVec 32).toInt := by
      change precision.toInt = 0
      omega
    rw [BitVec.eq_of_toInt_eq none]
    rfl

theorem pad_loud (padc : Byte) {width : BitVec 32} (positive : 0 < width.toInt) :
    Loud fun σ putch => pad (σ := σ) putch padc width := by
  simp only [pad_eq]
  apply Loud.bind (Emits.putAll _).uniform fun _ => (Emits.pure _).uniform
  apply Loud.putAll
  rw [ne_eq, List.replicate_eq_nil_iff]
  omega

theorem pad_silent (padc : Byte) {width : BitVec 32} (none : ¬ 0 < width.toInt) :
    output (fun σ putch => pad (σ := σ) putch padc width) = .ok (width, []) := by
  have nothing : (fun σ putch => pad (σ := σ) putch padc width) =
      fun σ (_ : BitVec 32 → σ → σ) => (pure width : Printer Cut σ (BitVec 32)) := by
    funext σ putch
    rw [pad, if_neg none]
  rw [nothing]
  exact (Emits.pure width).output

theorem putChars_empty {char : Nat → Except Cut Byte} {ch : Byte} {altflag : Bool} {space : Nat}
    {width precision : BitVec 32} (first : char 0 = .ok ch) (stops : ¬ GoesOn ch precision) :
    output (fun σ putch => putChars (σ := σ) putch char altflag (space + 1) 0 width precision) = .ok (width, []) := by
  have nothing : (fun σ putch => putChars (σ := σ) putch char altflag (space + 1) 0 width precision) =
      fun σ (_ : BitVec 32 → σ → σ) => (pure width : Printer Cut σ (BitVec 32)) := by
    funext σ putch
    rw [putChars, first]
    exact if_neg stops
  rw [nothing]
  exact (Emits.pure width).output

theorem putChars_loud {char : Nat → Except Cut Byte} {altflag : Bool} {space : Nat} {width precision : BitVec 32}
    (goes : ∀ ch, char 0 = .ok ch → GoesOn ch precision) :
    Loud fun σ putch => putChars (σ := σ) putch char altflag (space + 1) 0 width precision := by
  have uniform : ∀ ch, Uniform fun σ (putch : BitVec 32 → σ → σ) =>
      if GoesOn ch precision then (do
        put putch (shown altflag ch)
        putChars putch char altflag space 1 (width - 1) (decrement precision))
      else pure width := by
    intro ch
    by_cases more : GoesOn ch precision
    · simp only [if_pos more]
      exact (Emits.put _).uniform.bind fun _ => putChars_uniform _ _ _ _ _ _
    · simp only [if_neg more]
      exact (Emits.pure _).uniform
  apply Loud.after (Uniform.lift (char 0)) uniform
  intro ch out here
  have more : GoesOn ch precision := goes ch (Emission.output_lift here)
  simp only [if_pos more]
  exact Loud.bind (Emits.put _).uniform (fun _ => putChars_uniform _ _ _ _ _ _) (Loud.put _)

def SilentString (mem : Loads) (d : Directive) (p : Chars) : Prop :=
  d.width.toInt ≤ 0 ∧ ∃ ch, p.char mem 0 = .ok ch ∧ ¬ GoesOn ch d.precision

theorem padString_none (mem : Loads) {d : Directive} (p : Chars) (none : ¬ (0 < d.width.toInt ∧ d.padc ≠ ascii '-')) :
    output (fun σ putch => padString (σ := σ) putch mem d p) = .ok (d.width, []) := by
  have nothing : (fun σ putch => padString (σ := σ) putch mem d p) =
      fun σ (_ : BitVec 32 → σ → σ) => (pure d.width : Printer Cut σ (BitVec 32)) := by
    funext σ putch
    exact if_neg none
  rw [nothing]
  exact (Emits.pure d.width).output

section PutString

variable (d : Directive) (p : Chars)

theorem padding_uniform (width : BitVec 32) :
    Uniform fun σ (putch : BitVec 32 → σ → σ) => discard (pad putch (ascii ' ') width) :=
  (pad_uniform _ _).bind fun _ => (Emits.pure _).uniform

theorem string_uniform (mem : Loads) (width : BitVec 32) : Uniform fun σ (putch : BitVec 32 → σ → σ) =>
    putChars putch (p.char mem) d.altflag (2 ^ 64) 0 width d.precision >>= fun width =>
      discard (pad putch (ascii ' ') width) :=
  (putChars_uniform _ _ _ _ _ _).bind padding_uniform

variable {d p}

theorem putString_silent (silent : SilentString mem d p) :
    output (fun σ putch => putString (σ := σ) putch mem d p) = .ok ((), []) := by
  obtain ⟨narrow, ch, first, stops⟩ := silent
  have none : ¬ 0 < d.width.toInt := by omega
  have pads := padString_none mem p fun both : 0 < d.width.toInt ∧ d.padc ≠ ascii '-' => none both.1
  have whole := (padString_uniform mem d p).output_after (string_uniform d p mem) pads
  have chars := (putChars_uniform (p.char mem) d.altflag (2 ^ 64) 0 d.width d.precision).output_after padding_uniform
    (putChars_empty first stops)
  have padding : output (fun σ (putch : BitVec 32 → σ → σ) => discard (pad putch (ascii ' ') d.width)) = .ok ((), []) := by
    rw [Emission.output_discard (fun σ putch => pad (σ := σ) putch (ascii ' ') d.width), pad_silent _ none]
    rfl
  exact whole.trans (chars.trans padding)

/-- What is shown of the string, or else what fills the width: in front of the string, or behind it. -/
theorem putString_loud (loud : ¬ SilentString mem d p) : Loud fun σ putch => putString (σ := σ) putch mem d p := by
  by_cases goes : ∀ ch, p.char mem 0 = .ok ch → GoesOn ch d.precision
  · apply Loud.after (padString_uniform mem d p) (string_uniform d p mem)
    intro width out _
    exact Loud.bind (putChars_uniform _ _ _ _ _ _) padding_uniform (putChars_loud goes)
  obtain ⟨ch, first, stops⟩ : ∃ ch, p.char mem 0 = .ok ch ∧ ¬ GoesOn ch d.precision := by
    simpa only [not_forall, exists_prop] using goes
  have wide : 0 < d.width.toInt := by
    by_contra narrow
    exact loud ⟨by omega, ch, first, stops⟩
  by_cases left : d.padc = ascii '-'
  · have pads := padString_none mem p fun both : 0 < d.width.toInt ∧ d.padc ≠ ascii '-' => both.2 left
    apply Loud.after (padString_uniform mem d p) (string_uniform d p mem)
    intro width out padded
    cases pads.symm.trans padded
    apply Loud.after (putChars_uniform _ _ _ _ _ _) padding_uniform
    intro width out chars
    cases (putChars_empty first stops).symm.trans chars
    apply Loud.bind (pad_uniform _ _) fun _ => (Emits.pure _).uniform
    exact pad_loud _ wide
  · apply Loud.bind (padString_uniform mem d p) (string_uniform d p mem)
    unfold padString
    simp only [if_pos (And.intro wide left)]
    rw [strnlen_zero first stops]
    apply Loud.after (Uniform.lift _) fun n => pad_uniform _ _
    intro n out here
    cases Emission.output_lift here
    have whole : d.width - 0 = d.width := sub_zero _
    rw [whole]
    exact pad_loud _ wide

end PutString

-- Conversions and pieces that emit nothing

theorem printnum_loud {base : Nat} (two : 1 < base) (num : Nat) (width : BitVec 32) (padc : Byte) :
    Loud fun σ putch => printnum (σ := σ) putch num base width padc := by
  simp only [printnum_eq _ two]
  exact Loud.putAll (List.append_ne_nil_of_right_ne_nil _ (numeralChars_ne_nil base num))

theorem putSigned_loud (num : Word) (width : BitVec 32) (padc : Byte) :
    Loud fun σ putch => putSigned (σ := σ) putch num width padc := by
  simp only [putSigned_eq]
  apply Loud.putAll
  apply List.append_ne_nil_of_right_ne_nil
  exact List.append_ne_nil_of_right_ne_nil _ (numeralChars_ne_nil _ _)

theorem putErrorNumber_loud (err : BitVec 32) : Loud fun σ putch => putErrorNumber (σ := σ) putch err :=
  Loud.bind (Emits.putAll _).uniform (fun _ => putSigned_uniform _ _ _) (Loud.putAll (by decide))

/-- The pointer in front of `error_string` that the smallest `int` leads to, where it is one to an empty string. -/
def SilentError (mem : Loads) (err : BitVec 32) : Prop :=
  err = BitVec.intMin 32 ∧ ∃ p, mem.pointer (mem.errorString + 8 * err.signExtend 64) = .ok p ∧ p ≠ 0 ∧ mem.load p = .ok 0

theorem errorCode_negative {err : BitVec 32} : (errorCode err).toInt < 0 ↔ err = BitVec.intMin 32 := by
  constructor
  · intro negative
    unfold errorCode at negative
    split at negative
    · rename_i below
      by_contra other
      rw [BitVec.toInt_neg_of_ne_intMin other] at negative
      omega
    · omega
  · rintro rfl
    decide

theorem errorText_nonempty {err : Nat} {message : String} (known : errorText err = some message) :
    ∃ ch rest, text message = ch :: rest ∧ ch ≠ 0 := by
  unfold errorText at known
  split at known <;> cases known <;> exact ⟨_, _, rfl, by decide⟩

theorem putError_silent {err : BitVec 32} (silent : SilentError mem err) :
    output (fun σ putch => putError (σ := σ) putch mem err) = .ok ((), []) := by
  obtain ⟨rfl, p, pointer, nonnull, ended⟩ := silent
  have code : errorCode (BitVec.intMin 32) = BitVec.intMin 32 := by decide
  have small : ¬ maxError ≤ (BitVec.intMin 32).toInt := by decide
  have negative : (BitVec.intMin 32).toInt < 0 := by decide
  have string : (fun σ putch => putError (σ := σ) putch mem (BitVec.intMin 32)) =
      fun σ putch => putString (σ := σ) putch mem .initial (.at p) := by
    funext σ putch
    rw [putError, code, putErrorCode, if_neg small, if_pos negative, pointer]
    exact if_neg nonnull
  rw [string]
  refine putString_silent ⟨by decide, 0, ?_, fun goes => goes.1 rfl⟩
  rw [Chars.char]
  simpa using ended

theorem putError_loud {err : BitVec 32} (loud : ¬ SilentError mem err) :
    Loud fun σ putch => putError (σ := σ) putch mem err := by
  have number := putErrorNumber_loud (errorCode err)
  unfold putError putErrorCode
  by_cases large : maxError ≤ (errorCode err).toInt
  · simp only [if_pos large]
    exact number
  simp only [if_neg large]
  by_cases negative : (errorCode err).toInt < 0
  · simp only [if_pos negative]
    have smallest := errorCode_negative.mp negative
    have code : errorCode err = err := by
      rw [smallest]
      decide
    have uniform : ∀ p, Uniform fun σ (putch : BitVec 32 → σ → σ) =>
        if p = 0 then putErrorNumber putch (errorCode err) else putErrorText putch mem (.at p) := by
      intro p
      by_cases null : p = 0
      · simp only [if_pos null]
        exact putErrorNumber_uniform _
      · simp only [if_neg null]
        exact putString_uniform mem _ _
    apply Loud.after (Uniform.lift _) uniform
    intro p out here
    have pointer := Emission.output_lift here
    by_cases null : p = 0
    · simp only [if_pos null]
      exact number
    · simp only [if_neg null]
      apply putString_loud
      rintro ⟨-, ch, first, stops⟩
      have ended : ch = 0 := by
        by_contra more
        exact stops ⟨more, .inl (by decide)⟩
      rw [code] at pointer
      refine loud ⟨smallest, p, pointer, null, ?_⟩
      rw [Chars.char] at first
      simpa [ended] using first
  · simp only [if_neg negative]
    cases known : errorText (errorCode err).toNat with
    | none => exact number
    | some message =>
      obtain ⟨ch, rest, chars, nonzero⟩ := errorText_nonempty known
      apply putString_loud
      rintro ⟨-, first, here, stops⟩
      rw [Chars.char, chars] at here
      cases here
      exact stops ⟨nonzero, .inl (by decide)⟩

def SilentConversion (mem : Loads) (d : Directive) (ch : Byte) (slot : Word) : Prop :=
  (ch = ascii 's' ∧ SilentString mem d (if slot = 0 then .constant (text "(null)") else .at slot)) ∨
    (ch = ascii 'e' ∧ SilentError mem (slot.setWidth 32))

theorem convert_silent {d : Directive} {ch : Byte} {slot : Word} (silent : SilentConversion mem d ch slot) :
    output (fun σ putch => (convert (σ := σ) putch mem d ch slot).getD (pure ())) = .ok ((), []) := by
  rcases silent with ⟨rfl, string⟩ | ⟨rfl, error⟩
  · exact putString_silent string
  · exact putError_silent error

theorem convert_loud {d : Directive} {ch : Byte} {slot : Word} (known : isConversion ch = true)
    (loud : ¬ SilentConversion mem d ch slot) :
    Loud fun σ putch => (convert (σ := σ) putch mem d ch slot).getD (pure ()) := by
  rcases isConversion_iff.mp known with rfl | rfl | rfl | rfl | rfl | rfl | rfl | rfl | rfl
  · exact Loud.put _
  · exact putError_loud fun error => loud (.inr ⟨rfl, error⟩)
  · exact putString_loud fun string => loud (.inl ⟨rfl, string⟩)
  · exact putSigned_loud _ _ _
  · exact printnum_loud (by decide) _ _ _
  · exact printnum_loud (by decide) _ _ _
  · exact Loud.bind (Emits.put _).uniform
      (fun _ => (Emits.put _).uniform.bind fun _ => printnum_uniform (by decide) _ _ _) (Loud.put _)
  · exact printnum_loud (by decide) _ _ _
  · exact Loud.put _

def Silent (mem : Loads) (args : Nat → Word) : List Piece → Nat → Prop
  | [], _ => True
  | .plain _ :: _, _ => False
  | .echo _ :: _, _ => False
  | .convert mods ch :: rest, arg =>
    let escape := Directive.initial.modify args mods arg
    SilentConversion mem escape.1 ch (args escape.2) ∧ Silent mem args rest (escape.2 + takes ch)

def Piece.Shaped : Piece → Prop
  | .plain _ => True
  | .convert _ ch => isConversion ch = true
  | .echo chars => chars ≠ []

theorem pieces_shaped (fmt : List Byte) : ∀ piece ∈ pieces fmt, piece.Shaped := by
  fun_induction pieces fmt with
  | case1 => simp
  | case2 => simp [Piece.Shaped]
  | case3 =>
    rename_i ih
    intro piece member
    rcases List.mem_cons.mp member with rfl | behind
    · split
      · assumption
      · exact List.cons_ne_nil _ _
    · exact ih piece behind
  | case4 =>
    rename_i ih
    intro piece member
    rcases List.mem_cons.mp member with rfl | behind
    · trivial
    · exact ih piece behind

theorem render_silent {ps : List Piece} {arg : Nat} (silent : Silent mem args ps arg) :
    output (fun σ putch => render (σ := σ) putch mem args ps arg) = .ok ((), []) := by
  induction ps generalizing arg with
  | nil => rfl
  | cons piece ps ih =>
    cases piece with
    | plain ch => exact silent.elim
    | echo chars => exact silent.elim
    | convert mods ch =>
      obtain ⟨here, behind⟩ := silent
      exact ((convert_uniform mem _ _ _).output_after (fun _ => render_uniform _ _ _ _) (convert_silent here)).trans
        (ih behind)

theorem render_loud {ps : List Piece} {arg : Nat} (shaped : ∀ piece ∈ ps, piece.Shaped)
    (loud : ¬ Silent mem args ps arg) : Loud fun σ putch => render (σ := σ) putch mem args ps arg := by
  induction ps generalizing arg with
  | nil => exact absurd trivial loud
  | cons piece ps ih =>
    have others : ∀ piece ∈ ps, piece.Shaped := fun piece member => shaped piece (List.mem_cons_of_mem _ member)
    cases piece with
    | plain ch => exact Loud.bind (Emits.put _).uniform (fun _ => render_uniform _ _ _ _) (Loud.put _)
    | echo chars =>
      have some : chars ≠ [] := shaped _ (List.mem_cons_self ..)
      apply Loud.bind (Emits.putAll _).uniform fun _ => render_uniform _ _ _ _
      exact Loud.putAll fun none => some (List.map_eq_nil_iff.mp none)
    | convert mods ch =>
      have known : isConversion ch = true := shaped _ (List.mem_cons_self ..)
      by_cases here : SilentConversion mem (Directive.initial.modify args mods arg).1 ch
          (args (Directive.initial.modify args mods arg).2)
      · apply Loud.after (convert_uniform mem _ _ _) fun _ => render_uniform _ _ _ _
        intro _ _ _
        exact ih others fun behind => loud ⟨here, behind⟩
      · exact Loud.bind (convert_uniform mem _ _ _) (fun _ => render_uniform _ _ _ _) (convert_loud known here)

theorem formatted_nil {fmt : CString} {out : List (BitVec 32)} (full : formatted mem fmt args = .ok out) :
    out = [] ↔ Silent mem args (pieces fmt.chars) 0 := by
  unfold formatted at full
  simp only [vprintfmt_eq] at full
  obtain ⟨⟨⟨⟩, _⟩, done, rfl⟩ := Fallible.map_ok.mp full
  constructor
  · rintro rfl
    by_contra loud
    exact render_loud (pieces_shaped fmt.chars) loud () [] done rfl
  · intro silent
    cases (render_silent silent).symm.trans done
    rfl

end Jos.Format
