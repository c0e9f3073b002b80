import JosKernel.Console.Outputs

namespace Jos.Format

open Emission (Printer put putAll)

variable {α β σ : Type} {putch : BitVec 32 → σ → σ} {mem : Loads} {args : Nat → Word}

-- What can stop the formatter

def Loads.Only (result : Except Cut α) : Prop := ∀ cut, result = .error cut → cut = .fault

theorem Loads.only_ok (value : α) : Loads.Only (.ok value) := by
  intro cut failed
  cases failed

theorem Loads.only_bind {first : Except Cut α} {next : α → Except Cut β} (only : Loads.Only first)
    (rest : ∀ value, Loads.Only (next value)) : Loads.Only (first >>= next) := by
  cases first with
  | error stop =>
    rintro cut ⟨⟩
    exact only stop rfl
  | ok value => exact rest value

theorem Loads.load_only (mem : Loads) (va : Word) : Loads.Only (mem.load va) := by
  unfold Loads.load
  split
  · exact Loads.only_ok _
  · rintro cut ⟨⟩
    rfl

theorem Loads.mapM_only {f : α → Except Cut β} (only : ∀ item, Loads.Only (f item)) (items : List α) :
    Loads.Only (items.mapM f) := by
  induction items with
  | nil => exact Loads.only_ok []
  | cons item items ih =>
    rw [List.mapM_cons]
    exact Loads.only_bind (only item) fun value => Loads.only_bind ih fun values => Loads.only_ok _

theorem Loads.pointer_only (mem : Loads) (va : Word) : Loads.Only (mem.pointer va) :=
  Loads.only_bind (Loads.mapM_only (fun _ => mem.load_only _) _) fun _ => Loads.only_ok _

theorem Chars.char_only (mem : Loads) (p : Chars) (i : Nat) : Loads.Only (p.char mem i) := by
  cases p with
  | «at» p => exact mem.load_only _
  | constant chars => exact Loads.only_ok _

theorem strnlen_only {char : Nat → Except Cut Byte} (only : ∀ i, Loads.Only (char i)) (size i : Nat) (n : BitVec 32) :
    Loads.Only (strnlen char size i n) := by
  induction size generalizing i n with
  | zero => exact Loads.only_ok n
  | succ size ih =>
    refine Loads.only_bind (only i) fun ch => ?_
    split
    · exact Loads.only_ok n
    · exact ih _ _

def OnlyLoads (print : Printer Cut σ α) : Prop := ∀ s, Loads.Only (print.run s)

namespace OnlyLoads

theorem pure (value : α) : OnlyLoads (Pure.pure value : Printer Cut σ α) := fun _ => Loads.only_ok _

theorem put (ch : BitVec 32) : OnlyLoads (Emission.put putch ch) := fun _ => Loads.only_ok _

theorem putAll (out : List (BitVec 32)) : OnlyLoads (Emission.putAll putch out) := fun _ => Loads.only_ok _

theorem bind {first : Printer Cut σ α} {next : α → Printer Cut σ β} (only : OnlyLoads first)
    (rest : ∀ value, OnlyLoads (next value)) : OnlyLoads (first >>= next) :=
  fun s => Loads.only_bind (only s) fun done => rest done.1 done.2

theorem lift {value : Except Cut α} (only : Loads.Only value) : OnlyLoads (liftM value : Printer Cut σ α) := by
  cases value with
  | error cut =>
    rintro s cut' ⟨⟩
    exact only cut rfl
  | ok value => exact OnlyLoads.pure value

end OnlyLoads

theorem pad_only (padc : Byte) (width : BitVec 32) : OnlyLoads (pad putch padc width) := by
  rw [pad_eq]
  exact (OnlyLoads.putAll _).bind fun _ => .pure _

theorem printnum_only {base : Nat} (two : 1 < base) (num : Nat) (width : BitVec 32) (padc : Byte) :
    OnlyLoads (printnum putch num base width padc) := by
  rw [printnum_eq putch two]
  exact .putAll _

theorem putSigned_only (num : Word) (width : BitVec 32) (padc : Byte) : OnlyLoads (putSigned putch num width padc) := by
  unfold putSigned
  split
  · exact (OnlyLoads.put _).bind fun _ => printnum_only (by decide) _ _ _
  · exact printnum_only (by decide) _ _ _

-- Strings

def Chars.Ends (mem : Loads) (p : Chars) : Prop := ∃ j < 2 ^ 64, ∀ ch, p.char mem j = .ok ch → ch = 0

theorem Chars.ends_at (mem : Loads) (p : Word) : (Chars.at p).Ends mem := by
  refine ⟨(BitVec.ofNat 64 (2 ^ 47) - p).toNat, BitVec.isLt _, ?_⟩
  intro ch loaded
  have away : p + BitVec.ofNat 64 (BitVec.ofNat 64 (2 ^ 47) - p).toNat = BitVec.ofNat 64 (2 ^ 47) := by
    rw [BitVec.ofNat_toNat, BitVec.setWidth_eq, BitVec.add_comm, BitVec.sub_add_cancel]
  have outside : ¬ Canonical (BitVec.ofNat 64 (2 ^ 47)) := by
    unfold Canonical
    decide
  have missing : mem.byte (BitVec.ofNat 64 (2 ^ 47)) = none := by
    by_contra found
    exact outside (mem.canonical _ found)
  rw [Chars.char, away, Loads.load, missing] at loaded
  cases loaded

theorem Chars.ends_constant (mem : Loads) {chars : List Byte} (short : chars.length < 2 ^ 64) :
    (Chars.constant chars).Ends mem := by
  refine ⟨chars.length, short, ?_⟩
  intro ch loaded
  rw [Chars.char, List.getD_eq_default _ _ (Nat.le_refl _)] at loaded
  exact (Except.ok.inj loaded).symm

/-- The loop over a string only goes on forever if there are characters everywhere. -/
theorem putChars_stops {char : Nat → Except Cut Byte} (only : ∀ i, Loads.Only (char i)) (altflag : Bool)
    (space i : Nat) (width precision : BitVec 32) (s : σ) (cut : Cut)
    (stopped : (putChars putch char altflag space i width precision).run s = .error cut) :
    cut = .fault ∨ ∀ j < space, ∃ ch, char (i + j) = .ok ch ∧ ch ≠ 0 := by
  induction space generalizing i width precision s with
  | zero => exact .inr fun j small => absurd small (Nat.not_lt_zero j)
  | succ space ih =>
    rw [putChars] at stopped
    cases here : char i with
    | error stop =>
      rw [here] at stopped
      cases stopped
      exact .inl (only i _ here)
    | ok ch =>
      rw [here] at stopped
      change StateT.run (if GoesOn ch precision then _ else _) s = _ at stopped
      split at stopped
      · rename_i more
        refine (ih (i + 1) _ _ _ stopped).imp id fun rest j small => ?_
        cases j with
        | zero => exact ⟨ch, here, more.1⟩
        | succ j =>
          rw [show i + (j + 1) = i + 1 + j by omega]
          exact rest j (by omega)
      · cases stopped

theorem putChars_only {p : Chars} (ends : p.Ends mem) (altflag : Bool) (width precision : BitVec 32) :
    OnlyLoads (putChars putch (p.char mem) altflag (2 ^ 64) 0 width precision) := by
  intro s cut stopped
  rcases putChars_stops (p.char_only mem) altflag _ _ _ _ s cut stopped with fault | everywhere
  · exact fault
  · obtain ⟨j, small, last⟩ := ends
    obtain ⟨ch, found, nonzero⟩ := everywhere j small
    rw [Nat.zero_add] at found
    exact absurd (last ch found) nonzero

theorem putString_only (d : Directive) {p : Chars} (ends : p.Ends mem) : OnlyLoads (putString putch mem d p) := by
  have padded : OnlyLoads (padString putch mem d p) := by
    unfold padString
    split
    · exact (OnlyLoads.lift (strnlen_only (p.char_only mem) _ _ _)).bind fun n => pad_only _ _
    · exact .pure _
  refine padded.bind fun width => (putChars_only ends _ _ _).bind fun width => ?_
  exact (pad_only _ _).bind fun _ => .pure _

theorem errorText_short {err : Nat} {message : String} (found : errorText err = some message) :
    (text message).length < 2 ^ 64 := by
  unfold errorText at found
  split at found <;> cases found <;> decide

theorem putErrorNumber_only (err : BitVec 32) : OnlyLoads (putErrorNumber putch err) :=
  (OnlyLoads.putAll _).bind fun _ => putSigned_only _ _ _

theorem putErrorCode_only (err : BitVec 32) : OnlyLoads (putErrorCode putch mem err) := by
  unfold putErrorCode
  split
  · exact putErrorNumber_only _
  split
  · refine (OnlyLoads.lift (mem.pointer_only _)).bind fun p => ?_
    split
    · exact putErrorNumber_only _
    · exact putString_only _ (Chars.ends_at mem p)
  · split
    · rename_i found
      exact putString_only _ (Chars.ends_constant mem (errorText_short found))
    · exact putErrorNumber_only _

theorem convert_only (d : Directive) (ch : Byte) (slot : Word) :
    OnlyLoads ((convert putch mem d ch slot).getD (pure ())) := by
  have null : (text "(null)").length < 2 ^ 64 := by decide
  unfold convert
  split
  · exact .put _
  split
  · exact putErrorCode_only _
  split
  · refine putString_only d ?_
    split
    · exact Chars.ends_constant mem null
    · exact Chars.ends_at mem slot
  split
  · exact putSigned_only _ _ _
  split
  · exact printnum_only (by decide) _ _ _
  split
  · exact printnum_only (by decide) _ _ _
  split
  · exact (OnlyLoads.put _).bind fun _ => (OnlyLoads.put _).bind fun _ => printnum_only (by decide) _ _ _
  split
  · exact printnum_only (by decide) _ _ _
  split
  · exact .put _
  · exact .pure _

theorem render_only (ps : List Piece) (arg : Nat) : OnlyLoads (render putch mem args ps arg) := by
  induction ps generalizing arg with
  | nil => exact .pure _
  | cons piece ps ih =>
    cases piece with
    | plain ch => exact (OnlyLoads.put _).bind fun _ => ih _
    | echo chars => exact (OnlyLoads.putAll _).bind fun _ => ih _
    | convert mods ch => exact (convert_only _ _ _).bind fun _ => ih _

-- Printers that return

def Returns (print : Printer Cut σ α) : Prop := ∀ s, ∃ value s', print.run s = .ok (value, s')

namespace Returns

theorem pure (value : α) : Returns (Pure.pure value : Printer Cut σ α) := fun s => ⟨value, s, rfl⟩

theorem put (ch : BitVec 32) : Returns (Emission.put putch ch : Printer Cut σ Unit) := fun _ => ⟨_, _, rfl⟩

theorem putAll (out : List (BitVec 32)) : Returns (Emission.putAll putch out : Printer Cut σ Unit) :=
  fun _ => ⟨_, _, rfl⟩

theorem bind {first : Printer Cut σ α} {next : α → Printer Cut σ β} (returns : Returns first)
    (rest : ∀ value, Returns (next value)) : Returns (first >>= next) := by
  intro s
  obtain ⟨value, s', done⟩ := returns s
  obtain ⟨value', s'', done'⟩ := rest value s'
  refine ⟨value', s'', ?_⟩
  change (first.run s >>= fun done => (next done.1).run done.2) = _
  rw [done]
  exact done'

theorem after {value : Except Cut α} {result : α} {next : α → Printer Cut σ β} (done : value = .ok result)
    (rest : Returns (next result)) : Returns ((liftM value : Printer Cut σ α) >>= next) := by
  rw [done]
  exact rest

end Returns

def Chars.Readable (mem : Loads) (p : Chars) : Prop :=
  ∃ n < 2 ^ 64, p.char mem n = .ok 0 ∧ ∀ j < n, ∃ ch, p.char mem j = .ok ch

theorem Chars.readable_constant (mem : Loads) {chars : List Byte} (short : chars.length < 2 ^ 64) :
    (Chars.constant chars).Readable mem := by
  refine ⟨chars.length, short, ?_, fun j _ => ⟨_, rfl⟩⟩
  rw [Chars.char, List.getD_eq_default _ _ (Nat.le_refl _)]

theorem pad_returns (padc : Byte) (width : BitVec 32) : Returns (pad putch padc width) := by
  rw [pad_eq]
  exact (Returns.putAll _).bind fun _ => .pure _

theorem printnum_returns {base : Nat} (two : 1 < base) (num : Nat) (width : BitVec 32) (padc : Byte) :
    Returns (printnum putch num base width padc) := by
  rw [printnum_eq putch two]
  exact .putAll _

theorem putSigned_returns (num : Word) (width : BitVec 32) (padc : Byte) : Returns (putSigned putch num width padc) := by
  unfold putSigned
  split
  · exact (Returns.put _).bind fun _ => printnum_returns (by decide) _ _ _
  · exact printnum_returns (by decide) _ _ _

theorem strnlen_returns {char : Nat → Except Cut Byte} {last : Nat} (ended : char last = .ok 0)
    (before : ∀ j < last, ∃ ch, char j = .ok ch) (size : Nat) {i : Nat} (inside : i ≤ last) (n : BitVec 32) :
    ∃ length, strnlen char size i n = .ok length := by
  induction size generalizing i n with
  | zero => exact ⟨n, rfl⟩
  | succ size ih =>
    rw [strnlen]
    by_cases here : i = last
    · rw [here, ended]
      exact ⟨n, rfl⟩
    · obtain ⟨ch, found⟩ := before i (by omega)
      rw [found]
      change ∃ length, (if ch = 0 then _ else _) = Except.ok length
      split
      · exact ⟨n, rfl⟩
      · exact ih (by omega) _

theorem putChars_returns {char : Nat → Except Cut Byte} {last : Nat} (ended : char last = .ok 0)
    (before : ∀ j < last, ∃ ch, char j = .ok ch) (altflag : Bool) (space : Nat) {i : Nat} (inside : i ≤ last)
    (room : last < i + space) (width precision : BitVec 32) :
    Returns (putChars putch char altflag space i width precision) := by
  induction space generalizing i width precision with
  | zero => omega
  | succ space ih =>
    rw [putChars]
    by_cases here : i = last
    · refine Returns.after (here ▸ ended) ?_
      rw [if_neg fun more => more.1 rfl]
      exact .pure _
    · obtain ⟨ch, found⟩ := before i (by omega)
      refine Returns.after found ?_
      split
      · exact (Returns.put _).bind fun _ => ih (by omega) (by omega) _ _
      · exact .pure _

theorem putString_returns (d : Directive) {p : Chars} (readable : p.Readable mem) :
    Returns (putString putch mem d p) := by
  obtain ⟨last, small, ended, before⟩ := readable
  have padded : Returns (padString putch mem d p) := by
    unfold padString
    split
    · obtain ⟨length, done⟩ := strnlen_returns ended before (d.precision.signExtend 64).toNat (Nat.zero_le _) 0
      exact Returns.after done (pad_returns _ _)
    · exact .pure _
  refine padded.bind fun width => ?_
  refine (putChars_returns ended before _ _ (Nat.zero_le _) (by omega) _ _).bind fun width => ?_
  exact (pad_returns _ _).bind fun _ => .pure _

theorem putErrorNumber_returns (err : BitVec 32) : Returns (putErrorNumber putch err) :=
  (Returns.putAll _).bind fun _ => putSigned_returns _ _ _

theorem putError_returns {err : BitVec 32} (defined : err ≠ BitVec.intMin 32) : Returns (putError putch mem err) := by
  have positive : ¬ (errorCode err).toInt < 0 := by
    unfold errorCode
    split
    · rw [BitVec.toInt_neg_of_ne_intMin defined]
      omega
    · assumption
  unfold putError putErrorCode
  rw [if_neg positive]
  split
  · exact putErrorNumber_returns _
  · split
    · rename_i found
      exact putString_returns _ (Chars.readable_constant mem (errorText_short found))
    · exact putErrorNumber_returns _

/-- The argument is one that the conversion can take: a string is NULL or can be read up to its end, and
    an error code has a negative. -/
def Suits (mem : Loads) (ch : Byte) (slot : Word) : Prop :=
  (ch = ascii 's' → slot = 0 ∨ (Chars.at slot).Readable mem) ∧
    (ch = ascii 'e' → slot.setWidth 32 ≠ BitVec.intMin 32)

theorem convert_returns (d : Directive) {ch : Byte} {slot : Word} (suits : Suits mem ch slot) :
    Returns ((convert putch mem d ch slot).getD (pure ())) := by
  have null : (text "(null)").length < 2 ^ 64 := by decide
  unfold convert
  split
  · exact .put _
  split
  · rename_i e
    exact putError_returns (suits.2 e)
  split
  · rename_i s
    refine putString_returns d ?_
    split
    · exact Chars.readable_constant mem null
    · rename_i nonzero
      exact (suits.1 s).resolve_left nonzero
  split
  · exact putSigned_returns _ _ _
  split
  · exact printnum_returns (by decide) _ _ _
  split
  · exact printnum_returns (by decide) _ _ _
  split
  · exact (Returns.put _).bind fun _ => (Returns.put _).bind fun _ => printnum_returns (by decide) _ _ _
  split
  · exact printnum_returns (by decide) _ _ _
  split
  · exact .put _
  · exact .pure _

def Supplied (mem : Loads) (args : Nat → Word) : List Piece → Nat → Prop
  | [], _ => True
  | .plain _ :: rest, arg => Supplied mem args rest arg
  | .echo chars :: rest, arg => Supplied mem args rest (arg + chars.count (ascii '*'))
  | .convert mods ch :: rest, arg =>
    let escape := Directive.initial.modify args mods arg
    Suits mem ch (args escape.2) ∧ Supplied mem args rest (escape.2 + takes ch)

theorem render_returns {ps : List Piece} {arg : Nat} (supplied : Supplied mem args ps arg) :
    Returns (render putch mem args ps arg) := by
  induction ps generalizing arg with
  | nil => exact .pure _
  | cons piece ps ih =>
    cases piece with
    | plain ch => exact (Returns.put _).bind fun _ => ih supplied
    | echo chars => exact (Returns.putAll _).bind fun _ => ih supplied
    | convert mods ch => exact (convert_returns _ supplied.1).bind fun _ => ih supplied.2

/-- Formatting always ends, within the format: it returns, or a load of a string faults, which it does not
    with suitable arguments. And it renders the pieces of the format, in which whatever is no conversion
    comes out as it is. -/
structure Progresses (putch : BitVec 32 → σ → σ) (mem : Loads) (fmt : CString) (args : Nat → Word) : Prop where
  ends : ∀ s, (∃ s', (vprintfmt putch mem fmt args).run s = .ok ((), s')) ∨
    (vprintfmt putch mem fmt args).run s = .error .fault
  returns : Supplied mem args (pieces fmt.chars) 0 → ∀ s, ∃ s', (vprintfmt putch mem fmt args).run s = .ok ((), s')
  verbatim : vprintfmt putch mem fmt args = render putch mem args (pieces fmt.chars) 0

theorem vprintfmt_progresses (putch : BitVec 32 → σ → σ) (mem : Loads) (fmt : CString) (args : Nat → Word) :
    Progresses putch mem fmt args where
  ends := by
    intro s
    rw [vprintfmt_eq]
    cases result : (render putch mem args (pieces fmt.chars) 0).run s with
    | error cut => exact .inr (by rw [render_only _ _ s cut result])
    | ok done => exact .inl ⟨done.2, rfl⟩
  returns := by
    intro supplied s
    rw [vprintfmt_eq]
    obtain ⟨_, s', done⟩ := render_returns supplied s
    exact ⟨s', done⟩
  verbatim := vprintfmt_eq putch mem fmt args

end Jos.Format
