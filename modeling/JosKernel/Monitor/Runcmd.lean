import JosKernel.Console.Format
import JosKernel.Lib.Tokens
import JosKernel.Strings.Compare

namespace Jos.Monitor

open Format (Byte text)
open Bytes (StringAt)
open Tokens (runs)

-- kern/monitor.c

def whitespace : List Byte := text "\t\r\n "

def maxArgs : Nat := 16

inductive Command
  | help
  | kerninfo
  | backtrace
  deriving DecidableEq, Repr

namespace Command

def name : Command → List Byte
  | help => text "help"
  | kerninfo => text "kerninfo"
  | backtrace => text "backtrace"

def commands : List Command := [help, kerninfo, backtrace]

end Command

/-- What `runcmd` does at last: it returns 0 at once or after a message, or it calls a command. -/
inductive Response
  | returns
  | prints (fmt : String) (arg : Word)
  | invokes (command : Command)
  deriving DecidableEq

structure CmdState where
  m : Bytes.Memory 64
  argv : Nat → Word
  argc : Nat

def isSpace (c : Byte) : Bool := (strchr c whitespace).isSome

def gobble : Nat → Bytes.Memory 64 → Word → Option (Bytes.Memory 64 × Word)
  | 0, _, _ => none
  | fuel + 1, m, buf =>
    if m buf ≠ 0 ∧ isSpace (m buf) then gobble fuel (Function.update m buf 0) (buf + 1) else some (m, buf)

def scanPast : Nat → Bytes.Memory 64 → Word → Option Word
  | 0, _, _ => none
  | fuel + 1, m, buf => if m buf ≠ 0 ∧ ¬ isSpace (m buf) then scanPast fuel m (buf + 1) else some buf

def parse : Nat → CmdState → Word → Option (Bool × CmdState)
  | 0, _, _ => none
  | fuel + 1, s, buf => do
    let (m, buf) ← gobble fuel s.m buf
    let s := { s with m }
    if m buf = 0 then some (true, s)
    else if s.argc = maxArgs - 1 then some (false, s)
    else
      let s := { s with argv := Function.update s.argv s.argc buf, argc := s.argc + 1 }
      let buf ← scanPast fuel m buf
      parse fuel s buf

def tooMany : Response := .prints "Too many arguments (max %d)\n" (BitVec.ofNat 64 maxArgs)

def unknown (name : Word) : Response := .prints "Unknown command '%s'\n" name

def dispatch (s : CmdState) : Response × CmdState :=
  let s := { s with argv := Function.update s.argv s.argc 0 }
  if s.argc = 0 then (.returns, s)
  else
    match Command.commands.find? fun command => strcmp s.m (s.argv 0) command.name = 0 with
    | some command => (.invokes command, s)
    | none => (unknown (s.argv 0), s)

def runcmd (fuel : Nat) (m : Bytes.Memory 64) (argv : Nat → Word) (buf : Word) : Option (Response × CmdState) := do
  let (parsed, s) ← parse fuel ⟨m, Function.update argv 0 0, 0⟩ buf
  some (if parsed then dispatch s else (tooMany, s))

-- The line

variable {m : Bytes.Memory 64} {buf p : Word} {chars s : List Byte}

-- Parsing

/-- The first `n` bytes of the line, with NULs for the whitespace. -/
def blank (m : Bytes.Memory 64) (buf : Word) (n : Nat) : Bytes.Memory 64 := fun a =>
  if (a - buf).toNat < n ∧ isSpace (m a) then 0 else m a

theorem blank_zero : blank m buf 0 = m := by
  funext a
  exact if_neg fun both => Nat.not_lt_zero _ both.1

theorem toNat_offset {n : Nat} (small : n < 2 ^ 64) : (buf + BitVec.ofNat 64 n - buf).toNat = n := by
  rw [BitVec.add_comm, BitVec.add_sub_cancel, BitVec.toNat_ofNat, Nat.mod_eq_of_lt small]

theorem blank_beyond {a : Word} {n : Nat} (beyond : n ≤ (a - buf).toNat) : blank m buf n a = m a :=
  if_neg fun both => absurd both.1 (Nat.not_lt.mpr beyond)

theorem blank_other {a : Word} {n : Nat} (other : a ≠ buf + BitVec.ofNat 64 n) :
    blank m buf n a = blank m buf (n + 1) a := by
  have different : (a - buf).toNat ≠ n := by
    intro same
    apply other
    rw [← same, BitVec.ofNat_toNat, BitVec.setWidth_eq, BitVec.add_comm, BitVec.sub_add_cancel]
  have same : (a - buf).toNat < n ↔ (a - buf).toNat < n + 1 := by omega
  simp only [blank, same]

theorem blank_space {n : Nat} (small : n < 2 ^ 64) (space : isSpace (m (buf + BitVec.ofNat 64 n))) :
    Function.update (blank m buf n) (buf + BitVec.ofNat 64 n) 0 = blank m buf (n + 1) := by
  funext a
  by_cases here : a = buf + BitVec.ofNat 64 n
  · subst here
    rw [Function.update_self, blank, if_pos ⟨by rw [toNat_offset small]; exact Nat.lt_succ_self n, space⟩]
  · rw [Function.update_of_ne here, blank_other here]

theorem blank_char {n : Nat} (char : ¬ isSpace (m (buf + BitVec.ofNat 64 n))) :
    blank m buf n = blank m buf (n + 1) := by
  funext a
  by_cases here : a = buf + BitVec.ofNat 64 n
  · subst here
    rw [blank, blank, if_neg fun both => char both.2, if_neg fun both => char both.2]
  · exact blank_other here

variable {n fuel : Nat} {rest : List Byte}

structure Rest (m : Bytes.Memory 64) (buf : Word) (chars : List Byte) (n : Nat) (rest : List Byte) : Prop where
  line : StringAt m buf chars
  rest : chars.drop n = rest
  inside : n ≤ chars.length

namespace Rest

theorem small (place : Rest m buf chars n rest) : n < 2 ^ 64 := place.inside.trans_lt place.line.short

theorem read (place : Rest m buf chars n rest) :
    blank m buf n (buf + BitVec.ofNat 64 n) = m (buf + BitVec.ofNat 64 n) :=
  blank_beyond (toNat_offset place.small).ge

theorem head {c : Byte} (place : Rest m buf chars n (c :: rest)) : m (buf + BitVec.ofNat 64 n) = c ∧ c ≠ 0 := by
  have found : chars[n]? = some c := by
    rw [← List.head?_drop, place.rest]
    rfl
  exact ⟨place.line.chars n c found, fun zero => place.line.nonzero (zero ▸ List.mem_of_getElem? found)⟩

theorem nil (place : Rest m buf chars n []) : n = chars.length ∧ m (buf + BitVec.ofNat 64 n) = 0 := by
  have length := Nat.le_antisymm place.inside (List.drop_eq_nil_iff.mp place.rest)
  rw [length]
  exact ⟨rfl, place.line.ends⟩

theorem tail {c : Byte} (place : Rest m buf chars n (c :: rest)) : Rest m buf chars (n + 1) rest := by
  refine ⟨place.line, ?_, ?_⟩
  · rw [← List.tail_drop, place.rest]
    rfl
  · have longer := congrArg List.length place.rest
    rw [List.length_drop, List.length_cons] at longer
    omega

theorem drop (place : Rest m buf chars n rest) {k : Nat} (inside : k ≤ rest.length) :
    Rest m buf chars (n + k) (rest.drop k) := by
  refine ⟨place.line, ?_, ?_⟩
  · rw [← place.rest, List.drop_drop]
  · have length := congrArg List.length place.rest
    rw [List.length_drop] at length
    have bound := place.inside
    omega

end Rest

theorem next (n : Nat) : buf + BitVec.ofNat 64 n + 1 = buf + BitVec.ofNat 64 (n + 1) := by
  rw [BitVec.add_assoc]
  congr 1
  rw [BitVec.ofNat_add]
  rfl

theorem gobble_rest (place : Rest m buf chars n rest) (enough : rest.length < fuel) :
    gobble fuel (blank m buf n) (buf + BitVec.ofNat 64 n) =
      some (blank m buf (n + (rest.takeWhile isSpace).length),
        buf + BitVec.ofNat 64 (n + (rest.takeWhile isSpace).length)) := by
  induction rest generalizing n fuel with
  | nil =>
    cases fuel with
    | zero => cases enough
    | succ fuel =>
      rw [gobble, if_neg (by rw [place.read, place.nil.2]; simp)]
      rfl
  | cons c rest ih =>
    cases fuel with
    | zero => cases enough
    | succ fuel =>
      have head := place.head
      rw [gobble, place.read, head.1]
      by_cases space : isSpace c
      · rw [if_pos ⟨head.2, space⟩, blank_space place.small (by rw [head.1]; exact space), next,
          ih place.tail (Nat.lt_of_succ_lt_succ enough), List.takeWhile_cons_of_pos space, List.length_cons,
          Nat.add_right_comm, Nat.add_assoc]
      · rw [if_neg fun both => space both.2, List.takeWhile_cons_of_neg space]
        rfl

theorem scanPast_rest (place : Rest m buf chars n rest) (enough : rest.length < fuel) :
    scanPast fuel (blank m buf n) (buf + BitVec.ofNat 64 n) =
      some (buf + BitVec.ofNat 64 (n + (rest.takeWhile fun c => !isSpace c).length)) ∧
    blank m buf n = blank m buf (n + (rest.takeWhile fun c => !isSpace c).length) := by
  induction rest generalizing n fuel with
  | nil =>
    cases fuel with
    | zero => cases enough
    | succ fuel =>
      rw [scanPast, if_neg (by rw [place.read, place.nil.2]; simp)]
      exact ⟨rfl, rfl⟩
  | cons c rest ih =>
    cases fuel with
    | zero => cases enough
    | succ fuel =>
      have head := place.head
      rw [scanPast, place.read, head.1]
      by_cases space : isSpace c
      · rw [if_neg fun both => both.2 space, List.takeWhile_cons_of_neg (by simp [space])]
        exact ⟨rfl, rfl⟩
      · have same : blank m buf n = blank m buf (n + 1) := blank_char (by rw [head.1]; exact space)
        have rest' := ih place.tail (Nat.lt_of_succ_lt_succ enough)
        rw [if_pos ⟨head.2, space⟩, List.takeWhile_cons_of_pos (by simp [space]), List.length_cons, next, same]
        rw [Nat.add_right_comm, Nat.add_assoc] at rest'
        rw [Nat.add_comm _ 1, ← Nat.add_assoc] at rest' ⊢
        exact rest'

def enter (buf : Word) : (Nat → Word) → Nat → List (Nat × List Byte) → Nat → Word
  | argv, _, [] => argv
  | argv, argc, run :: runs => enter buf (Function.update argv argc (buf + BitVec.ofNat 64 run.1)) (argc + 1) runs

variable {argv : Nat → Word} {argc : Nat}

theorem enter_other {todo : List (Nat × List Byte)} {i : Nat} (other : i < argc ∨ argc + todo.length ≤ i) :
    enter buf argv argc todo i = argv i := by
  induction todo generalizing argv argc with
  | nil => rfl
  | cons run todo ih =>
    rw [List.length_cons] at other
    rw [enter, ih (by omega), Function.update_of_ne (by omega)]

theorem enter_run {todo : List (Nat × List Byte)} {j : Nat} {run : Nat × List Byte} (found : todo[j]? = some run) :
    enter buf argv argc todo (argc + j) = buf + BitVec.ofNat 64 run.1 := by
  induction todo generalizing argv argc j with
  | nil => cases found
  | cons first todo ih =>
    rw [enter]
    cases j with
    | zero =>
      cases found
      exact (enter_other (.inl (Nat.lt_add_one argc))).trans (Function.update_self ..)
    | succ j =>
      rw [List.getElem?_cons_succ] at found
      rw [Nat.add_comm j, ← Nat.add_assoc]
      exact ih found

theorem parse_rest (argv : Nat → Word) (place : Rest m buf chars n rest) (enough : rest.length + 2 ≤ fuel)
    (argcMax : argc ≤ maxArgs - 1) :
    if argc + (runs isSpace n false rest).length ≤ maxArgs - 1 then
      parse fuel ⟨blank m buf n, argv, argc⟩ (buf + BitVec.ofNat 64 n) = some (true, ⟨blank m buf chars.length,
        enter buf argv argc (runs isSpace n false rest), argc + (runs isSpace n false rest).length⟩)
    else ∃ k argv', k ≤ chars.length ∧ (∀ i, maxArgs - 1 ≤ i → argv' i = argv i) ∧
      parse fuel ⟨blank m buf n, argv, argc⟩ (buf + BitVec.ofNat 64 n) =
        some (false, ⟨blank m buf k, argv', maxArgs - 1⟩) := by
  induction fuel generalizing n rest argv argc with
  | zero => cases enough
  | succ fuel ih =>
    have place' := place.drop (List.takeWhile_sublist isSpace).length_le
    rw [Tokens.drop_takeWhile] at place'
    rw [Tokens.runs_separators, parse, gobble_rest place (by omega)]
    have shorter := (List.dropWhile_sublist isSpace (l := rest)).length_le
    generalize n + (rest.takeWhile isSpace).length = n' at place' ⊢
    cases after : rest.dropWhile isSpace with
    | nil =>
      rw [after] at place'
      rw [Option.bind_eq_bind, Option.bind_some]
      dsimp only
      rw [place'.read, if_pos place'.nil.2, place'.nil.1]
      rw [runs, List.length_nil, Nat.add_zero, if_pos argcMax]
      rfl
    | cons c rest' =>
      rw [after] at place' shorter
      have head := place'.head
      have char : ¬ isSpace c := by
        have first := List.head?_dropWhile_not isSpace rest
        rw [after] at first
        simpa using first
      rw [Option.bind_eq_bind, Option.bind_some]
      dsimp only
      rw [place'.read, head.1, if_neg head.2, Tokens.runs_cons char, List.length_cons]
      by_cases full : argc = maxArgs - 1
      · rw [if_neg (by omega), if_pos full, full]
        exact ⟨n', argv, place'.inside, fun _ _ => rfl, rfl⟩
      · rw [if_neg full]
        obtain ⟨scanned, same⟩ := scanPast_rest place' (show (c :: rest').length < fuel by omega)
        have place'' := place'.drop (List.takeWhile_sublist fun c => !isSpace c).length_le
        rw [Tokens.drop_takeWhile] at place''
        have length := congrArg List.length place''.rest
        rw [List.length_drop] at length
        have first : 1 ≤ ((c :: rest').takeWhile fun c => !isSpace c).length := by
          rw [List.takeWhile_cons_of_pos (by simp [char]), List.length_cons]
          omega
        have inside := place''.inside
        have rest := congrArg List.length place'.rest
        rw [List.length_drop] at rest
        have others := @ih _ _ (argc + 1) (Function.update argv argc (buf + BitVec.ofNat 64 n')) place'' (by omega) (by omega)
        rw [scanned, Option.bind_eq_bind, Option.bind_some]
        rw [← same, Nat.add_assoc, Nat.add_comm 1] at others
        split at others
        · rename_i fits
          rw [if_pos fits]
          exact others
        · rename_i tooMany
          rw [if_neg tooMany]
          obtain ⟨k, argv', bound, kept, done⟩ := others
          refine ⟨k, argv', bound, fun i beyond => ?_, done⟩
          rw [kept i beyond, Function.update_of_ne (by omega)]

-- The command

theorem Rest.run (place : Rest m buf chars n rest) :
    StringAt (blank m buf chars.length) (buf + BitVec.ofNat 64 n) (rest.takeWhile fun c => !isSpace c) := by
  induction rest generalizing n with
  | nil =>
    apply StringAt.nil_iff.mpr
    rw [blank_beyond, place.nil.2]
    rw [toNat_offset place.small]
    exact place.nil.1.ge
  | cons c rest ih =>
    have head := place.head
    have within := place.tail.inside
    by_cases space : isSpace c
    · rw [List.takeWhile_cons_of_neg (by simp [space])]
      apply StringAt.nil_iff.mpr
      rw [blank, if_pos]
      rw [toNat_offset place.small, head.1]
      exact ⟨within, space⟩
    · rw [List.takeWhile_cons_of_pos (by simp [space])]
      apply StringAt.cons _ head.2
      · have rest' := ih place.tail
        rwa [← next] at rest'
      · rw [blank, if_neg, head.1]
        rw [head.1]
        exact fun both => space both.2

theorem Rest.runs_strings (place : Rest m buf chars n rest) {inside : Bool} :
    ∀ run ∈ runs isSpace n inside rest, StringAt (blank m buf chars.length) (buf + BitVec.ofNat 64 run.1) run.2 := by
  induction rest generalizing n inside with
  | nil => exact fun run absent => absurd absent List.not_mem_nil
  | cons c rest ih =>
    intro run member
    rw [runs] at member
    split at member
    · exact ih place.tail run member
    · split at member
      · exact ih place.tail run member
      · rcases List.mem_cons.mp member with rfl | later
        · exact place.run
        · exact ih place.tail run later

def words (chars : List Byte) : List (Nat × List Byte) := runs isSpace 0 false chars

structure Arguments (buf : Word) (words : List (Nat × List Byte)) (s : CmdState) : Prop where
  argc : s.argc = words.length
  args : ∀ j word, words[j]? = some word → s.argv j = buf + BitVec.ofNat 64 word.1 ∧ StringAt s.m (s.argv j) word.2
  last : s.argv s.argc = 0

def Answers (chars : List Byte) (buf : Word) (response : Response) (s : CmdState) : Prop :=
  match words chars with
  | [] => response = .returns
  | first :: others =>
    if others.length + 1 ≤ maxArgs - 1 then
      Arguments buf (first :: others) s ∧ response =
        match Command.commands.find? fun command => first.2 = command.name with
        | some command => .invokes command
        | none => unknown (s.argv 0)
    else response = tooMany

theorem name_nonzero (command : Command) : 0 ∉ command.name := by
  cases command <;> decide

theorem dispatch_state (s : CmdState) : (dispatch s).2 = { s with argv := Function.update s.argv s.argc 0 } := by
  unfold dispatch
  dsimp only
  split
  · rfl
  · split <;> rfl

theorem dispatch_response {s : CmdState} {word : List Byte} (some_ : s.argc ≠ 0)
    (name : StringAt (dispatch s).2.m ((dispatch s).2.argv 0) word) : (dispatch s).1 =
      match Command.commands.find? fun command => word = command.name with
      | some command => .invokes command
      | none => unknown ((dispatch s).2.argv 0) := by
  rw [dispatch_state] at name ⊢
  have named : ∀ command : Command,
      (strcmp s.m (Function.update s.argv s.argc 0 0) command.name = 0) = (word = command.name) :=
    fun command => propext (strcmp_eq_zero name (name_nonzero command))
  unfold dispatch
  dsimp only
  simp only [if_neg some_, named]
  split <;> rfl

/-- The words of the line are the arguments of the command that the first of them names. Memory outside the line
    and behind `argv` stays as it is. -/
theorem runcmd_tokenises (line : StringAt m buf chars) (enough : chars.length + 2 ≤ fuel) (argv : Nat → Word) :
    ∃ response s, runcmd fuel m argv buf = some (response, s) ∧ Answers chars buf response s ∧
      (∀ a, chars.length ≤ (a - buf).toNat → s.m a = m a) ∧ ∀ i, maxArgs ≤ i → s.argv i = argv i := by
  have place : Rest m buf chars 0 chars := ⟨line, List.drop_zero, Nat.zero_le _⟩
  have parsed := parse_rest (Function.update argv 0 0) place enough (Nat.zero_le (maxArgs - 1))
  rw [blank_zero, BitVec.add_zero, Nat.zero_add, ← words, maxArgs] at parsed
  unfold runcmd Answers maxArgs
  split at parsed
  · rename_i fits
    obtain ⟨s, state⟩ : ∃ s : CmdState, s = ⟨blank m buf chars.length,
      enter buf (Function.update argv 0 0) 0 (words chars), (words chars).length⟩ := ⟨_, rfl⟩
    rw [← state] at parsed
    refine ⟨(dispatch s).1, (dispatch s).2, by rw [parsed]; rfl, ?_, fun a beyond => ?_, fun i beyond => ?_⟩
    · have entered : ∀ j word, (words chars)[j]? = some word → (dispatch s).2.argv j = buf + BitVec.ofNat 64 word.1 := by
        intro j word found
        obtain ⟨inside, -⟩ := List.getElem?_eq_some_iff.mp found
        have pointer := @enter_run buf (Function.update argv 0 0) 0 _ _ _ found
        rw [Nat.zero_add] at pointer
        rw [dispatch_state, state]
        exact (Function.update_of_ne (Nat.ne_of_lt inside) ..).trans pointer
      have arguments : Arguments buf (words chars) (dispatch s).2 := by
        refine ⟨by rw [dispatch_state, state], fun j word found => ⟨entered j word found, ?_⟩, ?_⟩
        · rw [entered j word found, dispatch_state, state]
          exact place.runs_strings word (List.mem_of_getElem? found)
        · rw [dispatch_state]
          exact Function.update_self ..
      cases split : words chars with
      | nil =>
        have none_ : s.argc = 0 := by rw [state, split]; rfl
        rw [dispatch]
        exact congrArg Prod.fst (if_pos none_)
      | cons first others =>
        rw [split] at arguments
        rw [split, List.length_cons] at fits
        have some_ : s.argc ≠ 0 := by rw [state, split]; exact Nat.succ_ne_zero _
        dsimp only
        rw [if_pos fits]
        exact ⟨arguments, dispatch_response some_ (arguments.args 0 first rfl).2⟩
    · rw [dispatch_state, state]
      exact blank_beyond beyond
    · rw [dispatch_state, state]
      change Function.update (enter buf _ 0 (words chars)) (words chars).length 0 i = argv i
      rw [Function.update_of_ne (by omega), enter_other (by omega), Function.update_of_ne (by omega)]
  · rename_i long
    obtain ⟨k, argv', bound, kept, done⟩ := parsed
    refine ⟨tooMany, _, by rw [done]; rfl, ?_, fun a beyond => ?_, fun i beyond => ?_⟩
    · cases split : words chars with
      | nil =>
        rw [split] at long
        exact absurd (Nat.zero_le _) long
      | cons first others =>
        rw [split, List.length_cons] at long
        dsimp only
        rw [if_neg long]
    · exact blank_beyond (bound.trans beyond)
    · exact (kept i (by omega)).trans (Function.update_of_ne (by omega) ..)

theorem runcmd_tokenises_help : ∃ s, runcmd 7 (fun a => (text "help ").getD a.toNat 0) (fun _ => 1) 0 =
    some (.invokes .help, s) ∧ Arguments 0 [(0, text "help")] s := by
  have line : StringAt (fun a : Word => (text "help ").getD a.toNat 0) 0 (text "help ") := by
    refine .cons rfl (by decide) (.cons rfl (by decide) (.cons rfl (by decide) (.cons rfl (by decide) (.cons rfl
      (by decide) (StringAt.nil_iff.mpr rfl)))))
  obtain ⟨response, s, done, answers, -⟩ := runcmd_tokenises line (Nat.le_refl 7) fun _ => 1
  have one : words (text "help ") = [(0, text "help")] := by decide
  unfold Answers at answers
  rw [one] at answers
  obtain ⟨arguments, rfl⟩ := answers
  exact ⟨s, done, arguments⟩

/-- With a line that is blank no command is looked up. -/
theorem runcmd_blank : StringAt (fun a : Word => (text " ").getD a.toNat 0) 0 (text " ") ∧
    (words (text " ")).length ≤ maxArgs - 1 ∧
    (runcmd 3 (fun a => (text " ").getD a.toNat 0) (fun _ => 1) 0).map Prod.fst = some .returns :=
  ⟨.cons rfl (by decide) (StringAt.nil_iff.mpr rfl), by decide, by decide⟩

end Jos.Monitor
