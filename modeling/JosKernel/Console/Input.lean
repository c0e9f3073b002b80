import Mathlib.Data.List.Induction
import JosKernel.Lib.RingBuffer

namespace Jos

open RingBuffer

-- kern/console.c: the input buffer

def consBufSize : Nat := 512

abbrev Cons := RingBuffer (BitVec 8)

/-- The characters are those that `proc` returns until it returns -1. -/
def consIntr (cons : Cons) : List (BitVec 8) → Cons
  | [] => cons
  | c :: chars => if c = 0 then consIntr cons chars else consIntr (cons.push consBufSize c) chars

def serialIntr (serialExists : Bool) (cons : Cons) (chars : List (BitVec 8)) : Cons :=
  if serialExists then consIntr cons chars else cons

def kbdIntr (cons : Cons) (chars : List (BitVec 8)) : Cons := consIntr cons chars

/-- The devices have `serial` and `kbd` to deliver when they are polled. -/
def consGetc (serialExists : Bool) (cons : Cons) (serial kbd : List (BitVec 8)) : BitVec 8 × Cons :=
  let cons := serialIntr serialExists cons serial
  let cons := kbdIntr cons kbd
  match cons.pop consBufSize with
  | (some c, cons) => (c, cons)
  | (none, cons) => (0, cons)

inductive ConsCall
  | serialIntr (chars : List (BitVec 8))
  | kbdIntr (chars : List (BitVec 8))
  | getc (serial kbd : List (BitVec 8))

namespace ConsCall

variable (serialExists : Bool)

def delivered (chars : List (BitVec 8)) : List (BitVec 8) := chars.filter (· ≠ 0)

def serialDelivered (chars : List (BitVec 8)) : List (BitVec 8) := if serialExists then delivered chars else []

/-- The buffer after one call, the characters delivered so far, and those that `cons_getc` has returned. -/
def step (run : RingBuffer.Trace (BitVec 8)) : ConsCall → RingBuffer.Trace (BitVec 8)
  | serialIntr chars => ⟨Jos.serialIntr serialExists run.ring chars, run.sent ++ serialDelivered serialExists chars, run.got⟩
  | kbdIntr chars => ⟨Jos.kbdIntr run.ring chars, run.sent ++ delivered chars, run.got⟩
  | getc serial kbd =>
    let (c, cons) := consGetc serialExists run.ring serial kbd
    ⟨cons, run.sent ++ serialDelivered serialExists serial ++ delivered kbd, run.got ++ if c = 0 then [] else [c]⟩

def initial : RingBuffer.Trace (BitVec 8) := ⟨⟨fun _ => 0, 0, 0⟩, [], []⟩

def runCalls (calls : List ConsCall) : RingBuffer.Trace (BitVec 8) := calls.foldl (step serialExists) initial

variable {serialExists} {run : RingBuffer.Trace (BitVec 8)} {lag : Nat}

theorem consIntr_pushes (cons : Cons) (chars : List (BitVec 8)) :
    consIntr cons chars = (delivered chars).foldl (RingBuffer.push consBufSize) cons := by
  induction chars generalizing cons with
  | nil => rfl
  | cons c chars ih =>
    rw [consIntr, delivered, List.filter_cons]
    by_cases zero : c = 0
    · rw [if_pos zero, ih, if_neg (by simpa using zero)]
      rfl
    · rw [if_neg zero, ih, if_pos (by simpa using zero)]
      rfl

theorem serialIntr_pushes (cons : Cons) (chars : List (BitVec 8)) :
    Jos.serialIntr serialExists cons chars =
      (serialDelivered serialExists chars).foldl (RingBuffer.push consBufSize) cons := by
  rw [Jos.serialIntr, serialDelivered]
  split
  · exact consIntr_pushes cons chars
  · rfl

def input (serialExists : Bool) : ConsCall → List (BitVec 8)
  | serialIntr chars => serialDelivered serialExists chars
  | kbdIntr chars => delivered chars
  | getc serial kbd => serialDelivered serialExists serial ++ delivered kbd

theorem step_serialIntr (chars : List (BitVec 8)) : step serialExists run (serialIntr chars) =
    (input serialExists (serialIntr chars)).foldl (RingBuffer.Trace.push consBufSize) run := by
  rw [RingBuffer.Trace.pushes_eq, step, serialIntr_pushes]
  rfl

theorem step_kbdIntr (chars : List (BitVec 8)) : step serialExists run (kbdIntr chars) =
    (input serialExists (kbdIntr chars)).foldl (RingBuffer.Trace.push consBufSize) run := by
  rw [RingBuffer.Trace.pushes_eq, step, Jos.kbdIntr, consIntr_pushes]
  rfl

theorem input_ne_zero (call : ConsCall) : ∀ c ∈ input serialExists call, c ≠ 0 := by
  have nonzero : ∀ chars : List (BitVec 8), ∀ c ∈ delivered chars, c ≠ 0 := by
    intro chars c member
    simpa using (List.mem_filter.mp member).2
  have serial : ∀ chars : List (BitVec 8), ∀ c ∈ serialDelivered serialExists chars, c ≠ 0 := by
    intro chars c member
    rw [serialDelivered] at member
    split at member
    · exact nonzero chars c member
    · cases member
  cases call with
  | serialIntr chars => exact serial chars
  | kbdIntr chars => exact nonzero chars
  | getc chars chars' =>
    intro c member
    rcases List.mem_append.mp member with first | second
    · exact serial chars c first
    · exact nonzero chars' c second

/-- The characters in the buffer are not 0, so that 0 is what `cons_getc` returns when there are none. -/
theorem step_getc (serial kbd : List (BitVec 8)) (ordered : RingBuffer.Trace.Ordered consBufSize run lag)
    (nonzero : ∀ c ∈ run.sent, c ≠ 0) : step serialExists run (getc serial kbd) =
      ((input serialExists (getc serial kbd)).foldl (RingBuffer.Trace.push consBufSize) run).pop consBufSize := by
  have pushed := ordered.pushes (input serialExists (getc serial kbd))
  generalize lagged : (lag + (input serialExists (getc serial kbd)).length) % consBufSize = behind at pushed
  have ring : Jos.kbdIntr (Jos.serialIntr serialExists run.ring serial) kbd =
      ((input serialExists (getc serial kbd)).foldl (RingBuffer.Trace.push consBufSize) run).ring := by
    rw [RingBuffer.Trace.pushes_eq, Jos.kbdIntr, serialIntr_pushes, consIntr_pushes, input, List.foldl_append]
  have sent : ((input serialExists (getc serial kbd)).foldl (RingBuffer.Trace.push consBufSize) run).sent =
      run.sent ++ serialDelivered serialExists serial ++ delivered kbd := by
    rw [RingBuffer.Trace.pushes_sent, input, List.append_assoc]
  have got := @RingBuffer.Trace.pushes_got _ consBufSize run (input serialExists (getc serial kbd))
  rw [step, consGetc, ring, ← sent, RingBuffer.Trace.pop, got]
  cases behind with
  | zero =>
    rw [pushed.lags.pop_none]
    rfl
  | succ behind =>
    obtain ⟨x, ring', popped, found, -⟩ := pushed.lags.pop_some
    have member := List.mem_of_getElem? found
    rw [RingBuffer.Trace.pushes_sent] at member
    have different : x ≠ 0 := by
      rcases List.mem_append.mp member with old | new
      · exact nonzero x old
      · exact input_ne_zero _ x new
    rw [popped]
    dsimp only
    rw [if_neg different]
    rfl

-- All interleavings

theorem step_sent (call : ConsCall) : (step serialExists run call).sent = run.sent ++ input serialExists call := by
  cases call with
  | serialIntr chars => rfl
  | kbdIntr chars => rfl
  | getc serial kbd => exact List.append_assoc ..

theorem runCalls_snoc (calls : List ConsCall) (call : ConsCall) :
    runCalls serialExists (calls ++ [call]) = step serialExists (runCalls serialExists calls) call := by
  rw [runCalls, runCalls, List.foldl_append]
  rfl

theorem runCalls_ordered (calls : List ConsCall) : (∀ c ∈ (runCalls serialExists calls).sent, c ≠ 0) ∧
    ∃ lag, RingBuffer.Trace.Ordered consBufSize (runCalls serialExists calls) lag := by
  induction calls using List.reverseRecOn with
  | nil =>
    have reader : (runCalls serialExists []).ring.rpos < consBufSize := by
      change 0 < 512
      decide
    exact ⟨by simp [runCalls, initial], 0, Lags.empty reader rfl [], List.Sublist.refl _⟩
  | append_singleton calls call ih =>
    obtain ⟨nonzero, lag, ordered⟩ := ih
    rw [runCalls_snoc]
    constructor
    · intro c member
      rw [step_sent] at member
      rcases List.mem_append.mp member with old | new
      · exact nonzero c old
      · exact input_ne_zero call c new
    · cases call with
      | serialIntr chars =>
        rw [step_serialIntr]
        exact ⟨_, ordered.pushes _⟩
      | kbdIntr chars =>
        rw [step_kbdIntr]
        exact ⟨_, ordered.pushes _⟩
      | getc serial kbd =>
        rw [step_getc serial kbd ordered nonzero]
        exact ⟨_, (ordered.pushes _).pop⟩

def unread (run : RingBuffer.Trace (BitVec 8)) : Nat := run.sent.length - run.got.length

theorem step_complete {call : ConsCall} (complete : RingBuffer.Trace.Complete consBufSize run lag)
    (nonzero : ∀ c ∈ run.sent, c ≠ 0) (room : unread (step serialExists run call) < consBufSize) :
    ∃ lag', RingBuffer.Trace.Complete consBufSize (step serialExists run call) lag' := by
  have held := complete.length
  cases call with
  | serialIntr chars =>
    rw [step_serialIntr] at room ⊢
    rw [unread, RingBuffer.Trace.pushes_sent, RingBuffer.Trace.pushes_got, List.length_append] at room
    exact ⟨_, complete.pushes _ (by omega)⟩
  | kbdIntr chars =>
    rw [step_kbdIntr] at room ⊢
    rw [unread, RingBuffer.Trace.pushes_sent, RingBuffer.Trace.pushes_got, List.length_append] at room
    exact ⟨_, complete.pushes _ (by omega)⟩
  | getc serial kbd =>
    rw [step_getc serial kbd complete.ordered nonzero] at room ⊢
    generalize input serialExists (getc serial kbd) = chars at room ⊢
    rcases Nat.lt_or_ge (lag + chars.length) consBufSize with fits | full
    · exact ⟨_, (complete.pushes chars fits).pop⟩
    · exfalso
      have ordered := complete.ordered.pushes chars
      have one := RingBuffer.Trace.pop_got_le consBufSize (chars.foldl (RingBuffer.Trace.push consBufSize) run)
      have sent : ((chars.foldl (RingBuffer.Trace.push consBufSize) run).pop consBufSize).sent.length =
          run.sent.length + chars.length := by
        change (chars.foldl (RingBuffer.Trace.push consBufSize) run).sent.length = _
        rw [RingBuffer.Trace.pushes_sent, List.length_append]
      rw [RingBuffer.Trace.pushes_got] at one
      rw [unread, sent] at room
      -- the writer has just caught up with the reader, and nothing is read
      have lapped : lag + chars.length = consBufSize := by omega
      rw [lapped, Nat.mod_self] at ordered
      have nothing : ((chars.foldl (RingBuffer.Trace.push consBufSize) run).pop consBufSize).got = run.got := by
        rw [RingBuffer.Trace.pop, ordered.lags.pop_none, RingBuffer.Trace.pushes_got]
        simp
      rw [nothing] at room
      omega

def drain (n : Nat) : List ConsCall := List.replicate n (getc [] [])

theorem runCalls_drain (calls : List ConsCall)
    (complete : RingBuffer.Trace.Complete consBufSize (runCalls serialExists calls) lag) :
    (runCalls serialExists (calls ++ drain lag)).got = (runCalls serialExists calls).sent := by
  induction lag generalizing calls with
  | zero =>
    rw [drain, List.replicate_zero, List.append_nil, complete.got, Nat.sub_zero, List.take_length]
  | succ lag ih =>
    have silent : input serialExists (getc [] []) = [] := by
      rw [input, serialDelivered]
      split <;> rfl
    have read := @step_getc serialExists _ _ [] [] complete.ordered (runCalls_ordered calls).1
    rw [silent, List.foldl_nil, ← runCalls_snoc] at read
    have popped := complete.pop
    rw [← read, Nat.add_sub_cancel] at popped
    have rest := ih (calls ++ [getc [] []]) popped
    rw [List.append_assoc] at rest
    rw [drain, List.replicate_succ, ← List.singleton_append, ← drain, rest, read]
    rfl

theorem runCalls_complete (calls : List ConsCall)
    (bounded : ∀ front, front <+: calls → unread (runCalls serialExists front) < consBufSize) :
    ∃ lag, RingBuffer.Trace.Complete consBufSize (runCalls serialExists calls) lag := by
  induction calls using List.reverseRecOn with
  | nil =>
    have reader : (runCalls serialExists []).ring.rpos < consBufSize := by
      change 0 < 512
      decide
    exact ⟨0, Lags.empty reader rfl [], rfl⟩
  | append_singleton calls call ih =>
    obtain ⟨lag, complete⟩ := ih fun front before => bounded front (before.trans (List.prefix_append ..))
    have room := bounded (calls ++ [call]) (List.prefix_refl _)
    rw [runCalls_snoc] at room ⊢
    exact step_complete complete (runCalls_ordered calls).1 room

/-- The input buffer is a queue: whatever is delivered and read, characters are read in the order in which they
    came, each once. As long as at most 511 of them are unread, the next ones are those that `cons_getc` returns. -/
theorem console_input_fifo (serialExists : Bool) (calls : List ConsCall) :
    (runCalls serialExists calls).got.Sublist (runCalls serialExists calls).sent ∧
      (runCalls serialExists calls).ring.rpos < consBufSize ∧ (runCalls serialExists calls).ring.wpos < consBufSize ∧
      ((∀ front, front <+: calls → unread (runCalls serialExists front) ≤ 511) →
        (runCalls serialExists calls).got <+: (runCalls serialExists calls).sent ∧
          (runCalls serialExists (calls ++ drain (unread (runCalls serialExists calls)))).got =
            (runCalls serialExists calls).sent) := by
  obtain ⟨-, lag, ordered⟩ := @runCalls_ordered serialExists calls
  refine ⟨ordered.sub.trans (List.take_sublist ..), ordered.lags.reader, ordered.lags.writer_lt, fun bounded => ?_⟩
  obtain ⟨lag, complete⟩ := runCalls_complete calls fun front before => Nat.lt_succ_of_le (bounded front before)
  have held : unread (runCalls serialExists calls) = lag := by
    rw [unread, complete.length]
    omega
  constructor
  · rw [complete.got]
    exact List.take_prefix ..
  · rw [held]
    exact runCalls_drain calls complete

end ConsCall

end Jos
