import JosKernel.Console.Format
import JosKernel.Lib.Editor

namespace Jos

open Editor
open Format (Byte CString ascii)

-- lib/readline.c

def bufLen : Int := 1024

/-- What `readline` shows: the prompt, the message for a read error, and what it gives to `cputchar`. -/
inductive Shown
  | prompt (s : CString)
  | readError (c : Int)
  | char (c : Int)

structure LineState where
  buf : Int → Byte
  i : Int
  shown : List Shown

inductive Readline
  | waits (s : LineState)
  | null (s : LineState)
  | line (s : LineState)

def LineState.echo (s : LineState) (echoing : Bool) (c : Int) : LineState :=
  if echoing then { s with shown := s.shown ++ [.char c] } else s

def LineState.store (s : LineState) (c : Int) : LineState :=
  { s with buf := Function.update s.buf s.i (BitVec.ofInt 8 c) }

def readChars (echoing : Bool) (s : LineState) : List Int → Readline
  | [] => .waits s
  | c :: input =>
    if c < 0 then .null { s with shown := s.shown ++ [.readError c] }
    else if (c = 0x08 ∨ c = 0x7f) ∧ s.i > 0 then
      let s := s.echo echoing 0x08
      readChars echoing { s with i := s.i - 1 } input
    else if c ≥ 0x20 ∧ s.i < bufLen - 1 then
      let s := (s.echo echoing c).store c
      readChars echoing { s with i := s.i + 1 } input
    else if c = 0x0a ∨ c = 0x0d then .line ((s.echo echoing 0x0a).store 0)
    else readChars echoing s input

def readline (echoing : Bool) (prompt : Option CString) (buf : Int → Byte) (input : List Int) : Readline :=
  readChars echoing ⟨buf, 0, prompt.toList.map .prompt⟩ input

-- Line editing

namespace Readline

def backspace : Byte := 0x08

def del : Byte := 0x7f

def Erases (c : Byte) : Prop := c = backspace ∨ c = del

def Ends (c : Byte) : Prop := c = 0x0a ∨ c = 0x0d

instance (c : Byte) : Decidable (Erases c) := inferInstanceAs (Decidable (_ ∨ _))

instance (c : Byte) : Decidable (Ends c) := inferInstanceAs (Decidable (_ ∨ _))

def key (c : Byte) : Key Byte := if Erases c then .erase else if c < 0x20 then .ignore else .enter c

def room : Nat := 1023

def edited (chars : List Byte) : List Byte := edit room (chars.map key)

structure Holds (buf : Int → Byte) (s : List Byte) : Prop where
  chars : ∀ (j : Nat) (c : Byte), s[j]? = some c → buf j = c
  ends : buf s.length = 0
  nonzero : 0 ∉ s

def Misread (line : List Byte) (c : Byte) : Prop := line = [] ∧ c = del

def Idle (line : List Byte) (c : Byte) : Prop := line = [] ∧ Erases c

def pressed (room : Nat) (line : List Byte) (c : Byte) : List Byte := press room line (key c)

/-- Each DEL that comes on an empty line is erased itself later. It takes one place until then, and an erasing
    character gets at it when all that has come behind it is erased. -/
inductive Undone : List Byte → Prop
  | never {chars : List Byte} (free : Avoids (pressed room) Misread [] chars) : Undone chars
  | erased {front mid rest : List Byte} {c : Byte} (free : Avoids (pressed room) Misread [] front)
      (empty : edited front = []) (behind : Avoids (pressed (room - 1)) Idle [] mid)
      (gone : edit (room - 1) (mid.map key) = []) (erases : Erases c) (others : Undone rest) :
      Undone (front ++ del :: (mid ++ c :: rest))

def typed (line : List Byte) (c : Byte) : List Byte :=
  if Erases c ∧ line ≠ [] then line.dropLast else if 0x20 ≤ c ∧ line.length < room then line ++ [c] else line

variable {line chars front mid rest : List Byte} {c : Byte} {buf buf' : Int → Byte} {echoing : Bool}

theorem edit_map (room : Nat) (chars : List Byte) : edit room (chars.map key) = chars.foldl (pressed room) [] := by
  rw [edit, List.foldl_map]
  rfl

theorem typed_eq_pressed (proper : ¬ Misread line c) : typed line c = pressed room line c := by
  rw [typed, pressed, key]
  by_cases erases : Erases c
  · rw [if_pos erases]
    by_cases empty : line = []
    · have other : c = backspace := by
        rcases erases with other | same
        · exact other
        · exact absurd ⟨empty, same⟩ proper
      rw [empty, other]
      rfl
    · rw [if_pos ⟨erases, empty⟩]
      rfl
  · rw [if_neg erases, if_neg (fun both => erases both.1)]
    by_cases low : c < 0x20
    · have notHigh : ¬ 0x20 ≤ c := by bv_omega
      rw [if_pos low, if_neg fun both => notHigh both.1]
      rfl
    · have high : 0x20 ≤ c := by bv_omega
      rw [if_neg low, press]
      simp only [high, true_and]

theorem typed_behind (busy : ¬ Idle line c) : typed (del :: line) c = del :: pressed (room - 1) line c := by
  rw [typed, pressed, key]
  by_cases erases : Erases c
  · have nonempty : line ≠ [] := fun empty => busy ⟨empty, erases⟩
    rw [if_pos erases, if_pos ⟨erases, by simp⟩, press, List.dropLast_cons_of_ne_nil nonempty]
  · rw [if_neg erases, if_neg (fun both => erases both.1)]
    by_cases low : c < 0x20
    · have notHigh : ¬ 0x20 ≤ c := by bv_omega
      rw [if_pos low, if_neg fun both => notHigh both.1]
      rfl
    · have high : 0x20 ≤ c := by bv_omega
      rw [if_neg low, press, List.length_cons, room]
      by_cases space : line.length < 1023 - 1
      · rw [if_pos ⟨high, by omega⟩, if_pos space]
        rfl
      · rw [if_neg (by omega), if_neg space]

theorem types_proper (free : Avoids (pressed room) Misread [] chars) : chars.foldl typed [] = edited chars := by
  rw [edited, edit_map]
  symm
  apply free.simulates (fun proper code => proper = code) _ rfl
  rintro line _ c rfl proper
  exact (typed_eq_pressed proper).symm

theorem types_behind (free : Avoids (pressed (room - 1)) Idle [] mid) :
    mid.foldl typed [del] = del :: edit (room - 1) (mid.map key) := by
  rw [edit_map]
  apply free.simulates (fun proper code => code = del :: proper) _ rfl
  rintro line _ c rfl busy
  exact typed_behind busy

/-- A line that DEL has been left in goes back to the empty one when the DEL is erased. -/
theorem types_erased (free : Avoids (pressed room) Misread [] front) (empty : edited front = [])
    (behind : Avoids (pressed (room - 1)) Idle [] mid) (gone : edit (room - 1) (mid.map key) = []) (erases : Erases c) :
    (front ++ del :: (mid ++ c :: rest)).foldl typed [] = rest.foldl typed [] := by
  have entered : typed [] del = [del] := rfl
  have left : typed [del] c = [] := by
    rw [typed, if_pos ⟨erases, by simp⟩]
    rfl
  rw [List.foldl_append, types_proper free, empty, List.foldl_cons, entered, List.foldl_append, types_behind behind, gone,
    List.foldl_cons, left]

theorem edited_erased (empty : edited front = []) (gone : edit (room - 1) (mid.map key) = []) (erases : Erases c) :
    edited (front ++ del :: (mid ++ c :: rest)) = edited rest := by
  rw [edited, edit_map] at empty
  have entered : pressed room [] del = [] := rfl
  have short := edit_length 1022 (mid.map key)
  rw [show edit 1022 (mid.map key) = [] from gone, edit_map] at short
  have left : pressed room (mid.foldl (pressed room) []) c = [] := by
    rw [pressed, key, if_pos erases, press]
    apply List.eq_nil_of_length_eq_zero
    rw [List.length_dropLast]
    exact Nat.sub_eq_zero_of_le short
  rw [edited, edit_map, edited, edit_map, List.foldl_append, empty, List.foldl_cons, entered, List.foldl_append,
    List.foldl_cons, left]

theorem Undone.types (undone : Undone chars) : chars.foldl typed [] = edited chars := by
  induction undone with
  | never free => exact types_proper free
  | erased free empty behind gone erases _ ih =>
    rw [types_erased free empty behind gone erases, edited_erased empty gone erases, ih]

theorem undone_or_mem (chars : List Byte) : Undone chars ∨ del ∈ chars.foldl typed [] := by
  induction count : chars.length using Nat.strongRecOn generalizing chars with
  | ind n ih =>
    rcases avoids_or_first (pressed room) Misread [] chars with
      free | ⟨front, _, back, rfl, free, empty, rfl⟩
    · exact .inl (.never free)
    · rw [← edit_map, ← edited] at empty
      rcases avoids_or_first (pressed (room - 1)) Idle [] back with
        behind | ⟨mid, c, rest, rfl, behind, gone, erases⟩
      · right
        have entered : typed [] del = [del] := rfl
        rw [List.foldl_append, types_proper free, empty, List.foldl_cons, entered, types_behind behind]
        exact List.mem_cons_self ..
      · rw [← edit_map] at gone
        rw [types_erased free empty behind gone erases]
        have shorter : rest.length < n := by
          rw [← count, List.length_append, List.length_cons, List.length_append, List.length_cons]
          omega
        rcases ih rest.length shorter rest rfl with undone | kept
        · exact .inl (.erased free empty behind gone erases undone)
        · exact .inr kept

theorem edited_proper (member : c ∈ edited chars) : ¬ Erases c ∧ 0x20 ≤ c := by
  obtain ⟨typed, -, entered⟩ := List.mem_map.mp (mem_edit member)
  rw [key] at entered
  split at entered
  · cases entered
  · rename_i other
    split at entered
    · cases entered
    · rename_i high
      cases entered
      exact ⟨other, by bv_omega⟩

-- What is in the buffer

structure Line (buf' : Int → Byte) (s : LineState) (line : List Byte) : Prop where
  i : s.i = line.length
  chars : ∀ (j : Nat) (c : Byte), (line)[j]? = some c → s.buf j = c
  short : line.length ≤ room
  high : ∀ c ∈ line, 0x20 ≤ c
  outside : ∀ a, a < 0 ∨ bufLen ≤ a → s.buf a = buf' a

def input (chars : List Byte) : List Int := chars.map fun c => (c.toNat : Int)

variable {s : LineState}

theorem Line.typed (held : Line buf' s line) (echoing : Bool) (other : ¬ Ends c) : ∃ s', Line buf' s' (typed line c) ∧
    ∀ rest, readChars echoing s ((c.toNat : Int) :: rest) = readChars echoing s' rest := by
  have nonneg : ¬ (c.toNat : Int) < 0 := by omega
  have erasing : ((c.toNat : Int) = 0x08 ∨ (c.toNat : Int) = 0x7f) ↔ Erases c := by
    rw [Erases, backspace, del]
    bv_omega
  have high : (c.toNat : Int) ≥ 0x20 ↔ 0x20 ≤ c := by bv_omega
  have ending : ((c.toNat : Int) = 0x0a ∨ (c.toNat : Int) = 0x0d) ↔ Ends c := by
    rw [Ends]
    bv_omega
  have started : s.i > 0 ↔ line ≠ [] := by
    rw [held.i, ← List.length_pos_iff]
    omega
  have space : s.i < bufLen - 1 ↔ line.length < room := by
    rw [held.i, bufLen, room]
    omega
  unfold Readline.typed
  simp only [readChars, if_neg nonneg, erasing, started, high, space, ending, if_neg other]
  by_cases erased : Erases c ∧ line ≠ []
  · refine ⟨_, ?_, fun rest => by rw [if_pos erased]⟩
    rw [if_pos erased]
    have length := List.length_pos_iff.mpr erased.2
    have same : (s.echo echoing 0x08).buf = s.buf ∧ (s.echo echoing 0x08).i = s.i := by
      cases echoing <;> exact ⟨rfl, rfl⟩
    refine ⟨?_, fun j c found => ?_, ?_, fun c member => ?_, fun a outside => ?_⟩
    · change (s.echo echoing 0x08).i - 1 = _
      rw [same.2, held.i, List.length_dropLast]
      omega
    · rw [List.getElem?_dropLast] at found
      split at found
      · exact (congrFun same.1 j).trans (held.chars j c found)
      · cases found
    · exact (List.length_dropLast ▸ Nat.sub_le ..).trans held.short
    · exact held.high c ((List.dropLast_sublist line).mem member)
    · exact (congrFun same.1 a).trans (held.outside a outside)
  · by_cases appended : 0x20 ≤ c ∧ line.length < room
    · refine ⟨_, ?_, fun rest => by rw [if_neg erased, if_pos appended]⟩
      rw [if_neg erased, if_pos appended]
      have same : (s.echo echoing c.toNat).buf = s.buf ∧ (s.echo echoing c.toNat).i = s.i := by
        cases echoing <;> exact ⟨rfl, rfl⟩
      have byte : BitVec.ofInt 8 (c.toNat : Int) = c := by simp
      refine ⟨?_, fun j c' found => ?_, ?_, fun c' member => ?_, fun a outside => ?_⟩
      · change (s.echo echoing c.toNat).i + 1 = _
        rw [same.2, held.i, List.length_append, List.length_singleton]
        omega
      · change Function.update (s.echo echoing c.toNat).buf (s.echo echoing c.toNat).i _ j = c'
        rw [same.1, same.2, held.i, byte]
        rcases Nat.lt_trichotomy j line.length with below | here | above
        · rw [Function.update_of_ne (by omega)]
          rw [List.getElem?_append_left below] at found
          exact held.chars j c' found
        · rw [here, Function.update_self]
          rw [here, List.getElem?_append_right (Nat.le_refl _), Nat.sub_self] at found
          exact Option.some.inj found
        · rw [List.getElem?_eq_none (by rw [List.length_append, List.length_singleton]; omega)] at found
          cases found
      · rw [List.length_append, List.length_singleton]
        exact appended.2
      · rcases List.mem_append.mp member with old | new
        · exact held.high c' old
        · rw [List.mem_singleton.mp new]
          exact appended.1
      · change Function.update (s.echo echoing c.toNat).buf (s.echo echoing c.toNat).i _ a = buf' a
        have short := appended.2
        rw [room] at short
        rw [bufLen] at outside
        rw [same.1, same.2, held.i, Function.update_of_ne (by omega)]
        exact held.outside a (by rw [bufLen]; omega)
    · refine ⟨s, ?_, fun rest => by rw [if_neg erased, if_neg appended]⟩
      rw [if_neg erased, if_neg appended]
      exact held

theorem Line.types (held : Line buf' s line) (echoing : Bool) (others : ∀ c ∈ chars, ¬ Ends c) :
    ∃ s', Line buf' s' (chars.foldl Readline.typed line) ∧
      ∀ rest, readChars echoing s (input chars ++ rest) = readChars echoing s' rest := by
  induction chars generalizing s line with
  | nil => exact ⟨s, held, fun rest => rfl⟩
  | cons c chars ih =>
    obtain ⟨middle, held', first⟩ := held.typed echoing (others c (List.mem_cons_self ..))
    obtain ⟨s', held'', others'⟩ := ih held' fun c member => others c (List.mem_cons_of_mem _ member)
    exact ⟨s', held'', fun rest => (first (input chars ++ rest)).trans (others' rest)⟩

theorem Line.returns (held : Line buf' s line) (echoing : Bool) (ends : Ends c) (rest : List Int) :
    ∃ s', readChars echoing s ((c.toNat : Int) :: rest) = .line s' ∧ Holds s'.buf line ∧
      ∀ a, a < 0 ∨ bufLen ≤ a → s'.buf a = buf' a := by
  have low : (c.toNat : Int) = 0x0a ∨ (c.toNat : Int) = 0x0d := by
    rw [Ends] at ends
    bv_omega
  have same : (s.echo echoing 0x0a).buf = s.buf ∧ (s.echo echoing 0x0a).i = s.i := by
    cases echoing <;> exact ⟨rfl, rfl⟩
  have short := held.short
  rw [room] at short
  rw [readChars, if_neg (by omega), if_neg (by omega), if_neg (by omega), if_pos low]
  refine ⟨_, rfl, ⟨fun j c' found => ?_, ?_, fun member => ?_⟩, fun a outside => ?_⟩
  · obtain ⟨inside, -⟩ := List.getElem?_eq_some_iff.mp found
    change Function.update (s.echo echoing 0x0a).buf (s.echo echoing 0x0a).i _ j = c'
    rw [same.1, same.2, held.i, Function.update_of_ne (by omega)]
    exact held.chars j c' found
  · change Function.update (s.echo echoing 0x0a).buf (s.echo echoing 0x0a).i _ line.length = 0
    rw [same.2, held.i, Function.update_self]
    rfl
  · exact absurd (held.high 0 member) (by decide)
  · change Function.update (s.echo echoing 0x0a).buf (s.echo echoing 0x0a).i _ a = buf' a
    rw [bufLen] at outside
    rw [same.1, same.2, held.i, Function.update_of_ne (by omega)]
    exact held.outside a (by rw [bufLen]; omega)

theorem Holds.unique {s s' : List Byte} (holds : Holds buf s) (holds' : Holds buf s') : s = s' := by
  have shorter : ∀ {s s' : List Byte}, Holds buf s → Holds buf s' → s'.length ≤ s.length := by
    intro s s' holds holds'
    by_contra longer
    obtain ⟨c, found⟩ : ∃ c, s'[s.length]? = some c := ⟨_, List.getElem?_eq_getElem (by omega)⟩
    have here := holds'.chars _ c found
    rw [holds.ends] at here
    exact holds'.nonzero (here ▸ List.mem_of_getElem? found)
  have length := Nat.le_antisymm (shorter holds' holds) (shorter holds holds')
  apply List.ext_getElem length
  intro j inside inside'
  have here := holds.chars j _ (List.getElem?_eq_getElem inside)
  have there := holds'.chars j _ (List.getElem?_eq_getElem inside')
  exact here.symm.trans there

theorem Holds.of_typed (echoing : Bool) (buf : Int → Byte) (others : ∀ c ∈ chars, ¬ Ends c) (ends : Ends c)
    (prompt : Option CString) :
    ∃ s', readline echoing prompt buf (input (chars ++ [c])) = .line s' ∧ Holds s'.buf (chars.foldl typed []) ∧
      ∀ a, a < 0 ∨ bufLen ≤ a → s'.buf a = buf a := by
  have start : Line buf ⟨buf, 0, prompt.toList.map .prompt⟩ [] :=
    ⟨rfl, fun j c found => absurd found (by simp), Nat.zero_le _, fun c member => absurd member List.not_mem_nil,
      fun a _ => rfl⟩
  obtain ⟨middle, held, typing⟩ := start.types echoing others
  obtain ⟨s', done, holds, outside⟩ := held.returns echoing ends []
  refine ⟨s', ?_, holds, outside⟩
  rw [readline, input, List.map_append, ← input, typing]
  exact done

/-- `readline` returns, and writes nowhere else than to `buf`. The string is the edited line, without the characters
    that erase, just if each DEL on an empty line has been erased again. -/
theorem readline_edits_iff (echoing : Bool) (prompt : Option CString) (buf : Int → Byte) (chars : List Byte)
    (others : ∀ c ∈ chars, ¬ Ends c) (last : Byte) (ends : Ends last) :
    ∃ s', readline echoing prompt buf (input (chars ++ [last])) = .line s' ∧
      (∀ a, a < 0 ∨ bufLen ≤ a → s'.buf a = buf a) ∧
      ((Holds s'.buf (edited chars) ∧ ∀ s, Holds s'.buf s → ∀ c ∈ s, ¬ Erases c) ↔ Undone chars) := by
  obtain ⟨s', done, holds, outside⟩ := Holds.of_typed echoing buf others ends prompt
  refine ⟨s', done, outside, ?_⟩
  constructor
  · rintro ⟨right, proper⟩
    rcases undone_or_mem chars with undone | kept
    · exact undone
    · exact absurd (.inr rfl) (proper _ holds del kept)
  · intro undone
    rw [undone.types] at holds
    refine ⟨holds, fun s string c member => ?_⟩
    rw [string.unique holds] at member
    exact (edited_proper member).1

theorem readline_edits_iff_twice : ∃ s', readline true none (fun _ => 0) (input ([del, del] ++ [0x0a])) = .line s' ∧
    Holds s'.buf [] := by
  obtain ⟨s', done, -, right⟩ := readline_edits_iff true none (fun _ => 0) [del, del] (by decide) 0x0a (by decide)
  have undone : Undone ([] ++ del :: ([] ++ del :: [])) :=
    .erased trivial rfl trivial rfl (.inr rfl) (.never trivial)
  exact ⟨s', done, (right.mpr undone).1⟩

/-- DEL typed on an empty line is returned. -/
theorem readline_returns_del : ∃ s', readline true none (fun _ => 0) (input ([del] ++ [0x0a])) = .line s' ∧
    edited [del] = [] ∧ Holds s'.buf [del] ∧ ¬ Holds s'.buf (edited [del]) := by
  obtain ⟨s', done, holds, -⟩ :=
    Holds.of_typed true (fun _ => 0) (show ∀ c ∈ [del], ¬ Ends c by decide) (show Ends 0x0a by decide) none
  refine ⟨s', done, rfl, holds, fun empty => ?_⟩
  have same := holds.unique empty
  cases same

end Readline

end Jos
