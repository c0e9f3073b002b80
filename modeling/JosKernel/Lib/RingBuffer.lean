import Mathlib.Data.Nat.ModEq
import Mathlib.Data.List.Basic
import Mathlib.Logic.Function.Basic

structure RingBuffer (α : Type) where
  buf : Nat → α
  rpos : Nat
  wpos : Nat

namespace RingBuffer

variable {α : Type} {size lag : Nat} {ring : RingBuffer α} {sent got : List α} {x : α}

def next (size pos : Nat) : Nat := if pos + 1 = size then 0 else pos + 1

def push (size : Nat) (ring : RingBuffer α) (x : α) : RingBuffer α :=
  { ring with buf := Function.update ring.buf ring.wpos x, wpos := next size ring.wpos }

def pop (size : Nat) (ring : RingBuffer α) : Option α × RingBuffer α :=
  if ring.rpos ≠ ring.wpos then (some (ring.buf ring.rpos), { ring with rpos := next size ring.rpos }) else (none, ring)

theorem next_eq {pos : Nat} (inside : pos < size) : next size pos = (pos + 1) % size := by
  rw [next]
  split
  · rename_i last
    rw [last, Nat.mod_self]
  · rw [Nat.mod_eq_of_lt (by omega)]

theorem next_lt {pos : Nat} (inside : pos < size) : next size pos < size := by
  rw [next_eq inside]
  exact Nat.mod_lt _ (by omega)

theorem place_inj {start i j : Nat} (small : i < size) (small' : j < size)
    (same : (start + i) % size = (start + j) % size) : i = j := by
  have equal : i % size = j % size := Nat.ModEq.add_left_cancel' start same
  rwa [Nat.mod_eq_of_lt small, Nat.mod_eq_of_lt small'] at equal

/-- The reader is `lag` elements behind, as far as the two positions show. -/
structure Lags (size : Nat) (ring : RingBuffer α) (sent : List α) (lag : Nat) : Prop where
  reader : ring.rpos < size
  writer : ring.wpos = (ring.rpos + lag) % size
  small : lag < size
  within : lag ≤ sent.length
  cells : ∀ i < lag, sent[sent.length - lag + i]? = some (ring.buf ((ring.rpos + i) % size))

namespace Lags

theorem empty (reader : ring.rpos < size) (writer : ring.wpos = ring.rpos) (sent : List α) : Lags size ring sent 0 where
  reader := reader
  writer := by rw [writer, Nat.add_zero, Nat.mod_eq_of_lt reader]
  small := by omega
  within := Nat.zero_le _
  cells := fun i inside => absurd inside (Nat.not_lt_zero i)

theorem writer_lt (lags : Lags size ring sent lag) : ring.wpos < size := by
  have small := lags.small
  rw [lags.writer]
  exact Nat.mod_lt _ (by omega)

/-- A writer that catches up with the reader makes everything unread disappear. -/
theorem push (lags : Lags size ring sent lag) (x : α) :
    Lags size (ring.push size x) (sent ++ [x]) ((lag + 1) % size) := by
  have small := lags.small
  have within := lags.within
  have writer : (ring.push size x).wpos = (ring.rpos + (lag + 1)) % size := by
    rw [RingBuffer.push, next_eq lags.writer_lt, lags.writer, Nat.mod_add_mod, Nat.add_assoc]
  rcases Nat.lt_or_ge (lag + 1) size with room | full
  · rw [Nat.mod_eq_of_lt room]
    refine ⟨lags.reader, writer, room, by simp; omega, fun i inside => ?_⟩
    rw [List.length_append, List.length_singleton, show sent.length + 1 - (lag + 1) + i = sent.length - lag + i by omega]
    rcases Nat.lt_or_ge i lag with old | last
    · have apart : (ring.rpos + i) % size ≠ ring.wpos := by
        rw [lags.writer]
        intro same
        have := place_inj (by omega) small same
        omega
      rw [List.getElem?_append_left (by omega), lags.cells i old]
      change some (ring.buf _) = some (Function.update ring.buf ring.wpos x ((ring.rpos + i) % size))
      rw [Function.update_of_ne apart]
    · have here : i = lag := by omega
      subst here
      rw [show sent.length - i + i = sent.length by omega, List.getElem?_append_right (Nat.le_refl _), Nat.sub_self]
      change some x = some (Function.update ring.buf ring.wpos x ((ring.rpos + i) % size))
      rw [← lags.writer, Function.update_self]
  · have all : lag + 1 = size := by omega
    rw [all, Nat.mod_self]
    rw [all, Nat.add_mod_right, Nat.mod_eq_of_lt lags.reader] at writer
    exact Lags.empty (show (ring.push size x).rpos < size from lags.reader) writer _

theorem pop_none (lags : Lags size ring sent 0) : ring.pop size = (none, ring) := by
  have same := lags.writer
  rw [Nat.add_zero, Nat.mod_eq_of_lt lags.reader] at same
  rw [RingBuffer.pop, if_neg (by simp [same])]

theorem pop_some (lags : Lags size ring sent (lag + 1)) : ∃ x ring', ring.pop size = (some x, ring') ∧
    sent[sent.length - (lag + 1)]? = some x ∧ Lags size ring' sent lag := by
  have small := lags.small
  have within := lags.within
  have reader := lags.reader
  have first := lags.cells 0 (Nat.succ_pos lag)
  simp only [Nat.add_zero, Nat.mod_eq_of_lt reader] at first
  have apart : ring.rpos ≠ ring.wpos := by
    intro same
    rw [lags.writer] at same
    have zero : (ring.rpos + 0) % size = (ring.rpos + (lag + 1)) % size := by
      rw [← same, Nat.add_zero, Nat.mod_eq_of_lt reader]
    have := place_inj (by omega) small zero
    omega
  refine ⟨ring.buf ring.rpos, { ring with rpos := next size ring.rpos }, if_pos apart, first, next_lt reader, ?_, by omega,
    by omega, fun i inside => ?_⟩
  · change ring.wpos = (next size ring.rpos + lag) % size
    rw [lags.writer, next_eq reader, Nat.mod_add_mod, Nat.add_assoc, Nat.add_comm 1]
  · have cell := lags.cells (i + 1) (by omega)
    rw [show sent.length - (lag + 1) + (i + 1) = sent.length - lag + i by omega] at cell
    rw [cell, next_eq reader, Nat.mod_add_mod, Nat.add_assoc, Nat.add_comm 1]

end Lags

-- Pushes and pops

structure Trace (α : Type) where
  ring : RingBuffer α
  sent : List α
  got : List α

namespace Trace

def push (size : Nat) (trace : Trace α) (x : α) : Trace α := ⟨trace.ring.push size x, trace.sent ++ [x], trace.got⟩

def pop (size : Nat) (trace : Trace α) : Trace α :=
  ⟨(trace.ring.pop size).2, trace.sent, trace.got ++ (trace.ring.pop size).1.toList⟩

structure Ordered (size : Nat) (trace : Trace α) (lag : Nat) : Prop where
  lags : Lags size trace.ring trace.sent lag
  sub : trace.got.Sublist (trace.sent.take (trace.sent.length - lag))

theorem Ordered.push {trace : Trace α} (ordered : Ordered size trace lag) (x : α) :
    Ordered size (trace.push size x) ((lag + 1) % size) := by
  refine ⟨ordered.lags.push x, ordered.sub.trans ?_⟩
  have within := ordered.lags.within
  have fewer : (lag + 1) % size ≤ lag + 1 := Nat.mod_le _ _
  change (trace.sent.take _).Sublist ((trace.sent ++ [x]).take ((trace.sent ++ [x]).length - _))
  have front : trace.sent.take (trace.sent.length - lag) = (trace.sent ++ [x]).take (trace.sent.length - lag) := by
    rw [List.take_append_of_le_length (by omega)]
  rw [front]
  apply List.IsPrefix.sublist
  apply List.take_prefix_take_left
  rw [List.length_append, List.length_singleton]
  omega

theorem Ordered.pop {trace : Trace α} (ordered : Ordered size trace lag) : Ordered size (trace.pop size) (lag - 1) := by
  cases lag with
  | zero =>
    have nothing := ordered.lags.pop_none
    refine ⟨?_, ?_⟩
    · rw [Trace.pop, nothing]
      exact ordered.lags
    · rw [Trace.pop, nothing]
      simpa using ordered.sub
  | succ lag =>
    obtain ⟨x, ring', popped, found, lags⟩ := ordered.lags.pop_some
    have within := ordered.lags.within
    refine ⟨?_, ?_⟩
    · rw [Trace.pop, popped]
      exact lags
    · rw [Trace.pop, popped]
      change (trace.got ++ [x]).Sublist (trace.sent.take (trace.sent.length - (lag + 1 - 1)))
      rw [show trace.sent.length - (lag + 1 - 1) = trace.sent.length - (lag + 1) + 1 by omega, List.take_add_one, found]
      exact ordered.sub.append (List.Sublist.refl _)

structure Complete (size : Nat) (trace : Trace α) (lag : Nat) : Prop where
  lags : Lags size trace.ring trace.sent lag
  got : trace.got = trace.sent.take (trace.sent.length - lag)

theorem Complete.push {trace : Trace α} (complete : Complete size trace lag) (room : lag + 1 < size) (x : α) :
    Complete size (trace.push size x) (lag + 1) := by
  have lags := complete.lags.push x
  rw [Nat.mod_eq_of_lt room] at lags
  refine ⟨lags, ?_⟩
  have within := complete.lags.within
  change trace.got = (trace.sent ++ [x]).take ((trace.sent ++ [x]).length - (lag + 1))
  rw [complete.got, List.length_append, List.length_singleton, List.take_append_of_le_length (by omega)]
  congr 1
  omega

theorem Complete.pop {trace : Trace α} (complete : Complete size trace lag) : Complete size (trace.pop size) (lag - 1) := by
  cases lag with
  | zero =>
    have nothing := complete.lags.pop_none
    refine ⟨?_, ?_⟩
    · rw [Trace.pop, nothing]
      exact complete.lags
    · rw [Trace.pop, nothing]
      simpa using complete.got
  | succ lag =>
    obtain ⟨x, ring', popped, found, lags⟩ := complete.lags.pop_some
    have within := complete.lags.within
    refine ⟨?_, ?_⟩
    · rw [Trace.pop, popped]
      exact lags
    · rw [Trace.pop, popped]
      change trace.got ++ [x] = trace.sent.take (trace.sent.length - (lag + 1 - 1))
      rw [show trace.sent.length - (lag + 1 - 1) = trace.sent.length - (lag + 1) + 1 by omega, List.take_add_one, found,
        complete.got]
      rfl

section Bursts

variable {trace : Trace α} (xs : List α)

theorem pushes_eq : xs.foldl (push size) trace =
    ⟨xs.foldl (RingBuffer.push size) trace.ring, trace.sent ++ xs, trace.got⟩ := by
  induction xs generalizing trace with
  | nil => simp
  | cons x xs ih =>
    rw [List.foldl_cons, ih]
    simp [push]

@[simp] theorem pushes_sent : (xs.foldl (Trace.push size) trace).sent = trace.sent ++ xs := by
  induction xs generalizing trace with
  | nil => simp
  | cons x xs ih =>
    rw [List.foldl_cons, ih]
    simp [push]

@[simp] theorem pushes_got : (xs.foldl (Trace.push size) trace).got = trace.got := by
  induction xs generalizing trace with
  | nil => rfl
  | cons x xs ih =>
    rw [List.foldl_cons, ih]
    rfl

theorem Ordered.pushes (ordered : Ordered size trace lag) :
    Ordered size (xs.foldl (Trace.push size) trace) ((lag + xs.length) % size) := by
  induction xs generalizing trace lag with
  | nil => rwa [List.length_nil, Nat.add_zero, Nat.mod_eq_of_lt ordered.lags.small]
  | cons x xs ih =>
    have rest := ih (ordered.push x)
    rwa [Nat.mod_add_mod, Nat.add_assoc, Nat.add_comm 1] at rest

theorem Complete.pushes (complete : Complete size trace lag) (room : lag + xs.length < size) :
    Complete size (xs.foldl (Trace.push size) trace) (lag + xs.length) := by
  induction xs generalizing trace lag with
  | nil => exact complete
  | cons x xs ih =>
    rw [List.length_cons] at room ⊢
    have rest := ih (complete.push (by omega) x) (by omega)
    rwa [Nat.add_assoc, Nat.add_comm 1] at rest

theorem Complete.ordered (complete : Complete size trace lag) : Ordered size trace lag :=
  ⟨complete.lags, complete.got ▸ List.Sublist.refl _⟩

theorem Complete.length (complete : Complete size trace lag) : trace.sent.length = trace.got.length + lag := by
  have within := complete.lags.within
  rw [complete.got, List.length_take]
  omega

theorem pop_got_le (size : Nat) (trace : Trace α) : (trace.pop size).got.length ≤ trace.got.length + 1 := by
  rw [pop, List.length_append]
  cases (trace.ring.pop size).1 <;> simp

end Bursts

end Trace

end RingBuffer
