import JosKernel.Lib.Sieve
import JosKernel.Lib.Transition

namespace Jos

namespace Primes

open Sieve (Passes Least)

-- user/primes.c

/-- Where an environment is in `primeproc`: in the first `ipc_recv`, before `cprintf`, before `fork`, in the `ipc_recv` of
    the loop, before the test of `i % p`, in `ipc_send`, and in `panic`, which does not return. -/
inductive Proc
  | top
  | first (p : Nat)
  | forking (p : Nat)
  | recv (p : Nat)
  | filter (p i : Nat)
  | send (p i : Nat)
  | panicked (p : Nat)

/-- The variable `i` of `umain`, which is in `ipc_send`, and the chain of the other environments, from left to right. -/
structure Chain where
  i : Nat
  procs : List Proc

inductive Deliver (value : Nat) : List Proc → List Proc → Prop
  | top (procs : List Proc) : Deliver value (.top :: procs) (.first value :: procs)
  | recv (p : Nat) (procs : List Proc) : Deliver value (.recv p :: procs) (.filter p value :: procs)

/-- One environment of the chain goes on, or passes a number to its right neighbour. What it prints is `out`. -/
inductive Moves : List Proc → Option Nat → List Proc → Prop
  | print (p : Nat) (procs : List Proc) : Moves (.first p :: procs) (some p) (.forking p :: procs)
  | fork (p : Nat) (procs : List Proc) : Moves (.forking p :: procs) none (.recv p :: .top :: procs)
  | panic (p : Nat) (procs : List Proc) : Moves (.forking p :: procs) none (.panicked p :: procs)
  | keep (p i : Nat) (procs : List Proc) (rest : i % p ≠ 0) : Moves (.filter p i :: procs) none (.send p i :: procs)
  | drop (p i : Nat) (procs : List Proc) (rest : i % p = 0) : Moves (.filter p i :: procs) none (.recv p :: procs)
  | send (p i : Nat) (procs procs' : List Proc) (delivered : Deliver i procs procs') :
      Moves (.send p i :: procs) none (.recv p :: procs')
  | right (proc : Proc) (procs procs' : List Proc) (out : Option Nat) (moves : Moves procs out procs') :
      Moves (proc :: procs) out (proc :: procs')

/-- One step of the chain, or of `umain` as long as `i` is an `int`. -/
inductive Step (s : Chain) : Option Nat → Chain → Prop
  | umain (procs : List Proc) (delivered : Deliver s.i s.procs procs) (int : s.i + 1 < 2^31) :
      Step s none ⟨s.i + 1, procs⟩
  | primeproc (procs : List Proc) (out : Option Nat) (moves : Moves s.procs out procs) : Step s out ⟨s.i, procs⟩

/-- After the `fork` in `umain`. -/
def initial : Chain := ⟨2, [.top]⟩

-- The chain is a sieve

def Proc.shown : Proc → List Nat
  | .top | .first _ => []
  | .forking p | .recv p | .filter p _ | .send p _ | .panicked p => [p]

/-- The chain filters what passes the primes `found` to its left, and has got all of that below `bound`. -/
inductive Sieves : List Nat → Nat → List Proc → Prop
  | top {found : List Nat} {bound : Nat} (none : ∀ m < bound, ¬ Passes found m) : Sieves found bound [.top]
  | first {found : List Nat} {bound p : Nat} (least : Least found p) (only : ∀ m < bound, Passes found m → m = p) :
      Sieves found bound [.first p]
  | forking {found : List Nat} {bound p : Nat} (least : Least found p) (only : ∀ m < bound, Passes found m → m = p) :
      Sieves found bound [.forking p]
  | recv {found : List Nat} {bound p : Nat} {procs : List Proc} (least : Least found p)
      (right : Sieves (found ++ [p]) bound procs) : Sieves found bound (.recv p :: procs)
  | filter {found : List Nat} {bound p i : Nat} {procs : List Proc} (least : Least found p) (passes : Passes found i)
      (last : ∀ m, i < m → m < bound → ¬ Passes found m) (right : Sieves (found ++ [p]) i procs) :
      Sieves found bound (.filter p i :: procs)
  | send {found : List Nat} {bound p i : Nat} {procs : List Proc} (least : Least found p)
      (passes : Passes (found ++ [p]) i) (last : ∀ m, i < m → m < bound → ¬ Passes found m)
      (right : Sieves (found ++ [p]) i procs) : Sieves found bound (.send p i :: procs)
  | panicked {found : List Nat} {bound p : Nat} (least : Least found p) : Sieves found bound [.panicked p]

variable {found : List Nat} {bound bound' value n : Nat} {procs procs' : List Proc} {out : Option Nat}

theorem Sieves.widen (sieves : Sieves found bound procs)
    (none : ∀ m, bound ≤ m → m < bound' → ¬ Passes found m) : Sieves found bound' procs := by
  induction sieves with
  | top nothing =>
    refine .top fun m below passes => ?_
    exact none m (not_lt.mp fun old => nothing m old passes) below passes
  | first least only =>
    refine .first least fun m below passes => ?_
    by_contra other
    exact none m (not_lt.mp fun old => other (only m old passes)) below passes
  | forking least only =>
    refine .forking least fun m below passes => ?_
    by_contra other
    exact none m (not_lt.mp fun old => other (only m old passes)) below passes
  | recv least right ih =>
    exact .recv least (ih fun m low high passes => none m low high (Sieve.passes_concat.mp passes).1)
  | filter least passes last right =>
    refine .filter least passes (fun m above below passes => ?_) right
    exact none m (not_lt.mp fun old => last m above old passes) below passes
  | send least passes last right =>
    refine .send least passes (fun m above below passes => ?_) right
    exact none m (not_lt.mp fun old => last m above old passes) below passes
  | panicked least => exact .panicked least

theorem Deliver.sieves (delivered : Deliver value procs procs') (sieves : Sieves found value procs)
    (passes : Passes found value) : Sieves found (value + 1) procs' := by
  cases delivered with
  | top =>
    cases sieves with
    | top none =>
      refine .first ⟨passes, fun m other => not_lt.mp fun below => none m below other⟩ fun m below other => ?_
      by_contra different
      exact none m (by omega) other
  | recv p =>
    cases sieves with
    | recv least right => exact .filter least passes (fun m above below => by omega) right

theorem Deliver.shown (delivered : Deliver value procs procs') :
    procs'.flatMap Proc.shown = procs.flatMap Proc.shown := by
  cases delivered <;> rfl

theorem Moves.sieves (moves : Moves procs out procs') (sieves : Sieves found bound procs) :
    Sieves found bound procs' := by
  induction moves generalizing found bound with
  | print p =>
    cases sieves with
    | first least only => exact .forking least only
  | fork p =>
    cases sieves with
    | forking least only =>
      refine .recv least (.top fun m below passes => ?_)
      obtain ⟨passes, divides⟩ := Sieve.passes_concat.mp passes
      rw [only m below passes] at divides
      exact divides (dvd_refl p)
  | panic p =>
    cases sieves with
    | forking least => exact .panicked least
  | keep p i _ rest =>
    cases sieves with
    | filter least passes last right =>
      have indivisible : ¬ p ∣ i := fun divides => rest (Nat.mod_eq_zero_of_dvd divides)
      exact .send least (Sieve.passes_concat.mpr ⟨passes, indivisible⟩) last right
  | drop p i _ rest =>
    cases sieves with
    | filter least passes last right =>
      refine .recv least (right.widen fun m low high passes => ?_)
      obtain ⟨passes, divides⟩ := Sieve.passes_concat.mp passes
      by_cases same : m = i
      · rw [same] at divides
        exact divides (Nat.dvd_of_mod_eq_zero rest)
      · exact last m (by omega) high passes
  | send p i _ _ delivered =>
    cases sieves with
    | send least passes last right =>
      refine .recv least ((delivered.sieves right passes).widen fun m low high passes => ?_)
      exact last m low high (Sieve.passes_concat.mp passes).1
  | right _ _ _ _ moves ih =>
    cases sieves with
    | top | first | forking | panicked => cases moves
    | recv least right => exact .recv least (ih right)
    | filter least passes last right => exact .filter least passes last (ih right)
    | send least passes last right => exact .send least passes last (ih right)

theorem Moves.shown (moves : Moves procs out procs') (sieves : Sieves found bound procs) :
    procs'.flatMap Proc.shown = procs.flatMap Proc.shown ++ out.toList := by
  induction moves generalizing found bound with
  | print p =>
    cases sieves with
    | first => rfl
  | fork p | panic p =>
    cases sieves with
    | forking => rfl
  | keep | drop => exact (List.append_nil _).symm
  | send p i _ _ delivered =>
    rw [List.flatMap_cons, delivered.shown]
    exact (List.append_nil _).symm
  | right proc rest _ _ moves ih =>
    have inner : ∃ found bound, Sieves found bound rest := by
      cases sieves with
      | top | first | forking | panicked => cases moves
      | recv _ right | filter _ _ _ right | send _ _ _ right => exact ⟨_, _, right⟩
    obtain ⟨found, bound, right⟩ := inner
    rw [List.flatMap_cons, List.flatMap_cons, ih right, List.append_assoc]

theorem Sieves.primes (sieves : Sieves (Sieve.primes n) bound procs) :
    ∃ k, Sieve.primes n ++ procs.flatMap Proc.shown = Sieve.primes k := by
  generalize same : Sieve.primes n = found at sieves
  induction sieves generalizing n with
  | top | first => exact ⟨n, by rw [← same]; exact List.append_nil _⟩
  | forking least | panicked least =>
    subst same
    exact ⟨n + 1, least.primes_succ⟩
  | recv least _ ih | filter least _ _ _ ih | send least _ _ _ ih =>
    subst same
    obtain ⟨k, whole⟩ := ih least.primes_succ.symm
    exact ⟨k, by rw [← whole, List.flatMap_cons, List.append_assoc]; rfl⟩

/-- The chain takes the next number or moves by itself, as long as every `fork` finds a free environment. -/
theorem Sieves.goes_on (sieves : Sieves found bound procs) (free : ∀ p, .panicked p ∉ procs) :
    (∀ value, ∃ procs', Deliver value procs procs') ∨ ∃ out procs', Moves procs out procs' := by
  induction sieves with
  | top => exact .inl fun value => ⟨_, .top _⟩
  | first => exact .inr ⟨_, _, .print _ _⟩
  | forking => exact .inr ⟨_, _, .fork _ _⟩
  | recv => exact .inl fun value => ⟨_, .recv _ _⟩
  | @filter _ _ p i =>
    by_cases rest : i % p = 0
    · exact .inr ⟨_, _, .drop _ _ _ rest⟩
    · exact .inr ⟨_, _, .keep _ _ _ rest⟩
  | @send _ _ p i _ _ _ _ _ ih =>
    rcases ih fun p member => free p (List.mem_cons_of_mem _ member) with waits | ⟨out, procs', moves⟩
    · obtain ⟨procs', delivered⟩ := waits i
      exact .inr ⟨_, _, .send _ _ _ _ delivered⟩
    · exact .inr ⟨_, _, .right _ _ _ _ moves⟩
  | @panicked _ _ p => exact absurd (List.mem_singleton_self _) (free p)

structure Chain.Sound (s : Chain) : Prop where
  two : 2 ≤ s.i
  sieves : Sieves [] s.i s.procs

variable {s s' : Chain} {labels : List (Option Nat)}

theorem initial_sound : initial.Sound :=
  ⟨le_refl 2, .top fun _ below passes => absurd passes.1 (not_le.mpr below)⟩

theorem Step.sound (sound : s.Sound) (step : Step s out s') : s'.Sound := by
  cases step with
  | umain procs delivered =>
    exact ⟨Nat.le_succ_of_le sound.two, delivered.sieves sound.sieves ⟨sound.two, by simp⟩⟩
  | primeproc procs _ moves => exact ⟨sound.two, moves.sieves sound.sieves⟩

theorem Step.shown (sound : s.Sound) (step : Step s out s') :
    s'.procs.flatMap Proc.shown = s.procs.flatMap Proc.shown ++ out.toList := by
  cases step with
  | umain procs delivered => exact delivered.shown.trans (List.append_nil _).symm
  | primeproc procs _ moves => exact moves.shown sound.sieves

theorem run_shown (run : Transition.Run Step s labels s') (sound : s.Sound) :
    s'.Sound ∧ s'.procs.flatMap Proc.shown = s.procs.flatMap Proc.shown ++ labels.reduceOption := by
  induction run with
  | nil => exact ⟨sound, (List.append_nil _).symm⟩
  | @cons _ _ _ out _ first _ ih =>
    obtain ⟨sound', whole⟩ := ih (first.sound sound)
    refine ⟨sound', ?_⟩
    rw [whole, first.shown sound, List.append_assoc]
    cases out <;> rfl

/-- In every order of steps the chain prints the primes in order, none left out. It never gets stuck before `i` leaves the
    range of an `int` or a `fork` fails. -/
theorem prints_primes (run : Transition.Run Step initial labels s) :
    labels.reduceOption = Sieve.primes labels.reduceOption.length ∧
      (s.i + 1 < 2^31 → (∀ p, .panicked p ∉ s.procs) → ∃ out s', Step s out s') := by
  obtain ⟨sound, shown⟩ := run_shown run initial_sound
  constructor
  · have empty : Sieve.primes 0 = [] := rfl
    obtain ⟨k, primes⟩ := Sieves.primes (empty.symm ▸ sound.sieves)
    have whole : labels.reduceOption = Sieve.primes k := shown.symm.trans primes
    have length := congrArg List.length whole
    rw [Sieve.primes_length] at length
    rw [length]
    exact whole
  · intro int free
    rcases sound.sieves.goes_on free with waits | ⟨out, procs, moves⟩
    · obtain ⟨procs, delivered⟩ := waits s.i
      exact ⟨_, _, .umain procs delivered int⟩
    · exact ⟨_, _, .primeproc procs out moves⟩

theorem prints_primes_two : ∃ s, Transition.Run Step initial [none, some 2, none, none, none, none, some 3] s ∧
    [2, 3] = Sieve.primes 2 ∧ ∃ out s', Step s out s' := by
  have run : Transition.Run Step initial [none, some 2, none, none, none, none, some 3]
      ⟨4, [.recv 2, .forking 3]⟩ :=
    .cons (.umain _ (.top _) (by decide)) <| .cons (.primeproc _ _ (.print _ _)) <|
    .cons (.primeproc _ _ (.fork _ _)) <| .cons (.umain _ (.recv _ _) (by decide)) <|
    .cons (.primeproc _ _ (.keep _ _ _ (by decide))) <| .cons (.primeproc _ _ (.send _ _ _ _ (.top _))) <|
    .cons (.primeproc _ _ (.right _ _ _ _ (.print _ _))) (.nil _)
  obtain ⟨printed, goes_on⟩ := prints_primes run
  exact ⟨_, run, printed, goes_on (by decide) (by simp)⟩

end Primes

end Jos
