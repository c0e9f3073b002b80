import JosKernel.Lib.Transition
import JosKernel.Env.Views
import JosKernel.Sched.Search
import JosKernel.Trap.Effects

namespace Jos

structure Kernel.Seated (k : Kernel) (cur : Option Nat) : Prop where
  ids : ∀ e, k.InUse e → envx (k.envs e).envId = e
  current : ∀ c, cur = some c → k.InUse c

/-- The only CPU as its scheduler sees it. `chosen` lists the slots it has chosen, the last one first. -/
structure Turns where
  kernel : Kernel
  cur : Option Nat
  chosen : List Nat

inductive Turn
  | decide
  | act

/-- `sched_yield` decides, or anything else happens: environments are created, exit, block and wake up.
    When the current one is destroyed, there is none until the next decision. -/
inductive Turns.Step (s : Turns) : Turn → Turns → Prop
  | decide (k : Kernel) (cur : Option Nat) (yield : s.kernel.schedYield s.cur = .ok (k, cur)) :
      Step s .decide ⟨k, cur, cur.toList ++ s.chosen⟩
  | act (k : Kernel) (cur : Option Nat) (seated : k.Seated cur) (kept : cur = s.cur ∨ cur = none) :
      Step s .act ⟨k, cur, s.chosen⟩

/-- A step while environment `e` can run, before and after. -/
def Turns.Passes (e : Nat) (s : Turns) (turn : Turn) (s' : Turns) : Prop :=
  s.kernel.runnable e ∧ s.Step turn s' ∧ s'.kernel.runnable e

/-- With no current environment the search still finds what it would after the slot that ran last. -/
def Turns.Resumes (s : Turns) : Turn → Prop
  | .decide => s.cur = none → ∀ last, s.chosen.head? = some last →
      (Circular.order nenv 0).find? s.kernel.runnable = (Circular.order nenv last).find? s.kernel.runnable
  | .act => True

variable {k k' : Kernel} {cur cur' : Option Nat} {e : Nat}

theorem Kernel.Seated.own (seated : k.Seated cur) : k.OwnSlot cur :=
  fun c current => seated.ids c (seated.current c current)

theorem Kernel.Seated.yield (seated : k.Seated cur) (yields : Yields k cur k' cur') : k'.Seated cur' where
  ids := by
    intro e inUse
    obtain ⟨runs, same⟩ := yields.fields e
    rw [same]
    refine seated.ids e ⟨inUse.1, ?_⟩
    intro free
    by_cases chosen : cur' = some e
    · rcases yields.choice e chosen with runnable | ⟨-, running⟩
      · rw [free] at runnable
        cases runnable
      · rw [free] at running
        cases running
    · refine inUse.2 ?_
      rw [same, Kernel.leftStatus_other k chosen, Kernel.leftStatus_idle (by simp [free])]
      exact free
  current := by
    intro c chosen
    refine ⟨yields.slot (fun e here => (seated.current e here).1) c chosen, ?_⟩
    obtain ⟨runs, same⟩ := yields.fields c
    rw [same, chosen, Kernel.leftStatus_chosen]
    simp

/-- While `e` can run, a decision picks the first environment that can, and that is another one if `e`
    can still run afterwards. -/
theorem Kernel.Seated.decides (seated : k.Seated cur) (inside : e < nenv) (waits : k.runnable e)
    (yield : k.schedYield cur = .ok (k', cur')) (waits' : k'.runnable e) :
    ∃ slot, cur' = some slot ∧ slot ≠ e ∧ Circular.First nenv k.runnable (cur.getD 0) slot := by
  have own := seated.own
  cases found : (Circular.order nenv (cur.getD 0)).find? k.runnable with
  | none => exact absurd waits ((Circular.find?_order_none own.inside).mp found e inside)
  | some slot =>
    have first := (Circular.find?_order own.inside).mp found
    rw [Kernel.schedYield_first own first] at yield
    have runnable : (k.envs slot).envStatus = .runnable := of_decide_eq_true first.holds
    obtain ⟨rfl, exits⟩ := envRun_exits (.inl runnable) yield
    refine ⟨slot, rfl, ?_, first⟩
    rintro rfl
    obtain ⟨runs, same⟩ := exits.fields slot
    have status : (k'.envs slot).envStatus = .runnable := of_decide_eq_true waits'
    rw [same, Kernel.leftStatus_chosen] at status
    cases status

namespace Turns

variable {s s' : Turns} {turn : Turn}

/-- Each choice has come closer to `e` than the ones before it. -/
structure Closing (e : Nat) (s : Turns) : Prop where
  seated : s.kernel.Seated s.cur
  inside : ∀ slot ∈ s.chosen, slot < nenv
  closer : s.chosen.Pairwise fun later earlier => Circular.distance nenv later e < Circular.distance nenv earlier e
  last : ∀ c, s.cur = some c → ∀ slot, s.chosen.head? = some slot → slot = c

theorem Closing.resumes (closing : s.Closing e) (resumes : s.Resumes .decide) {last slot : Nat}
    (before : s.chosen.head? = some last) (first : Circular.First nenv s.kernel.runnable (s.cur.getD 0) slot) :
    Circular.First nenv s.kernel.runnable last slot := by
  have small := closing.inside last (List.mem_of_head? before)
  cases current : s.cur with
  | some c =>
    rw [closing.last c current last before]
    rwa [current] at first
  | none =>
    rw [current] at first
    rw [← Circular.find?_order small, ← resumes current last before]
    exact (Circular.find?_order (by decide)).mpr first

theorem Closing.decide (closing : s.Closing e) (inside : e < nenv) (resumes : s.Resumes .decide)
    (waits : s.kernel.runnable e) (yield : s.kernel.schedYield s.cur = .ok (k', cur')) (waits' : k'.runnable e) :
    Closing e ⟨k', cur', cur'.toList ++ s.chosen⟩ := by
  obtain ⟨slot, rfl, other, first⟩ := closing.seated.decides inside waits yield waits'
  refine ⟨closing.seated.yield (schedYield_yields yield), ?_, ?_, ?_⟩
  · intro slot' member
    rcases List.mem_cons.mp member with rfl | member
    · exact first.inside
    · exact closing.inside slot' member
  · change (slot :: s.chosen).Pairwise _
    refine List.pairwise_cons.mpr ⟨?_, closing.closer⟩
    have closer := closing.closer
    cases before : s.chosen with
    | nil => simp
    | cons last earlier =>
      rw [before] at closer
      have small := closing.inside last (by simp [before])
      have next := closing.resumes resumes (by rw [before, List.head?_cons]) first
      have apart : Circular.distance nenv last slot ≠ Circular.distance nenv last e :=
        fun same => other (Circular.distance_inj small next.inside inside same)
      have passed := Circular.distance_passed small next.inside inside
        (Nat.lt_of_le_of_ne (next.least e inside waits) apart)
      intro slot' member
      rcases List.mem_cons.mp member with rfl | member
      · exact passed
      · exact Nat.lt_trans passed ((List.pairwise_cons.mp closer).1 slot' member)
  · rintro c ⟨⟩ slot' head
    exact (Option.some.inj head).symm

theorem Closing.step (closing : s.Closing e) (inside : e < nenv)
    (step : Transition.Guarded Resumes (Passes e) s turn s') : s'.Closing e := by
  obtain ⟨resumes, waits, step, waits'⟩ := step
  cases step with
  | decide k cur yield => exact closing.decide inside resumes waits yield waits'
  | act k cur seated kept =>
    refine ⟨seated, closing.inside, closing.closer, ?_⟩
    intro c current
    rcases kept with same | idle
    · exact closing.last c (same ▸ current)
    · rw [show cur = some c from current] at idle
      cases idle

theorem Closing.nodup (closing : s.Closing e) : s.chosen.Nodup := by
  refine closing.closer.imp ?_
  rintro later earlier closer rfl
  exact Nat.lt_irrefl _ closer

end Turns

end Jos
