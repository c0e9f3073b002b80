import JosKernel.Env.Boot
import JosKernel.Lib.Circular
import JosKernel.Syscall.Table

namespace Jos

namespace Kernel

def runnable (k : Kernel) (e : Nat) : Bool := (k.envs e).envStatus = .runnable

def Live (k : Kernel) (e : Nat) : Prop :=
  (k.envs e).envStatus = .runnable ∨ (k.envs e).envStatus = .running ∨ (k.envs e).envStatus = .dying

/-- What a circular search for the environment to run next does. The slot of the current environment
    comes last; with no current environment it is slot 0. -/
structure SearchesCircularly (k : Kernel) (cur : Option Nat) : Prop where
  next : ∀ e, Circular.First nenv k.runnable (cur.getD 0) e → k.schedYield cur = k.envRun cur e
  stays : (∀ e, e < nenv → k.runnable e ≠ true) → ∀ c, cur = some c → (k.envs c).envStatus = .running →
    k.schedYield cur = k.envRun cur c
  halts : (∀ e, e < nenv → k.runnable e ≠ true) → (∀ c, cur = some c → (k.envs c).envStatus ≠ .running) →
    k.schedYield cur = k.schedHalt
  monitor : k.schedYield cur = .error .monitor → ∀ e, e < nenv → ¬ k.Live e

end Kernel

variable {k : Kernel} {cur : Option Nat}

def Kernel.OwnSlot (k : Kernel) (cur : Option Nat) : Prop :=
  ∀ c, cur = some c → envx (k.envs c).envId = c

theorem Kernel.OwnSlot.searchOrder (own : k.OwnSlot cur) :
    k.searchOrder cur = Circular.order nenv (cur.getD 0) := by
  cases cur with
  | none => rfl
  | some c =>
    unfold Kernel.searchOrder
    rw [Option.elim_some, own c rfl]
    rfl

theorem Kernel.OwnSlot.inside (own : k.OwnSlot cur) : cur.getD 0 < nenv := by
  cases cur with
  | none => decide
  | some c =>
    have small := envx_lt (k.envs c).envId
    rwa [own c rfl] at small

theorem Kernel.schedYield_first {e : Nat} (own : k.OwnSlot cur)
    (first : Circular.First nenv k.runnable (cur.getD 0) e) : k.schedYield cur = k.envRun cur e := by
  have found : ((k.searchOrder cur).find? fun e => (k.envs e).envStatus = .runnable) = some e := by
    rw [own.searchOrder]
    exact (Circular.find?_order own.inside).mpr first
  unfold Kernel.schedYield
  rw [found]

theorem Kernel.searchOrder_idle (own : k.OwnSlot cur) (idle : ∀ e, e < nenv → k.runnable e ≠ true) :
    ((k.searchOrder cur).find? fun e => (k.envs e).envStatus = .runnable) = none := by
  rw [own.searchOrder]
  exact (Circular.find?_order_none own.inside).mpr idle

theorem Kernel.envRun_monitor (e : Nat) : k.envRun cur e ≠ .error .monitor := by
  unfold Kernel.envRun
  simp only
  split <;> simp

theorem Kernel.schedHalt_monitor (stuck : k.schedHalt = .error .monitor) {e : Nat} (small : e < nenv) : ¬ k.Live e := by
  unfold Kernel.schedHalt at stuck
  split at stuck
  · cases stuck
  · rename_i dead
    intro live
    exact dead (List.any_eq_true.mpr ⟨e, List.mem_range.mpr small, decide_eq_true live⟩)

/-- `sched_yield` is such a search for every table of environments. -/
theorem sched_yield_searches (own : k.OwnSlot cur) : k.SearchesCircularly cur where
  next := fun e first => Kernel.schedYield_first own first
  stays := by
    rintro idle c rfl running
    unfold Kernel.schedYield
    rw [Kernel.searchOrder_idle own idle]
    exact if_pos running
  halts := by
    intro idle stopped
    unfold Kernel.schedYield
    rw [Kernel.searchOrder_idle own idle]
    cases cur with
    | none => rfl
    | some c => exact if_neg (stopped c rfl)
  monitor := by
    intro stuck
    have halted : k.schedHalt = .error .monitor := by
      unfold Kernel.schedYield at stuck
      split at stuck
      · exact absurd stuck (Kernel.envRun_monitor _)
      · split at stuck
        · split at stuck
          · exact absurd stuck (Kernel.envRun_monitor _)
          · exact stuck
        · exact stuck
    exact fun e small => Kernel.schedHalt_monitor halted small

theorem sched_yield_searches_child : ∃ k : Kernel, (k.envs 0).envStatus = .running ∧
    k.schedYield (some 0) = k.envRun (some 0) 1 := by
  have result : (smallBoot.bind fun booted => (booted.schedYield none).toOption.bind fun yielded =>
      (yielded.1.sysExofork 0).toOption.map fun forked =>
        let k := (forked.2.sysEnvSetStatus 0 0x1001 2).2
        (envx (k.envs 0).envId, (k.envs 0).envStatus, k.runnable 1)) = some (0, .running, true) := by
    rw [smallBoot_eq]
    decide +kernel
  obtain ⟨booted, -, rest⟩ := Option.bind_eq_some_iff.mp result
  obtain ⟨yielded, -, rest⟩ := Option.bind_eq_some_iff.mp rest
  obtain ⟨forked, -, shown⟩ := Option.map_eq_some_iff.mp rest
  simp only [Prod.mk.injEq] at shown
  obtain ⟨slot, running, runnable⟩ := shown
  have own : (forked.2.sysEnvSetStatus 0 0x1001 2).2.OwnSlot (some 0) := by
    rintro c ⟨⟩
    exact slot
  exact ⟨_, running, (sched_yield_searches own).next 1 ⟨by decide, runnable, fun _ _ _ => Nat.zero_le _⟩⟩

end Jos
