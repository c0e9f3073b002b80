import JosKernel.Env.Boot
import JosKernel.Trap.Entry

namespace Jos

-- kern/cpu.h

/-- A CPU that has not called `sched_yield` yet counts as unused. -/
structure CpuInfo where
  cpuStatus : CpuStatus
  cpuEnv : Option Nat

/-- The whole machine: the state behind the big kernel lock, and the CPUs. -/
structure System (C : Type) where
  kernel : Kernel
  cpus : C → CpuInfo

/-- Since the lock serialises the kernel, an entry into it is one step: from the trap, or the start of
    the CPU, until the CPU runs an environment or halts. User programs may do anything in between. -/
inductive Event (C : Type)
  | start (c : C)
  | trap (c : C) (tf : Trapframe) (cr2 : Word) (key : Int)
  | wake (c : C)
  | store (c : C) (va : Word) (byte : BitVec 8)

namespace System

variable {C : Type} [DecidableEq C]

def setKernel (s : System C) (k : Kernel) : System C := { s with kernel := k }

def leave (s : System C) (c : C) (k : Kernel) (cur : Option Nat) : System C where
  kernel := k
  cpus := fun other =>
    if other = c then { cpuStatus := if cur.isSome then .started else .halted, cpuEnv := cur }
    else s.cpus other

/-- A store by the environment that runs on a CPU, where the MMU allows it. At and above UTOP it never
    does. Where a page of `envs` has come to be mapped, the store changes `mem` only. -/
def UserStore (s : System C) (c : C) (va : Word) (byte : BitVec 8) (after : System C) : Prop :=
  ∃ e root translation, (s.cpus c).cpuEnv = some e ∧ (s.kernel.envs e).envPml4e = some root ∧
    s.kernel.mem.mmuWalk root va = some translation ∧ translation.writable = true ∧
    translation.user = true ∧ va < utop ∧
    after = s.setKernel (s.kernel.setMem (s.kernel.mem.setByte translation.page va byte))

inductive Step (s : System C) : Event C → System C → Prop
  | start (c : C) (k : Kernel) (cur : Option Nat) (unused : (s.cpus c).cpuStatus = .unused)
      (yield : s.kernel.schedYield none = .ok (k, cur)) : Step s (.start c) (s.leave c k cur)
  | trap (c : C) (tf : Trapframe) (cr2 : Word) (key : Int) (e : Nat) (k : Kernel) (cur : Option Nat)
      (running : (s.cpus c).cpuEnv = some e) (user : tf.cs &&& 3 = 3)
      (entry : s.kernel.trap e tf cr2 key = .ok (k, cur)) :
      Step s (.trap c tf cr2 key) (s.leave c k cur)
  | wake (c : C) (k : Kernel) (cur : Option Nat) (halted : (s.cpus c).cpuStatus = .halted)
      (yield : s.kernel.schedYield none = .ok (k, cur)) : Step s (.wake c) (s.leave c k cur)
  | store (c : C) (va : Word) (byte : BitVec 8) (after : System C) (stored : s.UserStore c va byte after) :
      Step s (.store c va byte) after

def idle (k : Kernel) : System C where
  kernel := k
  cpus := fun _ => { cpuStatus := .unused, cpuEnv := none }

def Booted (s : System C) : Prop :=
  ∃ (config : BootConfig) (envs : Nat → Env) (ops : List BootOp) (k : Kernel),
    Transition.Run BootOp.Step (config.kernel envs) ops k ∧ s = idle k

def Elsewhere (s : System C) (c : C) (e : Nat) : Prop := ∃ other, other ≠ c ∧ (s.cpus other).cpuEnv = some e

def next (s : System C) : Event C → Option (System C)
  | .start c =>
    if (s.cpus c).cpuStatus = .unused then
      (s.kernel.schedYield none).toOption.map fun (k, cur) => s.leave c k cur
    else none
  | .trap c tf cr2 key =>
    if tf.cs &&& 3 = 3 then
      (s.cpus c).cpuEnv.bind fun e =>
        (s.kernel.trap e tf cr2 key).toOption.map fun (k, cur) => s.leave c k cur
    else none
  | .wake c =>
    if (s.cpus c).cpuStatus = .halted then
      (s.kernel.schedYield none).toOption.map fun (k, cur) => s.leave c k cur
    else none
  | .store _ _ _ => none

end System

theorem System.step_of_next {C : Type} [DecidableEq C] {s s' : System C} {event : Event C}
    (moved : s.next event = some s') : System.Step s event s' := by
  cases event with
  | start c =>
    simp only [System.next] at moved
    split at moved
    · rename_i unused
      obtain ⟨⟨k, cur⟩, ran, rfl⟩ := Option.map_eq_some_iff.mp moved
      exact .start c k cur unused (Fallible.toOption_eq_some.mp ran)
    · cases moved
  | trap c tf cr2 key =>
    simp only [System.next] at moved
    split at moved
    · rename_i user
      obtain ⟨e, running, moved⟩ := Option.bind_eq_some_iff.mp moved
      obtain ⟨⟨k, cur⟩, ran, rfl⟩ := Option.map_eq_some_iff.mp moved
      exact .trap c tf cr2 key e k cur running user (Fallible.toOption_eq_some.mp ran)
    · cases moved
  | wake c =>
    simp only [System.next] at moved
    split at moved
    · rename_i halted
      obtain ⟨⟨k, cur⟩, ran, rfl⟩ := Option.map_eq_some_iff.mp moved
      exact .wake c k cur halted (Fallible.toOption_eq_some.mp ran)
    · cases moved
  | store c va byte => cases moved

-- The small machine

def smallRun {C : Type} [DecidableEq C] (events : List (Event C)) : Option (System C) :=
  smallBoot.bind fun k => Transition.exec System.next (System.idle k) events

theorem smallRun_run {C : Type} [DecidableEq C] {events : List (Event C)} {s : System C}
    (done : smallRun events = some s) :
    ∃ s₀, s₀.Booted ∧ Transition.Run System.Step s₀ events s := by
  obtain ⟨k, booted, rest⟩ := Option.bind_eq_some_iff.mp done
  refine ⟨System.idle k, ⟨smallMachine, _, _, k, smallBoot_run booted, rfl⟩, ?_⟩
  exact .of_exec (fun _ _ _ moved => System.step_of_next moved) rest

def timerTf : Trapframe := { Trapframe.zero with trapno := irqOffset + irqTimer, cs := gdUt ||| 3 }

def syscallTf (number a1 a2 a3 a4 a5 : Word) : Trapframe :=
  { Trapframe.zero with
    regs := { Trapframe.zero.regs with rax := number, rdx := a1, rcx := a2, rbx := a3, rdi := a4, rsi := a5 }
    trapno := tSyscall
    cs := gdUt ||| 3 }

end Jos
