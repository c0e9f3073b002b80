import JosKernel.Lib.Transition
import JosKernel.Pmap.Boot
import JosKernel.Env.Lifecycle

namespace Jos

-- Booting

/-- What the boot CPU does between `env_init` and its first `sched_yield`, with the kernel lock held. -/
inductive BootOp
  | map (la pa : Word) (perm : BitVec 32)
  | create (program : Program)

def Program.Fits (program : Program) : Prop :=
  ∀ ph ∈ program.headers, ph.contents.length ≤ ph.pMemsz.toNat ∧
    ph.pVa.toNat + ph.pMemsz.toNat ≤ (uStackTop - BitVec.ofNat 64 pgSize).toNat

namespace BootOp

def run (k : Kernel) : BootOp → Except Stop Kernel
  | map la pa perm => (k.mem.bootMapPage la pa perm).map k.setMem
  | create program => k.envCreate program

def Legal : BootOp → Prop
  | map la _ _ => utop ≤ la ∧ la < uvpt
  | create program => program.Fits

def Step (before : Kernel) (op : BootOp) (after : Kernel) : Prop :=
  op.Legal ∧ op.run before = .ok after

end BootOp

/-- The kernel after `page_init` and `env_init`; `envs` is what memory holds before. -/
def BootConfig.kernel (c : BootConfig) (envs : Nat → Env) : Kernel :=
  Kernel.envInit { mem := c.pageInit, envs := envs, envFreeList := none, console := [] }

-- The small machine

instance (program : Program) : Decidable program.Fits := inferInstanceAs (Decidable (∀ ph ∈ _, _))

instance (op : BootOp) : Decidable op.Legal := by
  cases op
  · exact inferInstanceAs (Decidable (_ ∧ _))
  · exact inferInstanceAs (Decidable (Program.Fits _))

def BootOp.next (k : Kernel) (op : BootOp) : Option Kernel := if op.Legal then (op.run k).toOption else none

theorem BootOp.step_of_next {k k' : Kernel} {op : BootOp} (moved : op.next k = some k') : op.Step k k' := by
  unfold BootOp.next at moved
  split at moved
  · rename_i legal
    exact ⟨legal, Fallible.toOption_eq_some.mp moved⟩
  · cases moved

def smallBoot : Option Kernel :=
  Transition.exec BootOp.next (smallMachine.kernel fun _ => default) [.create ⟨[], 0⟩]

theorem smallBoot_eq : smallBoot = Transition.exec BootOp.next
    { mem := smallMachine.pageInit
      envs := fun e => if e < nenv then (default : Env).unused (if e + 1 = nenv then none else some (e + 1))
        else default
      envFreeList := some 0
      console := [] } [.create ⟨[], 0⟩] := by
  rw [smallBoot, BootConfig.kernel, Kernel.envInit_eq]

theorem smallBoot_run {k : Kernel} (done : smallBoot = some k) :
    Transition.Run BootOp.Step (smallMachine.kernel fun _ => default) [.create ⟨[], 0⟩] k :=
  .of_exec (fun _ _ _ moved => BootOp.step_of_next moved) done

end Jos
