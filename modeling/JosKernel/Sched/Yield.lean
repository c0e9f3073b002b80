import JosKernel.Env.Lifecycle

namespace Jos

/-- How a kernel function ends that may switch to another environment: it returns to its caller, or
    the CPU leaves the kernel, with the environment that it then runs (none if it halts). -/
inductive Flow (α : Type)
  | returned (value : α) (k : Kernel)
  | left (k : Kernel) (cur : Option Nat)

namespace Kernel

def setStatus (k : Kernel) (e : Nat) (status : EnvStatus) : Kernel :=
  k.setEnv e { k.envs e with envStatus := status }

-- kern/env.c and kern/sched.c: leaving the kernel

def suspend (k : Kernel) : Option Nat → Kernel
  | none => k
  | some cur => if (k.envs cur).envStatus = .running then k.setStatus cur .runnable else k

/-- `PADDR` panics for an environment without page tables. -/
def envRun (k : Kernel) (cur : Option Nat) (e : Nat) : Except Stop (Kernel × Option Nat) :=
  let k := k.suspend cur
  let env := k.envs e
  let k := k.setEnv e { env with envStatus := .running, envRuns := env.envRuns + 1 }
  match env.envPml4e with
  | none => .error .panic
  | some _ => .ok (k, some e)

def schedHalt (k : Kernel) : Except Stop (Kernel × Option Nat) :=
  if (List.range nenv).any fun i =>
      (k.envs i).envStatus = .runnable ∨ (k.envs i).envStatus = .running ∨ (k.envs i).envStatus = .dying
  then .ok (k, none)
  else .error .monitor

def searchOrder (k : Kernel) (cur : Option Nat) : List Nat :=
  let first := (cur.elim 0 fun e => envx (k.envs e).envId) + 1
  (List.range (nenv + 1)).map fun i => (first + i) % nenv

def schedYield (k : Kernel) (cur : Option Nat) : Except Stop (Kernel × Option Nat) :=
  match (k.searchOrder cur).find? fun e => (k.envs e).envStatus = .runnable with
  | some e => k.envRun cur e
  | none =>
    match cur with
    | some e => if (k.envs e).envStatus = .running then k.envRun cur e else k.schedHalt
    | none => k.schedHalt

def leave (result : Except Stop (Kernel × Option Nat)) {α : Type} : Except Stop (Flow α) :=
  result.map fun (k, cur) => .left k cur

def envDestroy (k : Kernel) (cur : Option Nat) (e : Nat) : Except Stop (Flow Unit) :=
  if (k.envs e).envStatus = .running ∧ cur ≠ some e then .ok (.returned () (k.setStatus e .dying))
  else do
    let k ← k.envFree cur e
    if cur = some e then leave (k.schedYield none) else .ok (.returned () k)

-- kern/pmap.c: checking what user programs pass to the kernel

def userMemAssert (k : Kernel) (cur e : Nat) (va len : Word) (perm : BitVec 32) : Except Stop (Flow Unit) := do
  let root ← k.pml4eOf e
  let (code, mem) ← k.mem.userMemCheck root va len (perm ||| pteU.setWidth 32)
  if code < 0 then (k.setMem mem).envDestroy (some cur) e else .ok (.returned () (k.setMem mem))

end Kernel

end Jos
