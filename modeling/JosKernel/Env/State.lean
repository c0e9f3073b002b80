import JosKernel.Pmap.Memory

namespace Jos

-- inc/trap.h: the registers that a trap saves

structure PushRegs where
  r15 : Word
  r14 : Word
  r13 : Word
  r12 : Word
  r11 : Word
  r10 : Word
  r9 : Word
  r8 : Word
  rsi : Word
  rdi : Word
  rbp : Word
  rdx : Word
  rcx : Word
  rbx : Word
  rax : Word
  deriving DecidableEq, Repr, Inhabited

structure Trapframe where
  regs : PushRegs
  es : BitVec 16
  ds : BitVec 16
  trapno : Word
  err : Word
  rip : Word
  cs : BitVec 16
  eflags : Word
  rsp : Word
  ss : BitVec 16
  deriving DecidableEq, Repr, Inhabited

def Trapframe.zero : Trapframe where
  regs := ⟨0, 0, 0, 0, 0, 0, 0, 0, 0, 0, 0, 0, 0, 0, 0⟩
  es := 0
  ds := 0
  trapno := 0
  err := 0
  rip := 0
  cs := 0
  eflags := 0
  rsp := 0
  ss := 0

def Trapframe.setRax (tf : Trapframe) (value : Word) : Trapframe :=
  { tf with regs := { tf.regs with rax := value } }

def gdUd : BitVec 16 := 0x20
def gdUt : BitVec 16 := 0x18
def flIf : Word := 0x200

-- inc/env.h

inductive EnvStatus
  | free
  | dying
  | runnable
  | running
  | notRunnable
  deriving DecidableEq, Repr, Inhabited

def EnvStatus.code : EnvStatus → BitVec 32
  | .free => 0
  | .dying => 1
  | .runnable => 2
  | .running => 3
  | .notRunnable => 4

def nenv : Nat := 1024

def envx (envid : BitVec 32) : Nat := (envid &&& BitVec.ofNat 32 (nenv - 1)).toNat

theorem envx_lt (envid : BitVec 32) : envx envid < nenv := by
  rw [envx, BitVec.toNat_and]
  exact Nat.lt_of_le_of_lt Nat.and_le_right (by decide)

structure Env where
  envTf : Trapframe
  envLink : Option Nat
  envId : BitVec 32
  envParentId : BitVec 32
  envStatus : EnvStatus
  envRuns : BitVec 32
  envPml4e : Option Nat
  envCr3 : Word
  envPgfaultUpcall : Word
  envIpcRecving : Bool
  envIpcDstva : Word
  envIpcValue : BitVec 32
  envIpcFrom : BitVec 32
  envIpcPerm : BitVec 32
  deriving Inhabited

-- kern/cpu.h

inductive CpuStatus
  | unused
  | started
  | halted
  deriving DecidableEq, Repr

-- The kernel

/-- The lines that kern/env.c prints when an environment is made and when it is freed, each with the
    id of the current environment (0 if there is none). -/
inductive Notice
  | newEnv (cur envid : BitVec 32)
  | freeEnv (cur envid : BitVec 32)
  deriving DecidableEq, Repr

/-- The state that the big kernel lock protects. A `struct Env *` is an index of `envs`, which is kept apart from
    the memory that it lies in: that goes as long as nothing is written to the pages reserved at boot. -/
structure Kernel where
  mem : Memory
  envs : Nat → Env
  envFreeList : Option Nat
  console : List Notice

namespace Kernel

def setMem (k : Kernel) (mem : Memory) : Kernel := { k with mem := mem }

def setEnv (k : Kernel) (e : Nat) (env : Env) : Kernel :=
  { k with envs := fun other => if other = e then env else k.envs other }

def say (k : Kernel) (notice : Notice) : Kernel := { k with console := k.console ++ [notice] }

section Updates

variable (k : Kernel) (mem : Memory) (e : Nat) (env : Env) (notice : Notice)

@[simp] theorem setMem_mem : (k.setMem mem).mem = mem := rfl
@[simp] theorem setMem_envs : (k.setMem mem).envs = k.envs := rfl
@[simp] theorem setMem_envFreeList : (k.setMem mem).envFreeList = k.envFreeList := rfl
@[simp] theorem setMem_console : (k.setMem mem).console = k.console := rfl

@[simp] theorem setEnv_mem : (k.setEnv e env).mem = k.mem := rfl
@[simp] theorem setEnv_envs (other : Nat) : (k.setEnv e env).envs other =
    if other = e then env else k.envs other := rfl
@[simp] theorem setEnv_envFreeList : (k.setEnv e env).envFreeList = k.envFreeList := rfl
@[simp] theorem setEnv_console : (k.setEnv e env).console = k.console := rfl

@[simp] theorem say_mem : (k.say notice).mem = k.mem := rfl
@[simp] theorem say_envs : (k.say notice).envs = k.envs := rfl
@[simp] theorem say_envFreeList : (k.say notice).envFreeList = k.envFreeList := rfl
@[simp] theorem say_console : (k.say notice).console = k.console ++ [notice] := rfl

end Updates

theorem setMem_self (k : Kernel) : k.setMem k.mem = k := rfl

theorem setEnv_self (k : Kernel) (e : Nat) : k.setEnv e (k.envs e) = k := by
  have same : (k.setEnv e (k.envs e)).envs = k.envs := by
    funext other
    rw [setEnv_envs]
    split
    · rename_i here
      rw [here]
    · rfl
  unfold setEnv at same ⊢
  simp only at same
  simp only [same]

/-- Dereferencing `env_pml4e`. -/
def pml4eOf (k : Kernel) (e : Nat) : Except Stop Nat :=
  match (k.envs e).envPml4e with
  | none => .error .nullDeref
  | some page => .ok page

theorem pml4eOf_ok {k : Kernel} {e root : Nat} :
    k.pml4eOf e = .ok root ↔ (k.envs e).envPml4e = some root := by
  unfold pml4eOf
  split <;> simp_all

/-- `curenv->env_id`, or 0 where there is no current environment. -/
def curId (k : Kernel) (cur : Option Nat) : BitVec 32 := cur.elim 0 fun e => (k.envs e).envId

-- kern/env.c

/-- `none` is -E_BAD_ENV. The callers all run on behalf of a current environment. -/
def envid2env (k : Kernel) (cur : Nat) (envid : BitVec 32) (checkperm : Bool) : Option Nat :=
  if envid = 0 then some cur
  else
    let e := envx envid
    if (k.envs e).envStatus = .free ∨ (k.envs e).envId ≠ envid then none
    else if checkperm ∧ e ≠ cur ∧ (k.envs e).envParentId ≠ (k.envs cur).envId then none
    else some e

theorem envid2env_used {k : Kernel} {cur e : Nat} {envid : BitVec 32} {checkperm : Bool}
    (found : k.envid2env cur envid checkperm = some e) :
    e = cur ∨ e < nenv ∧ (k.envs e).envStatus ≠ .free ∧ (k.envs e).envId = envid := by
  unfold envid2env at found
  simp only at found
  split at found
  · cases found
    exact .inl rfl
  split at found
  · cases found
  · rename_i valid
    split at found
    · cases found
    · cases found
      rw [not_or, not_not] at valid
      exact .inr ⟨envx_lt envid, valid⟩

theorem envid2env_child {k : Kernel} {cur e : Nat} {envid : BitVec 32} (named : envid ≠ 0) (slot : envx envid = e)
    (used : (k.envs e).envStatus ≠ .free) (id : (k.envs e).envId = envid)
    (child : (k.envs e).envParentId = (k.envs cur).envId) (checkperm : Bool) :
    k.envid2env cur envid checkperm = some e := by
  unfold envid2env
  rw [if_neg named]
  simp only [slot]
  rw [if_neg (not_or.mpr ⟨used, not_not.mpr id⟩), if_neg (fun denied => denied.2.2 child)]

end Kernel

end Jos
