import JosKernel.Syscall.Table

namespace Jos

-- inc/trap.h

def tPgflt : Word := 14
def tSyscall : Word := 48
def irqOffset : Word := 32
def irqTimer : Word := 0
def irqSpurious : Word := 7

/-- The fields of a `struct UTrapframe` in order. -/
def utrapframe (faultVa : Word) (tf : Trapframe) (rsp : Word) : List Word :=
  let r := tf.regs
  [faultVa, tf.err, r.r15, r.r14, r.r13, r.r12, r.r11, r.r10, r.r9, r.r8, r.rsi, r.rdi, r.rbp, r.rdx, r.rcx,
    r.rbx, r.rax, tf.rip, tf.eflags, rsp]

def utrapframeSize : Nat := 160

/-- The end of the frame: below what is on the exception stack, with a word left free, or its top. -/
def exceptionTop (rsp : Word) : Word :=
  if rsp ≤ uxStackTop - 1 ∧ uxStackTop - BitVec.ofNat 64 pgSize ≤ rsp then rsp - 8 else uxStackTop

def exceptionRsp (rsp : Word) : Word := exceptionTop rsp - BitVec.ofNat 64 utrapframeSize

def Trapframe.call (tf : Trapframe) : Option Syscall :=
  if tf.trapno = tSyscall then
    some (.decode tf.regs.rax tf.regs.rdx tf.regs.rcx tf.regs.rbx tf.regs.rdi tf.regs.rsi)
  else none

namespace Kernel

def setTf (k : Kernel) (e : Nat) (tf : Trapframe) : Kernel := k.setEnv e { k.envs e with envTf := tf }

section Updates

variable (k : Kernel) (c e : Nat) (tf : Trapframe)

theorem setTf_field {α : Type} (field : Env → α) (other : ∀ env, field { env with envTf := tf } = field env) :
    field ((k.setTf c tf).envs e) = field (k.envs e) := by
  rw [setTf, setEnv_envs]
  split
  · rename_i here
    rw [other, here]
  · rfl

theorem setTf_self : k.setTf c (k.envs c).envTf = k := k.setEnv_self c

@[simp] theorem setTf_mem : (k.setTf c tf).mem = k.mem := rfl
@[simp] theorem setTf_envFreeList : (k.setTf c tf).envFreeList = k.envFreeList := rfl
@[simp] theorem setTf_console : (k.setTf c tf).console = k.console := rfl
@[simp] theorem setTf_envTf : ((k.setTf c tf).envs c).envTf = tf := by simp [setTf]

@[simp] theorem setTf_envId : ((k.setTf c tf).envs e).envId = (k.envs e).envId :=
  k.setTf_field c e tf Env.envId fun _ => rfl

@[simp] theorem setTf_envStatus : ((k.setTf c tf).envs e).envStatus = (k.envs e).envStatus :=
  k.setTf_field c e tf Env.envStatus fun _ => rfl

@[simp] theorem setTf_envPgfaultUpcall : ((k.setTf c tf).envs e).envPgfaultUpcall = (k.envs e).envPgfaultUpcall :=
  k.setTf_field c e tf Env.envPgfaultUpcall fun _ => rfl

@[simp] theorem setTf_envPml4e : ((k.setTf c tf).envs e).envPml4e = (k.envs e).envPml4e :=
  k.setTf_field c e tf Env.envPml4e fun _ => rfl

@[simp] theorem setTf_envIpcRecving : ((k.setTf c tf).envs e).envIpcRecving = (k.envs e).envIpcRecving :=
  k.setTf_field c e tf Env.envIpcRecving fun _ => rfl

@[simp] theorem setTf_envIpcDstva : ((k.setTf c tf).envs e).envIpcDstva = (k.envs e).envIpcDstva :=
  k.setTf_field c e tf Env.envIpcDstva fun _ => rfl

@[simp] theorem setTf_envIpcPerm : ((k.setTf c tf).envs e).envIpcPerm = (k.envs e).envIpcPerm :=
  k.setTf_field c e tf Env.envIpcPerm fun _ => rfl

end Updates

-- kern/trap.c

/-- A page fault of the current environment: its upcall runs on the exception stack, or it is destroyed. -/
def pageFaultHandler (k : Kernel) (cur : Nat) (faultVa : Word) : Except Stop (Flow Unit) :=
  if (k.envs cur).envPgfaultUpcall = 0 then k.envDestroy (some cur) cur
  else do
    let tf := (k.envs cur).envTf
    let newRsp := exceptionRsp tf.rsp
    let k := k.setTf cur { tf with rsp := exceptionTop tf.rsp }
    match ← k.userMemAssert cur cur newRsp 1 (pteW.setWidth 32) with
    | .left k cur => .ok (.left k cur)
    | .returned () k =>
      let root ← k.pml4eOf cur
      let mem ← k.mem.storeBytes root newRsp ((utrapframe faultVa tf tf.rsp).flatMap wordBytes)
      let k := (k.setMem mem).setTf cur { tf with rip := (k.envs cur).envPgfaultUpcall, rsp := newRsp }
      leave (k.envRun (some cur) cur)

/-- `cr2` is the address that a page fault is about, `key` what the console has to read. -/
def trapDispatch (k : Kernel) (cur : Nat) (cr2 : Word) (key : Int) : Except Stop (Flow Unit) :=
  let tf := (k.envs cur).envTf
  if tf.trapno = tPgflt then k.pageFaultHandler cur cr2
  else if tf.trapno = tSyscall then
    let r := tf.regs
    (k.syscall cur key (.decode r.rax r.rdx r.rcx r.rbx r.rdi r.rsi)).map fun
      | .returned value k =>
        .returned () (k.setTf cur ((k.envs cur).envTf.setRax (BitVec.ofInt 64 value)))
      | .left k cur => .left k cur
  else if tf.trapno = irqOffset + irqSpurious then .ok (.returned () k)
  else if tf.trapno = irqOffset + irqTimer then leave (k.schedYield (some cur))
  -- also after a breakpoint, when the monitor returns
  else k.envDestroy (some cur) cur

def trap (k : Kernel) (cur : Nat) (tf : Trapframe) (cr2 : Word) (key : Int) :
    Except Stop (Kernel × Option Nat) :=
  if (k.envs cur).envStatus = .dying then do
    let k ← k.envFree (some cur) cur
    k.schedYield none
  else do
    match ← (k.setTf cur tf).trapDispatch cur cr2 key with
    | .left k cur => .ok (k, cur)
    | .returned () k =>
      if (k.envs cur).envStatus = .running then k.envRun (some cur) cur else k.schedYield (some cur)

end Kernel

end Jos
