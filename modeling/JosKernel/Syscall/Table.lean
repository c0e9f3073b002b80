import JosKernel.Sched.Yield
import JosKernel.Syscall.Pages

namespace Jos

/-- The system calls with their arguments, as `syscall` converts them. -/
inductive Syscall
  | cputs (s len : Word)
  | cgetc
  | getenvid
  | envDestroy (envid : BitVec 32)
  | pageAlloc (envid : BitVec 32) (va : Word) (perm : BitVec 32)
  | pageMap (srcenvid : BitVec 32) (srcva : Word) (dstenvid : BitVec 32) (dstva : Word) (perm : BitVec 32)
  | pageUnmap (envid : BitVec 32) (va : Word)
  | exofork
  | envSetStatus (envid status : BitVec 32)
  | envSetPgfaultUpcall (envid : BitVec 32) (func : Word)
  | yield
  | ipcTrySend (envid value : BitVec 32) (srcva : Word) (perm : BitVec 32)
  | ipcRecv (dstva : Word)
  | unknown
  deriving DecidableEq, Repr

def Syscall.decode (syscallno a1 a2 a3 a4 a5 : Word) : Syscall :=
  match syscallno.toNat with
  | 0 => .cputs a1 a2
  | 1 => .cgetc
  | 2 => .getenvid
  | 3 => .envDestroy (a1.setWidth 32)
  | 4 => .pageAlloc (a1.setWidth 32) a2 (a3.setWidth 32)
  | 5 => .pageMap (a1.setWidth 32) a2 (a3.setWidth 32) a4 (a5.setWidth 32)
  | 6 => .pageUnmap (a1.setWidth 32) a2
  | 7 => .exofork
  | 8 => .envSetStatus (a1.setWidth 32) (a2.setWidth 32)
  | 9 => .envSetPgfaultUpcall (a1.setWidth 32) a2
  | 10 => .yield
  | 11 => .ipcTrySend (a1.setWidth 32) (a2.setWidth 32) a3 (a4.setWidth 32)
  | 12 => .ipcRecv a1
  | _ => .unknown

namespace Kernel

def sysCputs (k : Kernel) (cur : Nat) (s len : Word) : Except Stop (Flow Unit) :=
  k.userMemAssert cur cur s len (pteU.setWidth 32)

def sysEnvDestroy (k : Kernel) (cur : Nat) (envid : BitVec 32) : Except Stop (Flow Int) :=
  match k.envid2env cur envid true with
  | none => .ok (.returned (-eBadEnv) k)
  | some e => (k.envDestroy (some cur) e).map fun
    | .returned () k => .returned 0 k
    | .left k cur => .left k cur

def sysExofork (k : Kernel) (cur : Nat) : Except Stop (Int × Kernel) := do
  let (result, k) ← k.envAlloc (some cur) (k.envs cur).envId
  match result with
  | .error code => .ok (code, k)
  | .ok e =>
    let env := { k.envs e with envStatus := .notRunnable, envTf := (k.envs cur).envTf.setRax 0 }
    .ok (env.envId.toInt, k.setEnv e env)

def sysEnvSetStatus (k : Kernel) (cur : Nat) (envid status : BitVec 32) : Int × Kernel :=
  match k.envid2env cur envid true with
  | none => (-eBadEnv, k)
  | some e =>
    if status = EnvStatus.runnable.code then (0, k.setStatus e .runnable)
    else if status = EnvStatus.notRunnable.code then (0, k.setStatus e .notRunnable)
    else (-eInval, k)

def sysEnvSetPgfaultUpcall (k : Kernel) (cur : Nat) (envid : BitVec 32) (func : Word) : Int × Kernel :=
  match k.envid2env cur envid true with
  | none => (-eBadEnv, k)
  | some e => (0, k.setEnv e { k.envs e with envPgfaultUpcall := func })

def sysIpcRecv (k : Kernel) (cur : Nat) (dstva : Word) : Except Stop (Flow Int) :=
  if dstva < utop ∧ dstva % BitVec.ofNat 64 pgSize ≠ 0 then .ok (.returned (-eInval) k)
  else
    let k := k.setEnv cur { k.envs cur with
      envIpcRecving := true, envStatus := .notRunnable, envIpcDstva := dstva }
    leave (k.schedYield (some cur))

def finish (result : Except Stop (Int × Kernel)) : Except Stop (Flow Int) :=
  result.map fun (code, k) => .returned code k

theorem finish_ok {result : Except Stop (Int × Kernel)} {flow : Flow Int} :
    finish result = .ok flow ↔ ∃ code k, result = .ok (code, k) ∧ flow = .returned code k := by
  rw [finish, Fallible.map_ok]
  constructor
  · rintro ⟨⟨code, k⟩, returned, rfl⟩
    exact ⟨code, k, returned, rfl⟩
  · rintro ⟨code, k, returned, rfl⟩
    exact ⟨(code, k), returned, rfl⟩

def syscall (k : Kernel) (cur : Nat) (key : Int) : Syscall → Except Stop (Flow Int)
  | .cputs s len => (k.sysCputs cur s len).map fun
    | .returned () k => .returned 0 k
    | .left k cur => .left k cur
  | .cgetc => .ok (.returned key k)
  | .getenvid => .ok (.returned (k.envs cur).envId.toInt k)
  | .envDestroy envid => k.sysEnvDestroy cur envid
  | .pageAlloc envid va perm => finish (k.sysPageAlloc cur envid va perm)
  | .pageMap srcenvid srcva dstenvid dstva perm =>
    finish (k.sysPageMap cur srcenvid srcva dstenvid dstva perm)
  | .pageUnmap envid va => finish (k.sysPageUnmap cur envid va)
  | .exofork => finish (k.sysExofork cur)
  | .envSetStatus envid status => finish (.ok (k.sysEnvSetStatus cur envid status))
  | .envSetPgfaultUpcall envid func => finish (.ok (k.sysEnvSetPgfaultUpcall cur envid func))
  | .yield => leave (k.schedYield (some cur))
  | .ipcTrySend envid value srcva perm => finish (k.sysIpcTrySend cur envid value srcva perm)
  | .ipcRecv dstva => k.sysIpcRecv cur dstva
  | .unknown => .ok (.returned (-eNoSys) k)

end Kernel

end Jos
