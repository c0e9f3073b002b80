import JosKernel.Env.State

namespace Jos

/-- `va >= UTOP || va % PGSIZE != 0`. -/
def BadVa (va : Word) : Prop := utop ≤ va ∨ va % BitVec.ofNat 64 pgSize ≠ 0

instance (va : Word) : Decidable (BadVa va) := inferInstanceAs (Decidable (_ ∨ _))

/-- The test of `perm` in kern/syscall.c. It negates PTE_SYSCALL with `!` where `~` is meant. -/
def BadPerm (perm : BitVec 32) : Prop :=
  perm &&& pteU.setWidth 32 = 0 ∨ perm &&& pteP.setWidth 32 = 0 ∨
    perm &&& logicalNot (pteSyscall.setWidth 32) ≠ 0

instance (perm : BitVec 32) : Decidable (BadPerm perm) := inferInstanceAs (Decidable (_ ∨ _))

/-- The first of the two tests in `sys_page_map` refuses nothing that the second lets pass. -/
theorem badPerm_of_first {perm : BitVec 32}
    (bad : perm &&& (pteU ||| pteP).setWidth 32 = 0 ∨
      perm &&& logicalNot (pteSyscall.setWidth 32) ≠ 0) : BadPerm perm := by
  rcases bad with neither | outside
  · left
    rw [show pteU.setWidth 32 = (pteU ||| pteP).setWidth 32 &&& pteU.setWidth 32 by decide,
      ← BitVec.and_assoc, neither]
    exact BitVec.zero_and
  · exact .inr (.inr outside)

namespace Kernel

def sysPageAlloc (k : Kernel) (cur : Nat) (envid : BitVec 32) (va : Word) (perm : BitVec 32) :
    Except Stop (Int × Kernel) :=
  match k.envid2env cur envid true with
  | none => .ok (-eBadEnv, k)
  | some usedEnv =>
    if BadVa va then .ok (-eInval, k)
    else if BadPerm perm then .ok (-eInval, k)
    else do
      let (newPage, mem) ← k.mem.pageAlloc true
      match newPage with
      | none => .ok (-eNoMem, k.setMem mem)
      | some newPage =>
        let root ← k.pml4eOf usedEnv
        let (inserted, mem) ← mem.pageInsert root newPage va perm
        if inserted then .ok (0, k.setMem mem)
        else do
          let mem ← mem.pageFree newPage
          .ok (-eNoMem, k.setMem mem)

def sysPageMap (k : Kernel) (cur : Nat) (srcenvid : BitVec 32) (srcva : Word) (dstenvid : BitVec 32)
    (dstva : Word) (perm : BitVec 32) : Except Stop (Int × Kernel) :=
  match k.envid2env cur srcenvid true with
  | none => .ok (-eBadEnv, k)
  | some srcEnv =>
    match k.envid2env cur dstenvid true with
    | none => .ok (-eBadEnv, k)
    | some dstEnv =>
      if BadVa srcva then .ok (-eInval, k)
      else if BadVa dstva then .ok (-eInval, k)
      else do
        let srcRoot ← k.pml4eOf srcEnv
        let (found, mem) ← k.mem.pageLookup srcRoot srcva
        match found with
        | none => .ok (-eInval, k.setMem mem)
        | some (foundPage, _) =>
          if perm &&& (pteU ||| pteP).setWidth 32 = 0 ∨
              perm &&& logicalNot (pteSyscall.setWidth 32) ≠ 0 then .ok (-eInval, k.setMem mem)
          -- the comment in the source announces a test of PTE_W; the code repeats the test of `perm`
          else if BadPerm perm then .ok (-eInval, k.setMem mem)
          else do
            let dstRoot ← k.pml4eOf dstEnv
            let (inserted, mem) ← mem.pageInsert dstRoot foundPage dstva perm
            .ok (if inserted then 0 else -eNoMem, k.setMem mem)

def sysPageUnmap (k : Kernel) (cur : Nat) (envid : BitVec 32) (va : Word) :
    Except Stop (Int × Kernel) :=
  match k.envid2env cur envid true with
  | none => .ok (-eBadEnv, k)
  | some usedEnv =>
    if BadVa va then .ok (-eInval, k)
    else do
      let root ← k.pml4eOf usedEnv
      let mem ← k.mem.pageRemove root va
      .ok (0, k.setMem mem)

def deliver (k : Kernel) (cur target : Nat) (value : BitVec 32) : Kernel :=
  let env := k.envs target
  k.setEnv target { env with
    envIpcRecving := false
    envIpcFrom := (k.envs cur).envId
    envIpcValue := value
    envStatus := .runnable
    envTf := env.envTf.setRax 0 }

def setIpcPerm (k : Kernel) (target : Nat) (perm : BitVec 32) : Kernel :=
  k.setEnv target { k.envs target with envIpcPerm := perm }

def sysIpcTrySend (k : Kernel) (cur : Nat) (envid value : BitVec 32) (srcva : Word)
    (perm : BitVec 32) : Except Stop (Int × Kernel) :=
  match k.envid2env cur envid false with
  | none => .ok (-eBadEnv, k)
  | some target =>
    if (k.envs target).envIpcRecving = false then .ok (-eIpcNotRecv, k)
    else if srcva < utop then
      if srcva % BitVec.ofNat 64 pgSize ≠ 0 then .ok (-eInval, k)
      else if BadPerm perm then .ok (-eInval, k)
      else do
        let root ← k.pml4eOf cur
        let (found, mem) ← k.mem.pageLookup root srcva
        match found with
        | none => .ok (-eInval, k.setMem mem)
        | some (page, pte) =>
          if perm &&& pteW.setWidth 32 ≠ 0 ∧ mem.read pte &&& pteW = 0 then .ok (-eInval, k.setMem mem)
          else
            let dstva := (k.envs target).envIpcDstva
            if dstva < utop then
              if dstva % BitVec.ofNat 64 pgSize ≠ 0 then .ok (-eInval, k.setMem mem)
              else do
                let dstRoot ← k.pml4eOf target
                let (inserted, mem) ← mem.pageInsert dstRoot page dstva perm
                if inserted then .ok (0, ((k.setMem mem).setIpcPerm target perm).deliver cur target value)
                else .ok (-eNoMem, k.setMem mem)
            else .ok (0, (k.setMem mem).deliver cur target value)
    else .ok (0, k.deliver cur target value)

end Kernel

end Jos
