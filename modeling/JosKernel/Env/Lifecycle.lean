import JosKernel.Pmap.Access
import JosKernel.Pmap.Spaces
import JosKernel.Env.Teardown

namespace Jos

-- kern/env.c: making and freeing environments

/-- The id that the environment in slot `e` gets after one with id `last`. -/
def nextEnvId (last : BitVec 32) (e : Nat) : BitVec 32 :=
  let generation := (last + 0x1000) &&& ~~~BitVec.ofNat 32 (nenv - 1)
  (if generation.toInt ≤ 0 then 0x1000 else generation) ||| BitVec.ofNat 32 e

namespace Kernel

def setEnvFreeList (k : Kernel) (head : Option Nat) : Kernel := { k with envFreeList := head }

@[simp] theorem setEnvFreeList_mem (k : Kernel) (head : Option Nat) : (k.setEnvFreeList head).mem = k.mem := rfl
@[simp] theorem setEnvFreeList_envs (k : Kernel) (head : Option Nat) :
    (k.setEnvFreeList head).envs = k.envs := rfl
@[simp] theorem setEnvFreeList_envFreeList (k : Kernel) (head : Option Nat) :
    (k.setEnvFreeList head).envFreeList = head := rfl
@[simp] theorem setEnvFreeList_console (k : Kernel) (head : Option Nat) :
    (k.setEnvFreeList head).console = k.console := rfl

def envInitStep (k : Kernel) (i : Nat) : Kernel :=
  (k.setEnv i { k.envs i with envLink := k.envFreeList, envId := 0, envStatus := .free }).setEnvFreeList (some i)

def envInit (k : Kernel) : Kernel :=
  (List.range nenv).reverse.foldl envInitStep (k.setEnvFreeList none)

/-- What `env_alloc` writes into a slot whose new PML4 is the page `p`. -/
def newEnv (env : Env) (e p : Nat) (parentId : BitVec 32) : Env :=
  { env with
    envPml4e := some p
    envCr3 := page2pa p
    envId := nextEnvId env.envId e
    envParentId := parentId
    envStatus := .runnable
    envRuns := 0
    envTf := { Trapframe.zero with
      ds := gdUd ||| 3
      es := gdUd ||| 3
      ss := gdUd ||| 3
      rsp := uStackTop
      cs := gdUt ||| 3
      eflags := flIf }
    envPgfaultUpcall := 0
    envIpcRecving := false }

def envAlloc (k : Kernel) (cur : Option Nat) (parentId : BitVec 32) :
    Except Stop (Except Int Nat × Kernel) :=
  match k.envFreeList with
  | none => .ok (.error (-eNoFreeEnv), k)
  | some e => do
    let (p, mem) ← k.mem.envSetupVm
    match p with
    | none => .ok (.error (-eNoMem), k.setMem mem)
    | some p =>
      let env := newEnv (k.envs e) e p parentId
      let k' := ((k.setMem mem).setEnv e env).setEnvFreeList (k.envs e).envLink
      .ok (.ok e, k'.say (.newEnv (k'.curId cur) env.envId))

/-- `lcr3` is left out: the MMU always uses the tables of the current environment. -/
def envFree (k : Kernel) (cur : Option Nat) (e : Nat) : Except Stop Kernel := do
  let k := k.say (.freeEnv (k.curId cur) (k.envs e).envId)
  let root ← k.pml4eOf e
  let mem ← k.mem.freeSpace root (k.envs e).envCr3
  let env := { k.envs e with
    envPml4e := none, envCr3 := 0, envStatus := .free, envLink := k.envFreeList }
  .ok (((k.setMem mem).setEnv e env).setEnvFreeList (some e))

end Kernel

-- The table that `env_init` sets up

def Env.unused (env : Env) (link : Option Nat) : Env := { env with envLink := link, envId := 0, envStatus := .free }

theorem envInit_loop (bound : Nat) (k : Kernel) : (List.range bound).reverse.foldl Kernel.envInitStep k =
    { k with
      envs := fun e =>
        if e < bound then (k.envs e).unused (if e + 1 = bound then k.envFreeList else some (e + 1)) else k.envs e
      envFreeList := if bound = 0 then k.envFreeList else some 0 } := by
  induction bound generalizing k with
  | zero => rfl
  | succ bound ih =>
    rw [List.range_succ, List.reverse_append, List.reverse_singleton, List.singleton_append, List.foldl_cons, ih]
    simp only [Kernel.envInitStep, Kernel.setEnvFreeList, Kernel.setEnv, Kernel.mk.injEq, true_and, and_true]
    refine ⟨?_, by split <;> simp_all⟩
    funext e
    by_cases here : e = bound
    · simp [here, Env.unused]
    · by_cases below : e < bound
      · have inside : e < bound + 1 := by omega
        have notLast : e + 1 ≠ bound + 1 := by omega
        rw [if_pos below, if_pos inside, if_neg notLast, if_neg here]
        split
        · rename_i last
          rw [last]
        · rfl
      · have outside : ¬ e < bound + 1 := by omega
        rw [if_neg below, if_neg outside, if_neg here]

theorem Kernel.envInit_eq (k : Kernel) : k.envInit =
    { k with
      envs := fun e => if e < nenv then (k.envs e).unused (if e + 1 = nenv then none else some (e + 1)) else k.envs e
      envFreeList := some 0 } := by
  rw [Kernel.envInit, envInit_loop]
  rfl

-- Loading programs

/-- One page of `region_alloc`. The page is counted here and again by `page_insert`. -/
def Memory.regionAllocPage (m : Memory) (root : Nat) (start : Word) : Except Stop Memory := do
  let (pp, m) ← m.pageAlloc true
  match pp with
  | none => .error .panic
  | some pp =>
    let (inserted, m) ← (m.setRef pp (m.ppRef pp + 1)).pageInsert root pp start
      ((pteU ||| pteW ||| pteP).setWidth 32)
    if inserted then .ok m else .error .panic

def Memory.regionAllocPages (root : Nat) : Nat → Word → Memory → Except Stop Memory
  | 0, _, m => .ok m
  | pages + 1, start, m => do
    let m ← m.regionAllocPage root start
    regionAllocPages root pages (start + BitVec.ofNat 64 pgSize) m

def Memory.regionAlloc (m : Memory) (root : Nat) (va len : Word) : Except Stop Memory :=
  let stop := roundUp (va + len) pgSize
  let start := roundDown va pgSize
  Memory.regionAllocPages root (pagesBetween start stop) start m

structure Proghdr where
  pVa : Word
  pMemsz : Word
  contents : List (BitVec 8)

/-- What `memcpy` and `memset` write. The length for `memset` wraps if the file holds more than there is room for. -/
def Proghdr.stored (ph : Proghdr) : List (BitVec 8) :=
  ph.contents ++ List.replicate (ph.pMemsz - BitVec.ofNat 64 ph.contents.length).toNat 0

theorem Proghdr.stored_length {ph : Proghdr} (filled : ph.contents.length ≤ ph.pMemsz.toNat) :
    ph.stored.length = ph.pMemsz.toNat := by
  have limit := ph.pMemsz.isLt
  rw [stored, List.length_append, List.length_replicate, BitVec.toNat_sub, BitVec.toNat_ofNat]
  omega

structure Program where
  headers : List Proghdr
  entry : Word

def Memory.loadSegment (root : Nat) (m : Memory) (ph : Proghdr) : Except Stop Memory := do
  let m ← m.regionAlloc root ph.pVa ph.pMemsz
  m.storeBytes root ph.pVa ph.stored

def Memory.loadIcode (m : Memory) (root : Nat) (program : Program) : Except Stop Memory := do
  let m ← program.headers.foldlM (Memory.loadSegment root) m
  m.regionAlloc root (uStackTop - BitVec.ofNat 64 pgSize) (BitVec.ofNat 64 pgSize)

def Kernel.envCreate (k : Kernel) (program : Program) : Except Stop Kernel := do
  let (e, k) ← k.envAlloc none 0
  match e with
  | .error _ => .error .panic
  | .ok e =>
    let root ← k.pml4eOf e
    let mem ← k.mem.loadIcode root program
    let env := k.envs e
    .ok ((k.setMem mem).setEnv e { env with envTf := { env.envTf with rip := program.entry }, envParentId := 0 })

-- Ids

theorem envx_or {generation : BitVec 32} {e : Nat} (clear : generation &&& BitVec.ofNat 32 (nenv - 1) = 0)
    (small : e < nenv) : envx (generation ||| BitVec.ofNat 32 e) = e := by
  rw [envx, BitVec.and_or_distrib_right, clear, BitVec.toNat_or, BitVec.toNat_and, BitVec.toNat_ofNat]
  rw [nenv] at small ⊢
  change 0 ||| (e % 2^32 &&& 2^10 - 1) = e
  rw [Nat.zero_or]
  rw [Nat.and_two_pow_sub_one_eq_mod]
  omega

theorem envx_nextEnvId (last : BitVec 32) {e : Nat} (small : e < nenv) : envx (nextEnvId last e) = e := by
  unfold nextEnvId
  simp only
  refine envx_or ?_ small
  split
  · decide
  · rw [BitVec.and_assoc, BitVec.not_and_self]
    exact BitVec.and_zero

end Jos
