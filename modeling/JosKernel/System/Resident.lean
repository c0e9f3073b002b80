import JosKernel.Pmap.Detect
import JosKernel.System.Single
import JosKernel.System.Sound

namespace Jos

namespace System

/-- The table of environments is in order whenever the only CPU leaves the kernel, as long as the system calls map
    only what kern/pmap.c gets right. Nothing is written to the pages where the kernel keeps the table then. -/
theorem env_table_invariant {config : BootConfig} {envs : Nat → Env} {ops : List BootOp} {k : Kernel}
    {events : List (Event Unit)} {s : System Unit} (booted : Transition.Run BootOp.Step (config.kernel envs) ops k)
    (run : Transition.Run (Transition.Guarded Careful Step) (idle k) events s) :
    s.TableInvariant ∧ k.mem.Holds config.Reserved s.kernel.mem := by
  have orderly : (idle k : System Unit).Orderly := Loaded.orderly (Booted.loaded ⟨config, envs, ops, k, booted, rfl⟩)
  have guarded : Transition.Run (Transition.Guarded Guard Step) (idle k) events s :=
    run.mono_of_invariant orderly (fun _ _ _ before step => before.step step.2)
      fun _ event _ before step => ⟨⟨before.respectful event, step.1⟩, step.2⟩
  exact ⟨(orderly.run (run.mono fun _ _ _ step => step.2)).tableInvariant, (sound_idle booted).run_holds guarded⟩

theorem env_table_invariant_fork : ∃ s : System Unit, (s.cpus ()).cpuEnv = some 0 ∧ s.kernel.InUse 1 ∧
    s.TableInvariant := by
  have result : (guardedRun [.start (), .trap () (syscallTf 7 0 0 0 0 0) 0 0]).map (fun s : System Unit =>
      ((s.cpus ()).cpuEnv, (s.kernel.envs 1).envStatus)) = some (some 0, .notRunnable) := by
    rw [guardedRun, smallBoot_eq]
    decide +kernel
  obtain ⟨s, done, shown⟩ := Option.map_eq_some_iff.mp result
  obtain ⟨current, status⟩ := Prod.mk.inj shown
  obtain ⟨k, booted, run⟩ := guardedRun_run done
  exact ⟨s, current, ⟨by decide, by simp [status]⟩,
    (env_table_invariant booted (run.mono fun _ _ _ step => ⟨step.1.2, step.2⟩)).1⟩

end System

-- inc/env.h and inc/trap.h: the fields of a `struct Env` in memory

def EnvStatus.ofCode (code : BitVec 32) : EnvStatus :=
  match code.toNat with
  | 0 => .free
  | 1 => .dying
  | 2 => .runnable
  | 3 => .running
  | _ => .notRunnable

theorem EnvStatus.ofCode_code (status : EnvStatus) : ofCode status.code = status := by
  cases status <;> rfl

def Trapframe.words (tf : Trapframe) : List Word :=
  let r := tf.regs
  [r.r15, r.r14, r.r13, r.r12, r.r11, r.r10, r.r9, r.r8, r.rsi, r.rdi, r.rbp, r.rdx, r.rcx, r.rbx, r.rax,
    tf.es.setWidth 64, tf.ds.setWidth 64, tf.trapno, tf.err, tf.rip, tf.cs.setWidth 64, tf.eflags, tf.rsp,
    tf.ss.setWidth 64]

def Trapframe.ofWords (word : Nat → Word) : Trapframe where
  regs := ⟨word 0, word 1, word 2, word 3, word 4, word 5, word 6, word 7, word 8, word 9, word 10, word 11,
    word 12, word 13, word 14⟩
  es := (word 15).setWidth 16
  ds := (word 16).setWidth 16
  trapno := word 17
  err := word 18
  rip := word 19
  cs := (word 20).setWidth 16
  eflags := word 21
  rsp := word 22
  ss := (word 23).setWidth 16

def pointer (base : Word) (size : Nat) : Option Nat → Word
  | none => 0
  | some i => base + BitVec.ofNat 64 (i * size)

def pointee (base : Word) (size : Nat) (p : Word) : Option Nat :=
  if p = 0 then none else some ((p - base).toNat / size)

/-- `env_type`, `env_cpunum` and `elf`, which nothing reads, are 0. -/
def Env.words (envs : Word) (env : Env) : List Word :=
  env.envTf.words ++
    [pointer envs sizeofEnv env.envLink, env.envParentId ++ env.envId, env.envStatus.code ++ (0 : BitVec 32),
      (0 : BitVec 32) ++ env.envRuns, pointer kernBase pgSize env.envPml4e, env.envCr3, env.envPgfaultUpcall,
      if env.envIpcRecving then 1 else 0, env.envIpcDstva, env.envIpcFrom ++ env.envIpcValue,
      env.envIpcPerm.setWidth 64, 0]

def Env.ofWords (envs : Word) (word : Nat → Word) : Env where
  envTf := .ofWords word
  envLink := pointee envs sizeofEnv (word 24)
  envId := (word 25).setWidth 32
  envParentId := (word 25).extractLsb' 32 32
  envStatus := .ofCode ((word 26).extractLsb' 32 32)
  envRuns := (word 27).setWidth 32
  envPml4e := pointee kernBase pgSize (word 28)
  envCr3 := word 29
  envPgfaultUpcall := word 30
  envIpcRecving := (word 31).setWidth 8 ≠ 0
  envIpcDstva := word 32
  envIpcValue := (word 33).setWidth 32
  envIpcFrom := (word 33).extractLsb' 32 32
  envIpcPerm := (word 34).setWidth 32

/-- A kernel whose array `envs` lies in its memory, in the pages from `table` on. -/
structure Resident where
  mem : Memory
  table : Nat
  envFreeList : Option Nat

def tablePages : Nat := nenv * sizeofEnv / pgSize

def envWords : Nat := sizeofEnv / 8

theorem envWords_eq : envWords = 36 := rfl

namespace Resident

def address (r : Resident) : Word := kernBase + BitVec.ofNat 64 (r.table * pgSize)

def field (r : Resident) (e i : Nat) : Slot :=
  (r.table + (e * envWords + i) / 512, (e * envWords + i) % 512)

def word (r : Resident) (e i : Nat) : Word := r.mem.read (r.field e i)

def setMem (r : Resident) (mem : Memory) : Resident := { r with mem := mem }

/-- The state as the kernel sees it. -/
def kernel (r : Resident) : Kernel where
  mem := r.mem
  envs := fun e => .ofWords r.address (r.word e)
  envFreeList := r.envFreeList
  console := []

def store (r : Resident) (e first : Nat) (words : List Word) : Resident :=
  r.setMem (words.zipIdx.foldl (fun m item => m.write (r.field e (first + item.2)) item.1) r.mem)

def setTf (r : Resident) (e : Nat) (tf : Trapframe) : Resident := r.store e 0 tf.words

def setRax (r : Resident) (e : Nat) (value : Word) : Resident := r.store e 14 [value]

def setStatus (r : Resident) (e : Nat) (status : EnvStatus) : Resident :=
  r.store e 26 [status.code ++ (r.word e 26).setWidth 32]

def countRun (r : Resident) (e : Nat) : Resident :=
  r.store e 27 [(r.word e 27).extractLsb' 32 32 ++ ((r.word e 27).setWidth 32 + 1)]

-- kern/syscall.c

def sysPageAlloc (r : Resident) (cur : Nat) (envid : BitVec 32) (va : Word) (perm : BitVec 32) :
    Except Stop (Int × Resident) :=
  match r.kernel.envid2env cur envid true with
  | none => .ok (-eBadEnv, r)
  | some usedEnv =>
    if BadVa va then .ok (-eInval, r)
    else if BadPerm perm then .ok (-eInval, r)
    else do
      let (newPage, mem) ← r.mem.pageAlloc true
      let r := r.setMem mem
      match newPage with
      | none => .ok (-eNoMem, r)
      | some newPage =>
        let root ← r.kernel.pml4eOf usedEnv
        let (inserted, mem) ← r.mem.pageInsert root newPage va perm
        if inserted then .ok (0, r.setMem mem)
        else do
          let mem ← mem.pageFree newPage
          .ok (-eNoMem, r.setMem mem)

def sysPageUnmap (r : Resident) (cur : Nat) (envid : BitVec 32) (va : Word) : Except Stop (Int × Resident) :=
  match r.kernel.envid2env cur envid true with
  | none => .ok (-eBadEnv, r)
  | some usedEnv =>
    if BadVa va then .ok (-eInval, r)
    else do
      let root ← r.kernel.pml4eOf usedEnv
      let mem ← r.mem.pageRemove root va
      .ok (0, r.setMem mem)

-- kern/env.c

/-- `env_run` of the environment that is current already. -/
def envRun (r : Resident) (cur : Nat) : Except Stop Resident :=
  let r := (r.setStatus cur .runnable).setStatus cur .running
  let r := r.countRun cur
  match (r.kernel.envs cur).envPml4e with
  | none => .error .panic
  | some _ => .ok r

-- kern/trap.c

/-- A trap of the current environment that asks for one of the two system calls and returns to it. There
    is no result where the kernel does anything else. -/
def trap (r : Resident) (cur : Nat) (tf : Trapframe) : Option Resident :=
  if (r.kernel.envs cur).envStatus = .dying then none
  else
    let r := r.setTf cur tf
    let done : Option (Except Stop (Int × Resident)) := tf.call.bind fun
      | .pageAlloc envid va perm => some (r.sysPageAlloc cur envid va perm)
      | .pageUnmap envid va => some (r.sysPageUnmap cur envid va)
      | _ => none
    done.bind fun result => result.toOption.bind fun (code, r) =>
      let r := r.setRax cur (BitVec.ofInt 64 code)
      if (r.kernel.envs cur).envStatus = .running then (r.envRun cur).toOption else none

end Resident

-- The kernel of `State.lean` with its environments put into memory

namespace Kernel

def tableWord (k : Kernel) (table i : Nat) : Word :=
  ((k.envs (i / envWords)).words (kernBase + BitVec.ofNat 64 (table * pgSize))).getD (i % envWords) 0

/-- The array lies in the pages from `table` on. -/
def resident (k : Kernel) (table : Nat) : Resident where
  mem := { k.mem with
    word := fun page i =>
      if table ≤ page ∧ page < table + tablePages then k.tableWord table ((page - table) * 512 + i)
      else k.mem.word page i }
  table := table
  envFreeList := k.envFreeList

end Kernel

-- What the kernel sees is what was put there

theorem pointee_pointer {base : Word} {size : Nat} {p : Option Nat} (positive : 0 < size) (nonzero : 0 < base.toNat)
    (fits : ∀ i, p = some i → base.toNat + i * size < 2^64) : pointee base size (pointer base size p) = p := by
  cases p with
  | none => rfl
  | some i =>
    have fits := fits i rfl
    have value : (pointer base size (some i)).toNat = base.toNat + i * size := by
      rw [pointer, BitVec.toNat_add, BitVec.toNat_ofNat]
      omega
    have set : pointer base size (some i) ≠ 0 := by
      intro null
      rw [null] at value
      change 0 = _ at value
      omega
    have offset : (pointer base size (some i) - base).toNat = i * size := by
      rw [BitVec.toNat_sub, value]
      omega
    rw [pointee, if_neg set, offset, Nat.mul_div_cancel _ positive]

theorem Trapframe.ofWords_words (tf : Trapframe) (rest : List Word) :
    ofWords (fun i => (tf.words ++ rest).getD i 0) = tf := by
  have narrow : ∀ segment : BitVec 16, (segment.setWidth 64).setWidth 16 = segment := by
    intro segment
    ext i inside
    simp
  simp [ofWords, words, narrow]

/-- The pointers in the slots fit into a word. -/
structure Env.Placed (envs : Word) (env : Env) : Prop where
  link : ∀ next, env.envLink = some next → envs.toNat + next * sizeofEnv < 2^64
  pml4e : ∀ root, env.envPml4e = some root → kernBase.toNat + root * pgSize < 2^64

section Halves

variable (high low : BitVec 32)

theorem append_low : (high ++ low).setWidth 32 = low := by
  ext i inside
  rw [BitVec.getElem_setWidth, BitVec.getLsbD_append, if_pos inside, BitVec.getElem_eq_testBit_toNat, BitVec.getLsbD]

theorem append_high : (high ++ low).extractLsb' 32 32 = high := by
  ext i inside
  rw [BitVec.getElem_extractLsb', BitVec.getLsbD_append, if_neg (by omega)]
  simp [inside]

theorem widened_low : (low.setWidth 64).setWidth 32 = low := by
  ext i inside
  simp

end Halves

theorem Env.ofWords_words {envs : Word} {env : Env} (nonzero : 0 < envs.toNat) (placed : env.Placed envs) :
    ofWords envs (fun i => (env.words envs).getD i 0) = env := by
  have tf := env.envTf.ofWords_words
  have link := pointee_pointer (by decide) nonzero placed.link
  have pml4e := pointee_pointer (by decide) (by decide) placed.pml4e
  have recving : decide ((if env.envIpcRecving then 1 else 0 : Word).setWidth 8 ≠ 0) = env.envIpcRecving := by
    cases env.envIpcRecving <;> decide
  have status : EnvStatus.ofCode ((env.envStatus.code ++ (0 : BitVec 32)).extractLsb' 32 32) = env.envStatus := by
    rw [append_high, EnvStatus.ofCode_code]
  cases env
  rw [ofWords, Env.mk.injEq]
  exact ⟨tf _, link, append_low _ _, append_high _ _, status, append_low _ _, pml4e, rfl, rfl, recving, rfl,
    append_low _ _, append_high _ _, widened_low _⟩

theorem Env.ofWords_congr {envs : Word} {word word' : Nat → Word} (agree : ∀ i < envWords, word i = word' i) :
    ofWords envs word = ofWords envs word' := by
  rw [envWords_eq] at agree
  simp [ofWords, Trapframe.ofWords, agree]

theorem table_inside {table e i : Nat} (small : e < nenv) (inside : i < envWords) :
    table ≤ table + (e * envWords + i) / 512 ∧ table + (e * envWords + i) / 512 < table + tablePages := by
  rw [envWords_eq] at inside ⊢
  rw [show tablePages = 72 from rfl]
  rw [nenv] at small
  omega

namespace Kernel

variable {k : Kernel} {table e : Nat}

theorem resident_word {i : Nat} (small : e < nenv) (inside : i < envWords) :
    (k.resident table).word e i = ((k.envs e).words (k.resident table).address).getD i 0 := by
  have index : (table + (e * envWords + i) / 512 - table) * 512 + (e * envWords + i) % 512 = e * envWords + i := by omega
  have slot : (e * envWords + i) / envWords = e := by
    rw [envWords_eq] at inside ⊢
    omega
  have offset : (e * envWords + i) % envWords = i := by
    rw [envWords_eq] at inside ⊢
    omega
  change (if table ≤ table + (e * envWords + i) / 512 ∧ table + (e * envWords + i) / 512 < table + tablePages then
    k.tableWord table ((table + (e * envWords + i) / 512 - table) * 512 + (e * envWords + i) % 512) else _) = _
  rw [if_pos (table_inside small inside), index, tableWord, slot, offset]
  rfl

/-- The kernel finds its environments in memory where they have been put. -/
theorem resident_envs (small : e < nenv) (near : table < 2^32)
    (placed : (k.envs e).Placed (k.resident table).address) : (k.resident table).kernel.envs e = k.envs e := by
  have address : 0 < (k.resident table).address.toNat := by
    change 0 < (kernBase + BitVec.ofNat 64 (table * 4096)).toNat
    rw [BitVec.toNat_add, BitVec.toNat_ofNat, show kernBase.toNat = 0x8004000000 from rfl]
    omega
  calc Env.ofWords (k.resident table).address ((k.resident table).word e)
      = Env.ofWords (k.resident table).address
          (fun i => ((k.envs e).words (k.resident table).address).getD i 0) :=
        Env.ofWords_congr fun _ inside => resident_word small inside
    _ = k.envs e := Env.ofWords_words address placed

end Kernel

namespace Resident

variable {r r' : Resident} {mem : Memory} {cur : Nat} {envid perm : BitVec 32} {va : Word}

def Spares (r : Resident) (mem : Memory) : Prop :=
  ∀ page i, r.table ≤ page → page < r.table + tablePages → mem.word page i = r.mem.word page i

theorem kernel_envs (spares : r.Spares mem) {e : Nat} (small : e < nenv) :
    (r.setMem mem).kernel.envs e = r.kernel.envs e := by
  refine Env.ofWords_congr fun i inside => ?_
  obtain ⟨above, below⟩ := @table_inside r.table _ _ small inside
  exact spares _ _ above below

theorem pml4eOf_setMem (spares : r.Spares mem) {e : Nat} (small : e < nenv) :
    (r.setMem mem).kernel.pml4eOf e = r.kernel.pml4eOf e := by
  rw [Kernel.pml4eOf, kernel_envs spares small]
  rfl

/-- `sys_page_alloc` does what it does in a kernel that keeps its environments elsewhere, unless the page
    that it takes lies in the array. -/
theorem sysPageAlloc_apart (inside : cur < nenv)
    (spares : ∀ page mem, r.mem.pageAlloc true = .ok (page, mem) → r.Spares mem) :
    (r.sysPageAlloc cur envid va perm).map (fun done => (done.1, done.2.mem)) =
      (r.kernel.sysPageAlloc cur envid va perm).map fun done => (done.1, done.2.mem) := by
  unfold sysPageAlloc Kernel.sysPageAlloc
  cases found : r.kernel.envid2env cur envid true with
  | none => rfl
  | some e =>
    have small : e < nenv := by
      rcases Kernel.envid2env_used found with rfl | ⟨small, -⟩
      · exact inside
      · exact small
    simp only
    split
    · rfl
    split
    · rfl
    rw [show r.kernel.mem = r.mem from rfl]
    cases allocated : r.mem.pageAlloc true with
    | error stop => rfl
    | ok result =>
      obtain ⟨page, mem⟩ := result
      have root := pml4eOf_setMem (spares page mem allocated) small
      cases page with
      | none => rfl
      | some page =>
        change Except.map _ ((r.setMem mem).kernel.pml4eOf e >>= _) = Except.map _ (r.kernel.pml4eOf e >>= _)
        rw [root]
        cases r.kernel.pml4eOf e with
        | error stop => rfl
        | ok root =>
          change Except.map _ (mem.pageInsert root page va perm >>= _) =
            Except.map _ (mem.pageInsert root page va perm >>= _)
          cases mem.pageInsert root page va perm with
          | error stop => rfl
          | ok result =>
            obtain ⟨inserted, mem⟩ := result
            cases inserted with
            | true => rfl
            | false =>
              change Except.map _ (mem.pageFree page >>= _) = Except.map _ (mem.pageFree page >>= _)
              cases mem.pageFree page <;> rfl

theorem sysPageUnmap_apart : (r.sysPageUnmap cur envid va).map (fun done => (done.1, done.2.mem)) =
    (r.kernel.sysPageUnmap cur envid va).map fun done => (done.1, done.2.mem) := by
  unfold sysPageUnmap Kernel.sysPageUnmap
  cases r.kernel.envid2env cur envid true with
  | none => rfl
  | some e =>
    simp only
    split
    · rfl
    cases r.kernel.pml4eOf e with
    | error stop => rfl
    | ok root =>
      change Except.map _ (r.mem.pageRemove root va >>= _) = Except.map _ (r.mem.pageRemove root va >>= _)
      cases r.mem.pageRemove root va <;> rfl

end Resident

-- A page of the array is given out

namespace Resident

theorem cleared_free {r : Resident} {e : Nat} (status : r.word e 26 = 0) : (r.kernel.envs e).envStatus = .free := by
  change EnvStatus.ofCode ((r.word e 26).extractLsb' 32 32) = .free
  rw [status]
  rfl

/-- A free list ends in one slot. -/
theorem cleared_once {r : Resident} {nodes : List Nat} {e e' : Nat}
    (chain : Linked.Chain (fun e => (r.kernel.envs e).envLink) r.envFreeList nodes) (member : e ∈ nodes)
    (member' : e' ∈ nodes) (link : r.word e 24 = 0) (link' : r.word e' 24 = 0) : e = e' := by
  have ends : ∀ {slot}, r.word slot 24 = 0 → (r.kernel.envs slot).envLink = none := by
    intro slot link
    change pointee r.address sizeofEnv (r.word slot 24) = none
    rw [link]
    rfl
  have last := (Linked.chain_last chain member).mp (ends link)
  rw [(Linked.chain_last chain member').mp (ends link')] at last
  exact (Option.some.inj last).symm

end Resident

/-- A hundred pages of memory. The array lies in the pages 11 to 82. -/
def tableMachine : BootConfig where
  npages := 100
  npagesBasemem := 8
  kernEnd := 82
  bootPml4e := 10
  word := smallMachine.word
  small := by decide
  pml4Extended := by decide
  pml4Allocated := by decide
  pml4Inside := by decide
  pml4Cleared := fun _ => rfl

/-- The first environment maps page 22 at UTEXT, since page 6, which `page_alloc` gives it, has no bit that
    0x16 has not. It unmaps it and allocates a page. -/
def takeTable : List Trapframe :=
  [syscallTf 4 0 utext 0x16007 0 0, syscallTf 6 0 utext 0 0 0, syscallTf 4 0 utext 7 0 0]

theorem takeTable_clears : ∃ (k : Kernel) (s : System Unit) (r : Resident),
    Transition.Run BootOp.Step (tableMachine.kernel fun _ => default) [.create ⟨[], 0⟩] k ∧
    System.Step (System.idle k) (.start ()) s ∧ (s.cpus ()).cpuEnv = some 0 ∧
    (∀ page, 11 ≤ page → page < 11 + tablePages → tableMachine.Reserved page) ∧
    Transition.exec (fun r tf => r.trap 0 tf) (s.kernel.resident 11) takeTable = some r ∧
    ¬ System.TableInvariant (⟨r.kernel, s.cpus⟩ : System Unit) := by
  have result : ((Transition.exec BootOp.next (tableMachine.kernel fun _ => default) [.create ⟨[], 0⟩]).bind fun k =>
      (System.next (System.idle k) (.start ())).bind fun s : System Unit =>
        (Transition.exec (fun r tf => Resident.trap r 0 tf) (s.kernel.resident 11) takeTable).map fun r =>
          ((s.cpus ()).cpuEnv, [r.word 157 24, r.word 157 26, r.word 158 24, r.word 158 26])) =
      some (some 0, [0, 0, 0, 0]) := by
    rw [BootConfig.kernel, Kernel.envInit_eq]
    decide +kernel
  obtain ⟨k, booted, rest⟩ := Option.bind_eq_some_iff.mp result
  obtain ⟨s, started, rest⟩ := Option.bind_eq_some_iff.mp rest
  obtain ⟨r, ran, shown⟩ := Option.map_eq_some_iff.mp rest
  simp only [Prod.mk.injEq, List.cons.injEq, and_true] at shown
  obtain ⟨current, link, status, link', status'⟩ := shown
  have run : Transition.Run BootOp.Step (tableMachine.kernel fun _ => default) [.create ⟨[], 0⟩] k :=
    .of_exec (fun _ _ _ moved => BootOp.step_of_next moved) booted
  refine ⟨k, s, r, run, System.step_of_next started, current, ?_, ran, ?_⟩
  · intro page above below
    rw [show tablePages = 72 from rfl] at below
    change (page = 0 ∨ page = ppn mpentryPaddr) ∨ ¬ (page < 8 ∨ 82 < page)
    omega
  · intro invariant
    obtain ⟨nodes, chain, -, members⟩ := invariant.freeList
    exact absurd (Resident.cleared_once chain ((members 157).mpr ⟨by decide, Resident.cleared_free status⟩)
      ((members 158).mpr ⟨by decide, Resident.cleared_free status'⟩) link link') (by decide)

end Jos
