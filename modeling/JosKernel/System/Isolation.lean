import JosKernel.System.Freeing

namespace Jos

-- The calls that change an address space

inductive SpaceCall
  | pageAlloc (envid : BitVec 32) (va : Word) (perm : BitVec 32)
  | pageMap (srcenvid : BitVec 32) (srcva : Word) (dstenvid : BitVec 32) (dstva : Word) (perm : BitVec 32)
  | pageUnmap (envid : BitVec 32) (va : Word)
  | ipcTrySend (envid value : BitVec 32) (srcva : Word) (perm : BitVec 32)

namespace SpaceCall

def syscall : SpaceCall → Syscall
  | pageAlloc envid va perm => .pageAlloc envid va perm
  | pageMap srcenvid srcva dstenvid dstva perm => .pageMap srcenvid srcva dstenvid dstva perm
  | pageUnmap envid va => .pageUnmap envid va
  | ipcTrySend envid value srcva perm => .ipcTrySend envid value srcva perm

def run (k : Kernel) (cur : Nat) : SpaceCall → Except Stop (Int × Kernel)
  | pageAlloc envid va perm => k.sysPageAlloc cur envid va perm
  | pageMap srcenvid srcva dstenvid dstva perm => k.sysPageMap cur srcenvid srcva dstenvid dstva perm
  | pageUnmap envid va => k.sysPageUnmap cur envid va
  | ipcTrySend envid value srcva perm => k.sysIpcTrySend cur envid value srcva perm

def target (k : Kernel) (cur : Nat) : SpaceCall → Option Nat
  | pageAlloc envid _ _ | pageUnmap envid _ | pageMap _ _ envid _ _ => k.envid2env cur envid true
  | ipcTrySend envid _ _ _ => k.envid2env cur envid false

end SpaceCall

variable {reserved : Nat → Prop} {k k' : Kernel} {g g' : Layout} {cur : Nat} {mem : Memory} {target : Option Nat}

structure Kernel.Isolates (k : Kernel) (target : Option Nat) (k' : Kernel) : Prop where
  envs : ∀ e root va, k.InUse e → target ≠ some e → (k.envs e).envPml4e = some root → va < utop →
    (k'.envs e).envPml4e = some root ∧ k'.mem.mmuWalk root va = k.mem.mmuWalk root va
  boot : k'.mem.bootPml4e = k.mem.bootPml4e ∧
    ∀ va, va < utop → k'.mem.mmuWalk k.mem.bootPml4e va = k.mem.mmuWalk k.mem.bootPml4e va

theorem Shows.isolates {view : Nat → Word → Word} (shown : Shows reserved k g view mem g') (spaces : Spaces reserved k g)
    (others : ∀ e va, k.InUse e → target ≠ some e → view e va = k.leaf e va) (same : k'.mem = mem)
    (pml4e : ∀ e, (k'.envs e).envPml4e = (k.envs e).envPml4e) : k.Isolates target k' where
  envs e root va inUse other pml4e' below := by
    have role := spaces.role inUse pml4e'
    have role' := shown.spaces.role (k := k.setMem mem) inUse pml4e'
    have leaf := shown.leaf e va inUse below
    rw [others e va inUse other, Kernel.leaf_eq pml4e', Kernel.leaf_eq (k := k.setMem mem) pml4e'] at leaf
    refine ⟨(pml4e e).trans pml4e', ?_⟩
    rw [same, spaces.memory.mmuWalk role (pml4_of_user below), ← leaf]
    exact shown.spaces.memory.mmuWalk role' (pml4_of_user below)
  boot := by
    rw [same]
    refine ⟨shown.holds.bootPml4e, fun va below => ?_⟩
    have role := shown.spaces.memory.tables.boot
    rw [Kernel.setMem_mem, shown.holds.bootPml4e] at role
    rw [spaces.memory.mmuWalk spaces.memory.tables.boot (pml4_of_user below), ← shown.boot va below]
    exact shown.spaces.memory.mmuWalk role (pml4_of_user below)

theorem remap_other {view : Nat → Word → Word} {e target : Nat} {va va' value : Word} (other : e ≠ target) :
    remap view target va value e va' = view e va' := if_neg fun both => other both.1

theorem Kernel.setEnv_pml4e (k : Kernel) {e : Nat} {env : Env} (same : env.envPml4e = (k.envs e).envPml4e) (other : Nat) :
    ((k.setEnv e env).envs other).envPml4e = (k.envs other).envPml4e := by
  rw [Kernel.setEnv_envs]
  split
  · rename_i here
    rw [here]
    exact same
  · rfl

/-- The mapping that a call makes is one for the environment that it is aimed at. -/
theorem SpaceCall.insertion_target {call : SpaceCall} {i : Insertion} (made : call.syscall.insertion k cur = some i) :
    call.target k cur = some i.target := by
  cases call with
  | pageAlloc envid va perm =>
    obtain ⟨found, here, rest⟩ := Option.bind_eq_some_iff.mp made
    obtain ⟨page, -, rest⟩ := Option.bind_eq_some_iff.mp rest
    split at rest
    · cases rest
    · cases rest
      exact here
  | pageMap srcenvid srcva dstenvid dstva perm =>
    obtain ⟨source, -, rest⟩ := Option.bind_eq_some_iff.mp made
    obtain ⟨found, here, rest⟩ := Option.bind_eq_some_iff.mp rest
    obtain ⟨page, -, rest⟩ := Option.bind_eq_some_iff.mp rest
    simp only at rest
    split at rest
    · cases rest
    · cases rest
      exact here
  | pageUnmap envid va => cases made
  | ipcTrySend envid value srcva perm =>
    obtain ⟨found, here, rest⟩ := Option.bind_eq_some_iff.mp made
    obtain ⟨page, -, rest⟩ := Option.bind_eq_some_iff.mp rest
    simp only at rest
    split at rest
    · cases rest
    · cases rest
      exact here

theorem SpaceCall.view_other {call : SpaceCall} {e : Nat} {va : Word} (other : call.target k cur ≠ some e) :
    Insertion.view k (call.syscall.insertion k cur) e va = k.leaf e va := by
  cases made : call.syscall.insertion k cur with
  | none => rfl
  | some i =>
    refine remap_other fun same => other ?_
    rw [SpaceCall.insertion_target made, same]

theorem Spaces.isolates (spaces : Spaces reserved k g) (inUse : k.InUse cur) {call : SpaceCall} {code : Int}
    (careful : call.syscall.Careful k cur) (done : call.run k cur = .ok (code, k')) :
    k.Isolates (call.target k cur) k' := by
  cases call with
  | pageAlloc envid va perm =>
    obtain ⟨mem, g', rfl, ⟨-, shown⟩ | ⟨-, i, made, -, shown, -⟩⟩ := spaces.sysPageAlloc inUse careful done
    · exact shown.isolates spaces (fun _ _ _ _ => rfl) rfl fun _ => rfl
    · rw [← made] at shown
      exact shown.isolates spaces (fun e va _ other => SpaceCall.view_other other) rfl fun _ => rfl
  | pageMap srcenvid srcva dstenvid dstva perm =>
    obtain ⟨mem, g', rfl, ⟨-, shown⟩ | ⟨-, i, made, shown⟩⟩ := spaces.sysPageMap inUse careful done
    · exact shown.isolates spaces (fun _ _ _ _ => rfl) rfl fun _ => rfl
    · rw [← made] at shown
      exact shown.isolates spaces (fun e va _ other => SpaceCall.view_other other) rfl fun _ => rfl
  | pageUnmap envid va =>
    obtain ⟨mem, g', rfl, ⟨-, shown⟩ | ⟨-, e, found, shown⟩⟩ := spaces.sysPageUnmap inUse done
    · exact shown.isolates spaces (fun _ _ _ _ => rfl) rfl fun _ => rfl
    · refine shown.isolates spaces ?_ rfl fun _ => rfl
      intro e' va' _ other
      split
      · refine remap_other fun same => other ?_
        rw [same]
        exact found
      · rfl
  | ipcTrySend envid value srcva perm =>
    obtain ⟨mem, g', ⟨-, rfl, shown⟩ | ⟨-, receiver, given, found, -, rfl, shown⟩⟩ := spaces.sysIpcTrySend inUse careful done
    · exact shown.isolates spaces (fun _ _ _ _ => rfl) rfl fun _ => rfl
    · refine shown.isolates spaces (fun e va _ other => SpaceCall.view_other other) rfl ?_
      intro e
      have given' : (((k.setMem mem).setIpcPerm receiver given).envs e).envPml4e = (k.envs e).envPml4e := by
        refine (k.setMem mem).setEnv_pml4e ?_ e
        exact rfl
      refine (Kernel.setEnv_pml4e _ ?_ e).trans given'
      exact rfl

theorem SpaceCall.target_setTf (k : Kernel) (cur : Nat) (tf : Trapframe) (call : SpaceCall) :
    call.target (k.setTf cur tf) cur = call.target k cur := by
  cases call <;> simp only [SpaceCall.target, Kernel.envid2env_setTf]

theorem Kernel.Isolates.of_setTf {tf : Trapframe} (isolates : (k.setTf cur tf).Isolates target k') :
    k.Isolates target k' := by
  have touches : Touches (fun other => other = cur) k (k.setTf cur tf) := .setTf cur tf
  constructor
  · intro e root va inUse other pml4e below
    refine isolates.envs e root va ((touches.inUse e).mpr inUse) other ?_ below
    rw [(touches.slot e).envPml4e]
    exact pml4e
  · exact isolates.boot

namespace System

variable {C : Type} [DecidableEq C]

/-- In every run that leaves the kernel unconfused, a call that changes one address space changes no other. -/
theorem address_space_isolation (config : BootConfig) (envs : Nat → Env) {ops : List BootOp} {k k' : Kernel}
    {events : List (Event C)} {s : System C} (booted : Transition.Run BootOp.Step (config.kernel envs) ops k)
    (run : Transition.Run (Transition.Guarded Guard Step) (idle k) events s) {c : C} {e : Nat} {tf : Trapframe}
    {call : SpaceCall} {code : Int} (current : (s.cpus c).cpuEnv = some e)
    (careful : call.syscall.Careful (s.kernel.setTf e tf) e) (done : call.run (s.kernel.setTf e tf) e = .ok (code, k')) :
    s.kernel.Isolates (call.target s.kernel e) k' := by
  have sound := (sound_idle booted).run run
  obtain ⟨g, spaces⟩ := sound.spaces
  obtain ⟨inside, status⟩ := sound.exclusive.current c e current
  have inUse : s.kernel.InUse e := ⟨inside, by rcases status with status | status <;> simp [status]⟩
  have touches : Touches (fun other => other = e) s.kernel (s.kernel.setTf e tf) := .setTf e tf
  have isolates := (spaces.touches touches).isolates ((touches.inUse e).mpr inUse) careful done
  rw [SpaceCall.target_setTf] at isolates
  exact isolates.of_setTf

/-- The child can be given a page at 0x800000, and its parent sees what it saw before. -/
theorem address_space_isolation_child : ∃ s : System Bool, ∃ k', (s.cpus false).cpuEnv = some 0 ∧
    SpaceCall.run (s.kernel.setTf 0 .zero) 0 (.pageAlloc 0x1001 0x800000 7) = .ok (0, k') ∧
    s.kernel.Isolates (some 1) k' := by
  have result : (guardedRun forkOnly).bind (fun s =>
      (SpaceCall.run (s.kernel.setTf 0 .zero) 0 (.pageAlloc 0x1001 0x800000 7)).toOption.map fun r =>
      ((s.cpus false).cpuEnv, r.1, SpaceCall.target s.kernel 0 (.pageAlloc 0x1001 0x800000 7),
        decide ((Syscall.pageAlloc 0x1001 0x800000 7).Careful (s.kernel.setTf 0 .zero) 0))) =
      some (some 0, 0, some 1, true) := by
    rw [guardedRun, smallBoot_eq]
    decide +kernel
  obtain ⟨s, done, rest⟩ := Option.bind_eq_some_iff.mp result
  obtain ⟨⟨code, k'⟩, returned, shown⟩ := Option.map_eq_some_iff.mp rest
  obtain ⟨k, booted, run⟩ := guardedRun_run done
  simp only [Prod.mk.injEq, decide_eq_true_eq] at shown
  obtain ⟨current, rfl, target, careful⟩ := shown
  have returned := Fallible.toOption_eq_some.mp returned
  have careful : (SpaceCall.pageAlloc 0x1001 0x800000 7).syscall.Careful (s.kernel.setTf 0 .zero) 0 := careful
  have isolates := address_space_isolation smallMachine (fun _ => default) booted run current careful returned
  rw [target] at isolates
  exact ⟨s, k', current, returned, isolates⟩

-- Addresses whose tables all address spaces share

def mappedBoot : Option Kernel :=
  Transition.exec BootOp.next (smallMachine.kernel fun _ => default) [.map 0x8004000000 0 3, .create ⟨[], 0⟩]

theorem mappedBoot_run {k : Kernel} (done : mappedBoot = some k) :
    Transition.Run BootOp.Step (smallMachine.kernel fun _ => default) [.map 0x8004000000 0 3, .create ⟨[], 0⟩] k :=
  .of_exec (fun _ _ _ moved => BootOp.step_of_next moved) done

/-- A page that is allocated for the child at 0x8000000000 is mapped there for the parent and for the kernel too. -/
theorem alloc_in_shared_tables : ∃ s₀ s : System Bool, ∃ k', s₀.Booted ∧ Transition.Run Step s₀ forkOnly s ∧
    (s.cpus false).cpuEnv = some 0 ∧ 0x8000000000 < utop ∧
    SpaceCall.run (s.kernel.setTf 0 .zero) 0 (.pageAlloc 0x1001 0x8000000000 7) = .ok (0, k') ∧
    SpaceCall.target s.kernel 0 (.pageAlloc 0x1001 0x8000000000 7) = some 1 ∧ ¬ s.kernel.Isolates (some 1) k' := by
  have result : mappedBoot.bind (fun k => (Transition.exec System.next (idle k) forkOnly).bind fun s =>
      (SpaceCall.run (s.kernel.setTf 0 .zero) 0 (.pageAlloc 0x1001 0x8000000000 7)).toOption.map fun r =>
      (((s.cpus false).cpuEnv, r.1, SpaceCall.target s.kernel 0 (.pageAlloc 0x1001 0x8000000000 7)),
        ((s.kernel.envs 0).envStatus, (s.kernel.envs 0).envPml4e),
        (s.kernel.mem.mmuWalk 4 0x8000000000).map Translation.page, (r.2.mem.mmuWalk 4 0x8000000000).map Translation.page)) =
      some ((some 0, 0, some 1), (.running, some 4), none, some 13) := by
    rw [mappedBoot, BootConfig.kernel, Kernel.envInit_eq]
    decide +kernel
  obtain ⟨k, booted, rest⟩ := Option.bind_eq_some_iff.mp result
  obtain ⟨s, ran, rest⟩ := Option.bind_eq_some_iff.mp rest
  obtain ⟨⟨code, k'⟩, returned, shown⟩ := Option.map_eq_some_iff.mp rest
  simp only [Prod.mk.injEq] at shown
  obtain ⟨⟨current, rfl, target⟩, ⟨status, pml4e⟩, before, after⟩ := shown
  refine ⟨idle k, s, k', ⟨smallMachine, _, _, k, mappedBoot_run booted, rfl⟩, ?_, current, by decide,
    Fallible.toOption_eq_some.mp returned, target, ?_⟩
  · exact .of_exec (fun _ _ _ moved => System.step_of_next moved) ran
  · intro isolates
    have same := (isolates.envs 0 4 0x8000000000 ⟨by decide, by simp [status]⟩ (by simp) pml4e (by decide)).2
    rw [same, before] at after
    cases after

end System

end Jos
