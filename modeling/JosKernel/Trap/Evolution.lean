import JosKernel.Env.Evolution
import JosKernel.Sched.Calls
import JosKernel.Syscall.Insertions

namespace Jos

def Flow.kernel {α : Type} : Flow α → Kernel
  | .returned _ k | .left k _ => k

def Kernel.Rooted (k : Kernel) (e : Nat) : Prop :=
  ∀ root, (k.envs e).envPml4e = some root → Present (k.mem.word root 0)

instance (k : Kernel) (e : Nat) : Decidable (k.Rooted e) :=
  inferInstanceAs (Decidable (∀ root ∈ (k.envs e).envPml4e, Present (k.mem.word root 0)))

/-- The environment that a system call may free. `env_destroy` leaves one that runs on another CPU. -/
def Syscall.destroys (k : Kernel) (cur : Nat) : Syscall → Option Nat
  | .envDestroy envid =>
    (k.envid2env cur envid true).filter fun e => (k.envs e).envStatus ≠ .running ∨ e = cur
  | .cputs _ _ => some cur
  | _ => none

def Trapframe.ends (k : Kernel) (cur : Nat) (tf : Trapframe) : Option Nat :=
  match tf.call with
  | some call => call.destroys k cur
  | none =>
    if tf.trapno = irqOffset + irqSpurious ∨ tf.trapno = irqOffset + irqTimer then none else some cur

def Trapframe.destroys (k : Kernel) (cur : Nat) (tf : Trapframe) : Option Nat :=
  if (k.envs cur).envStatus = .dying then some cur else tf.ends (k.setTf cur tf) cur

def Syscall.Maps (k : Kernel) (cur : Nat) (call : Syscall) (e : Nat) (va entry : Word) : Prop :=
  ∃ i, call.insertion k cur = some i ∧ i.target = e ∧ SamePage va i.va ∧ entry = i.entry

variable {reserved : Nat → Prop} {k k' : Kernel} {g : Layout} {c : Nat} {cur cur' : Option Nat} {maps : Nat → Word → Word → Prop}

theorem Kernel.Rooted.of_touches {slots : Nat → Prop} {e : Nat} (touches : Touches slots k k') :
    k'.Rooted e ↔ k.Rooted e := by
  unfold Kernel.Rooted
  rw [touches.mem, (touches.slot e).envPml4e]

namespace Spaces

theorem evolves_free (spaces : Spaces reserved k g) {e : Nat} (inUse : k.InUse e)
    (rooted : k.Rooted e) (freed : k.envFree cur e = .ok k') : Evolves reserved maps k k' := by
  obtain ⟨⟨_, g', -, spaces', -, -⟩, users, leaf, holds⟩ := spaces.envFree inUse rooted freed
  exact ⟨⟨g', spaces'⟩, fun other va inUse' below =>
    .inr (.inl ⟨((users other).mp inUse').1, leaf other va inUse' below⟩), holds⟩

theorem evolves_yield (spaces : Spaces reserved k g) (used : ∀ e, cur = some e → (k.envs e).envStatus ≠ .free)
    (yielded : k.schedYield cur = .ok (k', cur')) : Evolves reserved maps k k' :=
  spaces.evolves_touches (schedYield_leaves used yielded).touches

theorem evolves_run (spaces : Spaces reserved k g) (inUse : k.InUse c) (ran : k.envRun (some c) c = .ok (k', cur')) :
    Evolves reserved maps k k' := by
  obtain ⟨rfl, leaves⟩ := envRun_leaves inUse.2 (.inr rfl) ran
  exact spaces.evolves_touches leaves.touches

theorem evolves_leave {α : Type} {flow : Flow α} (spaces : Spaces reserved k g) (inUse : k.InUse c)
    (left : Kernel.leave (k.schedYield (some c)) = .ok flow) : Evolves reserved maps k flow.kernel := by
  obtain ⟨k', cur', yielded, rfl⟩ := leave_ok.mp left
  refine spaces.evolves_yield ?_ yielded
  rintro e ⟨⟩
  exact inUse.2

/-- The environment is freed and nothing runs on this CPU, so that another one is chosen. -/
theorem evolves_freeYield (spaces : Spaces reserved k g) {e : Nat} (inUse : k.InUse e) (rooted : k.Rooted e)
    {k₁ : Kernel} (freed : k.envFree cur e = .ok k₁) (yielded : k₁.schedYield none = .ok (k', cur')) :
    Evolves reserved maps k k' := by
  have leaves := schedYield_leaves (by simp) yielded
  have first : Evolves reserved maps k k₁ := spaces.evolves_free inUse rooted freed
  obtain ⟨g₁, spaces₁⟩ := first.spaces
  exact first.trans (spaces₁.evolves_touches leaves.touches)

theorem envDestroy (spaces : Spaces reserved k g) {e : Nat} (flow : Flow Unit) (inUse : k.InUse e)
    (rooted : ((k.envs e).envStatus = .running → e = c) → k.Rooted e)
    (destroyed : k.envDestroy (some c) e = .ok flow) :
    Evolves reserved maps k flow.kernel := by
  unfold Kernel.envDestroy at destroyed
  split at destroyed
  · cases destroyed
    exact spaces.evolves_touches (.setStatus inUse.2 (by simp))
  · rename_i here
    have rooted : k.Rooted e := by
      refine rooted fun running => ?_
      by_contra different
      exact here ⟨running, fun same => different (Option.some.inj same).symm⟩
    obtain ⟨k₁, freed, rest⟩ := Fallible.bind_ok.mp destroyed
    split at rest
    · obtain ⟨k', cur', yielded, rfl⟩ := leave_ok.mp rest
      exact spaces.evolves_freeYield inUse rooted freed yielded
    · cases rest
      exact spaces.evolves_free inUse rooted freed

theorem userMemAssert (spaces : Spaces reserved k g) {va len : Word} {perm : BitVec 32} (flow : Flow Unit)
    (inUse : k.InUse c) (rooted : k.Rooted c)
    (done : k.userMemAssert c c va len perm = .ok flow) : Evolves reserved maps k flow.kernel := by
  obtain ⟨root, pml4e, rest⟩ := Fallible.bind_ok.mp done
  have pml4e := Kernel.pml4eOf_ok.mp pml4e
  obtain ⟨⟨code, mem⟩, checked, rest⟩ := Fallible.bind_ok.mp rest
  obtain ⟨code', addr, result⟩ :=
    spaces.memory.userMemCheck (spaces.role inUse pml4e) va len (perm ||| pteU.setWidth 32)
  rw [result] at checked
  cases checked
  have rewrites : Rewrites k.mem g { k.mem with userMemCheckAddr := addr } := .userMemCheckAddr addr
  have first : Evolves reserved maps k (k.setMem _) := spaces.evolves_rewrites rewrites
  simp only at rest
  split at rest
  · exact first.trans ((spaces.rewrites rewrites).envDestroy _ inUse (fun _ => rooted) rest)
  · cases rest
    exact first

-- System calls

theorem sysEnvDestroy (spaces : Spaces reserved k g) {envid : BitVec 32} {flow : Flow Int} (inUse : k.InUse c)
    (rooted : ∀ e, (Syscall.envDestroy envid).destroys k c = some e → k.Rooted e)
    (done : k.sysEnvDestroy c envid = .ok flow) :
    Evolves reserved maps k flow.kernel := by
  unfold Kernel.sysEnvDestroy at done
  split at done
  · cases done
    exact .refl maps spaces
  · rename_i e found
    obtain ⟨inner, destroyed, rfl⟩ := Fallible.map_ok.mp done
    have rooted' : ((k.envs e).envStatus = .running → e = c) → k.Rooted e := by
      intro own
      apply rooted
      rw [Syscall.destroys, found, Option.filter_some, if_pos]
      by_cases running : (k.envs e).envStatus = .running
      · simp [own running]
      · simp [running]
    cases inner with
    | returned value k' => exact spaces.envDestroy (.returned value k') (inUse.target found) rooted' destroyed
    | left k' cur' => exact spaces.envDestroy (.left k' cur') (inUse.target found) rooted' destroyed

theorem sysExofork (spaces : Spaces reserved k g) (table : EnvTable k) {code : Int}
    (done : k.sysExofork c = .ok (code, k')) : Evolves reserved maps k k' := by
  obtain ⟨⟨result, k₁⟩, allocated, rest⟩ := Fallible.bind_ok.mp done
  obtain ⟨⟨g₁, spaces₁⟩, users, leaf, new, holds⟩ := spaces.envAlloc (fun _ => table.head_free) allocated
  have made : Evolves reserved maps k k₁ := by
    refine ⟨⟨g₁, spaces₁⟩, ?_, holds⟩
    intro e va inUse below
    rcases (users e).mp inUse with old | here
    · exact .inr (.inl ⟨old, leaf e va old below⟩)
    · exact .inl ((new e here).2 va below)
  cases result with
  | error code =>
    cases rest
    exact made
  | ok e =>
    cases rest
    have inUse : k₁.InUse e := (users e).mpr (.inr rfl)
    exact made.trans (spaces₁.evolves_touches (.setEnv ⟨rfl, rfl, rfl, rfl, iff_of_false (by simp) inUse.2⟩))

theorem sysEnvSetStatus (spaces : Spaces reserved k g) {envid status : BitVec 32} (inUse : k.InUse c) :
    Evolves reserved maps k (k.sysEnvSetStatus c envid status).2 := by
  unfold Kernel.sysEnvSetStatus
  split
  · exact .refl maps spaces
  · rename_i e found
    have used := (inUse.target found).2
    split
    · exact spaces.evolves_touches (.setStatus used (by simp))
    split
    · exact spaces.evolves_touches (.setStatus used (by simp))
    · exact .refl maps spaces

theorem sysEnvSetPgfaultUpcall (spaces : Spaces reserved k g) {envid : BitVec 32} {func : Word} :
    Evolves reserved maps k (k.sysEnvSetPgfaultUpcall c envid func).2 := by
  unfold Kernel.sysEnvSetPgfaultUpcall
  split
  · exact .refl maps spaces
  · exact spaces.evolves_touches (.setEnv ⟨rfl, rfl, rfl, rfl, Iff.rfl⟩)

theorem sysIpcRecv (spaces : Spaces reserved k g) {dstva : Word} {flow : Flow Int} (inUse : k.InUse c)
    (done : k.sysIpcRecv c dstva = .ok flow) : Evolves reserved maps k flow.kernel := by
  unfold Kernel.sysIpcRecv at done
  split at done
  · cases done
    exact .refl maps spaces
  · have touches : Touches (fun other => other = c) k (k.setEnv c { k.envs c with
        envIpcRecving := true, envStatus := .notRunnable, envIpcDstva := dstva }) :=
      .setEnv ⟨rfl, rfl, rfl, rfl, iff_of_false (by simp) inUse.2⟩
    have first : Evolves reserved maps k _ := spaces.evolves_touches touches
    exact first.trans ((spaces.touches touches).evolves_leave ((touches.inUse c).mpr inUse) done)

/-- The view after an insertion differs from the one before where the call maps something. -/
theorem evolves_insertion {call : Syscall} {i : Insertion} {mem : Memory} {g' : Layout}
    (pending : call.insertion k c = some i) (shown : Shows reserved k g (Insertion.view k (some i)) mem g') :
    Evolves reserved (call.Maps k c) k (k.setMem mem) := by
  refine evolves_shows shown ?_
  intro e va inUse below
  simp only [Insertion.view, remap]
  split
  · rename_i here
    exact .inr (.inr ⟨i, pending, here.1.symm, here.2, rfl⟩)
  · exact .inr (.inl rfl)

theorem deliver_touches (k : Kernel) {target : Nat} (inUse : k.InUse target) (given : BitVec 32) (cur : Nat)
    (value : BitVec 32) :
    Touches (fun other => other = target) k ((k.setIpcPerm target given).deliver cur target value) := by
  have first : Touches (fun other => other = target) k (k.setIpcPerm target given) :=
    .setEnv ⟨rfl, rfl, rfl, rfl, Iff.rfl⟩
  exact first.trans (.setEnv ⟨rfl, rfl, rfl, rfl,
    iff_of_false (by simp) (mt (first.slot target).free.mp inUse.2)⟩)

theorem syscall (spaces : Spaces reserved k g) (table : EnvTable k) {key : Int} {call : Syscall} (flow : Flow Int)
    (inUse : k.InUse c) (careful : call.Careful k c) (rooted : ∀ e, call.destroys k c = some e → k.Rooted e)
    (done : k.syscall c key call = .ok flow) : Evolves reserved (call.Maps k c) k flow.kernel := by
  cases call with
  | cputs s len =>
    obtain ⟨inner, asserted, rfl⟩ := Fallible.map_ok.mp done
    cases inner with
    | returned value k' => exact spaces.userMemAssert (.returned value k') inUse (rooted c rfl) asserted
    | left k' cur' => exact spaces.userMemAssert (.left k' cur') inUse (rooted c rfl) asserted
  | cgetc | getenvid | unknown =>
    cases done
    exact .refl _ spaces
  | envDestroy envid => exact spaces.sysEnvDestroy inUse rooted done
  | pageAlloc envid va perm =>
    obtain ⟨code, k', returned, rfl⟩ := Kernel.finish_ok.mp done
    obtain ⟨mem, g', rfl, ⟨-, shown⟩ | ⟨-, i, pending, -, shown, -⟩⟩ := spaces.sysPageAlloc inUse careful returned
    · exact evolves_same shown
    · exact evolves_insertion pending shown
  | pageMap srcenvid srcva dstenvid dstva perm =>
    obtain ⟨code, k', returned, rfl⟩ := Kernel.finish_ok.mp done
    obtain ⟨mem, g', rfl, ⟨-, shown⟩ | ⟨-, i, pending, shown⟩⟩ := spaces.sysPageMap inUse careful returned
    · exact evolves_same shown
    · exact evolves_insertion pending shown
  | pageUnmap envid va =>
    obtain ⟨code, k', returned, rfl⟩ := Kernel.finish_ok.mp done
    obtain ⟨mem, g', rfl, ⟨-, shown⟩ | ⟨-, e, -, shown⟩⟩ := spaces.sysPageUnmap inUse returned
    · exact evolves_same shown
    · refine evolves_shows shown ?_
      intro other va' _ _
      split
      · unfold remap
        split
        · exact .inl (by decide)
        · exact .inr (.inl rfl)
      · exact .inr (.inl rfl)
  | exofork =>
    obtain ⟨code, k', returned, rfl⟩ := Kernel.finish_ok.mp done
    exact spaces.sysExofork table returned
  | envSetStatus envid status =>
    obtain ⟨code, k', returned, rfl⟩ := Kernel.finish_ok.mp done
    have after : (k.sysEnvSetStatus c envid status).2 = k' := congrArg Prod.snd (Except.ok.inj returned)
    exact after ▸ spaces.sysEnvSetStatus inUse
  | envSetPgfaultUpcall envid func =>
    obtain ⟨code, k', returned, rfl⟩ := Kernel.finish_ok.mp done
    have after : (k.sysEnvSetPgfaultUpcall c envid func).2 = k' := congrArg Prod.snd (Except.ok.inj returned)
    exact after ▸ spaces.sysEnvSetPgfaultUpcall
  | yield => exact spaces.evolves_leave inUse done
  | ipcTrySend envid value srcva perm =>
    obtain ⟨code, k', returned, rfl⟩ := Kernel.finish_ok.mp done
    obtain ⟨mem, g', ⟨-, rfl, shown⟩ | ⟨-, target, given, found, -, rfl, shown⟩⟩ :=
      spaces.sysIpcTrySend inUse careful returned
    · exact evolves_same shown
    · have mapped : Evolves reserved ((Syscall.ipcTrySend envid value srcva perm).Maps k c) k (k.setMem mem) := by
        cases pending : (Syscall.ipcTrySend envid value srcva perm).insertion k c with
        | none =>
          rw [pending] at shown
          exact evolves_same shown
        | some i =>
          rw [pending] at shown
          exact evolves_insertion pending shown
      exact mapped.trans (shown.spaces.evolves_touches
        (deliver_touches (k.setMem mem) (inUse.target found) given c value))
  | ipcRecv dstva => exact spaces.sysIpcRecv inUse done

-- Traps

theorem exceptionRsp_room (rsp : Word) : (exceptionRsp rsp).toNat + utrapframeSize ≤ utop.toNat := by
  have limit := utop_toNat
  have top : uxStackTop.toNat = 0xef800000 := rfl
  unfold exceptionRsp exceptionTop
  split
  · rename_i nested
    obtain ⟨upper, lower⟩ := nested
    rw [BitVec.le_def] at upper lower
    change rsp.toNat ≤ 0xef800000 - 1 at upper
    change 0xef800000 - 4096 ≤ rsp.toNat at lower
    have value : (rsp - 8 - BitVec.ofNat 64 utrapframeSize).toNat = rsp.toNat - 168 := by
      rw [BitVec.toNat_sub, BitVec.toNat_sub]
      change (2^64 - 160 + (2^64 - 8 + rsp.toNat) % 2^64) % 2^64 = _
      omega
    rw [value, utrapframeSize]
    omega
  · change 0xef800000 - 160 + 160 ≤ _
    omega

theorem utrapframe_bytes (faultVa : Word) (tf : Trapframe) (rsp : Word) :
    ((utrapframe faultVa tf rsp).flatMap wordBytes).length = utrapframeSize := by
  simp [utrapframe, wordBytes, utrapframeSize]

theorem userMemAssert_returned (spaces : Spaces reserved k g) (inUse : k.InUse c) {va len : Word} {perm : BitVec 32}
    (done : k.userMemAssert c c va len perm = .ok (.returned () k')) :
    ∃ mem, k' = k.setMem mem ∧ Rewrites k.mem g mem := by
  obtain ⟨root, pml4e, rest⟩ := Fallible.bind_ok.mp done
  have pml4e := Kernel.pml4eOf_ok.mp pml4e
  obtain ⟨⟨code, mem⟩, checked, rest⟩ := Fallible.bind_ok.mp rest
  obtain ⟨code', addr, result⟩ :=
    spaces.memory.userMemCheck (spaces.role inUse pml4e) va len (perm ||| pteU.setWidth 32)
  rw [result] at checked
  cases checked
  simp only at rest
  split at rest
  · unfold Kernel.envDestroy at rest
    rw [if_neg (by simp)] at rest
    obtain ⟨k₁, -, rest⟩ := Fallible.bind_ok.mp rest
    rw [if_pos rfl] at rest
    obtain ⟨_, _, -, left⟩ := leave_ok.mp rest
    cases left
  · cases rest
    exact ⟨_, rfl, .userMemCheckAddr addr⟩

theorem pageFaultHandler (spaces : Spaces reserved k g) {faultVa : Word} {flow : Flow Unit} (inUse : k.InUse c)
    (rooted : k.Rooted c) (done : k.pageFaultHandler c faultVa = .ok flow) :
    Evolves reserved maps k flow.kernel := by
  unfold Kernel.pageFaultHandler at done
  split at done
  · exact spaces.envDestroy _ inUse (fun _ => rooted) done
  · obtain ⟨inner, asserted, rest⟩ := Fallible.bind_ok.mp done
    have saved : Touches (fun other => other = c) k
      (k.setTf c { (k.envs c).envTf with rsp := exceptionTop (k.envs c).envTf.rsp }) := .setTf c _
    have first : Evolves reserved maps k _ := spaces.evolves_touches saved
    have rooted : (k.setTf c { (k.envs c).envTf with rsp := exceptionTop (k.envs c).envTf.rsp }).Rooted c := by
      rwa [Kernel.Rooted, Kernel.setTf_envPml4e]
    replace spaces := spaces.touches saved
    replace inUse := (saved.inUse c).mpr inUse
    refine first.trans ?_
    generalize k.setTf c { (k.envs c).envTf with rsp := exceptionTop (k.envs c).envTf.rsp } = k at *
    cases inner with
    | left k₁ cur₁ =>
      cases rest
      exact spaces.userMemAssert (.left k₁ cur₁) inUse rooted asserted
    | returned value k₁ =>
      obtain ⟨mem₁, rfl, rewrites₁⟩ := spaces.userMemAssert_returned inUse asserted
      obtain ⟨root, pml4e, rest⟩ := Fallible.bind_ok.mp rest
      obtain ⟨mem₂, stored, rest⟩ := Fallible.bind_ok.mp rest
      obtain ⟨k', cur', ran, rfl⟩ := leave_ok.mp rest
      have spaces₁ := spaces.rewrites rewrites₁
      have rewrites₂ := spaces₁.memory.storeBytes (spaces₁.role inUse (Kernel.pml4eOf_ok.mp pml4e))
        (by rw [utrapframe_bytes]; exact exceptionRsp_room _) stored
      obtain ⟨tf, ran⟩ : ∃ tf, ((k.setMem mem₂).setTf c tf).envRun (some c) c = .ok (k', cur') := ⟨_, ran⟩
      have first : Evolves reserved maps k (k.setMem mem₁) := spaces.evolves_rewrites rewrites₁
      have second : Evolves reserved maps (k.setMem mem₁) (k.setMem mem₂) := spaces₁.evolves_rewrites rewrites₂
      have spaces₂ : Spaces reserved (k.setMem mem₂) g := spaces₁.rewrites rewrites₂
      have touches : Touches (fun other => other = c) (k.setMem mem₂) ((k.setMem mem₂).setTf c tf) := .setTf c tf
      have third : Evolves reserved maps (k.setMem mem₂) _ := spaces₂.evolves_touches touches
      have fourth : Evolves reserved maps _ k' := (spaces₂.touches touches).evolves_run ((touches.inUse c).mpr inUse) ran
      exact (first.trans second).trans (third.trans fourth)

end Spaces

def Trapframe.Maps (k : Kernel) (cur : Nat) (tf : Trapframe) (e : Nat) (va entry : Word) : Prop :=
  (k.envs cur).envStatus ≠ .dying ∧
    ∃ call, tf.call = some call ∧ call.Maps (k.setTf cur tf) cur e va entry

def Trapframe.Careful (k : Kernel) (cur : Nat) (tf : Trapframe) : Prop :=
  (k.envs cur).envStatus ≠ .dying → ∀ call, tf.call = some call → call.Careful (k.setTf cur tf) cur

instance (k : Kernel) (cur : Nat) (tf : Trapframe) : Decidable (tf.Careful k cur) :=
  inferInstanceAs (Decidable (_ → ∀ call ∈ tf.call, call.Careful (k.setTf cur tf) cur))

namespace Spaces

theorem trapDispatch (spaces : Spaces reserved k g) (table : EnvTable k) {cr2 : Word} {key : Int} {flow : Flow Unit}
    {tf : Trapframe} (inUse : k.InUse c) (saved : (k.envs c).envTf = tf)
    (careful : ∀ call, tf.call = some call → call.Careful k c)
    (mapped : ∀ call e va entry, tf.call = some call → call.Maps k c e va entry → maps e va entry)
    (rooted : ∀ e, tf.ends k c = some e → k.Rooted e) (done : k.trapDispatch c cr2 key = .ok flow) :
    Evolves reserved maps k flow.kernel := by
  unfold Kernel.trapDispatch at done
  simp only [saved] at done
  have atFault : tf.trapno ≠ tSyscall → tf.trapno ≠ irqOffset + irqSpurious → tf.trapno ≠ irqOffset + irqTimer →
      k.Rooted c := by
    intro noCall spurious timer
    apply rooted
    rw [Trapframe.ends, Trapframe.call, if_neg noCall]
    exact if_neg (not_or.mpr ⟨spurious, timer⟩)
  split at done
  · rename_i fault
    refine spaces.pageFaultHandler inUse (atFault ?_ ?_ ?_) done <;> rw [fault] <;> decide
  split at done
  · rename_i isCall
    obtain ⟨inner, called, rfl⟩ := Fallible.map_ok.mp done
    obtain ⟨call, made, called⟩ : ∃ call, tf.call = some call ∧ k.syscall c key call = .ok inner :=
      ⟨_, if_pos isCall, called⟩
    have destroys : ∀ e, call.destroys k c = some e → k.Rooted e := by
      intro e here
      apply rooted
      rwa [Trapframe.ends, made]
    cases inner with
    | returned value k' =>
      have touches : Touches (fun other => other = c) k' (k'.setTf c
          ((k'.envs c).envTf.setRax (BitVec.ofInt 64 value))) := .setTf c _
      have first : Evolves reserved maps k k' := (spaces.syscall table (.returned value k') inUse
        (careful _ made) destroys called).mono fun e va entry => mapped _ e va entry made
      obtain ⟨g', spaces'⟩ := first.spaces
      exact first.trans (spaces'.evolves_touches touches)
    | left k' cur' =>
      exact (spaces.syscall table (.left k' cur') inUse (careful _ made) destroys called).mono
        fun e va entry => mapped _ e va entry made
  rename_i noCall
  split at done
  · cases done
    exact .refl maps spaces
  rename_i spurious
  split at done
  · exact spaces.evolves_leave inUse done
  · rename_i timer
    exact spaces.envDestroy _ inUse (fun _ => atFault noCall spurious timer) done

theorem trap (spaces : Spaces reserved k g) {others : Nat → Prop} (scheduled : Scheduled others k (some c))
    {tf : Trapframe} {cr2 : Word} {key : Int}
    (respects : (k.envs c).envStatus ≠ .dying →
      ∀ call, tf.call = some call → call.Respects others (k.setTf c tf) c)
    (careful : tf.Careful k c) (rooted : ∀ e, tf.destroys k c = some e → k.Rooted e)
    (done : k.trap c tf cr2 key = .ok (k', cur')) : Evolves reserved (tf.Maps k c) k k' := by
  have inUse : k.InUse c := ⟨(scheduled.current c rfl).1, (scheduled.current c rfl).2.1⟩
  unfold Kernel.trap at done
  split at done
  · rename_i dying
    obtain ⟨k₁, freed, rest⟩ := Fallible.bind_ok.mp done
    have here : tf.destroys k c = some c := by
      rw [Trapframe.destroys, if_pos dying]
    exact spaces.evolves_freeYield inUse (rooted c here) freed rest
  · rename_i alive
    obtain ⟨inner, dispatched, rest⟩ := Fallible.bind_ok.mp done
    have touches : Touches (fun other => other = c) k (k.setTf c tf) := .setTf c tf
    have saved : ((k.setTf c tf).envs c).envTf = tf := by
      rw [Kernel.setTf, Kernel.setEnv_envs, if_pos rfl]
    have first : Evolves reserved (tf.Maps k c) k (k.setTf c tf) := spaces.evolves_touches touches
    have rooted' : ∀ e, tf.ends (k.setTf c tf) c = some e → (k.setTf c tf).Rooted e := by
      intro e ends
      refine (Kernel.Rooted.of_touches touches).mpr (rooted e ?_)
      rwa [Trapframe.destroys, if_neg alive]
    have second : Evolves reserved (tf.Maps k c) (k.setTf c tf) inner.kernel :=
      (spaces.touches touches).trapDispatch (scheduled.table.touches touches) ((touches.inUse c).mpr inUse) saved
        (careful alive) (fun call e va entry made mapped => ⟨alive, call, made, mapped⟩) rooted' dispatched
    have kept := (scheduled.setTf tf).scheduled.trapDispatch (by
      rw [saved]
      exact respects alive) dispatched
    cases inner with
    | left k₁ cur₁ =>
      cases rest
      exact first.trans second
    | returned value k₁ =>
      have current : (k₁.envs c).envStatus ≠ .free := (kept.scheduled.current c rfl).2.1
      have leaves : ∃ slots, Touches slots k₁ k' := by
        simp only at rest
        split at rest
        · obtain ⟨rfl, leaves⟩ := envRun_leaves current (.inr rfl) rest
          exact ⟨_, leaves.touches⟩
        · refine ⟨_, (schedYield_leaves ?_ rest).touches⟩
          rintro e ⟨⟩
          exact current
      obtain ⟨slots, leaves⟩ := leaves
      obtain ⟨g₁, spaces₁⟩ := second.spaces
      exact first.trans (second.trans (spaces₁.evolves_touches leaves))

end Spaces

end Jos
