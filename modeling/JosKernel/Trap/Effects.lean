import JosKernel.Sched.Calls

namespace Jos

variable {k k' k₁ : Kernel} {c : Nat} {cur cur' : Option Nat}

-- Leaving the kernel

/-- The status of an environment when the CPU that ran `cur` goes on with `cur'`. -/
def Kernel.leftStatus (k : Kernel) (cur cur' : Option Nat) (e : Nat) : EnvStatus :=
  if cur' = some e then .running
  else if cur = some e ∧ (k.envs e).envStatus = .running then .runnable
  else (k.envs e).envStatus

@[simp] theorem Kernel.leftStatus_chosen (k : Kernel) (cur : Option Nat) (e : Nat) :
    k.leftStatus cur (some e) e = .running := if_pos rfl

theorem Kernel.leftStatus_other (k : Kernel) {cur cur' : Option Nat} {e : Nat} (other : cur' ≠ some e) :
    k.leftStatus cur cur' e = k.leftStatus cur none e := by
  rw [leftStatus, leftStatus, if_neg other, if_neg (show none ≠ some e by simp)]

theorem Kernel.leftStatus_idle {k : Kernel} {cur : Option Nat} {e : Nat}
    (idle : cur = some e → (k.envs e).envStatus ≠ .running) : k.leftStatus cur none e = (k.envs e).envStatus := by
  rw [leftStatus, if_neg (show none ≠ some e by simp), if_neg fun both => idle both.1 both.2]

/-- A CPU leaves the kernel: nothing but the status and the number of runs of environments changes. -/
structure Exits (k : Kernel) (cur : Option Nat) (k' : Kernel) (cur' : Option Nat) : Prop where
  mem : k'.mem = k.mem
  envFreeList : k'.envFreeList = k.envFreeList
  console : k'.console = k.console
  fields : ∀ e, ∃ runs, k'.envs e = { k.envs e with envStatus := k.leftStatus cur cur' e, envRuns := runs }
  leaves : (∀ e, cur = some e → (k.envs e).envStatus ≠ .free) → Leaves k cur k' cur'

/-- It goes on with the environment that `sched_yield` picks, or the current one if it is still running. -/
structure Yields (k : Kernel) (cur : Option Nat) (k' : Kernel) (cur' : Option Nat) : Prop
    extends Exits k cur k' cur' where
  choice : ∀ e, cur' = some e → (k.envs e).envStatus = .runnable ∨ cur = some e ∧ (k.envs e).envStatus = .running
  slot : (∀ e, cur = some e → e < nenv) → ∀ e, cur' = some e → e < nenv

theorem suspend_fields (k : Kernel) (cur : Option Nat) : (k.suspend cur).mem = k.mem ∧
    (k.suspend cur).envFreeList = k.envFreeList ∧ (k.suspend cur).console = k.console ∧
    ∀ e, (k.suspend cur).envs e = { k.envs e with envStatus := k.leftStatus cur none e } := by
  cases cur with
  | none => exact ⟨rfl, rfl, rfl, fun e => by simp [Kernel.suspend, Kernel.leftStatus]⟩
  | some c =>
    rw [Kernel.suspend]
    split
    · rename_i running
      refine ⟨rfl, rfl, rfl, fun e => ?_⟩
      rw [Kernel.setStatus, Kernel.setEnv_envs]
      split
      · rename_i here
        simp [Kernel.leftStatus, here, running]
      · rename_i different
        simp [Kernel.leftStatus, Ne.symm different]
    · rename_i idle
      refine ⟨rfl, rfl, rfl, fun e => ?_⟩
      rw [Kernel.leftStatus_idle]
      rintro ⟨⟩
      exact idle

theorem envRun_done {e page : Nat} (table : (k.envs e).envPml4e = some page) (cur : Option Nat) :
    ∃ k', k.envRun cur e = .ok (k', some e) := by
  have kept : ((k.suspend cur).envs e).envPml4e = some page := by
    rw [(suspend_fields k cur).2.2.2 e]
    exact table
  unfold Kernel.envRun
  simp only [kept]
  exact ⟨_, rfl⟩

theorem envRun_exits {e : Nat} (chosen : (k.envs e).envStatus = .runnable ∨ cur = some e)
    (ran : k.envRun cur e = .ok (k', cur')) : cur' = some e ∧ Exits k cur k' cur' := by
  have whole := ran
  unfold Kernel.envRun at ran
  simp only at ran
  split at ran
  · cases ran
  cases ran
  obtain ⟨mem, freeList, console, fields⟩ := suspend_fields k cur
  refine ⟨rfl, mem, freeList, console, ?_, ?_⟩
  · intro other
    rw [Kernel.setEnv_envs]
    split
    · rename_i here
      refine ⟨(k.envs e).envRuns + 1, ?_⟩
      rw [here, fields e, Kernel.leftStatus_chosen]
    · rename_i different
      have unchosen : some e ≠ some other := by simpa using Ne.symm different
      exact ⟨(k.envs other).envRuns, by rw [fields other, k.leftStatus_other unchosen]⟩
  · intro used
    refine (envRun_leaves ?_ chosen whole).2
    rcases chosen with runnable | current
    · simp [runnable]
    · exact used e current

theorem schedHalt_yields (idle : ∀ e, cur = some e → (k.envs e).envStatus ≠ .running)
    (halted : k.schedHalt = .ok (k', cur')) : Yields k cur k' cur' := by
  have leaves := schedHalt_leaves idle halted
  unfold Kernel.schedHalt at halted
  split at halted
  · cases halted
    refine ⟨⟨rfl, rfl, rfl, fun e => ⟨(k.envs e).envRuns, ?_⟩, fun _ => leaves⟩, by simp, by simp⟩
    rw [Kernel.leftStatus_idle (idle e)]
  · cases halted

theorem envRun_yields (running : (k.envs c).envStatus = .running) (ran : k.envRun (some c) c = .ok (k', cur')) :
    Yields k (some c) k' cur' := by
  obtain ⟨rfl, exits⟩ := envRun_exits (.inr rfl) ran
  refine ⟨exits, ?_, fun inside => inside⟩
  rintro e ⟨⟩
  exact .inr ⟨rfl, running⟩

theorem schedYield_yields (yielded : k.schedYield cur = .ok (k', cur')) : Yields k cur k' cur' := by
  have slot := fun inside => schedYield_slot inside yielded
  unfold Kernel.schedYield at yielded
  split at yielded
  · rename_i e found
    have runnable : (k.envs e).envStatus = .runnable := by simpa using List.find?_some found
    obtain ⟨rfl, exits⟩ := envRun_exits (.inl runnable) yielded
    refine ⟨exits, ?_, slot⟩
    rintro other ⟨⟩
    exact .inl runnable
  · split at yielded
    · split at yielded
      · rename_i running
        exact envRun_yields running yielded
      · rename_i idle
        exact schedHalt_yields (by rintro _ ⟨⟩; exact idle) yielded
    · exact schedHalt_yields (by simp) yielded

-- System calls that return

/-- The kernel after `sys_exofork` has taken slot `e` for a child of `c`. -/
def Kernel.forked (k : Kernel) (c e : Nat) : Kernel :=
  k.setEnv e { k.envs e with envStatus := .notRunnable, envTf := (k.envs c).envTf.setRax 0 }

def Kernel.Transfers (k : Kernel) (target : Nat) (srcva : Word) : Prop :=
  srcva < utop ∧ (k.envs target).envIpcDstva < utop

inductive Returns (k : Kernel) (c : Nat) : Syscall → Int → Kernel → Prop
  | quiet (call : Syscall) (code : Int) (mem : Memory) (noRecv : ∀ dstva, call ≠ .ipcRecv dstva)
      (silent : ∀ envid value srcva perm, call = .ipcTrySend envid value srcva perm → code < 0) :
      Returns k c call code (k.setMem mem)
  | refused (dstva : Word) (low : dstva < utop) (misaligned : dstva % BitVec.ofNat 64 pgSize ≠ 0) :
      Returns k c (.ipcRecv dstva) (-eInval) k
  | create (e : Nat) (k₁ : Kernel) (allocated : k.envAlloc (some c) (k.envs c).envId = .ok (.ok e, k₁)) :
      Returns k c .exofork (k₁.envs e).envId.toInt (k₁.forked c e)
  | status (envid : BitVec 32) (e : Nat) (status : EnvStatus) (found : k.envid2env c envid true = some e)
      (legal : status = .runnable ∨ status = .notRunnable) :
      Returns k c (.envSetStatus envid status.code) 0 (k.setStatus e status)
  | upcall (envid : BitVec 32) (func : Word) (e : Nat) (found : k.envid2env c envid true = some e) :
      Returns k c (.envSetPgfaultUpcall envid func) 0 (k.setEnv e { k.envs e with envPgfaultUpcall := func })
  | mark (envid : BitVec 32) (e : Nat) (found : k.envid2env c envid true = some e) (other : e ≠ c)
      (running : (k.envs e).envStatus = .running) : Returns k c (.envDestroy envid) 0 (k.setStatus e .dying)
  | destroy (envid : BitVec 32) (e : Nat) (k₁ : Kernel) (found : k.envid2env c envid true = some e)
      (other : e ≠ c) (notRunning : (k.envs e).envStatus ≠ .running) (freed : k.envFree (some c) e = .ok k₁) :
      Returns k c (.envDestroy envid) 0 k₁
  | deliver (envid value : BitVec 32) (srcva : Word) (perm : BitVec 32) (target : Nat) (mem : Memory)
      (given : BitVec 32) (found : k.envid2env c envid false = some target)
      (recving : (k.envs target).envIpcRecving = true)
      (page : k.Transfers target srcva ∧ given = perm ∨
        ¬ k.Transfers target srcva ∧ given = (k.envs target).envIpcPerm) :
      Returns k c (.ipcTrySend envid value srcva perm) 0
        (((k.setMem mem).setIpcPerm target given).deliver c target value)

namespace Kernel

theorem sysIpcTrySend_returns {envid value : BitVec 32} {srcva : Word} {perm : BitVec 32} {code : Int}
    (returned : k.sysIpcTrySend c envid value srcva perm = .ok (code, k')) :
    Returns k c (.ipcTrySend envid value srcva perm) code k' := by
  have failed : ∀ mem, code < 0 →
      Returns k c (.ipcTrySend envid value srcva perm) code (k.setMem mem) := by
    intro mem negative
    exact .quiet _ code mem (by simp) fun _ _ _ _ _ => negative
  cases sysIpcTrySend_outcome returned with
  | page target root dstRoot page pte mem mem' found recving below aligned goodPerm pml4e lookup write goodDst =>
    refine .deliver envid value srcva perm target mem' perm found recving (.inl ⟨⟨below, ?_⟩, rfl⟩)
    rw [← BitVec.not_le]
    exact fun high => goodDst (.inl high)
  | unwanted target root page pte mem found recving below aligned goodPerm pml4e lookup write noPage =>
    rw [deliver_setIpcPerm_self k mem c target value]
    exact .deliver envid value srcva perm target mem _ found recving (.inr ⟨fun both => noPage both.2, rfl⟩)
  | value target found recving noPage =>
    rw [← setMem_self k, deliver_setIpcPerm_self k k.mem c target value]
    exact .deliver envid value srcva perm target k.mem _ found recving (.inr ⟨fun both => noPage both.1, rfl⟩)
  | badEnv | notRecv | badArgs => exact setMem_self k ▸ failed k.mem (by decide)
  | inval _ _ _ mem | noTable _ _ _ _ _ _ mem => exact failed mem (by decide)

theorem sysEnvSetStatus_returns {envid status : BitVec 32} :
    Returns k c (.envSetStatus envid status) (k.sysEnvSetStatus c envid status).1
      (k.sysEnvSetStatus c envid status).2 := by
  have unchanged : ∀ code, Returns k c (.envSetStatus envid status) code k :=
    fun code => setMem_self k ▸ .quiet _ code k.mem (by simp) (by simp)
  unfold Kernel.sysEnvSetStatus
  split
  · exact unchanged _
  · rename_i e found
    split
    · rename_i runnable
      rw [runnable]
      exact .status envid e .runnable found (.inl rfl)
    split
    · rename_i notRunnable
      rw [notRunnable]
      exact .status envid e .notRunnable found (.inr rfl)
    · exact unchanged _

theorem sysExofork_returns {code : Int} (returned : k.sysExofork c = .ok (code, k')) :
    Returns k c .exofork code k' := by
  obtain ⟨⟨result, k₁⟩, allocated, rest⟩ := Fallible.bind_ok.mp returned
  cases result with
  | ok e =>
    cases rest
    exact .create e k₁ allocated
  | error code =>
    cases rest
    rcases envAlloc_ok allocated with ⟨_, -, ⟨-, rfl⟩ | ⟨mem, -, rfl⟩⟩ | ⟨_, _, _, impossible, -⟩
    · exact setMem_self k' ▸ .quiet _ code k'.mem (by simp) (by simp)
    · exact .quiet _ code mem (by simp) (by simp)
    · cases impossible

end Kernel

-- What a trap does

/-- What a trap of `c` with the registers `tf` does until the CPU leaves the kernel: the kernel that is
    left, and the environment that is current then. -/
inductive Effect (k : Kernel) (c : Nat) (tf : Trapframe) : Kernel → Option Nat → Prop
  | answered (call : Syscall) (code : Int) (k₁ : Kernel) (made : tf.call = some call)
      (returns : Returns k c call code k₁) :
      Effect k c tf (k₁.setTf c ((k₁.envs c).envTf.setRax (BitVec.ofInt 64 code))) (some c)
  | blocked (dstva : Word) (made : tf.call = some (.ipcRecv dstva)) :
      Effect k c tf (k.setEnv c { k.envs c with
        envIpcRecving := true, envStatus := .notRunnable, envIpcDstva := dstva }) (some c)
  | yielded (cause : tf.call = some .yield ∨ tf.trapno = irqOffset + irqTimer) : Effect k c tf k (some c)
  | ignored (spurious : tf.trapno = irqOffset + irqSpurious) : Effect k c tf k (some c)
  | ended (mem : Memory) (k₁ : Kernel) (rsp : Word) (kept : tf.trapno ≠ tPgflt → rsp = (k.envs c).envTf.rsp)
      (timer : tf.trapno ≠ irqOffset + irqTimer) (spurious : tf.trapno ≠ irqOffset + irqSpurious)
      (freed : ((k.setTf c { (k.envs c).envTf with rsp := rsp }).setMem mem).envFree (some c) c = .ok k₁) :
      Effect k c tf k₁ none

variable {tf : Trapframe}

theorem envDestroy_ends {mem : Memory} {flow : Flow Unit}
    (destroyed : (k.setMem mem).envDestroy (some c) c = .ok flow) :
    ∃ k₁ k' cur', flow = .left k' cur' ∧ (k.setMem mem).envFree (some c) c = .ok k₁ ∧ Yields k₁ none k' cur' := by
  unfold Kernel.envDestroy at destroyed
  rw [if_neg (by simp)] at destroyed
  obtain ⟨k₁, freed, rest⟩ := Fallible.bind_ok.mp destroyed
  rw [if_pos rfl] at rest
  obtain ⟨k', cur', yielded, rfl⟩ := leave_ok.mp rest
  exact ⟨k₁, k', cur', rfl, freed, schedYield_yields yielded⟩

theorem userMemAssert_ends {va len : Word} {perm : BitVec 32} {flow : Flow Unit}
    (done : k.userMemAssert c c va len perm = .ok flow) : (∃ mem, flow = .returned () (k.setMem mem)) ∨
      ∃ mem k₁ k' cur', flow = .left k' cur' ∧ (k.setMem mem).envFree (some c) c = .ok k₁ ∧ Yields k₁ none k' cur' := by
  obtain ⟨root, -, rest⟩ := Fallible.bind_ok.mp done
  obtain ⟨⟨code, mem⟩, -, rest⟩ := Fallible.bind_ok.mp rest
  simp only at rest
  split at rest
  · exact .inr ⟨mem, envDestroy_ends rest⟩
  · cases rest
    exact .inl ⟨mem, rfl⟩

theorem envDestroy_settles {mem : Memory} {flow : Flow Unit} (timer : tf.trapno ≠ irqOffset + irqTimer)
    (spurious : tf.trapno ≠ irqOffset + irqSpurious)
    (destroyed : (k.setMem mem).envDestroy (some c) c = .ok flow) :
    ∃ k₁ k' cur', flow = .left k' cur' ∧ Effect k c tf k₁ none ∧ Yields k₁ none k' cur' := by
  obtain ⟨k₁, k', cur', rfl, freed, exits⟩ := envDestroy_ends destroyed
  refine ⟨k₁, k', cur', rfl, .ended mem k₁ _ (fun _ => rfl) timer spurious ?_, exits⟩
  rwa [k.setTf_self]

theorem userMemAssert_settles {va len : Word} {perm : BitVec 32} {flow : Flow Unit}
    (timer : tf.trapno ≠ irqOffset + irqTimer) (spurious : tf.trapno ≠ irqOffset + irqSpurious)
    (done : k.userMemAssert c c va len perm = .ok flow) : (∃ mem, flow = .returned () (k.setMem mem)) ∨
      ∃ k₁ k' cur', flow = .left k' cur' ∧ Effect k c tf k₁ none ∧ Yields k₁ none k' cur' := by
  rcases userMemAssert_ends done with stays | ⟨mem, k₁, k', cur', rfl, freed, exits⟩
  · exact .inl stays
  · refine .inr ⟨k₁, k', cur', rfl, .ended mem k₁ _ (fun _ => rfl) timer spurious ?_, exits⟩
    rwa [k.setTf_self]

inductive Flow.Ends (k : Kernel) (c : Nat) (tf : Trapframe) (call : Syscall) : Flow Int → Prop
  | left (k₁ : Kernel) (cur : Option Nat) (k' : Kernel) (cur' : Option Nat) (effect : Effect k c tf k₁ cur)
      (yields : Yields k₁ cur k' cur') : Flow.Ends k c tf call (.left k' cur')
  | returned (code : Int) (k₁ : Kernel) (returns : Returns k c call code k₁) :
      Flow.Ends k c tf call (.returned code k₁)

theorem finish_ends {call : Syscall} {result : Except Stop (Int × Kernel)} {flow : Flow Int}
    (returns : ∀ code k', result = .ok (code, k') → Returns k c call code k')
    (done : Kernel.finish result = .ok flow) : flow.Ends k c tf call := by
  obtain ⟨code, k', returned, rfl⟩ := Kernel.finish_ok.mp done
  exact .returned code k' (returns code k' returned)

theorem leave_ends {call : Syscall} {flow : Flow Int} (effect : Effect k c tf k₁ (some c))
    (left : Kernel.leave (k₁.schedYield (some c)) = .ok flow) : flow.Ends k c tf call := by
  obtain ⟨k', cur', yielded, rfl⟩ := leave_ok.mp left
  exact .left k₁ (some c) k' cur' effect (schedYield_yields yielded)

theorem sysEnvDestroy_ends {envid : BitVec 32} {flow : Flow Int} (timer : tf.trapno ≠ irqOffset + irqTimer)
    (spurious : tf.trapno ≠ irqOffset + irqSpurious) (done : k.sysEnvDestroy c envid = .ok flow) :
    flow.Ends k c tf (.envDestroy envid) := by
  unfold Kernel.sysEnvDestroy at done
  split at done
  · cases done
    exact .returned _ k (Kernel.setMem_self k ▸ .quiet _ _ k.mem (by simp) (by simp))
  · rename_i e found
    obtain ⟨inner, destroyed, rfl⟩ := Fallible.map_ok.mp done
    by_cases here : e = c
    · subst here
      obtain ⟨k₁, k', cur', rfl, effect, exits⟩ :=
        envDestroy_settles timer spurious (Kernel.setMem_self k ▸ destroyed)
      exact .left k₁ none k' cur' effect exits
    · unfold Kernel.envDestroy at destroyed
      split at destroyed
      · rename_i running
        cases destroyed
        exact .returned 0 _ (.mark envid e found here running.1)
      · rename_i notRunning
        obtain ⟨k₁, freed, rest⟩ := Fallible.bind_ok.mp destroyed
        rw [if_neg (by simpa using Ne.symm here)] at rest
        cases rest
        refine .returned 0 k₁ (.destroy envid e k₁ found here ?_ freed)
        exact fun running => notRunning ⟨running, by simpa using Ne.symm here⟩

theorem syscall_ends {key : Int} {call : Syscall} {flow : Flow Int} (made : tf.call = some call)
    (timer : tf.trapno ≠ irqOffset + irqTimer) (spurious : tf.trapno ≠ irqOffset + irqSpurious)
    (done : k.syscall c key call = .ok flow) : flow.Ends k c tf call := by
  cases call with
  | cputs s len =>
    obtain ⟨inner, asserted, rfl⟩ := Fallible.map_ok.mp done
    rcases userMemAssert_settles timer spurious asserted with ⟨mem, rfl⟩ | ⟨k₁, k', cur', rfl, effect, exits⟩
    · exact .returned 0 _ (.quiet _ _ mem (by simp) (by simp))
    · exact .left k₁ none k' cur' effect exits
  | cgetc | getenvid | unknown =>
    cases done
    exact .returned _ k (Kernel.setMem_self k ▸ .quiet _ _ k.mem (by simp) (by simp))
  | envDestroy envid => exact sysEnvDestroy_ends timer spurious done
  | pageAlloc envid va perm =>
    refine finish_ends ?_ done
    intro code k' returned
    obtain ⟨mem, rfl⟩ := Kernel.sysPageAlloc_setMem returned
    exact .quiet _ _ mem (by simp) (by simp)
  | pageMap srcenvid srcva dstenvid dstva perm =>
    refine finish_ends ?_ done
    intro code k' returned
    obtain ⟨mem, rfl⟩ := Kernel.sysPageMap_setMem returned
    exact .quiet _ _ mem (by simp) (by simp)
  | pageUnmap envid va =>
    refine finish_ends ?_ done
    intro code k' returned
    obtain ⟨mem, rfl⟩ := Kernel.sysPageUnmap_setMem returned
    exact .quiet _ _ mem (by simp) (by simp)
  | exofork => exact finish_ends (fun _ _ returned => Kernel.sysExofork_returns returned) done
  | envSetStatus envid status =>
    refine finish_ends ?_ done
    intro code k' returned
    have result : k.sysEnvSetStatus c envid status = (code, k') := Except.ok.inj returned
    have returns : Returns k c (.envSetStatus envid status) _ _ := Kernel.sysEnvSetStatus_returns
    rwa [result] at returns
  | envSetPgfaultUpcall envid func =>
    refine finish_ends ?_ done
    intro code k' returned
    unfold Kernel.sysEnvSetPgfaultUpcall at returned
    split at returned
    · cases returned
      exact Kernel.setMem_self k ▸ .quiet _ _ k.mem (by simp) (by simp)
    · rename_i e found
      cases returned
      exact .upcall envid func e found
  | yield => exact leave_ends (.yielded (.inl made)) done
  | ipcTrySend envid value srcva perm =>
    exact finish_ends (fun _ _ returned => Kernel.sysIpcTrySend_returns returned) done
  | ipcRecv dstva =>
    change k.sysIpcRecv c dstva = .ok flow at done
    unfold Kernel.sysIpcRecv at done
    split at done
    · rename_i bad
      cases done
      exact .returned _ k (.refused dstva bad.1 bad.2)
    · exact leave_ends (.blocked dstva made) done

-- The trap handler

def Kernel.redirected (k : Kernel) (c : Nat) (tf : Trapframe) (mem : Memory) (rsp : Word) : Kernel :=
  (k.setMem mem).setTf c { tf with rip := (k.envs c).envPgfaultUpcall, rsp := rsp }

inductive Handled (k : Kernel) (c : Nat) (tf : Trapframe) (k' : Kernel) (cur' : Option Nat) : Prop
  | reaped (k₁ : Kernel) (dying : (k.envs c).envStatus = .dying) (freed : k.envFree (some c) c = .ok k₁)
      (yields : Yields k₁ none k' cur')
  | handled (k₁ : Kernel) (cur : Option Nat) (alive : (k.envs c).envStatus ≠ .dying)
      (effect : Effect (k.setTf c tf) c tf k₁ cur) (yields : Yields k₁ cur k' cur')
  | redirected (mem : Memory) (rsp : Word) (alive : (k.envs c).envStatus ≠ .dying)
      (fault : tf.trapno = tPgflt) (upcall : (k.envs c).envPgfaultUpcall ≠ 0) (resumed : cur' = some c)
      (exits : Exits (k.redirected c tf mem rsp) (some c) k' (some c))

theorem Kernel.setTf_setTf (k : Kernel) (c : Nat) (tf tf' : Trapframe) : (k.setTf c tf).setTf c tf' = k.setTf c tf' := by
  unfold Kernel.setTf Kernel.setEnv
  congr 1
  funext e
  by_cases here : e = c
  · simp [here]
  · simp [here]

theorem pageFaultHandler_handled {faultVa : Word} {flow : Flow Unit} (alive : (k.envs c).envStatus ≠ .dying)
    (fault : tf.trapno = tPgflt)
    (done : (k.setTf c tf).pageFaultHandler c faultVa = .ok flow) :
    ∃ k' cur', flow = .left k' cur' ∧ Handled k c tf k' cur' := by
  have timer : tf.trapno ≠ irqOffset + irqTimer := by
    rw [fault]
    decide
  have spurious : tf.trapno ≠ irqOffset + irqSpurious := by
    rw [fault]
    decide
  have own : (k.setTf c tf).envs c = { k.envs c with envTf := tf } := if_pos rfl
  unfold Kernel.pageFaultHandler at done
  split at done
  · obtain ⟨k₁, k', cur', rfl, effect, exits⟩ :=
      envDestroy_settles timer spurious (Kernel.setMem_self (k.setTf c tf) ▸ done)
    exact ⟨k', cur', rfl, .handled k₁ none alive effect exits⟩
  · rename_i upcall
    obtain ⟨inner, asserted, rest⟩ := Fallible.bind_ok.mp done
    rcases userMemAssert_ends asserted with ⟨mem, rfl⟩ | ⟨mem, k₁, k', cur', rfl, freed, exits⟩
    · obtain ⟨root, -, rest⟩ := Fallible.bind_ok.mp rest
      obtain ⟨mem', -, rest⟩ := Fallible.bind_ok.mp rest
      obtain ⟨k', cur', ran, rfl⟩ := leave_ok.mp rest
      rw [own] at upcall
      simp only [Kernel.setMem_envs, Kernel.setTf_setTf, own, Kernel.setTf_envPgfaultUpcall] at ran
      have same : (((k.setTf c { tf with rsp := exceptionTop tf.rsp }).setMem mem).setMem mem').setTf c { tf with
          rip := (k.envs c).envPgfaultUpcall, rsp := exceptionRsp tf.rsp } =
          k.redirected c tf mem' (exceptionRsp tf.rsp) := Kernel.setTf_setTf (k.setMem mem') c _ _
      have ran : (k.redirected c tf mem' (exceptionRsp tf.rsp)).envRun (some c) c = .ok (k', cur') := by
        rw [← same]
        exact ran
      obtain ⟨rfl, exits⟩ := envRun_exits (.inr rfl) ran
      exact ⟨k', some c, rfl, .redirected mem' _ alive fault upcall rfl exits⟩
    · cases rest
      refine ⟨k', cur', rfl, .handled k₁ none alive (.ended mem k₁ _ (absurd fault) timer spurious freed) exits⟩

theorem Kernel.trap_handled {cr2 : Word} {key : Int} (done : k.trap c tf cr2 key = .ok (k', cur')) :
    Handled k c tf k' cur' := by
  unfold Kernel.trap at done
  split at done
  · rename_i dying
    obtain ⟨k₁, freed, rest⟩ := Fallible.bind_ok.mp done
    exact .reaped k₁ dying freed (schedYield_yields rest)
  rename_i alive
  obtain ⟨inner, dispatched, rest⟩ := Fallible.bind_ok.mp done
  have saved : ((k.setTf c tf).envs c).envTf = tf := by
    rw [Kernel.setTf, Kernel.setEnv_envs, if_pos rfl]
  -- back in `trap`, the current environment goes on if it is still running
  have back : ∀ k₁, Effect (k.setTf c tf) c tf k₁ (some c) →
      (if (k₁.envs c).envStatus = .running then k₁.envRun (some c) c else k₁.schedYield (some c)) =
        .ok (k', cur') → Handled k c tf k' cur' := by
    intro k₁ effect rest
    refine .handled k₁ (some c) alive effect ?_
    split at rest
    · rename_i running
      exact envRun_yields running rest
    · exact schedYield_yields rest
  unfold Kernel.trapDispatch at dispatched
  simp only [saved] at dispatched
  split at dispatched
  · rename_i fault
    obtain ⟨_, _, rfl, handled⟩ := pageFaultHandler_handled alive fault dispatched
    cases rest
    exact handled
  rename_i noFault
  split at dispatched
  · rename_i isCall
    have timer : tf.trapno ≠ irqOffset + irqTimer := by
      rw [isCall]
      decide
    have spurious : tf.trapno ≠ irqOffset + irqSpurious := by
      rw [isCall]
      decide
    obtain ⟨flow, called, rfl⟩ := Fallible.map_ok.mp dispatched
    obtain ⟨call, made, called⟩ : ∃ call, tf.call = some call ∧ (k.setTf c tf).syscall c key call = .ok flow :=
      ⟨_, if_pos isCall, called⟩
    cases syscall_ends made timer spurious called with
    | left k₁ cur k₂ cur₂ effect exits =>
      cases rest
      exact .handled k₁ cur alive effect exits
    | returned code k₁ returns => exact back _ (.answered call code k₁ made returns) rest
  split at dispatched
  · rename_i spurious
    cases dispatched
    exact back _ (.ignored spurious) rest
  rename_i spurious
  split at dispatched
  · rename_i timer
    obtain ⟨k₁, cur₁, yielded, rfl⟩ := leave_ok.mp dispatched
    cases rest
    exact .handled _ (some c) alive (.yielded (.inr timer)) (schedYield_yields yielded)
  · rename_i timer
    obtain ⟨k₁, k₂, cur₂, rfl, effect, exits⟩ :=
      envDestroy_settles timer spurious (Kernel.setMem_self (k.setTf c tf) ▸ dispatched)
    cases rest
    exact .handled k₁ none alive effect exits

end Jos
