import JosKernel.Env.Booted
import JosKernel.Env.Generations
import JosKernel.System.Exclusion
import JosKernel.Trap.Effects

namespace Jos

variable {k k' k₁ : Kernel} {c e : Nat} {cur cur' : Option Nat}

-- The table of environments as the only CPU keeps it

/-- The invariant inside the kernel. `cur` is `curenv`, and nobody else is marked as running. -/
structure Orderly (k : Kernel) (cur : Option Nat) : Prop where
  table : EnvTable k
  positive : ∀ e, k.InUse e → 0 < (k.envs e).envId.toInt
  pml4e : ∀ e, k.InUse e → (k.envs e).envPml4e ≠ none
  current : ∀ e, cur = some e → k.InUse e
  running : ∀ e, e < nenv → (k.envs e).envStatus = .running → cur = some e
  alive : ∀ e, e < nenv → (k.envs e).envStatus ≠ .dying

namespace Orderly

theorem touches {slots : Nat → Prop} (orderly : Orderly k cur) (touches : Touches slots k k')
    (inside : ∀ e, cur' = some e → e < nenv ∧ (k'.envs e).envStatus ≠ .free)
    (running : ∀ e, e < nenv → (k'.envs e).envStatus = .running → cur' = some e)
    (alive : ∀ e, e < nenv → (k'.envs e).envStatus ≠ .dying) : Orderly k' cur' where
  table := orderly.table.touches touches
  positive := by
    intro e inUse
    rw [(touches.slot e).envId]
    exact orderly.positive e ⟨inUse.1, mt (touches.slot e).free.mpr inUse.2⟩
  pml4e := by
    intro e inUse
    rw [(touches.slot e).envPml4e]
    exact orderly.pml4e e ⟨inUse.1, mt (touches.slot e).free.mpr inUse.2⟩
  current := inside
  running := running
  alive := alive

theorem setEnv (orderly : Orderly k cur) {env : Env} (same : SameSlot (k.envs e) env)
    (status : e < nenv → (env.envStatus = .running → cur = some e) ∧ env.envStatus ≠ .dying) :
    Orderly (k.setEnv e env) cur := by
  have touches : Touches (fun other => other = e) k (k.setEnv e env) := .setEnv same
  refine orderly.touches touches ?_ ?_ ?_
  · intro other current
    have inUse := orderly.current other current
    exact ⟨inUse.1, mt (touches.slot other).free.mp inUse.2⟩
  · intro other small running
    rw [Kernel.setEnv_envs] at running
    split at running
    · rename_i here
      rw [here] at small ⊢
      exact (status small).1 running
    · exact orderly.running other small running
  · intro other small
    rw [Kernel.setEnv_envs]
    split
    · rename_i here
      exact (status (here ▸ small)).2
    · exact orderly.alive other small

theorem setMem (orderly : Orderly k cur) (mem : Memory) : Orderly (k.setMem mem) cur :=
  ⟨orderly.table.setMem mem, orderly.positive, orderly.pml4e, orderly.current, orderly.running, orderly.alive⟩

theorem setTf (orderly : Orderly k cur) (e : Nat) (tf : Trapframe) : Orderly (k.setTf e tf) cur :=
  orderly.setEnv ⟨rfl, rfl, rfl, rfl, Iff.rfl⟩ fun small => ⟨orderly.running e small, orderly.alive e small⟩

theorem setStatus (orderly : Orderly k cur) (inUse : k.InUse e) {status : EnvStatus}
    (legal : status = .runnable ∨ status = .notRunnable) : Orderly (k.setStatus e status) cur := by
  refine orderly.setEnv ⟨rfl, rfl, rfl, rfl, iff_of_false ?_ inUse.2⟩ fun _ => ?_
  · rcases legal with rfl | rfl <;> simp
  · rcases legal with rfl | rfl <;> simp

theorem envAlloc (orderly : Orderly k cur) {parentId : BitVec 32} {result : Except Int Nat}
    (allocated : k.envAlloc cur parentId = .ok (result, k')) : Orderly k' cur := by
  have table := orderly.table.envAlloc allocated
  rcases Kernel.envAlloc_ok allocated with
    ⟨code, rfl, ⟨-, rfl⟩ | ⟨mem, -, rfl⟩⟩ | ⟨e, p, mem, rfl, head, -, caller, rfl⟩
  · exact orderly
  · exact orderly.setMem mem
  obtain ⟨small, free⟩ := orderly.table.head_free head
  have slots : ∀ other, other ≠ e → ((((k.setMem mem).setEnv e (Kernel.newEnv (k.envs e) e p parentId)).setEnvFreeList
      (k.envs e).envLink).say (.newEnv caller (nextEnvId (k.envs e).envId e))).envs other = k.envs other :=
    fun other different => if_neg different
  have own : ((((k.setMem mem).setEnv e (Kernel.newEnv (k.envs e) e p parentId)).setEnvFreeList
      (k.envs e).envLink).say (.newEnv caller (nextEnvId (k.envs e).envId e))).envs e =
        Kernel.newEnv (k.envs e) e p parentId := if_pos rfl
  refine ⟨table, ?_, ?_, ?_, ?_, ?_⟩
  · intro other inUse
    by_cases here : other = e
    · rw [here, own]
      exact nextEnvId_pos _ small
    · rw [Kernel.InUse, slots other here] at inUse
      rw [slots other here]
      exact orderly.positive other inUse
  · intro other inUse
    by_cases here : other = e
    · rw [here, own]
      simp [Kernel.newEnv]
    · rw [Kernel.InUse, slots other here] at inUse
      rw [slots other here]
      exact orderly.pml4e other inUse
  · intro other current
    have inUse := orderly.current other current
    have different : other ≠ e := by
      rintro rfl
      exact inUse.2 free
    rw [Kernel.InUse, slots other different]
    exact inUse
  · intro other inside running
    by_cases here : other = e
    · rw [here, own] at running
      cases running
    · rw [slots other here] at running
      exact orderly.running other inside running
  · intro other inside
    by_cases here : other = e
    · rw [here, own]
      simp [Kernel.newEnv]
    · rw [slots other here]
      exact orderly.alive other inside

theorem envFree (orderly : Orderly k cur) (inUse : k.InUse e) (freed : k.envFree cur e = .ok k') :
    Orderly k' (if cur = some e then none else cur) := by
  have table := orderly.table.envFree inUse.1 inUse.2 freed
  obtain ⟨root, mem, -, -, rfl⟩ := Kernel.envFree_ok freed
  have slots : ∀ other, other ≠ e → ((((k.say (.freeEnv (k.curId cur) (k.envs e).envId)).setMem mem).setEnv e
      { k.envs e with envPml4e := none, envCr3 := 0, envStatus := .free, envLink := k.envFreeList }).setEnvFreeList
        (some e)).envs other = k.envs other := fun other different => if_neg different
  have own : ((((k.say (.freeEnv (k.curId cur) (k.envs e).envId)).setMem mem).setEnv e
      { k.envs e with envPml4e := none, envCr3 := 0, envStatus := .free, envLink := k.envFreeList }).setEnvFreeList
        (some e)).envs e =
      { k.envs e with envPml4e := none, envCr3 := 0, envStatus := .free, envLink := k.envFreeList } := if_pos rfl
  generalize ((((k.say (.freeEnv (k.curId cur) (k.envs e).envId)).setMem mem).setEnv e
      { k.envs e with envPml4e := none, envCr3 := 0, envStatus := .free, envLink := k.envFreeList }).setEnvFreeList
        (some e)) = k' at table slots own
  have free : (k'.envs e).envStatus = .free := by rw [own]
  have others : ∀ other, k'.InUse other → other ≠ e ∧ k.InUse other := by
    intro other inUse'
    have different : other ≠ e := by
      rintro rfl
      exact inUse'.2 free
    rw [Kernel.InUse, slots other different] at inUse'
    exact ⟨different, inUse'⟩
  refine ⟨table, ?_, ?_, ?_, ?_, ?_⟩
  · intro other inUse'
    obtain ⟨different, before⟩ := others other inUse'
    rw [slots other different]
    exact orderly.positive other before
  · intro other inUse'
    obtain ⟨different, before⟩ := others other inUse'
    rw [slots other different]
    exact orderly.pml4e other before
  · intro other current
    split at current
    · cases current
    · rename_i away
      have different : other ≠ e := by
        rintro rfl
        exact away current
      rw [Kernel.InUse, slots other different]
      exact orderly.current other current
  · intro other inside running
    have different : other ≠ e := by
      rintro rfl
      rw [free] at running
      cases running
    rw [slots other different] at running
    have current := orderly.running other inside running
    rw [if_neg, current]
    rw [current]
    simpa using different
  · intro other inside
    by_cases here : other = e
    · rw [here, free]
      simp
    · rw [slots other here]
      exact orderly.alive other inside

theorem exits (orderly : Orderly k cur) (exits : Exits k cur k' cur') (slot : ∀ e, cur' = some e → e < nenv) :
    Orderly k' cur' ∧ ∀ e, cur' = some e → (k'.envs e).envStatus = .running := by
  have status : ∀ e, (k'.envs e).envStatus = k.leftStatus cur cur' e := by
    intro e
    obtain ⟨runs, same⟩ := exits.fields e
    rw [same]
  have chosen : ∀ e, cur' = some e → (k'.envs e).envStatus = .running := by
    rintro e rfl
    rw [status, Kernel.leftStatus_chosen]
  refine ⟨orderly.touches (exits.leaves fun e here => (orderly.current e here).2).touches ?_ ?_ ?_, chosen⟩
  · exact fun e here => ⟨slot e here, by simp [chosen e here]⟩
  · intro e small running
    by_contra other
    rw [status, Kernel.leftStatus_other _ other, Kernel.leftStatus, if_neg (show none ≠ some e by simp)] at running
    split at running
    · cases running
    · rename_i idle
      exact idle ⟨orderly.running e small running, running⟩
  · intro e small
    rw [status, Kernel.leftStatus]
    split
    · simp
    split
    · simp
    · exact orderly.alive e small

theorem used (orderly : Orderly k (some c)) {envid : BitVec 32} {checkperm : Bool}
    (found : k.envid2env c envid checkperm = some e) : k.InUse e := by
  rcases Kernel.envid2env_used found with rfl | ⟨small, used, -⟩
  · exact orderly.current e rfl
  · exact ⟨small, used⟩

theorem returns (orderly : Orderly k (some c)) {call : Syscall} {code : Int} (returns : Returns k c call code k₁) :
    Orderly k₁ (some c) := by
  cases returns with
  | quiet => exact orderly.setMem _
  | refused => exact orderly
  | create e k₁ allocated =>
    have made := orderly.envAlloc allocated
    rcases Kernel.envAlloc_ok allocated with ⟨code, impossible, -⟩ | ⟨e', p, mem, same, head, -, caller, rfl⟩
    · cases impossible
    cases same
    refine made.setEnv ⟨rfl, rfl, rfl, rfl, iff_of_false (by simp) ?_⟩ (by simp)
    rw [Kernel.say_envs, Kernel.setEnvFreeList_envs, Kernel.setEnv_envs, if_pos rfl]
    simp [Kernel.newEnv]
  | status envid e status found legal => exact orderly.setStatus (orderly.used found) legal
  | upcall envid func e found =>
    exact orderly.setEnv ⟨rfl, rfl, rfl, rfl, Iff.rfl⟩ fun small => ⟨orderly.running e small, orderly.alive e small⟩
  | mark envid e found other running =>
    have current := orderly.running e (orderly.used found).1 running
    exact absurd (Option.some.inj current).symm other
  | destroy envid e k₁ found other notRunning freed =>
    have freed := orderly.envFree (orderly.used found) freed
    rwa [if_neg (by simpa using Ne.symm other)] at freed
  | deliver envid value srcva perm target mem given found recving page =>
    have inUse := orderly.used found
    have before : Orderly ((k.setMem mem).setIpcPerm target given) (some c) :=
      (orderly.setMem mem).setEnv ⟨rfl, rfl, rfl, rfl, Iff.rfl⟩ fun small =>
        ⟨orderly.running target small, orderly.alive target small⟩
    refine before.setEnv ⟨rfl, rfl, rfl, rfl, iff_of_false (by simp) ?_⟩ (by simp)
    rw [Kernel.setIpcPerm, Kernel.setEnv_envs, if_pos rfl]
    exact inUse.2

theorem trap (orderly : Orderly k (some c)) {tf : Trapframe} {cr2 : Word} {key : Int}
    (done : k.trap c tf cr2 key = .ok (k', cur')) :
    Orderly k' cur' ∧ ∀ e, cur' = some e → (k'.envs e).envStatus = .running := by
  have inUse := orderly.current c rfl
  have saved := orderly.setTf c tf
  have handled := Kernel.trap_handled done
  cases handled with
  | reaped k₁ dying freed yields => exact absurd dying (orderly.alive c inUse.1)
  | redirected mem rsp alive fault upcall resumed redirects =>
    cases resumed
    have before : Orderly (k.redirected c tf mem rsp) (some c) := (orderly.setMem mem).setTf c _
    refine before.exits redirects ?_
    rintro e ⟨⟩
    exact inUse.1
  | handled k₁ cur alive effect yields =>
    have left : ∀ {cur : Option Nat}, Orderly k₁ cur → Yields k₁ cur k' cur' →
        Orderly k' cur' ∧ ∀ e, cur' = some e → (k'.envs e).envStatus = .running := by
      intro cur before yields
      exact before.exits yields.toExits (yields.slot fun e here => (before.current e here).1)
    cases effect with
    | answered call code k₁ made returns => exact left ((saved.returns returns).setTf c _) yields
    | blocked dstva made =>
      refine left (saved.setEnv ⟨rfl, rfl, rfl, rfl, iff_of_false (by simp) ?_⟩ (by simp)) yields
      rw [Kernel.setTf_envStatus]
      exact inUse.2
    | yielded | ignored => exact left saved yields
    | ended mem k₁ rsp kept timer spurious freed =>
      have freed := ((saved.setTf c _).setMem mem).envFree ⟨inUse.1, by simpa using inUse.2⟩ freed
      rw [if_pos rfl] at freed
      exact left freed yields

end Orderly

theorem BootConfig.kernel_orderly (config : BootConfig) (envs : Nat → Env) : Orderly (config.kernel envs) none := by
  obtain ⟨table, unused⟩ := config.kernel_table envs
  have free : ∀ e, e < nenv → ((config.kernel envs).envs e).envStatus = .free := by
    intro e small
    by_contra used
    exact unused e ⟨small, used⟩
  refine ⟨table, fun e inUse => absurd inUse (unused e), fun e inUse => absurd inUse (unused e), by simp, ?_, ?_⟩
  · intro e small running
    rw [free e small] at running
    cases running
  · intro e small
    rw [free e small]
    simp

theorem BootOp.run_orderly {op : BootOp} (orderly : Orderly k none) (ran : op.run k = .ok k') : Orderly k' none := by
  cases op with
  | map la pa perm =>
    obtain ⟨mem, -, rfl⟩ := Fallible.map_ok.mp ran
    exact orderly.setMem mem
  | create program =>
    obtain ⟨⟨result, k₁⟩, allocated, rest⟩ := Fallible.bind_ok.mp ran
    have made := orderly.envAlloc allocated
    cases result with
    | error code => cases rest
    | ok e =>
      obtain ⟨root, -, rest⟩ := Fallible.bind_ok.mp rest
      obtain ⟨mem, -, rest⟩ := Fallible.bind_ok.mp rest
      cases rest
      exact (made.setMem mem).setEnv ⟨rfl, rfl, rfl, rfl, Iff.rfl⟩ fun small =>
        ⟨made.running e small, made.alive e small⟩

namespace System

/-- The machine when its CPU calls `sched_yield` for the first time, whatever it has loaded. -/
def Loaded (s : System Unit) : Prop :=
  ∃ (config : BootConfig) (envs : Nat → Env) (ops : List BootOp) (k : Kernel),
    Transition.Run (fun before op after => op.run before = .ok after) (config.kernel envs) ops k ∧ s = idle k

theorem Booted.loaded {s : System Unit} (booted : s.Booted) : s.Loaded := by
  obtain ⟨config, envs, ops, k, run, rfl⟩ := booted
  exact ⟨config, envs, ops, k, run.mono fun _ _ _ step => step.2, rfl⟩

/-- What holds of the table of environments when the CPU is outside the kernel. -/
structure TableInvariant (s : System Unit) : Prop where
  freeList : ∃ nodes, Linked.Chain (fun e => (s.kernel.envs e).envLink) s.kernel.envFreeList nodes ∧ nodes.Nodup ∧
    ∀ e, e ∈ nodes ↔ e < nenv ∧ (s.kernel.envs e).envStatus = .free
  ids : ∀ e, s.kernel.InUse e → 0 < (s.kernel.envs e).envId.toInt ∧ envx (s.kernel.envs e).envId = e
  distinct : ∀ e e', s.kernel.InUse e → s.kernel.InUse e' → (s.kernel.envs e).envId = (s.kernel.envs e').envId → e = e'
  pml4e : ∀ e, s.kernel.InUse e → (s.kernel.envs e).envPml4e ≠ none
  running : ∀ e, e < nenv → (s.kernel.envs e).envStatus = .running → (s.cpus ()).cpuEnv = some e
  alive : ∀ e, e < nenv → (s.kernel.envs e).envStatus ≠ .dying

structure Orderly (s : System Unit) : Prop where
  table : Jos.Orderly s.kernel (s.cpus ()).cpuEnv
  current : ∀ e, (s.cpus ()).cpuEnv = some e → (s.kernel.envs e).envStatus = .running
  idle : (s.cpus ()).cpuStatus ≠ .started → (s.cpus ()).cpuEnv = none

variable {s s' : System Unit} {event : Event Unit}

theorem Orderly.tableInvariant (orderly : s.Orderly) : s.TableInvariant where
  freeList := by
    obtain ⟨nodes, chain, members⟩ := orderly.table.table.freeList
    exact ⟨nodes, chain, Linked.chain_nodup chain, members⟩
  ids := fun e inUse => ⟨orderly.table.positive e inUse, orderly.table.table.ids e inUse.1 inUse.2⟩
  distinct := by
    intro e e' inUse inUse' same
    have id := orderly.table.table.ids e inUse.1 inUse.2
    rw [same, orderly.table.table.ids e' inUse'.1 inUse'.2] at id
    exact id.symm
  pml4e := orderly.table.pml4e
  running := orderly.table.running
  alive := orderly.table.alive

theorem Loaded.orderly (loaded : s.Loaded) : s.Orderly := by
  obtain ⟨config, envs, ops, k, run, rfl⟩ := loaded
  have booted : (fun k => Jos.Orderly k none) k :=
    run.invariant (fun _ _ _ orderly ran => BootOp.run_orderly orderly ran) (config.kernel_orderly envs)
  refine ⟨booted, ?_, fun _ => rfl⟩
  intro e current
  cases current

theorem orderly_leave {k : Kernel} {cur : Option Nat} (table : Jos.Orderly k cur)
    (current : ∀ e, cur = some e → (k.envs e).envStatus = .running) : (s.leave () k cur).Orderly := by
  refine ⟨table, current, ?_⟩
  intro away
  change cur = none
  cases cur with
  | none => rfl
  | some e => exact absurd rfl away

theorem Orderly.step (orderly : s.Orderly) (step : Step s event s') : s'.Orderly := by
  have yields : ∀ {k : Kernel} {cur : Option Nat}, (s.cpus ()).cpuEnv = none →
      s.kernel.schedYield none = .ok (k, cur) → (s.leave () k cur).Orderly := by
    intro k cur none yield
    have before := orderly.table
    rw [none] at before
    have yields := schedYield_yields yield
    obtain ⟨table, current⟩ := before.exits yields.toExits (yields.slot (by simp))
    exact orderly_leave table current
  cases step with
  | start c k cur unused yield => exact yields (orderly.idle (by simp [unused])) yield
  | wake c k cur halted yield => exact yields (orderly.idle (by simp [halted])) yield
  | trap c tf cr2 key e k cur running user entry =>
    have before := orderly.table
    rw [running] at before
    obtain ⟨table, current⟩ := before.trap entry
    exact orderly_leave table current
  | store c va byte after stored =>
    obtain ⟨e, root, translation, -, -, -, -, -, -, rfl⟩ := stored
    exact ⟨orderly.table.setMem _, orderly.current, orderly.idle⟩

theorem Orderly.run {events : List (Event Unit)} (orderly : s.Orderly) (run : Transition.Run Step s events s') :
    s'.Orderly :=
  run.invariant (fun _ _ _ orderly step => orderly.step step) orderly

/-- The only CPU overwrites nobody's status, and there is no environment that is dying. -/
theorem Orderly.respectful (orderly : s.Orderly) (event : Event Unit) : s.Respectful event := by
  cases event with
  | trap c tf cr2 key =>
    intro e call running alive made
    have alone : ∀ target, ¬ s.Elsewhere c target := fun target ⟨other, different, _⟩ => different rfl
    cases call with
    | envSetStatus envid status => exact fun target _ _ => alone target
    | ipcTrySend envid value srcva perm => exact fun target _ _ => alone target
    | envDestroy envid =>
      intro target found
      have before := orderly.table
      rw [running] at before
      have saved := before.setTf e tf
      exact saved.alive target (saved.used found).1
    | _ => trivial
  | _ => trivial

end System

end Jos
