import JosKernel.Env.Boot
import JosKernel.Env.Views
import JosKernel.Sched.Exclusive

namespace Jos

-- The arithmetic of ids

theorem clearIndex_toNat (envid : BitVec 32) :
    (envid &&& ~~~BitVec.ofNat 32 (nenv - 1)).toNat = envid.toNat / 1024 * 1024 := by
  apply Nat.eq_of_testBit_eq
  intro i
  have low : ∀ j : Fin 32, (~~~BitVec.ofNat 32 (nenv - 1)).getLsbD j.val = decide (10 ≤ j.val) := by decide
  rw [BitVec.testBit_toNat, BitVec.getLsbD_and, show (1024 : Nat) = 2^10 from rfl, Nat.testBit_mul_two_pow,
    Nat.testBit_div_two_pow, BitVec.testBit_toNat]
  by_cases small : i < 32
  · rw [low ⟨i, small⟩]
    by_cases high : 10 ≤ i
    · simp [high]
    · simp [high]
  · rw [BitVec.getLsbD_of_ge _ i (by omega), BitVec.getLsbD_of_ge _ (i - 10 + 10) (by omega)]
    simp

/-- The next id of slot `e`: one generation on, unless the sum is negative as a C `int`. -/
theorem nextEnvId_toNat (last : BitVec 32) {e : Nat} (small : e < nenv) : (nextEnvId last e).toNat =
    if (last.toNat + 4096) % 2^32 / 1024 = 0 ∨ 2^31 ≤ (last.toNat + 4096) % 2^32 then 4096 + e
    else (last.toNat + 4096) % 2^32 / 1024 * 1024 + e := by
  have generation : ((last + 0x1000) &&& ~~~BitVec.ofNat 32 (nenv - 1)).toNat =
      (last.toNat + 4096) % 2^32 / 1024 * 1024 := by
    rw [clearIndex_toNat, BitVec.toNat_add]
    rfl
  have index : (BitVec.ofNat 32 e).toNat = e := by
    rw [BitVec.toNat_ofNat, Nat.mod_eq_of_lt (by rw [nenv] at small; omega)]
  have joined : ∀ n, n * 1024 ||| e = n * 1024 + e := by
    intro n
    rw [Nat.mul_comm]
    exact (Nat.two_pow_add_eq_or_of_lt (show e < 2^10 from small) n).symm
  unfold nextEnvId
  simp only [BitVec.toNat_or, index]
  have sign : ((last + 0x1000) &&& ~~~BitVec.ofNat 32 (nenv - 1)).toInt ≤ 0 ↔
      (last.toNat + 4096) % 2^32 / 1024 = 0 ∨ 2^31 ≤ (last.toNat + 4096) % 2^32 := by
    rw [BitVec.toInt_eq_toNat_cond, generation]
    split <;> omega
  by_cases wraps : ((last + 0x1000) &&& ~~~BitVec.ofNat 32 (nenv - 1)).toInt ≤ 0
  · rw [if_pos wraps, if_pos (sign.mp wraps)]
    exact joined 4
  · rw [if_neg wraps, if_neg (fun bound => wraps (sign.mpr bound)), generation]
    exact joined _

theorem nextEnvId_pos (last : BitVec 32) {e : Nat} (small : e < nenv) : 0 < (nextEnvId last e).toInt := by
  have value := nextEnvId_toNat last small
  rw [BitVec.toInt_eq_toNat_cond, value]
  rw [nenv] at small
  split <;> split <;> omega

def generations : Nat := 524287

/-- The id that slot `e` has after it has been handed out `n + 1` times. -/
def envIdAt (e n : Nat) : BitVec 32 := BitVec.ofNat 32 (4096 * (n % generations + 1) + e)

theorem envIdAt_toNat {e : Nat} (small : e < nenv) (n : Nat) :
    (envIdAt e n).toNat = 4096 * (n % generations + 1) + e := by
  have bound : n % generations < generations := Nat.mod_lt n (by decide)
  rw [nenv] at small
  rw [generations] at bound
  rw [envIdAt, BitVec.toNat_ofNat, generations]
  omega

theorem nextEnvId_zero {e : Nat} (small : e < nenv) : nextEnvId 0 e = envIdAt e 0 := by
  apply BitVec.eq_of_toNat_eq
  rw [nextEnvId_toNat 0 small, envIdAt_toNat small, show (0 : BitVec 32).toNat = 0 from rfl]
  unfold generations
  split <;> omega

theorem nextEnvId_envIdAt {e : Nat} (small : e < nenv) (n : Nat) : nextEnvId (envIdAt e n) e = envIdAt e (n + 1) := by
  apply BitVec.eq_of_toNat_eq
  rw [nextEnvId_toNat _ small, envIdAt_toNat small, envIdAt_toNat small]
  rw [nenv] at small
  unfold generations
  split <;> omega

theorem envIdAt_inj {e n m : Nat} (small : e < nenv) :
    envIdAt e n = envIdAt e m ↔ n % generations = m % generations := by
  rw [← BitVec.toNat_inj, envIdAt_toNat small, envIdAt_toNat small]
  omega

-- Runs of `env_alloc` and `env_free`

/-- In between the rest of the kernel may do what it likes, except to the ids and the free list. -/
inductive EnvOp
  | alloc (cur : Option Nat) (parentId : BitVec 32)
  | free (cur : Option Nat) (e : Nat)
  | work (mem : Memory)

def EnvOp.Step (k : Kernel) : EnvOp → Kernel → Prop
  | alloc cur parentId, k' => ∃ result, k.envAlloc cur parentId = .ok (result, k')
  | free cur e, k' => k.InUse e ∧ k.envFree cur e = .ok k'
  | work mem, k' => Touches (fun _ => True) (k.setMem mem) k'

def Notice.made : Notice → Option (BitVec 32)
  | .newEnv _ envid => some envid
  | .freeEnv _ _ => none

def handedOut (log : List Notice) : List (BitVec 32) := log.filterMap Notice.made

def issued (log : List Notice) (e : Nat) : List (BitVec 32) :=
  (handedOut log).filter fun envid => envx envid = e

/-- No two calls of `env_alloc` have returned the same id, and none that has been freed since is accepted. -/
structure Kernel.NeverStale (k : Kernel) : Prop where
  distinct : (handedOut k.console).Nodup
  refused : ∀ before middle caller envid, k.console = before ++ .newEnv caller envid :: middle →
    (∃ freer, .freeEnv freer envid ∈ middle) → ∀ cur checkperm, k.envid2env cur envid checkperm = none

theorem issued_append (log more : List Notice) (e : Nat) : issued (log ++ more) e = issued log e ++ issued more e := by
  simp [issued, handedOut]

theorem issued_snoc_new (log : List Notice) (caller envid : BitVec 32) (e : Nat) :
    issued (log ++ [.newEnv caller envid]) e = issued log e ++ if envx envid = e then [envid] else [] := by
  rw [issued_append]
  simp [issued, handedOut, Notice.made, List.filter_cons]

theorem issued_snoc_free (log : List Notice) (caller envid : BitVec 32) (e : Nat) :
    issued (log ++ [.freeEnv caller envid]) e = issued log e := by
  rw [issued_append]
  simp [issued, handedOut, Notice.made]

def lastId (e : Nat) : Nat → BitVec 32
  | 0 => 0
  | n + 1 => envIdAt e n

theorem nextEnvId_lastId {e : Nat} (small : e < nenv) (n : Nat) : nextEnvId (lastId e n) e = envIdAt e n := by
  cases n with
  | zero => exact nextEnvId_zero small
  | succ n => exact nextEnvId_envIdAt small n

structure Numbered (k : Kernel) : Prop where
  table : EnvTable k
  log : Incarnations k
  ids : ∀ e, e < nenv → ∃ n, issued k.console e = (List.range n).map (envIdAt e) ∧ (k.envs e).envId = lastId e n

namespace Numbered

variable {k k' : Kernel}

theorem alloc (numbered : Numbered k) {cur : Option Nat} {parentId : BitVec 32} {result : Except Int Nat}
    (allocated : k.envAlloc cur parentId = .ok (result, k')) : Numbered k' := by
  have table := numbered.table.envAlloc allocated
  have log := numbered.log.envAlloc numbered.table allocated
  refine ⟨table, log, ?_⟩
  rcases Kernel.envAlloc_ok allocated with
    ⟨code, rfl, ⟨-, rfl⟩ | ⟨mem, -, rfl⟩⟩ | ⟨e, p, mem, rfl, head, -, caller, rfl⟩
  · exact numbered.ids
  · exact numbered.ids
  intro other inside
  have small := (numbered.table.head_free head).1
  obtain ⟨n, had, last⟩ := numbered.ids other inside
  simp only [Kernel.say_console, Kernel.setEnvFreeList_console, Kernel.setEnv_console, Kernel.setMem_console,
    Kernel.say_envs, Kernel.setEnvFreeList_envs, Kernel.setEnv_envs, Kernel.setMem_envs]
  rw [issued_snoc_new, envx_nextEnvId _ small, had]
  by_cases here : other = e
  · subst here
    refine ⟨n + 1, ?_, ?_⟩
    · rw [if_pos rfl, last, nextEnvId_lastId small, List.range_succ, List.map_append]
      rfl
    · rw [if_pos rfl]
      change nextEnvId (k.envs other).envId other = envIdAt other n
      rw [last, nextEnvId_lastId small]
  · refine ⟨n, ?_, ?_⟩
    · rw [if_neg (Ne.symm here), List.append_nil]
    · rw [if_neg here, last]

theorem free (numbered : Numbered k) {cur : Option Nat} {e : Nat} (inUse : k.InUse e)
    (freed : k.envFree cur e = .ok k') : Numbered k' := by
  have table := numbered.table.envFree inUse.1 inUse.2 freed
  have log := numbered.log.envFree numbered.table inUse.1 inUse.2 freed
  refine ⟨table, log, ?_⟩
  obtain ⟨root, mem, -, -, rfl⟩ := Kernel.envFree_ok freed
  intro other inside
  obtain ⟨n, had, last⟩ := numbered.ids other inside
  refine ⟨n, (issued_snoc_free k.console _ _ other).trans had, ?_⟩
  rw [Kernel.setEnvFreeList_envs, Kernel.setEnv_envs]
  split
  · rename_i here
    rw [← last, here]
  · exact last

theorem work (numbered : Numbered k) {mem : Memory} (touches : Touches (fun _ => True) (k.setMem mem) k') :
    Numbered k' := by
  refine ⟨(numbered.table.setMem mem).touches touches, ⟨?_, ?_⟩, ?_⟩
  · rw [touches.console]
    exact numbered.log.freedOnce
  · intro e small used
    rw [touches.console, (touches.slot e).envId]
    exact numbered.log.alive e small (mt (touches.slot e).free.mpr used)
  · intro e small
    rw [touches.console, (touches.slot e).envId]
    exact numbered.ids e small

theorem step {op : EnvOp} (numbered : Numbered k) (step : op.Step k k') : Numbered k' := by
  cases op with
  | alloc cur parentId =>
    obtain ⟨result, allocated⟩ := step
    exact numbered.alloc allocated
  | free cur e => exact numbered.free step.1 step.2
  | work mem => exact numbered.work step

end Numbered

-- Ids that come once

/-- A list has no duplicates if and only if none of its classes under `f` has any. -/
theorem nodup_iff_classes {α β : Type*} [DecidableEq α] [DecidableEq β] (f : α → β) (items : List α) :
    items.Nodup ↔ ∀ b, (items.filter fun item => f item = b).Nodup := by
  constructor
  · intro distinct b
    exact distinct.filter _
  · intro classes
    rw [List.nodup_iff_count_le_one]
    intro item
    have once := List.nodup_iff_count_le_one.mp (classes (f item)) item
    rwa [List.count_filter (by simp)] at once

theorem envIds_nodup {e : Nat} (small : e < nenv) (n : Nat) :
    ((List.range n).map (envIdAt e)).Nodup ↔ n ≤ generations := by
  rw [List.nodup_map_iff_inj_on List.nodup_range]
  constructor
  · intro distinct
    by_contra many
    have repeated := distinct 0 (List.mem_range.mpr (by omega)) generations (List.mem_range.mpr (by omega))
      ((envIdAt_inj small).mpr (by rw [Nat.mod_self, Nat.zero_mod]))
    exact absurd repeated (by decide)
  · intro few i inside j inside' same
    have short := List.mem_range.mp inside
    have short' := List.mem_range.mp inside'
    have index := (envIdAt_inj small).mp same
    rwa [Nat.mod_eq_of_lt (by omega), Nat.mod_eq_of_lt (by omega)] at index

theorem mem_handedOut (before after : List Notice) (caller envid : BitVec 32) :
    envid ∈ handedOut (before ++ .newEnv caller envid :: after) := by
  simp [handedOut, Notice.made]

/-- An id that is handed out once is no longer alive when it has been freed since. -/
theorem Alive.not_freed {before after : List Notice} {caller envid : BitVec 32}
    (distinct : (handedOut (before ++ .newEnv caller envid :: after)).Nodup)
    (alive : Alive (before ++ .newEnv caller envid :: after) envid) (freer : BitVec 32) :
    .freeEnv freer envid ∉ after := by
  intro freed
  obtain ⟨early, caller', late, split, quiet⟩ := alive
  rcases List.append_eq_append_iff.mp split with ⟨between, rfl, rest⟩ | ⟨between, rfl, rest⟩
  · cases between with
    | nil =>
      cases rest
      exact quiet _ freed rfl
    | cons notice between =>
      cases rest
      have again := mem_handedOut between late caller' envid
      rw [handedOut, List.filterMap_append, List.nodup_append] at distinct
      have apart := distinct.2.1
      rw [List.filterMap_cons_some (show Notice.made (.newEnv caller envid) = some envid from rfl),
        List.nodup_cons] at apart
      exact apart.1 again
  · cases between with
    | nil =>
      cases rest
      exact quiet _ freed rfl
    | cons notice between =>
      cases rest
      exact quiet _ (by simp) (show Notice.slot (.newEnv caller envid) = envx envid from rfl)

namespace Numbered

variable {k k' : Kernel}

theorem initial (k : Kernel) (silent : k.console = []) : Numbered k.envInit := by
  obtain ⟨table, free⟩ := k.envInit_table
  have log : k.envInit.console = [] := by rw [Kernel.envInit_eq, silent]
  refine ⟨table, ⟨?_, fun e small used => absurd (free e small) used⟩, ?_⟩
  · intro before cur envid after split
    rw [log] at split
    exact absurd split (by simp)
  · intro e small
    refine ⟨0, by rw [log]; rfl, ?_⟩
    rw [Kernel.envInit_eq]
    change (if e < nenv then _ else k.envs e : Env).envId = 0
    rw [if_pos small]
    rfl

theorem distinct_iff (numbered : Numbered k) :
    (handedOut k.console).Nodup ↔ ∀ e, e < nenv → (issued k.console e).length ≤ generations := by
  rw [nodup_iff_classes envx]
  constructor
  · intro classes e small
    obtain ⟨n, had, -⟩ := numbered.ids e small
    have once := classes e
    change (issued k.console e).Nodup at once
    rw [had] at once ⊢
    simpa using (envIds_nodup small n).mp once
  · intro few e
    change (issued k.console e).Nodup
    by_cases small : e < nenv
    · obtain ⟨n, had, -⟩ := numbered.ids e small
      have bound := few e small
      rw [had] at bound ⊢
      exact (envIds_nodup small n).mpr (by simpa using bound)
    · rw [issued, List.filter_eq_nil_iff.mpr]
      · exact List.nodup_nil
      · intro envid _ slot
        have := envx_lt envid
        simp only [decide_eq_true_eq] at slot
        omega

theorem handedOut_ne (numbered : Numbered k) {envid : BitVec 32} (member : envid ∈ handedOut k.console) :
    envid ≠ 0 := by
  have small := envx_lt envid
  obtain ⟨n, had, -⟩ := numbered.ids (envx envid) small
  have listed : envid ∈ issued k.console (envx envid) := List.mem_filter.mpr ⟨member, by simp⟩
  rw [had] at listed
  obtain ⟨i, -, same⟩ := List.mem_map.mp listed
  rintro rfl
  have value := envIdAt_toNat small i
  rw [same, show (0 : BitVec 32).toNat = 0 from rfl] at value
  omega

theorem neverStale (numbered : Numbered k) (distinct : (handedOut k.console).Nodup) : k.NeverStale := by
  refine ⟨distinct, ?_⟩
  rintro before middle caller envid log ⟨freer, freed⟩ cur checkperm
  have given : envid ∈ handedOut k.console := by
    rw [log]
    exact mem_handedOut before middle caller envid
  rw [← Option.not_isSome_iff_eq_none, Option.isSome_iff_exists]
  rintro ⟨e, accepted⟩
  unfold Kernel.envid2env at accepted
  simp only at accepted
  rw [if_neg (numbered.handedOut_ne given)] at accepted
  split at accepted
  · cases accepted
  rename_i valid
  rw [not_or, not_not] at valid
  have alive := numbered.log.alive (envx envid) (envx_lt envid) valid.1
  rw [valid.2, log] at alive
  rw [log] at distinct
  exact alive.not_freed distinct freer freed

end Numbered

/-- Ids are never stale in a run exactly as long as no slot has been handed out more often than it has
    generations. -/
theorem envid_never_stale {k k' : Kernel} (silent : k.console = []) {ops : List EnvOp}
    (run : Transition.Run EnvOp.Step k.envInit ops k') :
    k'.NeverStale ↔ ∀ e, e < nenv → (issued k'.console e).length ≤ generations := by
  have numbered : Numbered k' := run.invariant (fun _ _ _ numbered step => numbered.step step)
    (.initial k silent)
  rw [← numbered.distinct_iff]
  exact ⟨fun never => never.distinct, fun distinct => numbered.neverStale distinct⟩

-- The small machine goes through the ids of a slot

def Memory.after {α : Type} (m : Memory) (result : Except Stop (α × Memory)) : Memory :=
  match result with
  | .ok (_, mem) => mem
  | .error _ => m

def Memory.mapText (m : Memory) (root : Nat) : Except Stop (Bool × Memory) := do
  let (page, m) ← m.pageAlloc true
  match page with
  | none => .ok (false, m)
  | some page => m.pageInsert root page utext 7

def parentMemory : Memory := smallMachine.pageInit.after smallMachine.pageInit.envSetupVm

def childMemory : Memory :=
  let m := parentMemory.after parentMemory.envSetupVm
  m.after (m.mapText 2)

/-- The environment in slot 0 makes one in slot 1 and destroys it. All its pages are free again then. -/
def reuse : List EnvOp := [.alloc (some 0) 0x1000, .work childMemory, .free (some 0) 1, .work parentMemory]

def reuses : Nat → List EnvOp
  | 0 => [.alloc none 0]
  | n + 1 => reuses n ++ reuse

structure Reused (n : Nat) (k : Kernel) : Prop where
  mem : k.mem = parentMemory
  head : k.envFreeList = some 1
  status : (k.envs 1).envStatus = .free
  parent : (k.envs 0).envId = 0x1000
  last : (k.envs 1).envId = lastId 1 n
  log : k.console = .newEnv 0 0x1000 ::
    (List.range n).flatMap fun i => [.newEnv 0x1000 (envIdAt 1 i), .freeEnv 0x1000 (envIdAt 1 i)]

theorem smallMachine_parent : ∃ p, smallMachine.pageInit.envSetupVm = .ok (some p, parentMemory) := by
  have found : (smallMachine.pageInit.envSetupVm.toOption.map fun result => result.1) = some (some 1) := by
    decide +kernel
  obtain ⟨⟨p, mem⟩, done, shown⟩ := Option.map_eq_some_iff.mp found
  have setup := Fallible.toOption_eq_some.mp done
  refine ⟨1, ?_⟩
  have after : parentMemory = mem := by
    rw [parentMemory, setup]
    rfl
  rw [setup, after]
  exact congrArg Except.ok (Prod.ext shown rfl)

theorem parentMemory_child : ∃ mem mem', parentMemory.envSetupVm = .ok (some 2, mem) ∧
    childMemory.freeSpace 2 (page2pa 2) = .ok mem' := by
  have found : ((parentMemory.envSetupVm.toOption.map fun result => result.1),
      (childMemory.freeSpace 2 (page2pa 2)).toOption.isSome) = (some (some 2), true) := by
    decide +kernel
  obtain ⟨setup, freed⟩ := Prod.mk.inj found
  obtain ⟨⟨p, mem⟩, done, shown⟩ := Option.map_eq_some_iff.mp setup
  cases shown
  obtain ⟨mem', done'⟩ := Option.isSome_iff_exists.mp freed
  exact ⟨mem, mem', Fallible.toOption_eq_some.mp done, Fallible.toOption_eq_some.mp done'⟩

theorem Reused.alloc {n : Nat} {k : Kernel} (reused : Reused n k) {mem : Memory}
    (setup : parentMemory.envSetupVm = .ok (some 2, mem)) :
    k.envAlloc (some 0) 0x1000 = .ok (.ok 1, (((k.setMem mem).setEnv 1
      (Kernel.newEnv (k.envs 1) 1 2 0x1000)).setEnvFreeList (k.envs 1).envLink).say
        (.newEnv 0x1000 (envIdAt 1 n))) := by
  rw [← reused.mem] at setup
  rw [Kernel.envAlloc_of reused.head setup]
  simp only [Kernel.curId, Option.elim, Kernel.setEnv_envs]
  rw [if_neg (by decide : 0 ≠ 1), reused.parent, reused.last, nextEnvId_lastId (show 1 < nenv by decide)]

theorem Reused.reuse {n : Nat} {k : Kernel} (reused : Reused n k) :
    ∃ k', Transition.Run EnvOp.Step k Jos.reuse k' ∧ Reused (n + 1) k' := by
  obtain ⟨mem, mem', setup, freed⟩ := parentMemory_child
  have made := reused.alloc setup
  generalize born : (((k.setMem mem).setEnv 1 (Kernel.newEnv (k.envs 1) 1 2 0x1000)).setEnvFreeList
    (k.envs 1).envLink).say (.newEnv 0x1000 (envIdAt 1 n)) = k₁ at made
  have child : k₁.envs 1 = Kernel.newEnv (k.envs 1) 1 2 0x1000 := by
    rw [← born, Kernel.say_envs, Kernel.setEnvFreeList_envs, Kernel.setEnv_envs, if_pos rfl]
  have parent : k₁.envs 0 = k.envs 0 := by
    rw [← born, Kernel.say_envs, Kernel.setEnvFreeList_envs, Kernel.setEnv_envs, if_neg (by decide)]
    rfl
  have id : (k₁.envs 1).envId = envIdAt 1 n := by
    rw [child]
    simp only [Kernel.newEnv, reused.last, nextEnvId_lastId (show 1 < nenv by decide)]
  have inUse : (k₁.setMem childMemory).InUse 1 := ⟨by decide, by simp [child, Kernel.newEnv]⟩
  have gone := Kernel.envFree_of (k := k₁.setMem childMemory) (e := 1) (by rw [Kernel.setMem_envs, child]; rfl)
    (by rw [Kernel.setMem_envs, child]; exact freed) (some 0)
  refine ⟨_, .cons ⟨_, made⟩ (.cons (.refl _ _) (.cons ⟨inUse, gone⟩ (.cons (.refl _ _) (.nil _)))), ?_⟩
  refine ⟨rfl, rfl, rfl, ?_, ?_, ?_⟩
  · exact (congrArg Env.envId parent).trans reused.parent
  · exact id
  · have log : k₁.console = k.console ++ [.newEnv 0x1000 (envIdAt 1 n)] := by
      rw [← born]
      rfl
    change k₁.console ++ [.freeEnv (k₁.envs 0).envId (k₁.envs 1).envId] = _
    rw [log, parent, reused.parent, id, reused.log, List.range_succ, List.flatMap_append]
    simp

theorem reuses_run (n : Nat) : ∃ k, Transition.Run EnvOp.Step (smallMachine.kernel fun _ => default) (reuses n) k ∧
    Reused n k := by
  induction n with
  | zero =>
    obtain ⟨p, setup⟩ := smallMachine_parent
    rw [BootConfig.kernel, Kernel.envInit_eq]
    have made := Kernel.envAlloc_of (k := ⟨smallMachine.pageInit, fun e =>
      if e < nenv then (default : Env).unused (if e + 1 = nenv then none else some (e + 1)) else default,
      some 0, []⟩) rfl setup none 0
    exact ⟨_, .cons ⟨_, made⟩ (.nil _), ⟨rfl, rfl, rfl, rfl, rfl, rfl⟩⟩
  | succ n ih =>
    obtain ⟨k, run, reused⟩ := ih
    obtain ⟨k', more, reused'⟩ := reused.reuse
    exact ⟨k', run.append more, reused'⟩

theorem envid_never_stale_once : ∃ k, Transition.Run EnvOp.Step (smallMachine.kernel fun _ => default) (reuses 1) k ∧
    k.NeverStale := by
  obtain ⟨k, run, reused⟩ := reuses_run 1
  refine ⟨k, run, (envid_never_stale (k := ⟨smallMachine.pageInit, fun _ => default, none, []⟩) rfl run).mpr ?_⟩
  intro e _
  rw [reused.log]
  exact (List.length_filter_le _ _).trans (by decide)

/-- The first environment made in slot 1 has been freed, and its id names the last one made there. -/
theorem envid_stale : ∃ k, Transition.Run EnvOp.Step (smallMachine.kernel fun _ => default)
      (reuses generations ++ [.alloc (some 0) 0x1000]) k ∧
    (∃ before middle, k.console = before ++ .newEnv 0x1000 0x1001 :: middle ∧ .freeEnv 0x1000 0x1001 ∈ middle) ∧
    k.envid2env 0 0x1001 true = some 1 ∧ ¬ k.NeverStale := by
  obtain ⟨k, run, reused⟩ := reuses_run generations
  obtain ⟨mem, -, setup, -⟩ := parentMemory_child
  have made := reused.alloc setup
  have again : envIdAt 1 generations = 0x1001 := by
    rw [(envIdAt_inj (m := 0) (by decide)).mpr ((Nat.mod_self generations).trans (Nat.zero_mod _).symm)]
    rfl
  rw [again] at made
  refine ⟨_, run.append (.cons ⟨_, made⟩ (.nil _)), ?_⟩
  have log : ∃ rest, k.console = [.newEnv 0 0x1000] ++ .newEnv 0x1000 0x1001 :: .freeEnv 0x1000 0x1001 :: rest := by
    obtain ⟨n, count⟩ : ∃ n, generations = n + 1 := ⟨524286, rfl⟩
    rw [reused.log, count, List.range_succ_eq_map, List.flatMap_cons]
    exact ⟨_, rfl⟩
  obtain ⟨rest, log⟩ := log
  have id : nextEnvId (k.envs 1).envId 1 = 0x1001 := by
    rw [reused.last, nextEnvId_lastId (show 1 < nenv by decide), again]
  have accepted : ((((k.setMem mem).setEnv 1 (Kernel.newEnv (k.envs 1) 1 2 0x1000)).setEnvFreeList
      (k.envs 1).envLink).say (.newEnv 0x1000 0x1001)).envid2env 0 0x1001 true = some 1 :=
    Kernel.envid2env_child (by decide) (by decide) (by simp [Kernel.newEnv]) id reused.parent.symm true
  have freed : .freeEnv 0x1000 0x1001 ∈ .freeEnv 0x1000 0x1001 :: rest ++ [Notice.newEnv 0x1000 0x1001] := by simp
  have split : k.console ++ [.newEnv 0x1000 0x1001] = [.newEnv 0 0x1000] ++ .newEnv 0x1000 0x1001 ::
      (.freeEnv 0x1000 0x1001 :: rest ++ [.newEnv 0x1000 0x1001]) := by
    rw [log]
    simp
  refine ⟨⟨_, _, split, freed⟩, accepted, ?_⟩
  intro never
  have refused := never.refused _ _ _ _ split ⟨_, freed⟩ 0 true
  rw [accepted] at refused
  cases refused

end Jos
