import JosKernel.Env.Incarnations
import JosKernel.Sched.Slots
import JosKernel.Syscall.Outcomes
import JosKernel.Trap.Entry

namespace Jos

variable {k k' : Kernel} {cur : Option Nat} {e : Nat}

-- Making and freeing environments, as the table and the log see it

theorem EnvTable.envFree (table : EnvTable k) (small : e < nenv) (used : (k.envs e).envStatus ≠ .free)
    (freed : k.envFree cur e = .ok k') : EnvTable k' := by
  obtain ⟨root, mem, -, -, rfl⟩ := Kernel.envFree_ok freed
  exact ((table.say _).setMem mem).put small used rfl rfl

theorem Incarnations.envFree (log : Incarnations k) (table : EnvTable k) (small : e < nenv)
    (used : (k.envs e).envStatus ≠ .free) (freed : k.envFree cur e = .ok k') : Incarnations k' := by
  obtain ⟨root, mem, -, -, rfl⟩ := Kernel.envFree_ok freed
  refine ⟨?_, ?_⟩
  · refine log.freedOnce.snoc ?_
    rintro _ _ ⟨⟩
    exact log.alive e small used
  · intro other inside inUse
    rw [Kernel.setEnvFreeList_envs, Kernel.setEnv_envs] at inUse ⊢
    split at inUse
    · exact absurd rfl inUse
    · rename_i different
      rw [if_neg different]
      refine (log.alive other inside inUse).snoc ?_
      have id : envx (k.envs e).envId = e := table.ids e small used
      have otherId : envx (k.envs other).envId = other := table.ids other inside inUse
      change envx (k.envs e).envId ≠ envx (k.envs other).envId
      rw [id, otherId]
      exact Ne.symm different

theorem EnvTable.envAlloc (table : EnvTable k) {parentId : BitVec 32} {result : Except Int Nat}
    (allocated : k.envAlloc cur parentId = .ok (result, k')) : EnvTable k' := by
  rcases Kernel.envAlloc_ok allocated with
    ⟨code, rfl, ⟨-, rfl⟩ | ⟨mem, -, rfl⟩⟩ | ⟨e, p, mem, rfl, head, -, caller, rfl⟩
  · exact table
  · exact table.setMem mem
  · have id : envx (Kernel.newEnv (k.envs e) e p parentId).envId = e := envx_nextEnvId _ (table.head_free head).1
    exact ((table.setMem mem).take head id (show EnvStatus.runnable ≠ .free by simp)).2.2.say _

theorem Incarnations.envAlloc (log : Incarnations k) (table : EnvTable k) {parentId : BitVec 32}
    {result : Except Int Nat} (allocated : k.envAlloc cur parentId = .ok (result, k')) : Incarnations k' := by
  rcases Kernel.envAlloc_ok allocated with
    ⟨code, rfl, ⟨-, rfl⟩ | ⟨mem, -, rfl⟩⟩ | ⟨e, p, mem, rfl, head, -, caller, rfl⟩
  · exact log
  · exact ⟨log.freedOnce, log.alive⟩
  have small := (table.head_free head).1
  refine ⟨?_, ?_⟩
  · refine log.freedOnce.snoc ?_
    rintro _ _ ⟨⟩
  · intro other inside inUse
    rw [Kernel.say_envs, Kernel.setEnvFreeList_envs, Kernel.setEnv_envs] at inUse ⊢
    by_cases same : other = e
    · rw [if_pos same]
      exact .snoc_new _ _ _
    · rw [if_neg same] at inUse ⊢
      refine (log.alive other inside inUse).snoc ?_
      have otherId : envx (k.envs other).envId = other := table.ids other inside inUse
      change envx (nextEnvId (k.envs e).envId e) ≠ envx (k.envs other).envId
      rw [envx_nextEnvId _ small, otherId]
      exact Ne.symm same

/-- What holds while one CPU is in the kernel with the current environment `cur`. `others` are the
    environments that are current on other CPUs. -/
structure Scheduled (others : Nat → Prop) (k : Kernel) (cur : Option Nat) : Prop where
  table : EnvTable k
  log : Incarnations k
  current : ∀ e, cur = some e → e < nenv ∧ (k.envs e).envStatus ≠ .free ∧ ¬ others e
  elsewhere : ∀ e, others e → e < nenv ∧
    ((k.envs e).envStatus = .running ∨ (k.envs e).envStatus = .dying)

/-- What kernel code is to do: keep the above, and free no environment that is current elsewhere. -/
structure Keeps (others : Nat → Prop) (k k' : Kernel) (cur' : Option Nat) : Prop where
  scheduled : Scheduled others k' cur'
  frees : ∃ notices, k'.console = k.console ++ notices ∧
    ∀ cur envid, .freeEnv cur envid ∈ notices → ¬ others (envx envid)

structure KeepsRunning (others : Nat → Prop) (k k' : Kernel) (cur' : Option Nat) : Prop
    extends Keeps others k k' cur' where
  running : ∀ e, cur' = some e → (k'.envs e).envStatus = .running

def Flow.Keeps {α : Type} (others : Nat → Prop) (k : Kernel) (cur : Nat) : Flow α → Prop
  | .returned _ k' => Jos.Keeps others k k' (some cur)
  | .left k' cur' => KeepsRunning others k k' cur'

variable {others : Nat → Prop} {k'' : Kernel} {cur' : Option Nat}

theorem Keeps.andThen (first : Keeps others k k' cur) (second : Keeps others k' k'' cur') :
    Keeps others k k'' cur' where
  scheduled := second.scheduled
  frees := by
    obtain ⟨early, console, safe⟩ := first.frees
    obtain ⟨late, console', safe'⟩ := second.frees
    refine ⟨early ++ late, by rw [console', console, List.append_assoc], ?_⟩
    intro cur envid member
    rcases List.mem_append.mp member with member | member
    · exact safe cur envid member
    · exact safe' cur envid member

theorem Keeps.andRun (first : Keeps others k k' cur) (second : KeepsRunning others k' k'' cur') :
    KeepsRunning others k k'' cur' :=
  ⟨first.andThen second.toKeeps, second.running⟩

theorem Keeps.andFlow {α : Type} {c : Nat} {flow : Flow α} (first : Keeps others k k' (some c))
    (second : flow.Keeps others k' c) : flow.Keeps others k c := by
  cases flow with
  | returned value k'' => exact first.andThen second
  | left k'' cur'' => exact first.andRun second

namespace Scheduled

theorem keeps_of_console (scheduled : Scheduled others k' cur') (console : k'.console = k.console) :
    Keeps others k k' cur' :=
  ⟨scheduled, [], by simp [console], by simp⟩

theorem refl (scheduled : Scheduled others k cur) : Keeps others k k cur :=
  scheduled.keeps_of_console rfl

theorem setMem (scheduled : Scheduled others k cur) (mem : Memory) : Keeps others k (k.setMem mem) cur :=
  keeps_of_console ⟨scheduled.table.setMem mem, ⟨scheduled.log.freedOnce, scheduled.log.alive⟩,
    scheduled.current, scheduled.elsewhere⟩ rfl

theorem touches {slots : Nat → Prop} (scheduled : Scheduled others k cur) (touches : Touches slots k k')
    (apart : ∀ e, slots e → ¬ others e) : Keeps others k k' cur := by
  refine keeps_of_console ⟨scheduled.table.touches touches, ⟨?_, ?_⟩, ?_, ?_⟩ touches.console
  · rw [touches.console]
    exact scheduled.log.freedOnce
  · intro e small used
    rw [touches.console, (touches.slot e).envId]
    exact scheduled.log.alive e small (mt (touches.slot e).free.mpr used)
  · intro e current
    obtain ⟨small, used, here⟩ := scheduled.current e current
    exact ⟨small, mt (touches.slot e).free.mp used, here⟩
  · intro e elsewhere
    rw [touches.others e fun member => apart e member elsewhere]
    exact scheduled.elsewhere e elsewhere

theorem setEnv {e : Nat} {env : Env} (scheduled : Scheduled others k cur) (here : ¬ others e)
    (same : SameSlot (k.envs e) env) : Keeps others k (k.setEnv e env) cur :=
  scheduled.touches (.setEnv same) (by
    rintro _ rfl
    exact here)

theorem setCurrent {c : Nat} {env : Env} (scheduled : Scheduled others k (some c))
    (same : SameSlot (k.envs c) env) : Keeps others k (k.setEnv c env) (some c) :=
  scheduled.setEnv (scheduled.current c rfl).2.2 same

theorem mark {e : Nat} (scheduled : Scheduled others k cur) (running : (k.envs e).envStatus = .running) :
    Keeps others k (k.setStatus e .dying) cur := by
  have touches : Touches (fun other => other = e) k (k.setStatus e .dying) :=
    .setStatus (by simp [running]) (by simp)
  refine keeps_of_console ⟨scheduled.table.touches touches, ⟨scheduled.log.freedOnce, ?_⟩, ?_, ?_⟩ rfl
  · intro other small used
    rw [(touches.slot other).envId]
    exact scheduled.log.alive other small (mt (touches.slot other).free.mpr used)
  · intro other current
    obtain ⟨small, used, here⟩ := scheduled.current other current
    exact ⟨small, mt (touches.slot other).free.mp used, here⟩
  · intro other elsewhere
    obtain ⟨small, status⟩ := scheduled.elsewhere other elsewhere
    refine ⟨small, ?_⟩
    rw [Kernel.setStatus, Kernel.setEnv_envs]
    split
    · exact .inr rfl
    · exact status

theorem leaves (scheduled : Scheduled others k cur) (leaves : Leaves k cur k' cur')
    (slot : ∀ e, cur' = some e → e < nenv) : KeepsRunning others k k' cur' := by
  have apart : ∀ e, cur' = some e → ¬ others e := by
    intro e current elsewhere
    rcases leaves.chosen e current with runnable | same
    · have status := (scheduled.elsewhere e elsewhere).2
      simp [runnable] at status
    · exact (scheduled.current e same).2.2 elsewhere
  have running : ∀ e, cur' = some e → (k'.envs e).envStatus = .running := by
    intro e current
    rw [leaves.running e current]
  have kept : Keeps others k k' cur := scheduled.touches leaves.touches (by
    rintro e (current | current)
    · exact (scheduled.current e current).2.2
    · exact apart e current)
  have scheduled' := kept.scheduled
  refine ⟨⟨⟨scheduled'.table, scheduled'.log, ?_, scheduled'.elsewhere⟩, kept.frees⟩, running⟩
  intro e current
  exact ⟨slot e current, by simp [running e current], apart e current⟩

theorem schedYield (scheduled : Scheduled others k cur) (yielded : k.schedYield cur = .ok (k', cur')) :
    KeepsRunning others k k' cur' :=
  scheduled.leaves (schedYield_leaves (fun e current => (scheduled.current e current).2.1) yielded)
    (schedYield_slot (fun e current => (scheduled.current e current).1) yielded)

theorem envRun {c : Nat} (scheduled : Scheduled others k (some c))
    (ran : k.envRun (some c) c = .ok (k', cur')) : KeepsRunning others k k' cur' := by
  obtain ⟨small, used, -⟩ := scheduled.current c rfl
  obtain ⟨rfl, leaves⟩ := envRun_leaves used (.inr rfl) ran
  refine scheduled.leaves leaves ?_
  rintro e ⟨⟩
  exact small

theorem leave {α : Type} {c : Nat} {flow : Flow α} (scheduled : Scheduled others k (some c))
    (left : Kernel.leave (k.schedYield (some c)) = .ok flow) : flow.Keeps others k c := by
  obtain ⟨k', cur', yielded, rfl⟩ := leave_ok.mp left
  exact scheduled.schedYield yielded

theorem envFree {e : Nat} (scheduled : Scheduled others k cur) (small : e < nenv)
    (used : (k.envs e).envStatus ≠ .free) (here : ¬ others e) (freed : k.envFree cur e = .ok k') :
    Keeps others k k' (if cur = some e then none else cur) := by
  have table := scheduled.table.envFree small used freed
  have log := scheduled.log.envFree scheduled.table small used freed
  have id := scheduled.table.ids e small used
  obtain ⟨root, mem, -, -, rfl⟩ := Kernel.envFree_ok freed
  refine ⟨⟨table, log, ?_, ?_⟩, [.freeEnv (k.curId cur) (k.envs e).envId], rfl, ?_⟩
  · intro other current
    split at current
    · cases current
    · rename_i different
      obtain ⟨inside, inUse, apart⟩ := scheduled.current other current
      rw [Kernel.setEnvFreeList_envs, Kernel.setEnv_envs, if_neg (by rintro rfl; exact different current)]
      exact ⟨inside, inUse, apart⟩
  · intro other elsewhere
    rw [Kernel.setEnvFreeList_envs, Kernel.setEnv_envs, if_neg (by rintro rfl; exact here elsewhere)]
    exact scheduled.elsewhere other elsewhere
  · intro cur envid member
    cases List.mem_singleton.mp member
    rwa [id]

theorem envDestroy {c e : Nat} {flow : Flow Unit} (scheduled : Scheduled others k (some c)) (small : e < nenv)
    (used : (k.envs e).envStatus ≠ .free) (alive : (k.envs e).envStatus ≠ .dying ∨ e = c)
    (destroyed : k.envDestroy (some c) e = .ok flow) : flow.Keeps others k c := by
  unfold Kernel.envDestroy at destroyed
  split at destroyed
  · rename_i marked
    cases destroyed
    exact scheduled.mark marked.1
  · rename_i unmarked
    have here : ¬ others e := by
      intro elsewhere
      have status := (scheduled.elsewhere e elsewhere).2
      by_cases current : e = c
      · rw [current] at elsewhere
        exact (scheduled.current c rfl).2.2 elsewhere
      · have notDying := alive.resolve_right current
        simp only [notDying, or_false] at status
        exact unmarked ⟨status, by simpa using Ne.symm current⟩
    obtain ⟨k₁, freed, rest⟩ := Fallible.bind_ok.mp destroyed
    have kept := scheduled.envFree small used here freed
    split at rest
    · rename_i current
      rw [if_pos current] at kept
      obtain ⟨k', cur', yielded, rfl⟩ := leave_ok.mp rest
      exact kept.andRun (kept.scheduled.schedYield yielded)
    · rename_i different
      rw [if_neg different] at kept
      cases rest
      exact kept

theorem envAlloc {parentId : BitVec 32} {result : Except Int Nat} (scheduled : Scheduled others k cur)
    (allocated : k.envAlloc cur parentId = .ok (result, k')) :
    Keeps others k k' cur ∧ ∀ e, result = .ok e → ¬ others e ∧ (k'.envs e).envStatus = .runnable := by
  have table := scheduled.table.envAlloc allocated
  have log := scheduled.log.envAlloc scheduled.table allocated
  rcases Kernel.envAlloc_ok allocated with
    ⟨code, rfl, ⟨-, rfl⟩ | ⟨mem, -, rfl⟩⟩ | ⟨e, p, mem, rfl, head, -, caller, rfl⟩
  · exact ⟨scheduled.refl, by simp⟩
  · exact ⟨scheduled.setMem mem, by simp⟩
  have free := (scheduled.table.head_free head).2
  have apart : ∀ other, (k.envs other).envStatus ≠ .free → other ≠ e := by
    rintro other used rfl
    exact used free
  have here : ¬ others e := by
    intro elsewhere
    have status := (scheduled.elsewhere e elsewhere).2
    rw [free] at status
    simp at status
  refine ⟨⟨⟨table, log, ?_, ?_⟩, [.newEnv caller _], rfl, by simp⟩, ?_⟩
  · intro other current
    obtain ⟨inside, inUse, otherHere⟩ := scheduled.current other current
    rw [Kernel.say_envs, Kernel.setEnvFreeList_envs, Kernel.setEnv_envs, if_neg (apart other inUse)]
    exact ⟨inside, inUse, otherHere⟩
  · intro other elsewhere
    rw [Kernel.say_envs, Kernel.setEnvFreeList_envs, Kernel.setEnv_envs,
      if_neg (by rintro rfl; exact here elsewhere)]
    exact scheduled.elsewhere other elsewhere
  · rintro other ⟨⟩
    refine ⟨here, ?_⟩
    rw [Kernel.say_envs, Kernel.setEnvFreeList_envs, Kernel.setEnv_envs, if_pos rfl]
    rfl

end Scheduled

end Jos
