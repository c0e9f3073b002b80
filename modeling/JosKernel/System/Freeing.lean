import JosKernel.Env.Footprint
import JosKernel.Env.Reclaim
import JosKernel.System.Sound

namespace Jos

-- What `env_free` reads and releases

/-- Taking an environment apart reads no tables but those that its PML4 leads to, gives up references only
    of pages that their entries refer to, and frees none of the reserved pages. -/
structure Kernel.FreesOwn (reserved : Nat → Prop) (k : Kernel) (cur : Option Nat) (e root : Nat) : Prop where
  reads : ∀ mem, Memory.Agree (k.mem.Reached root) k.mem mem →
    Fallible.Related (fun after after' => ∃ mem', after' = after.setMem mem' ∧
      Memory.Agree (k.mem.Reached root) after.mem mem') (k.envFree cur e) ((k.setMem mem).envFree cur e)
  decrements : ∀ k', k.envFree cur e = .ok k' → ∀ page, k'.mem.ppRef page ≠ k.mem.ppRef page →
    k.mem.RefersTo root page
  keeps : ∀ k', k.envFree cur e = .ok k' → ∀ page, reserved page → ¬ k'.mem.OnFreeList page

theorem Kernel.rooted_of_present {k : Kernel} {e root : Nat} (pml4e : (k.envs e).envPml4e = some root)
    (present : Present (k.mem.word root 0)) : k.Rooted e := by
  intro other pml4e'
  rw [pml4e] at pml4e'
  cases pml4e'
  exact present

theorem Kernel.envFree_footprint {k : Kernel} {e root : Nat} {mem : Memory} (cur : Option Nat)
    (pml4e : (k.envs e).envPml4e = some root) (present : Present (k.mem.word root 0))
    (agree : Memory.Agree (k.mem.Reached root) k.mem mem) :
    Fallible.Related (fun after after' => ∃ mem', after' = after.setMem mem' ∧
      Memory.Agree (k.mem.Reached root) after.mem mem') (k.envFree cur e) ((k.setMem mem).envFree cur e) := by
  have own : (k.say (.freeEnv (k.curId cur) (k.envs e).envId)).pml4eOf e = .ok root := Kernel.pml4eOf_ok.mpr pml4e
  have own' : ((k.setMem mem).say (.freeEnv ((k.setMem mem).curId cur) ((k.setMem mem).envs e).envId)).pml4eOf e =
      .ok root := Kernel.pml4eOf_ok.mpr pml4e
  have footprint := Memory.freeSpace_footprint agree present (k.envs e).envCr3
  simp only [Kernel.envFree]
  rw [Fallible.bind_of_ok own, Fallible.bind_of_ok own']
  exact footprint.bind fun mem₁ mem₁' agree₁ => .ok ⟨mem₁', rfl, agree₁⟩

namespace Spaces

variable {reserved : Nat → Prop} {k : Kernel} {g : Layout}

theorem envFree_done (spaces : Spaces reserved k g) {e : Nat} (inUse : k.InUse e) (rooted : k.Rooted e)
    (cur : Option Nat) : ∃ k', k.envFree cur e = .ok k' := by
  obtain ⟨root, pml4e, cr3, role, notBoot⟩ := spaces.space e inUse
  obtain ⟨mem, -, done, -, -⟩ := spaces.memory.freeSpace role notBoot (rooted root pml4e)
  rw [← cr3] at done
  exact ⟨_, Kernel.envFree_of pml4e done cur⟩

theorem envFree_own (spaces : Spaces reserved k g) {e root : Nat} (inUse : k.InUse e)
    (pml4e : (k.envs e).envPml4e = some root) (present : Present (k.mem.word root 0)) (cur : Option Nat) :
    k.FreesOwn reserved cur e root := by
  have rooted := Kernel.rooted_of_present pml4e present
  refine ⟨fun mem agree => Kernel.envFree_footprint cur pml4e present agree, ?_, ?_⟩
  · intro k' freed page changed
    obtain ⟨⟨root', g', pml4e', -, teardown, -⟩, -, -⟩ := spaces.envFree inUse rooted freed
    rw [pml4e] at pml4e'
    cases pml4e'
    exact teardown.counts page changed
  · intro k' freed page isReserved onFreeList
    obtain ⟨⟨root', g', pml4e', spaces', teardown, -⟩, -, -⟩ := spaces.envFree inUse rooted freed
    have free := (spaces'.memory.onFreeList_iff page).mp onFreeList
    rcases spaces'.kept page isReserved with kept | rfl
    · rw [kept] at free
      cases free
    · rw [spaces'.memory.tables.boot] at free
      cases free

end Spaces

namespace System

variable {C : Type} [DecidableEq C]

/-- In every run that leaves the kernel unconfused `env_free` keeps to what belongs to the environment,
    provided that its PML4 has entry 0. -/
theorem frees_own (config : BootConfig) (envs : Nat → Env) {ops : List BootOp} {k : Kernel} {events : List (Event C)}
    {s : System C} (booted : Transition.Run BootOp.Step (config.kernel envs) ops k)
    (run : Transition.Run (Transition.Guarded Guard Step) (idle k) events s) {e root : Nat}
    (inUse : s.kernel.InUse e) (pml4e : (s.kernel.envs e).envPml4e = some root)
    (present : Present (s.kernel.mem.word root 0)) (cur : Option Nat) :
    (∃ k', s.kernel.envFree cur e = .ok k') ∧ s.kernel.FreesOwn config.Reserved cur e root := by
  obtain ⟨g, spaces⟩ := ((sound_idle booted).run run).spaces
  have rooted := Kernel.rooted_of_present pml4e present
  exact ⟨spaces.envFree_done inUse rooted cur, spaces.envFree_own inUse pml4e present cur⟩

theorem frees_own_started : ∃ s : System Bool, (s.cpus false).cpuEnv = some 0 ∧
    (s.kernel.envs 0).envPml4e = some 1 ∧ (∃ k', s.kernel.envFree (some 0) 0 = .ok k') ∧
    s.kernel.FreesOwn smallMachine.Reserved (some 0) 0 1 := by
  have result : (guardedRun [.start false]).map (fun s : System Bool => ((s.cpus false).cpuEnv,
      (s.kernel.envs 0).envStatus, (s.kernel.envs 0).envPml4e, decide (Present (s.kernel.mem.word 1 0)))) =
      some (some 0, .running, some 1, true) := by
    rw [guardedRun, smallBoot_eq]
    decide +kernel
  obtain ⟨s, done, shown⟩ := Option.map_eq_some_iff.mp result
  obtain ⟨k, booted, run⟩ := guardedRun_run done
  have current : (s.cpus false).cpuEnv = some 0 := congrArg Prod.fst shown
  have status : (s.kernel.envs 0).envStatus = .running := congrArg (fun seen => seen.2.1) shown
  have pml4e : (s.kernel.envs 0).envPml4e = some 1 := congrArg (fun seen => seen.2.2.1) shown
  have present : Present (s.kernel.mem.word 1 0) := of_decide_eq_true (congrArg (fun seen => seen.2.2.2) shown)
  exact ⟨s, current, pml4e, frees_own smallMachine (fun _ => default) booted run ⟨by decide, by simp [status]⟩
    pml4e present (some 0)⟩

def forkOnly : List (Event Bool) := [.start false, .trap false (syscallTf 7 0 0 0 0 0) 0 0]

/-- Freeing the child gives up page 0. -/
theorem forkOnly_freesReserved : ∃ s₀ s : System Bool, ∃ k', s₀.Booted ∧ Transition.Run Step s₀ forkOnly s ∧
    s.kernel.InUse 1 ∧ (s.kernel.envs 1).envPml4e = some 6 ∧ ¬ Present (s.kernel.mem.word 6 0) ∧
    s.kernel.envFree none 1 = .ok k' ∧ smallMachine.Reserved 0 ∧ k'.mem.OnFreeList 0 ∧
    ¬ s.kernel.FreesOwn smallMachine.Reserved none 1 6 := by
  have result : ((smallRun forkOnly).bind fun s => (s.kernel.envFree none 1).toOption.map fun k' =>
      (((s.kernel.envs 1).envStatus, (s.kernel.envs 1).envPml4e, decide (Present (s.kernel.mem.word 6 0))),
        k'.mem.pageFreeList, [6, 0, 10, 11, 12, 13, 14, 15].map k'.mem.ppLink)) =
      some ((.notRunnable, some 6, false), some 6,
        [some 0, some 10, some 11, some 12, some 13, some 14, some 15, none]) := by
    rw [smallRun, smallBoot_eq]
    decide +kernel
  obtain ⟨s, done, rest⟩ := Option.bind_eq_some_iff.mp result
  obtain ⟨k', freed, shown⟩ := Option.map_eq_some_iff.mp rest
  obtain ⟨s₀, booted, run⟩ := smallRun_run done
  simp only [Prod.mk.injEq, List.map_cons, List.map_nil, List.cons.injEq] at shown
  obtain ⟨⟨status, pml4e, absent⟩, head, first, second, third, fourth, fifth, sixth, seventh, last, -⟩ := shown
  have free : k'.mem.OnFreeList 0 := by
    refine ⟨[6, 0, 10, 11, 12, 13, 14, 15], ?_, by simp⟩
    simp [Linked.chain_cons, Linked.chain_nil, head, first, second, third, fourth, fifth, sixth, seventh, last]
  have freed : s.kernel.envFree none 1 = .ok k' := Fallible.toOption_eq_some.mp freed
  have isReserved : smallMachine.Reserved 0 := .inl (.inl rfl)
  refine ⟨s₀, s, k', booted, run, ⟨by decide, by simp [status]⟩, pml4e, of_decide_eq_false absent, freed,
    isReserved, free, ?_⟩
  exact fun own => own.keeps k' freed 0 isReserved free

/-- In every run that leaves the kernel unconfused `env_free` gives everything back, provided that it gets to
    all entries of the environment and that the pages which only the environment maps are counted exactly. -/
theorem env_free_reclaims (config : BootConfig) (envs : Nat → Env) {ops : List BootOp} {k : Kernel}
    {events : List (Event C)} {s : System C} (booted : Transition.Run BootOp.Step (config.kernel envs) ops k)
    (run : Transition.Run (Transition.Guarded Guard Step) (idle k) events s) {e root : Nat}
    (inUse : s.kernel.InUse e) (pml4e : (s.kernel.envs e).envPml4e = some root)
    (present : Present (s.kernel.mem.word root 0)) (tidy : s.kernel.mem.Tidy root)
    (exact : s.kernel.CountsOwn root) (cur : Option Nat) :
    ∃ k', s.kernel.envFree cur e = .ok k' ∧ s.kernel.ReclaimsAll k' root := by
  obtain ⟨g, spaces⟩ := ((sound_idle booted).run run).spaces
  obtain ⟨k', freed⟩ := spaces.envFree_done inUse (Kernel.rooted_of_present pml4e present) cur
  exact ⟨k', freed, spaces.envFree_reclaims inUse pml4e present tidy exact freed⟩

def allocForChild : List (Event Bool) :=
  [.start false, .trap false (syscallTf 7 0 0 0 0 0) 0 0, .trap false (syscallTf 4 0x1001 0x800000 7 0 0) 0 0]

theorem env_free_reclaims_child : ∃ s : System Bool, ∃ k', s.kernel.mem.child 13 0 = some 10 ∧
    s.kernel.envFree none 1 = .ok k' ∧ s.kernel.ReclaimsAll k' 6 := by
  have result : (guardedRun allocForChild).map (fun s => ((s.kernel.envs 1).envStatus,
      [(s.kernel.envs 1).envPml4e, s.kernel.mem.child 13 0], s.kernel.mem.ppRef 10,
      decide (Present (s.kernel.mem.word 6 0) ∧ s.kernel.mem.Lists 6 [(0, 11), (2, 6)] ∧
        s.kernel.mem.Lists 11 [(0, 12)] ∧ s.kernel.mem.Lists 12 [(4, 13)] ∧ s.kernel.mem.Lists 13 [(0, 10)]))) =
      some (.notRunnable, [some 6, some 10], 1, true) := by
    rw [guardedRun, smallBoot_eq]
    decide +kernel
  obtain ⟨s, done, shown⟩ := Option.map_eq_some_iff.mp result
  obtain ⟨k, booted, run⟩ := guardedRun_run done
  simp only [Prod.mk.injEq, List.cons.injEq, and_true, decide_eq_true_eq] at shown
  obtain ⟨status, ⟨pml4e, mapped⟩, single, present, root, pdpt, pgdir, table⟩ := shown
  have inUse : s.kernel.InUse 1 := ⟨by decide, by simp [status]⟩
  have top : ∀ i page, i < 512 → i ≠ 2 → s.kernel.mem.child 6 i = some page → i = 0 ∧ page = 11 := by
    intro i page inside window child
    simpa [window] using root i inside page child
  have middle : ∀ i page, i < 512 → s.kernel.mem.child 11 i = some page → i = 0 ∧ page = 12 := by
    intro i page inside child
    simpa using pdpt i inside page child
  have last : ∀ i page, i < 512 → s.kernel.mem.child 12 i = some page → i = 4 ∧ page = 13 := by
    intro i page inside child
    simpa using pgdir i inside page child
  have leaf : ∀ i page, i < 512 → s.kernel.mem.child 13 i = some page → i = 0 ∧ page = 10 := by
    intro i page inside child
    simpa using table i inside page child
  have second : ∀ i page, i < 512 → Radix.descend s.kernel.mem.child 6 [0, i] = some page → i = 0 ∧ page = 12 := by
    intro i page inside found
    obtain ⟨next, here, below⟩ := Option.bind_eq_some_iff.mp found
    rw [(top 0 next (by omega) (by omega) here).2, Radix.descend_cons, Option.bind_eq_some_iff] at below
    obtain ⟨_, child, same⟩ := below
    cases same
    exact middle i page inside child
  have third : ∀ i j page, i < 512 → j < 512 → Radix.descend s.kernel.mem.child 6 [0, i, j] = some page →
      i = 0 ∧ j = 4 ∧ page = 13 := by
    intro i j page inside inside' found
    rw [show [0, i, j] = [0, i] ++ [j] from rfl, Radix.descend_snoc, Option.bind_eq_some_iff] at found
    obtain ⟨next, above, child⟩ := found
    obtain ⟨zero, rfl⟩ := second i next inside above
    exact ⟨zero, last j page inside' child⟩
  have tidy : s.kernel.mem.Tidy 6 := by
    refine ⟨?_, ?_, ?_, ?_⟩
    · intro i page inside notFirst window child
      exact absurd (top i page inside window child).1 notFirst
    · intro next i page found inside child
      have here : s.kernel.mem.child 6 0 = some next := by simpa using found
      rw [(top 0 next (by omega) (by omega) here).2] at child
      have := (middle i page inside child).1
      omega
    · intro next i j page found inside inside' child
      obtain ⟨rfl, rfl⟩ := second i next inside found
      rw [(last j page inside' child).1]
      decide
    · intro next i j t page found inside inside' inside'' child
      obtain ⟨zero, -, rfl⟩ := third i j next inside inside' found
      rw [(leaf t page inside'' child).1]
      exact ⟨zero, by decide⟩
  obtain ⟨g, spaces⟩ := ((sound_idle booted).run run).spaces
  have exact : s.kernel.CountsOwn 6 := by
    refine spaces.countsOwn_of_single (spaces.role inUse pml4e) ?_
    rintro page slot ⟨_, va, rfl, below, found, child⟩
    have user := pml4_of_user below
    rw [Memory.leafSlot, Option.map_eq_some_iff] at found
    obtain ⟨next, found, rfl⟩ := found
    obtain ⟨first, here, -⟩ := Option.bind_eq_some_iff.mp found
    rw [(top _ first (pml4_lt va) (by omega) here).1] at found
    obtain ⟨-, -, rfl⟩ := third _ _ next (pdpe_lt va) (pdx_lt va) found
    rw [(leaf _ page (ptx_lt va) child).2, single]
    decide
  obtain ⟨k', freed, reclaims⟩ := env_free_reclaims smallMachine (fun _ => default) booted run inUse pml4e present
    tidy exact none
  exact ⟨s, k', mapped, freed, reclaims⟩

def allocGigabyte : List (Event Bool) :=
  [.start false, .trap false (syscallTf 4 0 0x40000000 7 0 0) 0 0]

/-- The page stays allocated, although nothing refers to it any more. -/
theorem env_free_leaks_gigabyte : ∃ s₀ s : System Bool, ∃ k', s₀.Booted ∧ Transition.Run Step s₀ allocGigabyte s ∧
    s.kernel.InUse 0 ∧ (s.kernel.envs 0).envPml4e = some 1 ∧ s.kernel.envFree (some 0) 0 = .ok k' ∧
    s.kernel.mem.RefersTo 1 6 ∧ (∀ other, s.kernel.Roots other → other ≠ 1 → ¬ s.kernel.mem.RefersTo other 6) ∧
    s.kernel.mem.ppRef 6 = 1 ∧ ¬ k'.mem.OnFreeList 6 ∧ ¬ s.kernel.ReclaimsAll k' 1 := by
  have result : ((smallRun allocGigabyte).bind fun s => (s.kernel.envFree (some 0) 0).toOption.map fun k' =>
      (((s.kernel.envs 0).envStatus, (s.kernel.envs 0).envPml4e), (s.kernel.mem.bootPml4e, s.kernel.mem.ppRef 6),
        decide ((∀ e < nenv, (s.kernel.envs e).envStatus ≠ .free → e = 0) ∧ s.kernel.mem.Lists 9 []),
        Radix.descend s.kernel.mem.child 1 [0, 1, 0, 0] :: k'.mem.pageFreeList ::
          [1, 3, 4, 10, 11, 12, 13, 14, 15].map k'.mem.ppLink)) =
      some ((.running, some 1), (9, 1), true,
        [some 6, some 1, some 3, some 4, some 10, some 11, some 12, some 13, some 14, some 15, none]) := by
    rw [smallRun, smallBoot_eq]
    decide +kernel
  obtain ⟨s, done, rest⟩ := Option.bind_eq_some_iff.mp result
  obtain ⟨k', freed, shown⟩ := Option.map_eq_some_iff.mp rest
  obtain ⟨s₀, booted, run⟩ := smallRun_run done
  simp only [Prod.mk.injEq, List.map_cons, List.map_nil, List.cons.injEq, decide_eq_true_eq] at shown
  obtain ⟨⟨status, pml4e⟩, ⟨boot, one⟩, ⟨first, bare⟩, mapped, head, link, link₁, link₂, link₃, link₄, link₅, link₆,
    link₇, last, -⟩ := shown
  have freed : s.kernel.envFree (some 0) 0 = .ok k' := Fallible.toOption_eq_some.mp freed
  have refers : s.kernel.mem.RefersTo 1 6 := by
    rw [show [0, 1, 0, 0] = [0, 1, 0] ++ [0] from rfl, Radix.descend_snoc, Option.bind_eq_some_iff] at mapped
    obtain ⟨table, above, child⟩ := mapped
    exact ⟨table, 0, Memory.reached_of_descend above (by simp) (by simp), by omega, child⟩
  have alone : ∀ other, s.kernel.Roots other → other ≠ 1 → ¬ s.kernel.mem.RefersTo other 6 := by
    rintro other (rfl | ⟨e, inUse, root⟩) different
    · rw [boot]
      exact bare.refers_nothing 6
    · rw [first e inUse.1 inUse.2, pml4e] at root
      exact absurd (Option.some.inj root).symm different
  have leaked : ¬ k'.mem.OnFreeList 6 := by
    rintro ⟨nodes, chain, member⟩
    have whole : Linked.Chain k'.mem.ppLink k'.mem.pageFreeList [1, 3, 4, 10, 11, 12, 13, 14, 15] := by
      simp [Linked.chain_cons, Linked.chain_nil, head, link, link₁, link₂, link₃, link₄, link₅, link₆, link₇, last]
    rw [Linked.chain_unique chain whole] at member
    simp at member
  refine ⟨s₀, s, k', booted, run, ⟨by decide, by simp [status]⟩, pml4e, freed, refers, alone, one, leaked, ?_⟩
  exact fun reclaims => leaked (reclaims.own 6 refers alone)

end System

end Jos
