import JosKernel.System.Authority

namespace Jos

def Kernel.IsTable (k : Kernel) (page : Nat) : Prop := ∃ root, k.Roots root ∧ k.mem.Reached root page

/-- What user programs reach below UTOP is memory that was given to them: it is not free, not kept back at boot,
    not part of any page table, and it is counted at least as often as it is mapped. Page tables are not free
    either, and two environments have none in common but for those that `boot_pml4e` has as well. -/
structure Kernel.Protects (reserved : Nat → Prop) (k : Kernel) : Prop where
  reached : ∀ e root va translation, k.InUse e → (k.envs e).envPml4e = some root → va < utop →
    k.mem.mmuWalk root va = some translation → ¬ k.mem.OnFreeList translation.page ∧ ¬ reserved translation.page ∧
      ¬ k.IsTable translation.page ∧ 0 < k.mem.ppRef translation.page ∧
      k.mem.leafCount k.Roots translation.page ≤ (k.mem.ppRef translation.page).toNat
  tables : ∀ page, k.IsTable page → ¬ k.mem.OnFreeList page
  apart : ∀ e e' root root' page, k.InUse e → k.InUse e' → e ≠ e' → (k.envs e).envPml4e = some root →
    (k.envs e').envPml4e = some root' → k.mem.Reached root page → k.mem.Reached root' page →
    k.mem.Reached k.mem.bootPml4e page

variable {reserved : Nat → Prop} {k : Kernel} {g : Layout} {mem : Memory}

namespace Consistent

variable {m : Memory} {root page : Nat}

theorem role_of_reached_boot (valid : Consistent m g) {path : List Nat} (short : path.length ≤ 3)
    (small : ∀ index ∈ path, index < 512) (found : Radix.descend m.child m.bootPml4e path = some page) :
    g.role page = .table m.bootPml4e path := by
  induction path using List.reverseRecOn generalizing page with
  | nil =>
    cases found
    exact valid.tables.boot
  | append_singleton path index ih =>
    rw [Radix.descend_snoc, Option.bind_eq_some_iff] at found
    obtain ⟨parent, above, child⟩ := found
    rw [List.length_append, List.length_singleton] at short
    have here := ih (by omega) (fun i member => small i (by simp [member])) above
    refine valid.child_role here (by omega) ⟨small index (by simp), ?_⟩ child
    rintro rfl
    refine ⟨?_, fun _ => valid.tables.shares_boot⟩
    rintro rfl
    cases above
    have window := valid.tables.window _ valid.tables.boot
    rw [Memory.windowEntry, if_pos rfl] at window
    have present := (Memory.child_eq_some.mp child).1
    rw [window] at present
    exact absurd present (by decide)

/-- What is reached from a PML4 within three steps is one of its tables or one of those of `boot_pml4e`. -/
theorem reached_role (valid : Consistent m g) (role : g.role root = .table root []) (reached : m.Reached root page) :
    ∃ path, g.role page = .table root path ∨ g.role page = .table m.bootPml4e path := by
  obtain ⟨path, short, small, found⟩ := reached
  by_cases boot : root = m.bootPml4e
  · subst boot
    exact ⟨path, .inl (valid.role_of_reached_boot short small found)⟩
  · obtain ⟨own, -, here | ⟨-, shared⟩⟩ := valid.role_of_reached role boot short small found
    · exact ⟨own, .inl here⟩
    · exact ⟨own, .inr shared⟩

end Consistent

namespace Spaces

theorem isTable_role (spaces : Spaces reserved k g) {page : Nat} (table : k.IsTable page) :
    ∃ root path, g.role page = .table root path := by
  obtain ⟨root, isRoot, reached⟩ := table
  obtain ⟨path, own | shared⟩ := spaces.memory.reached_role ((spaces.roots_iff root).mp isRoot) reached
  · exact ⟨root, path, own⟩
  · exact ⟨k.mem.bootPml4e, path, shared⟩

theorem leafCount_pos (spaces : Spaces reserved k g) {root : Nat} {va : Word} {translation : Translation}
    (role : g.role root = .table root []) (below : va < utop) (found : k.mem.mmuWalk root va = some translation) :
    0 < k.mem.leafCount k.Roots translation.page := by
  have valid := spaces.memory
  have known : ∀ other, k.Roots other → g.role other = .table other [] := fun other => (spaces.roots_iff other).mp
  rw [valid.mmuWalk role (pml4_of_user below), translate] at found
  split at found
  · rename_i present
    cases found
    have finite : (k.mem.leafRefs k.Roots (entryPage (k.mem.entry root va))).Finite :=
      (Finset.finite_toSet _).subset (valid.leafRefs_subset known)
    cases slotFound : k.mem.leafSlot root va with
    | none =>
      rw [Memory.entry, slotFound] at present
      exact absurd present (show ¬ Present 0 by decide)
    | some slot =>
      have entry := Memory.entry_of_leafSlot slotFound
      refine (Set.ncard_pos finite).mpr ⟨slot, root, va, (spaces.roots_iff root).mpr role, below, slotFound, ?_⟩
      rw [entry] at present ⊢
      exact Memory.child_eq_some.mpr ⟨present, rfl⟩
  · cases found

theorem protects (spaces : Spaces reserved k g) : k.Protects reserved where
  reached := by
    intro e root va translation inUse pml4e below found
    have role := spaces.role inUse pml4e
    have data := spaces.memory.mmuWalk_data role below found
    have mapped := spaces.leafCount_pos role below found
    have bound := spaces.memory.leafCount_le (fun other => (spaces.roots_iff other).mp) translation.page
    have counted := (spaces.memory.refs.counted translation.page data).2
    refine ⟨?_, ?_, ?_, ?_, ?_⟩
    · rw [spaces.memory.onFreeList_iff, data]
      simp
    · intro isReserved
      rcases spaces.kept _ isReserved with kept | boot
      · rw [data] at kept
        cases kept
      · rw [boot, spaces.memory.tables.boot] at data
        cases data
    · intro table
      obtain ⟨root', path, role'⟩ := spaces.isTable_role table
      rw [data] at role'
      cases role'
    · rw [BitVec.lt_def]
      change 0 < _
      omega
    · omega
  tables := by
    intro page table free
    obtain ⟨root, path, role⟩ := spaces.isTable_role table
    rw [spaces.memory.onFreeList_iff, role] at free
    cases free
  apart := by
    intro e e' root root' page inUse inUse' other pml4e pml4e' reached reached'
    have role := spaces.role inUse pml4e
    have role' := spaces.role inUse' pml4e'
    obtain ⟨path, own | shared⟩ := spaces.memory.reached_role role reached
    · obtain ⟨path', own' | shared'⟩ := spaces.memory.reached_role role' reached'
      · rw [own] at own'
        cases own'
        exact absurd (spaces.distinct e e' inUse inUse' (by rw [pml4e, pml4e'])) other
      · exact spaces.memory.reached_of_role shared'
    · exact spaces.memory.reached_of_role shared

theorem rewrites_isolates (spaces : Spaces reserved k g) (rewrites : Rewrites k.mem g mem) :
    k.Isolates none (k.setMem mem) where
  envs e root va inUse other pml4e below := by
    have role := spaces.role inUse pml4e
    have valid' := rewrites.consistent spaces.memory
    refine ⟨pml4e, ?_⟩
    rw [spaces.memory.mmuWalk role (pml4_of_user below), Kernel.setMem_mem, valid'.mmuWalk role (pml4_of_user below),
      rewrites.entry spaces.memory role (pml4_of_user below)]
  boot := by
    have boot := spaces.memory.tables.boot
    have valid' := rewrites.consistent spaces.memory
    refine ⟨rewrites.bootPml4e, fun va below => ?_⟩
    rw [spaces.memory.mmuWalk boot (pml4_of_user below), Kernel.setMem_mem, valid'.mmuWalk boot (pml4_of_user below),
      rewrites.entry spaces.memory boot (pml4_of_user below)]

end Spaces

namespace System

variable {C : Type} [DecidableEq C]

/-- In every run that leaves the kernel unconfused user programs reach only memory that was given to them, and
    no store of a user program changes what addresses mean. -/
theorem memory_protection (config : BootConfig) (envs : Nat → Env) {ops : List BootOp} {k : Kernel}
    {events : List (Event C)} {s : System C} (booted : Transition.Run BootOp.Step (config.kernel envs) ops k)
    (run : Transition.Run (Transition.Guarded Guard Step) (idle k) events s) :
    s.kernel.Protects config.Reserved ∧
      ∀ c va byte s', Step s (.store c va byte) s' → s.kernel.Isolates none s'.kernel := by
  have sound := (sound_idle booted).run run
  obtain ⟨g, spaces⟩ := sound.spaces
  refine ⟨spaces.protects, ?_⟩
  intro c va byte s' step
  cases step with
  | store _ _ _ after stored =>
    obtain ⟨e, root, translation, current, pml4e, walk, -, -, below, rfl⟩ := stored
    have data := spaces.memory.mmuWalk_data (spaces.role (sound.inUse current) pml4e) below walk
    exact spaces.rewrites_isolates (.setByte data va byte)

theorem memory_protection_child : ∃ s : System Bool, (s.kernel.envs 1).envPml4e = some 6 ∧
    ((s.kernel.mem.mmuWalk 6 0x800000).map Translation.page = some 10) ∧ ¬ s.kernel.mem.OnFreeList 10 ∧
    ¬ smallMachine.Reserved 10 ∧ ¬ s.kernel.IsTable 10 ∧ s.kernel.mem.leafCount s.kernel.Roots 10 ≤ 1 := by
  have result : (guardedRun allocForChild).map (fun s => ((s.kernel.envs 1).envStatus, (s.kernel.envs 1).envPml4e,
      (s.kernel.mem.mmuWalk 6 0x800000).map Translation.page, s.kernel.mem.ppRef 10)) =
      some (.notRunnable, some 6, some 10, 1) := by
    rw [guardedRun, smallBoot_eq]
    decide +kernel
  obtain ⟨s, done, shown⟩ := Option.map_eq_some_iff.mp result
  obtain ⟨k, booted, run⟩ := guardedRun_run done
  simp only [Prod.mk.injEq] at shown
  obtain ⟨status, pml4e, walk, single⟩ := shown
  obtain ⟨translation, found, page⟩ := Option.map_eq_some_iff.mp walk
  have protects := (memory_protection smallMachine (fun _ => default) booted run).1
  obtain ⟨free, kept, table, -, counted⟩ := protects.reached 1 6 0x800000 translation ⟨by decide, by simp [status]⟩
    pml4e (by decide) found
  rw [page] at free kept table counted
  rw [single] at counted
  exact ⟨s, pml4e, walk, free, kept, table, counted⟩

end System

end Jos
