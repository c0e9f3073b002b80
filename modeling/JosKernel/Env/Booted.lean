import JosKernel.Env.Loaded

namespace Jos

variable {reserved : Nat → Prop} {k k' : Kernel} {g : Layout} {mem : Memory} {e root : Nat} {va : Word}

-- Loading in a kernel

section Load

variable (inUse : k.InUse e) (pml4e : (k.envs e).envPml4e = some root)

include inUse pml4e

theorem Spaces.region (spaces : Spaces reserved k g) (low : pml4 va = 0)
    {page : Nat} {m₁ : Memory} {g₁ g' : Layout} (region : Region k.mem g root va page m₁ g₁ mem g') :
    Spaces reserved (k.setMem mem) g' := by
  have first := spaces.fresh region.fresh
  have second := first.spaces.shows_same region.counted rfl (fun _ => Iff.rfl) (fun _ kept => kept)
    (fun _ _ _ _ => rfl) fun _ _ _ => rfl
  exact (second.spaces.shows_sets inUse pml4e low region.valid region.sets).spaces

theorem Spaces.regionAllocPages (spaces : Spaces reserved k g) {pages : Nat}
    (below : va.toNat + pages * 4096 ≤ 2^39) (done : Memory.regionAllocPages root pages va k.mem = .ok mem) :
    ∃ g', Spaces reserved (k.setMem mem) g' := by
  induction pages generalizing va k g with
  | zero =>
    cases done
    exact ⟨g, spaces⟩
  | succ pages ih =>
    obtain ⟨middle, first, rest⟩ := Fallible.bind_ok.mp done
    have here : va < utop := by
      rw [BitVec.lt_def, utop_toNat]
      omega
    have low : pml4 va = 0 := by
      rw [pml4_eq]
      omega
    have next : (va + BitVec.ofNat 64 pgSize).toNat = va.toNat + 4096 := by
      rw [BitVec.toNat_add]
      change (va.toNat + 4096) % 2^64 = _
      omega
    obtain ⟨page, m₁, g₁, g', region⟩ := spaces.memory.regionAllocPage (spaces.role inUse pml4e) here first
    exact ih (k := k.setMem middle) inUse pml4e (spaces.region inUse pml4e low region)
      (by rw [next]; omega) rest

theorem Spaces.loadSegment (spaces : Spaces reserved k g) {ph : Proghdr}
    (filesz : ph.contents.length ≤ ph.pMemsz.toNat) (fits : ph.pVa.toNat + ph.pMemsz.toNat ≤ stackPage.toNat)
    (done : Memory.loadSegment root k.mem ph = .ok mem) : ∃ g', Spaces reserved (k.setMem mem) g' := by
  obtain ⟨middle, allocated, stored⟩ := Fallible.bind_ok.mp done
  have last := region_end fits (by decide) (by decide)
  have stack : stackPage.toNat ≤ 2^39 := by decide
  have top : stackPage.toNat ≤ utop.toNat := by decide
  obtain ⟨g', spaces'⟩ := spaces.regionAllocPages inUse pml4e (last.trans stack) allocated
  refine ⟨g', spaces'.rewrites (spaces'.memory.storeBytes (spaces'.role inUse pml4e) ?_ stored)⟩
  rw [Proghdr.stored_length filesz]
  omega

theorem Spaces.loadIcode (spaces : Spaces reserved k g) {program : Program} (fits : program.Fits)
    (done : k.mem.loadIcode root program = .ok mem) : ∃ g', Spaces reserved (k.setMem mem) g' := by
  obtain ⟨middle, loaded, rest⟩ := Fallible.bind_ok.mp done
  have segments : ∃ g', Spaces reserved (k.setMem middle) g' := by
    refine Fallible.foldlM_keeps (fun mem => ∃ g', Spaces reserved (k.setMem mem) g') ?_ ⟨g, spaces⟩ loaded
    rintro state ph next member ⟨g', spaces'⟩ segment
    obtain ⟨filesz, inside⟩ := fits ph member
    exact spaces'.loadSegment (k := k.setMem state) inUse pml4e filesz inside segment
  obtain ⟨g', spaces'⟩ := segments
  have stack : Memory.regionAllocPages root 1 stackPage middle = .ok mem := by
    rw [← regionAlloc_stack]
    exact rest
  exact spaces'.regionAllocPages (k := k.setMem middle) inUse pml4e (by decide) stack

end Load

theorem Spaces.envCreate (spaces : Spaces reserved k g) (table : EnvTable k) {program : Program}
    (fits : program.Fits) (created : k.envCreate program = .ok k') : ∃ g', Spaces reserved k' g' := by
  obtain ⟨e, k₁, root, mem, head, allocated, pml4e, loaded, touches⟩ := Kernel.envCreate_ok created
  obtain ⟨⟨g₁, spaces₁⟩, users, -, -⟩ := spaces.envAlloc (fun _ => table.head_free) allocated
  have inUse : k₁.InUse e := (users e).mpr (.inr rfl)
  obtain ⟨g', spaces'⟩ := spaces₁.loadIcode inUse pml4e fits loaded
  exact ⟨g', spaces'.touches touches⟩

-- Booting

theorem Spaces.bootMapPage (spaces : Spaces reserved k g) {la pa : Word} {perm : BitVec 32} (above : utop ≤ la)
    (low : la < uvpt) (mapped : k.mem.bootMapPage la pa perm = .ok mem) :
    ∃ g', Spaces reserved (k.setMem mem) g' := by
  obtain ⟨g', valid, boot, keeps, roots, entry, content⟩ := spaces.memory.bootMapPage above low mapped
  exact ⟨g', (spaces.shows_same valid boot roots keeps entry content).spaces⟩

theorem BootConfig.kernel_mem (c : BootConfig) (envs : Nat → Env) : (c.kernel envs).mem = c.pageInit := by
  rw [BootConfig.kernel, Kernel.envInit_eq]

theorem BootConfig.kernel_table (c : BootConfig) (envs : Nat → Env) :
    EnvTable (c.kernel envs) ∧ ∀ e, ¬ (c.kernel envs).InUse e := by
  have initial := Kernel.envInit_table { mem := c.pageInit, envs := envs, envFreeList := none, console := [] }
  rw [← BootConfig.kernel] at initial
  exact ⟨initial.1, fun e inUse => inUse.2 (initial.2 e inUse.1)⟩

theorem BootConfig.kernel_spaces (c : BootConfig) (envs : Nat → Env) :
    Spaces c.Reserved (c.kernel envs) c.layout := by
  have unused := (c.kernel_table envs).2
  have boot : (c.kernel envs).mem.bootPml4e = c.bootPml4e := by
    rw [c.kernel_mem]
    exact c.pageInit_bootPml4e
  refine ⟨?_, fun e inUse => absurd inUse (unused e), fun e _ inUse => absurd inUse (unused e), ?_, ?_, ?_⟩
  · rw [c.kernel_mem]
    exact c.pageInit_consistent
  · intro root role
    exact .inl ((c.layout_table.mp role).1.trans boot.symm)
  · intro root va role below high
    have bare : (c.kernel envs).mem.child root (pml4 va) = none := by
      rw [Memory.child_eq_none, c.kernel_mem, (c.layout_table.mp role).1, c.pageInit_word,
        c.pml4Cleared]
      decide
    rw [Memory.entry, Memory.leafSlot, Radix.descend_cons, bare]
    exact show ¬ Present 0 by decide
  · intro page isReserved
    by_cases here : page = c.bootPml4e
    · exact .inr (here.trans boot.symm)
    · rw [BootConfig.layout]
      simp only
      rw [if_neg here, if_neg (fun free => free.2 isReserved)]
      exact .inl rfl

theorem BootOp.step_spaces {before after : Kernel} {op : BootOp} (spaces : Spaces reserved before g)
    (table : EnvTable before) (step : op.Step before after) : ∃ g', Spaces reserved after g' := by
  obtain ⟨legal, ran⟩ := step
  cases op with
  | map la pa perm =>
    obtain ⟨mem, mapped, rfl⟩ := Fallible.map_ok.mp ran
    exact spaces.bootMapPage legal.1 legal.2 mapped
  | create program => exact spaces.envCreate table legal ran

-- What booting leaves on the small machine

theorem BootOp.created_of_exec {program : Program}
    (done : Transition.exec BootOp.next k [.create program] = some k') : k.envCreate program = .ok k' := by
  obtain ⟨middle, first, rest⟩ := Option.bind_eq_some_iff.mp done
  cases rest
  exact (BootOp.step_of_next first).2

theorem smallBoot_created {k : Kernel} (done : smallBoot = some k) :
    (smallMachine.kernel fun _ => default).envCreate ⟨[], 0⟩ = .ok k := by
  rw [smallBoot] at done
  exact BootOp.created_of_exec done

theorem smallMachine_head : (smallMachine.kernel fun _ => default).envFreeList = some 0 := by
  rw [BootConfig.kernel, Kernel.envInit_eq]

theorem smallBoot_some : ∃ k, smallBoot = some k := by
  have made : smallBoot.isSome = true := by
    rw [smallBoot_eq]
    decide +kernel
  exact Option.isSome_iff_exists.mp made

/-- `region_alloc` counts the pages it maps twice: whatever the program, once it is loaded the counts do
    not match the mappings, and unmapping does not give the pages back. -/
theorem Kernel.envCreate_overcounts (spaces : Spaces reserved k g) (table : EnvTable k) {program : Program}
    (inside : ∀ ph ∈ program.headers, ph.InUserPart) (head : k.envFreeList = some e)
    (created : k.envCreate program = .ok k') : ¬ k'.CountsExact e ∧ ¬ k'.Reclaimed e := by
  obtain ⟨g', root, page, leak⟩ := spaces.envCreate_stack table inside head created
  exact ⟨leak.not_countsExact, leak.not_reclaimed⟩

theorem Kernel.envCreate_overcounts_smallBoot :
    ∃ k, smallBoot = some k ∧ ¬ k.CountsExact 0 ∧ ¬ k.Reclaimed 0 := by
  obtain ⟨k, done⟩ := smallBoot_some
  exact ⟨k, done, Kernel.envCreate_overcounts (smallMachine.kernel_spaces _) (smallMachine.kernel_table _).1
    (by simp) smallMachine_head (smallBoot_created done)⟩

/-- The stack page of the first environment has two references, but one mapping. -/
theorem smallBoot_leaks : ∃ k, smallBoot = some k ∧ Present (k.leaf 0 stackPage) ∧
    k.mem.ppRef (entryPage (k.leaf 0 stackPage)) = 2 ∧
    k.mem.leafCount k.Roots (entryPage (k.leaf 0 stackPage)) ≤ 1 ∧ ¬ k.CountsExact 0 ∧ ¬ k.Reclaimed 0 := by
  have result : (smallBoot.map fun k => k.mem.ppRef (entryPage (k.leaf 0 stackPage))) = some 2 := by
    rw [smallBoot_eq]
    decide +kernel
  obtain ⟨k, done, two⟩ := Option.map_eq_some_iff.mp result
  obtain ⟨g', root, page, leak⟩ := (smallMachine.kernel_spaces _).envCreate_stack
    (smallMachine.kernel_table _).1 (by simp) smallMachine_head (smallBoot_created done)
  have counted := (leak.valid.refs.counted page leak.data).2
  have bound := leak.valid.leafCount_le leak.roots page
  refine ⟨k, done, leak.present, two, ?_, leak.not_countsExact, leak.not_reclaimed⟩
  rw [leak.target] at two ⊢
  rw [two, leak.extra] at counted
  change 2 = _ at counted
  omega

end Jos
