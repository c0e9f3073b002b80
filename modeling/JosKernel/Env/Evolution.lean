import JosKernel.Env.Incarnations
import JosKernel.Env.Views

namespace Jos

variable {reserved : Nat → Prop} {k k' k'' : Kernel} {g : Layout}

-- A new address space

theorem newRoot_entry {m : Memory} {page root : Nat} {va : Word} (valid : Consistent m g)
    (data : g.role page = .data) (role : g.role root = .table root []) (low : pml4 va < 2) :
    (m.newRoot page).entry root va = m.entry root va :=
  valid.entry_of_tree role low (newRoot_word_of_ne (table_ne_data data role))
    fun _ _ _ inside => newRoot_word_of_ne (table_ne_data data inside)

theorem newRoot_entry_here {m : Memory} {page : Nat} {va : Word} (valid : Consistent m g)
    (data : g.role page = .data) (empty : ∀ i, m.word page i = 0) (below : va < utop) :
    (m.newRoot page).entry page va = if pml4 va = 1 then m.entry m.bootPml4e va else 0 := by
  have bootDifferent := table_ne_data data valid.tables.boot
  have first : (m.newRoot page).word page 1 = m.word m.bootPml4e 1 := by
    rw [Memory.newRoot, Memory.write_word, if_neg (by simp), Memory.write_word, if_pos ⟨rfl, rfl⟩]
  split
  · rename_i high
    rw [← newRoot_entry valid data valid.tables.boot (pml4_of_user below)]
    have shared : (m.newRoot page).child page (pml4 va) = (m.newRoot page).child m.bootPml4e (pml4 va) := by
      unfold Memory.child
      rw [high, newRoot_word_of_ne bootDifferent, first]
    unfold Memory.entry Memory.leafSlot
    rw [Radix.descend_cons, Radix.descend_cons, shared]
  · rename_i other
    have top := pml4_of_user below
    have zero : pml4 va = 0 := by omega
    have absent : (m.newRoot page).child page (pml4 va) = none := by
      rw [Memory.child_eq_none, zero, Memory.newRoot, Memory.write_word, if_neg (by simp), Memory.write_word,
        if_neg (by simp), Memory.setRef_word, empty]
      decide
    unfold Memory.entry Memory.leafSlot
    rw [Radix.descend_cons, absent]
    rfl

-- The environments and their address spaces in one step

/-- What an environment that is in use afterwards shows at an address is nothing, or what it showed
    before, or what `maps` tells. The reserved pages hold what they held. -/
structure Evolves (reserved : Nat → Prop) (maps : Nat → Word → Word → Prop) (k k' : Kernel) : Prop where
  spaces : ∃ g, Spaces reserved k' g
  leaf : ∀ e va, k'.InUse e → va < utop → ¬ Present (k'.leaf e va) ∨
    (k.InUse e ∧ k'.leaf e va = k.leaf e va) ∨ maps e va (k'.leaf e va)
  holds : k.mem.Holds reserved k'.mem

namespace Evolves

variable {maps maps' : Nat → Word → Word → Prop}

theorem mono (evolves : Evolves reserved maps k k') (wider : ∀ e va entry, maps e va entry → maps' e va entry) :
    Evolves reserved maps' k k' where
  spaces := evolves.spaces
  holds := evolves.holds
  leaf := by
    intro e va inUse below
    rcases evolves.leaf e va inUse below with absent | same | mapped
    · exact .inl absent
    · exact .inr (.inl same)
    · exact .inr (.inr (wider _ _ _ mapped))

theorem trans (first : Evolves reserved maps k k') (second : Evolves reserved maps k' k'') : Evolves reserved maps k k'' where
  spaces := second.spaces
  holds := first.holds.trans second.holds
  leaf := by
    intro e va inUse below
    rcases second.leaf e va inUse below with absent | ⟨inUse', same⟩ | mapped
    · exact .inl absent
    · rw [same]
      exact first.leaf e va inUse' below
    · exact .inr (.inr mapped)

theorem refl (maps : Nat → Word → Word → Prop) (spaces : Spaces reserved k g) : Evolves reserved maps k k :=
  ⟨⟨g, spaces⟩, fun _ _ inUse _ => .inr (.inl ⟨inUse, rfl⟩), .refl reserved k.mem⟩

end Evolves

namespace Touches

variable {slots : Nat → Prop}

theorem inUse (touches : Touches slots k k') (e : Nat) : k'.InUse e ↔ k.InUse e := by
  exact and_congr_right fun _ => not_congr (touches.slot e).free

theorem leaf (touches : Touches slots k k') (e : Nat) (va : Word) : k'.leaf e va = k.leaf e va := by
  unfold Kernel.leaf
  rw [(touches.slot e).envPml4e, touches.mem]

end Touches

namespace Spaces

variable {mem : Memory} {maps : Nat → Word → Word → Prop}

theorem touches {slots : Nat → Prop} (spaces : Spaces reserved k g) (touches : Touches slots k k') :
    Spaces reserved k' g where
  memory := by
    rw [touches.mem]
    exact spaces.memory
  space := by
    intro e inUse
    rw [(touches.slot e).envPml4e, (touches.slot e).envCr3, touches.mem]
    exact spaces.space e ((touches.inUse e).mp inUse)
  distinct := by
    intro e e' inUse inUse'
    rw [(touches.slot e).envPml4e, (touches.slot e').envPml4e]
    exact spaces.distinct e e' ((touches.inUse e).mp inUse) ((touches.inUse e').mp inUse')
  owner := by
    intro root role
    rw [touches.mem]
    rcases spaces.owner root role with boot | ⟨e, inUse, pml4e⟩
    · exact .inl boot
    · exact .inr ⟨e, (touches.inUse e).mpr inUse, (touches.slot e).envPml4e.trans pml4e⟩
  bare := by
    rw [touches.mem]
    exact spaces.bare
  kept := by
    rw [touches.mem]
    exact spaces.kept

theorem evolves_touches {slots : Nat → Prop} (spaces : Spaces reserved k g) (touches : Touches slots k k') :
    Evolves reserved maps k k' :=
  ⟨⟨g, spaces.touches touches⟩, fun e va inUse _ => .inr (.inl ⟨(touches.inUse e).mp inUse, touches.leaf e va⟩), by
    rw [touches.mem]
    exact .refl reserved k.mem⟩

theorem evolves_rewrites (spaces : Spaces reserved k g) (rewrites : Rewrites k.mem g mem) :
    Evolves reserved maps k (k.setMem mem) :=
  ⟨⟨g, spaces.rewrites rewrites⟩, fun _ _ inUse below =>
    .inr (.inl ⟨inUse, spaces.rewrites_leaf rewrites inUse below⟩), spaces.rewrites_holds rewrites⟩

theorem evolves_shows {view : Nat → Word → Word} {g' : Layout} (shown : Shows reserved k g view mem g')
    (known : ∀ e va, k.InUse e → va < utop → ¬ Present (view e va) ∨ view e va = k.leaf e va ∨ maps e va (view e va)) :
    Evolves reserved maps k (k.setMem mem) where
  spaces := ⟨g', shown.spaces⟩
  holds := shown.holds
  leaf := by
    intro e va inUse below
    rw [shown.leaf e va inUse below]
    rcases known e va inUse below with absent | same | mapped
    · exact .inl absent
    · exact .inr (.inl ⟨inUse, same⟩)
    · exact .inr (.inr mapped)

theorem evolves_same {g' : Layout} (shown : Shows reserved k g k.leaf mem g') : Evolves reserved maps k (k.setMem mem) :=
  evolves_shows shown fun _ _ _ _ => .inr (.inl rfl)

end Spaces

-- Making an environment

/-- An address space with the PML4 `p` has been added, and nothing else has changed. -/
structure NewSpace (k : Kernel) (g : Layout) (p : Nat) (mem : Memory) (g' : Layout) : Prop where
  valid : Consistent mem g'
  bootPml4e : mem.bootPml4e = k.mem.bootPml4e
  fresh : g.role p = .free
  roots : ∀ root, g'.role root = .table root [] ↔ g.role root = .table root [] ∨ root = p
  keeps : g.Keeps g'
  kept : ∀ page i, g.role page = .kept → mem.word page i = k.mem.word page i
  entry : ∀ root va, g.role root = .table root [] → va < utop → mem.entry root va = k.mem.entry root va
  bare : ∀ va, va < utop → ¬ Present (mem.entry p va)

/-- The free slot `e` has got an environment whose PML4 is `p`. -/
structure Added (k k' : Kernel) (e p : Nat) : Prop where
  new : ¬ k.InUse e
  others : ∀ other, other ≠ e → k'.envs other = k.envs other
  inUse : k'.InUse e
  pml4e : (k'.envs e).envPml4e = some p
  cr3 : (k'.envs e).envCr3 = page2pa p

namespace Added

variable {e p : Nat}

theorem old (added : Added k k' e p) {other : Nat} (inUse : k.InUse other) : other ≠ e := by
  rintro rfl
  exact added.new inUse

theorem users (added : Added k k' e p) (other : Nat) : k'.InUse other ↔ k.InUse other ∨ other = e := by
  by_cases here : other = e
  · rw [here]
    exact iff_of_true added.inUse (.inr rfl)
  · rw [Kernel.InUse, added.others other here]
    simp [Kernel.InUse, here]

end Added

namespace NewSpace

variable {p e : Nat} {mem : Memory} {g' : Layout}

theorem apart (space : NewSpace k g p mem g') {root : Nat} (role : g.role root = .table root []) : root ≠ p := by
  rintro rfl
  rw [space.fresh] at role
  cases role

theorem root (space : NewSpace k g p k'.mem g') (spaces : Spaces reserved k g) (added : Added k k' e p) (other : Nat)
    (inUse : k'.InUse other) : ∃ r, (k'.envs other).envPml4e = some r ∧ (k'.envs other).envCr3 = page2pa r ∧
      g'.role r = .table r [] ∧ r ≠ k'.mem.bootPml4e := by
  rw [space.bootPml4e]
  rcases (added.users other).mp inUse with inUse | rfl
  · obtain ⟨r, pml4e, cr3, role, notBoot⟩ := spaces.space other inUse
    rw [added.others other (added.old inUse)]
    exact ⟨r, pml4e, cr3, (space.roots r).mpr (.inl role), notBoot⟩
  · exact ⟨p, added.pml4e, added.cr3, (space.roots p).mpr (.inr rfl), Ne.symm (space.apart spaces.memory.tables.boot)⟩

theorem distinct (space : NewSpace k g p k'.mem g') (spaces : Spaces reserved k g) (added : Added k k' e p)
    (left right : Nat) (inUse : k'.InUse left) (inUse' : k'.InUse right)
    (same : (k'.envs left).envPml4e = (k'.envs right).envPml4e) : left = right := by
  have mixed : ∀ other, k.InUse other → (k'.envs other).envPml4e ≠ (k'.envs e).envPml4e := by
    intro other inUse same
    obtain ⟨r, pml4e, role⟩ := spaces.root inUse
    rw [added.others other (added.old inUse), pml4e, added.pml4e] at same
    exact space.apart role (Option.some.inj same)
  rcases (added.users left).mp inUse with inUse | rfl
  · rcases (added.users right).mp inUse' with inUse' | rfl
    · rw [added.others left (added.old inUse), added.others right (added.old inUse')] at same
      exact spaces.distinct left right inUse inUse' same
    · exact absurd same (mixed left inUse)
  · rcases (added.users right).mp inUse' with inUse' | rfl
    · exact absurd same.symm (mixed right inUse')
    · rfl

theorem owner (space : NewSpace k g p k'.mem g') (spaces : Spaces reserved k g) (added : Added k k' e p) (r : Nat)
    (role : g'.role r = .table r []) : r = k'.mem.bootPml4e ∨ ∃ e, k'.InUse e ∧ (k'.envs e).envPml4e = some r := by
  rw [space.bootPml4e]
  rcases (space.roots r).mp role with role | rfl
  · rcases spaces.owner r role with boot | ⟨other, inUse, pml4e⟩
    · exact .inl boot
    · refine .inr ⟨other, (added.users other).mpr (.inl inUse), ?_⟩
      rwa [added.others other (added.old inUse)]
  · exact .inr ⟨e, added.inUse, added.pml4e⟩

theorem spaces (space : NewSpace k g p k'.mem g') (spaces : Spaces reserved k g) (added : Added k k' e p) :
    Spaces reserved k' g' where
  memory := space.valid
  space := space.root spaces added
  distinct := space.distinct spaces added
  owner := space.owner spaces added
  bare := by
    intro r va role below high
    rcases (space.roots r).mp role with role | rfl
    · rw [space.entry r va role below]
      exact spaces.bare r va role below high
    · exact space.bare va below
  kept := fun page member => (spaces.kept page member).imp (space.keeps page) fun here => here.trans space.bootPml4e.symm

theorem leaf (space : NewSpace k g p k'.mem g') (spaces : Spaces reserved k g) (added : Added k k' e p) (other : Nat)
    (va : Word) (inUse : k.InUse other) (below : va < utop) : k'.leaf other va = k.leaf other va := by
  obtain ⟨r, pml4e, role⟩ := spaces.root inUse
  have after : (k'.envs other).envPml4e = some r := by rwa [added.others other (added.old inUse)]
  rw [Kernel.leaf_eq after, Kernel.leaf_eq pml4e, space.entry r va role below]

theorem leaf_new (space : NewSpace k g p k'.mem g') (added : Added k k' e p) (va : Word) (below : va < utop) :
    ¬ Present (k'.leaf e va) := by
  rw [Kernel.leaf_eq added.pml4e]
  exact space.bare va below

end NewSpace

namespace Spaces

theorem newSpace (spaces : Spaces reserved k g) {p : Nat} {first : Memory} {g₁ : Layout}
    (fresh : Fresh k.mem g p first g₁) (valid : Consistent (first.newRoot p) (g₁.newRoot first p)) :
    NewSpace k g p (first.newRoot p) (g₁.newRoot first p) where
  valid := valid
  bootPml4e := by
    rw [show (first.newRoot p).bootPml4e = first.bootPml4e from rfl, fresh.memory]
    rfl
  fresh := fresh.free
  roots := by
    intro root
    rw [← fresh.table_iff]
    by_cases here : root = p
    · subst here
      simp [newRoot_role_here]
    · rw [newRoot_role_of_ne here]
      simp [here]
  keeps := by
    intro page kept
    have before := fresh.keeps page kept
    rwa [newRoot_role_of_ne]
    rintro rfl
    rw [fresh.data] at before
    cases before
  kept := by
    intro page i kept
    have different : page ≠ p := by
      rintro rfl
      rw [fresh.free] at kept
      cases kept
    rw [newRoot_word_of_ne different, fresh.word_of_ne different]
  entry := by
    intro root va role below
    rw [newRoot_entry fresh.valid fresh.data ((fresh.table_iff root root []).mpr role) (pml4_of_user below),
      fresh.entry spaces.memory role (pml4_of_user below)]
  bare := by
    intro va below
    have boot : first.bootPml4e = k.mem.bootPml4e := by
      rw [fresh.memory]
      rfl
    rw [newRoot_entry_here fresh.valid fresh.data fresh.zero below]
    split
    · rename_i high
      rw [boot, fresh.entry spaces.memory spaces.memory.tables.boot (by omega)]
      exact spaces.bare _ va spaces.memory.tables.boot below high
    · decide

/-- Where `env_setup_vm` gets no page, nothing has changed. -/
theorem envSetupVm_failed (spaces : Spaces reserved k g) {mem : Memory} (setup : k.mem.envSetupVm = .ok (none, mem)) :
    mem = k.mem := by
  rcases spaces.memory.envSetupVm with ⟨-, unchanged⟩ | ⟨page, first, g', done, -⟩
  · rw [unchanged] at setup
    cases setup
    rfl
  · rw [done] at setup
    cases setup

/-- `env_alloc` gives the new environment an address space that shows nothing. -/
theorem envAlloc (spaces : Spaces reserved k g) {cur : Option Nat} {parentId : BitVec 32} {result : Except Int Nat}
    (small : ∀ e, k.envFreeList = some e → e < nenv ∧ (k.envs e).envStatus = .free)
    (allocated : k.envAlloc cur parentId = .ok (result, k')) :
    (∃ g', Spaces reserved k' g') ∧ (∀ e, k'.InUse e ↔ k.InUse e ∨ result = .ok e) ∧
      (∀ e va, k.InUse e → va < utop → k'.leaf e va = k.leaf e va) ∧
      (∀ e, result = .ok e → ¬ k.InUse e ∧ ∀ va, va < utop → ¬ Present (k'.leaf e va)) ∧
      k.mem.Holds reserved k'.mem := by
  rcases Kernel.envAlloc_ok allocated with ⟨code, rfl, failed⟩ | ⟨e, p, mem, rfl, head, setup, caller, made⟩
  · have same : k' = k := by
      rcases failed with ⟨-, same⟩ | ⟨mem, setup, rfl⟩
      · exact same
      · rw [spaces.envSetupVm_failed setup, Kernel.setMem_self]
    subst same
    exact ⟨⟨g, spaces⟩, by simp, fun _ _ _ _ => rfl, by simp, .refl reserved k'.mem⟩
  rcases spaces.memory.envSetupVm with ⟨-, unchanged⟩ | ⟨page, first, g₁, done, fresh, valid⟩
  · rw [unchanged] at setup
    cases setup
  rw [done] at setup
  cases setup
  obtain ⟨below, free⟩ := small e head
  have slot : k'.envs e = Kernel.newEnv (k.envs e) e p parentId := by
    rw [made]
    simp
  have added : Added k k' e p := by
    refine ⟨fun inUse => inUse.2 free, ?_, ⟨below, by simp [slot, Kernel.newEnv]⟩, by simp [slot, Kernel.newEnv],
      by simp [slot, Kernel.newEnv]⟩
    intro other away
    rw [made]
    simp [away]
  have space : NewSpace k g p k'.mem (g₁.newRoot first p) := by
    have memory : k'.mem = first.newRoot p := by
      rw [made]
      rfl
    rw [memory]
    exact spaces.newSpace fresh valid
  refine ⟨⟨_, space.spaces spaces added⟩, ?_, space.leaf spaces added, ?_, spaces.holds space.bootPml4e space.kept⟩
  · intro other
    rw [added.users]
    simp [eq_comm]
  · rintro other ⟨⟩
    exact ⟨added.new, space.leaf_new added⟩

end Spaces

/-- The environment `e` has gone with the tables under `root`. -/
structure Removed (k : Kernel) (g : Layout) (k' : Kernel) (g' : Layout) (e root : Nat) : Prop where
  inUse : k.InUse e
  pml4e : (k.envs e).envPml4e = some root
  notBoot : root ≠ k.mem.bootPml4e
  free : (k'.envs e).envStatus = .free
  others : ∀ other, other ≠ e → k'.envs other = k.envs other
  teardown : Teardown k.mem g root [] k'.mem g'
  gone : ∀ page path, g'.role page ≠ .table root path

namespace Removed

variable {e root : Nat} {g' : Layout}

theorem users (removed : Removed k g k' g' e root) (other : Nat) : k'.InUse other ↔ k.InUse other ∧ other ≠ e := by
  by_cases here : other = e
  · subst here
    simp [Kernel.InUse, removed.free]
  · rw [Kernel.InUse, removed.others other here]
    simp [Kernel.InUse, here]

theorem roots (removed : Removed k g k' g' e root) (r : Nat) :
    g'.role r = .table r [] ↔ g.role r = .table r [] ∧ r ≠ root := by
  by_cases here : r = root
  · subst here
    simp [removed.gone r []]
  · simp [here, removed.teardown.root_iff here]

theorem apart (removed : Removed k g k' g' e root) (spaces : Spaces reserved k g) {other r : Nat} (inUse : k.InUse other)
    (away : other ≠ e) (pml4e : (k.envs other).envPml4e = some r) : r ≠ root := by
  rintro rfl
  exact away (spaces.distinct other e inUse removed.inUse (pml4e.trans removed.pml4e.symm))

theorem entry (removed : Removed k g k' g' e root) (spaces : Spaces reserved k g) {r : Nat} {va : Word} (away : r ≠ root)
    (role : g.role r = .table r []) (below : va < utop) : k'.mem.entry r va = k.mem.entry r va :=
  removed.teardown.entry spaces.memory removed.notBoot role away below

theorem leaf (removed : Removed k g k' g' e root) (spaces : Spaces reserved k g) (other : Nat) (va : Word)
    (inUse : k'.InUse other) (below : va < utop) : k'.leaf other va = k.leaf other va := by
  obtain ⟨inUse, away⟩ := (removed.users other).mp inUse
  obtain ⟨r, pml4e, role⟩ := spaces.root inUse
  have after : (k'.envs other).envPml4e = some r := by rwa [removed.others other away]
  rw [Kernel.leaf_eq after, Kernel.leaf_eq pml4e,
    removed.entry spaces (removed.apart spaces inUse away pml4e) role below]

theorem spaces (removed : Removed k g k' g' e root) (spaces : Spaces reserved k g) : Spaces reserved k' g' where
  memory := removed.teardown.valid
  space := by
    intro other inUse
    obtain ⟨inUse, away⟩ := (removed.users other).mp inUse
    obtain ⟨r, pml4e, cr3, role, notBoot⟩ := spaces.space other inUse
    rw [removed.others other away, removed.teardown.bootPml4e]
    exact ⟨r, pml4e, cr3, (removed.roots r).mpr ⟨role, removed.apart spaces inUse away pml4e⟩, notBoot⟩
  distinct := by
    intro left right inUse inUse'
    obtain ⟨inUse, away⟩ := (removed.users left).mp inUse
    obtain ⟨inUse', away'⟩ := (removed.users right).mp inUse'
    rw [removed.others left away, removed.others right away']
    exact spaces.distinct left right inUse inUse'
  owner := by
    intro r role
    obtain ⟨role, away⟩ := (removed.roots r).mp role
    rw [removed.teardown.bootPml4e]
    rcases spaces.owner r role with boot | ⟨other, inUse, pml4e⟩
    · exact .inl boot
    · have different : other ≠ e := by
        rintro rfl
        exact away (Option.some.inj (pml4e.symm.trans removed.pml4e))
      refine .inr ⟨other, (removed.users other).mpr ⟨inUse, different⟩, ?_⟩
      rwa [removed.others other different]
  bare := by
    intro r va role below high
    obtain ⟨role, away⟩ := (removed.roots r).mp role
    rw [removed.entry spaces away role below]
    exact spaces.bare r va role below high
  kept := by
    intro page member
    rw [removed.teardown.bootPml4e]
    exact (spaces.kept page member).imp_left (removed.teardown.keeps page)

end Removed

namespace Spaces

theorem envFree (spaces : Spaces reserved k g) {cur : Option Nat} {e : Nat} (inUse : k.InUse e)
    (present : ∀ root, (k.envs e).envPml4e = some root → Present (k.mem.word root 0))
    (freed : k.envFree cur e = .ok k') :
    (∃ root g', (k.envs e).envPml4e = some root ∧ Spaces reserved k' g' ∧ Teardown k.mem g root [] k'.mem g' ∧
        ∀ page path, g'.role page ≠ .table root path) ∧
      (∀ other, k'.InUse other ↔ k.InUse other ∧ other ≠ e) ∧
      (∀ other va, k'.InUse other → va < utop → k'.leaf other va = k.leaf other va) ∧
      k.mem.Holds reserved k'.mem := by
  obtain ⟨root, pml4e, cr3, role, notBoot⟩ := spaces.space e inUse
  obtain ⟨root', mem, pml4e', space, made⟩ := Kernel.envFree_ok freed
  rw [pml4e] at pml4e'
  cases pml4e'
  obtain ⟨mem', g', done, teardown, gone⟩ := spaces.memory.freeSpace role notBoot (present root pml4e)
  rw [cr3, done] at space
  cases space
  have removed : Removed k g k' g' e root := by
    have memory : k'.mem = mem := by
      rw [made]
      rfl
    refine ⟨inUse, pml4e, notBoot, ?_, ?_, memory ▸ teardown, gone⟩
    · rw [made]
      simp
    · intro other away
      rw [made]
      simp [away]
  exact ⟨⟨root, g', pml4e, removed.spaces spaces, removed.teardown, gone⟩, removed.users, removed.leaf spaces,
    spaces.holds removed.teardown.bootPml4e removed.teardown.kept⟩

end Spaces

end Jos
