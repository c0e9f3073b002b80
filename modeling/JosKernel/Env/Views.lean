import JosKernel.Env.Lifecycle
import JosKernel.Sched.Slots

namespace Jos

def Kernel.InUse (k : Kernel) (e : Nat) : Prop := e < nenv ∧ (k.envs e).envStatus ≠ .free

/-- The leaf entry for `va` in the address space of an environment. -/
def Kernel.leaf (k : Kernel) (e : Nat) (va : Word) : Word :=
  (k.envs e).envPml4e.elim 0 fun root => k.mem.entry root va

theorem Kernel.leaf_eq {k : Kernel} {e root : Nat} (pml4e : (k.envs e).envPml4e = some root) (va : Word) :
    k.leaf e va = k.mem.entry root va := by
  rw [Kernel.leaf, pml4e]
  rfl

def SamePage (va va' : Word) : Prop := va.toNat / 4096 = va'.toNat / 4096

instance (va va' : Word) : Decidable (SamePage va va') := inferInstanceAs (Decidable (_ = _))

/-- The leaf entries after `value` has been set for the page of `va` in one environment. -/
def remap (view : Nat → Word → Word) (e : Nat) (va value : Word) : Nat → Word → Word :=
  fun other va' => if other = e ∧ SamePage va' va then value else view other va'

/-- Each environment in use has a PML4 of its own, all PML4s have an owner, and nothing is mapped
    below UTOP where the address spaces share tables. The reserved pages are never given out. -/
structure Spaces (reserved : Nat → Prop) (k : Kernel) (g : Layout) : Prop where
  memory : Consistent k.mem g
  space : ∀ e, k.InUse e → ∃ root, (k.envs e).envPml4e = some root ∧ (k.envs e).envCr3 = page2pa root ∧
    g.role root = .table root [] ∧ root ≠ k.mem.bootPml4e
  distinct : ∀ e e', k.InUse e → k.InUse e' → (k.envs e).envPml4e = (k.envs e').envPml4e → e = e'
  owner : ∀ root, g.role root = .table root [] →
    root = k.mem.bootPml4e ∨ ∃ e, k.InUse e ∧ (k.envs e).envPml4e = some root
  bare : ∀ root va, g.role root = .table root [] → va < utop → pml4 va = 1 →
    ¬ Present (k.mem.entry root va)
  kept : ∀ page, reserved page → g.role page = .kept ∨ page = k.mem.bootPml4e

/-- The reserved pages hold what they held. Among them `boot_pml4e` is a table. -/
structure Memory.Holds (reserved : Nat → Prop) (m m' : Memory) : Prop where
  bootPml4e : m'.bootPml4e = m.bootPml4e
  word : ∀ page i, reserved page → page ≠ m.bootPml4e → m'.word page i = m.word page i

/-- A memory in which the environments see `view`. Pages that were data hold what they held. -/
structure Shows (reserved : Nat → Prop) (k : Kernel) (g : Layout) (view : Nat → Word → Word) (mem : Memory)
    (g' : Layout) : Prop where
  spaces : Spaces reserved (k.setMem mem) g'
  holds : k.mem.Holds reserved mem
  leaf : ∀ e va, k.InUse e → va < utop → (k.setMem mem).leaf e va = view e va
  boot : ∀ va, va < utop → mem.entry k.mem.bootPml4e va = k.mem.entry k.mem.bootPml4e va
  content : ∀ page i, g.role page = .data → mem.word page i = k.mem.word page i

variable {reserved : Nat → Prop} {k k' : Kernel} {g g' g'' : Layout} {mem mem' : Memory}
  {view view' : Nat → Word → Word}

namespace Memory.Holds

variable {m m' m'' : Memory}

theorem refl (reserved : Nat → Prop) (m : Memory) : m.Holds reserved m := ⟨rfl, fun _ _ _ _ => rfl⟩

theorem trans (first : m.Holds reserved m') (second : m'.Holds reserved m'') : m.Holds reserved m'' where
  bootPml4e := second.bootPml4e.trans first.bootPml4e
  word := by
    intro page i member away
    refine (second.word page i member ?_).trans (first.word page i member away)
    rwa [first.bootPml4e]

end Memory.Holds

namespace Spaces

theorem root (spaces : Spaces reserved k g) {e : Nat} (inUse : k.InUse e) :
    ∃ root, (k.envs e).envPml4e = some root ∧ g.role root = .table root [] := by
  obtain ⟨root, pml4e, -, role, -⟩ := spaces.space e inUse
  exact ⟨root, pml4e, role⟩

theorem role (spaces : Spaces reserved k g) {e root : Nat} (inUse : k.InUse e)
    (pml4e : (k.envs e).envPml4e = some root) : g.role root = .table root [] := by
  obtain ⟨root', pml4e', role⟩ := spaces.root inUse
  rw [pml4e] at pml4e'
  cases pml4e'
  exact role

theorem notBoot (spaces : Spaces reserved k g) {e root : Nat} (inUse : k.InUse e)
    (pml4e : (k.envs e).envPml4e = some root) : root ≠ k.mem.bootPml4e := by
  obtain ⟨root', pml4e', -, -, notBoot⟩ := spaces.space e inUse
  rw [pml4e] at pml4e'
  cases pml4e'
  exact notBoot

theorem setMem (spaces : Spaces reserved k g) (valid : Consistent mem g') (boot : mem.bootPml4e = k.mem.bootPml4e)
    (roots : ∀ root, g'.role root = .table root [] ↔ g.role root = .table root []) (keeps : g.Keeps g')
    (bare : ∀ root va, g.role root = .table root [] → va < utop → pml4 va = 1 →
      mem.entry root va = k.mem.entry root va) : Spaces reserved (k.setMem mem) g' where
  memory := valid
  space := by
    intro e inUse
    obtain ⟨root, pml4e, cr3, role, notBoot⟩ := spaces.space e inUse
    refine ⟨root, pml4e, cr3, (roots root).mpr role, ?_⟩
    rwa [Kernel.setMem_mem, boot]
  distinct := spaces.distinct
  owner := by
    intro root role
    rw [Kernel.setMem_mem, boot]
    exact spaces.owner root ((roots root).mp role)
  bare := by
    intro root va role below high
    have role' := (roots root).mp role
    rw [Kernel.setMem_mem, bare root va role' below high]
    exact spaces.bare root va role' below high
  kept := fun page member => (spaces.kept page member).imp (keeps page) fun here => here.trans boot.symm

theorem holds (spaces : Spaces reserved k g) (boot : mem.bootPml4e = k.mem.bootPml4e)
    (same : ∀ page i, g.role page = .kept → mem.word page i = k.mem.word page i) : k.mem.Holds reserved mem :=
  ⟨boot, fun page i member away => same page i ((spaces.kept page member).resolve_right away)⟩

theorem shows_same (spaces : Spaces reserved k g) (valid : Consistent mem g')
    (boot : mem.bootPml4e = k.mem.bootPml4e)
    (roots : ∀ root, g'.role root = .table root [] ↔ g.role root = .table root []) (keeps : g.Keeps g')
    (entry : ∀ root va, g.role root = .table root [] → va < utop → mem.entry root va = k.mem.entry root va)
    (content : ∀ page i, g.Still page → mem.word page i = k.mem.word page i) :
    Shows reserved k g k.leaf mem g' where
  spaces := spaces.setMem valid boot roots keeps fun root va role below _ => entry root va role below
  holds := spaces.holds boot fun page i kept => content page i (.inr kept)
  leaf := by
    intro e va inUse below
    obtain ⟨root, pml4e, role⟩ := spaces.root inUse
    rw [Kernel.leaf_eq pml4e, Kernel.leaf_eq (k := k.setMem mem) pml4e]
    exact entry root va role below
  boot := fun va below => entry _ va spaces.memory.tables.boot below
  content := fun page i isData => content page i (.inl isData)

theorem shows_refl (spaces : Spaces reserved k g) : Shows reserved k g k.leaf k.mem g :=
  spaces.shows_same spaces.memory rfl (fun _ => Iff.rfl) (fun _ kept => kept) (fun _ _ _ _ => rfl)
    fun _ _ _ => rfl

theorem shows_sets (spaces : Spaces reserved k g) {e root : Nat} {va value : Word} (inUse : k.InUse e)
    (pml4e : (k.envs e).envPml4e = some root) (low : pml4 va = 0) (valid : Consistent mem g')
    (sets : Sets k.mem g root va value mem g') : Shows reserved k g (remap k.leaf e va value) mem g' := by
  have place : ∀ other va', g.role other = .table other [] →
      (g.place k.mem.bootPml4e other va' = g.place k.mem.bootPml4e root va ↔
        other = root ∧ SamePage va' va) := by
    intro other va' role
    simp only [Layout.place, Prod.mk.injEq, low, Layout.space_zero]
    constructor
    · rintro ⟨space, page⟩
      rw [(indices_of_page page).1, low, Layout.space_zero] at space
      exact ⟨space, page⟩
    · rintro ⟨rfl, page⟩
      rw [(indices_of_page page).1, low, Layout.space_zero]
      exact ⟨rfl, page⟩
  have entry : ∀ other va', g.role other = .table other [] → va' < utop → mem.entry other va' =
      if other = root ∧ SamePage va' va then value else k.mem.entry other va' := by
    intro other va' role below
    rw [sets.entry other va' role below]
    exact if_congr (place other va' role) rfl rfl
  refine ⟨spaces.setMem valid sets.bootPml4e ?_ sets.keeps ?_,
    spaces.holds sets.bootPml4e fun page i kept => sets.content page i (.inr kept), ?_, ?_,
    fun page i isData => sets.content page i (.inl isData)⟩
  · exact fun other => ⟨sets.roots other, sets.table other other []⟩
  · intro other va' role below high
    rw [entry other va' role below, if_neg]
    rintro ⟨-, page⟩
    rw [(indices_of_page page).1, low] at high
    cases high
  · intro other va' used below
    obtain ⟨root', pml4e', role'⟩ := spaces.root used
    rw [Kernel.leaf_eq (k := k.setMem mem) pml4e', Kernel.setMem_mem, entry root' va' role' below, remap,
      Kernel.leaf_eq pml4e']
    refine if_congr (and_congr_left fun _ => ?_) rfl rfl
    constructor
    · rintro rfl
      exact spaces.distinct other e used inUse (pml4e'.trans pml4e.symm)
    · rintro rfl
      rw [pml4e] at pml4e'
      exact (Option.some.inj pml4e').symm
  · intro va' below
    rw [entry _ va' spaces.memory.tables.boot below, if_neg]
    rintro ⟨same, -⟩
    exact spaces.notBoot inUse pml4e same.symm

end Spaces

namespace Shows

theorem congr (shown : Shows reserved k g view mem g')
    (agree : ∀ e va, k.InUse e → va < utop → view e va = view' e va) : Shows reserved k g view' mem g' where
  spaces := shown.spaces
  holds := shown.holds
  leaf := fun e va inUse below => (shown.leaf e va inUse below).trans (agree e va inUse below)
  boot := shown.boot
  content := shown.content

theorem andThen (first : Shows reserved k g k.leaf mem g') (second : Shows reserved (k.setMem mem) g' view mem' g'')
    (data : ∀ page, g.role page = .data → g'.role page = .data) : Shows reserved k g view mem' g'' where
  spaces := second.spaces
  holds := first.holds.trans second.holds
  leaf := second.leaf
  boot := by
    intro va below
    rw [← first.boot va below, ← first.holds.bootPml4e]
    exact second.boot va below
  content := fun page i isData => (second.content page i (data page isData)).trans (first.content page i isData)

theorem andRemap (first : Shows reserved k g k.leaf mem g') {e : Nat} {va value : Word}
    (second : Shows reserved (k.setMem mem) g' (remap (k.setMem mem).leaf e va value) mem' g'')
    (data : ∀ page, g.role page = .data → g'.role page = .data) :
    Shows reserved k g (remap k.leaf e va value) mem' g'' := by
  refine (first.andThen second data).congr ?_
  intro other va' inUse below
  unfold remap
  rw [first.leaf other va' inUse below]

end Shows

-- Changes of single address spaces

namespace Spaces

theorem fresh (spaces : Spaces reserved k g) {page : Nat} (fresh : Fresh k.mem g page mem g') :
    Shows reserved k g k.leaf mem g' := by
  refine spaces.shows_same fresh.valid ?_ (fun root => fresh.table_iff root root []) fresh.keeps ?_ ?_
  · rw [fresh.memory]
    rfl
  · exact fun root va role below => fresh.entry spaces.memory role (pml4_of_user below)
  · intro other i still
    rw [fresh.word_of_used still.used]

theorem grows (spaces : Spaces reserved k g) (valid : Consistent mem g') (grows : Grows k.mem g mem g') :
    Shows reserved k g k.leaf mem g' :=
  spaces.shows_same valid grows.bootPml4e grows.root_iff
    (fun page kept => by rw [grows.role page (by simp [kept]), kept])
    (fun _ _ role below => grows.entry spaces.memory valid role (pml4_of_user below))
    fun _ _ still => grows.stillWord still

theorem rewrites (spaces : Spaces reserved k g) (rewrites : Rewrites k.mem g mem) : Spaces reserved (k.setMem mem) g :=
  spaces.setMem (rewrites.consistent spaces.memory) rewrites.bootPml4e (fun _ => Iff.rfl) (fun _ kept => kept)
    fun _ _ role below _ => rewrites.entry spaces.memory role (pml4_of_user below)

theorem rewrites_holds (spaces : Spaces reserved k g) (rewrites : Rewrites k.mem g mem) : k.mem.Holds reserved mem :=
  spaces.holds rewrites.bootPml4e fun page i kept => by rw [rewrites.word page (by simp [kept])]

theorem rewrites_leaf (spaces : Spaces reserved k g) (rewrites : Rewrites k.mem g mem) {e : Nat} {va : Word}
    (inUse : k.InUse e) (below : va < utop) : (k.setMem mem).leaf e va = k.leaf e va := by
  obtain ⟨root, pml4e, role⟩ := spaces.root inUse
  rw [Kernel.leaf_eq pml4e, Kernel.leaf_eq (k := k.setMem mem) pml4e]
  exact rewrites.entry spaces.memory role (pml4_of_user below)

section Insert

variable {e root page : Nat} {va : Word} {perm : BitVec 32}

theorem insert (spaces : Spaces reserved k g) (inUse : k.InUse e) (pml4e : (k.envs e).envPml4e = some root)
    (below : va < utop) (low : pml4 va = 0) (insertable : Insertable k.mem g root page va perm) {done : Bool}
    (inserted : k.mem.pageInsert root page va perm = .ok (done, mem)) :
    ∃ g', Shows reserved k g (if done then remap k.leaf e va (leafEntry page perm) else k.leaf) mem g' ∧
      (done = false → Grows k.mem g mem g' ∧ mem.pageFreeList = none) := by
  obtain ⟨done', mem', g', result, valid, sets, failed⟩ :=
    spaces.memory.pageInsert (spaces.role inUse pml4e) below insertable
  rw [result] at inserted
  cases inserted
  refine ⟨g', ?_, failed⟩
  cases done with
  | true => exact spaces.shows_sets inUse pml4e low valid (sets rfl)
  | false => exact spaces.grows valid (failed rfl).1

theorem remove (spaces : Spaces reserved k g) (inUse : k.InUse e) (pml4e : (k.envs e).envPml4e = some root)
    (below : va < utop) (removed : k.mem.pageRemove root va = .ok mem) :
    ∃ g', Shows reserved k g (if (k.mem.lookup root va).isSome then remap k.leaf e va 0 else k.leaf) mem g' := by
  have role := spaces.role inUse pml4e
  rcases spaces.memory.pageRemove_ok role below removed with ⟨rfl, none⟩ | ⟨page, slot, lookup, rfl⟩
  · rw [none]
    exact ⟨g, spaces.shows_refl⟩
  · obtain ⟨valid, sets⟩ := spaces.memory.removed role below lookup
    rw [lookup]
    refine ⟨_, spaces.shows_sets inUse pml4e ?_ valid sets⟩
    obtain ⟨-, found, present, -⟩ := Memory.lookup_eq_some.mp lookup
    have top := pml4_of_user below
    by_contra high
    refine spaces.bare root va role below (by omega) ?_
    rwa [Memory.entry_of_leafSlot found]

/-- `page_alloc` and `page_insert`, and `page_free` where there is no memory for the tables. -/
theorem alloc (spaces : Spaces reserved k g) (inUse : k.InUse e) (pml4e : (k.envs e).envPml4e = some root)
    (below : va < utop) (low : pml4 va = 0) {mem₁ mem₂ : Memory} {done : Bool}
    (allocated : k.mem.pageAlloc true = .ok (some page, mem₁))
    (target : entryPage (leafEntry page perm) = page)
    (inserted : mem₁.pageInsert root page va perm = .ok (done, mem₂)) :
    k.mem.pageFreeList = some page ∧ g.role page = .free ∧
      (done = true → (∀ i, mem₂.word page i = 0) ∧
        ∃ g', Shows reserved k g (remap k.leaf e va (leafEntry page perm)) mem₂ g') ∧
      (done = false → ∀ freed, mem₂.pageFree page = .ok freed → ∃ g', Shows reserved k g k.leaf freed g') := by
  have valid := spaces.memory
  obtain ⟨head, g₁, isFresh⟩ := valid.fresh allocated
  have first := spaces.fresh isFresh
  have data : ∀ other, g.role other = .data → g₁.role other = .data := by
    intro other isData
    have different : other ≠ page := by
      rintro rfl
      rw [isFresh.free] at isData
      cases isData
    rw [isFresh.layout]
    simp [different, isData]
  obtain ⟨g₂, second, failed⟩ := first.spaces.insert inUse pml4e below low
    (isFresh.insertable valid target) inserted
  refine ⟨head, isFresh.free, ?_, ?_⟩
  · rintro rfl
    refine ⟨?_, g₂, first.andRemap second data⟩
    intro i
    rw [second.content page i isFresh.data]
    exact isFresh.zero i
  · rintro rfl freed free
    obtain ⟨grows, -⟩ := failed rfl
    have pageData : g₂.role page = .data := (grows.data_iff page).mpr isFresh.data
    have zero : mem₂.ppRef page = 0 := by
      rw [grows.ppRef page (by simp [isFresh.data]), Kernel.setMem_mem, isFresh.ppRef valid]
    obtain ⟨freed', free', valid', rfl⟩ := second.spaces.memory.pageFree_fresh pageData zero
    rw [Kernel.setMem_mem] at free'
    rw [free'] at free
    cases free
    have table : ∀ other root' path, (g₂.setRole page .free).role other = .table root' path ↔
        g₂.role other = .table root' path :=
      setRole_table_iff (by simp [pageData]) (by simp)
    have third : Shows reserved (k.setMem mem₂) g₂ (k.setMem mem₂).leaf _ (g₂.setRole page .free) :=
      second.spaces.shows_same valid' rfl (fun root => table root root []) (Layout.keeps_setRole (by simp [pageData]))
        (fun _ _ role' below' => second.spaces.memory.entry_congr valid' rfl rfl (fun _ _ _ _ => rfl) table
          role' (pml4_of_user below')) fun _ _ _ => rfl
    have quiet : Shows reserved k g k.leaf mem₂ g₂ := (first.andThen second data).congr first.leaf
    refine ⟨_, (quiet.andThen third ?_).congr quiet.leaf⟩
    exact fun other isData => (grows.data_iff other).mpr (data other isData)

end Insert

end Spaces

end Jos
