import JosKernel.Env.Loading

namespace Jos

variable {reserved : Nat → Prop} {k k' : Kernel} {g : Layout} {e : Nat}

def Kernel.Roots (k : Kernel) (root : Nat) : Prop :=
  root = k.mem.bootPml4e ∨ ∃ e, k.InUse e ∧ (k.envs e).envPml4e = some root

def Memory.OnFreeList (m : Memory) (page : Nat) : Prop :=
  ∃ nodes, Linked.Chain m.ppLink m.pageFreeList nodes ∧ page ∈ nodes

theorem Consistent.onFreeList_iff {m : Memory} (valid : Consistent m g) (page : Nat) :
    m.OnFreeList page ↔ g.role page = .free := by
  obtain ⟨nodes, chain, members⟩ := valid.freeList.chain
  rw [← members]
  constructor
  · rintro ⟨nodes', chain', member⟩
    rwa [Linked.chain_unique chain chain']
  · exact fun member => ⟨nodes, chain, member⟩

def Kernel.CountsExact (k : Kernel) (e : Nat) : Prop :=
  ∀ va, va < utop → Present (k.leaf e va) →
    (k.mem.ppRef (entryPage (k.leaf e va))).toNat = k.mem.leafCount k.Roots (entryPage (k.leaf e va))

def Kernel.Reclaimed (k : Kernel) (e : Nat) : Prop :=
  ∀ va root mem, va < utop → Present (k.leaf e va) → (k.envs e).envPml4e = some root →
    k.mem.pageRemove root va = .ok mem → mem.OnFreeList (entryPage (k.leaf e va))

theorem Spaces.roots_iff (spaces : Spaces reserved k g) (root : Nat) : k.Roots root ↔ g.role root = .table root [] := by
  constructor
  · rintro (rfl | ⟨e, inUse, pml4e⟩)
    · exact spaces.memory.tables.boot
    · exact spaces.role inUse pml4e
  · exact spaces.owner root

structure Kernel.Overcounted (k : Kernel) (g : Layout) (e root : Nat) (va : Word) (page : Nat) : Prop where
  valid : Consistent k.mem g
  roots : ∀ other, k.Roots other → g.role other = .table other []
  pml4e : (k.envs e).envPml4e = some root
  inUse : k.InUse e
  below : va < utop
  present : Present (k.leaf e va)
  target : entryPage (k.leaf e va) = page
  extra : g.extra page = 1

namespace Kernel.Overcounted

variable {root page : Nat} {va : Word}

theorem role (leak : k.Overcounted g e root va page) : g.role root = .table root [] :=
  leak.roots root (.inr ⟨e, leak.inUse, leak.pml4e⟩)

theorem slot (leak : k.Overcounted g e root va page) : ∃ slot, k.mem.leafSlot root va = some slot ∧
    Present (k.mem.read slot) ∧ entryPage (k.mem.read slot) = page := by
  have present := leak.present
  have target := leak.target
  rw [Kernel.leaf_eq leak.pml4e] at present target
  cases found : k.mem.leafSlot root va with
  | none =>
    rw [Memory.entry, found] at present
    exact absurd present (show ¬ Present 0 by decide)
  | some slot =>
    rw [Memory.entry_of_leafSlot found] at present target
    exact ⟨slot, rfl, present, target⟩

theorem data (leak : k.Overcounted g e root va page) : g.role page = .data := by
  obtain ⟨slot, found, present, target⟩ := leak.slot
  rw [← target]
  exact (leak.valid.leafSlot_user leak.role leak.below found).2.2 present

theorem not_last (leak : k.Overcounted g e root va page) : k.mem.ppRef page ≠ 1 := by
  obtain ⟨slot, found, present, target⟩ := leak.slot
  obtain ⟨small, ⟨path, tableRole, user⟩, -⟩ := leak.valid.leafSlot_user leak.role leak.below found
  have positive : 0 < mappings k.mem g page := by
    refine Counting.count_pos (mem_area.mpr ⟨(leak.valid.tables.inside _ _ _ tableRole).1, small⟩) ?_
    rw [leafTarget_of_role tableRole user]
    exact Memory.child_eq_some.mpr ⟨present, target⟩
  have counted := (leak.valid.refs.counted page leak.data).2
  rw [leak.extra] at counted
  intro one
  rw [one] at counted
  change 1 = _ at counted
  omega

theorem not_countsExact (leak : k.Overcounted g e root va page) : ¬ k.CountsExact e := by
  intro exact
  have counted := (leak.valid.refs.counted page leak.data).2
  have bound := leak.valid.leafCount_le leak.roots page
  have same := exact va leak.below leak.present
  rw [leak.target] at same
  rw [leak.extra] at counted
  omega

theorem not_reclaimed (leak : k.Overcounted g e root va page) : ¬ k.Reclaimed e := by
  intro reclaimed
  have kept : ∀ {mem g'}, k.mem.pageRemove root va = .ok mem → Consistent mem g' → g'.role page = .data → False := by
    intro mem g' removed valid' data
    have freed := reclaimed va root mem leak.below leak.present leak.pml4e removed
    rw [leak.target, valid'.onFreeList_iff, data] at freed
    cases freed
  obtain ⟨slot, found, present, target⟩ := leak.slot
  cases visible : k.mem.visible root va with
  | false =>
    have lookup : k.mem.lookup root va = none := by simp [Memory.lookup, visible]
    have removed := leak.valid.pageRemove leak.role leak.below
    rw [lookup] at removed
    simp only [visible, Bool.false_eq_true, false_and, if_false] at removed
    exact kept removed leak.valid leak.data
  | true =>
    have lookup := Memory.lookup_eq_some.mpr ⟨visible, found, present, target⟩
    have removed := leak.valid.pageRemove leak.role leak.below
    rw [lookup] at removed
    refine kept removed (leak.valid.removed leak.role leak.below lookup).1 ?_
    rw [Layout.release, if_neg leak.not_last, leak.data]

end Kernel.Overcounted

theorem Kernel.envCreate_ok {program : Program} (created : k.envCreate program = .ok k') :
    ∃ e k₁ root mem, k.envFreeList = some e ∧ k.envAlloc none 0 = .ok (.ok e, k₁) ∧
      (k₁.envs e).envPml4e = some root ∧ k₁.mem.loadIcode root program = .ok mem ∧
      Touches (fun other => other = e) (k₁.setMem mem) k' := by
  obtain ⟨⟨result, k₁⟩, allocated, rest⟩ := Fallible.bind_ok.mp created
  cases result with
  | error code => cases rest
  | ok e =>
    obtain ⟨root, pml4e, rest⟩ := Fallible.bind_ok.mp rest
    obtain ⟨mem, loaded, rest⟩ := Fallible.bind_ok.mp rest
    cases rest
    refine ⟨e, k₁, root, mem, ?_, allocated, Kernel.pml4eOf_ok.mp pml4e, loaded,
      .setEnv ⟨rfl, rfl, rfl, rfl, Iff.rfl⟩⟩
    rcases Kernel.envAlloc_ok allocated with ⟨code, failed, -⟩ | ⟨e', p, mem, made, head, -⟩
    · cases failed
    · cases made
      exact head

theorem Spaces.envCreate_stack (spaces : Spaces reserved k g) (table : EnvTable k) {program : Program}
    (inside : ∀ ph ∈ program.headers, ph.InUserPart) (head : k.envFreeList = some e)
    (created : k.envCreate program = .ok k') :
    ∃ g' root page, k'.Overcounted g' e root stackPage page := by
  obtain ⟨e', k₁, root, mem, head', allocated, pml4e, loaded, touches⟩ := Kernel.envCreate_ok created
  rw [head] at head'
  cases head'
  obtain ⟨⟨g₁, spaces₁⟩, users, -, -⟩ := spaces.envAlloc (fun _ => table.head_free) allocated
  have inUse : k₁.InUse e := (users e).mpr (.inr rfl)
  obtain ⟨g', page, valid, boot, kept, entry, target, extra⟩ :=
    spaces₁.memory.loadIcode (spaces₁.role inUse pml4e) inside loaded
  have pml4e' : (k'.envs e).envPml4e = some root := by rw [(touches.slot e).envPml4e]; exact pml4e
  have memory : k'.mem = mem := touches.mem
  refine ⟨g', root, page, ?_, ?_, pml4e', (touches.inUse e).mpr inUse, by decide, ?_, ?_, extra⟩
  · rw [memory]
    exact valid
  · rintro other (rfl | ⟨e', inUse', root'⟩)
    · rw [memory, boot]
      exact kept _ spaces₁.memory.tables.boot
    · rw [(touches.slot e').envPml4e] at root'
      exact kept other (spaces₁.role ((touches.inUse e').mp inUse') root')
  · rw [Kernel.leaf_eq pml4e', memory, entry]
    exact present_leafEntry page regionPerm
  · rw [Kernel.leaf_eq pml4e', memory]
    exact target

end Jos
