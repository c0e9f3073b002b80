import JosKernel.Pmap.Trees

namespace Jos

variable {m m' m'' : Memory} {g g' g'' : Layout}

/-- The entry that maps `va`, or 0 where there is no page table for it. -/
def Memory.entry (m : Memory) (root : Nat) (va : Word) : Word :=
  match m.leafSlot root va with
  | some slot => m.read slot
  | none => 0

-- Where the tables for an address are

section Slots

variable {root : Nat} {va : Word}

/-- The tables of the lower two PML4 entries hang under the PML4 that `space` names. -/
theorem Consistent.descend_iff (valid : Consistent m g) (role : g.role root = .table root [])
    {top middle last table : Nat} (low : top < 2) (smallMiddle : middle < 512) (smallLast : last < 512) :
    Radix.descend m.child root [top, middle, last] = some table ↔
      g.role table = .table (g.space m.bootPml4e root top) [top, middle, last] := by
  have forest := valid.tables.labelled valid.small
  have shared : Radix.descend m.child root [top, middle, last] =
      Radix.descend m.child (g.space m.bootPml4e root top) [top, middle, last] := by
    rw [Radix.descend_cons, Radix.descend_cons, valid.tables.space_child]
  rw [shared]
  constructor
  · intro walked
    refine Layout.label_eq_some.mp ?_
    have start := Layout.label_eq_some.mpr (valid.tables.space_role role top)
    refine forest.descend_label start (by simp) ?_ walked
    intro before index after split
    match before, split with
    | [], split =>
      cases split
      exact valid.tables.space_owned _ low
    | [_], split =>
      cases split
      exact ⟨smallMiddle, by simp⟩
    | [_, _], split =>
      cases split
      exact ⟨smallLast, by simp⟩
    | _ :: _ :: _ :: _, split => simp at split
  · intro labelled
    exact forest.descend_of_label (Layout.label_eq_some.mpr labelled)

theorem Consistent.leafSlot_iff (valid : Consistent m g) (role : g.role root = .table root [])
    (low : pml4 va < 2) (slot : Slot) :
    m.leafSlot root va = some slot ↔ slot.2 = ptx va ∧
      g.role slot.1 = .table (g.space m.bootPml4e root (pml4 va)) [pml4 va, pdpe va, pdx va] := by
  rw [Memory.leafSlot, Option.map_eq_some_iff]
  constructor
  · rintro ⟨table, walked, rfl⟩
    exact ⟨rfl, (valid.descend_iff role low (pdpe_lt va) (pdx_lt va)).mp walked⟩
  · rintro ⟨index, labelled⟩
    refine ⟨slot.1, (valid.descend_iff role low (pdpe_lt va) (pdx_lt va)).mpr labelled, ?_⟩
    rw [← index]

end Slots

-- How the memory changes while a walk hangs tables

/-- Free pages may have become tables and unused entries above the leaves may have got them; nothing
    else has changed. -/
structure Grows (m : Memory) (g : Layout) (m' : Memory) (g' : Layout) : Prop where
  npages : m'.npages = m.npages
  bootPml4e : m'.bootPml4e = m.bootPml4e
  shares : g'.shares = g.shares
  role : ∀ page, g.role page ≠ .free → g'.role page = g.role page
  fresh : ∀ page, g.role page = .free → g'.role page = .free ∨
    ∃ root path, g'.role page = .table root path ∧ path ≠ [] ∧ (path.length = 3 → ∀ i, m'.word page i = 0)
  word : ∀ page i, g.role page ≠ .free → m'.word page i = m.word page i ∨
    (¬ Present (m.word page i) ∧ ∃ root path, g.role page = .table root path ∧ path.length < 3)
  ppRef : ∀ page, g.role page ≠ .free → m'.ppRef page = m.ppRef page
  extra : ∀ page, g.role page ≠ .free → g'.extra page = g.extra page

namespace Grows

theorem refl (m : Memory) (g : Layout) : Grows m g m g :=
  ⟨rfl, rfl, rfl, fun _ _ => rfl, fun _ => .inl, fun _ _ _ => .inl rfl, fun _ _ => rfl, fun _ _ => rfl⟩

theorem used (grows : Grows m g m' g') {page : Nat} (used : g.role page ≠ .free) :
    g'.role page ≠ .free := by rwa [grows.role page used]

theorem present (grows : Grows m g m' g') {page i : Nat} (used : g.role page ≠ .free)
    (present : Present (m.word page i)) : m'.word page i = m.word page i := by
  rcases grows.word page i used with same | ⟨vacant, -⟩
  · exact same
  · exact absurd present vacant

theorem leafWord (grows : Grows m g m' g') {page root i : Nat} {path : List Nat}
    (role : g.role page = .table root path) (lowest : path.length = 3) :
    m'.word page i = m.word page i := by
  rcases grows.word page i (by simp [role]) with same | ⟨-, root', path', role', short⟩
  · exact same
  · rw [role] at role'
    cases role'
    omega

theorem stillWord (grows : Grows m g m' g') {page i : Nat} (still : g.Still page) :
    m'.word page i = m.word page i := by
  rcases grows.word page i still.used with same | ⟨-, root', path', role', -⟩
  · exact same
  · exact absurd role' still.not_table

theorem still (grows : Grows m g m' g') {page : Nat} (still : g.Still page) : g'.Still page := by
  rwa [Layout.Still, grows.role page still.used]

theorem data_iff (grows : Grows m g m' g') (page : Nat) : g'.role page = .data ↔ g.role page = .data := by
  by_cases free : g.role page = .free
  · rcases grows.fresh page free with free' | ⟨root, path, role, -⟩
    · simp [free, free']
    · simp [free, role]
  · rw [grows.role page free]

theorem root_iff (grows : Grows m g m' g') (root : Nat) :
    g'.role root = .table root [] ↔ g.role root = .table root [] := by
  by_cases free : g.role root = .free
  · rcases grows.fresh root free with free' | ⟨root', path, role, inner, -⟩
    · simp [free, free']
    · simp [free, role, inner]
  · rw [grows.role root free]

theorem trans (first : Grows m g m' g') (second : Grows m' g' m'' g'') : Grows m g m'' g'' where
  npages := second.npages.trans first.npages
  bootPml4e := second.bootPml4e.trans first.bootPml4e
  shares := second.shares.trans first.shares
  role := fun page used => (second.role page (first.used used)).trans (first.role page used)
  fresh := by
    intro page free
    rcases first.fresh page free with free' | ⟨root, path, role, inner, zero⟩
    · exact second.fresh page free'
    · have used : g'.role page ≠ .free := by simp [role]
      refine .inr ⟨root, path, by rw [second.role page used, role], inner, ?_⟩
      intro lowest i
      rw [second.leafWord role lowest, zero lowest i]
  word := by
    intro page i used
    rcases first.word page i used with same | vacant
    · have later := second.word page i (first.used used)
      rwa [same, first.role page used] at later
    · exact .inr vacant
  ppRef := fun page used => (second.ppRef page (first.used used)).trans (first.ppRef page used)
  extra := fun page used => (second.extra page (first.used used)).trans (first.extra page used)

theorem leafTarget (grows : Grows m g m' g') (slot : Slot) :
    leafTarget m' g' slot = leafTarget m g slot := by
  by_cases free : g.role slot.1 = .free
  · have before : Jos.leafTarget m g slot = none := by
      unfold Jos.leafTarget
      rw [free]
    rw [before]
    by_contra found
    obtain ⟨target, found⟩ := Option.ne_none_iff_exists'.mp found
    obtain ⟨root, path, role, user, present, -⟩ := leafTarget_eq_some found
    rcases grows.fresh slot.1 free with free' | ⟨root', path', role', -, zero⟩
    · rw [free'] at role
      cases role
    · rw [role] at role'
      cases role'
      rw [Memory.read, zero (userPath_length user)] at present
      exact absurd present (by decide)
  · unfold Jos.leafTarget
    rw [grows.role slot.1 free]
    split
    · rename_i root path role
      split
      · rename_i user
        exact Memory.child_congr (grows.leafWord role (userPath_length user))
      · rfl
    · rfl

theorem mappings (grows : Grows m g m' g') (page : Nat) : mappings m' g' page = mappings m g page := by
  unfold Jos.mappings area
  rw [grows.npages]
  exact Counting.count_congr fun slot _ => by rw [grows.leafTarget slot]

theorem entry (grows : Grows m g m' g') (valid : Consistent m g) (valid' : Consistent m' g') {root : Nat}
    {va : Word} (role : g.role root = .table root []) (low : pml4 va < 2) :
    m'.entry root va = m.entry root va := by
  have role' : g'.role root = .table root [] := by rw [grows.role root (by simp [role]), role]
  have space : g'.space m'.bootPml4e root (pml4 va) = g.space m.bootPml4e root (pml4 va) := by
    rw [Layout.space, Layout.space, grows.shares, grows.bootPml4e]
  unfold Memory.entry
  cases found : m.leafSlot root va with
  | some slot =>
    obtain ⟨index, table⟩ := (valid.leafSlot_iff role low slot).mp found
    have found' : m'.leafSlot root va = some slot := by
      rw [valid'.leafSlot_iff role' low, space, grows.role slot.1 (by simp [table])]
      exact ⟨index, table⟩
    rw [found']
    exact grows.leafWord table rfl
  | none =>
    cases found' : m'.leafSlot root va with
    | none => rfl
    | some slot =>
      obtain ⟨index, table⟩ := (valid'.leafSlot_iff role' low slot).mp found'
      rw [space] at table
      have free : g.role slot.1 = .free := by
        by_contra used
        rw [grows.role slot.1 used] at table
        rw [(valid.leafSlot_iff role low slot).mpr ⟨index, table⟩] at found
        cases found
      rcases grows.fresh slot.1 free with free' | ⟨root', path', table', -, zero⟩
      · rw [free'] at table
        cases table
      · rw [table] at table'
        cases table'
        exact zero rfl slot.2

end Grows

end Jos
