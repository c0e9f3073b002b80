import JosKernel.Pmap.Operations
import JosKernel.Pmap.Spaces

namespace Jos

variable {m m' : Memory} {g : Layout}

/-- What an address space shows at `va` depends on the tree that holds the tables for `va` alone. -/
theorem Consistent.entry_of_tree (valid : Consistent m g) {root : Nat} {va : Word}
    (role : g.role root = .table root []) (low : pml4 va < 2)
    (top : m'.word root (pml4 va) = m.word root (pml4 va))
    (words : ∀ table path i, g.role table = .table (g.space m.bootPml4e root (pml4 va)) path →
      m'.word table i = m.word table i) : m'.entry root va = m.entry root va := by
  have spaceRole := valid.tables.space_role role (pml4 va)
  have owned := valid.tables.space_owned root low
  have topChild : m'.child root (pml4 va) = m.child root (pml4 va) := Memory.child_congr top
  unfold Memory.entry Memory.leafSlot
  simp only [Radix.descend_cons, Radix.descend_nil, topChild]
  cases first : m.child root (pml4 va) with
  | none => rfl
  | some pdpt =>
    rw [← valid.tables.space_child root (pml4 va)] at first
    have pdptRole := valid.child_role spaceRole (by simp) owned first
    have middleChild : m'.child pdpt (pdpe va) = m.child pdpt (pdpe va) :=
      Memory.child_congr (words _ _ _ pdptRole)
    simp only [Option.bind_some, middleChild]
    cases second : m.child pdpt (pdpe va) with
    | none => rfl
    | some pgdir =>
      have pgdirRole := valid.child_role pdptRole (by simp) ⟨pdpe_lt va, by simp⟩ second
      have lastChild : m'.child pgdir (pdx va) = m.child pgdir (pdx va) :=
        Memory.child_congr (words _ _ _ pgdirRole)
      simp only [Option.bind_some, lastChild]
      cases third : m.child pgdir (pdx va) with
      | none => rfl
      | some table =>
        exact words _ _ _ (valid.child_role pgdirRole (by simp) ⟨pdx_lt va, by simp⟩ third)

theorem Layout.space_zero (g : Layout) (boot root : Nat) : g.space boot root 0 = root := if_neg (by simp)

def Below (root : Nat) (path : List Nat) (other : Nat) (path' : List Nat) : Prop :=
  other = root ∧ path <+: path'

instance (root : Nat) (path : List Nat) (other : Nat) (path' : List Nat) :
    Decidable (Below root path other path') := inferInstanceAs (Decidable (_ ∧ _))

/-- The tables from `path` on go out of use. They stay allocated, but for `page`, the one at `path`. -/
def Layout.prune (g : Layout) (page root : Nat) (path : List Nat) : Layout where
  role := fun other =>
    if other = page then .data
    else match g.role other with
      | .table root' path' => if Below root path root' path' then .kept else .table root' path'
      | role => role
  shares := fun other => g.shares other && !decide (other = root ∧ path = [])
  extra := g.extra

def Layout.settle (g : Layout) (m : Memory) : Layout :=
  { g with extra := fun page => (m.ppRef page).toNat - mappings m g page }

/-- The table at `path`, with all below it, is cut off: `m'` is `m` without the entry that led to it. -/
structure Detaches (m : Memory) (g : Layout) (page root : Nat) (path : List Nat) (m' : Memory) : Prop where
  role : g.role page = .table root path
  notBoot : root ≠ m.bootPml4e
  npages : m'.npages = m.npages
  bootPml4e : m'.bootPml4e = m.bootPml4e
  ppRef : m'.ppRef = m.ppRef
  ppLink : m'.ppLink = m.ppLink
  pageFreeList : m'.pageFreeList = m.pageFreeList
  cleared : ∀ table above i, g.role table = .table root above → above ++ [i] = path → m'.word table i = 0
  word : ∀ table root' path' i, g.role table = .table root' path' → ¬ Below root path root' path' →
    ¬ (root' = root ∧ path' ++ [i] = path) → m'.word table i = m.word table i
  still : ∀ other i, g.Still other → m'.word other i = m.word other i

theorem Layout.prune_data_iff (g : Layout) {page root other : Nat} {path : List Nat} (different : other ≠ page) :
    (g.prune page root path).role other = .data ↔ g.role other = .data := by
  unfold Layout.prune
  simp only [if_neg different]
  cases g.role other with
  | table root' path' =>
    simp only
    split <;> simp
  | _ => simp

namespace Detaches

variable {page root : Nat} {path : List Nat}

theorem role_table_iff (detaches : Detaches m g page root path m') {other root' : Nat} {path' : List Nat} :
    (g.prune page root path).role other = .table root' path' ↔
      g.role other = .table root' path' ∧ ¬ Below root path root' path' := by
  unfold Layout.prune
  simp only
  split
  · rename_i here
    subst here
    rw [detaches.role]
    simp only [reduceCtorEq, Role.table.injEq, false_iff, not_and, not_not]
    rintro ⟨rfl, rfl⟩
    exact ⟨rfl, List.prefix_rfl⟩
  · cases role : g.role other with
    | table root₁ path₁ =>
      simp only
      split
      · rename_i below
        simp only [reduceCtorEq, Role.table.injEq, false_iff, not_and, not_not]
        rintro ⟨rfl, rfl⟩
        exact below
      · rename_i apart
        simp only [Role.table.injEq, iff_self_and]
        rintro ⟨rfl, rfl⟩
        exact apart
    | _ => simp

theorem free_iff (detaches : Detaches m g page root path m') (other : Nat) :
    (g.prune page root path).role other = .free ↔ g.role other = .free := by
  unfold Layout.prune
  simp only
  split
  · rename_i here
    simp [here, detaches.role]
  · cases g.role other with
    | table root' path' =>
      simp only
      split <;> simp
    | _ => simp

/-- The entry that is cut is one of the tree: neither the one at UVPT nor a shared one. -/
theorem last_owned (detaches : Detaches m g page root path m') (valid : Consistent m g)
    {above : List Nat} {i : Nat} (last : above ++ [i] = path) : g.Owned root above i := by
  have role := detaches.role
  rw [← last] at role
  obtain ⟨-, -, owned, -⟩ := valid.tables.up page root above i role
  exact owned

theorem word_of_owned (detaches : Detaches m g page root path m') {table root' i : Nat} {path' : List Nat}
    (role : g.role table = .table root' path') (other : ¬ Below root path root' (path' ++ [i])) :
    m'.word table i = m.word table i := by
  apply detaches.word table root' path' i role
  · rintro ⟨same, before⟩
    exact other ⟨same, before.trans (List.prefix_append _ _)⟩
  · rintro ⟨same, last⟩
    exact other ⟨same, by rw [last]⟩

theorem tables (detaches : Detaches m g page root path m') (valid : Consistent m g) :
    Tables m' (g.prune page root path) where
  inside := by
    intro other root' path' role
    rw [detaches.npages]
    exact valid.tables.inside other root' path' (detaches.role_table_iff.mp role).1
  top := by
    intro other root' role
    exact valid.tables.top other root' (detaches.role_table_iff.mp role).1
  down := by
    intro other root' path' index role short owned present
    obtain ⟨role, kept⟩ := detaches.role_table_iff.mp role
    have owned : g.Owned root' path' index := by
      refine ⟨owned.1, fun top => ⟨(owned.2 top).1, fun one => ?_⟩⟩
      have unshared := (owned.2 top).2 one
      simp only [Layout.prune, Bool.and_eq_false_iff, Bool.not_eq_false', decide_eq_true_eq] at unshared
      rcases unshared with unshared | ⟨rfl, rfl⟩
      · exact unshared
      · exact absurd ⟨rfl, List.nil_prefix⟩ kept
    have kept' : ¬ Below root path root' (path' ++ [index]) := by
      rintro ⟨same, before⟩
      rcases List.prefix_concat_iff.mp before with last | before
      · rw [same] at role
        rw [detaches.cleared other path' index role last.symm] at present
        exact absurd present (by decide)
      · exact kept ⟨same, before⟩
    rw [detaches.word_of_owned role kept'] at present ⊢
    obtain ⟨next, entry, below⟩ := valid.tables.down other root' path' index role short owned present
    exact ⟨next, entry, detaches.role_table_iff.mpr ⟨below, kept'⟩⟩
  up := by
    intro other root' path' index role
    obtain ⟨role, kept⟩ := detaches.role_table_iff.mp role
    obtain ⟨parent, above, owned, entry⟩ := valid.tables.up other root' path' index role
    refine ⟨parent, detaches.role_table_iff.mpr ⟨above, ?_⟩, ⟨owned.1, fun top => ⟨(owned.2 top).1, ?_⟩⟩, ?_⟩
    · rintro ⟨same, before⟩
      exact kept ⟨same, before.trans (List.prefix_append _ _)⟩
    · intro one
      simp [Layout.prune, (owned.2 top).2 one]
    · rw [detaches.word_of_owned above kept, entry]
  shared := by
    intro root' sharing
    simp only [Layout.prune, Bool.and_eq_true, Bool.not_eq_true', decide_eq_false_iff_not] at sharing
    obtain ⟨sharing, kept⟩ := sharing
    obtain ⟨role, other, present, entry⟩ := valid.tables.shared root' sharing
    have bootWord : m'.word m.bootPml4e 1 = m.word m.bootPml4e 1 := by
      apply detaches.word _ _ _ _ valid.tables.boot
      · exact fun below => detaches.notBoot below.1.symm
      · exact fun cut => detaches.notBoot cut.1.symm
    have rootWord : m'.word root' 1 = m.word root' 1 := by
      apply detaches.word _ _ _ _ role
      · rintro ⟨same, before⟩
        exact kept ⟨same, List.prefix_nil.mp before⟩
      · rintro ⟨rfl, last⟩
        rw [((detaches.last_owned valid last).2 rfl).2 rfl] at sharing
        cases sharing
    rw [detaches.bootPml4e, bootWord, rootWord]
    refine ⟨detaches.role_table_iff.mpr ⟨role, ?_⟩, other, present, entry⟩
    rintro ⟨same, before⟩
    exact kept ⟨same, List.prefix_nil.mp before⟩
  window := by
    intro root' role
    obtain ⟨role, kept⟩ := detaches.role_table_iff.mp role
    rw [detaches.word _ _ _ _ role kept, Memory.windowEntry, detaches.bootPml4e]
    · exact valid.tables.window root' role
    · rintro ⟨rfl, last⟩
      exact ((detaches.last_owned valid last).2 rfl).1 rfl
  boot := by
    rw [detaches.bootPml4e]
    exact detaches.role_table_iff.mpr ⟨valid.tables.boot, fun below => detaches.notBoot below.1.symm⟩

theorem leafWord (detaches : Detaches m g page root path m') {table root' i : Nat} {path' : List Nat}
    (valid : Consistent m g) (role : g.role table = .table root' path')
    (kept : ¬ Below root path root' path') (lowest : path'.length = 3) :
    m'.word table i = m.word table i := by
  apply detaches.word _ _ _ _ role kept
  rintro ⟨rfl, last⟩
  have bound := (valid.tables.inside _ _ _ detaches.role).2
  rw [← last, List.length_append, lowest] at bound
  simp at bound

theorem entry (detaches : Detaches m g page root path m') (valid : Consistent m g) {other : Nat} {va : Word}
    (role : g.role other = .table other []) (different : other ≠ root) (low : pml4 va < 2) :
    m'.entry other va = m.entry other va := by
  have apart : g.space m.bootPml4e other (pml4 va) ≠ root := by
    unfold Layout.space
    split
    · exact Ne.symm detaches.notBoot
    · exact different
  refine valid.entry_of_tree role low ?_ ?_
  · exact detaches.word _ _ _ _ role (fun below => different below.1) fun cut => different cut.1
  · intro table path' i inside
    exact detaches.word _ _ _ _ inside (fun below => apart below.1) fun cut => apart cut.1

theorem leafTarget_some (detaches : Detaches m g page root path m') (valid : Consistent m g) {slot : Slot}
    {target : Nat} (found : leafTarget m' (g.prune page root path) slot = some target) :
    leafTarget m g slot = some target := by
  obtain ⟨root', path', role, user, present, entry⟩ := leafTarget_eq_some found
  obtain ⟨role, kept⟩ := detaches.role_table_iff.mp role
  have same : m'.word slot.1 slot.2 = m.word slot.1 slot.2 :=
    detaches.leafWord valid role kept (userPath_length user)
  have here : leafTarget m g (slot.1, slot.2) = m.child slot.1 slot.2 := leafTarget_of_role role user
  rw [show slot = (slot.1, slot.2) from rfl, here]
  rw [Memory.read, same] at present entry
  exact Memory.child_eq_some.mpr ⟨present, entry⟩

theorem mappings_le (detaches : Detaches m g page root path m') (valid : Consistent m g) (target : Nat) :
    mappings m' (g.prune page root path) target ≤ mappings m g target := by
  unfold mappings area
  rw [detaches.npages]
  exact Counting.count_mono fun slot _ => detaches.leafTarget_some valid

/-- Cutting off a part of a tree keeps the invariant: what was mapped in it is never given up. -/
theorem consistent (detaches : Detaches m g page root path m') (valid : Consistent m g) :
    Consistent m' ((g.prune page root path).settle m') where
  small := by
    rw [detaches.npages]
    exact valid.small
  freeList := valid.freeList.congr detaches.ppLink detaches.pageFreeList detaches.npages
    (fun other _ => congrFun detaches.ppRef other) detaches.free_iff
  tables := (detaches.tables valid).congr rfl rfl rfl (fun _ _ _ _ => rfl) (fun _ _ _ => Iff.rfl)
  refs := {
    leaf := by
      intro table root' path' index role user small present
      obtain ⟨role, kept⟩ := detaches.role_table_iff.mp role
      rw [detaches.leafWord valid role kept (userPath_length user)] at present ⊢
      have data := valid.refs.leaf table root' path' index role user small present
      refine (g.prune_data_iff ?_).mpr data
      intro here
      rw [here, detaches.role] at data
      cases data
    counted := by
      intro other isData
      have same : mappings m' ((g.prune page root path).settle m') other =
          mappings m' (g.prune page root path) other :=
        mappings_congr rfl (fun _ _ _ _ => rfl) (fun _ _ _ => Iff.rfl)
      have fewer := detaches.mappings_le valid other
      rw [same, detaches.npages]
      have enough : mappings m' (g.prune page root path) other ≤ (m'.ppRef other).toNat := by
        rw [detaches.ppRef]
        by_cases here : other = page
        · rw [here, valid.refs.mappings_eq_zero (by simp [detaches.role])] at fewer
          rw [here]
          omega
        · have counted := (valid.refs.counted other ((g.prune_data_iff here).mp isData)).2
          omega
      refine ⟨?_, by simp only [Layout.settle]; omega⟩
      by_cases here : other = page
      · rw [here]
        exact (valid.tables.inside page root path detaches.role).1
      · exact (valid.refs.counted other ((g.prune_data_iff here).mp isData)).1
    table := by
      intro other root' path' role
      rw [detaches.ppRef]
      exact valid.refs.table other root' path' (detaches.role_table_iff.mp role).1 }

theorem prune_keeps (detaches : Detaches m g page root path m') : g.Keeps (g.prune page root path) := by
  intro other kept
  have different : other ≠ page := by
    rintro rfl
    rw [detaches.role] at kept
    cases kept
  unfold Layout.prune
  simp only [if_neg different, kept]

section Bare

variable (bare : ∀ i, g.Owned root path i → ¬ Present (m.word page i))

include bare

theorem not_below (detaches : Detaches m g page root path m') (valid : Consistent m g) {other root' : Nat}
    {path' : List Nat} (role : g.role other = .table root' path') (different : other ≠ page) :
    ¬ Below root path root' path' := by
  rintro ⟨rfl, rest, rfl⟩
  induction rest using List.reverseRecOn generalizing other with
  | nil =>
    rw [List.append_nil] at role
    exact different (valid.tables.role_injective valid.small role detaches.role)
  | append_singleton rest index ih =>
    rw [← List.append_assoc] at role
    obtain ⟨parent, above, owned, entry⟩ := valid.tables.up other _ _ index role
    by_cases here : parent = page
    · rw [here, detaches.role] at above
      simp only [Role.table.injEq, true_and] at above
      rw [← above] at owned
      apply bare index owned
      rw [← here, entry]
      exact present_tableEntry other
    · exact ih here above

theorem prune_role (detaches : Detaches m g page root path m') (valid : Consistent m g) {other : Nat}
    (different : other ≠ page) : (g.prune page root path).role other = g.role other := by
  unfold Layout.prune
  simp only [if_neg different]
  cases role : g.role other with
  | table root' path' => exact if_neg (detaches.not_below bare valid role different)
  | _ => rfl

theorem mappings_eq (detaches : Detaches m g page root path m') (valid : Consistent m g) (target : Nat) :
    mappings m' (g.prune page root path) target = mappings m g target := by
  unfold mappings area
  rw [detaches.npages]
  refine Counting.count_congr fun slot member => Eq.congr_left ?_
  have small : slot.2 < 512 := (mem_area.mp member).2
  by_cases here : slot.1 = page
  · have pruned : (g.prune page root path).role slot.1 = .data := by simp [Layout.prune, here]
    unfold leafTarget
    rw [pruned, here, detaches.role]
    simp only
    split
    · rename_i user
      have owned : g.Owned root path slot.2 := ⟨small, by rintro rfl; cases user⟩
      exact (Memory.child_eq_none.mpr (bare slot.2 owned)).symm
    · rfl
  · have role := detaches.prune_role bare valid here
    unfold leafTarget
    rw [role]
    cases inside : g.role slot.1 with
    | table root' path' =>
      simp only
      split
      · rename_i user
        exact Memory.child_congr (detaches.leafWord valid inside
          (detaches.not_below bare valid inside here) (userPath_length user))
      · rfl
    | _ => rfl

end Bare

/-- The table at the cut has one reference, so that giving it up frees it. If it has no entries any more,
    that is all that happens. -/
theorem pageDecref (detaches : Detaches m g page root path m') (valid : Consistent m g) :
    ∃ g', m'.pageDecref (some page) = .ok (m'.release page) ∧ Consistent (m'.release page) g' ∧ g.Keeps g' ∧
      (∀ other root' path', g'.role other = .table root' path' ↔
        g.role other = .table root' path' ∧ ¬ Below root path root' path') ∧
      ((∀ i, g.Owned root path i → ¬ Present (m.word page i)) →
        g'.role page = .free ∧ (∀ other, other ≠ page → g'.role other = g.role other) ∧
          ∀ other, g.role other = .data → g'.extra other = g.extra other) := by
  have valid' := detaches.consistent valid
  have data : ((g.prune page root path).settle m').role page = .data := by
    simp [Layout.settle, Layout.prune]
  have one : m'.ppRef page = 1 := by
    rw [detaches.ppRef]
    exact valid.refs.table page root path detaches.role
  have unmapped : mappings m' (g.prune page root path) page = 0 := by
    have fewer := detaches.mappings_le valid page
    rw [valid.refs.mappings_eq_zero (by simp [detaches.role])] at fewer
    omega
  have spare : ((g.prune page root path).settle m').extra page = 0 + 1 := by
    simp only [Layout.settle, one, unmapped]
    rfl
  have data' : (((g.prune page root path).settle m').setExtra page 0).role page = .data := data
  refine ⟨_, Memory.pageDecref_release (valid'.freeList.unlinked page (by rw [data]; simp)),
    valid'.release data spare, ?_, ?_, ?_⟩
  · intro other kept
    exact Layout.release_keeps data' other (detaches.prune_keeps other kept)
  · intro other root' path'
    rw [← detaches.role_table_iff]
    exact Layout.release_role_iff data' other root' path'
  · intro bare
    refine ⟨?_, ?_, ?_⟩
    · rw [Layout.release, if_pos one, Layout.setRole_role, if_pos rfl]
    · intro other different
      rw [Layout.release_role_of_ne _ _ different, Layout.setExtra_role]
      exact detaches.prune_role bare valid different
    · intro other isData
      have different : other ≠ page := by
        rintro rfl
        rw [detaches.role] at isData
        cases isData
      rw [Layout.release_extra, Layout.setExtra_extra, if_neg different]
      simp only [Layout.settle]
      rw [detaches.mappings_eq bare valid, detaches.ppRef, (valid.refs.counted other isData).2]
      omega

end Detaches

theorem Consistent.detaches_child (valid : Consistent m g) {table root index page : Nat} {path : List Nat}
    (role : g.role table = .table root path) (notBoot : root ≠ m.bootPml4e)
    (below : g.role page = .table root (path ++ [index])) :
    Detaches m g page root (path ++ [index]) (m.write (table, index) 0) where
  role := below
  notBoot := notBoot
  npages := rfl
  bootPml4e := rfl
  ppRef := rfl
  ppLink := rfl
  pageFreeList := rfl
  cleared := by
    intro other above i role' last
    obtain ⟨rfl, same⟩ := List.append_inj' last rfl
    cases same
    rw [valid.tables.role_injective valid.small role' role, Memory.write_word, if_pos ⟨rfl, rfl⟩]
  word := by
    intro other root' path' i role' _ apart
    rw [Memory.write_word, if_neg]
    rintro ⟨rfl, rfl⟩
    rw [role] at role'
    cases role'
    exact apart ⟨rfl, rfl⟩
  still := by
    intro other i still
    rw [Memory.write_word, if_neg]
    rintro ⟨rfl, -⟩
    exact still.not_table role

theorem detaches_root {root : Nat} (role : g.role root = .table root [])
    (notBoot : root ≠ m.bootPml4e) : Detaches m g root root [] m where
  role := role
  notBoot := notBoot
  npages := rfl
  bootPml4e := rfl
  ppRef := rfl
  ppLink := rfl
  pageFreeList := rfl
  cleared := by
    intro _ above i _ last
    simp at last
  word := fun _ _ _ _ _ _ _ => rfl
  still := fun _ _ _ => rfl

end Jos
