import JosKernel.Lib.Linked
import JosKernel.Lib.Counting
import Mathlib.Data.Finset.Prod
import JosKernel.Pmap.Lookup

namespace Jos

/-- What a physical page is used for. A table carries the PML4 it hangs under and the indices that
    lead to it from there. `kept` pages are never handed out again. -/
inductive Role
  | free
  | data
  | kept
  | table (root : Nat) (path : List Nat)
  deriving DecidableEq, Repr

/-- The use of all pages, the PML4s whose entry 1 is the one of `boot_pml4e`, and by how much the
    reference count of a page exceeds the number of its mappings. -/
structure Layout where
  role : Nat → Role
  shares : Nat → Bool
  extra : Nat → Nat

namespace Layout

def setRole (g : Layout) (page : Nat) (role : Role) : Layout :=
  { g with role := fun other => if other = page then role else g.role other }

@[simp] theorem setRole_role (g : Layout) (page : Nat) (role : Role) (other : Nat) :
    (g.setRole page role).role other = if other = page then role else g.role other := rfl

@[simp] theorem setRole_shares (g : Layout) (page : Nat) (role : Role) :
    (g.setRole page role).shares = g.shares := rfl

@[simp] theorem setRole_extra (g : Layout) (page : Nat) (role : Role) :
    (g.setRole page role).extra = g.extra := rfl

def setExtra (g : Layout) (page extra : Nat) : Layout :=
  { g with extra := fun other => if other = page then extra else g.extra other }

@[simp] theorem setExtra_role (g : Layout) (page extra : Nat) : (g.setExtra page extra).role = g.role := rfl

@[simp] theorem setExtra_shares (g : Layout) (page extra : Nat) :
    (g.setExtra page extra).shares = g.shares := rfl

@[simp] theorem setExtra_extra (g : Layout) (page extra other : Nat) :
    (g.setExtra page extra).extra other = if other = page then extra else g.extra other := rfl

def Keeps (g g' : Layout) : Prop := ∀ page, g.role page = .kept → g'.role page = .kept

/-- The pages that no operation on an address space writes. -/
def Still (g : Layout) (page : Nat) : Prop := g.role page = .data ∨ g.role page = .kept

theorem Still.used {g : Layout} {page : Nat} (still : g.Still page) : g.role page ≠ .free := by
  rcases still with same | same <;> simp [same]

theorem Still.not_table {g : Layout} {page root : Nat} {path : List Nat} (still : g.Still page) :
    g.role page ≠ .table root path := by
  rcases still with same | same <;> simp [same]

theorem keeps_setRole {g : Layout} {page : Nat} {role : Role} (used : g.role page ≠ .kept) :
    g.Keeps (g.setRole page role) := by
  intro other kept
  rw [setRole_role, if_neg, kept]
  rintro rfl
  exact used kept

/-- The entries of the tree under `root` that refer to tables of that tree: not the one at UVPT, which
    refers to the PML4 itself, and not entry 1 where it is shared. -/
def Owned (g : Layout) (root : Nat) (path : List Nat) (index : Nat) : Prop :=
  index < 512 ∧ (path = [] → index ≠ 2 ∧ (index = 1 → g.shares root = false))

/-- The PML4 whose tree holds the tables for addresses with PML4 index `top`. -/
def space (g : Layout) (boot root top : Nat) : Nat := if top = 1 ∧ g.shares root then boot else root

def label (g : Layout) (page : Nat) : Option (Nat × List Nat) :=
  match g.role page with
  | .table root path => some (root, path)
  | _ => none

theorem label_eq_some {g : Layout} {page root : Nat} {path : List Nat} :
    g.label page = some (root, path) ↔ g.role page = .table root path := by
  unfold label
  split <;> simp_all

end Layout

def userPath : List Nat → Bool
  | [0, _, _] => true
  | [1, 0, c] => c < 4
  | _ => false

theorem userPath_length {path : List Nat} (user : userPath path = true) : path.length = 3 := by
  unfold userPath at user
  split at user <;> simp_all

theorem userPath_top {top middle last : Nat} (user : userPath [top, middle, last] = true) : top < 2 := by
  unfold userPath at user
  split at user <;> simp_all

def leafTarget (m : Memory) (g : Layout) (slot : Slot) : Option Nat :=
  match g.role slot.1 with
  | .table _ path => if userPath path then m.child slot.1 slot.2 else none
  | _ => none

def area (m : Memory) : Finset Slot := Finset.range m.npages ×ˢ Finset.range 512

def mappings (m : Memory) (g : Layout) (page : Nat) : Nat :=
  Counting.count (area m) (leafTarget m g) page

structure FreeList (m : Memory) (g : Layout) : Prop where
  chain : ∃ nodes, Linked.Chain m.ppLink m.pageFreeList nodes ∧ ∀ page, page ∈ nodes ↔ g.role page = .free
  unused : ∀ page, g.role page = .free → page < m.npages ∧ m.ppRef page = 0
  unlinked : ∀ page, g.role page ≠ .free → m.ppLink page = none

/-- The entry for UVPT, through which an environment reads its own tables. `boot_pml4e` has none. -/
def Memory.windowEntry (m : Memory) (root : Nat) : Word :=
  if root = m.bootPml4e then 0 else page2pa root ||| pteP ||| pteU

structure Tables (m : Memory) (g : Layout) : Prop where
  inside : ∀ page root path, g.role page = .table root path → page < m.npages ∧ path.length ≤ 3
  top : ∀ page root, g.role page = .table root [] → page = root
  down : ∀ page root path index, g.role page = .table root path → path.length < 3 →
    g.Owned root path index → Present (m.word page index) →
    ∃ next, m.word page index = tableEntry next ∧ g.role next = .table root (path ++ [index])
  up : ∀ page root path index, g.role page = .table root (path ++ [index]) →
    ∃ parent, g.role parent = .table root path ∧ g.Owned root path index ∧
      m.word parent index = tableEntry page
  shared : ∀ root, g.shares root = true → g.role root = .table root [] ∧ root ≠ m.bootPml4e ∧
    Present (m.word m.bootPml4e 1) ∧ m.word root 1 = m.word m.bootPml4e 1
  window : ∀ root, g.role root = .table root [] → m.word root 2 = m.windowEntry root
  boot : g.role m.bootPml4e = .table m.bootPml4e []

structure Refs (m : Memory) (g : Layout) : Prop where
  leaf : ∀ table root path index, g.role table = .table root path → userPath path = true → index < 512 →
    Present (m.word table index) → g.role (entryPage (m.word table index)) = .data
  counted : ∀ page, g.role page = .data → page < m.npages ∧
    (m.ppRef page).toNat = mappings m g page + g.extra page
  table : ∀ page root path, g.role page = .table root path → m.ppRef page = 1

structure Consistent (m : Memory) (g : Layout) : Prop where
  small : m.npages ≤ 2^32
  freeList : FreeList m g
  tables : Tables m g
  refs : Refs m g

namespace Tables

variable {m : Memory} {g : Layout}

theorem labelled (tables : Tables m g) (small : m.npages ≤ 2^32) :
    Radix.Labelled m.child id g.Owned 3 g.label where
  down := by
    intro node root path index next labelled short owned found
    rw [Layout.label_eq_some] at labelled ⊢
    obtain ⟨present, page⟩ := Memory.child_eq_some.mp found
    obtain ⟨table, entry, role⟩ := tables.down node root path index labelled short owned present
    have bound := (tables.inside table root _ role).1
    rw [entry, entryPage_tableEntry table (by omega)] at page
    rwa [page] at role
  up := by
    intro node root path index labelled
    rw [Layout.label_eq_some] at labelled
    obtain ⟨parent, role, owned, entry⟩ := tables.up node root path index labelled
    have bound := (tables.inside node root _ labelled).1
    refine ⟨parent, Layout.label_eq_some.mpr role, owned, Memory.child_eq_some.mpr ?_⟩
    rw [entry]
    exact ⟨present_tableEntry node, entryPage_tableEntry node (by omega)⟩
  top := by
    intro node root labelled
    exact tables.top node root (Layout.label_eq_some.mp labelled)

theorem role_injective (tables : Tables m g) (small : m.npages ≤ 2^32) {left right root : Nat}
    {path : List Nat} (hl : g.role left = .table root path) (hr : g.role right = .table root path) :
    left = right :=
  (tables.labelled small).label_injective (Layout.label_eq_some.mpr hl) (Layout.label_eq_some.mpr hr)

theorem index_lt (tables : Tables m g) (before : List Nat) {table root index : Nat} {after : List Nat}
    (role : g.role table = .table root (before ++ index :: after)) : index < 512 := by
  induction after using List.reverseRecOn generalizing table with
  | nil =>
    obtain ⟨_, -, owned, -⟩ := tables.up table root before index role
    exact owned.1
  | append_singleton after last ih =>
    rw [← List.cons_append, ← List.append_assoc] at role
    obtain ⟨_, above, -, -⟩ := tables.up table root _ last role
    exact ih above

theorem space_role (tables : Tables m g) {root : Nat} (role : g.role root = .table root []) (top : Nat) :
    g.role (g.space m.bootPml4e root top) = .table (g.space m.bootPml4e root top) [] := by
  unfold Layout.space
  split
  · exact tables.boot
  · exact role

theorem shares_boot (tables : Tables m g) : g.shares m.bootPml4e = false := by
  by_contra shares
  rw [Bool.not_eq_false] at shares
  exact (tables.shared _ shares).2.1 rfl

/-- The entry with index `top` of a PML4 is the one of the tree that holds the tables below it. -/
theorem space_word (tables : Tables m g) (root top : Nat) :
    m.word (g.space m.bootPml4e root top) top = m.word root top := by
  unfold Layout.space
  split
  · rename_i here
    rw [here.1]
    exact (tables.shared root here.2).2.2.2.symm
  · rfl

theorem space_child (tables : Tables m g) (root top : Nat) :
    m.child (g.space m.bootPml4e root top) top = m.child root top := by
  unfold Memory.child
  rw [tables.space_word root top]

theorem space_owned (tables : Tables m g) (root : Nat) {top : Nat} (low : top < 2) :
    g.Owned (g.space m.bootPml4e root top) [] top := by
  refine ⟨by omega, fun _ => ⟨by omega, ?_⟩⟩
  intro one
  unfold Layout.space
  split
  · exact tables.shares_boot
  · rename_i other
    simpa [one] using other

end Tables

end Jos
