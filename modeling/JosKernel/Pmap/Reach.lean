import JosKernel.Pmap.Layout

namespace Jos

namespace Memory

def Reached (m : Memory) (root page : Nat) : Prop :=
  ∃ path : List Nat, path.length ≤ 3 ∧ (∀ index ∈ path, index < 512) ∧ Radix.descend m.child root path = some page

def RefersTo (m : Memory) (root page : Nat) : Prop :=
  ∃ table index, m.Reached root table ∧ index < 512 ∧ m.child table index = some page

def Clears (m m' : Memory) : Prop := ∀ page index next, m'.child page index = some next → m.child page index = some next

variable {m m' m₁ : Memory} {root : Nat}

theorem Clears.refl (m : Memory) : m.Clears m := fun _ _ _ found => found

theorem Clears.trans (first : m.Clears m') (second : m'.Clears m₁) : m.Clears m₁ :=
  fun page index next found => first page index next (second page index next found)

theorem Clears.of_child (clears : m.Clears m') (same : m₁.child = m'.child) : m.Clears m₁ := by
  intro page index next found
  rw [same] at found
  exact clears page index next found

theorem Clears.write (clears : m.Clears m') (slot : Slot) : m.Clears (m'.write slot 0) := by
  intro page index next found
  obtain ⟨present, target⟩ := child_eq_some.mp found
  rw [write_word] at present target
  split at present
  · exact absurd present (by decide)
  · rename_i apart
    rw [if_neg apart] at target
    exact clears page index next (child_eq_some.mpr ⟨present, target⟩)

theorem Clears.reached (clears : m.Clears m') {page : Nat} (reached : m'.Reached root page) : m.Reached root page := by
  obtain ⟨path, short, small, found⟩ := reached
  exact ⟨path, short, small, Radix.descend_mono clears found⟩

theorem Clears.refers (clears : m.Clears m') {page : Nat} (refers : m'.RefersTo root page) : m.RefersTo root page := by
  obtain ⟨table, index, reached, small, found⟩ := refers
  exact ⟨table, index, clears.reached reached, small, clears _ _ _ found⟩

theorem reached_root (m : Memory) (root : Nat) : m.Reached root root := ⟨[], by simp, by simp, rfl⟩

theorem reached_of_descend {path : List Nat} {page : Nat} (found : Radix.descend m.child root path = some page)
    (short : path.length ≤ 3) (small : ∀ index ∈ path, index < 512) : m.Reached root page :=
  ⟨path, short, small, found⟩

def Lists (m : Memory) (table : Nat) (entries : List (Nat × Nat)) : Prop :=
  ∀ index < 512, ∀ page ∈ m.child table index, (index, page) ∈ entries

instance (m : Memory) (table : Nat) (entries : List (Nat × Nat)) : Decidable (m.Lists table entries) :=
  decidable_of_iff (∀ index < 512, ∀ page ∈ m.child table index, (index, page) ∈ entries) Iff.rfl

theorem Lists.refers_nothing (empty : m.Lists root []) (page : Nat) : ¬ m.RefersTo root page := by
  rintro ⟨table, index, ⟨path, -, small, found⟩, inside, child⟩
  cases path with
  | nil =>
    cases found
    exact absurd (empty index inside page child) (by simp)
  | cons first rest =>
    obtain ⟨next, here, -⟩ := Option.bind_eq_some_iff.mp found
    exact absurd (empty first (small first (by simp)) next here) (by simp)

-- Operations that clear entries

theorem child_of_word (same : m'.word = m.word) : m'.child = m.child := by
  funext page index
  exact child_congr (by rw [same])

theorem pml4eWalk_child {va : Word} {slot : Option Slot} (walked : m.pml4eWalk root va false = .ok (slot, m')) :
    m'.child = m.child := by
  obtain ⟨rfl | ⟨pdpt, -, rfl⟩, -⟩ := pml4eWalk_lookup walked
  · rfl
  · exact child_refresh m _

theorem pageLookup_child {va : Word} {found : Option (Nat × Slot)}
    (looked : m.pageLookup root va = .ok (found, m')) : m'.child = m.child := by
  obtain ⟨⟨slot, after⟩, walked, rest⟩ := Fallible.bind_ok.mp looked
  have same := pml4eWalk_child walked
  cases slot with
  | none =>
    cases rest
    exact same
  | some slot =>
    simp only at rest
    split at rest
    · obtain ⟨page, -, rest⟩ := Fallible.bind_ok.mp rest
      cases rest
      exact same
    · cases rest
      exact same

theorem pageRemove_clears {va : Word} (removed : m.pageRemove root va = .ok m') : m.Clears m' := by
  obtain ⟨⟨slot, walked⟩, walk, rest⟩ := Fallible.bind_ok.mp removed
  have first : m.Clears walked := (Clears.refl m).of_child (pml4eWalk_child walk)
  cases slot with
  | none =>
    cases rest
    exact first
  | some slot =>
    obtain ⟨⟨found, looked⟩, lookup, rest⟩ := Fallible.bind_ok.mp rest
    obtain ⟨given, decref, rest⟩ := Fallible.bind_ok.mp rest
    cases rest
    have second : m.Clears looked := first.of_child (pageLookup_child lookup)
    exact (second.of_child (child_of_word (pageDecref_word decref).1)).write slot

end Memory

variable {m : Memory} {g : Layout}

theorem Consistent.reached_of_role (valid : Consistent m g) {page root : Nat} {path : List Nat}
    (role : g.role page = .table root path) : m.Reached root page := by
  have found := (valid.tables.labelled valid.small).descend_of_label (Layout.label_eq_some.mpr role)
  refine ⟨path, (valid.tables.inside page root path role).2, ?_, found⟩
  intro index member
  obtain ⟨before, after, rfl⟩ := List.append_of_mem member
  exact valid.tables.index_lt before role

end Jos
