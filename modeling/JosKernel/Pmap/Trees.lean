import JosKernel.Pmap.Updates

namespace Jos

variable {m : Memory} {g : Layout}

def Memory.hang (m : Memory) (page : Nat) (slot : Slot) : Memory :=
  (m.setRef page 1).write slot (tableEntry page)

def Layout.hang (g : Layout) (page root : Nat) (path : List Nat) (index : Nat) : Layout :=
  g.setRole page (.table root (path ++ [index]))

section Hang

variable {page other root root' index i : Nat} {path path' : List Nat} {slot : Slot}

theorem hang_word_of_ne (different : ¬ (other = slot.1 ∧ i = slot.2)) :
    (m.hang page slot).word other i = m.word other i := by
  rw [Memory.hang, Memory.write_word, if_neg different, Memory.setRef_word]

theorem hang_word_here : (m.hang page slot).word slot.1 slot.2 = tableEntry page := by
  rw [Memory.hang, Memory.write_word, if_pos ⟨rfl, rfl⟩]

theorem hang_ppRef : (m.hang page slot).ppRef other = if other = page then 1 else m.ppRef other := rfl

theorem hang_role_here : (g.hang page root path index).role page = .table root (path ++ [index]) := by
  rw [Layout.hang, Layout.setRole_role, if_pos rfl]

theorem hang_role_of_ne (different : other ≠ page) :
    (g.hang page root path index).role other = g.role other := by
  rw [Layout.hang, Layout.setRole_role, if_neg different]

theorem hang_role_cases (role : (g.hang page root path index).role other = .table root' path') :
    (other = page ∧ root' = root ∧ path' = path ++ [index]) ∨
      (other ≠ page ∧ g.role other = .table root' path') := by
  by_cases here : other = page
  · rw [here, hang_role_here] at role
    cases role
    exact .inl ⟨here, rfl, rfl⟩
  · rw [hang_role_of_ne here] at role
    exact .inr ⟨here, role⟩

end Hang

structure Hangs (m : Memory) (g : Layout) (page table root index : Nat) (path : List Nat) : Prop where
  data : g.role page = .data
  unmapped : mappings m g page = 0
  empty : ∀ i, m.word page i = 0
  parent : g.role table = .table root path
  higher : path.length < 3
  owned : g.Owned root path index
  vacant : ¬ Present (m.word table index)

namespace Hangs

variable {page table root index : Nat} {path : List Nat}

theorem not_page (hangs : Hangs m g page table root index path) {other root' : Nat} {path' : List Nat}
    (role : g.role other = .table root' path') : other ≠ page := by
  rintro rfl
  rw [hangs.data] at role
  cases role

theorem word_of_present (hangs : Hangs m g page table root index path) {other i : Nat}
    (present : Present (m.word other i)) :
    (m.hang page (table, index)).word other i = m.word other i := by
  apply hang_word_of_ne
  rintro ⟨rfl, rfl⟩
  exact hangs.vacant present

theorem tables (hangs : Hangs m g page table root index path) (valid : Consistent m g) :
    Tables (m.hang page (table, index))
      (g.hang page root path index) where
  inside := by
    intro other root' path' role
    rcases hang_role_cases role with ⟨rfl, rfl, rfl⟩ | ⟨-, role⟩
    · have higher := hangs.higher
      exact ⟨(valid.refs.counted other hangs.data).1, by simp; omega⟩
    · exact valid.tables.inside other root' path' role
  top := by
    intro other root' role
    rcases hang_role_cases role with ⟨-, -, nonempty⟩ | ⟨-, role⟩
    · simp at nonempty
    · exact valid.tables.top other root' role
  down := by
    intro other root' path' i role short owned present
    rcases hang_role_cases role with ⟨rfl, -, -⟩ | ⟨different, role⟩
    · rw [hang_word_of_ne (by rintro ⟨rfl, -⟩; exact hangs.not_page hangs.parent rfl), hangs.empty] at present
      exact absurd present (by decide)
    · by_cases here : other = table ∧ i = index
      · rw [here.1, hangs.parent] at role
        cases role
        rw [here.1, here.2]
        exact ⟨page, hang_word_here, hang_role_here⟩
      · rw [hang_word_of_ne here] at present ⊢
        obtain ⟨next, entry, below⟩ := valid.tables.down other root' path' i role short owned present
        exact ⟨next, entry, by rwa [hang_role_of_ne (hangs.not_page below)]⟩
  up := by
    intro other root' path' i role
    rcases hang_role_cases role with ⟨rfl, rfl, split⟩ | ⟨-, role⟩
    · obtain ⟨rfl, last⟩ := List.append_inj' split rfl
      cases last
      refine ⟨table, ?_, hangs.owned, hang_word_here⟩
      rw [hang_role_of_ne (hangs.not_page hangs.parent), hangs.parent]
    · obtain ⟨parent, above, owned, entry⟩ := valid.tables.up other root' path' i role
      refine ⟨parent, by rwa [hang_role_of_ne (hangs.not_page above)], owned, ?_⟩
      rw [hangs.word_of_present (by rw [entry]; exact present_tableEntry other), entry]
  shared := by
    intro root' sharing
    obtain ⟨role, other, present, entry⟩ := valid.tables.shared root' sharing
    rw [show (m.hang page (table, index)).bootPml4e = m.bootPml4e from rfl,
      hangs.word_of_present present,
      hangs.word_of_present (entry ▸ present)]
    exact ⟨by rwa [hang_role_of_ne (hangs.not_page role)], other, present, entry⟩
  window := by
    intro root' role
    rcases hang_role_cases role with ⟨-, -, nonempty⟩ | ⟨-, role⟩
    · simp at nonempty
    · rw [hang_word_of_ne]
      · exact valid.tables.window root' role
      · rintro ⟨rfl, here⟩
        have same := role.symm.trans hangs.parent
        cases same
        exact (hangs.owned.2 rfl).1 here.symm
  boot := by
    rw [show (m.hang page (table, index)).bootPml4e = m.bootPml4e from rfl,
      hang_role_of_ne (hangs.not_page valid.tables.boot)]
    exact valid.tables.boot

theorem leafTarget_same (hangs : Hangs m g page table root index path) (slot : Slot) :
    leafTarget (m.hang page (table, index))
      (g.hang page root path index) slot = leafTarget m g slot := by
  by_cases here : slot.1 = page
  · have before : leafTarget m g slot = none := by
      unfold leafTarget
      rw [here, hangs.data]
    rw [before]
    by_contra found
    obtain ⟨target, found⟩ := Option.ne_none_iff_exists'.mp found
    obtain ⟨_, _, _, _, present, -⟩ := leafTarget_eq_some found
    rw [Memory.read, here,
      hang_word_of_ne (by rintro ⟨same, -⟩; exact hangs.not_page hangs.parent same.symm),
      hangs.empty] at present
    exact absurd present (by decide)
  · by_cases there : slot.1 = table
    · have none : ∀ m' : Memory, ∀ g' : Layout, g'.role slot.1 = g.role slot.1 → leafTarget m' g' slot = none := by
        intro m' g' same
        unfold leafTarget
        rw [same, there, hangs.parent]
        simp only
        rw [if_neg]
        intro user
        have := userPath_length user
        have := hangs.higher
        omega
      rw [none m g rfl, none _ _ (hang_role_of_ne here)]
    · refine leafTarget_congr (fun _ _ _ => hang_word_of_ne (fun same => there same.1)) ?_
      intro root' path'
      rw [hang_role_of_ne here]

theorem mappings_same (hangs : Hangs m g page table root index path) (other : Nat) :
    mappings (m.hang page (table, index))
      (g.hang page root path index) other = mappings m g other :=
  Counting.count_congr fun slot _ => by rw [hangs.leafTarget_same slot]

theorem consistent (hangs : Hangs m g page table root index path) (valid : Consistent m g) :
    Consistent (m.hang page (table, index))
      (g.hang page root path index) where
  small := valid.small
  freeList := by
    refine valid.freeList.congr rfl rfl rfl ?_ ?_
    · intro other free
      rw [hang_ppRef, if_neg]
      rintro rfl
      rw [hangs.data] at free
      cases free
    · intro other
      by_cases here : other = page
      · rw [here, hang_role_here, hangs.data]
        simp
      · rw [hang_role_of_ne here]
  tables := hangs.tables valid
  refs := {
    leaf := by
      intro other root' path' i role user small present
      rcases hang_role_cases role with ⟨rfl, -, -⟩ | ⟨-, role⟩
      · rw [hang_word_of_ne (by rintro ⟨rfl, -⟩; exact hangs.not_page hangs.parent rfl), hangs.empty]
          at present
        exact absurd present (by decide)
      · have different : ¬ (other = table ∧ i = index) := by
          rintro ⟨rfl, -⟩
          rw [hangs.parent] at role
          cases role
          have := userPath_length user
          have := hangs.higher
          omega
        rw [hang_word_of_ne different] at present ⊢
        have target := valid.refs.leaf other root' path' i role user small present
        rw [hang_role_of_ne, target]
        intro here
        have unmapped := hangs.unmapped
        rw [mappings, Counting.count_eq_zero] at unmapped
        refine unmapped (other, i) (mem_area.mpr ⟨(valid.tables.inside _ _ _ role).1, small⟩) ?_
        rw [leafTarget_of_role role user]
        exact Memory.child_eq_some.mpr ⟨present, here⟩
    counted := by
      intro other data
      rw [hangs.mappings_same]
      by_cases here : other = page
      · rw [here, hang_role_here] at data
        cases data
      · rw [hang_role_of_ne here] at data
        rw [hang_ppRef, if_neg here]
        exact valid.refs.counted other data
    table := by
      intro other root' path' role
      rw [hang_ppRef]
      rcases hang_role_cases role with ⟨rfl, -, -⟩ | ⟨different, role⟩
      · rw [if_pos rfl]
      · rw [if_neg different]
        exact valid.refs.table other root' path' role }

end Hangs

end Jos
