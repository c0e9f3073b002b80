import JosKernel.Pmap.Hardware

namespace Jos.Memory

theorem kaddr_ok {m : Memory} {pa : Word} {page : Nat} (found : m.kaddr pa = .ok page) :
    page = ppn pa := by
  unfold kaddr at found
  split at found
  · cases found
  · exact (Except.ok.inj found).symm

theorem nextTable_lookup {m m' : Memory} {slot : Slot} {next : Option Nat}
    (walked : m.nextTable slot false = .ok (next, m')) : m' = m ∧ next = m.child slot.1 slot.2 := by
  unfold nextTable at walked
  split at walked
  · rename_i present
    cases found : m.kaddr (pteAddr (m.read slot)) with
    | error stop =>
      rw [found] at walked
      cases walked
    | ok table =>
      rw [found] at walked
      cases walked
      refine ⟨rfl, ?_⟩
      rw [kaddr_ok found]
      exact (child_eq_some.mpr ⟨present, rfl⟩).symm
  · rename_i absent
    cases walked
    exact ⟨rfl, (child_eq_none.mpr absent).symm⟩

-- Rewriting the flags of a present entry changes neither its page nor its presence.

theorem entryPage_refresh (pte : Word) :
    entryPage ((pte &&& ~~~flagMask) ||| pteU ||| pteP ||| pteW) = entryPage pte := by
  have aligned : (pte &&& ~~~flagMask).toNat % 4096 = 0 := by
    have := pteAddr_toNat pte
    rw [pteAddr] at this
    omega
  have joined : (pte &&& ~~~flagMask) ||| pteU ||| pteP ||| pteW = pteAddr pte ||| 7 := by
    rw [BitVec.or_assoc, BitVec.or_assoc]
    rfl
  rw [entryPage, joined, pteAddr_or_flags (pteAddr pte) 7 aligned (by decide), entryPage]

theorem present_refresh (pte : Word) :
    Present ((pte &&& ~~~flagMask) ||| pteU ||| pteP ||| pteW) := by
  rw [Present, BitVec.or_assoc, BitVec.or_assoc, BitVec.and_or_distrib_right]
  intro zero
  have bit := congrArg (fun word => word.getLsbD 0) zero
  simp [pteU, pteP, pteW] at bit

theorem refresh_word_of_ne {m : Memory} {slot : Slot} {page index : Nat}
    (other : page ≠ slot.1 ∨ index ≠ slot.2) : (m.refresh slot).word page index = m.word page index := by
  unfold refresh
  split
  · rw [write_word, if_neg (by omega)]
  · rfl

theorem child_refresh (m : Memory) (slot : Slot) : (m.refresh slot).child = m.child := by
  funext page index
  by_cases here : page = slot.1 ∧ index = slot.2
  · unfold refresh
    split
    · rename_i present
      obtain ⟨rfl, rfl⟩ := here
      have before : m.child slot.1 slot.2 = some (entryPage (m.read slot)) :=
        child_eq_some.mpr ⟨present, rfl⟩
      rw [before, child_eq_some, write_word, if_pos ⟨rfl, rfl⟩]
      exact ⟨present_refresh _, entryPage_refresh _⟩
    · rfl
  · exact child_congr (refresh_word_of_ne (by omega))

theorem leafSlot_refresh (m : Memory) (slot : Slot) : (m.refresh slot).leafSlot = m.leafSlot := by
  unfold leafSlot
  rw [child_refresh]

theorem pgdirWalk_lookup {m m' : Memory} {pgdir : Nat} {va : Word} {slot : Option Slot}
    (walked : m.pgdirWalk pgdir va false = .ok (slot, m')) :
    m' = m ∧ slot = (m.child pgdir (pdx va)).map fun table => (table, ptx va) := by
  unfold pgdirWalk at walked
  cases step : m.nextTable (pgdir, pdx va) false with
  | error stop =>
    rw [step] at walked
    cases walked
  | ok result =>
    obtain ⟨table, middle⟩ := result
    obtain ⟨same, rfl⟩ := nextTable_lookup step
    subst middle
    rw [step] at walked
    simp only [bind, Except.bind] at walked
    cases found : m.child pgdir (pdx va) with
    | none =>
      rw [found] at walked
      cases walked
      exact ⟨rfl, rfl⟩
    | some table =>
      rw [found] at walked
      cases walked
      exact ⟨rfl, rfl⟩

theorem pdpeWalk_lookup {m m' : Memory} {pdpt : Nat} {va : Word} {slot : Option Slot}
    (walked : m.pdpeWalk pdpt va false = .ok (slot, m')) :
    (m' = m ∨ m' = m.refresh (pdpt, pdpe va)) ∧
      ∀ found, slot = some found → m' = m.refresh (pdpt, pdpe va) ∧
        Radix.descend m.child pdpt [pdpe va, pdx va] = some found.1 ∧ found.2 = ptx va := by
  unfold pdpeWalk at walked
  split at walked
  · cases walked
    exact ⟨.inl rfl, by simp⟩
  · cases step : (m.refresh (pdpt, pdpe va)).nextTable (pdpt, pdpe va) false with
    | error stop =>
      rw [step] at walked
      cases walked
    | ok result =>
      obtain ⟨pgdir, middle⟩ := result
      obtain ⟨same, rfl⟩ := nextTable_lookup step
      subst middle
      rw [step] at walked
      simp only [bind, Except.bind, child_refresh] at walked
      cases below : m.child pdpt (pdpe va) with
      | none =>
        rw [below] at walked
        cases walked
        exact ⟨.inr rfl, by simp⟩
      | some pgdir =>
        rw [below] at walked
        obtain ⟨rfl, result⟩ := pgdirWalk_lookup walked
        refine ⟨.inr rfl, ?_⟩
        intro found this
        rw [this, child_refresh] at result
        cases last : m.child pgdir (pdx va) with
        | none => simp [last] at result
        | some table =>
          rw [last] at result
          cases result
          simp [below, last]

/-- A walk that creates nothing rewrites at most the flags of the PDPT entry it passes, and the
    entry it finds is the one the MMU reads. -/
theorem pml4eWalk_lookup {m m' : Memory} {root : Nat} {va : Word} {slot : Option Slot}
    (walked : m.pml4eWalk root va false = .ok (slot, m')) :
    (m' = m ∨ ∃ pdpt, m.child root (pml4 va) = some pdpt ∧ m' = m.refresh (pdpt, pdpe va)) ∧
      ∀ found, slot = some found → m.leafSlot root va = some found := by
  unfold pml4eWalk at walked
  split at walked
  · cases walked
    exact ⟨.inl rfl, by simp⟩
  · cases step : m.nextTable (root, pml4 va) false with
    | error stop =>
      rw [step] at walked
      cases walked
    | ok result =>
      obtain ⟨pdpt, middle⟩ := result
      obtain ⟨same, rfl⟩ := nextTable_lookup step
      subst middle
      rw [step] at walked
      simp only [bind, Except.bind] at walked
      cases top : m.child root (pml4 va) with
      | none =>
        rw [top] at walked
        cases walked
        exact ⟨.inl rfl, by simp⟩
      | some pdpt =>
        rw [top] at walked
        obtain ⟨memory, reached⟩ := pdpeWalk_lookup walked
        refine ⟨memory.imp_right fun same => ⟨pdpt, rfl, same⟩, ?_⟩
        intro found this
        obtain ⟨-, table, index⟩ := reached found this
        rw [leafSlot, Radix.descend_cons, top, Option.bind_some, table, Option.map_some, ← index]

theorem nextTable_child {m m' : Memory} {slot : Slot} {create : Bool} {next : Nat} {found : Option Nat}
    (child : m.child slot.1 slot.2 = some next) (walked : m.nextTable slot create = .ok (found, m')) :
    found = some next ∧ m' = m := by
  have present : Present (m.read slot) := (child_eq_some.mp child).1
  have same : m.nextTable slot create = m.nextTable slot false := by
    rw [nextTable, nextTable, if_pos present, if_pos present]
  rw [same] at walked
  obtain ⟨rfl, rfl⟩ := nextTable_lookup walked
  exact ⟨child, rfl⟩

/-- Where the upper levels are present, a walk gives the slot that the MMU finds, if it gives one. -/
theorem pml4eWalk_present {m m' : Memory} {root pdpt pgdir table : Nat} {va : Word} {create : Bool}
    {result : Option Slot} (one : m.child root (pml4 va) = some pdpt) (two : m.child pdpt (pdpe va) = some pgdir)
    (three : m.child pgdir (pdx va) = some table) (walked : m.pml4eWalk root va create = .ok (result, m')) :
    (∀ slot, result = some slot → slot = (table, ptx va)) ∧ (create = true → result ≠ none) ∧
      (m' = m ∨ m' = m.refresh (pdpt, pdpe va)) := by
  unfold pml4eWalk at walked
  split at walked
  · rename_i hidden
    cases walked
    exact ⟨by simp, by simp [hidden.2], .inl rfl⟩
  obtain ⟨⟨_, first⟩, step, upper⟩ := Fallible.bind_ok.mp walked
  obtain ⟨rfl, rfl⟩ := nextTable_child one step
  replace upper : first.pdpeWalk pdpt va create = .ok (result, m') := upper
  unfold pdpeWalk at upper
  split at upper
  · rename_i hidden
    cases upper
    exact ⟨by simp, by simp [hidden.2], .inl rfl⟩
  obtain ⟨⟨_, second⟩, step, lower⟩ := Fallible.bind_ok.mp upper
  obtain ⟨rfl, rfl⟩ := nextTable_child (by rwa [child_refresh]) step
  obtain ⟨⟨_, third⟩, step, last⟩ := Fallible.bind_ok.mp lower
  obtain ⟨rfl, rfl⟩ := nextTable_child (by rwa [child_refresh]) step
  cases last
  exact ⟨by simp, by simp, .inr rfl⟩

theorem pageDecref_word {m m' : Memory} {page : Option Nat} (done : m.pageDecref page = .ok m') :
    m'.word = m.word ∧ m'.npages = m.npages := by
  cases page with
  | none => cases done
  | some page =>
    rw [pageDecref] at done
    split at done
    · rw [pageFree] at done
      split at done
      · cases done
      · cases done
        exact ⟨rfl, rfl⟩
    · cases done
      exact ⟨rfl, rfl⟩

/-- A successful insertion leaves the new entry in the slot that its walk found. -/
theorem pageInsert_slot {m m' : Memory} {root page : Nat} {va : Word} {perm : BitVec 32}
    (inserted : m.pageInsert root page va perm = .ok (true, m')) :
    ∃ slot middle, m.pml4eWalk root va true = .ok (some slot, middle) ∧
      m'.read slot = leafEntry page perm := by
  unfold pageInsert at inserted
  obtain ⟨⟨slot, middle⟩, walk, rest⟩ := Fallible.bind_ok.mp inserted
  cases slot with
  | none => cases rest
  | some slot =>
    obtain ⟨removed, -, rest⟩ := Fallible.bind_ok.mp rest
    cases rest
    refine ⟨slot, middle, walk, ?_⟩
    simp only [read, setRef_word, write_word, and_self, if_true]

/-- What the MMU makes of an address depends on the leaf entry only, given the levels above. -/
theorem mmuWalk_leaf {m : Memory} {root : Nat} {va : Word} {slot : Slot}
    (found : m.leafSlot root va = some slot) (present : Present (m.read slot)) :
    ∃ translation, m.mmuWalk root va = some translation ∧ translation.leaf = m.read slot ∧
      translation.page = entryPage (m.read slot) := by
  simp only [leafSlot, Option.map_eq_some_iff, Radix.descend_cons, Radix.descend_nil,
    Option.bind_eq_some_iff, Option.some.injEq] at found
  obtain ⟨_, ⟨pdpt, top, pgdir, middle, table, last, rfl⟩, rfl⟩ := found
  have leaf : m.child table (ptx va) = some (entryPage (m.word table (ptx va))) :=
    child_eq_some.mpr ⟨present, rfl⟩
  refine ⟨_, by simp only [mmuWalk, top, middle, last, leaf, bind, Option.bind]; rfl, rfl, rfl⟩

end Jos.Memory
