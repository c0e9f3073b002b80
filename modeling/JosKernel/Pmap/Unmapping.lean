import JosKernel.Pmap.Agreement

namespace Jos.Memory

variable {m m' : Memory} {root : Nat} {va : Word}

-- Two walks in a row

theorem visible_probe (shown : m.visible root va = true) : (m.probe root va).visible root va = true := by
  have kept : ∀ page, m.word page 0 ≠ 0 → (m.probe root va).word page 0 ≠ 0 := by
    intro page nonzero
    unfold probe
    rw [if_pos shown]
    cases m.child root (pml4 va) with
    | none => exact nonzero
    | some pdpt => exact refresh_ne_zero nonzero
  unfold visible at shown ⊢
  rw [child_probe]
  rw [Bool.and_eq_true, bne_iff_ne] at shown ⊢
  refine ⟨kept root shown.1, ?_⟩
  cases top : m.child root (pml4 va) with
  | none => rfl
  | some pdpt =>
    have nonzero := shown.2
    rw [top, Option.all_some, bne_iff_ne] at nonzero
    rw [Option.all_some, bne_iff_ne]
    exact kept pdpt nonzero

theorem leafSlot_probe : (m.probe root va).leafSlot = m.leafSlot := by
  unfold leafSlot
  rw [child_probe]

theorem probe_probe : (m.probe root va).probe root va = m.probe root va := by
  by_cases shown : m.visible root va = true
  · have again := visible_probe shown
    have first : m.probe root va = (m.child root (pml4 va)).elim m fun pdpt => m.refresh (pdpt, pdpe va) :=
      if_pos shown
    rw [probe, if_pos again, child_probe, first]
    cases m.child root (pml4 va) with
    | none => rfl
    | some pdpt => exact refresh_refresh _
  · have hidden : m.probe root va = m := if_neg shown
    rw [hidden, hidden]

theorem lookup_probe : (m.probe root va).lookup root va = m.lookup root va := by
  by_cases shown : m.visible root va = true
  · unfold lookup
    rw [if_pos (visible_probe shown), if_pos shown, leafSlot_probe]
    cases m.leafSlot root va with
    | none => rfl
    | some slot =>
      obtain ⟨same, page⟩ := read_present slot (child_probe m root va)
      simp only [Option.bind_some]
      by_cases present : Present (m.read slot)
      · rw [if_pos present, if_pos (same.mpr present), page present]
      · rw [if_neg present, if_neg (mt same.mp present)]
  · have hidden : m.probe root va = m := if_neg shown
    rw [hidden]

theorem probe_npages : (m.probe root va).npages = m.npages := by
  unfold probe
  split
  · cases m.child root (pml4 va) <;> simp
  · rfl

theorem InBounds.pageRemove (bounds : m.InBounds root) :
    m.pageRemove root va =
      if m.visible root va = true then
        match m.leafSlot root va with
        | none => .ok (m.probe root va)
        | some slot =>
          ((m.probe root va).pageDecref ((m.lookup root va).map Prod.fst)).map fun m => m.write slot 0
      else .ok m := by
  rw [Memory.pageRemove, (bounds.reach va).pml4eWalk]
  by_cases shown : m.visible root va = true
  · rw [if_pos shown]
    simp only [bind, Except.bind, shown, if_true]
    cases m.leafSlot root va with
    | none => rfl
    | some slot =>
      have bounds' : (m.probe root va).InBounds root := bounds.of_child (child_probe m root va) probe_npages
      simp only [bounds'.pageLookup, lookup_probe, probe_probe]
      cases (m.probe root va).pageDecref ((m.lookup root va).map Prod.fst) <;> rfl
  · rw [if_neg shown]
    have hidden : m.probe root va = m := if_neg shown
    simp only [shown, hidden, bind, Except.bind, Bool.false_eq_true, if_false]

-- What `page_remove` is to do, and when it does

/-- The memory without the mapping of `va`: one leaf entry is cleared, and the page it mapped loses one
    reference and goes to the free list if that was the last one. -/
structure Unmaps (m : Memory) (root : Nat) (va : Word) (m' : Memory) : Prop where
  nothing : (∀ slot, m.leafSlot root va = some slot → ¬ Present (m.read slot)) → m' = m
  mapped : ∀ slot, m.leafSlot root va = some slot → Present (m.read slot) →
    m' = (m.write slot 0).release (entryPage (m.read slot))

/-- The PDPT entry for `va` has the flags that a walk gives it. -/
def Flagged (m : Memory) (root : Nat) (va : Word) : Prop :=
  ∀ pdpt, m.child root (pml4 va) = some pdpt →
    m.refresh (pdpt, pdpe va) = m ∨ m.leafSlot root va = some (pdpt, pdpe va)

/-- Where there is a page table for `va`, the walk is let through if a page is mapped and is not if
    none is; the page is not linked into the free list, and no flags are rewritten. -/
def Removable (m : Memory) (root : Nat) (va : Word) : Prop :=
  (m.visible root va = true → m.Flagged root va) ∧
    ∀ slot, m.leafSlot root va = some slot → (Present (m.read slot) ↔ m.visible root va = true) ∧
      (Present (m.read slot) → m.ppRef (entryPage (m.read slot)) = 1 →
        m.ppLink (entryPage (m.read slot)) = none)

theorem pageDecref_some {page : Nat} (linked : m.ppRef page = 1 → m.ppLink page = none) :
    m.pageDecref (some page) = .ok (m.release page) := by
  by_cases last : m.ppRef page = 1
  · exact pageDecref_release (linked last)
  · have count : (m.setRef page (m.ppRef page - 1)).ppRef page = m.ppRef page - 1 := if_pos rfl
    rw [pageDecref, release]
    simp only [count, sub_one_eq_zero]
    rw [if_neg last, if_neg last]

theorem linked_of_pageDecref {page : Nat} (done : m.pageDecref (some page) = .ok m') :
    m.ppRef page = 1 → m.ppLink page = none := by
  intro last
  have count : (m.setRef page (m.ppRef page - 1)).ppRef page = m.ppRef page - 1 := if_pos rfl
  rw [pageDecref] at done
  simp only [count, sub_one_eq_zero] at done
  rw [if_pos last, pageFree] at done
  split at done
  · cases done
  · rename_i free
    rw [not_or, not_not, not_not] at free
    exact free.2

theorem probe_write {pdpt : Nat} (top : m.child root (pml4 va) = some pdpt) (flagged : m.Flagged root va)
    {slot : Slot} (found : m.leafSlot root va = some slot) (value : Word) :
    (m.probe root va).write slot value = m.write slot value := by
  unfold probe
  split
  · rw [top, Option.elim_some]
    rcases flagged pdpt top with same | leaf
    · rw [same]
    · rw [leaf] at found
      cases found
      exact refresh_write _ _
  · rfl

theorem probe_ppRef (m : Memory) (root : Nat) (va : Word) :
    (m.probe root va).ppRef = m.ppRef ∧ (m.probe root va).ppLink = m.ppLink := by
  have refreshed : ∀ slot, (m.refresh slot).ppRef = m.ppRef ∧ (m.refresh slot).ppLink = m.ppLink := by
    intro slot
    unfold refresh
    split <;> exact ⟨rfl, rfl⟩
  unfold probe
  split
  · cases m.child root (pml4 va) with
    | none => exact ⟨rfl, rfl⟩
    | some pdpt => exact refreshed _
  · exact ⟨rfl, rfl⟩

theorem refresh_eq_self {slot : Slot} (same : (m.refresh slot).read slot = m.read slot) : m.refresh slot = m := by
  by_cases present : Present (m.read slot)
  · have once : m.refresh slot = m.write slot ((m.read slot &&& ~~~flagMask) ||| pteU ||| pteP ||| pteW) :=
      if_pos present
    rw [once, read, write_word, if_pos ⟨rfl, rfl⟩] at same
    rw [once, same, write_same]
  · exact if_neg present

theorem probe_eq_self (flagged : m.visible root va = true → m.Flagged root va)
    (absent : m.leafSlot root va = none) : m.probe root va = m := by
  unfold probe
  split
  · rename_i shown
    cases top : m.child root (pml4 va) with
    | none => rfl
    | some pdpt =>
      rcases flagged shown pdpt top with same | leaf
      · exact same
      · rw [absent] at leaf
        cases leaf
  · rfl

theorem lookup_of_leafSlot {slot : Slot} (shown : m.visible root va = true)
    (found : m.leafSlot root va = some slot) (present : Present (m.read slot)) :
    m.lookup root va = some (entryPage (m.read slot), slot) :=
  lookup_eq_some.mpr ⟨shown, found, present, rfl⟩

theorem lookup_of_absent {slot : Slot} (found : m.leafSlot root va = some slot)
    (absent : ¬ Present (m.read slot)) : m.lookup root va = none := by
  rw [lookup, found, Option.bind_some, if_neg absent, ite_self]

theorem child_of_leafSlot {slot : Slot} (found : m.leafSlot root va = some slot) :
    ∃ pdpt, m.child root (pml4 va) = some pdpt := by
  obtain ⟨table, reached, -⟩ := Option.map_eq_some_iff.mp found
  rw [Radix.descend_cons, Option.bind_eq_some_iff] at reached
  obtain ⟨pdpt, top, -⟩ := reached
  exact ⟨pdpt, top⟩

theorem InBounds.pageRemove_mapped (bounds : m.InBounds root) {slot : Slot} (shown : m.visible root va = true)
    (found : m.leafSlot root va = some slot) (present : Present (m.read slot))
    (linked : m.ppRef (entryPage (m.read slot)) = 1 → m.ppLink (entryPage (m.read slot)) = none) :
    m.pageRemove root va = .ok (((m.probe root va).write slot 0).release (entryPage (m.read slot))) := by
  obtain ⟨counts, links⟩ := probe_ppRef m root va
  rw [bounds.pageRemove, if_pos shown, found, lookup_of_leafSlot shown found present, ← release_write]
  simp only [Option.map_some]
  rw [pageDecref_some (by rwa [counts, links])]
  rfl

theorem InBounds.removable (bounds : m.InBounds root) (done : m.pageRemove root va = .ok m')
    (unmaps : m.Unmaps root va m') : m.Removable root va := by
  rw [bounds.pageRemove] at done
  cases found : m.leafSlot root va with
  | none =>
    have same := unmaps.nothing fun slot here => by rw [found] at here; cases here
    subst same
    refine ⟨fun shown pdpt top => .inl ?_, fun slot here => by rw [found] at here; cases here⟩
    rw [if_pos shown, found] at done
    have probed := Except.ok.inj done
    rwa [probe, if_pos shown, top, Option.elim_some] at probed
  | some slot =>
    have only : ∀ other, m.leafSlot root va = some other → other = slot := by
      intro other here
      rw [found] at here
      exact (Option.some.inj here).symm
    by_cases present : Present (m.read slot)
    · have after := unmaps.mapped slot found present
      by_cases shown : m.visible root va = true
      · rw [if_pos shown, found, lookup_of_leafSlot shown found present] at done
        simp only [Option.map_some] at done
        obtain ⟨freed, decref, rfl⟩ := Fallible.map_ok.mp done
        have linked := linked_of_pageDecref decref
        obtain ⟨counts, links⟩ := probe_ppRef m root va
        rw [pageDecref_some linked] at decref
        cases decref
        rw [counts, links] at linked
        refine ⟨fun _ pdpt top => ?_, fun other here => ?_⟩
        · by_cases leaf : slot = (pdpt, pdpe va)
          · exact .inr (by rw [found, leaf])
          · left
            apply refresh_eq_self
            have words := congrArg Memory.word after
            rw [release_write, release_word, release_word] at words
            have here := congrFun (congrFun words pdpt) (pdpe va)
            rw [write_word, write_word, if_neg (fun both => leaf (Prod.ext both.1 both.2).symm),
              if_neg (fun both => leaf (Prod.ext both.1 both.2).symm), probe, if_pos shown, top] at here
            exact here
        · rw [only other here]
          exact ⟨iff_of_true present shown, fun _ => linked⟩
      · rw [if_neg shown] at done
        cases done
        have words := congrArg Memory.word after
        rw [release_word] at words
        have here := congrFun (congrFun words slot.1) slot.2
        rw [write_word, if_pos ⟨rfl, rfl⟩] at here
        rw [read, here] at present
        exact absurd present (by decide)
    · have hidden : ¬ m.visible root va = true := by
        intro shown
        rw [if_pos shown, found, lookup_of_absent found present] at done
        cases done
      refine ⟨fun shown => absurd shown hidden, fun other here => ?_⟩
      rw [only other here]
      exact ⟨iff_of_false present hidden, fun here => absurd here present⟩

/-- `page_remove` takes away the mapping of an address, or does nothing where there is none, exactly
    under the condition above. -/
theorem pageRemove_unmaps_iff (bounds : m.InBounds root) :
    (∃ m', m.pageRemove root va = .ok m' ∧ m.Unmaps root va m') ↔ m.Removable root va := by
  constructor
  · rintro ⟨m', done, unmaps⟩
    exact bounds.removable done unmaps
  rintro ⟨flagged, leaf⟩
  cases found : m.leafSlot root va with
  | none =>
    refine ⟨m, ?_, fun _ => rfl, fun slot here => by rw [found] at here; cases here⟩
    rw [bounds.pageRemove, found, probe_eq_self flagged found]
    split <;> rfl
  | some slot =>
    obtain ⟨same, linked⟩ := leaf slot found
    by_cases present : Present (m.read slot)
    · have shown := same.mp present
      obtain ⟨pdpt, top⟩ := child_of_leafSlot found
      refine ⟨_, bounds.pageRemove_mapped shown found present (linked present), ?_, ?_⟩
      · exact fun absent => absurd present (absent slot found)
      · intro other here _
        rw [found] at here
        cases here
        rw [probe_write top (flagged shown) found]
    · refine ⟨m, ?_, fun _ => rfl, fun other here present' => ?_⟩
      · rw [bounds.pageRemove, if_neg (mt same.mpr present)]
      · rw [found] at here
        cases here
        exact absurd present' present

theorem pageRemove_unmaps_iff_onePage :
    (∃ m', (onePage 0).pageRemove 1 0 = .ok m' ∧ (onePage 0).Unmaps 1 0 m') ↔ (onePage 0).Removable 1 0 :=
  pageRemove_unmaps_iff (onePage_inBounds 0 1)

/-- Unmapping the empty page behind the only one that is mapped dereferences NULL. -/
theorem onePage_nullDeref : (onePage 0).InBounds 1 ∧ (0x1000 : Word) < utop ∧
    (∀ page index next, (onePage 0).child page index = some next → 0 < ((onePage 0).ppRef next).toNat) ∧
    (onePage 0).pageRemove 1 0x1000 = .error .nullDeref := by
  refine ⟨onePage_inBounds 0 1, by decide, ?_, rfl⟩
  intro page index next found
  obtain ⟨same, low⟩ := onePage_child found
  change 0 < (if next ≤ 5 then (1 : BitVec 16) else 0).toNat
  rw [if_pos (by omega)]
  decide

end Jos.Memory
