import JosKernel.Env.Teardown

namespace Jos

namespace Memory

structure Agree (seen : Nat → Prop) (m m' : Memory) : Prop where
  npages : m'.npages = m.npages
  bootPml4e : m'.bootPml4e = m.bootPml4e
  ppRef : m'.ppRef = m.ppRef
  ppLink : m'.ppLink = m.ppLink
  pageFreeList : m'.pageFreeList = m.pageFreeList
  userMemCheckAddr : m'.userMemCheckAddr = m.userMemCheckAddr
  word : ∀ page, seen page → m'.word page = m.word page

end Memory

open Memory Fallible

/-- Two runs of the same code: one has cleared entries of `m`, the other does the same although it sees
    other contents in the pages that are not reached in `m`. -/
structure Tracks (m : Memory) (root : Nat) (m₁ m₁' : Memory) : Prop where
  clears : m.Clears m₁
  agree : Agree (m.Reached root) m₁ m₁'

namespace Tracks

variable {m m₁ m₁' : Memory} {root : Nat}

theorem word (tracks : Tracks m root m₁ m₁') {page : Nat} (seen : m.Reached root page) (index : Nat) :
    m₁'.word page index = m₁.word page index := congrFun (tracks.agree.word page seen) index

theorem write (tracks : Tracks m root m₁ m₁') (slot : Slot) : Tracks m root (m₁.write slot 0) (m₁'.write slot 0) where
  clears := tracks.clears.write slot
  agree := {
    npages := tracks.agree.npages
    bootPml4e := tracks.agree.bootPml4e
    ppRef := tracks.agree.ppRef
    ppLink := tracks.agree.ppLink
    pageFreeList := tracks.agree.pageFreeList
    userMemCheckAddr := tracks.agree.userMemCheckAddr
    word := by
      intro page seen
      funext index
      rw [write_word, write_word, tracks.word seen] }

theorem refresh (tracks : Tracks m root m₁ m₁') {slot : Slot} (seen : m.Reached root slot.1) :
    Tracks m root (m₁.refresh slot) (m₁'.refresh slot) := by
  refine ⟨tracks.clears.of_child (child_refresh m₁ slot), ?_⟩
  have same : m₁'.read slot = m₁.read slot := tracks.word seen slot.2
  unfold Memory.refresh
  rw [same]
  split
  · refine { tracks.agree with word := ?_ }
    intro page seen'
    funext index
    rw [write_word, write_word, tracks.word seen']
  · exact tracks.agree

theorem kaddr (tracks : Tracks m root m₁ m₁') (pa : Word) : m₁'.kaddr pa = m₁.kaddr pa := by
  unfold Memory.kaddr
  rw [tracks.agree.npages]

theorem pa2page (tracks : Tracks m root m₁ m₁') (pa : Word) : m₁'.pa2page pa = m₁.pa2page pa := by
  unfold Memory.pa2page
  rw [tracks.agree.npages]

theorem setRef (tracks : Tracks m root m₁ m₁') (page : Nat) (count : BitVec 16) :
    Tracks m root (m₁.setRef page count) (m₁'.setRef page count) where
  clears := tracks.clears.of_child rfl
  agree := { tracks.agree with
    ppRef := by
      funext other
      rw [setRef_ppRef, setRef_ppRef, tracks.agree.ppRef] }

theorem pageFree (tracks : Tracks m root m₁ m₁') (page : Nat) :
    Related (Tracks m root) (m₁.pageFree page) (m₁'.pageFree page) := by
  unfold Memory.pageFree
  rw [tracks.agree.ppRef, tracks.agree.ppLink, tracks.agree.pageFreeList]
  split
  · exact .error _
  · refine .ok ⟨tracks.clears.of_child rfl, ?_⟩
    exact { tracks.agree with
      ppLink := by
        funext other
        rw [setFreeList_ppLink, setFreeList_ppLink, setLink_ppLink, setLink_ppLink, tracks.agree.ppLink]
      pageFreeList := rfl }

theorem pageDecref (tracks : Tracks m root m₁ m₁') (page : Option Nat) :
    Related (Tracks m root) (m₁.pageDecref page) (m₁'.pageDecref page) := by
  unfold Memory.pageDecref
  cases page with
  | none => exact .error _
  | some page =>
    have after := tracks.setRef page (m₁.ppRef page - 1)
    have counts := after.agree.ppRef
    simp only [tracks.agree.ppRef, counts]
    split
    · exact after.pageFree page
    · exact .ok after

-- The walks

theorem nextTable (tracks : Tracks m root m₁ m₁') (slot : Slot) (seen : m.Reached root slot.1) :
    Related (fun r r' => ∃ next, r = (next, m₁) ∧ r' = (next, m₁') ∧
      ∀ table, next = some table → m₁.child slot.1 slot.2 = some table)
      (m₁.nextTable slot false) (m₁'.nextTable slot false) := by
  have same : m₁'.read slot = m₁.read slot := tracks.word seen slot.2
  unfold Memory.nextTable
  rw [same, tracks.kaddr]
  split
  · rename_i present
    cases found : m₁.kaddr (pteAddr (m₁.read slot)) with
    | error stop => exact .error stop
    | ok table =>
      refine .ok ⟨some table, rfl, rfl, ?_⟩
      rintro _ ⟨⟩
      rw [kaddr_ok found]
      exact child_eq_some.mpr ⟨present, rfl⟩
  · exact .ok ⟨none, rfl, rfl, by simp⟩

/-- What both runs get from a walk that starts at `node` and creates nothing: the entry with the indices
    of the address. -/
def Walked (m : Memory) (root : Nat) (before : Memory) (node : Nat) (path : List Nat) (index : Nat)
    (r r' : Option Slot × Memory) : Prop :=
  ∃ slot after after', r = (slot, after) ∧ r' = (slot, after') ∧ Tracks m root after after' ∧
    after.child = before.child ∧
    ∀ found, slot = some found → Radix.descend before.child node path = some found.1 ∧ found.2 = index

theorem Walked.nothing (tracks : Tracks m root m₁ m₁') {before : Memory} (child : m₁.child = before.child)
    (node : Nat) (path : List Nat) (index : Nat) : Walked m root before node path index (none, m₁) (none, m₁') :=
  ⟨none, m₁, m₁', rfl, rfl, tracks, child, by simp⟩

theorem Walked.above {before after : Memory} {node top next index : Nat} {path : List Nat}
    {r r' : Option Slot × Memory} (walked : Walked m root after next path index r r')
    (child : after.child = before.child) (here : before.child node top = some next) :
    Walked m root before node (top :: path) index r r' := by
  obtain ⟨slot, last, last', rfl, rfl, tracks, same, slots⟩ := walked
  refine ⟨slot, last, last', rfl, rfl, tracks, same.trans child, ?_⟩
  rw [Radix.descend_cons, here, ← child]
  exact slots

theorem pgdirWalk (tracks : Tracks m root m₁ m₁') {pgdir : Nat} {va : Word} (seen : m.Reached root pgdir) :
    Related (Walked m root m₁ pgdir [pdx va] (ptx va)) (m₁.pgdirWalk pgdir va false)
      (m₁'.pgdirWalk pgdir va false) := by
  have step := tracks.nextTable (pgdir, pdx va) seen
  unfold Memory.pgdirWalk
  refine step.bind ?_
  rintro _ _ ⟨table, rfl, rfl, child⟩
  cases table with
  | none => exact .ok (.nothing tracks rfl _ _ _)
  | some table =>
    refine .ok ⟨_, _, _, rfl, rfl, tracks, rfl, ?_⟩
    rintro _ ⟨⟩
    rw [Radix.descend_cons, child table rfl]
    exact ⟨rfl, rfl⟩

theorem reached (tracks : Tracks m root m₁ m₁') (path : List Nat) {page : Nat}
    (found : Radix.descend m₁.child root path = some page) (short : path.length ≤ 3)
    (small : ∀ index ∈ path, index < 512) : m.Reached root page :=
  tracks.clears.reached (reached_of_descend found short small)

theorem pdpeWalk (tracks : Tracks m root m₁ m₁') {pdpt top : Nat} {va : Word} (hi : top < 512)
    (above : m₁.child root top = some pdpt) :
    Related (Walked m root m₁ pdpt [pdpe va, pdx va] (ptx va)) (m₁.pdpeWalk pdpt va false)
      (m₁'.pdpeWalk pdpt va false) := by
  have seen : m.Reached root pdpt :=
    tracks.reached [top] (by simp [above]) (by simp) (by simpa using hi)
  have first : m₁'.word pdpt 0 = m₁.word pdpt 0 := tracks.word seen 0
  unfold Memory.pdpeWalk
  rw [first]
  split
  · exact .ok (.nothing tracks rfl _ _ _)
  · have after : Tracks m root (m₁.refresh (pdpt, pdpe va)) (m₁'.refresh (pdpt, pdpe va)) := tracks.refresh seen
    have step := after.nextTable (pdpt, pdpe va) seen
    refine step.bind ?_
    rintro _ _ ⟨pgdir, rfl, rfl, child⟩
    cases pgdir with
    | none => exact .ok (.nothing after (child_refresh _ _) _ _ _)
    | some pgdir =>
      have here := child pgdir rfl
      rw [child_refresh] at here
      have seen' : m.Reached root pgdir := by
        refine tracks.reached [top, pdpe va] (by simp [above, here]) (by simp) ?_
        simp [hi, pdpe_lt]
      exact (after.pgdirWalk seen').mono fun _ _ walked => walked.above (child_refresh _ _) here

theorem pml4eWalk (tracks : Tracks m root m₁ m₁') (va : Word) :
    Related (Walked m root m₁ root [pml4 va, pdpe va, pdx va] (ptx va)) (m₁.pml4eWalk root va false)
      (m₁'.pml4eWalk root va false) := by
  have first : m₁'.word root 0 = m₁.word root 0 := tracks.word (reached_root m root) 0
  unfold Memory.pml4eWalk
  rw [first]
  split
  · exact .ok (.nothing tracks rfl _ _ _)
  · have step := tracks.nextTable (root, pml4 va) (reached_root m root)
    refine step.bind ?_
    rintro _ _ ⟨pdpt, rfl, rfl, child⟩
    cases pdpt with
    | none => exact .ok (.nothing tracks rfl _ _ _)
    | some pdpt =>
      have here := child pdpt rfl
      exact (tracks.pdpeWalk (pml4_lt va) here).mono fun _ _ walked => walked.above rfl here

/-- The page table that a walk ends in is one of the tables that are reached. -/
theorem table_reached (tracks : Tracks m root m₁ m₁') {va : Word} {table : Nat}
    (found : Radix.descend m₁.child root [pml4 va, pdpe va, pdx va] = some table) : m.Reached root table := by
  refine tracks.reached _ found (by simp) ?_
  simp [pml4_lt, pdpe_lt, pdx_lt]

theorem pageLookup (tracks : Tracks m root m₁ m₁') (va : Word) :
    Related (fun r r' => ∃ found after after', r = (found, after) ∧ r' = (found, after') ∧ Tracks m root after after')
      (m₁.pageLookup root va) (m₁'.pageLookup root va) := by
  have walk := tracks.pml4eWalk va
  unfold Memory.pageLookup
  refine walk.bind ?_
  rintro _ _ ⟨slot, after, after', rfl, rfl, tracks', -, slots⟩
  cases slot with
  | none => exact .ok ⟨_, _, _, rfl, rfl, tracks'⟩
  | some slot =>
    have seen : m.Reached root slot.1 := tracks.table_reached (slots slot rfl).1
    have same : after'.read slot = after.read slot := tracks'.word seen slot.2
    simp only [same, tracks'.pa2page]
    split
    · cases after.pa2page (pteAddr (after.read slot)) with
      | error stop => exact .error stop
      | ok page => exact .ok ⟨_, _, _, rfl, rfl, tracks'⟩
    · exact .ok ⟨_, _, _, rfl, rfl, tracks'⟩

theorem pageRemove (tracks : Tracks m root m₁ m₁') (va : Word) :
    Related (Tracks m root) (m₁.pageRemove root va) (m₁'.pageRemove root va) := by
  have walk := tracks.pml4eWalk va
  unfold Memory.pageRemove
  refine walk.bind ?_
  rintro _ _ ⟨slot, after, after', rfl, rfl, tracks₁, -, -⟩
  cases slot with
  | none => exact .ok tracks₁
  | some slot =>
    refine (tracks₁.pageLookup va).bind ?_
    rintro _ _ ⟨found, looked, looked', rfl, rfl, tracks₂⟩
    refine (tracks₂.pageDecref (found.map Prod.fst)).bind ?_
    exact fun _ _ tracks₃ => .ok (tracks₃.write slot)

-- The loops of `env_free`

theorem freeEntry (tracks : Tracks m root m₁ m₁') {table i j t : Nat} (seen : m.Reached root table) :
    Related (Tracks m root) (m₁.freeEntry root table i j t) (m₁'.freeEntry root table i j t) := by
  unfold Memory.freeEntry
  rw [tracks.word seen]
  split
  · exact tracks.pageRemove _
  · exact .ok tracks

theorem cut (tracks : Tracks m root m₁ m₁') (slot : Slot) (pa : Word) :
    Related (Tracks m root)
      ((m₁.write slot 0).pa2page pa >>= fun page => (m₁.write slot 0).pageDecref (some page))
      ((m₁'.write slot 0).pa2page pa >>= fun page => (m₁'.write slot 0).pageDecref (some page)) := by
  have after := tracks.write slot
  rw [after.pa2page]
  cases (m₁.write slot 0).pa2page pa with
  | error stop => exact .error stop
  | ok page => exact after.pageDecref (some page)

theorem table (tracks : Tracks m root m₁ m₁') {page index : Nat} (present : Present (m₁.word page index)) :
    Related (fun table table' => table = table' ∧ m.child page index = some table)
      (m₁.kaddr (pteAddr (m₁.word page index))) (m₁'.kaddr (pteAddr (m₁.word page index))) := by
  rw [tracks.kaddr]
  cases found : m₁.kaddr (pteAddr (m₁.word page index)) with
  | error stop => exact .error stop
  | ok table =>
    refine .ok ⟨rfl, ?_⟩
    rw [kaddr_ok found]
    exact tracks.clears _ _ _ (child_eq_some.mpr ⟨present, rfl⟩)

theorem freeTable (tracks : Tracks m root m₁ m₁') {pgdir i j : Nat} (hi : i < 512) (hj : j < 512)
    (found : Radix.descend m.child root [0, i] = some pgdir) :
    Related (Tracks m root) (m₁.freeTable root pgdir i j) (m₁'.freeTable root pgdir i j) := by
  have seen : m.Reached root pgdir := reached_of_descend found (by simp) (by simpa using hi)
  unfold Memory.freeTable
  rw [tracks.word seen]
  split
  · rename_i present
    refine (tracks.table present).bind ?_
    rintro table _ ⟨rfl, child⟩
    have below : Radix.descend m.child root ([0, i] ++ [j]) = some table := by
      rw [Radix.descend_snoc, found]
      exact child
    have seen' : m.Reached root table := reached_of_descend below (by simp) (by simp [hi, hj])
    refine (Related.foldlM (fun _ _ _ _ before => before.freeEntry seen') tracks).bind ?_
    exact fun _ _ after => after.cut _ _
  · exact .ok tracks

theorem freeDirectory (tracks : Tracks m root m₁ m₁') {pdpt i : Nat} (hi : i < 4)
    (found : m.child root 0 = some pdpt) :
    Related (Tracks m root) (m₁.freeDirectory root pdpt i) (m₁'.freeDirectory root pdpt i) := by
  have top : Radix.descend m.child root [0] = some pdpt := by rw [Radix.descend_cons, found]; rfl
  have seen : m.Reached root pdpt := reached_of_descend top (by simp) (by simp)
  unfold Memory.freeDirectory
  rw [tracks.word seen]
  split
  · rename_i present
    refine (tracks.table present).bind ?_
    rintro pgdir _ ⟨rfl, child⟩
    have below : Radix.descend m.child root ([0] ++ [i]) = some pgdir := by
      rw [Radix.descend_snoc, top]
      exact child
    have body : ∀ before before' j, j ∈ List.range (if i = 3 then pdx utop else pdx 0xFFFFFFFF) →
        Tracks m root before before' →
        Related (Tracks m root) (before.freeTable root pgdir i j) (before'.freeTable root pgdir i j) := by
      intro before before' j member before_tracks
      have bound := List.mem_range.mp member
      have limit : (if i = 3 then pdx utop else pdx 0xFFFFFFFF) < 512 := by
        split <;> exact pdx_lt _
      exact before_tracks.freeTable (by omega) (by omega) below
    refine (Related.foldlM body tracks).bind ?_
    intro after after' tracks'
    rw [tracks'.word seen]
    exact tracks'.cut _ _
  · exact .ok tracks

end Tracks

/-- What `env_free` does to an address space whose PML4 has entry 0 depends on the tables only that are
    reached from this PML4. -/
theorem Memory.freeSpace_footprint {m m' : Memory} {root : Nat} (agree : Agree (m.Reached root) m m')
    (present : Present (m.word root 0)) (cr3 : Word) :
    Related (Agree (m.Reached root)) (m.freeSpace root cr3) (m'.freeSpace root cr3) := by
  have tracks : Tracks m root m m' := ⟨.refl m, agree⟩
  have seen : m.Reached root root := reached_root m root
  unfold Memory.freeSpace
  rw [tracks.word seen]
  refine (tracks.table present).bind ?_
  rintro pdpt _ ⟨rfl, child⟩
  have body : ∀ before before' i, i ∈ List.range 4 → Tracks m root before before' →
      Related (Tracks m root) (before.freeDirectory root pdpt i) (before'.freeDirectory root pdpt i) :=
    fun _ _ _ member before => before.freeDirectory (List.mem_range.mp member) child
  refine (Related.foldlM body tracks).bind ?_
  intro after after' tracks'
  rw [tracks'.word seen, tracks'.pa2page]
  cases after.pa2page (pteAddr (after.word root 0)) with
  | error stop => exact .error stop
  | ok page =>
    refine (tracks'.pageDecref (some page)).bind ?_
    intro last last' tracks''
    exact (tracks''.cut (root, 0) cr3).mono fun _ _ results => results.agree

end Jos
