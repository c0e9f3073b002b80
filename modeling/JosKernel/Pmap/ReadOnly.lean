import JosKernel.Pmap.Agreement
import JosKernel.Pmap.UserMem

namespace Jos.Memory

/-- What a lookup should leave as it is: the page tables, the reference counts and the free list. -/
structure SameTables (m m' : Memory) : Prop where
  word : m'.word = m.word
  ppRef : m'.ppRef = m.ppRef
  ppLink : m'.ppLink = m.ppLink
  pageFreeList : m'.pageFreeList = m.pageFreeList

/-- The PDPT entry for `va`, if a walk comes to it, has the flags PTE_U, PTE_P and PTE_W and no others. -/
def Settled (m : Memory) (root : Nat) (va : Word) : Prop :=
  m.visible root va = true → ∀ pdpt, m.child root (pml4 va) = some pdpt →
    Present (m.word pdpt (pdpe va)) → m.word pdpt (pdpe va) &&& flagMask = 7

variable {m m' : Memory} {root : Nat} {va : Word}

namespace SameTables

theorem refl (m : Memory) : m.SameTables m := ⟨rfl, rfl, rfl, rfl⟩

theorem trans {m'' : Memory} (first : m.SameTables m') (second : m'.SameTables m'') : m.SameTables m'' where
  word := second.word.trans first.word
  ppRef := second.ppRef.trans first.ppRef
  ppLink := second.ppLink.trans first.ppLink
  pageFreeList := second.pageFreeList.trans first.pageFreeList

end SameTables

-- One entry

theorem flags_rewritten (pte : Word) :
    (pte &&& ~~~flagMask) ||| pteU ||| pteP ||| pteW = pte ↔ pte &&& flagMask = 7 := by
  have seven : pteU ||| pteP ||| pteW = 7 := rfl
  rw [BitVec.or_assoc, BitVec.or_assoc, ← BitVec.or_assoc pteU, seven]
  constructor
  · intro same
    have low := congrArg (· &&& flagMask) same
    simp only [BitVec.and_or_distrib_right, BitVec.and_assoc] at low
    rw [← low]
    simp [flagMask]
  · intro low
    have all : ~~~flagMask ||| flagMask = BitVec.allOnes 64 := by decide
    rw [← low, ← BitVec.and_or_distrib_left, all, BitVec.and_allOnes]

theorem refresh_word_iff (slot : Slot) : (m.refresh slot).word = m.word ↔
    (Present (m.read slot) → m.read slot &&& flagMask = 7) := by
  by_cases present : Present (m.read slot)
  · rw [refresh, if_pos present, ← flags_rewritten]
    constructor
    · intro same _
      have here := congrFun (congrFun same slot.1) slot.2
      rwa [write_word, if_pos ⟨rfl, rfl⟩] at here
    · intro same
      rw [same present, write_same]
  · rw [refresh, if_neg present]
    exact iff_of_true rfl fun here => absurd here present

theorem refresh_settled {slot : Slot} {page index : Nat} (settled : m.word page index &&& flagMask = 7) :
    (m.refresh slot).word page index = m.word page index := by
  by_cases here : page = slot.1 ∧ index = slot.2
  · obtain ⟨rfl, rfl⟩ := here
    have same := (refresh_word_iff (m := m) slot).mpr fun _ => settled
    rw [same]
  · exact refresh_word_of_ne (by omega)

-- One walk

theorem pdpeWalk_ok {pdpt : Nat} {slot : Option Slot} (nonzero : m.word pdpt 0 ≠ 0)
    (walked : m.pdpeWalk pdpt va false = .ok (slot, m')) :
    m' = m.refresh (pdpt, pdpe va) ∧
      slot = (Radix.descend m.child pdpt [pdpe va, pdx va]).map fun table => (table, ptx va) := by
  rw [pdpeWalk, if_neg fun hidden => nonzero hidden.1] at walked
  obtain ⟨⟨pgdir, middle⟩, step, rest⟩ := Fallible.bind_ok.mp walked
  obtain ⟨rfl, rfl⟩ := nextTable_lookup step
  simp only [child_refresh] at rest
  cases below : m.child pdpt (pdpe va) with
  | none =>
    rw [below] at rest
    cases rest
    exact ⟨rfl, by simp [below]⟩
  | some pgdir =>
    rw [below] at rest
    obtain ⟨rfl, found⟩ := pgdirWalk_lookup rest
    refine ⟨rfl, ?_⟩
    rw [found, child_refresh]
    simp only [Radix.descend_cons, Radix.descend_nil, below, Option.bind_some]
    cases m.child pgdir (pdx va) <;> rfl

theorem pml4eWalk_ok {slot : Option Slot} (walked : m.pml4eWalk root va false = .ok (slot, m')) :
    m' = m.probe root va ∧ slot = if m.visible root va then m.leafSlot root va else none := by
  unfold pml4eWalk at walked
  by_cases zero : m.word root 0 = 0
  · rw [if_pos ⟨zero, rfl⟩] at walked
    cases walked
    simp [visible, probe, zero]
  rw [if_neg fun hidden => zero hidden.1] at walked
  obtain ⟨⟨pdpt, middle⟩, step, rest⟩ := Fallible.bind_ok.mp walked
  obtain ⟨rfl, rfl⟩ := nextTable_lookup step
  cases top : middle.child root (pml4 va) with
  | none =>
    simp only [top] at rest
    cases rest
    simp [probe, leafSlot, top]
  | some pdpt =>
    simp only [top] at rest
    by_cases zero' : middle.word pdpt 0 = 0
    · rw [pdpeWalk, if_pos ⟨zero', rfl⟩] at rest
      cases rest
      simp [visible, probe, top, zero']
    have shown : middle.visible root va = true := by
      rw [visible, top, Option.all_some, Bool.and_eq_true, bne_iff_ne, bne_iff_ne]
      exact ⟨zero, zero'⟩
    obtain ⟨rfl, rfl⟩ := pdpeWalk_ok zero' rest
    simp [probe, leafSlot, shown, top]

theorem probe_word_iff : (m.probe root va).word = m.word ↔ m.Settled root va := by
  unfold probe Settled
  by_cases shown : m.visible root va = true
  · rw [if_pos shown]
    cases top : m.child root (pml4 va) with
    | none => simp
    | some pdpt =>
      rw [Option.elim_some, refresh_word_iff]
      constructor
      · rintro settled - _ here present
        cases here
        exact settled present
      · intro settled present
        exact settled shown pdpt rfl present
  · rw [if_neg shown]
    exact iff_of_true rfl fun here => absurd here shown

theorem refresh_rewritten {slot : Slot} {page index : Nat}
    (changed : (m.refresh slot).word page index ≠ m.word page index) :
    (m.refresh slot).word page index &&& flagMask = 7 := by
  have here : page = slot.1 ∧ index = slot.2 := by
    by_contra other
    exact changed (refresh_word_of_ne (by omega))
  obtain ⟨rfl, rfl⟩ := here
  have present : Present (m.read slot) := by
    by_contra absent
    exact changed (by rw [refresh, if_neg absent])
  have again := (refresh_word_iff slot).mp (congrArg word (refresh_refresh (m := m) slot))
  apply again
  rw [refresh, if_pos present, read, write_word, if_pos ⟨rfl, rfl⟩]
  exact present_refresh _

theorem refresh_eq (slot : Slot) : m.refresh slot = { m with word := (m.refresh slot).word } := by
  unfold refresh
  split <;> rfl

theorem probe_eq : m.probe root va = { m with word := (m.probe root va).word } := by
  unfold probe
  split
  · cases m.child root (pml4 va) with
    | none => rfl
    | some pdpt => exact refresh_eq _
  · rfl

theorem Settled.probe (settled : m.Settled root va) : m.probe root va = m := by
  rw [probe_eq, probe_word_iff.mpr settled]

theorem probe_sameTables_iff : m.SameTables (m.probe root va) ↔ m.Settled root va := by
  constructor
  · intro same
    exact probe_word_iff.mp same.word
  · intro settled
    rw [settled.probe]
    exact .refl m

theorem probe_settled {page index : Nat} (settled : m.word page index &&& flagMask = 7) :
    (m.probe root va).word page index = m.word page index := by
  unfold Memory.probe
  split
  · cases m.child root (pml4 va) with
    | none => rfl
    | some pdpt => exact refresh_settled settled
  · rfl

theorem probe_rewritten {page index : Nat} (changed : (m.probe root va).word page index ≠ m.word page index) :
    (m.probe root va).word page index &&& flagMask = 7 := by
  unfold Memory.probe at changed ⊢
  split
  · rename_i shown
    rw [if_pos shown] at changed
    cases top : m.child root (pml4 va) with
    | none =>
      rw [top] at changed
      exact absurd rfl changed
    | some pdpt =>
      rw [top] at changed
      exact refresh_rewritten changed
  · rename_i hidden
    rw [if_neg hidden] at changed
    exact absurd rfl changed

-- The walks of `user_mem_check`

/-- The page at `start` passes the test that the loop makes of it. -/
def Passes (m : Memory) (root : Nat) (newPerm start : Word) : Prop :=
  start < ulim ∧ m.visible root start = true ∧
    ∃ slot, m.leafSlot root start = some slot ∧ m.read slot &&& newPerm = newPerm

/-- The loop walks to the page `page` pages behind `start`. -/
def Walks (m : Memory) (root : Nat) (newPerm start : Word) (page : Nat) : Prop :=
  (∀ earlier < page, m.Passes root newPerm (pageAfter start earlier)) ∧ pageAfter start page < ulim

section Loop

variable {newPerm start : Word} {pages : Nat} {result : Int}

theorem walks_zero : m.Walks root newPerm start 0 ↔ start < ulim := by
  rw [Walks, pageAfter_zero]
  exact and_iff_right fun earlier below => absurd below (Nat.not_lt_zero _)

theorem walks_succ {page : Nat} : m.Walks root newPerm start (page + 1) ↔
    m.Passes root newPerm start ∧ m.Walks root newPerm (start + BitVec.ofNat 64 pgSize) page := by
  rw [Walks, Walks, pageAfter_succ]
  constructor
  · rintro ⟨before, below⟩
    refine ⟨?_, ?_, below⟩
    · have first := before 0 (by omega)
      rwa [pageAfter_zero] at first
    · intro earlier lower
      rw [← pageAfter_succ]
      exact before (earlier + 1) (by omega)
  · rintro ⟨first, before, below⟩
    refine ⟨?_, below⟩
    intro earlier lower
    cases earlier with
    | zero => rwa [pageAfter_zero]
    | succ earlier =>
      rw [pageAfter_succ]
      exact before earlier (by omega)

theorem userMemCheckPages_settled {page index : Nat} (settled : m.word page index &&& flagMask = 7)
    (done : userMemCheckPages root va newPerm pages start m = .ok (result, m')) :
    m'.word page index = m.word page index := by
  induction pages generalizing start m with
  | zero =>
    cases done
    rfl
  | succ pages ih =>
    unfold userMemCheckPages at done
    split at done
    · cases done
      rfl
    · obtain ⟨⟨slot, middle⟩, walk, rest⟩ := Fallible.bind_ok.mp done
      obtain ⟨rfl, -⟩ := pml4eWalk_ok walk
      have kept : (m.probe root start).word page index = m.word page index := probe_settled settled
      cases slot with
      | none =>
        cases rest
        exact kept
      | some slot =>
        simp only at rest
        split at rest
        · cases rest
          exact kept
        · rw [ih (by rw [kept, settled]) rest, kept]

theorem userMemCheckPages_first (low : start < ulim)
    (done : userMemCheckPages root va newPerm (pages + 1) start m = .ok (result, m'))
    (same : m'.word = m.word) : m.Settled root start := by
  rw [← probe_word_iff]
  funext page index
  by_contra changed
  have settled := probe_rewritten changed
  unfold userMemCheckPages at done
  rw [if_neg (BitVec.not_le.mpr low)] at done
  obtain ⟨⟨slot, middle⟩, walk, rest⟩ := Fallible.bind_ok.mp done
  obtain ⟨rfl, -⟩ := pml4eWalk_ok walk
  have kept : m'.word page index = (m.probe root start).word page index := by
    cases slot with
    | none =>
      cases rest
      rfl
    | some slot =>
      simp only at rest
      split at rest
      · cases rest
        rfl
      · exact userMemCheckPages_settled settled rest
  rw [same] at kept
  exact changed kept.symm

/-- An iteration whose walk rewrites nothing stops, or goes on in the same memory. -/
theorem userMemCheckPages_rest (low : start < ulim) (settled : m.Settled root start)
    (done : userMemCheckPages root va newPerm (pages + 1) start m = .ok (result, m')) :
    (¬ m.Passes root newPerm start ∧ m.SameTables m') ∨ m.Passes root newPerm start ∧
      userMemCheckPages root va newPerm pages (start + BitVec.ofNat 64 pgSize) m = .ok (result, m') := by
  unfold userMemCheckPages at done
  rw [if_neg (BitVec.not_le.mpr low)] at done
  obtain ⟨⟨slot, middle⟩, walk, rest⟩ := Fallible.bind_ok.mp done
  obtain ⟨rfl, found⟩ := pml4eWalk_ok walk
  rw [settled.probe] at rest
  cases slot with
  | none =>
    cases rest
    refine .inl ⟨?_, rfl, rfl, rfl, rfl⟩
    rintro ⟨-, shown, slot, leaf, -⟩
    rw [if_pos shown, leaf] at found
    cases found
  | some slot =>
    simp only at rest
    split at rest
    · rename_i refused
      cases rest
      refine .inl ⟨?_, rfl, rfl, rfl, rfl⟩
      rintro ⟨-, shown, leaf, here, allowed⟩
      rw [if_pos shown, here] at found
      cases found
      exact refused allowed
    · rename_i allowed
      by_cases shown : m.visible root start = true
      · rw [if_pos shown] at found
        exact .inr ⟨⟨low, shown, slot, found.symm, not_not.mp allowed⟩, rest⟩
      · rw [if_neg shown] at found
        cases found

theorem userMemCheckPages_sameTables
    (done : userMemCheckPages root va newPerm pages start m = .ok (result, m')) :
    m.SameTables m' ↔ ∀ page < pages, m.Walks root newPerm start page → m.Settled root (pageAfter start page) := by
  induction pages generalizing start with
  | zero =>
    cases done
    exact iff_of_true (.refl m) fun page below => absurd below (Nat.not_lt_zero _)
  | succ pages ih =>
    by_cases low : start < ulim
    · by_cases settled : m.Settled root start
      · rcases userMemCheckPages_rest low settled done with ⟨stopped, same⟩ | ⟨passes, rest⟩
        · refine iff_of_true same ?_
          intro page below walks
          cases page with
          | zero => rwa [pageAfter_zero]
          | succ page => exact absurd (walks_succ.mp walks).1 stopped
        · rw [ih rest]
          constructor
          · intro all page below walks
            cases page with
            | zero => rwa [pageAfter_zero]
            | succ page =>
              rw [pageAfter_succ]
              exact all page (by omega) (walks_succ.mp walks).2
          · intro all page below walks
            rw [← pageAfter_succ]
            exact all (page + 1) (by omega) (walks_succ.mpr ⟨passes, walks⟩)
      · refine iff_of_false (fun same => settled (userMemCheckPages_first low done same.word)) ?_
        intro all
        have first := all 0 (by omega) (walks_zero.mpr low)
        rw [pageAfter_zero] at first
        exact settled first
    · unfold userMemCheckPages at done
      rw [if_pos (BitVec.not_lt.mp low)] at done
      cases done
      refine iff_of_true ⟨rfl, rfl, rfl, rfl⟩ ?_
      intro page below walks
      cases page with
      | zero => exact absurd (walks_zero.mp walks) low
      | succ page => exact absurd (walks_succ.mp walks).1.1 low

end Loop

-- The three functions that look things up

theorem pageLookup_probe {found : Option (Nat × Slot)} (done : m.pageLookup root va = .ok (found, m')) :
    m' = m.probe root va := by
  obtain ⟨⟨slot, middle⟩, walk, rest⟩ := Fallible.bind_ok.mp done
  obtain ⟨rfl, -⟩ := pml4eWalk_ok walk
  cases slot with
  | none =>
    cases rest
    rfl
  | some slot =>
    simp only at rest
    split at rest
    · obtain ⟨page, -, rest⟩ := Fallible.bind_ok.mp rest
      cases rest
      rfl
    · cases rest
      rfl

/-- The lookups are read-only exactly where the PDPT entries on their way need no rewriting. -/
theorem lookups_read_only (m : Memory) (root : Nat) :
    (∀ va slot m', m.pml4eWalk root va false = .ok (slot, m') → (m.SameTables m' ↔ m.Settled root va)) ∧
    (∀ va found m', m.pageLookup root va = .ok (found, m') → (m.SameTables m' ↔ m.Settled root va)) ∧
    ∀ va len perm result m', m.userMemCheck root va len perm = .ok (result, m') →
      (m.SameTables m' ↔ ∀ page < pagesBetween (roundDown va pgSize) (roundUp (va + len) pgSize),
        m.Walks root (leafFlags perm) (roundDown va pgSize) page →
          m.Settled root (pageAfter (roundDown va pgSize) page)) := by
  refine ⟨?_, ?_, ?_⟩
  · intro va slot m' walked
    obtain ⟨rfl, -⟩ := pml4eWalk_ok walked
    exact probe_sameTables_iff
  · intro va found m' done
    rw [pageLookup_probe done]
    exact probe_sameTables_iff
  · intro va len perm result m' done
    exact userMemCheckPages_sameTables done

def windowMemory : Memory where
  npages := 16
  bootPml4e := 0
  word := fun page index => match page, index with
    | 1, 0 => tableEntry 2
    | 1, 2 => page2pa 1 ||| pteP ||| pteU
    | 2, 0 => tableEntry 3
    | 3, 0 => tableEntry 4
    | 4, 0 => leafEntry 5 4
    | _, _ => 0
  ppRef := fun _ => 1
  ppLink := fun _ => none
  pageFreeList := none
  userMemCheckAddr := 0

/-- Where the PML4 is entered as a table of its own window, a walk makes the window writable. -/
theorem lookup_writes : ∃ slot m', windowMemory.pml4eWalk 1 (uvpt + 0x80000000) false = .ok (some slot, m') ∧
    windowMemory.word 1 2 = page2pa 1 ||| pteP ||| pteU ∧ m'.word 1 2 = page2pa 1 ||| pteU ||| pteP ||| pteW ∧
    ¬ windowMemory.SameTables m' := by
  refine ⟨_, _, rfl, rfl, rfl, ?_⟩
  intro same
  have changed := congrFun (congrFun same.word 1) 2
  exact absurd changed (by decide)

theorem lookups_read_only_window :
    (windowMemory.SameTables (windowMemory.probe 1 0) ↔ windowMemory.Settled 1 0) ∧
      ∃ m', windowMemory.userMemCheck 1 0 4096 4 = .ok (0, m') ∧ (windowMemory.SameTables m' ↔
        ∀ page < 1, windowMemory.Walks 1 (leafFlags 4) 0 page → windowMemory.Settled 1 (pageAfter 0 page)) :=
  ⟨(lookups_read_only windowMemory 1).2.1 0 (some (5, (4, 0))) _ rfl,
    _, rfl, (lookups_read_only windowMemory 1).2.2 0 4096 4 0 _ rfl⟩

end Jos.Memory
