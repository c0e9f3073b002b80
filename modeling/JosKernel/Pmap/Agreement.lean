import JosKernel.Pmap.Operations
import JosKernel.Pmap.UserMem

namespace Jos.Memory

-- The software walk and the walk of the MMU

/-- The walk that the kernel has for its own checks: the physical address of the page that contains
    `va`, or `~0`. -/
def checkVa2pa (m : Memory) (root : Nat) (va : Word) : Except Stop Word :=
  if ¬ Present (m.word root (pml4 va)) then .ok (~~~0)
  else do
    let pdpt ← m.kaddr (pteAddr (m.word root (pml4 va)))
    if ¬ Present (m.word pdpt (pdpe va)) then .ok (~~~0)
    else do
      let pgdir ← m.kaddr (pteAddr (m.word pdpt (pdpe va)))
      if ¬ Present (m.word pgdir (pdx va)) then .ok (~~~0)
      else do
        let table ← m.kaddr (pteAddr (m.word pgdir (pdx va)))
        if ¬ Present (m.word table (ptx va)) then .ok (~~~0)
        else .ok (pteAddr (m.word table (ptx va)))

/-- The present entries of the tree under `root` refer to pages that there are. -/
def InBounds (m : Memory) (root : Nat) : Prop :=
  ∀ path table index next, path.length ≤ 3 → (∀ i ∈ path, i < 512) → index < 512 →
    Radix.descend m.child root path = some table → m.child table index = some next → next < m.npages

/-- The tables on the way to `va`, as far as there are any, are pages that there are. -/
structure InReach (m : Memory) (root : Nat) (va : Word) : Prop where
  pdpt : ∀ table, Radix.descend m.child root [pml4 va] = some table → table < m.npages
  pgdir : ∀ table, Radix.descend m.child root [pml4 va, pdpe va] = some table → table < m.npages
  table : ∀ table, Radix.descend m.child root [pml4 va, pdpe va, pdx va] = some table → table < m.npages

/-- What a walk that creates nothing leaves: the flags of the PDPT entry it passes are rewritten. -/
def probe (m : Memory) (root : Nat) (va : Word) : Memory :=
  if m.visible root va then (m.child root (pml4 va)).elim m fun pdpt => m.refresh (pdpt, pdpe va) else m

variable {m m' : Memory} {root : Nat} {va : Word}

-- Rewriting flags

@[simp] theorem refresh_npages (slot : Slot) : (m.refresh slot).npages = m.npages := by
  unfold refresh
  split <;> rfl

theorem refresh_write (slot : Slot) (value : Word) : (m.refresh slot).write slot value = m.write slot value := by
  unfold refresh
  split
  · exact write_write ..
  · rfl

theorem refresh_refresh (slot : Slot) : (m.refresh slot).refresh slot = m.refresh slot := by
  by_cases present : Present (m.read slot)
  · have once : m.refresh slot = m.write slot ((m.read slot &&& ~~~flagMask) ||| pteU ||| pteP ||| pteW) :=
      if_pos present
    have here : (m.refresh slot).read slot = pteAddr (m.read slot) ||| 7 := by
      rw [once, read, write_word, if_pos ⟨rfl, rfl⟩, BitVec.or_assoc, BitVec.or_assoc]
      rfl
    have aligned : (pteAddr (m.read slot)).toNat % 4096 = 0 := by
      rw [pteAddr_toNat]
      omega
    have address : (m.refresh slot).read slot &&& ~~~flagMask = m.read slot &&& ~~~flagMask := by
      rw [here]
      exact pteAddr_or_flags _ _ aligned (by decide)
    have again : Present ((m.refresh slot).read slot) := by
      rw [once, read, write_word, if_pos ⟨rfl, rfl⟩]
      exact present_refresh _
    rw [refresh, if_pos again, address, refresh_write, ← once]
  · have once : m.refresh slot = m := if_neg present
    rw [once, once]

theorem refresh_ne_zero {slot : Slot} {page index : Nat} (nonzero : m.word page index ≠ 0) :
    (m.refresh slot).word page index ≠ 0 := by
  by_cases here : page = slot.1 ∧ index = slot.2
  · obtain ⟨rfl, rfl⟩ := here
    unfold refresh
    split
    · rw [write_word, if_pos ⟨rfl, rfl⟩]
      intro zero
      have present := present_refresh (m.read slot)
      rw [zero] at present
      exact absurd present (by decide)
    · exact nonzero
  · rwa [refresh_word_of_ne (by omega)]

-- A walk in a tree whose entries are in bounds

namespace InBounds

theorem of_child (bounds : m.InBounds root) (children : m'.child = m.child) (size : m'.npages = m.npages) :
    m'.InBounds root := by
  unfold InBounds
  rw [children, size]
  exact bounds

theorem reach (bounds : m.InBounds root) (va : Word) : m.InReach root va := by
  have step : ∀ path index, path.length ≤ 3 → (∀ i ∈ path, i < 512) → index < 512 → ∀ table,
      Radix.descend m.child root (path ++ [index]) = some table → table < m.npages := by
    intro path index short small last table reached
    rw [Radix.descend_snoc, Option.bind_eq_some_iff] at reached
    obtain ⟨above, reached, found⟩ := reached
    exact bounds path above index table short small last reached found
  exact {
    pdpt := step [] (pml4 va) (by simp) (by simp) (pml4_lt va)
    pgdir := step [pml4 va] (pdpe va) (by simp) (by simp [pml4_lt]) (pdpe_lt va)
    table := step [pml4 va, pdpe va] (pdx va) (by simp) (by simp [pml4_lt, pdpe_lt]) (pdx_lt va) }

end InBounds

namespace InReach

theorem kaddr {page : Nat} {pa : Word} (found : ppn pa = page) (bound : page < m.npages) :
    m.kaddr pa = .ok page := by
  have small : ppn pa % 2^32 ≤ ppn pa := Nat.mod_le ..
  rw [Memory.kaddr, if_neg (by omega), found]

theorem nextTable (slot : Slot) (bound : ∀ next, m.child slot.1 slot.2 = some next → next < m.npages) :
    m.nextTable slot false = .ok (m.child slot.1 slot.2, m) := by
  unfold Memory.nextTable
  split
  · rename_i present
    have found : m.child slot.1 slot.2 = some (entryPage (m.read slot)) := child_eq_some.mpr ⟨present, rfl⟩
    rw [found, kaddr rfl (bound _ found)]
    rfl
  · rename_i absent
    rw [child_eq_none.mpr absent]
    rfl

theorem pgdirWalk {pgdir : Nat} (bound : ∀ next, m.child pgdir (pdx va) = some next → next < m.npages) :
    m.pgdirWalk pgdir va false = .ok ((m.child pgdir (pdx va)).map fun table => (table, ptx va), m) := by
  rw [Memory.pgdirWalk, nextTable (pgdir, pdx va) bound]
  simp only [bind, Except.bind]
  cases m.child pgdir (pdx va) <;> rfl

theorem pml4eWalk (reach : m.InReach root va) :
    m.pml4eWalk root va false =
      .ok (if m.visible root va then m.leafSlot root va else none, m.probe root va) := by
  unfold Memory.pml4eWalk
  by_cases zero : m.word root 0 = 0
  · rw [if_pos ⟨zero, rfl⟩]
    simp [visible, probe, zero]
  rw [if_neg fun hidden => zero hidden.1, nextTable (root, pml4 va) fun next found =>
    reach.pdpt next (by simp [found])]
  simp only [bind, Except.bind]
  cases top : m.child root (pml4 va) with
  | none => simp [probe, leafSlot, top]
  | some pdpt =>
    simp only [Memory.pdpeWalk]
    by_cases zero' : m.word pdpt 0 = 0
    · rw [if_pos ⟨zero', trivial⟩]
      simp [visible, probe, top, zero']
    have shown : m.visible root va = true := by
      rw [visible, top, Option.all_some, Bool.and_eq_true, bne_iff_ne, bne_iff_ne]
      exact ⟨zero, zero'⟩
    have middleBound : ∀ next, (m.refresh (pdpt, pdpe va)).child pdpt (pdpe va) = some next →
        next < (m.refresh (pdpt, pdpe va)).npages := by
      intro next found
      rw [child_refresh] at found
      rw [refresh_npages]
      exact reach.pgdir next (by simp [top, found])
    rw [if_neg fun hidden => zero' hidden.1, nextTable (pdpt, pdpe va) middleBound]
    have probed : m.probe root va = m.refresh (pdpt, pdpe va) := by simp [probe, shown, top]
    rw [probed, shown, if_pos rfl, leafSlot, child_refresh]
    simp only [bind, Except.bind, Radix.descend_cons, top, Option.bind_some]
    cases middle : m.child pdpt (pdpe va) with
    | none => rfl
    | some pgdir =>
      have lastBound : ∀ next, (m.refresh (pdpt, pdpe va)).child pgdir (pdx va) = some next →
          next < (m.refresh (pdpt, pdpe va)).npages := by
        intro next found
        rw [child_refresh] at found
        rw [refresh_npages]
        exact reach.table next (by simp [top, middle, found])
      simp only [pgdirWalk lastBound, child_refresh, Option.bind_some]
      cases m.child pgdir (pdx va) <;> rfl

end InReach

theorem InBounds.leaf (bounds : m.InBounds root) {slot : Slot} (found : m.leafSlot root va = some slot)
    (present : Present (m.read slot)) : entryPage (m.read slot) < m.npages := by
  obtain ⟨table, reached, rfl⟩ := Option.map_eq_some_iff.mp found
  exact bounds [pml4 va, pdpe va, pdx va] table (ptx va) _ (by simp) (by simp [pml4_lt, pdpe_lt, pdx_lt])
    (ptx_lt va) reached (child_eq_some.mpr ⟨present, rfl⟩)

theorem child_probe (m : Memory) (root : Nat) (va : Word) : (m.probe root va).child = m.child := by
  unfold probe
  split
  · cases m.child root (pml4 va) with
    | none => rfl
    | some pdpt => exact child_refresh _ _
  · rfl

theorem read_present (slot : Slot) (children : m'.child = m.child) :
    (Present (m'.read slot) ↔ Present (m.read slot)) ∧
      (Present (m.read slot) → entryPage (m'.read slot) = entryPage (m.read slot)) := by
  have same : m'.child slot.1 slot.2 = m.child slot.1 slot.2 := by rw [children]
  by_cases present : Present (m.read slot)
  · rw [child_eq_some.mpr ⟨present, rfl⟩] at same
    obtain ⟨present', page⟩ := child_eq_some.mp same
    exact ⟨iff_of_true present' present, fun _ => page⟩
  · rw [child_eq_none.mpr present] at same
    exact ⟨iff_of_false (child_eq_none.mp same) present, fun here => absurd here present⟩

theorem InBounds.pageLookup (bounds : m.InBounds root) :
    m.pageLookup root va = .ok (m.lookup root va, m.probe root va) := by
  rw [Memory.pageLookup, (bounds.reach va).pml4eWalk, Memory.lookup]
  simp only [bind, Except.bind]
  cases m.visible root va with
  | false => rfl
  | true =>
    simp only [if_true]
    cases found : m.leafSlot root va with
    | none => rfl
    | some slot =>
      obtain ⟨same, page⟩ := read_present slot (child_probe m root va)
      simp only [Option.bind_some]
      by_cases present : Present (m.read slot)
      · have bound := bounds.leaf found present
        have size : (m.probe root va).npages = m.npages := by
          unfold probe
          split
          · cases m.child root (pml4 va) <;> simp
          · rfl
        rw [if_pos (same.mpr present), if_pos present, Memory.pa2page, ← entryPage, page present,
          if_neg (by omega)]
      · rw [if_neg (mt same.mp present), if_neg present]

def address (entry : Word) : Word := if Present entry then pteAddr entry else ~~~0

theorem kaddr_child {page index next : Nat} (found : m.child page index = some next)
    (bound : next < m.npages) : m.kaddr (pteAddr (m.word page index)) = .ok next :=
  InReach.kaddr (child_eq_some.mp found).2 bound

theorem InReach.checkVa2pa (reach : m.InReach root va) :
    m.checkVa2pa root va = .ok (address (m.entry root va)) := by
  have absent : address 0 = ~~~0 := if_neg (by decide)
  unfold Memory.checkVa2pa entry leafSlot
  simp only [Radix.descend_cons, Radix.descend_nil]
  cases top : m.child root (pml4 va) with
  | none =>
    rw [if_pos (child_eq_none.mp top)]
    exact congrArg Except.ok absent.symm
  | some pdpt =>
    rw [if_neg (not_not.mpr (child_eq_some.mp top).1), kaddr_child top (reach.pdpt pdpt (by simp [top]))]
    simp only [bind, Except.bind, Option.bind_some]
    cases middle : m.child pdpt (pdpe va) with
    | none =>
      rw [if_pos (child_eq_none.mp middle)]
      exact congrArg Except.ok absent.symm
    | some pgdir =>
      rw [if_neg (not_not.mpr (child_eq_some.mp middle).1),
        kaddr_child middle (reach.pgdir pgdir (by simp [top, middle]))]
      simp only [Option.bind_some]
      cases last : m.child pgdir (pdx va) with
      | none =>
        rw [if_pos (child_eq_none.mp last)]
        exact congrArg Except.ok absent.symm
      | some table =>
        rw [if_neg (not_not.mpr (child_eq_some.mp last).1),
          kaddr_child last (reach.table table (by simp [top, middle, last]))]
        change (if ¬ Present (m.word table (ptx va)) then _ else _) =
          Except.ok (address (m.word table (ptx va)))
        by_cases present : Present (m.word table (ptx va))
        · rw [if_neg (not_not.mpr present), address, if_pos present]
        · rw [if_pos present, address, if_neg present]

theorem pteAddr_ne_ones (pte : Word) : pteAddr pte ≠ ~~~0 := by
  intro ones
  have value := congrArg BitVec.toNat ones
  rw [pteAddr_toNat, show (~~~0 : Word).toNat = 18446744073709551615 from rfl] at value
  omega

-- Where the two agree

/-- The walk finds the leaf entry if the three levels above it are present, and `page_lookup` finds the
    page that the MMU does. -/
structure Agrees (m : Memory) (root : Nat) (va : Word) : Prop where
  walk : ∃ m', m.pml4eWalk root va false = .ok (m.leafSlot root va, m')
  lookup : ∃ pa found m', m.checkVa2pa root va = .ok pa ∧ m.pageLookup root va = .ok (found, m') ∧
    found.map Prod.fst = if pa = ~~~0 then none else some (ppn pa)

/-- The kernel's walk agrees with the MMU's exactly if the tables for the address are missing or entry
    0 of the PML4 and of the PDPT, which it tests in place of the entries for the address, are not 0. -/
theorem agrees_iff (bounds : m.InBounds root) :
    m.Agrees root va ↔ (m.leafSlot root va ≠ none → m.visible root va = true) := by
  constructor
  · intro agrees found
    obtain ⟨m', walk⟩ := agrees.walk
    rw [(bounds.reach va).pml4eWalk] at walk
    have result := congrArg Prod.fst (Except.ok.inj walk)
    by_contra hidden
    simp only [hidden] at result
    exact found result.symm
  · intro shown
    have whole : (if m.visible root va then m.leafSlot root va else none) = m.leafSlot root va := by
      split
      · rfl
      · rename_i hidden
        exact (not_not.mp (mt shown hidden)).symm
    refine ⟨⟨_, by rw [(bounds.reach va).pml4eWalk, whole]⟩, _, _, _, (bounds.reach va).checkVa2pa,
      bounds.pageLookup, ?_⟩
    unfold lookup entry
    cases found : m.leafSlot root va with
    | none =>
      have absent : address 0 = ~~~0 := if_neg (by decide)
      rw [absent, if_pos rfl, Option.bind_none, ite_self]
      rfl
    | some slot =>
      rw [shown (by simp [found]), if_pos rfl, Option.bind_some, address]
      split
      · rw [if_neg (pteAddr_ne_ones _)]
        rfl
      · rfl

-- An address space that maps one page

theorem onePage_inBounds (i root : Nat) : (onePage i).InBounds root := by
  intro path table index next _ _ _ _ found
  obtain ⟨same, low⟩ := onePage_child found
  change next < 16
  omega

theorem agrees_iff_onePage : (onePage 0).Agrees 1 0 ↔
    ((onePage 0).leafSlot 1 0 ≠ none → (onePage 0).visible 1 0 = true) :=
  agrees_iff (onePage_inBounds 0 1)

/-- A page mapped at one gigabyte is there for the MMU, and not for `page_lookup`. -/
theorem onePage_disagrees : (onePage 1).InBounds 1 ∧
    (onePage 1).checkVa2pa 1 0x40000000 = .ok (page2pa 5) ∧
    (onePage 1).pageLookup 1 0x40000000 = .ok (none, onePage 1) ∧ ¬ (onePage 1).Agrees 1 0x40000000 := by
  refine ⟨onePage_inBounds 1 1, rfl, rfl, ?_⟩
  intro agrees
  obtain ⟨m', walk⟩ := agrees.walk
  have result : none = (onePage 1).leafSlot 1 0x40000000 := congrArg Prod.fst (Except.ok.inj walk)
  exact absurd result (by decide)

end Jos.Memory
