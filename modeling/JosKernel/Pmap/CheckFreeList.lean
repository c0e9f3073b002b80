import JosKernel.Lib.Distribution
import JosKernel.Pmap.Detect

namespace Jos

-- inc/mmu.h

def npdentries : Nat := 512

namespace Memory

-- kern/pmap.c: check_page_free_list

def pagetype (pdxLimit page : Nat) : Fin 2 := if pdxLimit ≤ pdx (page2pa page) then 1 else 0

def places (m : Memory) (pp1 pp2 : Option Nat) : Linked.Place (Fin 2) Nat → Option Nat
  | .head 0 => pp1
  | .head 1 => pp2
  | .link page => m.ppLink page

/-- Move the pages with lower addresses to the front. `pp1` and `pp2` are not initialised. -/
def lowMemoryFirst (m : Memory) (pdxLimit fuel : Nat) (pp1 pp2 : Option Nat) : Option Memory := do
  let s ← Linked.Distribution.walk (pagetype pdxLimit) fuel m.pageFreeList ⟨m.places pp1 pp2, .head⟩
  let cells := s.join 0 1
  some { m with ppLink := fun page => cells (.link page), pageFreeList := cells (.head 0) }

/-- `memset(page2kva(pp), 0x97, 128)` for the pages that are mapped. -/
def poison (pdxLimit : Nat) (m : Memory) (page : Nat) : Except Stop Memory :=
  if pdx (page2pa page) < pdxLimit then do
    let kva ← m.kaddr (page2pa page)
    .ok { m with word := fun other index => if other = kva ∧ index < 128 / 8 then 0x9797979797979797
      else m.word other index }
  else .ok m

/-- The assertions about one page, which is counted when it lies above the hole. `firstFreePage` is counted from KERNBASE. -/
def checkFree (m : Memory) (firstFreePage nfreeExtmem page : Nat) : Except Stop Nat := do
  let pa := (page2pa page).toNat
  if m.npages ≤ page ∨ pa = 0 ∨ pa = iophysMem ∨ pa = extphysMem - pgSize ∨ pa = extphysMem then throw .panic
  if extphysMem ≤ pa then
    let _ ← m.kaddr (page2pa page)
    if pa < firstFreePage then throw .panic
  if page2pa page = mpentryPaddr then throw .panic
  .ok (if pa < extphysMem then nfreeExtmem else nfreeExtmem + 1)

def checkPageFreeList (m : Memory) (fuel : Nat) (pp1 pp2 : Option Nat) (firstFreePage : Nat) (onlyLowMemory : Bool) :
    Option (Except Stop Memory) :=
  let pdxLimit := if onlyLowMemory then 1 else npdentries
  if m.pageFreeList = none then some (.error .panic)
  else do
    let m ← if onlyLowMemory then m.lowMemoryFirst pdxLimit fuel pp1 pp2 else some m
    ExceptT.run do
      let m ← ExceptT.mk (Linked.each Memory.ppLink (poison pdxLimit) fuel m.pageFreeList m)
      let nfreeExtmem ← ExceptT.mk (Linked.each (fun _ => m.ppLink) (m.checkFree firstFreePage) fuel m.pageFreeList 0)
      if 0 < nfreeExtmem then pure m else throw .panic

def lowThenHigh (nodes : List Nat) : List Nat :=
  nodes.filter (fun page => pdx (page2pa page) = 0) ++ nodes.filter (fun page => pdx (page2pa page) ≠ 0)

theorem lowThenHigh_perm (nodes : List Nat) : (lowThenHigh nodes).Perm nodes := by
  have split := List.filter_append_perm (fun page => decide (pdx (page2pa page) = 0)) nodes
  simpa only [lowThenHigh, ne_eq, decide_not] using split

theorem ofKind_pagetype (nodes : List Nat) : Linked.Distribution.ofKind (pagetype 1) nodes 0 ++
    Linked.Distribution.ofKind (pagetype 1) nodes 1 = lowThenHigh nodes := by
  have low : ∀ page, pagetype 1 page = 0 ↔ pdx (page2pa page) = 0 := by
    intro page
    rw [pagetype]
    split <;> simp <;> omega
  have high : ∀ page, pagetype 1 page = 1 ↔ pdx (page2pa page) ≠ 0 := by
    intro page
    rw [pagetype]
    split <;> simp <;> omega
  simp only [Linked.Distribution.ofKind, low, high, lowThenHigh]

variable {m : Memory} {nodes : List Nat}

structure Reordered (m : Memory) (nodes : List Nat) (m' : Memory) : Prop where
  chain : Linked.Chain m'.ppLink m'.pageFreeList (lowThenHigh nodes)
  outside : ∀ page, page ∉ nodes → m'.ppLink page = m.ppLink page
  same : m' = { m with ppLink := m'.ppLink, pageFreeList := m'.pageFreeList }

theorem lowMemoryFirst_reorders (chain : Linked.Chain m.ppLink m.pageFreeList nodes) (pp1 pp2 : Option Nat) :
    ∃ m', m.Reordered nodes m' ∧ ∀ fuel, nodes.length < fuel → m.lowMemoryFirst 1 fuel pp1 pp2 = some m' := by
  have start := Linked.Distribution.holds_nil (pagetype 1) (m.places pp1 pp2)
  have apart := Linked.chain_nodup chain
  obtain ⟨s, holds, done⟩ := start.walk chain (by simpa using apart)
  rw [List.nil_append] at holds
  refine ⟨{ m with ppLink := fun page => s.join 0 1 (.link page), pageFreeList := s.join 0 1 (.head 0) }, ?_, ?_⟩
  · constructor
    · rw [← ofKind_pagetype]
      exact holds.join apart (by decide)
    · exact fun page outside => holds.join_unseen outside
    · rfl
  · intro fuel enough
    rw [lowMemoryFirst, done fuel enough]
    rfl

theorem poison_keeps {pdxLimit page : Nat} {m' : Memory} (done : poison pdxLimit m page = .ok m') :
    m'.ppLink = m.ppLink ∧ m'.pageFreeList = m.pageFreeList := by
  rw [poison] at done
  split at done
  · obtain ⟨kva, -, stored⟩ := Fallible.bind_ok.mp done
    cases stored
    exact ⟨rfl, rfl⟩
  · cases done
    exact ⟨rfl, rfl⟩

theorem poisoned_keeps {pdxLimit : Nat} {m' : Memory} (done : nodes.foldlM (poison pdxLimit) m = .ok m') :
    m'.ppLink = m.ppLink ∧ m'.pageFreeList = m.pageFreeList := by
  apply Fallible.foldlM_keeps (fun state => state.ppLink = m.ppLink ∧ state.pageFreeList = m.pageFreeList) _ ⟨rfl, rfl⟩ done
  intro state page next _ same poisoned
  obtain ⟨links, head⟩ := poison_keeps poisoned
  exact ⟨links.trans same.1, head.trans same.2⟩

theorem checks_keep {head : Option Nat} (chain : Linked.Chain m.ppLink head nodes) (firstFreePage : Nat)
    (listed : m.pageFreeList = head) : ∃ result : Except Stop Memory,
    (∀ m', result = .ok m' → m'.ppLink = m.ppLink ∧ m'.pageFreeList = m.pageFreeList) ∧
    ∀ fuel, nodes.length < fuel → (ExceptT.run do
      let m ← ExceptT.mk (Linked.each Memory.ppLink (poison 1) fuel m.pageFreeList m)
      let nfreeExtmem ← ExceptT.mk (Linked.each (fun _ => m.ppLink) (m.checkFree firstFreePage) fuel m.pageFreeList 0)
      if 0 < nfreeExtmem then pure m else throw .panic : Option (Except Stop Memory)) = some result := by
  subst listed
  have poisons := fun fuel => @Linked.each_chain _ _ _ Memory.ppLink (poison 1) fuel m.pageFreeList m nodes
    (fun state page next done => (poison_keeps done).1) chain
  cases poisoned : nodes.foldlM (poison 1) m with
  | error stop =>
    refine ⟨.error stop, nofun, fun fuel enough => ?_⟩
    rw [poisons fuel enough, poisoned]
    rfl
  | ok after =>
    obtain ⟨links, head⟩ := poisoned_keeps poisoned
    have chain' : Linked.Chain after.ppLink after.pageFreeList nodes := by
      rw [links, head]
      exact chain
    have counts := fun fuel => @Linked.each_chain _ _ _ (fun _ => after.ppLink) (after.checkFree firstFreePage) fuel
      after.pageFreeList 0 nodes (fun _ _ _ _ => rfl) chain'
    refine ⟨(nodes.foldlM (after.checkFree firstFreePage) 0).bind fun nfreeExtmem =>
      if 0 < nfreeExtmem then .ok after else .error .panic, fun m' done => ?_, fun fuel enough => ?_⟩
    · obtain ⟨count, -, returned⟩ := Fallible.bind_ok.mp done
      split at returned
      · cases returned
        exact ⟨links, head⟩
      · cases returned
    · rw [poisons fuel enough, poisoned]
      change ExceptT.run (do
        let nfreeExtmem ← ExceptT.mk (Linked.each (fun _ => after.ppLink) (after.checkFree firstFreePage) fuel
          after.pageFreeList 0)
        if 0 < nfreeExtmem then pure after else throw .panic : ExceptT Stop Option Memory) = _
      rw [counts fuel enough]
      cases nodes.foldlM (after.checkFree firstFreePage) 0 with
      | error stop => rfl
      | ok count =>
        change ExceptT.run (if 0 < count then pure after else throw .panic : ExceptT Stop Option Memory) =
          some (if 0 < count then .ok after else .error .panic)
        split <;> rfl

/-- The pass that moves the pages of low memory to the front ends and does no more than that, also where one of the
    two groups is empty. What follows it in `check_page_free_list(1)` ends too, and leaves the list. -/
theorem check_page_free_list_reorders (m : Memory) (nodes : List Nat) (chain : Linked.Chain m.ppLink m.pageFreeList nodes)
    (pp1 pp2 : Option Nat) : ∃ m', (∀ fuel, nodes.length < fuel → m.lowMemoryFirst 1 fuel pp1 pp2 = some m') ∧
      Linked.Chain m'.ppLink m'.pageFreeList (nodes.filter (fun page => pdx (page2pa page) = 0) ++
        nodes.filter (fun page => pdx (page2pa page) ≠ 0)) ∧
      (lowThenHigh nodes).Perm nodes ∧ (lowThenHigh nodes).Nodup ∧
      (∀ page, page ∉ nodes → m'.ppLink page = m.ppLink page) ∧
      m' = { m with ppLink := m'.ppLink, pageFreeList := m'.pageFreeList } ∧
      ∀ firstFreePage, ∃ result, (∀ fuel, nodes.length < fuel →
          m.checkPageFreeList fuel pp1 pp2 firstFreePage true = some result) ∧
        ∀ m'', result = .ok m'' → m''.ppLink = m'.ppLink ∧ m''.pageFreeList = m'.pageFreeList := by
  obtain ⟨m', reordered, done⟩ := lowMemoryFirst_reorders chain pp1 pp2
  have perm := lowThenHigh_perm nodes
  refine ⟨m', done, reordered.chain, perm, perm.nodup_iff.mpr (Linked.chain_nodup chain), reordered.outside,
    reordered.same, fun firstFreePage => ?_⟩
  obtain ⟨result, kept, checked⟩ := checks_keep reordered.chain firstFreePage rfl
  by_cases empty : m.pageFreeList = none
  · exact ⟨.error .panic, fun fuel _ => if_pos empty, nofun⟩
  · refine ⟨result, fun fuel enough => ?_, kept⟩
    have more : (lowThenHigh nodes).length < fuel := by rwa [perm.length_eq]
    rw [← checked fuel more, checkPageFreeList, if_neg empty]
    simp only [if_pos]
    rw [done fuel enough]
    rfl

def highPages : Memory where
  npages := 0x800
  bootPml4e := 0
  word := fun _ _ => 0
  ppRef := fun _ => 0
  ppLink := fun page => if page = 0x200 then some 0x201 else none
  pageFreeList := some 0x200
  userMemCheckAddr := 0

theorem check_page_free_list_reorders_high : ∃ m', highPages.lowMemoryFirst 1 3 none (some 7) = some m' ∧
    Linked.Chain m'.ppLink m'.pageFreeList [0x200, 0x201] := by
  have chain : Linked.Chain highPages.ppLink highPages.pageFreeList [0x200, 0x201] := ⟨rfl, rfl, rfl⟩
  obtain ⟨m', done, reordered, -⟩ := check_page_free_list_reorders highPages _ chain none (some 7)
  exact ⟨m', done 3 (by decide), reordered⟩

end Memory
end Jos
