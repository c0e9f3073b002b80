import JosKernel.Lib.Linked
import JosKernel.Pmap.Memory

namespace Jos

/-- What `page_init` is told: the size of memory and of base memory in pages, and the page at the address
    that `boot_alloc(0)` returns. -/
structure PageCounts where
  npages : Nat
  npagesBasemem : Nat
  kernEnd : Nat

namespace PageCounts

def Reserved (c : PageCounts) (page : Nat) : Prop :=
  (page = 0 ∨ page = ppn mpentryPaddr) ∨ ¬ (page < c.npagesBasemem ∨ c.kernEnd < page)

instance (c : PageCounts) (page : Nat) : Decidable (c.Reserved page) := inferInstanceAs (Decidable (_ ∨ _))

/-- One iteration of the loop in `page_init`, with its variable `last`. -/
def pageInitStep (c : PageCounts) (state : Memory × Option Nat) (i : Nat) : Memory × Option Nat :=
  let (m, last) := state
  if i = 0 ∨ i = ppn mpentryPaddr then ((m.setRef i 1).setLink i none, last)
  else if i < c.npagesBasemem ∨ c.kernEnd < i then
    let m := (m.setRef i 0).setLink i none
    match last with
    | some last => (m.setLink last (some i), some i)
    | none => (m.setFreeList (some i), some i)
  else ((m.setRef i 1).setLink i none, last)

def pageInit (c : PageCounts) (start : Memory) : Memory :=
  ((List.range c.npages).foldl c.pageInitStep (start, none)).1

variable (c : PageCounts) (start : Memory)

def freePages (bound : Nat) : List Nat := (List.range bound).filter fun page => ¬ c.Reserved page

theorem mem_freePages {bound page : Nat} : page ∈ c.freePages bound ↔ page < bound ∧ ¬ c.Reserved page := by
  simp [freePages]

structure Initialised (bound : Nat) (m : Memory) (last : Option Nat) : Prop where
  npages : m.npages = start.npages
  bootPml4e : m.bootPml4e = start.bootPml4e
  word : m.word = start.word
  last : last = (c.freePages bound).getLast?
  chain : Linked.Chain m.ppLink m.pageFreeList (c.freePages bound)
  unlinked : ∀ page, page ∉ c.freePages bound →
    m.ppLink page = if page < bound then none else start.ppLink page
  ppRef : ∀ page, page < bound → m.ppRef page = if c.Reserved page then 1 else 0

variable {start}

theorem freePages_succ (bound : Nat) :
    c.freePages (bound + 1) = if c.Reserved bound then c.freePages bound
      else c.freePages bound ++ [bound] := by
  rw [freePages, List.range_succ, List.filter_append]
  by_cases reserved : c.Reserved bound <;> simp [reserved, freePages]

theorem Initialised.reserve {bound : Nat} {m : Memory} {last : Option Nat}
    (before : c.Initialised start bound m last) (reserved : c.Reserved bound) :
    c.Initialised start (bound + 1) ((m.setRef bound 1).setLink bound none) last := by
  have same : c.freePages (bound + 1) = c.freePages bound := by rw [freePages_succ, if_pos reserved]
  have outside : bound ∉ c.freePages bound := by simp [mem_freePages]
  exact {
    npages := before.npages
    bootPml4e := before.bootPml4e
    word := before.word
    last := by rw [same, before.last]
    chain := by
      rw [same]
      refine Linked.chain_congr ?_ before.chain
      intro page member
      rw [Memory.setLink_ppLink, if_neg (by rintro rfl; exact outside member)]
      rfl
    unlinked := by
      intro page other
      rw [same] at other
      rw [Memory.setLink_ppLink]
      split
      · rename_i here
        rw [if_pos (by omega)]
      · rename_i different
        rw [Memory.setRef_ppLink, before.unlinked page other]
        exact if_congr (by omega) rfl rfl
    ppRef := by
      intro page below
      rw [Memory.setLink_ppRef, Memory.setRef_ppRef]
      split
      · rename_i here
        rw [here, if_pos reserved]
      · exact before.ppRef page (by omega) }

theorem Initialised.free {bound : Nat} {m : Memory} {last : Option Nat}
    (before : c.Initialised start bound m last) (free : ¬ c.Reserved bound) :
    c.Initialised start (bound + 1)
      (match last with
        | some last => ((m.setRef bound 0).setLink bound none).setLink last (some bound)
        | none => ((m.setRef bound 0).setLink bound none).setFreeList (some bound)) (some bound) := by
  have next : c.freePages (bound + 1) = c.freePages bound ++ [bound] := by
    rw [freePages_succ, if_neg free]
  have outside : bound ∉ c.freePages bound := by simp [mem_freePages]
  have shown := before.last
  cases last with
  | none =>
    have empty : c.freePages bound = [] := List.getLast?_eq_none_iff.mp shown.symm
    exact {
      npages := before.npages
      bootPml4e := before.bootPml4e
      word := before.word
      last := by rw [next, List.getLast?_concat]
      chain := by
        rw [next, empty]
        exact ⟨rfl, if_pos rfl⟩
      unlinked := by
        intro page other
        rw [Memory.setFreeList_ppLink, Memory.setLink_ppLink]
        split
        · rename_i here
          rw [if_pos (by omega)]
        · rename_i different
          rw [Memory.setRef_ppLink, before.unlinked page (by simp [empty])]
          exact if_congr (by omega) rfl rfl
      ppRef := by
        intro page below
        rw [Memory.setFreeList_ppRef, Memory.setLink_ppRef, Memory.setRef_ppRef]
        split
        · rename_i here
          rw [here, if_neg free]
        · exact before.ppRef page (by omega) }
  | some last =>
    obtain ⟨front, split⟩ := List.getLast?_eq_some_iff.mp shown.symm
    have different : last ≠ bound := by
      rintro rfl
      exact outside (by simp [split])
    exact {
      npages := before.npages
      bootPml4e := before.bootPml4e
      word := before.word
      last := by rw [next, List.getLast?_concat]
      chain := by
        rw [next, split, List.append_assoc]
        have chain := before.chain
        have nodup := Linked.chain_nodup chain
        rw [split] at chain nodup
        refine Linked.chain_snoc (if_pos rfl) ?_ ?_ chain
        · rw [Memory.setLink_ppLink, if_neg (Ne.symm different), Memory.setLink_ppLink, if_pos rfl]
        · intro page member
          have inside : page ∈ c.freePages bound := by simp [split, member]
          rw [Memory.setLink_ppLink, if_neg, Memory.setLink_ppLink, if_neg]
          · rfl
          · rintro rfl
            exact outside inside
          · rintro rfl
            exact (List.nodup_append.mp nodup).2.2 page member page (by simp) rfl
      unlinked := by
        intro page other
        have notLast : page ≠ last := by
          rintro rfl
          exact other (by simp [next, split])
        rw [Memory.setLink_ppLink, if_neg notLast, Memory.setLink_ppLink]
        split
        · rename_i here
          rw [if_pos (by omega)]
        · rename_i different
          rw [Memory.setRef_ppLink, before.unlinked page (by
            intro inside
            exact other (by simp [next, inside]))]
          exact if_congr (by omega) rfl rfl
      ppRef := by
        intro page below
        rw [Memory.setLink_ppRef, Memory.setLink_ppRef, Memory.setRef_ppRef]
        split
        · rename_i here
          rw [here, if_neg free]
        · exact before.ppRef page (by omega) }

theorem Initialised.step {bound : Nat} {m : Memory} {last : Option Nat}
    (before : c.Initialised start bound m last) :
    c.Initialised start (bound + 1) (c.pageInitStep (m, last) bound).1 (c.pageInitStep (m, last) bound).2 := by
  unfold pageInitStep
  simp only
  split
  · rename_i first
    exact before.reserve c (.inl first)
  · rename_i first
    split
    · rename_i usable
      have free : ¬ c.Reserved bound := by
        rintro (reserved | unusable)
        · exact first reserved
        · exact unusable usable
      cases last with
      | none => exact before.free c free
      | some last => exact before.free c free
    · rename_i unusable
      exact before.reserve c (.inr unusable)

theorem initialised_loop (start : Memory) (empty : start.pageFreeList = none) (bound : Nat) :
    c.Initialised start bound ((List.range bound).foldl c.pageInitStep (start, none)).1
      ((List.range bound).foldl c.pageInitStep (start, none)).2 := by
  induction bound with
  | zero => exact ⟨rfl, rfl, rfl, rfl, empty, fun _ _ => rfl, by simp⟩
  | succ bound ih =>
    rw [List.range_succ, List.foldl_append]
    exact ih.step c

end PageCounts

end Jos
