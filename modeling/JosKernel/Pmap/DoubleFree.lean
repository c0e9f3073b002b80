import JosKernel.Lib.Transition
import JosKernel.Pmap.Boot

namespace Jos

open Linked

variable {m m' : Memory} {nodes : List Nat} {page : Nat}

/-- A call that returns: of `page_alloc`, with what it gives, or of `page_free`. -/
inductive AllocCall
  | alloc (allocZero : Bool) (result : Option Nat)
  | free (page : Nat)

def AllocCall.Step (before : Memory) (call : AllocCall) (after : Memory) : Prop :=
  match call with
  | .alloc allocZero result => before.pageAlloc allocZero = .ok (result, after)
  | .free page => before.pageFree page = .ok after

structure Memory.Freed (m : Memory) (nodes : List Nat) : Prop where
  chain : Chain m.ppLink m.pageFreeList nodes
  unused : ∀ page ∈ nodes, m.ppRef page = 0

def Memory.LastFree (m : Memory) (page : Nat) : Prop :=
  ∃ nodes, Chain m.ppLink m.pageFreeList nodes ∧ nodes.getLast? = some page

def AllocCall.Careful (m : Memory) (call : AllocCall) : Prop :=
  match call with
  | .alloc _ _ => True
  | .free page => ¬ m.LastFree page

theorem BootConfig.pageInit_freed (c : BootConfig) : c.pageInit.Freed (c.freePages c.npages) := by
  refine ⟨c.pageInit_chain, fun page member => ?_⟩
  have inside := c.mem_freePages.mp member
  exact (c.pageInit_ppRef inside.1).trans (if_neg inside.2)

namespace Memory.Freed

theorem nodup (freed : m.Freed nodes) : nodes.Nodup := chain_nodup freed.chain

theorem lastFree_iff (freed : m.Freed nodes) : m.LastFree page ↔ nodes.getLast? = some page := by
  constructor
  · rintro ⟨nodes', chain, last⟩
    rwa [chain_unique freed.chain chain]
  · exact fun last => ⟨nodes, freed.chain, last⟩

theorem pageFree_panics (freed : m.Freed nodes) (member : page ∈ nodes) :
    m.pageFree page = .error .panic ↔ nodes.getLast? ≠ some page := by
  have last := chain_last freed.chain member
  rw [Memory.pageFree]
  split
  · rename_i refused
    refine iff_of_true rfl fun same => ?_
    rcases refused with used | linked
    · exact used (freed.unused page member)
    · exact linked (last.mpr same)
  · rename_i passed
    rw [not_or, not_not, not_not] at passed
    exact iff_of_false (by simp) fun other => other (last.mp passed.2)

theorem pageAlloc (freed : m.Freed nodes) {allocZero : Bool} {result : Option Nat}
    (allocated : m.pageAlloc allocZero = .ok (result, m')) : nodes.head? = result ∧ m'.Freed nodes.tail := by
  have chain := freed.chain
  cases nodes with
  | nil =>
    rw [Memory.pageAlloc, show m.pageFreeList = none from chain] at allocated
    cases allocated
    exact ⟨rfl, freed⟩
  | cons head rest =>
    rw [Memory.pageAlloc, chain.1] at allocated
    obtain ⟨cleared, clear, given⟩ := Fallible.bind_ok.mp allocated
    have same : cleared.ppLink = m.ppLink ∧ cleared.ppRef = m.ppRef := by
      split at clear
      · obtain ⟨_, -, rfl⟩ := Fallible.map_ok.mp clear
        exact ⟨rfl, rfl⟩
      · cases clear
        exact ⟨rfl, rfl⟩
    cases given
    have unique := List.nodup_cons.mp freed.nodup
    refine ⟨rfl, ?_, fun page member => ?_⟩
    · change Chain (fun page => if page = head then none else cleared.ppLink page) (cleared.ppLink head) rest
      rw [same.1]
      apply chain_congr _ chain.2
      intro other member
      rw [if_neg]
      rintro rfl
      exact unique.1 member
    · change cleared.ppRef page = 0
      rw [same.2]
      exact freed.unused page (List.mem_cons_of_mem _ member)

theorem pageFree (freed : m.Freed nodes) (careful : ¬ m.LastFree page) (done : m.pageFree page = .ok m') :
    page ∉ nodes ∧ m'.Freed (page :: nodes) := by
  have absent : page ∉ nodes := by
    intro member
    have refused := (freed.pageFree_panics member).mpr fun last => careful (freed.lastFree_iff.mpr last)
    rw [refused] at done
    cases done
  unfold Memory.pageFree at done
  split at done
  · cases done
  · rename_i passed
    rw [not_or, not_not] at passed
    cases done
    refine ⟨absent, chain_push (if_pos rfl) ?_ freed.chain, fun other member => ?_⟩
    · intro other member
      apply if_neg
      rintro rfl
      exact absent member
    · rcases List.mem_cons.mp member with rfl | old
      · exact passed.1
      · exact freed.unused other old

/-- The last page of the list passes the test, and the list comes back to it. -/
theorem pageFree_last (freed : m.Freed nodes) (last : nodes.getLast? = some page) :
    ∃ m', m.pageFree page = .ok m' ∧ ∀ nodes', ¬ Chain m'.ppLink m'.pageFreeList nodes' := by
  have member := List.mem_of_getLast? last
  have unlinked := (chain_last freed.chain member).mpr last
  refine ⟨_, if_neg (by simp [freed.unused page member, unlinked]), fun nodes' chain => ?_⟩
  obtain ⟨before, rfl⟩ := List.getLast?_eq_some_iff.mp last
  obtain ⟨rest, rfl, tail⟩ := chain_some (show Chain _ (some page) nodes' from chain)
  have apart : ∀ other ∈ before, other ≠ page := by
    rintro other early rfl
    have disjoint := (List.nodup_append.mp freed.nodup).2.2
    exact disjoint other early other (by simp) rfl
  have head : ((m.setLink page m.pageFreeList).setFreeList (some page)).ppLink page = m.pageFreeList := if_pos rfl
  rw [head] at tail
  have again := chain_reaches freed.chain (fun other early => if_neg (apart other early)) tail
  exact (List.nodup_cons.mp (chain_nodup chain)).1 again

end Memory.Freed

-- Runs

namespace AllocCall

open Transition

variable {call : AllocCall} {calls : List AllocCall}

theorem step_freed (freed : m.Freed nodes) (step : Guarded Careful Step m call m') :
    ∃ nodes', m'.Freed nodes' ∧ ∀ page ∈ nodes', page ∈ nodes ∨ call = .free page := by
  obtain ⟨careful, step⟩ := step
  cases call with
  | alloc allocZero result =>
    exact ⟨nodes.tail, (freed.pageAlloc step).2, fun page member => .inl (List.mem_of_mem_tail member)⟩
  | free page =>
    refine ⟨page :: nodes, (freed.pageFree careful step).2, fun other member => ?_⟩
    rcases List.mem_cons.mp member with rfl | old
    · exact .inr rfl
    · exact .inl old

theorem run_freed (freed : m.Freed nodes) (run : Run (Guarded Careful Step) m calls m') :
    ∃ nodes', m'.Freed nodes' ∧ ∀ page ∈ nodes', page ∈ nodes ∨ .free page ∈ calls := by
  induction run generalizing nodes with
  | nil => exact ⟨nodes, freed, fun page member => .inl member⟩
  | cons head _ ih =>
    obtain ⟨middle, freed', grown⟩ := step_freed freed head
    obtain ⟨nodes', freed'', grown'⟩ := ih freed'
    refine ⟨nodes', freed'', fun page member => ?_⟩
    rcases grown' page member with early | late
    · rcases grown page early with old | rfl
      · exact .inl old
      · exact .inr (List.mem_cons_self ..)
    · exact .inr (List.mem_cons_of_mem _ late)

theorem run_once (freed : m.Freed nodes) {front mid back : List AllocCall} {first second : Bool}
    (run : Run (Guarded Careful Step) m
      (front ++ .alloc first (some page) :: (mid ++ .alloc second (some page) :: back)) m') : .free page ∈ mid := by
  obtain ⟨before, earlier, rest⟩ := run.split
  obtain ⟨nodes₁, freed₁, -⟩ := run_freed freed earlier
  cases rest with
  | cons taken rest =>
    obtain ⟨head, freed₂⟩ := freed₁.pageAlloc taken.2
    obtain ⟨middle, between, rest⟩ := rest.split
    obtain ⟨nodes₃, freed₃, grown⟩ := run_freed freed₂ between
    cases rest with
    | cons again _ =>
      have listed : page ∈ nodes₃ := List.mem_of_head? (freed₃.pageAlloc again.2).1
      rcases grown page listed with old | freeing
      · exfalso
        obtain ⟨rest, rfl⟩ := List.head?_eq_some_iff.mp head
        exact (List.nodup_cons.mp freed₁.nodup).1 old
      · exact freeing

/-- In a run that does not free the last page of the list while it is there, the list stays as it should be. Its
    last page is also the only one that `page_free` takes a second time. -/
theorem page_free_catches (start : m.Freed nodes) (run : Run (Guarded Careful Step) m calls m') :
    ∃ nodes', m'.Freed nodes' ∧ nodes'.Nodup ∧
      (∀ page ∈ nodes', m'.pageFree page = .error .panic ↔ ¬ m'.LastFree page) ∧
      ∀ front mid back first second page,
        calls = front ++ .alloc first (some page) :: (mid ++ .alloc second (some page) :: back) → .free page ∈ mid := by
  obtain ⟨nodes', freed, -⟩ := run_freed start run
  refine ⟨nodes', freed, freed.nodup, fun page member => ?_, ?_⟩
  · rw [freed.lastFree_iff]
    exact freed.pageFree_panics member
  · rintro front mid back first second page rfl
    exact run_once start run

def next (m : Memory) : AllocCall → Option Memory
  | alloc allocZero result =>
    match m.pageAlloc allocZero with
    | .ok (given, m') => if given = result then some m' else none
    | .error _ => none
  | free page => (m.pageFree page).toOption

theorem step_of_next (moved : next m call = some m') : Step m call m' := by
  cases call with
  | alloc allocZero result =>
    change (match m.pageAlloc allocZero with
      | .ok (given, m') => if given = result then some m' else none
      | .error _ => none) = some m' at moved
    split at moved
    · rename_i given after allocated
      split at moved
      · rename_i same
        cases moved
        rw [Step, allocated, same]
      · cases moved
    · cases moved
  | free page =>
    change (m.pageFree page).toOption = some m' at moved
    exact Fallible.toOption_eq_some.mp moved

theorem page_free_catches_smallMachine : ∃ m, (∃ nodes, m.Freed nodes ∧ nodes.Nodup) ∧
    Run (Guarded Careful Step) smallMachine.pageInit [.alloc false (some 1), .free 1] m := by
  have computed : (exec next smallMachine.pageInit [.alloc false (some 1), .free 1]).isSome = true := by decide +kernel
  obtain ⟨m, done⟩ := Option.isSome_iff_exists.mp computed
  obtain ⟨middle, first, rest⟩ := Option.bind_eq_some_iff.mp done
  obtain ⟨last, second, finish⟩ := Option.bind_eq_some_iff.mp rest
  obtain rfl := Option.some.inj finish
  have taken := smallMachine.pageInit_freed.pageAlloc (step_of_next first)
  have careful : Careful middle (.free 1) := by
    intro lastFree
    have same := taken.2.lastFree_iff.mp lastFree
    exact absurd same (by decide)
  have run : Run (Guarded Careful Step) smallMachine.pageInit [.alloc false (some 1), .free 1] last :=
    .cons ⟨trivial, step_of_next first⟩ (.cons ⟨careful, step_of_next second⟩ (.nil _))
  obtain ⟨nodes, freed, nodup, -⟩ := page_free_catches smallMachine.pageInit_freed run
  exact ⟨last, ⟨nodes, freed, nodup⟩, run⟩

/-- Page 15 is the last one on the list. It can be freed there; then the list has no end, and after twelve other
    pages `page_alloc` gives page 15 out again. -/
theorem page_free_again : (∃ nodes, smallMachine.pageInit.Freed nodes ∧ 15 ∈ nodes) ∧
    (∃ m, smallMachine.pageInit.pageFree 15 = .ok m ∧ ∀ nodes, ¬ Chain m.ppLink m.pageFreeList nodes) ∧
    ∃ m, Run Step smallMachine.pageInit (.free 15 ::
      ([15, 1, 2, 3, 4, 5, 6, 10, 11, 12, 13, 14, 15].map fun page => .alloc false (some page))) m := by
  have last : (smallMachine.freePages smallMachine.npages).getLast? = some 15 := by decide
  refine ⟨⟨_, smallMachine.pageInit_freed, List.mem_of_getLast? last⟩, smallMachine.pageInit_freed.pageFree_last last, ?_⟩
  have computed : (exec next smallMachine.pageInit (.free 15 ::
      ([15, 1, 2, 3, 4, 5, 6, 10, 11, 12, 13, 14, 15].map fun page => .alloc false (some page)))).isSome = true := by
    decide +kernel
  obtain ⟨m, done⟩ := Option.isSome_iff_exists.mp computed
  exact ⟨m, .of_exec (fun _ _ _ moved => step_of_next moved) done⟩

end AllocCall

end Jos
