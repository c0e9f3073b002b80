import JosKernel.Pmap.Multiboot

namespace Jos

theorem MemoryRange.sorted_ordered (regions : List MemoryRange) :
    (sorted regions).Pairwise fun left right => left.addr ≤ right.addr := by
  induction regions using List.reverseRecOn with
  | nil => exact .nil
  | append_singleton regions r ih =>
    rw [MapList.sorted_snoc]
    generalize sorted regions = list at ih ⊢
    generalize place : (list.findIdx fun other => r.addr < other.addr) = j
    have before : ∀ left ∈ list.take j, left.addr ≤ r.addr := by
      intro left member
      obtain ⟨i, inside, rfl⟩ := List.mem_take_iff_getElem.mp member
      have lower := List.not_of_lt_findIdx (show i < list.findIdx fun other => r.addr < other.addr by omega)
      simpa using lower
    have after : ∀ right ∈ list.drop j, r.addr ≤ right.addr := by
      intro right member
      have whole := ih
      rw [← List.take_append_drop j list, List.pairwise_append] at whole
      have small : j < list.length := by
        by_contra large
        rw [List.drop_eq_nil_of_le (by omega)] at member
        simp at member
      have first : r.addr < list[j].addr := by
        have found := List.findIdx_getElem (w := place ▸ small)
        simpa [place] using found
      rw [List.drop_eq_getElem_cons small] at member whole
      apply BitVec.le_trans (BitVec.le_of_lt first)
      rcases List.mem_cons.mp member with rfl | later
      · exact BitVec.le_refl _
      · exact (List.pairwise_cons.mp whole.2.1).1 right later
    have split := ih
    rw [← List.take_append_drop j list, List.pairwise_append] at split
    obtain ⟨front, back, across⟩ := split
    rw [List.pairwise_append, List.pairwise_cons]
    refine ⟨front, ⟨after, back⟩, ?_⟩
    intro left early right late
    rcases List.mem_cons.mp late with rfl | later
    · exact before left early
    · exact across left early right later

namespace MapList

def sortMaps (mmap : List MemoryMap) (stack : Nat → Option Nat) : MapList :=
  (List.range mmap.length).foldl insertMap ⟨fun i => mmap.getD i default, stack⟩

/-- `mmap_list` begins with pointers to all entries of the map, in the order of their addresses. -/
def InOrder (mmap : List MemoryMap) (s : MapList) : Prop :=
  ∃ order : List Nat, order.Perm (List.range mmap.length) ∧ Holds s.list order ∧
    order.Pairwise fun a b => (mmap.getD a default).addr ≤ (mmap.getD b default).addr

def StaysInside (mmap : List MemoryMap) : Prop :=
  ∀ stack j, mmap.length ≤ j → (sortMaps mmap stack).list j = stack j

variable {s : MapList} {i k : Nat}

theorem position_le (s : MapList) (i : Nat) : s.position i ≤ i := by
  rw [position]
  cases found : (List.range i).find? fun j => (s.base i).addr < (s.map j).addr with
  | none => exact Nat.le_refl i
  | some j => exact Nat.le_of_lt (List.mem_range.mp (List.mem_of_find?_eq_some found))

theorem insertMap_addr (s : MapList) (i k : Nat) : ((s.insertMap i).base k).addr = (s.base k).addr := by
  rw [insertMap_eq]
  change ((s.setBase i (normalised (s.base i))).base k).addr = _
  rw [setBase_base]
  split
  · rename_i here
    rw [here, normalised]
    split <;> rfl
  · rfl

theorem insertMap_list (s : MapList) (i k : Nat) : (s.insertMap i).list k =
    let j := (s.setBase i (normalised (s.base i))).position i
    if k = j then some i else if j < k ∧ k ≤ i + 1 ∧ j < i then s.list (k - 1) else s.list k := by
  rw [insertMap_eq]
  simp only
  generalize (s.setBase i (normalised (s.base i))).position i = j
  rw [Function.update_apply]
  by_cases here : k = j
  · rw [if_pos here, if_pos here]
  · rw [if_neg here, if_neg here]
    split
    · rename_i shifts
      rw [shift_apply, setBase_list]
      exact if_congr (by omega) rfl rfl
    · rename_i last
      rw [setBase_list, if_neg fun both => last both.2.2]

theorem insertMap_above (above : i + 1 < k) : (s.insertMap i).list k = s.list k := by
  have bound := (s.setBase i (normalised (s.base i))).position_le i
  rw [insertMap_list]
  simp only
  rw [if_neg (by omega), if_neg (by omega)]

theorem insertMap_next : (s.insertMap i).list (i + 1) =
    if (s.setBase i (normalised (s.base i))).position i < i then s.list i else s.list (i + 1) := by
  have bound := (s.setBase i (normalised (s.base i))).position_le i
  rw [insertMap_list]
  simp only
  rw [if_neg (by omega)]
  exact if_congr (by omega) rfl rfl

theorem loop_above (mmap : List MemoryMap) (stack : Nat → Option Nat) {i k : Nat} (above : i < k) :
    ((List.range i).foldl insertMap ⟨fun i => mmap.getD i default, stack⟩).list k = stack k := by
  induction i with
  | zero => rfl
  | succ i ih =>
    rw [List.range_succ, List.foldl_append, List.foldl_cons, List.foldl_nil, insertMap_above above, ih (by omega)]

theorem loop_addr (mmap : List MemoryMap) (stack : Nat → Option Nat) (i k : Nat) :
    (((List.range i).foldl insertMap ⟨fun i => mmap.getD i default, stack⟩).base k).addr =
      (mmap.getD k default).addr := by
  induction i with
  | zero => rfl
  | succ i ih => rw [List.range_succ, List.foldl_append, List.foldl_cons, List.foldl_nil, insertMap_addr, ih]

theorem loop_filled (mmap : List MemoryMap) (stack : Nat → Option Nat) (bound : Nat)
    (filled : ∀ k ≤ bound, stack k ≠ none) (i : Nat) :
    ∀ k ≤ bound, ((List.range i).foldl insertMap ⟨fun i => mmap.getD i default, stack⟩).list k ≠ none := by
  induction i with
  | zero => exact filled
  | succ i ih =>
    intro k within
    rw [List.range_succ, List.foldl_append, List.foldl_cons, List.foldl_nil, insertMap_list]
    simp only
    split
    · simp
    · split
      · exact ih (k - 1) (by omega)
      · exact ih k within

theorem sortMaps_inOrder (mmap : List MemoryMap) (stack : Nat → Option Nat) :
    InOrder mmap (sortMaps mmap stack) := by
  obtain ⟨order, sorting⟩ := sorting_loop mmap stack (Nat.le_refl mmap.length)
  refine ⟨order, sorting.members, sorting.holds, ?_⟩
  have ordered := MemoryRange.sorted_ordered ((mmap.take mmap.length).map fun map => map.region.normalise)
  rw [← sorting.regions, List.pairwise_map] at ordered
  apply ordered.imp
  intro a b before
  have address : ∀ k, ((sortMaps mmap stack).region k).addr = (mmap.getD k default).addr := loop_addr mmap stack _
  rw [← address a, ← address b]
  exact before

/-- The last entry is moved before another one exactly if that has a higher address. -/
theorem shifts_last {mmap : List MemoryMap} {i : Nat} (bound : i ≤ mmap.length) (stack : Nat → Option Nat) :
    let s := (List.range i).foldl insertMap ⟨fun i => mmap.getD i default, stack⟩
    (s.setBase i (normalised (s.base i))).position i < i ↔
      ∃ k < i, (mmap.getD i default).addr < (mmap.getD k default).addr := by
  intro s
  obtain ⟨order, sorting⟩ := sorting_loop mmap stack bound
  obtain rfl := sorting.size
  generalize marked : s.setBase order.length (normalised (s.base order.length)) = t
  have addr : ∀ k, (t.base k).addr = (mmap.getD k default).addr := by
    intro k
    rw [← loop_addr mmap stack order.length k, ← marked, setBase_base]
    split
    · rename_i here
      rw [here, normalised]
      split <;> rfl
    · rfl
  have holds : Holds t.list order := by
    rw [← marked]
    exact sorting.holds
  rw [position_eq holds, List.findIdx_lt_length]
  simp only [addr, decide_eq_true_eq]
  constructor
  · rintro ⟨k, member, higher⟩
    exact ⟨k, List.mem_range.mp (sorting.members.mem_iff.mp member), higher⟩
  · rintro ⟨k, inside, higher⟩
    exact ⟨k, sorting.members.mem_iff.mpr (List.mem_range.mpr inside), higher⟩

theorem staysInside_iff (mmap : List MemoryMap) :
    StaysInside mmap ↔ ∀ map ∈ mmap, ∀ last ∈ mmap.getLast?, map.addr ≤ last.addr := by
  rcases List.eq_nil_or_concat' mmap with rfl | ⟨front, last, rfl⟩
  · exact iff_of_true (fun _ _ _ => rfl) (by simp)
  have size : (front ++ [last]).length = front.length + 1 := by simp
  have atLast : (front ++ [last]).getD front.length default = last := by simp
  have atFront : ∀ k (inside : k < front.length), (front ++ [last]).getD k default = front[k] := by
    intro k inside
    rw [List.getD_append _ _ _ _ inside, List.getD_eq_getElem _ _ inside]
  have split : ∀ stack, sortMaps (front ++ [last]) stack = insertMap ((List.range front.length).foldl insertMap
      ⟨fun i => (front ++ [last]).getD i default, stack⟩) front.length := by
    intro stack
    rw [sortMaps, size, List.range_succ, List.foldl_append, List.foldl_cons, List.foldl_nil]
  have shifts := shifts_last (show front.length ≤ (front ++ [last]).length by omega)
  simp only [atLast] at shifts
  have condition : (∀ map ∈ front ++ [last], ∀ other ∈ (front ++ [last]).getLast?, map.addr ≤ other.addr) ↔
      ¬ ∃ k < front.length, last.addr < ((front ++ [last]).getD k default).addr := by
    simp only [List.getLast?_concat, Option.mem_def, Option.some.injEq, forall_eq', not_exists, not_and, BitVec.not_lt]
    constructor
    · intro lower k inside
      rw [atFront k inside]
      exact lower _ (by simp)
    · intro lower map member
      rcases List.mem_append.mp member with early | final
      · obtain ⟨k, inside, rfl⟩ := List.mem_iff_getElem.mp early
        rw [← atFront k inside]
        exact lower k inside
      · rw [List.mem_singleton.mp final]
        exact BitVec.le_refl _
  rw [condition]
  constructor
  · intro inside higher
    let stack : Nat → Option Nat := fun j => if j ≤ front.length then some 0 else none
    have filled := loop_filled (front ++ [last]) stack front.length (fun k within => by simp [stack, within])
      front.length front.length (Nat.le_refl _)
    have kept := inside stack (front.length + 1) (by omega)
    rw [split, insertMap_next, if_pos ((shifts _).mpr higher)] at kept
    exact filled (kept.trans (if_neg (by omega)))
  · intro lower stack j behind
    rw [split]
    rcases Nat.lt_or_eq_of_le (show front.length + 1 ≤ j by omega) with above | rfl
    · rw [insertMap_above above, loop_above _ _ (by omega)]
    · rw [insertMap_next, if_neg (mt (shifts stack).mp lower), loop_above _ _ (by omega)]

/-- The entries are always sorted, and nothing else is written exactly if none begins behind the last one. -/
theorem insertion_in_bounds (mmap : List MemoryMap) :
    (StaysInside mmap ∧ ∀ stack, InOrder mmap (sortMaps mmap stack)) ↔
      ∀ map ∈ mmap, ∀ last ∈ mmap.getLast?, map.addr ≤ last.addr := by
  rw [← staysInside_iff]
  exact and_iff_left (sortMaps_inOrder mmap)

def descendingMap : List MemoryMap :=
  [⟨0x100000, 0, 0x3ff00000, 0, mbTypeUsable⟩, ⟨0, 0, 0x9fc00, 0, mbTypeUsable⟩]

/-- The word behind the array is overwritten with the one before it. -/
theorem insertion_overruns : (sortMaps descendingMap fun j => if j = 1 then some 7 else none).list 2 = some 7 ∧
    ¬ StaysInside descendingMap := by
  have written : (sortMaps descendingMap fun j => if j = 1 then some 7 else none).list 2 = some 7 := by decide +kernel
  refine ⟨written, fun inside => ?_⟩
  rw [inside _ 2 (by decide)] at written
  simp at written

end MapList

end Jos
