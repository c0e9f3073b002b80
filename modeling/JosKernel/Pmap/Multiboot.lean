import Mathlib.Data.BitVec
import Mathlib.Data.List.Sort
import JosKernel.Pmap.Detect

namespace Jos

structure MemoryRange where
  addr : Word
  length : Word
  type : BitVec 32
  deriving DecidableEq, Repr

attribute [ext] MemoryRange

namespace MemoryRange

def stop (r : MemoryRange) : Word := r.addr + r.length

def normalise (r : MemoryRange) : MemoryRange :=
  if 5 < r.type ∨ r.type < 1 then { r with type := mbTypeReserved } else r

/-- The ranges in the order of their addresses, and those with one address in the order of the map. -/
def sorted (regions : List MemoryRange) : List MemoryRange :=
  regions.foldl (fun sorted r => sorted.orderedInsert (fun a b => a.addr < b.addr) r) []

/-- The blocks that ranges in order of address form. A range that begins where the block before it ends
    and has the same type belongs to that block; of two that overlap, each gets the stricter type. -/
def join (r : MemoryRange) : List MemoryRange → List MemoryRange
  | [] => [r]
  | next :: rest =>
    if r.stop = next.addr ∧ r.type = next.type then join ⟨r.addr, r.length + next.length, r.type⟩ rest
    else if next.addr < r.stop then
      { r with type := restrictiveType r.type next.type } ::
        join { next with type := restrictiveType r.type next.type } rest
    else r :: join next rest

theorem join_touching (r next : MemoryRange) {rest : List MemoryRange} (touching : r.stop = next.addr)
    (same : r.type = next.type) : r.join (next :: rest) = join ⟨r.addr, r.length + next.length, r.type⟩ rest :=
  if_pos ⟨touching, same⟩

theorem join_overlap (r next : MemoryRange) {rest : List MemoryRange} (apart : ¬ (r.stop = next.addr ∧ r.type = next.type))
    (overlap : next.addr < r.stop) : r.join (next :: rest) =
      { r with type := restrictiveType r.type next.type } ::
        join { next with type := restrictiveType r.type next.type } rest :=
  (if_neg apart).trans (if_pos overlap)

theorem join_separate (r next : MemoryRange) {rest : List MemoryRange} (apart : ¬ (r.stop = next.addr ∧ r.type = next.type))
    (separate : ¬ next.addr < r.stop) : r.join (next :: rest) = r :: next.join rest :=
  (if_neg apart).trans (if_neg separate)

def blocks (regions : List MemoryRange) : List MemoryRange :=
  match sorted (regions.map normalise) with
  | [] => []
  | first :: rest => first.join rest

def Usable (r : MemoryRange) : Prop := r.type = mbTypeUsable ∨ r.type = mbTypeAcpiReclm

instance (r : MemoryRange) : Decidable r.Usable := inferInstanceAs (Decidable (_ ∨ _))

def Low (r : MemoryRange) : Prop := r.addr < 0x100000

instance (r : MemoryRange) : Decidable r.Low := inferInstanceAs (Decidable (_ < _))

def lowUsable (blocks : List MemoryRange) : Word :=
  ((blocks.filter fun r => r.Usable ∧ r.Low).map MemoryRange.length).sum

def highUsable (blocks : List MemoryRange) : Word :=
  ((blocks.filter fun r => r.Usable ∧ ¬ r.Low).map MemoryRange.length).sum

end MemoryRange

def MemoryMap.region (map : MemoryMap) : MemoryRange := ⟨map.addr, map.length, map.type⟩

theorem appendHilo_toNat (hi lo : BitVec 32) : (appendHilo hi lo).toNat = hi.toNat * 2^32 + lo.toNat := by
  have high := hi.isLt
  have low := lo.isLt
  rw [appendHilo, BitVec.toNat_add, BitVec.toNat_shiftLeft, BitVec.toNat_setWidth, BitVec.toNat_setWidth,
    Nat.shiftLeft_eq]
  omega

theorem appendHilo_split (x : Word) : appendHilo ((x >>> 32).setWidth 32) (x.setWidth 32) = x := by
  have bound := x.isLt
  apply BitVec.eq_of_toNat_eq
  rw [appendHilo_toNat, BitVec.toNat_setWidth, BitVec.toNat_setWidth, BitVec.toNat_ushiftRight,
    Nat.shiftRight_eq_div_pow]
  omega

theorem setWidth_add_low (x y : Word) :
    ((x.setWidth 32).setWidth 64 + y).setWidth 32 = (x + y).setWidth 32 := by
  apply BitVec.eq_of_toNat_eq
  rw [BitVec.toNat_setWidth, BitVec.toNat_setWidth, BitVec.toNat_add, BitVec.toNat_add, BitVec.toNat_setWidth,
    BitVec.toNat_setWidth]
  omega

theorem MemoryMap.below_mega (map : MemoryMap) :
    (map.baseAddrLow < 0x100000 ∧ map.baseAddrHigh = 0) ↔ map.region.Low := by
  have low := map.baseAddrLow.isLt
  rw [MemoryRange.Low, BitVec.lt_def, BitVec.lt_def, region, addr, appendHilo_toNat, ← BitVec.toNat_inj]
  change map.baseAddrLow.toNat < 0x100000 ∧ map.baseAddrHigh.toNat = 0 ↔ _ < 0x100000
  omega

namespace MapList

@[simp] theorem setBase_list (s : MapList) (k : Nat) (map : MemoryMap) : (s.setBase k map).list = s.list := rfl

theorem setBase_base (s : MapList) (k : Nat) (map : MemoryMap) (other : Nat) :
    (s.setBase k map).base other = if other = k then map else s.base other := Function.update_apply ..

@[simp] theorem setList_base (s : MapList) (j : Nat) (map : Option Nat) : (s.setList j map).base = s.base := rfl

theorem setList_list (s : MapList) (j : Nat) (map : Option Nat) (other : Nat) :
    (s.setList j map).list other = if other = j then map else s.list other := Function.update_apply ..

theorem map_of_list {s : MapList} {j k : Nat} (points : s.list j = some k) : s.map j = s.base k := by
  rw [map, points]
  rfl

theorem setMap_of_list {s : MapList} {j k : Nat} (points : s.list j = some k) (map : MemoryMap) :
    s.setMap j map = s.setBase k map := by
  rw [setMap, points]

theorem shift_apply (list : Nat → Option Nat) (j count k : Nat) :
    shift list j count k = if j < k ∧ k ≤ j + count then list (k - 1) else list k := by
  induction count generalizing list with
  | zero =>
    rw [shift, if_neg (by omega)]
  | succ count ih =>
    rw [shift, ih]
    by_cases last : k = j + count + 1
    · rw [if_neg (by omega), if_pos (by omega), last, Function.update_self]
      rfl
    · rw [Function.update_of_ne last]
      by_cases inside : j < k ∧ k ≤ j + count
      · rw [if_pos inside, if_pos (by omega), Function.update_of_ne (by omega)]
      · rw [if_neg inside, if_neg (by omega)]

def Holds (list : Nat → Option Nat) (order : List Nat) : Prop := ∀ j, j < order.length → list j = order[j]?

theorem Holds.insert {list : Nat → Option Nat} {order : List Nat} (holds : Holds list order) {j : Nat}
    (bound : j ≤ order.length) (k : Nat) :
    Holds (Function.update (if j < order.length then shift list j (order.length + 1 - j) else list) j (some k))
      (order.take j ++ k :: order.drop j) := by
  intro i inside
  have size : (order.take j).length = j := List.length_take_of_le bound
  simp only [List.length_append, List.length_cons, List.length_drop, size] at inside
  rcases Nat.lt_trichotomy i j with before | rfl | after
  · rw [Function.update_of_ne (by omega), List.getElem?_append_left (by omega), List.getElem?_take_of_lt before]
    split
    · rw [shift_apply, if_neg (by omega), holds i (by omega)]
    · exact holds i (by omega)
  · rw [Function.update_self, List.getElem?_append_right (by omega), size]
    simp
  · rw [Function.update_of_ne (by omega), if_pos (by omega), shift_apply, if_pos (by omega),
      List.getElem?_append_right (by omega), size, holds (i - 1) (by omega),
      show i - j = i - 1 - j + 1 by omega, List.getElem?_cons_succ, List.getElem?_drop,
      show j + (i - 1 - j) = i - 1 by omega]

def region (s : MapList) (k : Nat) : MemoryRange := (s.base k).region

theorem position_eq {s : MapList} {order : List Nat} (holds : Holds s.list order) :
    s.position order.length =
      order.findIdx fun k => (s.base order.length).addr < (s.base k).addr := by
  have points : ∀ j (inside : j < order.length), s.map j = s.base order[j] := fun j inside =>
    map_of_list (by rw [holds j inside, List.getElem?_eq_getElem inside])
  rw [position]
  cases found : (List.range order.length).find? fun j => (s.base order.length).addr < (s.map j).addr with
  | none =>
    rw [List.find?_range_eq_none] at found
    refine (List.findIdx_eq_length.mpr fun k member => ?_).symm
    obtain ⟨j, inside, rfl⟩ := List.getElem_of_mem member
    simpa [points j inside] using found j inside
  | some j =>
    obtain ⟨higher, inside, lower⟩ := List.find?_range_eq_some.mp found
    rw [List.mem_range] at inside
    refine ((List.findIdx_eq inside).mpr ⟨?_, fun i before => ?_⟩).symm
    · simpa [points j inside] using higher
    · simpa [points i (by omega)] using lower i before

/-- What holds before iteration `i` of the loop that sorts the entries. -/
structure Sorting (mmap : List MemoryMap) (i : Nat) (s : MapList) (order : List Nat) : Prop where
  holds : Holds s.list order
  members : order.Perm (List.range i)
  unread : ∀ k, i ≤ k → s.base k = mmap.getD k default
  regions : order.map s.region = MemoryRange.sorted ((mmap.take i).map fun map => map.region.normalise)

theorem Sorting.size {mmap : List MemoryMap} {i : Nat} {s : MapList} {order : List Nat}
    (sorting : Sorting mmap i s order) : order.length = i := by
  rw [sorting.members.length_eq, List.length_range]

def normalised (map : MemoryMap) : MemoryMap :=
  if 5 < map.type ∨ map.type < 1 then { map with type := mbTypeReserved } else map

theorem normalised_region (map : MemoryMap) : (normalised map).region = map.region.normalise := by
  rw [normalised, MemoryRange.normalise]
  by_cases unknown : 5 < map.type ∨ map.type < 1
  · rw [if_pos unknown, if_pos (show 5 < map.region.type ∨ map.region.type < 1 from unknown)]
    rfl
  · rw [if_neg unknown, if_neg (show ¬ (5 < map.region.type ∨ map.region.type < 1) from unknown)]

theorem insertMap_eq (s : MapList) (i : Nat) : s.insertMap i =
    let s := s.setBase i (normalised (s.base i))
    { s with list := Function.update (if s.position i < i then shift s.list (s.position i) (i + 1 - s.position i)
        else s.list) (s.position i) (some i) } := by
  have same : (if 5 < (s.base i).type ∨ (s.base i).type < 1 then
      s.setBase i { s.base i with type := mbTypeReserved } else s) = s.setBase i (normalised (s.base i)) := by
    rw [normalised]
    split
    · rfl
    · rw [setBase, Function.update_eq_self]
  rw [insertMap]
  simp only [same]
  split <;> rfl

theorem sorted_snoc (regions : List MemoryRange) (r : MemoryRange) : MemoryRange.sorted (regions ++ [r]) =
    (MemoryRange.sorted regions).take ((MemoryRange.sorted regions).findIdx fun other => r.addr < other.addr) ++
      r :: (MemoryRange.sorted regions).drop ((MemoryRange.sorted regions).findIdx fun other => r.addr < other.addr) := by
  rw [MemoryRange.sorted, List.foldl_append, List.foldl_cons, List.foldl_nil, List.orderedInsert_eq_take_drop,
    List.takeWhile_eq_take_findIdx_not, List.dropWhile_eq_drop_findIdx_not]
  simp only [decide_not, Bool.not_not]
  rfl

theorem Sorting.step {mmap : List MemoryMap} {i : Nat} {s : MapList} {order : List Nat}
    (sorting : Sorting mmap i s order) (inside : i < mmap.length) :
    ∃ order, Sorting mmap (i + 1) (s.insertMap i) order := by
  obtain rfl := sorting.size
  rw [insertMap_eq]
  generalize marked : s.setBase order.length (normalised (s.base order.length)) = t
  have list : t.list = s.list := by rw [← marked, setBase_list]
  have other : ∀ k, k ≠ order.length → t.base k = s.base k := by
    intro k different
    rw [← marked, setBase_base, if_neg different]
  have this : t.region order.length = mmap[order.length].region.normalise := by
    rw [region, ← marked, setBase_base, if_pos rfl, normalised_region, sorting.unread _ le_rfl,
      List.getD_eq_getElem _ _ inside]
  have before : ∀ k ∈ order, k ≠ order.length := by
    intro k member
    have below := List.mem_range.mp (sorting.members.mem_iff.mp member)
    omega
  have regions : order.map t.region = MemoryRange.sorted ((mmap.take order.length).map (·.region.normalise)) := by
    rw [← sorting.regions]
    exact List.map_congr_left fun k member => congrArg MemoryMap.region (other k (before k member))
  have holds : Holds t.list order := list ▸ sorting.holds
  have place : t.position order.length = (order.map t.region).findIdx fun r =>
      mmap[order.length].region.normalise.addr < r.addr := by
    rw [position_eq holds, List.findIdx_map, ← this]
    rfl
  have bound : t.position order.length ≤ order.length := by
    rw [position_eq holds]
    exact List.findIdx_le_length
  refine ⟨order.take (t.position order.length) ++ order.length :: order.drop (t.position order.length), ?_, ?_, ?_, ?_⟩
  · exact holds.insert bound _
  · rw [List.range_succ]
    refine List.perm_middle.trans ?_
    rw [List.take_append_drop]
    exact (List.Perm.cons _ sorting.members).trans (List.perm_append_singleton _ _).symm
  · intro k beyond
    exact (other k (by omega)).trans (sorting.unread k (by omega))
  · have next : MemoryRange.sorted ((mmap.take (order.length + 1)).map (·.region.normalise)) =
        (order.map t.region).take (t.position order.length) ++
          t.region order.length :: (order.map t.region).drop (t.position order.length) := by
      rw [List.take_succ_eq_append_getElem inside, List.map_append, List.map_singleton, sorted_snoc, ← regions,
        ← place, this]
    rw [next, ← List.map_take, ← List.map_drop, ← List.map_cons, ← List.map_append]
    rfl

theorem sorting_loop (mmap : List MemoryMap) (stack : Nat → Option Nat) {i : Nat} (bound : i ≤ mmap.length) :
    ∃ order, Sorting mmap i ((List.range i).foldl insertMap ⟨fun i => mmap.getD i default, stack⟩) order := by
  induction i with
  | zero => exact ⟨[], fun _ none => absurd none (Nat.not_lt_zero _), List.Perm.nil, fun _ _ => rfl, rfl⟩
  | succ i ih =>
    obtain ⟨order, sorting⟩ := ih (by omega)
    rw [List.range_succ, List.foldl_append]
    exact sorting.step bound

/-- The blocks that the first `bound` pointers of `mmap_list` point to. -/
def present (s : MapList) (bound : Nat) : List MemoryRange :=
  (List.range bound).filterMap fun j => (s.list j).map s.region

theorem present_succ (s : MapList) (bound : Nat) :
    s.present (bound + 1) = s.present bound ++ ((s.list bound).map s.region).toList := by
  rw [present, List.range_succ, List.filterMap_append]
  cases points : s.list bound <;> simp [present, points]

theorem present_congr {s s' : MapList} {bound : Nat} (list : ∀ j, j < bound → s'.list j = s.list j)
    (regions : ∀ j k, j < bound → s.list j = some k → s'.region k = s.region k) :
    s'.present bound = s.present bound := by
  refine List.filterMap_congr fun j member => ?_
  have below := List.mem_range.mp member
  rw [list j below]
  cases points : s.list j with
  | none => rw [Option.map_none, Option.map_none]
  | some k => rw [Option.map_some, Option.map_some, regions j k below points]

/-- What holds when the loop that sanitizes the list takes its entry `b` for `prev`: the entries before are
    done, those after are untouched, and together they still make up `total`. -/
structure Sanitizing (order : List Nat) (total : List MemoryRange) (s : MapList) (b : Nat) (inside : b < order.length) :
    Prop where
  ahead : ∀ j, b ≤ j → j < order.length → s.list j = order[j]?
  behind : ∀ j k, j < b → s.list j = some k → order[j]? = some k
  total : s.present b ++ (s.region order[b]).join ((order.drop (b + 1)).map s.region) = total

theorem Sanitizing.next {order : List Nat} {total : List MemoryRange} {s s' : MapList} {b : Nat}
    {inside : b + 1 < order.length} (before : Sanitizing order total s b (by omega)) (nodup : order.Nodup)
    (list : ∀ j, j ≠ b → s'.list j = s.list j) (cleared : ∀ k, s'.list b = some k → k = order[b])
    (regions : ∀ k, k ≠ order[b] → k ≠ order[b + 1] → s'.region k = s.region k)
    (done : ∀ rest, ((s'.list b).map s'.region).toList ++ (s'.region order[b + 1]).join rest =
      (s.region order[b]).join (s.region order[b + 1] :: rest)) :
    Sanitizing order total s' (b + 1) inside := by
  have apart : ∀ j k, j ≠ b → j ≠ b + 1 → order[j]? = some k → s'.region k = s.region k := by
    intro j k notPrev notThis found
    obtain ⟨bound, rfl⟩ := List.getElem?_eq_some_iff.mp found
    refine regions _ ?_ ?_
    · exact fun same => notPrev ((List.Nodup.getElem_inj_iff nodup).mp same)
    · exact fun same => notThis ((List.Nodup.getElem_inj_iff nodup).mp same)
  refine ⟨fun j above bound => ?_, fun j k below points => ?_, ?_⟩
  · rw [list j (by omega)]
    exact before.ahead j (by omega) bound
  · rcases Nat.lt_succ_iff_lt_or_eq.mp below with earlier | rfl
    · rw [list j (by omega)] at points
      exact before.behind j k earlier points
    · rw [cleared k points, List.getElem?_eq_getElem]
  · have earlier : s'.present b = s.present b :=
      present_congr (fun j below => list j (by omega)) fun j k below points =>
        apart j k (by omega) (by omega) (before.behind j k below points)
    have later : (order.drop (b + 1 + 1)).map s'.region = (order.drop (b + 1 + 1)).map s.region := by
      refine List.map_congr_left fun k member => ?_
      obtain ⟨j, found⟩ := List.mem_iff_getElem?.mp member
      rw [List.getElem?_drop] at found
      exact apart (b + 1 + 1 + j) k (by omega) (by omega) found
    rw [present_succ, earlier, later, List.append_assoc, done, ← before.total, List.drop_eq_getElem_cons inside,
      List.map_cons]

theorem Sanitizing.step {order : List Nat} {total : List MemoryRange} {s : MapList} {b : Nat}
    {inside : b + 1 < order.length} (before : Sanitizing order total s b (by omega)) (nodup : order.Nodup) :
    Sanitizing order total (s.sanitizeMap (b + 1)) (b + 1) inside := by
  have prev : s.list b = some order[b] := by
    rw [before.ahead b le_rfl (by omega), List.getElem?_eq_getElem]
  have this : s.list (b + 1) = some order[b + 1] := by
    rw [before.ahead (b + 1) (by omega) inside, List.getElem?_eq_getElem]
  have different : order[b] ≠ order[b + 1] := by
    intro same
    have := (List.Nodup.getElem_inj_iff nodup).mp same
    omega
  rw [sanitizeMap]
  simp only [Nat.add_sub_cancel, map_of_list prev, map_of_list this, setMap_of_list prev, setMap_of_list this]
  split
  · rename_i touching
    refine before.next nodup ?_ ?_ ?_ ?_
    · intro j other
      rw [setList_list, if_neg other, setBase_list]
    · intro k points
      rw [setList_list, if_pos rfl] at points
      cases points
    · intro k _ other
      rw [region, setList_base, setBase_base, if_neg other]
      rfl
    · intro rest
      rw [setList_list, if_pos rfl,
        MemoryRange.join_touching (s.region order[b]) (s.region order[b + 1]) touching.1 touching.2]
      refine congrArg (MemoryRange.join · rest) ?_
      rw [region, setList_base, setBase_base, if_pos rfl, setWidth_add_low]
      refine MemoryRange.ext rfl ?_ touching.2.symm
      exact appendHilo_split _
  · rename_i apart
    split
    · rename_i overlap
      rw [setMap_of_list (by rw [setBase_list, this])]
      refine before.next nodup (fun _ _ => rfl) ?_ ?_ ?_
      · intro k points
        rw [setBase_list, setBase_list, prev] at points
        exact (Option.some.inj points).symm
      · intro k notPrev notThis
        rw [region, setBase_base, if_neg notThis, setBase_base, if_neg notPrev]
        rfl
      · intro rest
        rw [setBase_list, setBase_list, prev,
          MemoryRange.join_overlap (s.region order[b]) (s.region order[b + 1]) apart overlap, Option.map_some, region, region,
          setBase_base, if_neg different, setBase_base, if_pos rfl, setBase_base, if_pos rfl]
        rfl
    · rename_i separate
      refine before.next nodup (fun _ _ => rfl) ?_ (fun _ _ _ => rfl) ?_
      · intro k points
        rw [prev] at points
        exact (Option.some.inj points).symm
      · intro rest
        rw [prev, MemoryRange.join_separate (s.region order[b]) (s.region order[b + 1]) apart separate]
        rfl

theorem sanitizing_loop {order : List Nat} {total : List MemoryRange} {s : MapList} (nodup : order.Nodup)
    (some : 0 < order.length) (initial : Sanitizing order total s 0 some) (b : Nat) (inside : b < order.length) :
    Sanitizing order total ((List.range' 1 b).foldl sanitizeMap s) b inside := by
  induction b with
  | zero => exact initial
  | succ b ih =>
    rw [List.range'_concat, List.foldl_append, Nat.one_mul, Nat.add_comm 1 b]
    exact (ih (by omega)).step nodup

theorem addMap_eq (s : MapList) (sums : Word × Word) (j : Nat) : s.addMap sums j =
    match (s.list j).map s.region with
    | some r =>
      if r.Usable then if r.Low then (sums.1 + r.length, sums.2) else (sums.1, sums.2 + r.length)
      else sums
    | none => sums := by
  rw [addMap]
  cases points : s.list j with
  | none => rw [Option.map_none]
  | some k =>
    rw [Option.map_some]
    simp only [MemoryMap.below_mega]
    rfl

theorem sums_eq (blocks : List MemoryRange) (sums : Word × Word) :
    blocks.foldl (fun sums r =>
      if r.Usable then if r.Low then (sums.1 + r.length, sums.2) else (sums.1, sums.2 + r.length)
      else sums) sums = (sums.1 + MemoryRange.lowUsable blocks, sums.2 + MemoryRange.highUsable blocks) := by
  induction blocks generalizing sums with
  | nil => simp [MemoryRange.lowUsable, MemoryRange.highUsable]
  | cons r rest ih =>
    rw [List.foldl_cons, ih]
    by_cases usable : r.Usable <;> by_cases low : r.Low <;>
      simp [MemoryRange.lowUsable, MemoryRange.highUsable, usable, low, BitVec.add_assoc]

theorem addMap_loop (s : MapList) (bound : Nat) : (List.range bound).foldl s.addMap (0, 0) =
    (MemoryRange.lowUsable (s.present bound), MemoryRange.highUsable (s.present bound)) := by
  have added := sums_eq (s.present bound) (0, 0)
  rw [present, List.foldl_filterMap] at added
  refine Eq.trans ?_ (added.trans (congrArg₂ Prod.mk (BitVec.zero_add _) (BitVec.zero_add _)))
  congr 1
  funext sums j
  rw [addMap_eq]
  cases (s.list j).map s.region <;> rfl

end MapList

open MapList in
theorem multibootRead_eq (mmap : List MemoryMap) (stack : Nat → Option Nat) : multibootRead mmap stack =
    (MemoryRange.lowUsable (MemoryRange.blocks (mmap.map MemoryMap.region)),
      MemoryRange.highUsable (MemoryRange.blocks (mmap.map MemoryMap.region))) := by
  obtain ⟨order, sorting⟩ := sorting_loop mmap stack le_rfl
  have size := sorting.size
  have regions := sorting.regions
  rw [List.take_length] at regions
  rw [multibootRead]
  generalize (List.range mmap.length).foldl insertMap ⟨fun i => mmap.getD i default, stack⟩ = s at *
  suffices done : ((List.range' 1 (mmap.length - 1)).foldl sanitizeMap s).present mmap.length =
      MemoryRange.blocks (mmap.map MemoryMap.region) by rw [← done, ← addMap_loop]
  rw [MemoryRange.blocks, List.map_map]
  change _ = match MemoryRange.sorted (mmap.map fun map => map.region.normalise) with | [] => [] | r :: rest => r.join rest
  rw [← regions, ← size]
  cases order with
  | nil => rfl
  | cons first rest =>
    have initial : Sanitizing (first :: rest) ((s.region first).join (rest.map s.region)) s 0 (Nat.succ_pos _) := by
      refine ⟨fun j _ bound => sorting.holds j bound, fun j k below => absurd below (Nat.not_lt_zero j), ?_⟩
      rfl
    have last := sanitizing_loop (sorting.members.nodup_iff.mpr List.nodup_range) _ initial rest.length (by simp)
    have ended := last.total
    rw [List.drop_eq_nil_of_le (by simp), List.map_nil, MemoryRange.join] at ended
    rw [List.length_cons, Nat.add_sub_cancel, present_succ, last.ahead rest.length le_rfl (by simp),
      List.getElem?_eq_getElem (by simp)]
    exact ended

end Jos
