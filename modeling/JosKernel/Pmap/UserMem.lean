import JosKernel.Pmap.Lookup

namespace Jos

/-- The iterations of `for (; start < end; start += PGSIZE)` between two page boundaries. -/
def pagesBetween (start stop : Word) : Nat := (stop.toNat - start.toNat) / pgSize

theorem pagesBetween_eq_zero {start stop : Word} (hs : start.toNat % 4096 = 0)
    (ht : stop.toNat % 4096 = 0) : pagesBetween start stop = 0 ↔ ¬ start < stop := by
  rw [BitVec.lt_def, pagesBetween, pgSize]
  omega

theorem pagesBetween_step {start stop : Word} (hs : start.toNat % 4096 = 0)
    (ht : stop.toNat % 4096 = 0) (more : start < stop) :
    pagesBetween start stop = pagesBetween (start + BitVec.ofNat 64 pgSize) stop + 1 := by
  rw [BitVec.lt_def] at more
  have moved : (start + BitVec.ofNat 64 pgSize).toNat = start.toNat + 4096 := by
    rw [BitVec.toNat_add]
    change (start.toNat + 4096) % 2^64 = _
    omega
  rw [pagesBetween, pagesBetween, moved, pgSize]
  omega

theorem roundDown_toNat (a : Word) : (roundDown a pgSize).toNat = a.toNat / 4096 * 4096 := by
  have small : (a % BitVec.ofNat 64 pgSize).toNat = a.toNat % 4096 := rfl
  rw [roundDown, BitVec.toNat_sub, small]
  omega

theorem roundUp_toNat (a : Word) :
    (roundUp a pgSize).toNat = (a.toNat + 4095) % 2^64 / 4096 * 4096 := by
  have moved : (a + BitVec.ofNat 64 pgSize - 1).toNat = (a.toNat + 4095) % 2^64 := by
    rw [BitVec.toNat_sub, BitVec.toNat_add]
    change (2^64 - 1 + (a.toNat + 4096) % 2^64) % 2^64 = _
    omega
  rw [roundUp, roundDown_toNat, moved]

def pageAfter (start : Word) (page : Nat) : Word := start + BitVec.ofNat 64 (page * pgSize)

theorem pageAfter_zero (start : Word) : pageAfter start 0 = start := by
  rw [pageAfter, Nat.zero_mul]
  exact BitVec.add_zero start

theorem pageAfter_succ (start : Word) (page : Nat) :
    pageAfter start (page + 1) = pageAfter (start + BitVec.ofNat 64 pgSize) page := by
  rw [pageAfter, pageAfter, Nat.add_mul, Nat.one_mul, Nat.add_comm, BitVec.ofNat_add, BitVec.add_assoc]

namespace Memory

def userMemCheckPages (table : Nat) (va newPerm : Word) :
    Nat → Word → Memory → Except Stop (Int × Memory)
  | 0, _, m => .ok (0, m)
  | pages + 1, start, m =>
    if ulim ≤ start then .ok (-eFault, { m with userMemCheckAddr := start })
    else do
      let (slot, m) ← m.pml4eWalk table start false
      -- rounding down must not report an address below `va`
      let fault := { m with userMemCheckAddr := if start < va then va else start }
      match slot with
      | none => .ok (-eFault, fault)
      | some slot =>
        if m.read slot &&& newPerm ≠ newPerm then .ok (-eFault, fault)
        else userMemCheckPages table va newPerm pages (start + BitVec.ofNat 64 pgSize) m

def userMemCheck (m : Memory) (table : Nat) (va len : Word) (perm : BitVec 32) :
    Except Stop (Int × Memory) :=
  let stop := roundUp (va + len) pgSize
  let start := roundDown va pgSize
  userMemCheckPages table va (leafFlags perm) (pagesBetween start stop) start m

/-- No page is at once a page-directory-pointer table and a page table of the user half, so the flags
    that a walk rewrites are never those of a leaf entry. -/
def Separate (m : Memory) (root : Nat) : Prop :=
  ∀ va va' : Word, va < ulim → va' < ulim → ∀ pdpt slot, m.child root (pml4 va) = some pdpt →
    m.leafSlot root va' = some slot → slot.1 ≠ pdpt

/-- The MMU finds a leaf entry for `va` that has every bit of `perm`. -/
def Mapped (m : Memory) (root : Nat) (perm va : Word) : Prop :=
  ∃ translation, m.mmuWalk root va = some translation ∧ translation.leaf &&& perm = perm

/-- What the check is to guarantee of the bytes from `va` to `va + len`, counted without wrapping. -/
def Checked (m : Memory) (root : Nat) (va len : Word) (perm : Word) : Prop :=
  ∀ a : Nat, va.toNat ≤ a → a < va.toNat + len.toNat →
    a < ulim.toNat ∧ m.Mapped root perm (BitVec.ofNat 64 a)

def PageAllowed (m : Memory) (root : Nat) (start newPerm : Word) : Prop :=
  ¬ ulim ≤ start ∧ ∃ slot m', m.pml4eWalk root start false = .ok (some slot, m') ∧
    m'.read slot &&& newPerm = newPerm

theorem userMemCheckPages_ok {root : Nat} {va newPerm start : Word} {pages : Nat} {m m' : Memory}
    (passed : userMemCheckPages root va newPerm (pages + 1) start m = .ok (0, m')) :
    ∃ slot middle, ¬ ulim ≤ start ∧ m.pml4eWalk root start false = .ok (some slot, middle) ∧
      middle.read slot &&& newPerm = newPerm ∧
      userMemCheckPages root va newPerm pages (start + BitVec.ofNat 64 pgSize) middle = .ok (0, m') := by
  unfold userMemCheckPages at passed
  split at passed
  · cases passed
  · rename_i below
    cases walk : m.pml4eWalk root start false with
    | error stop =>
      rw [walk] at passed
      cases passed
    | ok result =>
      obtain ⟨slot, middle⟩ := result
      rw [walk] at passed
      simp only [bind, Except.bind] at passed
      cases slot with
      | none => cases passed
      | some slot =>
        simp only at passed
        split at passed
        · cases passed
        · rename_i flags
          exact ⟨slot, middle, below, rfl, not_not.mp flags, passed⟩

theorem PageAllowed.of_ok {root : Nat} {va newPerm start : Word} {pages : Nat} {m m' : Memory}
    (passed : userMemCheckPages root va newPerm (pages + 1) start m = .ok (0, m')) :
    m.PageAllowed root start newPerm := by
  obtain ⟨slot, middle, below, walk, flags, -⟩ := userMemCheckPages_ok passed
  exact ⟨below, slot, middle, walk, flags⟩

theorem PageAllowed.ok {m : Memory} {root : Nat} {start newPerm : Word}
    (allowed : m.PageAllowed root start newPerm) (va : Word) :
    ∃ m', userMemCheckPages root va newPerm 1 start m = .ok (0, m') := by
  obtain ⟨below, slot, middle, walk, flags⟩ := allowed
  refine ⟨middle, ?_⟩
  unfold userMemCheckPages
  rw [if_neg below, walk]
  simp [bind, Except.bind, flags, userMemCheckPages]

-- What one iteration does to the tables

theorem leafSlot_walk {m m' : Memory} {root : Nat} {va : Word} {slot : Option Slot}
    (walked : m.pml4eWalk root va false = .ok (slot, m')) :
    m'.leafSlot = m.leafSlot ∧ m'.child = m.child := by
  obtain ⟨rfl | ⟨pdpt, -, rfl⟩, -⟩ := pml4eWalk_lookup walked
  · exact ⟨rfl, rfl⟩
  · exact ⟨leafSlot_refresh _ _, child_refresh _ _⟩

theorem Separate.walk {m m' : Memory} {root : Nat} {va : Word} {slot : Option Slot}
    (separate : m.Separate root) (walked : m.pml4eWalk root va false = .ok (slot, m')) :
    m'.Separate root := by
  obtain ⟨slots, children⟩ := leafSlot_walk walked
  unfold Separate
  rw [slots, children]
  exact separate

theorem Separate.read_walk {m m' : Memory} {root : Nat} {va va' : Word} {slot : Option Slot}
    {leaf : Slot} (separate : m.Separate root) (walked : m.pml4eWalk root va false = .ok (slot, m'))
    (below : va < ulim) (below' : va' < ulim) (found : m.leafSlot root va' = some leaf) :
    m'.read leaf = m.read leaf := by
  obtain ⟨rfl | ⟨pdpt, top, rfl⟩, -⟩ := pml4eWalk_lookup walked
  · rfl
  · exact refresh_word_of_ne (.inl (separate va va' below below' pdpt leaf top found))

/-- Leaf entries that are as they should be stay so through the rest of the loop. -/
theorem userMemCheckPages_leaf {root : Nat} {va newPerm start va' : Word} {pages : Nat}
    {m m' : Memory} {leaf : Slot} (separate : m.Separate root)
    (passed : userMemCheckPages root va newPerm pages start m = .ok (0, m'))
    (below : va' < ulim) (found : m.leafSlot root va' = some leaf) :
    m'.leafSlot root va' = some leaf ∧ m'.read leaf = m.read leaf := by
  induction pages generalizing start m with
  | zero =>
    cases passed
    exact ⟨found, rfl⟩
  | succ pages ih =>
    obtain ⟨slot, middle, inside, walk, -, rest⟩ := userMemCheckPages_ok passed
    have found' : middle.leafSlot root va' = some leaf := by rw [(leafSlot_walk walk).1, found]
    have same := separate.read_walk walk (BitVec.not_le.mp inside) below found
    obtain ⟨slotAfter, readAfter⟩ := ih (separate.walk walk) rest found'
    exact ⟨slotAfter, readAfter.trans same⟩

theorem userMemCheckPages_sound {root : Nat} {va newPerm start : Word} {pages : Nat} {m m' : Memory}
    (separate : m.Separate root) (bound : start.toNat + pages * 4096 < 2^64)
    (passed : userMemCheckPages root va newPerm pages start m = .ok (0, m')) :
    ∀ page < pages, ∃ leaf, start.toNat + page * 4096 < ulim.toNat ∧
      m'.leafSlot root (BitVec.ofNat 64 (start.toNat + page * 4096)) = some leaf ∧
      m'.read leaf &&& newPerm = newPerm := by
  induction pages generalizing start m with
  | zero => simp
  | succ pages ih =>
    intro page small
    obtain ⟨slot, middle, inside, walk, flags, rest⟩ := userMemCheckPages_ok passed
    have below : start < ulim := BitVec.not_le.mp inside
    have next : (start + BitVec.ofNat 64 pgSize).toNat = start.toNat + 4096 := by
      rw [BitVec.toNat_add]
      change (start.toNat + 4096) % 2^64 = _
      omega
    cases page with
    | zero =>
      have found := (pml4eWalk_lookup walk).2 slot rfl
      have foundAfter : middle.leafSlot root start = some slot := by rw [(leafSlot_walk walk).1, found]
      obtain ⟨slotAfter, readAfter⟩ := userMemCheckPages_leaf (separate.walk walk) rest below foundAfter
      refine ⟨slot, by simpa using BitVec.lt_def.mp below, ?_, by rw [readAfter, flags]⟩
      rw [Nat.zero_mul, Nat.add_zero, BitVec.ofNat_toNat, BitVec.setWidth_eq]
      exact slotAfter
    | succ page =>
      obtain ⟨leaf, low, found, bits⟩ :=
        ih (separate.walk walk) (by rw [next]; omega) rest page (by omega)
      rw [next, show start.toNat + 4096 + page * 4096 = start.toNat + (page + 1) * 4096 by omega]
        at low found
      exact ⟨leaf, low, found, bits⟩

theorem present_of_flags {pte : Word} {perm : BitVec 32} (flags : pte &&& leafFlags perm = leafFlags perm) :
    Present pte := by
  have bit : (leafFlags perm).getLsbD 0 = true := by
    simp [leafFlags, pteP]
  have both := congrArg (fun word => word.getLsbD 0) flags
  simp only [BitVec.getLsbD_and, bit, Bool.and_true] at both
  have := BitVec.testBit_toNat pte (i := 0)
  rw [both, Nat.testBit_zero, decide_eq_true_eq] at this
  exact (present_iff pte).mpr this

theorem leafSlot_of_page {m : Memory} {root : Nat} {va va' : Word}
    (same : va.toNat / 4096 = va'.toNat / 4096) : m.leafSlot root va = m.leafSlot root va' := by
  obtain ⟨hm, hp, hd, ht⟩ := indices_of_page same
  unfold leafSlot
  rw [hm, hp, hd, ht]

/-- As long as rounding up the end does not wrap, the loop covers every byte. -/
theorem userMemCheck_sound {m m' : Memory} {root : Nat} {va len : Word} {perm : BitVec 32}
    (separate : m.Separate root) (room : va.toNat + len.toNat + 4095 < 2^64)
    (passed : m.userMemCheck root va len perm = .ok (0, m')) :
    m'.Checked root va len (leafFlags perm) := by
  have first : (roundDown va pgSize).toNat = va.toNat / 4096 * 4096 := roundDown_toNat va
  have sum : (va + len).toNat = va.toNat + len.toNat := by
    rw [BitVec.toNat_add]
    omega
  have last : (roundUp (va + len) pgSize).toNat = (va.toNat + len.toNat + 4095) / 4096 * 4096 := by
    rw [roundUp_toNat, sum]
    omega
  have pages : pagesBetween (roundDown va pgSize) (roundUp (va + len) pgSize) =
      (va.toNat + len.toNat + 4095) / 4096 - va.toNat / 4096 := by
    rw [pagesBetween, first, last, pgSize]
    omega
  intro a low high
  have vouched := userMemCheckPages_sound separate (by rw [first, pages]; omega) passed
    (a / 4096 - va.toNat / 4096) (by rw [pages]; omega)
  obtain ⟨leaf, below, found, bits⟩ := vouched
  rw [first] at below found
  have small : a < 2^64 := by omega
  have page : (BitVec.ofNat 64 a).toNat / 4096 =
      (BitVec.ofNat 64 (va.toNat / 4096 * 4096 + (a / 4096 - va.toNat / 4096) * 4096)).toNat / 4096 := by
    rw [BitVec.toNat_ofNat, BitVec.toNat_ofNat]
    omega
  rw [← leafSlot_of_page page] at found
  obtain ⟨translation, walk, entry, -⟩ := mmuWalk_leaf found (present_of_flags bits)
  refine ⟨?_, translation, walk, by rw [entry, bits]⟩
  rw [ulim_toNat] at below ⊢
  omega

theorem pagesBetween_wrapped {va len : Word} (wraps : 2^64 ≤ va.toNat + len.toNat + 4095) :
    pagesBetween (roundDown va pgSize) (roundUp (va + len) pgSize) ≤ 1 := by
  have first : (roundDown va pgSize).toNat = va.toNat / 4096 * 4096 := roundDown_toNat va
  have last := roundUp_toNat (va + len)
  have sum : (va + len).toNat = (va.toNat + len.toNat) % 2^64 := BitVec.toNat_add va len
  have hv := va.isLt
  have hl := len.isLt
  rw [pagesBetween, first, last, sum, pgSize]
  omega

theorem not_checked_of_wrapped {m : Memory} {root : Nat} {va len perm : Word} (some : len ≠ 0)
    (wraps : 2^64 ≤ va.toNat + len.toNat + 4095) : ¬ m.Checked root va len perm := by
  intro checked
  have positive : 0 < len.toNat := by
    rcases Nat.eq_zero_or_pos len.toNat with zero | positive
    · exact absurd (BitVec.eq_of_toNat_eq zero) some
    · exact positive
  have low := (checked (va.toNat + len.toNat - 1) (by omega) (by omega)).1
  rw [ulim_toNat] at low
  omega

/-- `userMemCheck` is sound for a range exactly when rounding up its end does not wrap, or the range
    is empty, or the one page that a wrapped loop still sees is refused. -/
theorem userMemCheck_sound_iff (m : Memory) (root : Nat) (va len : Word) (perm : BitVec 32)
    (separate : m.Separate root) :
    (∀ m', m.userMemCheck root va len perm = .ok (0, m') → m'.Checked root va len (leafFlags perm)) ↔
      len = 0 ∨ va.toNat + len.toNat + 4095 < 2^64 ∨
        (roundDown va pgSize < roundUp (va + len) pgSize ∧
          ¬ m.PageAllowed root (roundDown va pgSize) (leafFlags perm)) := by
  constructor
  · intro sound
    by_cases empty : len = 0
    · exact .inl empty
    by_cases room : va.toNat + len.toNat + 4095 < 2^64
    · exact .inr (.inl room)
    have wraps : 2^64 ≤ va.toNat + len.toNat + 4095 := by omega
    have unsound : ∀ m', m.userMemCheck root va len perm ≠ .ok (0, m') :=
      fun m' passed => not_checked_of_wrapped empty wraps (sound m' passed)
    have few := pagesBetween_wrapped wraps
    have aligned : (roundDown va pgSize).toNat % 4096 = 0 := by rw [roundDown_toNat]; omega
    have aligned' : (roundUp (va + len) pgSize).toNat % 4096 = 0 := by rw [roundUp_toNat]; omega
    have one : pagesBetween (roundDown va pgSize) (roundUp (va + len) pgSize) = 1 := by
      by_contra other
      have zero : pagesBetween (roundDown va pgSize) (roundUp (va + len) pgSize) = 0 := by omega
      apply unsound m
      rw [userMemCheck, zero, userMemCheckPages]
    refine .inr (.inr ⟨?_, ?_⟩)
    · by_contra stopped
      rw [(pagesBetween_eq_zero aligned aligned').mpr stopped] at one
      cases one
    · intro allowed
      obtain ⟨m', passed⟩ := allowed.ok va
      apply unsound m'
      rw [userMemCheck, one, passed]
  · intro condition m' passed
    rcases condition with empty | room | ⟨more, refused⟩
    · intro a low high
      rw [empty] at high
      simp at high
      omega
    · exact userMemCheck_sound separate room passed
    · exfalso
      have aligned : (roundDown va pgSize).toNat % 4096 = 0 := by rw [roundDown_toNat]; omega
      have aligned' : (roundUp (va + len) pgSize).toNat % 4096 = 0 := by rw [roundUp_toNat]; omega
      rw [userMemCheck, pagesBetween_step aligned aligned' more] at passed
      exact refused (.of_ok passed)

/-- The page 5 at `i` gigabytes, in the address space of the PML4 in page 1. -/
def onePage (i : Nat) : Memory where
  npages := 16
  bootPml4e := 9
  word := fun page index =>
    if page = 1 ∧ index = 0 then tableEntry 2
    else if page = 2 ∧ index = i then tableEntry 3
    else if page = 3 ∧ index = 0 then tableEntry 4
    else if page = 4 ∧ index = 0 then leafEntry 5 7
    else 0
  ppRef := fun page => if page ≤ 5 then 1 else 0
  ppLink := fun _ => none
  pageFreeList := none
  userMemCheckAddr := 0

/-- The tables and the page form a chain. -/
theorem onePage_child {i page index next : Nat} (found : (onePage i).child page index = some next) :
    next = page + 1 ∧ page ≤ 4 := by
  obtain ⟨present, rfl⟩ := child_eq_some.mp found
  unfold onePage at present ⊢
  simp only at present ⊢
  split
  · rename_i here
    rw [here.1]
    decide
  split
  · rename_i here
    rw [here.1]
    decide
  split
  · rename_i here
    rw [here.1]
    decide
  split
  · rename_i here
    rw [here.1]
    decide
  · rename_i none₁ none₂ none₃ none₄
    rw [if_neg none₁, if_neg none₂, if_neg none₃, if_neg none₄] at present
    exact absurd present (by decide)

theorem onePage_separate (i root : Nat) : (onePage i).Separate root := by
  intro va va' _ _ pdpt slot top found
  obtain ⟨table, path, rfl⟩ := Option.map_eq_some_iff.mp found
  obtain ⟨first, level₁, path⟩ := Option.bind_eq_some_iff.mp path
  obtain ⟨second, level₂, path⟩ := Option.bind_eq_some_iff.mp path
  obtain ⟨third, level₃, same⟩ := Option.bind_eq_some_iff.mp path
  cases same
  have place := (onePage_child top).1
  have place₁ := (onePage_child level₁).1
  have place₂ := (onePage_child level₂).1
  have place₃ := (onePage_child level₃).1
  change table ≠ pdpt
  omega

/-- Bytes of the page that is mapped can be read. -/
theorem userMemCheck_sound_iff_onePage : ∃ m', (onePage 0).userMemCheck 1 0x10 8 4 = .ok (0, m') ∧
    m'.Checked 1 0x10 8 (leafFlags 4) := by
  obtain ⟨⟨code, m'⟩, checked, rfl⟩ := Option.map_eq_some_iff.mp
    (show ((onePage 0).userMemCheck 1 0x10 8 4).toOption.map Prod.fst = some 0 from rfl)
  have passed := Fallible.toOption_eq_some.mp checked
  refine ⟨m', passed, ?_⟩
  exact (userMemCheck_sound_iff (onePage 0) 1 0x10 8 4 (onePage_separate 0 1)).mpr (.inr (.inl (by decide))) m' passed

def emptyMemory : Memory where
  npages := 16
  bootPml4e := 1
  word := fun _ _ => 0
  ppRef := fun _ => 1
  ppLink := fun _ => none
  pageFreeList := none
  userMemCheckAddr := 0

/-- The last byte below 2^64 passes the check of an address space that maps nothing. -/
theorem userMemCheck_unsound :
    emptyMemory.userMemCheck 1 0xFFFFFFFFFFFFF000 4096 4 = .ok (0, emptyMemory) ∧
      ¬ emptyMemory.Checked 1 0xFFFFFFFFFFFFF000 4096 (leafFlags 4) := by
  refine ⟨rfl, not_checked_of_wrapped (by decide) (by decide)⟩

end Memory

end Jos
