import JosKernel.Pmap.Unmapping
import JosKernel.Pmap.UserMem

namespace Jos.Memory

variable {m m' : Memory} {root : Nat} {va len newPerm start : Word}

-- What one test of the loop says

/-- The walk finds the entry for the page at `start`, and it has all the bits. -/
def Allowed (m : Memory) (root : Nat) (newPerm start : Word) : Prop :=
  start < ulim ∧ m.visible root start = true ∧ ∃ slot, m.leafSlot root start = some slot ∧ m.read slot &&& newPerm = newPerm

theorem probe_cases (m : Memory) (root : Nat) (va : Word) :
    m.probe root va = m ∨ ∃ pdpt, m.child root (pml4 va) = some pdpt ∧ m.probe root va = m.refresh (pdpt, pdpe va) := by
  unfold probe
  split
  · cases top : m.child root (pml4 va) with
    | none => exact .inl rfl
    | some pdpt => exact .inr ⟨pdpt, rfl, rfl⟩
  · exact .inl rfl

theorem refresh_zero (m : Memory) (slot : Slot) (page index : Nat) :
    (m.refresh slot).word page index = 0 ↔ m.word page index = 0 := by
  constructor
  · intro zero
    by_contra nonzero
    exact refresh_ne_zero nonzero zero
  · intro zero
    unfold refresh
    split
    · rename_i present
      rw [write_word, if_neg]
      · exact zero
      · rintro ⟨rfl, rfl⟩
        have none : m.read slot = 0 := zero
        rw [none] at present
        exact absurd present (by decide)
    · exact zero

theorem probe_visible (m : Memory) (root : Nat) (va va' : Word) :
    (m.probe root va).visible root va' = m.visible root va' := by
  have zeros : ∀ page index, ((m.probe root va).word page index != 0) = (m.word page index != 0) := by
    intro page index
    rw [Bool.eq_iff_iff, bne_iff_ne, bne_iff_ne, ne_eq, ne_eq, not_iff_not]
    rcases probe_cases m root va with same | ⟨pdpt, -, same⟩
    · rw [same]
    · rw [same]
      exact refresh_zero ..
  unfold visible
  rw [child_probe, zeros]
  simp only [zeros]

theorem InBounds.probe (bounds : m.InBounds root) (va : Word) : (m.probe root va).InBounds root :=
  bounds.of_child (child_probe m root va) probe_npages

theorem Separate.probe (separate : m.Separate root) (va : Word) : (m.probe root va).Separate root := by
  unfold Separate
  rw [leafSlot_probe, child_probe]
  exact separate

theorem Separate.read_probe (separate : m.Separate root) {va va' : Word} (below : va < ulim) (below' : va' < ulim)
    {leaf : Slot} (found : m.leafSlot root va' = some leaf) : (m.probe root va).read leaf = m.read leaf := by
  rcases probe_cases m root va with same | ⟨pdpt, top, same⟩
  · rw [same]
  · rw [same]
    exact refresh_word_of_ne (.inl (separate va va' below below' pdpt leaf top found))

/-- The flags that a walk rewrites do not matter for the tests of other pages. -/
theorem Separate.allowed_probe (separate : m.Separate root) {va : Word} (below : va < ulim) (start : Word) :
    (m.probe root va).Allowed root newPerm start ↔ m.Allowed root newPerm start := by
  unfold Allowed
  rw [probe_visible, leafSlot_probe]
  refine and_congr_right fun below' => and_congr_right fun _ => exists_congr fun slot => ?_
  refine and_congr_right fun found => ?_
  rw [separate.read_probe below below' found]

def reported (va start : Word) : Word := if ulim ≤ start then start else if start < va then va else start

theorem userMemCheckPages_refused (bounds : m.InBounds root) (separate : m.Separate root)
    (refused : ¬ m.Allowed root newPerm start) (va : Word) (pages : Nat) : ∃ m',
      userMemCheckPages root va newPerm (pages + 1) start m = .ok (-eFault, m') ∧
        m'.userMemCheckAddr = reported va start := by
  rw [userMemCheckPages, reported]
  by_cases above : ulim ≤ start
  · rw [if_pos above, if_pos above]
    exact ⟨_, rfl, rfl⟩
  have below : start < ulim := BitVec.not_le.mp above
  rw [if_neg above, if_neg above, (bounds.reach start).pml4eWalk]
  simp only [bind, Except.bind]
  cases shown : m.visible root start with
  | false => exact ⟨_, rfl, rfl⟩
  | true =>
    simp only [if_true]
    cases found : m.leafSlot root start with
    | none => exact ⟨_, rfl, rfl⟩
    | some slot =>
      have flags : m.read slot &&& newPerm ≠ newPerm := fun same => refused ⟨below, shown, slot, found, same⟩
      simp only
      rw [separate.read_probe below below found, if_pos flags]
      exact ⟨_, rfl, rfl⟩

theorem userMemCheckPages_allowed (bounds : m.InBounds root) (separate : m.Separate root)
    (allowed : m.Allowed root newPerm start) (pages : Nat) :
    userMemCheckPages root va newPerm (pages + 1) start m =
      userMemCheckPages root va newPerm pages (start + BitVec.ofNat 64 pgSize) (m.probe root start) := by
  obtain ⟨below, shown, slot, found, flags⟩ := allowed
  rw [userMemCheckPages, if_neg (BitVec.not_le.mpr below), (bounds.reach start).pml4eWalk]
  simp only [bind, Except.bind, shown, if_true, found]
  rw [separate.read_probe below below found, if_neg (not_not.mpr flags)]

def FirstRefused (m : Memory) (root : Nat) (newPerm start : Word) (page : Nat) : Prop :=
  (∀ earlier < page, m.Allowed root newPerm (pageAfter start earlier)) ∧ ¬ m.Allowed root newPerm (pageAfter start page)

/-- The loop passes all pages, or it reports the first one that is not allowed. -/
theorem userMemCheckPages_reports (bounds : m.InBounds root) (separate : m.Separate root) (va newPerm start : Word)
    (pages : Nat) : ∃ code m', userMemCheckPages root va newPerm pages start m = .ok (code, m') ∧
      ((code = 0 ∧ ∀ page < pages, m.Allowed root newPerm (pageAfter start page)) ∨
        (code = -eFault ∧ ∃ page < pages, m.FirstRefused root newPerm start page ∧
          m'.userMemCheckAddr = reported va (pageAfter start page))) := by
  induction pages generalizing start m with
  | zero => exact ⟨0, m, rfl, .inl ⟨rfl, by simp⟩⟩
  | succ pages ih =>
    by_cases allowed : m.Allowed root newPerm start
    · obtain ⟨code, m', result, rest⟩ := ih (bounds.probe start) (separate.probe start) (start + BitVec.ofNat 64 pgSize)
      have others : ∀ page, (m.probe root start).Allowed root newPerm (pageAfter (start + BitVec.ofNat 64 pgSize) page) ↔
          m.Allowed root newPerm (pageAfter start (page + 1)) := by
        intro page
        rw [separate.allowed_probe allowed.1, pageAfter_succ]
      have earlier : ∀ {page}, (∀ earlier < page, (m.probe root start).Allowed root newPerm
          (pageAfter (start + BitVec.ofNat 64 pgSize) earlier)) →
          ∀ earlier < page + 1, m.Allowed root newPerm (pageAfter start earlier) := by
        intro page before earlier small
        cases earlier with
        | zero => rwa [pageAfter_zero]
        | succ earlier => exact (others earlier).mp (before earlier (by omega))
      refine ⟨code, m', (userMemCheckPages_allowed bounds separate allowed pages).trans result, ?_⟩
      rcases rest with ⟨passed, all⟩ | ⟨fault, page, small, ⟨before, refused⟩, addr⟩
      · exact .inl ⟨passed, earlier all⟩
      · refine .inr ⟨fault, page + 1, by omega, ⟨earlier before, ?_⟩, ?_⟩
        · rwa [← others]
        · rw [addr, pageAfter_succ]
    · obtain ⟨m', result, addr⟩ := userMemCheckPages_refused bounds separate allowed va pages
      refine ⟨-eFault, m', result, .inr ⟨rfl, 0, by omega, ⟨by simp, ?_⟩, ?_⟩⟩
      · rwa [pageAfter_zero]
      · rw [addr, pageAfter_zero]

-- What the loop is to report

theorem mapped_iff {perm : BitVec 32} {va : Word} : m.Mapped root (leafFlags perm) va ↔
    ∃ slot, m.leafSlot root va = some slot ∧ m.read slot &&& leafFlags perm = leafFlags perm := by
  constructor
  · rintro ⟨translation, walk, flags⟩
    unfold mmuWalk at walk
    simp only [bind, Option.bind_eq_some_iff] at walk
    obtain ⟨pdpt, top, pgdir, middle, table, last, page, leaf, entries⟩ := walk
    cases entries
    refine ⟨(table, ptx va), ?_, flags⟩
    simp [leafSlot, top, middle, last]
  · rintro ⟨slot, found, flags⟩
    obtain ⟨translation, walk, entry, -⟩ := mmuWalk_leaf found (present_of_flags flags)
    exact ⟨translation, walk, by rw [entry, flags]⟩

theorem mapped_of_page {perm : BitVec 32} {va va' : Word} (same : va.toNat / 4096 = va'.toNat / 4096) :
    m.Mapped root (leafFlags perm) va ↔ m.Mapped root (leafFlags perm) va' := by
  rw [mapped_iff, mapped_iff, leafSlot_of_page same]

def Accessible (m : Memory) (root : Nat) (newPerm : Word) (a : Nat) : Prop :=
  a < ulim.toNat ∧ m.Mapped root newPerm (BitVec.ofNat 64 a)

/-- `addr` is the lowest byte of the range that may not be accessed. -/
structure Precise (m : Memory) (root : Nat) (va len newPerm addr : Word) : Prop where
  low : va.toNat ≤ addr.toNat
  high : addr.toNat < va.toNat + len.toNat
  barred : ¬ m.Accessible root newPerm addr.toNat
  lowest : ∀ a, va.toNat ≤ a → a < addr.toNat → m.Accessible root newPerm a

theorem Precise.nonempty {addr : Word} (precise : m.Precise root va len newPerm addr) : len ≠ 0 := by
  rintro rfl
  have low := precise.low
  have high : addr.toNat < va.toNat + 0 := precise.high
  omega

def Hidden (m : Memory) (root : Nat) (newPerm start : Word) : Prop :=
  start < ulim ∧ m.visible root start = false ∧ m.Mapped root newPerm start

/-- The range is not empty and does not begin inside a page at or above ULIM, and the first page of it that is
    not allowed is no hidden one. -/
def Reportable (m : Memory) (root : Nat) (va len newPerm : Word) : Prop :=
  ∀ page < pagesBetween (roundDown va pgSize) (roundUp (va + len) pgSize),
    m.FirstRefused root newPerm (roundDown va pgSize) page →
      len ≠ 0 ∧ (ulim ≤ va → va.toNat % 4096 = 0) ∧ ¬ m.Hidden root newPerm (pageAfter (roundDown va pgSize) page)

theorem FirstRefused.unique {page page' : Nat} (first : m.FirstRefused root newPerm start page)
    (first' : m.FirstRefused root newPerm start page') : page = page' := by
  rcases Nat.lt_trichotomy page page' with less | same | more
  · exact absurd (first'.1 page less) first.2
  · exact same
  · exact absurd (first.1 page' more) first'.2

theorem pageAfter_toNat (room : va.toNat + len.toNat < 2^64) {page : Nat}
    (small : page < pagesBetween (roundDown va pgSize) (roundUp (va + len) pgSize)) :
    (pageAfter (roundDown va pgSize) page).toNat = va.toNat / 4096 * 4096 + page * 4096 ∧
      va.toNat / 4096 * 4096 + page * 4096 < va.toNat + len.toNat := by
  have sum : (va + len).toNat = va.toNat + len.toNat := BitVec.toNat_add_of_lt room
  have first := roundDown_toNat va
  have last := roundUp_toNat (va + len)
  rw [pagesBetween, first, last, sum, pgSize] at small
  have before : va.toNat / 4096 * 4096 + page * 4096 < va.toNat + len.toNat := by omega
  refine ⟨?_, before⟩
  have offset : (BitVec.ofNat 64 (page * pgSize)).toNat = page * 4096 := by
    rw [BitVec.toNat_ofNat, pgSize]
    omega
  rw [pageAfter, BitVec.toNat_add_of_lt (by rw [first, offset]; omega), first, offset]

theorem allowed_accessible {perm : BitVec 32} {a : Nat} (allowed : m.Allowed root (leafFlags perm) start) (small : a < 2^64)
    (same : a / 4096 = start.toNat / 4096) : m.Accessible root (leafFlags perm) a := by
  obtain ⟨below, -, mapped⟩ := allowed
  have below' := BitVec.lt_def.mp below
  rw [ulim_toNat] at below'
  constructor
  · rw [ulim_toNat]
    omega
  · refine (mapped_of_page ?_).mp (mapped_iff.mpr mapped)
    rw [BitVec.toNat_ofNat, Nat.mod_eq_of_lt small, same]

theorem accessible_of_page {perm : BitVec 32} {a : Word} (below : start < ulim)
    (same : a.toNat / 4096 = start.toNat / 4096) :
    m.Accessible root (leafFlags perm) a.toNat ↔ m.Mapped root (leafFlags perm) start := by
  have below' := BitVec.lt_def.mp below
  rw [ulim_toNat] at below'
  rw [Accessible, BitVec.ofNat_toNat, BitVec.setWidth_eq, mapped_of_page same, ulim_toNat]
  exact and_iff_right (by omega)

theorem precise_iff {perm : BitVec 32} (room : va.toNat + len.toNat < 2^64) {page : Nat}
    (small : page < pagesBetween (roundDown va pgSize) (roundUp (va + len) pgSize))
    (first : m.FirstRefused root (leafFlags perm) (roundDown va pgSize) page) :
    m.Precise root va len (leafFlags perm) (reported va (pageAfter (roundDown va pgSize) page)) ↔
      len ≠ 0 ∧ (ulim ≤ va → va.toNat % 4096 = 0) ∧
        ¬ m.Hidden root (leafFlags perm) (pageAfter (roundDown va pgSize) page) := by
  obtain ⟨here, inside⟩ := pageAfter_toNat room small
  have earlier : ∀ page' < page, m.Allowed root (leafFlags perm) (pageAfter (roundDown va pgSize) page') := first.1
  have refused := first.2
  have before : ∀ page' < page, (pageAfter (roundDown va pgSize) page').toNat = va.toNat / 4096 * 4096 + page' * 4096 :=
    fun page' less => (pageAfter_toNat room (Nat.lt_trans less small)).1
  generalize pageAfter (roundDown va pgSize) page = start at here refused
  have border := ulim_toNat
  have above : ulim ≤ va → page = 0 := by
    intro above
    by_contra other
    have below := BitVec.lt_def.mp (earlier 0 (by omega)).1
    rw [before 0 (by omega), border] at below
    rw [BitVec.le_def, border] at above
    omega
  have lowest : ∀ a, va.toNat ≤ a → a < start.toNat → m.Accessible root (leafFlags perm) a := by
    intro a low less
    have page' := before (a / 4096 - va.toNat / 4096) (by omega)
    exact allowed_accessible (earlier (a / 4096 - va.toNat / 4096) (by omega)) (by omega) (by omega)
  by_cases high : ulim ≤ start
  · have high' := BitVec.le_def.mp high
    have report : reported va start = start := if_pos high
    rw [report]
    constructor
    · intro precise
      have low := precise.low
      refine ⟨precise.nonempty, fun above' => ?_, fun hidden => absurd high (BitVec.not_le.mpr hidden.1)⟩
      have zero := above above'
      omega
    · rintro ⟨-, aligned, -⟩
      refine ⟨?_, by omega, fun accessible => absurd accessible.1 (by omega), lowest⟩
      by_cases above' : ulim ≤ va
      · have zero := above above'
        have whole := aligned above'
        omega
      · rw [BitVec.le_def] at above'
        omega
  · have below : start < ulim := BitVec.not_le.mp high
    have below' := BitVec.lt_def.mp below
    have report : (reported va start).toNat = max va.toNat start.toNat := by
      rw [reported, if_neg high]
      split
      · rename_i less
        rw [BitVec.lt_def] at less
        omega
      · rename_i more
        rw [BitVec.lt_def] at more
        omega
    have low : ¬ ulim ≤ va := by
      intro above'
      have zero := above above'
      rw [BitVec.le_def] at above'
      omega
    have same : (reported va start).toNat / 4096 = start.toNat / 4096 := by
      rw [report]
      rcases Nat.eq_zero_or_pos page with zero | later <;> omega
    constructor
    · intro precise
      refine ⟨precise.nonempty, fun above' => absurd above' low, fun hidden => ?_⟩
      exact precise.barred ((accessible_of_page below same).mpr hidden.2.2)
    · rintro ⟨nonempty, -, shown⟩
      have positive : 0 < len.toNat := Nat.pos_of_ne_zero fun zero => nonempty (BitVec.eq_of_toNat_eq zero)
      refine ⟨by omega, by omega, fun accessible => ?_, fun a first less => lowest a first (by omega)⟩
      have mapped := (accessible_of_page below same).mp accessible
      cases visible : m.visible root start with
      | false => exact shown ⟨below, visible, mapped⟩
      | true => exact refused ⟨below, visible, mapped_iff.mp mapped⟩

/-- What is reported is exact precisely if the range is not empty, does not begin inside a page at or above
    ULIM, and the walk does not miss a page that the MMU finds. -/
theorem userMemCheck_precise_iff (bounds : m.InBounds root) (separate : m.Separate root) (perm : BitVec 32)
    (room : va.toNat + len.toNat < 2^64) :
    (∀ m', m.userMemCheck root va len perm = .ok (-eFault, m') →
        m.Precise root va len (leafFlags perm) m'.userMemCheckAddr) ↔
      m.Reportable root va len (leafFlags perm) := by
  obtain ⟨code, m', result, codes⟩ := userMemCheckPages_reports bounds separate va (leafFlags perm) (roundDown va pgSize)
    (pagesBetween (roundDown va pgSize) (roundUp (va + len) pgSize))
  rcases codes with ⟨rfl, passed⟩ | ⟨rfl, page, small, first, addr⟩
  · refine iff_of_true ?_ ?_
    · intro m'' fault
      cases result.symm.trans fault
    · exact fun page small first => absurd (passed page small) first.2
  · have exact := precise_iff room small first
    rw [← addr] at exact
    constructor
    · intro precise page' small' first'
      rw [first'.unique first]
      exact exact.mp (precise m' result)
    · intro reportable m'' fault
      cases result.symm.trans fault
      exact exact.mpr (reportable page small first)

/-- A range that begins in the page that is mapped, and leaves it. -/
theorem userMemCheck_precise_iff_onePage : ∃ m', (onePage 0).userMemCheck 1 0xff8 0x10 4 = .ok (-eFault, m') ∧
    m'.userMemCheckAddr = 0x1000 ∧ (onePage 0).Precise 1 0xff8 0x10 (leafFlags 4) 0x1000 := by
  obtain ⟨⟨code, m'⟩, checked, shown⟩ := Option.map_eq_some_iff.mp
    (show ((onePage 0).userMemCheck 1 0xff8 0x10 4).toOption.map (fun result => (result.1, result.2.userMemCheckAddr)) =
      some (-eFault, 0x1000) from rfl)
  obtain ⟨rfl, addr⟩ := Prod.mk.inj shown
  have fault := Fallible.toOption_eq_some.mp checked
  refine ⟨m', fault, addr, addr ▸
    (userMemCheck_precise_iff (onePage_inBounds 0 1) (onePage_separate 0 1) 4 (by decide)).mpr ?_ m' fault⟩
  intro page small first
  have second : page = 1 := by
    by_contra other
    obtain rfl : page = 0 := by
      change page < 2 at small
      omega
    exact first.2 ⟨by decide, rfl, (4, 0), rfl, rfl⟩
  subst second
  refine ⟨by decide, by decide, fun hidden => ?_⟩
  obtain ⟨translation, walk, -⟩ := hidden.2.2
  cases walk

/-- A range that begins behind ULIM is reported to begin in front of it, and a page mapped at one gigabyte is
    reported as missing. -/
theorem userMemCheck_imprecise :
    (∃ m', emptyMemory.userMemCheck 1 (ulim + 4) 8 4 = .ok (-eFault, m') ∧ m'.userMemCheckAddr = ulim ∧
      ¬ emptyMemory.Precise 1 (ulim + 4) 8 (leafFlags 4) m'.userMemCheckAddr) ∧
    (onePage 1).userMemCheck 1 0x40000000 4096 4 =
        .ok (-eFault, { onePage 1 with userMemCheckAddr := 0x40000000 }) ∧
      (onePage 1).Mapped 1 (leafFlags 4) 0x40000000 := by
  refine ⟨⟨{ emptyMemory with userMemCheckAddr := ulim }, rfl, rfl, fun precise => ?_⟩, rfl, ?_⟩
  · exact absurd precise.low (by decide)
  · exact mapped_iff.mpr ⟨(4, 0), by decide, by decide⟩

end Jos.Memory
