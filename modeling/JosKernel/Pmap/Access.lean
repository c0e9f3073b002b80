import JosKernel.Pmap.Operations
import JosKernel.Pmap.UserMem

namespace Jos

variable {m m' m'' : Memory} {g : Layout}

-- What the MMU sees of a consistent memory

def translate (entry : Word) : Option Translation :=
  if Present entry then
    some {
      page := entryPage entry
      leaf := entry
      writable := entry &&& pteW ≠ 0
      user := entry &&& pteU ≠ 0 }
  else none

theorem tableEntry_rights (page : Nat) :
    decide (tableEntry page &&& pteW ≠ 0) = true ∧ decide (tableEntry page &&& pteU ≠ 0) = true := by
  rw [decide_eq_true_iff, decide_eq_true_iff]
  have bits : ∀ i, i < 3 → (tableEntry page).getLsbD i = true := by
    intro i low
    have shift : (page2pa page).getLsbD i = false := by
      simp [page2pa, show i < 12 by omega]
    have flags : (7 : Word).getLsbD i = true := by
      have table : ∀ j : Fin 3, (7 : Word).getLsbD j.val = true := by decide
      exact table ⟨i, low⟩
    rw [tableEntry_eq, BitVec.getLsbD_or, shift, flags]
    rfl
  constructor
  · intro zero
    have bit := congrArg (fun word => word.getLsbD 1) zero
    simp only [BitVec.getLsbD_and, bits 1 (by omega)] at bit
    exact absurd bit (by decide)
  · intro zero
    have bit := congrArg (fun word => word.getLsbD 2) zero
    simp only [BitVec.getLsbD_and, bits 2 (by omega)] at bit
    exact absurd bit (by decide)

section Walk

variable {root : Nat} {va : Word}

theorem Consistent.mmuWalk (valid : Consistent m g) (role : g.role root = .table root [])
    (low : pml4 va < 2) : m.mmuWalk root va = translate (m.entry root va) := by
  have small := valid.small
  have granted : ∀ {table index next root' : Nat} {path : List Nat}, g.role table = .table root' path →
      path.length < 3 → g.Owned root' path index → m.child table index = some next →
      m.word table index = tableEntry next := by
    intro table index next root' path role higher owned found
    obtain ⟨present, page⟩ := Memory.child_eq_some.mp found
    obtain ⟨next', entry, below⟩ := valid.tables.down table root' path index role higher owned present
    have bound := (valid.tables.inside next' root' _ below).1
    rw [entry, entryPage_tableEntry next' (by omega)] at page
    rw [entry, page]
  have absent : none = translate 0 := (if_neg (by decide)).symm
  have spaceRole := valid.tables.space_role role (pml4 va)
  have owned := valid.tables.space_owned root low
  unfold Memory.mmuWalk Memory.entry Memory.leafSlot
  simp only [Radix.descend_cons, Radix.descend_nil]
  cases top : m.child root (pml4 va) with
  | none => exact absent
  | some pdpt =>
    have top' := top
    rw [← valid.tables.space_child root (pml4 va)] at top'
    have pdptRole := valid.child_role spaceRole (by simp) owned top'
    have topEntry := granted spaceRole (by simp) owned top'
    rw [valid.tables.space_word] at topEntry
    cases middle : m.child pdpt (pdpe va) with
    | none =>
      simp only [middle, Option.bind_some, Option.bind_none, Option.map_none, Option.bind_eq_bind]
      exact absent
    | some pgdir =>
      have middleOwned : g.Owned (g.space m.bootPml4e root (pml4 va)) [pml4 va] (pdpe va) :=
        ⟨pdpe_lt va, by simp⟩
      have pgdirRole := valid.child_role pdptRole (by simp) middleOwned middle
      have middleEntry := granted pdptRole (by simp) middleOwned middle
      cases last : m.child pgdir (pdx va) with
      | none =>
        simp only [middle, last, Option.bind_some, Option.bind_none, Option.map_none, Option.bind_eq_bind]
        exact absent
      | some table =>
        have lastEntry := granted pgdirRole (by simp) ⟨pdx_lt va, by simp⟩ last
        simp only [middle, last, Option.bind_some, Option.map_some, Option.bind_eq_bind, topEntry, middleEntry,
          lastEntry, List.all_cons, List.all_nil, tableEntry_rights, Bool.true_and, Bool.and_true]
        unfold translate Memory.child Memory.read
        by_cases present : Present (m.word table (ptx va))
        · rw [if_pos present, if_pos present]
          rfl
        · rw [if_neg present, if_neg present]
          rfl

theorem Consistent.mmuWalk_data (valid : Consistent m g) (role : g.role root = .table root [])
    (below : va < utop) {translation : Translation} (found : m.mmuWalk root va = some translation) :
    g.role translation.page = .data := by
  rw [valid.mmuWalk role (pml4_of_user below), translate] at found
  split at found
  · rename_i present
    cases found
    cases slotFound : m.leafSlot root va with
    | none =>
      rw [Memory.entry, slotFound] at present
      exact absurd present (show ¬ Present 0 by decide)
    | some slot =>
      rw [Memory.entry_of_leafSlot slotFound] at present ⊢
      exact (valid.leafSlot_user role below slotFound).2.2 present
  · cases found

end Walk

-- Stores through the MMU

/-- `w` with its byte `i` replaced. -/
def setByte (w : Word) (i : Nat) (byte : BitVec 8) : Word :=
  (w &&& ~~~((0xFF : Word) <<< (8 * i))) ||| (byte.setWidth 64 <<< (8 * i))

def Memory.setByte (m : Memory) (page : Nat) (va : Word) (byte : BitVec 8) : Memory :=
  m.write (page, pgOff va / 8) (Jos.setByte (m.word page (pgOff va / 8)) (pgOff va % 8) byte)

/-- A store by the kernel while it uses the tables under `root`. CR0_WP is set, so that a page that is
    not writable faults, and a page fault in the kernel is a panic. -/
def Memory.storeByte (m : Memory) (root : Nat) (va : Word) (byte : BitVec 8) : Except Stop Memory :=
  match m.mmuWalk root va with
  | none => .error .panic
  | some translation =>
    if translation.writable then .ok (m.setByte translation.page va byte) else .error .panic

def Memory.storeBytes (m : Memory) (root : Nat) (va : Word) : List (BitVec 8) → Except Stop Memory
  | [] => .ok m
  | byte :: bytes => do
    let m ← m.storeByte root va byte
    m.storeBytes root (va + 1) bytes

def wordBytes (w : Word) : List (BitVec 8) := (List.range 8).map fun i => (w >>> (8 * i)).setWidth 8

/-- Memory in which only the contents of data pages have changed, and what `user_mem_check` reports. -/
structure Rewrites (m : Memory) (g : Layout) (m' : Memory) : Prop where
  npages : m'.npages = m.npages
  bootPml4e : m'.bootPml4e = m.bootPml4e
  ppRef : m'.ppRef = m.ppRef
  ppLink : m'.ppLink = m.ppLink
  pageFreeList : m'.pageFreeList = m.pageFreeList
  word : ∀ page, g.role page ≠ .data → m'.word page = m.word page

namespace Rewrites

theorem refl (m : Memory) (g : Layout) : Rewrites m g m := ⟨rfl, rfl, rfl, rfl, rfl, fun _ _ => rfl⟩

theorem trans (first : Rewrites m g m') (second : Rewrites m' g m'') : Rewrites m g m'' where
  npages := second.npages.trans first.npages
  bootPml4e := second.bootPml4e.trans first.bootPml4e
  ppRef := second.ppRef.trans first.ppRef
  ppLink := second.ppLink.trans first.ppLink
  pageFreeList := second.pageFreeList.trans first.pageFreeList
  word := fun page other => (second.word page other).trans (first.word page other)

theorem consistent (rewrites : Rewrites m g m') (valid : Consistent m g) : Consistent m' g :=
  valid.congr_word rewrites.npages rewrites.bootPml4e rewrites.ppLink rewrites.pageFreeList rewrites.ppRef
    fun page root path role => rewrites.word page (by simp [role])

theorem preserved (rewrites : Rewrites m g m') (valid : Consistent m g) : Preserved m g m' :=
  ⟨g, rewrites.consistent valid, rewrites.bootPml4e, fun _ role => role⟩

theorem entry (rewrites : Rewrites m g m') (valid : Consistent m g) {root : Nat} {va : Word}
    (role : g.role root = .table root []) (low : pml4 va < 2) : m'.entry root va = m.entry root va :=
  valid.entry_congr (rewrites.consistent valid) rewrites.bootPml4e rfl
    (fun page _ _ role => rewrites.word page (by simp [role])) (fun _ _ _ => Iff.rfl) role low

theorem setByte {page : Nat} (data : g.role page = .data) (va : Word) (byte : BitVec 8) :
    Rewrites m g (m.setByte page va byte) where
  npages := rfl
  bootPml4e := rfl
  ppRef := rfl
  ppLink := rfl
  pageFreeList := rfl
  word := by
    intro other notData
    funext i
    rw [Memory.setByte, Memory.write_word, if_neg]
    rintro ⟨rfl, -⟩
    exact notData data

end Rewrites

theorem Consistent.storeByte (valid : Consistent m g) {root : Nat} {va : Word} {byte : BitVec 8}
    (role : g.role root = .table root []) (below : va < utop)
    (stored : m.storeByte root va byte = .ok m') : Rewrites m g m' := by
  unfold Memory.storeByte at stored
  split at stored
  · cases stored
  · rename_i translation found
    split at stored
    · cases stored
      exact .setByte (valid.mmuWalk_data role below found) va byte
    · cases stored

theorem Consistent.storeBytes (valid : Consistent m g) {root : Nat} {va : Word} {bytes : List (BitVec 8)}
    (role : g.role root = .table root []) (below : va.toNat + bytes.length ≤ utop.toNat)
    (stored : m.storeBytes root va bytes = .ok m') : Rewrites m g m' := by
  induction bytes generalizing va m with
  | nil =>
    cases stored
    exact .refl _ g
  | cons byte bytes ih =>
    obtain ⟨middle, first, rest⟩ := Fallible.bind_ok.mp stored
    simp only [List.length_cons] at below
    have limit := utop_toNat
    have here : va < utop := by
      rw [BitVec.lt_def]
      omega
    have rewrites := valid.storeByte role here first
    have next : (va + 1).toNat = va.toNat + 1 := by
      rw [BitVec.toNat_add]
      change (va.toNat + 1) % 2^64 = _
      omega
    exact rewrites.trans (ih (rewrites.consistent valid) (by rw [next]; omega) rest)

-- `user_mem_check` only records an address

theorem pml4_below_ulim {va : Word} (below : va < ulim) : pml4 va < 2 := by
  rw [BitVec.lt_def, ulim_toNat] at below
  rw [pml4_eq]
  omega

theorem Consistent.separate (valid : Consistent m g) {root : Nat} (role : g.role root = .table root []) :
    m.Separate root := by
  intro va va' below below' pdpt slot top leaf same
  have low := pml4_below_ulim below
  rw [← valid.tables.space_child root (pml4 va)] at top
  have pdptRole := valid.child_role (valid.tables.space_role role _) (by simp)
    (valid.tables.space_owned root low) top
  have tableRole := ((valid.leafSlot_iff role (pml4_below_ulim below') slot).mp leaf).2
  rw [same, pdptRole] at tableRole
  simp at tableRole

theorem Consistent.userMemCheckPages (valid : Consistent m g) {root : Nat} (role : g.role root = .table root [])
    (va newPerm : Word) (pages : Nat) (start : Word) : ∃ code addr,
      m.userMemCheckPages root va newPerm pages start = .ok (code, { m with userMemCheckAddr := addr }) := by
  induction pages generalizing start with
  | zero => exact ⟨0, m.userMemCheckAddr, rfl⟩
  | succ pages ih =>
    unfold Memory.userMemCheckPages
    split
    · exact ⟨_, _, rfl⟩
    · rename_i inside
      have low : pml4 start < 2 := pml4_below_ulim (BitVec.not_le.mp inside)
      rw [valid.pml4eWalk_find role low]
      simp only [bind, Except.bind]
      cases (if m.visible root start = true then m.leafSlot root start else none) with
      | none => exact ⟨_, _, rfl⟩
      | some slot =>
        simp only
        split
        · exact ⟨_, _, rfl⟩
        · exact ih (start + BitVec.ofNat 64 pgSize)

theorem Consistent.userMemCheck (valid : Consistent m g) {root : Nat} (role : g.role root = .table root [])
    (va len : Word) (perm : BitVec 32) : ∃ code addr,
      m.userMemCheck root va len perm = .ok (code, { m with userMemCheckAddr := addr }) :=
  valid.userMemCheckPages role _ _ _ _

theorem Rewrites.userMemCheckAddr (addr : Word) : Rewrites m g { m with userMemCheckAddr := addr } :=
  ⟨rfl, rfl, rfl, rfl, rfl, fun _ _ => rfl⟩

end Jos
