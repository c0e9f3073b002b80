import JosKernel.Env.Boot
import JosKernel.Env.Evolution
import JosKernel.Pmap.Counts

namespace Jos

variable {m m' : Memory} {g g' : Layout} {root : Nat} {va : Word}

-- Pages of `region_alloc`

def regionPerm : BitVec 32 := (pteU ||| pteW ||| pteP).setWidth 32

/-- `region_alloc` takes the fresh page `page`, counts it, and inserts it at `va`. -/
structure Region (m : Memory) (g : Layout) (root : Nat) (va : Word) (page : Nat) (m₁ : Memory) (g₁ : Layout)
    (m' : Memory) (g' : Layout) : Prop where
  fresh : Fresh m g page m₁ g₁
  counted : Consistent (m₁.setRef page 1) (g₁.setExtra page 1)
  valid : Consistent m' g'
  sets : Sets (m₁.setRef page 1) (g₁.setExtra page 1) root va (leafEntry page regionPerm) m' g'
  small : page < 2^32
  extra : g'.extra page = 1

theorem Fresh.mappings {page : Nat} {m₁ : Memory} {g₁ : Layout} (fresh : Fresh m g page m₁ g₁)
    (valid : Consistent m g) : mappings m₁ g₁ page = 0 ∧ g₁.extra page = 0 := by
  have counted := (fresh.valid.refs.counted page fresh.data).2
  rw [fresh.ppRef valid] at counted
  exact Nat.add_eq_zero_iff.mp counted.symm

theorem Consistent.leafSlot_unmapped (valid : Consistent m g) {page : Nat} {slot : Slot}
    (unmapped : mappings m g page = 0) (role : g.role root = .table root []) (below : va < utop)
    (found : m.leafSlot root va = some slot) : m.child slot.1 slot.2 ≠ some page := by
  obtain ⟨small, ⟨path, tableRole, user⟩, -⟩ := valid.leafSlot_user role below found
  rw [Jos.mappings, Counting.count_eq_zero] at unmapped
  have absent := unmapped slot (mem_area.mpr ⟨(valid.tables.inside _ _ _ tableRole).1, small⟩)
  rwa [leafTarget_of_role tableRole user] at absent

namespace Fresh

variable {page : Nat} {m₁ : Memory} {g₁ : Layout}

theorem counted (fresh : Fresh m g page m₁ g₁) (valid : Consistent m g) :
    Consistent (m₁.setRef page 1) (g₁.setExtra page 1) ∧ Jos.mappings (m₁.setRef page 1) (g₁.setExtra page 1) page = 0 := by
  have unmapped := (fresh.mappings valid).1
  have same : Jos.mappings (m₁.setRef page 1) (g₁.setExtra page 1) page = Jos.mappings m₁ g₁ page :=
    mappings_congr rfl (fun _ _ _ _ => rfl) (fun _ _ _ => Iff.rfl)
  exact ⟨fresh.valid.setRef fresh.data (by rw [unmapped]; rfl), same.trans unmapped⟩

theorem small (fresh : Fresh m g page m₁ g₁) (valid : Consistent m g) : page < 2^32 := by
  have inside := (valid.freeList.unused page fresh.free).1
  have bound := valid.small
  omega

theorem root_role (fresh : Fresh m g page m₁ g₁) (role : g.role root = .table root []) :
    (g₁.setExtra page 1).role root = .table root [] := (fresh.table_iff root root []).mpr role

theorem counted_insertable (fresh : Fresh m g page m₁ g₁) (valid : Consistent m g)
    (role : g.role root = .table root []) (below : va < utop) :
    Insertable (m₁.setRef page 1) (g₁.setExtra page 1) root page va regionPerm where
  data := fresh.data
  target := by
    have small := fresh.small valid
    exact entryPage_leafEntry page regionPerm (by omega) (by decide)
  kept := by
    intro slot lookup
    obtain ⟨consistent, unmapped⟩ := fresh.counted valid
    obtain ⟨-, found, present, same⟩ := Memory.lookup_eq_some.mp lookup
    exact absurd (Memory.child_eq_some.mpr ⟨present, same⟩)
      (consistent.leafSlot_unmapped unmapped (fresh.root_role role) below found)
  room := by
    intro full
    rw [Memory.setRef_ppRef, if_pos rfl] at full
    cases full

end Fresh

theorem Consistent.regionAllocPage (valid : Consistent m g) (role : g.role root = .table root [])
    (below : va < utop) (done : m.regionAllocPage root va = .ok m') :
    ∃ page m₁ g₁ g', Region m g root va page m₁ g₁ m' g' := by
  obtain ⟨⟨page, m₁⟩, allocated, rest⟩ := Fallible.bind_ok.mp done
  cases page with
  | none => cases rest
  | some page =>
    obtain ⟨⟨inserted, after⟩, insertion, rest⟩ := Fallible.bind_ok.mp rest
    cases inserted with
    | false => cases rest
    | true =>
      cases rest
      obtain ⟨-, g₁, fresh⟩ := valid.fresh allocated
      have one : m₁.ppRef page + 1 = 1 := by
        rw [fresh.ppRef valid]
        rfl
      rw [one] at insertion
      obtain ⟨counted, unmapped⟩ := fresh.counted valid
      have role₁ := fresh.root_role role
      obtain ⟨done', m'', g', result, valid', sets, -, extra⟩ :=
        counted.pageInsert_counts role₁ below (fresh.counted_insertable valid role below)
      have same := insertion.symm.trans result
      cases same
      have notHidden : (m₁.setRef page 1).hiddenPage root va ≠ some page := by
        intro hidden
        rw [Memory.hiddenPage] at hidden
        split at hidden
        · cases hidden
        · obtain ⟨slot, found, target⟩ := Option.bind_eq_some_iff.mp hidden
          exact counted.leafSlot_unmapped unmapped role₁ below found target
      have used : (g₁.setExtra page 1).role page ≠ .free := by
        rw [Layout.setExtra_role, fresh.data]
        simp
      refine ⟨page, m₁, g₁, g', fresh, counted, valid', sets rfl, fresh.small valid, ?_⟩
      rw [extra page used, if_neg notHidden, Layout.setExtra_extra, if_pos rfl]

namespace Region

variable {page : Nat} {m₁ : Memory} {g₁ : Layout}

theorem bootPml4e (region : Region m g root va page m₁ g₁ m' g') : m'.bootPml4e = m.bootPml4e := by
  rw [region.sets.bootPml4e, Memory.setRef_bootPml4e, region.fresh.memory]
  rfl

theorem preserved (region : Region m g root va page m₁ g₁ m' g') : Preserved m g m' :=
  ⟨g', region.valid, region.bootPml4e, fun other role =>
    region.sets.table other other [] ((region.fresh.table_iff other other []).mpr role)⟩

end Region

theorem Consistent.regionAllocPages (valid : Consistent m g) (role : g.role root = .table root []) {pages : Nat}
    (below : va.toNat + pages * 4096 ≤ utop.toNat) (done : Memory.regionAllocPages root pages va m = .ok m') :
    Preserved m g m' := by
  induction pages generalizing va m g with
  | zero =>
    cases done
    exact .refl valid
  | succ pages ih =>
    obtain ⟨middle, first, rest⟩ := Fallible.bind_ok.mp done
    have limit := utop_toNat
    have here : va < utop := by
      rw [BitVec.lt_def]
      omega
    have next : (va + BitVec.ofNat 64 pgSize).toNat = va.toNat + 4096 := by
      rw [BitVec.toNat_add]
      change (va.toNat + 4096) % 2^64 = _
      omega
    obtain ⟨page, m₁, g₁, g', region⟩ := valid.regionAllocPage role here first
    refine region.preserved.andThen fun g'' valid' kept => ?_
    exact ih valid' (kept root role) (by rw [next]; omega) rest

theorem region_end {len : Word} {limit : Nat} (below : va.toNat + len.toNat ≤ limit) (aligned : limit % 4096 = 0)
    (small : limit ≤ utop.toNat) : (roundDown va pgSize).toNat +
      pagesBetween (roundDown va pgSize) (roundUp (va + len) pgSize) * 4096 ≤ limit := by
  rw [utop_toNat] at small
  have sum : (va + len).toNat = va.toNat + len.toNat := by
    rw [BitVec.toNat_add]
    omega
  rw [pagesBetween, roundDown_toNat, roundUp_toNat, sum, pgSize]
  omega

theorem Consistent.regionAlloc (valid : Consistent m g) (role : g.role root = .table root []) {len : Word}
    (below : va.toNat + len.toNat ≤ utop.toNat) (done : m.regionAlloc root va len = .ok m') :
    Preserved m g m' :=
  valid.regionAllocPages role (region_end below (by decide) (Nat.le_refl _)) done

/-- The segment lies in the user part of the address space, and the file does not hold more of it than
    there is room for. -/
def Proghdr.InUserPart (ph : Proghdr) : Prop :=
  ph.contents.length ≤ ph.pMemsz.toNat ∧ ph.pVa.toNat + ph.pMemsz.toNat ≤ utop.toNat

theorem Consistent.loadSegment (valid : Consistent m g) (role : g.role root = .table root []) {ph : Proghdr}
    (inside : ph.InUserPart) (done : Memory.loadSegment root m ph = .ok m') : Preserved m g m' := by
  obtain ⟨middle, allocated, stored⟩ := Fallible.bind_ok.mp done
  refine (valid.regionAlloc role inside.2 allocated).andThen fun g' valid' kept => ?_
  refine (valid'.storeBytes (kept root role) ?_ stored).preserved valid'
  rw [Proghdr.stored_length inside.1]
  exact inside.2

theorem Consistent.loadSegments (valid : Consistent m g) (role : g.role root = .table root [])
    {headers : List Proghdr} (inside : ∀ ph ∈ headers, ph.InUserPart)
    (done : headers.foldlM (Memory.loadSegment root) m = .ok m') : Preserved m g m' := by
  refine Fallible.foldlM_keeps (Preserved m g) ?_ (.refl valid) done
  intro state ph next member reached loaded
  exact reached.andThen fun g' valid' kept => valid'.loadSegment (kept root role) (inside ph member) loaded

-- The stack

def stackPage : Word := uStackTop - BitVec.ofNat 64 pgSize

theorem regionAlloc_stack (m : Memory) (root : Nat) : m.regionAlloc root stackPage (BitVec.ofNat 64 pgSize) =
    Memory.regionAllocPages root 1 stackPage m := by
  have one : pagesBetween (roundDown stackPage pgSize) (roundUp (stackPage + BitVec.ofNat 64 pgSize) pgSize) = 1 := by
    decide
  have start : roundDown stackPage pgSize = stackPage := by decide
  rw [Memory.regionAlloc, one, start]

theorem Region.entry {page : Nat} {m₁ : Memory} {g₁ : Layout} (region : Region m g root va page m₁ g₁ m' g')
    (role : g.role root = .table root []) (below : va < utop) :
    m'.entry root va = leafEntry page regionPerm ∧ entryPage (m'.entry root va) = page := by
  have role₁ : (g₁.setExtra page 1).role root = .table root [] := (region.fresh.table_iff root root []).mpr role
  have small := region.small
  rw [region.sets.entry root va role₁ below, if_pos rfl]
  exact ⟨rfl, entryPage_leafEntry page regionPerm (by omega) (by decide)⟩

/-- After a program has been loaded, the page of its stack is counted once more than it is mapped. -/
theorem Consistent.loadIcode (valid : Consistent m g) (role : g.role root = .table root []) {program : Program}
    (inside : ∀ ph ∈ program.headers, ph.InUserPart) (done : m.loadIcode root program = .ok m') :
    ∃ g' page, Consistent m' g' ∧ m'.bootPml4e = m.bootPml4e ∧
      (∀ other, g.role other = .table other [] → g'.role other = .table other []) ∧
      m'.entry root stackPage = leafEntry page regionPerm ∧ entryPage (m'.entry root stackPage) = page ∧
      g'.extra page = 1 := by
  obtain ⟨middle, loaded, rest⟩ := Fallible.bind_ok.mp done
  obtain ⟨g₁, valid₁, boot₁, kept₁⟩ := valid.loadSegments role inside loaded
  have stack : Memory.regionAllocPages root 1 stackPage middle = .ok m' := by
    rw [← regionAlloc_stack]
    exact rest
  obtain ⟨after, first, rest⟩ := Fallible.bind_ok.mp stack
  cases rest
  obtain ⟨page, m₂, g₂, g', region⟩ := valid₁.regionAllocPage (kept₁ root role) (by decide) first
  obtain ⟨entry, target⟩ := region.entry (kept₁ root role) (by decide)
  refine ⟨g', page, region.valid, region.bootPml4e.trans boot₁, fun other otherRole => ?_, entry, target,
    region.extra⟩
  exact region.sets.table other other [] ((region.fresh.table_iff other other []).mpr (kept₁ other otherRole))

end Jos
