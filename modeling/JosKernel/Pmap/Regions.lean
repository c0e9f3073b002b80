import JosKernel.Pmap.Spaces
import JosKernel.Pmap.UserMem

namespace Jos

variable {m m' : Memory} {g : Layout}

def pageNumber (va : Word) : Nat := va.toNat / 4096

/-- What `boot_map_region` writes for the page `page` pages behind the first. -/
def regionEntry (pa : Word) (perm : BitVec 32) (page : Nat) : Word :=
  pageAfter pa page ||| perm.signExtend 64 ||| pteP

theorem regionEntry_toNat {pa : Word} {perm : BitVec 32} {page : Nat} (aligned : pa.toNat % 4096 = 0)
    (flags : (perm.signExtend 64 ||| pteP).toNat < 4096) (inside : pa.toNat + page * 4096 < 2^64) :
    (regionEntry pa perm page).toNat = pa.toNat + page * 4096 + (perm.signExtend 64 ||| pteP).toNat := by
  have address : (pageAfter pa page).toNat = pa.toNat + page * 4096 := by
    rw [pageAfter, BitVec.toNat_add, BitVec.toNat_ofNat, pgSize]
    omega
  rw [regionEntry, BitVec.or_assoc, or_flags_toNat _ _ (by rw [address]; omega) flags, address]

theorem regionEntry_bit {pa bit : Word} {perm : BitVec 32} (page : Nat)
    (granted : (perm.signExtend 64 ||| pteP) &&& bit = bit) (set : bit ≠ 0) : regionEntry pa perm page &&& bit ≠ 0 := by
  rw [regionEntry, BitVec.or_assoc, BitVec.and_or_distrib_right, granted]
  intro zero
  exact set (BitVec.or_eq_zero_iff.mp zero).2

/-- Two addresses have one leaf entry in a tree exactly if they lie in one page. -/
theorem Consistent.leafSlot_page (valid : Consistent m g) {root : Nat} {va va' : Word} {slot slot' : Slot}
    (role : g.role root = .table root []) (low : pml4 va < 2) (low' : pml4 va' < 2) (small : va.toNat < 2^48)
    (small' : va'.toNat < 2^48) (found : m.leafSlot root va = some slot) (found' : m.leafSlot root va' = some slot') :
    slot = slot' ↔ pageNumber va = pageNumber va' := by
  obtain ⟨index, table⟩ := (valid.leafSlot_iff role low slot).mp found
  obtain ⟨index', table'⟩ := (valid.leafSlot_iff role low' slot').mp found'
  constructor
  · rintro rfl
    rw [table] at table'
    simp only [Role.table.injEq, List.cons.injEq, and_true] at table'
    exact page_of_indices small small' table'.2.1 table'.2.2.1 table'.2.2.2 (index.symm.trans index')
  · intro page
    rw [Memory.leafSlot_of_page page, found'] at found
    exact (Option.some.inj found).symm

theorem uvpt_bounds {la : Word} (low : la < uvpt) : pml4 la < 2 ∧ la.toNat < 2^48 := by
  rw [BitVec.lt_def, show uvpt.toNat = 0x10000000000 from rfl] at low
  rw [pml4_eq]
  omega

/-- One page of `boot_map_region` sets the entry for it in `boot_pml4e` and no other. -/
theorem Consistent.bootMapPage_entry (valid : Consistent m g) {la pa : Word} {perm : BitVec 32}
    (above : utop ≤ la) (low : la < uvpt) (mapped : m.bootMapPage la pa perm = .ok m') :
    ∃ g', Consistent m' g' ∧ m'.bootPml4e = m.bootPml4e ∧ (∃ slot, m'.leafSlot m.bootPml4e la = some slot) ∧
      ∀ va, va < uvpt → m'.entry m.bootPml4e va =
        if pageNumber va = pageNumber la then pa ||| perm.signExtend 64 ||| pteP else m.entry m.bootPml4e va := by
  obtain ⟨-, static⟩ := static_path above low
  obtain ⟨inHalf, small⟩ := uvpt_bounds low
  have boot := valid.tables.boot
  obtain ⟨result, m₁, g₁, walk, walked⟩ := valid.pml4eWalk boot inHalf
  rw [Memory.bootMapPage, walk] at mapped
  cases result with
  | none => cases mapped
  | some slot =>
    cases mapped
    obtain ⟨index, role⟩ := walked.slot slot rfl
    have inTable : slot.2 < 512 := by
      rw [index]
      exact ptx_lt la
    have written : Consistent (m₁.write slot (pa ||| perm.signExtend 64 ||| pteP)) g₁ :=
      walked.valid.writeStatic role (by simp) static inTable
    have boot₁ := (walked.grows.root_iff m.bootPml4e).mpr boot
    have found := walked.leafSlot boot inHalf
    have slots : ∀ va, pml4 va < 2 → (m₁.write slot (pa ||| perm.signExtend 64 ||| pteP)).leafSlot m.bootPml4e va =
        m₁.leafSlot m.bootPml4e va := by
      intro va inHalf'
      apply Option.ext
      intro other
      rw [written.leafSlot_iff boot₁ inHalf', walked.valid.leafSlot_iff boot₁ inHalf']
      rfl
    refine ⟨g₁, written, walked.grows.bootPml4e, ⟨slot, by rw [slots la inHalf, found]⟩, ?_⟩
    intro va below
    obtain ⟨inHalf', small'⟩ := uvpt_bounds below
    rw [← walked.grows.entry valid walked.valid boot inHalf', Memory.entry, Memory.entry, slots va inHalf']
    cases found' : m₁.leafSlot m.bootPml4e va with
    | none =>
      rw [if_neg]
      intro page
      rw [Memory.leafSlot_of_page page, found] at found'
      cases found'
    | some other =>
      have same := walked.valid.leafSlot_page boot₁ inHalf' inHalf small' small found' found
      simp only [Memory.read, Memory.write_word]
      refine if_congr ?_ rfl rfl
      rw [← same, Prod.ext_iff]

theorem region_step {la : Word} {pages : Nat} (inside : la.toNat + (pages + 1) * pgSize ≤ 0x10000000000) :
    la < uvpt ∧ (la + BitVec.ofNat 64 pgSize).toNat = la.toNat + pgSize := by
  rw [pgSize] at *
  have below : la.toNat < 0x10000000000 := by omega
  refine ⟨below, ?_⟩
  rw [BitVec.toNat_add]
  change (la.toNat + 4096) % 2^64 = _
  omega

theorem Consistent.bootMapRegion (valid : Consistent m g) {la pa : Word} {perm : BitVec 32} {pages : Nat}
    (above : utop ≤ la) (inside : la.toNat + pages * pgSize ≤ 0x10000000000)
    (mapped : m.bootMapRegion la pages pa perm = .ok m') :
    ∃ g', Consistent m' g' ∧ m'.bootPml4e = m.bootPml4e ∧ ∀ va, va < uvpt →
      m'.entry m.bootPml4e va =
        if pageNumber la ≤ pageNumber va ∧ pageNumber va < pageNumber la + pages
        then regionEntry pa perm (pageNumber va - pageNumber la) else m.entry m.bootPml4e va := by
  induction pages generalizing m g la pa with
  | zero =>
    cases mapped
    refine ⟨g, valid, rfl, fun va _ => ?_⟩
    rw [if_neg (by omega)]
  | succ pages ih =>
    obtain ⟨m₁, first, rest⟩ := Fallible.bind_ok.mp mapped
    obtain ⟨low, next⟩ := region_step inside
    obtain ⟨g₁, valid₁, boot₁, -, entry₁⟩ := valid.bootMapPage_entry above low first
    have above' : utop ≤ la + BitVec.ofNat 64 pgSize := by
      rw [BitVec.le_def] at above ⊢
      omega
    obtain ⟨g', valid', boot', entry'⟩ := ih valid₁ above' (by rw [next]; rw [pgSize] at *; omega) rest
    refine ⟨g', valid', boot'.trans boot₁, ?_⟩
    intro va below
    have moved : pageNumber (la + BitVec.ofNat 64 pgSize) = pageNumber la + 1 := by
      rw [pageNumber, pageNumber, next, pgSize]
      omega
    rw [← boot₁, entry' va below, boot₁, entry₁ va below, moved]
    by_cases here : pageNumber va = pageNumber la
    · rw [if_neg (by omega), if_pos here, if_pos (by omega), here, Nat.sub_self, regionEntry, pageAfter_zero]
    · rw [if_neg here]
      by_cases later : pageNumber la + 1 ≤ pageNumber va ∧ pageNumber va < pageNumber la + 1 + pages
      · rw [if_pos later, if_pos (by omega), regionEntry, regionEntry]
        obtain ⟨k, same⟩ := Nat.exists_eq_add_of_le later.1
        rw [same, show pageNumber la + 1 + k - (pageNumber la + 1) = k by omega,
          show pageNumber la + 1 + k - pageNumber la = k + 1 by omega, pageAfter_succ]
      · rw [if_neg later, if_neg (by omega)]

-- Where there is memory for the tables

def Memory.Spare (m : Memory) (count : Nat) : Prop :=
  ∃ nodes, Linked.Chain m.ppLink m.pageFreeList nodes ∧ count ≤ nodes.length

def Memory.Tabled (m : Memory) (la : Word) : Prop :=
  ∃ table, Radix.descend m.child m.bootPml4e [pml4 la, pdpe la, pdx la] = some table

def tablesFor (la : Word) (pages : Nat) : Nat := (pageNumber la % 512 + pages + 511) / 512

namespace Memory

theorem Spare.congr {count : Nat} (spare : m.Spare count) (links : m'.ppLink = m.ppLink)
    (head : m'.pageFreeList = m.pageFreeList) : m'.Spare count := by
  obtain ⟨nodes, chain, enough⟩ := spare
  exact ⟨nodes, by rwa [links, head], enough⟩

theorem Spare.weaken {count less : Nat} (spare : m.Spare count) (fewer : less ≤ count) : m.Spare less := by
  obtain ⟨nodes, chain, enough⟩ := spare
  exact ⟨nodes, chain, by omega⟩

theorem Spare.nextTable {count : Nat} {slot : Slot} {next : Option Nat} (spare : m.Spare (count + 1))
    (step : m.nextTable slot true = .ok (next, m')) : next ≠ none ∧ m'.Spare count := by
  unfold Memory.nextTable at step
  split at step
  · obtain ⟨table, -, rest⟩ := Fallible.bind_ok.mp step
    cases rest
    exact ⟨by simp, spare.weaken (by omega)⟩
  · rw [if_pos rfl] at step
    obtain ⟨nodes, chain, enough⟩ := spare
    cases nodes with
    | nil => simp at enough
    | cons page rest =>
      have nodup := Linked.chain_nodup chain
      obtain ⟨head, tail⟩ := chain
      obtain ⟨⟨found, middle⟩, allocated, done⟩ := Fallible.bind_ok.mp step
      rw [pageAlloc, head] at allocated
      obtain ⟨cleared, clear, given⟩ := Fallible.bind_ok.mp allocated
      rw [if_pos rfl] at clear
      obtain ⟨_, -, rfl⟩ := Fallible.map_ok.mp clear
      cases given
      obtain ⟨table, -, last⟩ := Fallible.bind_ok.mp done
      cases last
      refine ⟨by simp, rest, ?_, by simpa using enough⟩
      refine Linked.chain_congr ?_ tail
      intro other member
      have different : other ≠ page := by
        rintro rfl
        exact (List.nodup_cons.mp nodup).1 member
      simp [different]

theorem Spare.pml4eWalk {count root : Nat} {va : Word} {result : Option Slot} (spare : m.Spare (count + 3))
    (walked : m.pml4eWalk root va true = .ok (result, m')) : result ≠ none ∧ m'.Spare count := by
  rw [Memory.pml4eWalk, if_neg (by simp)] at walked
  obtain ⟨⟨pdpt, first⟩, step, upper⟩ := Fallible.bind_ok.mp walked
  obtain ⟨some₁, spare₁⟩ := spare.nextTable step
  obtain ⟨pdpt, rfl⟩ := Option.ne_none_iff_exists'.mp some₁
  replace upper : first.pdpeWalk pdpt va true = .ok (result, m') := upper
  rw [Memory.pdpeWalk, if_neg (by simp)] at upper
  obtain ⟨⟨pgdir, second⟩, step, lower⟩ := Fallible.bind_ok.mp upper
  have kept : (first.refresh (pdpt, pdpe va)).Spare (count + 2) := by
    unfold Memory.refresh
    split <;> exact spare₁
  obtain ⟨some₂, spare₂⟩ := kept.nextTable step
  obtain ⟨pgdir, rfl⟩ := Option.ne_none_iff_exists'.mp some₂
  replace lower : second.pgdirWalk pgdir va true = .ok (result, m') := lower
  obtain ⟨⟨table, third⟩, step, last⟩ := Fallible.bind_ok.mp lower
  obtain ⟨some₃, spare₃⟩ := spare₂.nextTable step
  obtain ⟨table, rfl⟩ := Option.ne_none_iff_exists'.mp some₃
  cases last
  exact ⟨by simp, spare₃⟩

theorem Tabled.pml4eWalk {count : Nat} {va : Word} {result : Option Slot} (tabled : m.Tabled va)
    (spare : m.Spare count) (walked : m.pml4eWalk m.bootPml4e va true = .ok (result, m')) :
    result ≠ none ∧ m'.Spare count := by
  obtain ⟨table, reached⟩ := tabled
  simp only [Radix.descend_cons, Radix.descend_nil, Option.bind_eq_some_iff, Option.some.injEq] at reached
  obtain ⟨pdpt, one, pgdir, two, _, three, rfl⟩ := reached
  obtain ⟨-, found, same⟩ := pml4eWalk_present one two three walked
  refine ⟨found rfl, ?_⟩
  rcases same with rfl | rfl
  · exact spare
  · unfold Memory.refresh
    split <;> exact spare

theorem tabled_of_leafSlot {va : Word} {slot : Slot} (found : m.leafSlot m.bootPml4e va = some slot) : m.Tabled va := by
  obtain ⟨table, reached, -⟩ := Option.map_eq_some_iff.mp found
  exact ⟨table, reached⟩

theorem tabled_of_block {va va' : Word} (tabled : m.Tabled va) (block : pageNumber va / 512 = pageNumber va' / 512) :
    m.Tabled va' := by
  have same : pml4 va = pml4 va' ∧ pdpe va = pdpe va' ∧ pdx va = pdx va' := by
    rw [pageNumber, pageNumber] at block
    simp only [pml4_eq, pdpe_eq, pdx_eq]
    omega
  obtain ⟨table, reached⟩ := tabled
  rw [same.1, same.2.1, same.2.2] at reached
  exact ⟨table, reached⟩

end Memory

theorem Consistent.bootMapPage_done (valid : Consistent m g) {la : Word} (pa : Word) (perm : BitVec 32) {count : Nat}
    (above : utop ≤ la) (low : la < uvpt) (enough : m.Spare (count + 3) ∨ m.Tabled la ∧ m.Spare count) :
    ∃ m', m.bootMapPage la pa perm = .ok m' ∧ m'.Spare count ∧ m'.Tabled la ∧ ∃ g', Consistent m' g' := by
  obtain ⟨inHalf, -⟩ := uvpt_bounds low
  obtain ⟨result, m₁, g₁, walk, -⟩ := valid.pml4eWalk valid.tables.boot inHalf
  have found : result ≠ none ∧ m₁.Spare count := by
    rcases enough with spare | ⟨tabled, spare⟩
    · exact spare.pml4eWalk walk
    · exact tabled.pml4eWalk spare walk
  obtain ⟨slot, rfl⟩ := Option.ne_none_iff_exists'.mp found.1
  have mapped : m.bootMapPage la pa perm = .ok (m₁.write slot (pa ||| perm.signExtend 64 ||| pteP)) := by
    rw [Memory.bootMapPage, walk]
    rfl
  obtain ⟨g', valid', boot, ⟨leaf, there⟩, -⟩ := valid.bootMapPage_entry above low mapped
  rw [← boot] at there
  exact ⟨_, mapped, found.2, Memory.tabled_of_leafSlot there, g', valid'⟩

/-- `boot_map_region` succeeds where there are three pages for each of its page tables. -/
theorem Consistent.bootMapRegion_done (valid : Consistent m g) {la : Word} (pa : Word) (perm : BitVec 32)
    {pages count : Nat}
    (above : utop ≤ la) (inside : la.toNat + pages * pgSize ≤ 0x10000000000)
    (enough : m.Spare (count + 3 * tablesFor la pages) ∨
      m.Tabled la ∧ m.Spare (count + 3 * (tablesFor la pages - 1))) :
    ∃ m', m.bootMapRegion la pages pa perm = .ok m' ∧ m'.Spare count := by
  induction pages generalizing m g la pa with
  | zero =>
    refine ⟨m, rfl, ?_⟩
    rcases enough with spare | ⟨-, spare⟩
    · exact spare.weaken (by omega)
    · exact spare.weaken (by omega)
  | succ pages ih =>
    obtain ⟨low, next⟩ := region_step inside
    have some : 1 ≤ tablesFor la (pages + 1) := by
      rw [tablesFor]
      omega
    have one : m.Spare (count + 3 * (tablesFor la (pages + 1) - 1) + 3) ∨
        m.Tabled la ∧ m.Spare (count + 3 * (tablesFor la (pages + 1) - 1)) :=
      enough.imp_left fun spare => spare.weaken (by omega)
    obtain ⟨m₁, first, spare₁, tabled₁, g₁, valid₁⟩ := valid.bootMapPage_done pa perm above low one
    have above' : utop ≤ la + BitVec.ofNat 64 pgSize := by
      rw [BitVec.le_def] at above ⊢
      omega
    have moved : pageNumber (la + BitVec.ofNat 64 pgSize) = pageNumber la + 1 := by
      rw [pageNumber, pageNumber, next, pgSize]
      omega
    have others : m₁.Spare (count + 3 * tablesFor (la + BitVec.ofNat 64 pgSize) pages) ∨
        m₁.Tabled (la + BitVec.ofNat 64 pgSize) ∧
          m₁.Spare (count + 3 * (tablesFor (la + BitVec.ofNat 64 pgSize) pages - 1)) := by
      by_cases last : pageNumber la % 512 = 511
      · left
        have fewer : tablesFor (la + BitVec.ofNat 64 pgSize) pages = tablesFor la (pages + 1) - 1 := by
          rw [tablesFor, tablesFor, moved]
          omega
        rwa [fewer]
      · right
        have same : tablesFor (la + BitVec.ofNat 64 pgSize) pages = tablesFor la (pages + 1) := by
          rw [tablesFor, tablesFor, moved]
          omega
        rw [same]
        exact ⟨Memory.tabled_of_block tabled₁ (by rw [moved]; omega), spare₁⟩
    obtain ⟨m', rest, spare'⟩ := ih valid₁ (pa + BitVec.ofNat 64 pgSize) above' (by
      rw [next]
      rw [pgSize] at *
      omega) others
    refine ⟨m', ?_, spare'⟩
    rw [Memory.bootMapRegion, first]
    exact rest

end Jos
