import JosKernel.Pmap.Regions
import JosKernel.Program.Segments

namespace Jos

variable {m m' : Memory} {g : Layout} {root page count : Nat} {va : Word} {perm : BitVec 32}

-- Free pages

theorem Consistent.spare_release (valid : Consistent m g) (data : g.role page = .data) (spare : m.Spare count) :
    (m.release page).Spare count := by
  obtain ⟨nodes, chain, enough⟩ := spare
  obtain ⟨nodes', chain', members⟩ := valid.freeList.chain
  have same := Linked.chain_unique chain chain'
  subst same
  unfold Memory.release
  split
  · have absent : page ∉ nodes := by
      rw [members, data]
      simp
    refine ⟨page :: nodes, Linked.chain_push ?_ ?_ chain, ?_⟩
    · simp
    · intro other member
      have different : other ≠ page := by
        rintro rfl
        exact absent member
      simp [different]
    · rw [List.length_cons]
      omega
  · exact ⟨nodes, chain, enough⟩

theorem Consistent.spare_pageInsert (valid : Consistent m g) (role : g.role root = .table root []) (below : va < utop)
    {done : Bool} (spare : m.Spare (count + 3)) (inserted : m.pageInsert root page va perm = .ok (done, m')) :
    done = true ∧ m'.Spare count := by
  obtain ⟨result, m₁, g₁, walk, walked⟩ := valid.pml4eWalk role (pml4_of_user below)
  obtain ⟨found, spare₁⟩ := spare.pml4eWalk walk
  obtain ⟨slot, rfl⟩ := Option.ne_none_iff_exists'.mp found
  have role₁ : g₁.role root = .table root [] := (walked.grows.root_iff root).mpr role
  rw [Memory.pageInsert_of_walk walk] at inserted
  obtain ⟨m₂, removed, rest⟩ := Fallible.bind_ok.mp inserted
  cases rest
  have spare₂ : m₂.Spare count := by
    split at removed
    · rcases walked.valid.pageRemove_ok role₁ below removed with ⟨rfl, -⟩ | ⟨old, slot', lookup, rfl⟩
      · exact spare₁
      · obtain ⟨-, found', present, same⟩ := Memory.lookup_eq_some.mp lookup
        obtain ⟨-, -, data⟩ := walked.valid.leafSlot_user role₁ below found'
        exact (walked.valid.spare_release (same ▸ data present) spare₁).congr rfl rfl
    · cases removed
      exact spare₁
  exact ⟨rfl, spare₂.congr rfl rfl⟩

-- Where there is room for a program

theorem Consistent.regionAllocPage_done (valid : Consistent m g) (role : g.role root = .table root [])
    (below : va < utop) (spare : m.Spare (count + 4)) :
    ∃ m', m.regionAllocPage root va = .ok m' ∧ m'.Spare count := by
  obtain ⟨nodes, chain, enough⟩ := spare
  rcases valid.pageAlloc with ⟨head, -⟩ | ⟨page, m₁, head, allocated, -⟩
  · rw [head] at chain
    rw [Linked.chain_none chain] at enough
    simp at enough
  · obtain ⟨-, g₁, fresh⟩ := valid.fresh allocated
    have spare₁ : (m₁.setRef page 1).Spare (count + 3) := by
      rw [head] at chain
      obtain ⟨rest, rfl, tail⟩ := Linked.chain_some chain
      have nodup := Linked.chain_nodup chain
      refine ⟨rest, ?_, by simpa using enough⟩
      rw [fresh.memory]
      refine Linked.chain_congr ?_ tail
      intro other member
      have different : other ≠ page := by
        rintro rfl
        exact (List.nodup_cons.mp nodup).1 member
      simp [different]
    have counted := (fresh.counted valid).1
    have role₁ := fresh.root_role role
    obtain ⟨done, m', g', inserted, -⟩ :=
      counted.pageInsert_counts role₁ below (fresh.counted_insertable valid role below)
    obtain ⟨rfl, spare'⟩ := counted.spare_pageInsert role₁ below spare₁ inserted
    refine ⟨m', ?_, spare'⟩
    have one : m₁.ppRef page + 1 = 1 := by
      rw [fresh.ppRef valid]
      rfl
    rw [Memory.regionAllocPage, allocated]
    change ((m₁.setRef page (m₁.ppRef page + 1)).pageInsert root page va regionPerm >>= _) = _
    rw [one, inserted]
    rfl

theorem Consistent.regionAllocPages_done (valid : Consistent m g) (role : g.role root = .table root []) {pages : Nat}
    (below : va.toNat + pages * 4096 ≤ utop.toNat) (spare : m.Spare (count + 4 * pages)) :
    ∃ m', Memory.regionAllocPages root pages va m = .ok m' ∧ m'.Spare count := by
  induction pages generalizing va m g with
  | zero => exact ⟨m, rfl, spare⟩
  | succ pages ih =>
    have limit := utop_toNat
    have here : va < utop := by
      rw [BitVec.lt_def]
      omega
    have next : (va + BitVec.ofNat 64 pgSize).toNat = va.toNat + 4096 := by
      rw [BitVec.toNat_add]
      change (va.toNat + 4096) % 2^64 = _
      omega
    have enough : m.Spare (count + 4 * pages + 4) := spare.weaken (by omega)
    obtain ⟨middle, first, spare₁⟩ := valid.regionAllocPage_done role here enough
    obtain ⟨page, m₁, g₁, g', region⟩ := valid.regionAllocPage role here first
    have role' : g'.role root = .table root [] := region.sets.table root root [] (region.fresh.root_role role)
    have others : (va + BitVec.ofNat 64 pgSize).toNat + pages * 4096 ≤ utop.toNat := by
      rw [next]
      omega
    obtain ⟨m', rest, spare'⟩ := ih region.valid role' others spare₁
    refine ⟨m', ?_, spare'⟩
    rw [Memory.regionAllocPages, first]
    exact rest

def Proghdr.pages (ph : Proghdr) : Nat :=
  pagesBetween (roundDown ph.pVa pgSize) (roundUp (ph.pVa + ph.pMemsz) pgSize)

theorem Memory.userWritable_of_cell {byte : BitVec 8} (found : m.cell root va = some (byte, true, true)) :
    m.UserWritable root va := by
  obtain ⟨translation, walk, same⟩ := Option.map_eq_some_iff.mp found
  exact ⟨translation, walk, congrArg (fun cell => cell.2.1) same, congrArg (fun cell => cell.2.2) same⟩

theorem Consistent.loadSegment_done (valid : Consistent m g) (role : g.role root = .table root []) {ph : Proghdr}
    (inside : ph.InUserPart) (spare : m.Spare (count + 4 * ph.pages)) :
    ∃ m', Memory.loadSegment root m ph = .ok m' ∧ m'.Spare count := by
  have limit := utop_toNat
  have filled := inside.1
  have room := inside.2
  have below : (roundDown ph.pVa pgSize).toNat + ph.pages * 4096 ≤ utop.toNat :=
    region_end room (by decide) (Nat.le_refl _)
  obtain ⟨middle, allocated, spare₁⟩ := valid.regionAllocPages_done role below spare
  have region := valid.regionAllocPages_allocates role below allocated
  obtain ⟨g', valid', -, kept⟩ := region.preserved
  have length := Proghdr.stored_length filled
  have writable : ∀ i < ph.stored.length, middle.UserWritable root (ph.pVa + BitVec.ofNat 64 i) := by
    intro i bound
    rw [length] at bound
    have value : (ph.pVa + BitVec.ofNat 64 i).toNat = ph.pVa.toNat + i := by
      rw [BitVec.toNat_add, BitVec.toNat_ofNat]
      omega
    have small : ph.pVa + BitVec.ofNat 64 i < utop := by
      rw [BitVec.lt_def]
      omega
    have covers : ph.Covers (ph.pVa + BitVec.ofNat 64 i) := by
      rw [Proghdr.Covers, value]
      omega
    have inPages := (Proghdr.inPages_iff inside _).mpr covers.touches
    exact Memory.userWritable_of_cell ((region.cell _ small).trans (if_pos inPages))
  obtain ⟨m', stored⟩ := valid'.storeBytes_done (kept root role) ph.pVa _ (by rw [length]; exact room) writable
  have rewrites := valid'.storeBytes (kept root role) (by rw [length]; exact room) stored
  refine ⟨m', ?_, spare₁.congr rewrites.ppLink rewrites.pageFreeList⟩
  rw [Memory.loadSegment, Memory.regionAlloc, ← Proghdr.pages, allocated]
  exact stored

theorem Consistent.loadSegments_done (valid : Consistent m g) (role : g.role root = .table root [])
    {headers : List Proghdr} (inside : ∀ ph ∈ headers, ph.InUserPart)
    (spare : m.Spare (count + 4 * (headers.map Proghdr.pages).sum)) :
    ∃ m', headers.foldlM (Memory.loadSegment root) m = .ok m' ∧ m'.Spare count := by
  induction headers generalizing m g with
  | nil => exact ⟨m, rfl, spare⟩
  | cons ph headers ih =>
    rw [List.map_cons, List.sum_cons] at spare
    have here := inside ph (List.mem_cons_self ..)
    have enough : m.Spare (count + 4 * (headers.map Proghdr.pages).sum + 4 * ph.pages) := spare.weaken (by omega)
    obtain ⟨middle, first, spare₁⟩ := valid.loadSegment_done role here enough
    obtain ⟨g', valid', -, kept⟩ := valid.loadSegment role here first
    obtain ⟨m', rest, spare'⟩ :=
      ih valid' (kept root role) (fun other member => inside other (List.mem_cons_of_mem _ member)) spare₁
    refine ⟨m', ?_, spare'⟩
    rw [List.foldlM_cons, first]
    exact rest

/-- Four pages for each page that is mapped are enough: the page, and three tables to reach it. -/
theorem Consistent.loadIcode_done (valid : Consistent m g) (role : g.role root = .table root []) {program : Program}
    (inside : ∀ ph ∈ program.headers, ph.InUserPart)
    (spare : m.Spare (4 * ((program.headers.map Proghdr.pages).sum + 1))) : ∃ m', m.loadIcode root program = .ok m' := by
  have enough : m.Spare (4 + 4 * (program.headers.map Proghdr.pages).sum) := spare.weaken (by omega)
  obtain ⟨middle, loaded, spare₁⟩ := valid.loadSegments_done role inside enough
  obtain ⟨g', valid', -, kept⟩ := valid.loadSegments role inside loaded
  have stackBelow : stackPage.toNat + 1 * 4096 ≤ utop.toNat := by decide
  have one : middle.Spare (0 + 4 * 1) := spare₁
  obtain ⟨m', stack, -⟩ := valid'.regionAllocPages_done (kept root role) stackBelow one
  refine ⟨m', ?_⟩
  rw [Memory.loadIcode, loaded]
  exact (regionAlloc_stack middle root).trans stack

end Jos
