import Mathlib.Data.List.GetD
import JosKernel.Program.Cells

namespace Jos

variable {m m' : Memory} {g g' : Layout} {root : Nat} {va a : Word}

-- Regions

def InPages (start : Word) (pages : Nat) (va : Word) : Prop :=
  start.toNat / 4096 ≤ va.toNat / 4096 ∧ va.toNat / 4096 < start.toNat / 4096 + pages

instance (start : Word) (pages : Nat) (va : Word) : Decidable (InPages start pages va) :=
  inferInstanceAs (Decidable (_ ∧ _))

structure Allocates (m : Memory) (g : Layout) (root : Nat) (start : Word) (pages : Nat) (m' : Memory) : Prop where
  preserved : Preserved m g m'
  cell : ∀ a < utop, m'.cell root a = if InPages start pages a then some (0, true, true) else m.cell root a
  sole : ∀ a < utop, InPages start pages a ∨ m.Sole root a → m'.Sole root a

theorem Consistent.regionAllocPages_allocates (valid : Consistent m g) (role : g.role root = .table root [])
    {start : Word} {pages : Nat} (below : start.toNat + pages * 4096 ≤ utop.toNat)
    (done : Memory.regionAllocPages root pages start m = .ok m') : Allocates m g root start pages m' := by
  induction pages generalizing start m g with
  | zero =>
    cases done
    have none : ∀ a, ¬ InPages start 0 a := fun a inside => by
      have low := inside.1
      have high := inside.2
      omega
    exact ⟨.refl valid, fun a _ => (if_neg (none a)).symm, fun a _ sole => sole.resolve_left (none a)⟩
  | succ pages ih =>
    obtain ⟨middle, first, rest⟩ := Fallible.bind_ok.mp done
    have limit := utop_toNat
    have here : start < utop := by
      rw [BitVec.lt_def]
      omega
    have next : (start + BitVec.ofNat 64 pgSize).toNat = start.toNat + 4096 := by
      rw [BitVec.toNat_add]
      change (start.toNat + 4096) % 2^64 = _
      omega
    obtain ⟨page, m₁, g₁, g', region⟩ := valid.regionAllocPage role here first
    have role' : g'.role root = .table root [] :=
      region.sets.table root root [] ((region.fresh.table_iff root root []).mpr role)
    have after := ih region.valid role' (by omega) rest
    have split : ∀ a, InPages start (pages + 1) a ↔
        SamePage a start ∨ InPages (start + BitVec.ofNat 64 pgSize) pages a := by
      intro a
      rw [InPages, InPages, SamePage, next]
      omega
    refine ⟨region.preserved.andThen fun g'' valid'' kept => ?_, fun a small => ?_, fun a small sole => ?_⟩
    · exact (ih valid'' (kept root role) (by omega) rest).preserved
    · rw [after.cell a small, region.cell valid role small]
      by_cases later : InPages (start + BitVec.ofNat 64 pgSize) pages a
      · rw [if_pos later, if_pos ((split a).mpr (.inr later))]
      · rw [if_neg later]
        exact if_congr (by rw [split]; simp [later]) rfl rfl
    · apply after.sole a small
      rcases sole with inside | sole
      · exact ((split a).mp inside).symm.imp_right fun same => region.sole valid role small (.inl same)
      · exact .inr (region.sole valid role small (.inr sole))

-- Segments

namespace Proghdr

variable (ph : Proghdr)

def Touches (va : Word) : Prop :=
  ph.pVa.toNat / 4096 ≤ va.toNat / 4096 ∧
    va.toNat / 4096 < (ph.pVa.toNat + ph.pMemsz.toNat + 4095) / 4096

instance (va : Word) : Decidable (ph.Touches va) := inferInstanceAs (Decidable (_ ∧ _))

def Covers (va : Word) : Prop := ph.pVa.toNat ≤ va.toNat ∧ va.toNat < ph.pVa.toNat + ph.pMemsz.toNat

instance (va : Word) : Decidable (ph.Covers va) := inferInstanceAs (Decidable (_ ∧ _))

def Occupies (va : Word) : Prop := ∃ other, ph.Covers other ∧ SamePage other va

def byteAt (va : Word) : BitVec 8 := if ph.Covers va then ph.contents.getD (va.toNat - ph.pVa.toNat) 0 else 0

variable {ph}

theorem Covers.touches (covers : ph.Covers va) : ph.Touches va := by
  have low := covers.1
  have high := covers.2
  constructor <;> omega

theorem Occupies.touches (occupies : ph.Occupies va) : ph.Touches va := by
  obtain ⟨other, covers, same⟩ := occupies
  have touches := covers.touches
  rwa [Touches, same] at touches

theorem Covers.occupies (covers : ph.Covers va) : ph.Occupies va := ⟨va, covers, rfl⟩

theorem Touches.occupies (touches : ph.Touches va) (nonempty : ph.pMemsz ≠ 0) : ph.Occupies va := by
  have low := touches.1
  have high := touches.2
  have positive : 0 < ph.pMemsz.toNat := Nat.pos_of_ne_zero fun zero => nonempty (BitVec.eq_of_toNat_eq zero)
  rcases Nat.lt_or_ge (va.toNat / 4096 * 4096) ph.pVa.toNat with before | behind
  · refine ⟨ph.pVa, ⟨Nat.le_refl _, by omega⟩, ?_⟩
    rw [SamePage]
    omega
  · have small := va.isLt
    have start : (BitVec.ofNat 64 (va.toNat / 4096 * 4096)).toNat = va.toNat / 4096 * 4096 := by
      rw [BitVec.toNat_ofNat]
      omega
    refine ⟨BitVec.ofNat 64 (va.toNat / 4096 * 4096), ⟨by rw [start]; exact behind, by rw [start]; omega⟩, ?_⟩
    rw [SamePage, start]
    omega

theorem byteAt_other (other : ¬ ph.Covers va) : ph.byteAt va = 0 := if_neg other

theorem inPages_iff (inside : ph.InUserPart) (va : Word) :
    InPages (roundDown ph.pVa pgSize) (pagesBetween (roundDown ph.pVa pgSize) (roundUp (ph.pVa + ph.pMemsz) pgSize)) va ↔
      ph.Touches va := by
  have limit := utop_toNat
  have room := inside.2
  have sum : (ph.pVa + ph.pMemsz).toNat = ph.pVa.toNat + ph.pMemsz.toNat := by
    rw [BitVec.toNat_add]
    omega
  rw [InPages, Touches, pagesBetween, roundDown_toNat, roundUp_toNat, sum, pgSize]
  omega

end Proghdr

theorem getD_padded (bytes : List (BitVec 8)) (n i : Nat) : (bytes ++ List.replicate n 0).getD i 0 = bytes.getD i 0 := by
  rcases Nat.lt_or_ge i bytes.length with inside | behind
  · exact List.getD_append _ _ _ _ inside
  · rw [List.getD_append_right _ _ _ _ behind, List.getD_eq_default bytes 0 behind]
    rcases Nat.lt_or_ge (i - bytes.length) n with within | beyond
    · exact List.getD_replicate _ within
    · exact List.getD_eq_default _ _ (by simpa using beyond)

theorem Consistent.loadSegment_cell (valid : Consistent m g) (role : g.role root = .table root []) {ph : Proghdr}
    (inside : ph.InUserPart) (done : Memory.loadSegment root m ph = .ok m') (below : a < utop) :
    m'.cell root a = if ph.Touches a then some (ph.byteAt a, true, true) else m.cell root a := by
  obtain ⟨middle, allocated, stored⟩ := Fallible.bind_ok.mp done
  have limit := utop_toNat
  have filled := inside.1
  have room := inside.2
  have region := valid.regionAllocPages_allocates role (region_end room (by decide) (Nat.le_refl _)) allocated
  obtain ⟨g', valid', -, kept⟩ := region.preserved
  have length := Proghdr.stored_length filled
  have sole : ∀ b : Word, ph.pVa.toNat ≤ b.toNat →
      b.toNat < ph.pVa.toNat + ph.stored.length → middle.Sole root b := by
    intro b low high
    rw [length] at high
    have small : b < utop := by
      rw [BitVec.lt_def]
      omega
    exact region.sole b small (.inl ((Proghdr.inPages_iff inside b).mpr (Proghdr.Covers.touches ⟨low, high⟩)))
  rw [valid'.storeBytes_cell (kept root role) (by rw [length]; exact room) sole stored below, length,
    region.cell a below]
  have shape : (ph.pVa.toNat ≤ a.toNat ∧ a.toNat < ph.pVa.toNat + ph.pMemsz.toNat) = ph.Covers a := rfl
  by_cases covers : ph.Covers a
  · have touches := covers.touches
    rw [if_pos (shape ▸ covers), if_pos ((Proghdr.inPages_iff inside a).mpr touches), if_pos touches, Option.map_some,
      Proghdr.stored, getD_padded, Proghdr.byteAt, if_pos covers]
  · rw [if_neg (shape ▸ covers), Proghdr.byteAt_other covers]
    exact if_congr (Proghdr.inPages_iff inside a) rfl rfl

-- All segments

abbrev CellView := Option (BitVec 8 × Bool × Bool)

def imageCell (headers : List Proghdr) (va : Word) (before : CellView) : CellView :=
  headers.foldl (fun cell ph => if ph.Touches va then some (ph.byteAt va, true, true) else cell) before

theorem imageCell_untouched {headers : List Proghdr} (untouched : ∀ ph ∈ headers, ¬ ph.Touches va) (before : CellView) :
    imageCell headers va before = before := by
  induction headers generalizing before with
  | nil => rfl
  | cons ph headers ih =>
    have here := untouched ph (List.mem_cons_self ..)
    have rest := ih (fun other member => untouched other (List.mem_cons_of_mem _ member)) before
    rw [imageCell, List.foldl_cons, if_neg here]
    exact rest

theorem imageCell_last {front behind : List Proghdr} {ph : Proghdr} (touches : ph.Touches va)
    (last : ∀ later ∈ behind, ¬ later.Touches va) (before : CellView) :
    imageCell (front ++ ph :: behind) va before = some (ph.byteAt va, true, true) := by
  rw [imageCell, List.foldl_append, List.foldl_cons, if_pos touches]
  exact imageCell_untouched last _

theorem last_touching (headers : List Proghdr) (va : Word) : (∀ ph ∈ headers, ¬ ph.Touches va) ∨
    ∃ front ph behind, headers = front ++ ph :: behind ∧ ph.Touches va ∧ ∀ later ∈ behind, ¬ later.Touches va := by
  induction headers using List.reverseRecOn with
  | nil => exact .inl (by simp)
  | append_singleton headers ph ih =>
    by_cases touches : ph.Touches va
    · exact .inr ⟨headers, ph, [], rfl, touches, by simp⟩
    rcases ih with none | ⟨front, other, behind, rfl, here, last⟩
    · left
      intro other member
      rcases List.mem_append.mp member with early | late
      · exact none other early
      · rwa [List.mem_singleton.mp late]
    · refine .inr ⟨front, other, behind ++ [ph], by simp, here, ?_⟩
      intro later member
      rcases List.mem_append.mp member with early | late
      · exact last later early
      · rwa [List.mem_singleton.mp late]

theorem Consistent.loadSegments_cell (valid : Consistent m g) (role : g.role root = .table root [])
    {headers : List Proghdr} (inside : ∀ ph ∈ headers, ph.InUserPart)
    (done : headers.foldlM (Memory.loadSegment root) m = .ok m') (below : a < utop) :
    m'.cell root a = imageCell headers a (m.cell root a) := by
  induction headers generalizing m g with
  | nil =>
    cases done
    rfl
  | cons ph headers ih =>
    rw [List.foldlM_cons] at done
    obtain ⟨middle, first, rest⟩ := Fallible.bind_ok.mp done
    have here := inside ph (List.mem_cons_self ..)
    obtain ⟨g', valid', -, kept⟩ := valid.loadSegment role here first
    rw [ih valid' (kept root role) (fun other member => inside other (List.mem_cons_of_mem _ member)) rest,
      valid.loadSegment_cell role here first below]
    rfl

theorem Consistent.loadIcode_cell (valid : Consistent m g) (role : g.role root = .table root []) {program : Program}
    (inside : ∀ ph ∈ program.headers, ph.InUserPart) (done : m.loadIcode root program = .ok m') (below : a < utop) :
    m'.cell root a =
      if SamePage a stackPage then some (0, true, true) else imageCell program.headers a (m.cell root a) := by
  obtain ⟨middle, loaded, rest⟩ := Fallible.bind_ok.mp done
  obtain ⟨g', valid', -, kept⟩ := valid.loadSegments role inside loaded
  have stack : Memory.regionAllocPages root 1 stackPage middle = .ok m' := by
    rw [← regionAlloc_stack]
    exact rest
  have region := valid'.regionAllocPages_allocates (kept root role) (by decide) stack
  rw [region.cell a below, valid.loadSegments_cell role inside loaded below]
  refine if_congr ?_ rfl rfl
  rw [InPages, SamePage]
  omega

end Jos
