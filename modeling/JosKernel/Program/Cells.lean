import JosKernel.Env.Loading
import JosKernel.Trap.Delivery

namespace Jos

variable {m m' : Memory} {g g' : Layout} {root : Nat} {va a : Word}

-- Bytes of a word

def byteOf (w : Word) (i : Nat) : BitVec 8 := (w >>> (8 * i)).setWidth 8

theorem byteOf_setByte (w : Word) {i j : Nat} (inside : j < 8) (byte : BitVec 8) :
    byteOf (setByte w i byte) j = if j = i then byte else byteOf w j := by
  have ones : ∀ n, (0xFF : Word).getLsbD n = decide (n < 8) := by
    intro n
    by_cases small : n < 64
    · have table : ∀ n : Fin 64, (0xFF : Word).getLsbD n = decide (n.val < 8) := by decide
      exact table ⟨n, small⟩
    · rw [BitVec.getLsbD_of_ge _ _ (by omega)]
      simp
      omega
  apply BitVec.eq_of_getLsbD_eq
  intro b small
  have width : 8 * j + b < 64 := by omega
  simp only [byteOf, setByte, BitVec.getLsbD_setWidth, BitVec.getLsbD_ushiftRight, BitVec.getLsbD_or, BitVec.getLsbD_and,
    BitVec.getLsbD_not, BitVec.getLsbD_shiftLeft, ones, small, width, decide_true, Bool.true_and]
  split
  · rename_i here
    subst here
    have offset : 8 * j + b - 8 * j = b := by omega
    simp [offset, small, show b < 64 by omega]
  · rename_i other
    rcases Nat.lt_or_gt_of_ne other with below | above
    · simp [show 8 * j + b < 8 * i by omega, small]
    · have outside : ¬ 8 * j + b - 8 * i < 8 := by omega
      have absent : byte.getLsbD (8 * j + b - 8 * i) = false := BitVec.getLsbD_of_ge _ _ (by omega)
      simp [show ¬ 8 * j + b < 8 * i by omega, outside, absent, small]

-- What a program sees

def Memory.byteAt (m : Memory) (page : Nat) (va : Word) : BitVec 8 :=
  byteOf (m.word page (pgOff va / 8)) (pgOff va % 8)

/-- What an address space has at an address: a byte, and whether it is writable, and for the user. -/
def Memory.cell (m : Memory) (root : Nat) (va : Word) : Option (BitVec 8 × Bool × Bool) :=
  (m.mmuWalk root va).map fun translation =>
    (m.byteAt translation.page va, translation.writable, translation.user)

theorem Memory.loadByte_cell (m : Memory) (root : Nat) (va : Word) :
    m.loadByte root va = (m.cell root va).map Prod.fst := by
  rw [Memory.cell, Option.map_map]
  rfl

theorem Memory.cell_none : m.cell root va = none ↔ m.mmuWalk root va = none := Option.map_eq_none_iff

theorem Memory.byteAt_setByte {page page' : Nat} (byte : BitVec 8) :
    (m.setByte page a byte).byteAt page' va =
      if page' = page ∧ pgOff va = pgOff a then byte else m.byteAt page' va := by
  rw [byteAt, Memory.setByte, Memory.write_word]
  by_cases slot : page' = page ∧ pgOff va / 8 = pgOff a / 8
  · rw [if_pos slot, byteOf_setByte _ (by omega), ← slot.2, ← slot.1]
    refine if_congr ?_ rfl rfl
    omega
  · rw [if_neg slot, if_neg]
    · rfl
    · rintro ⟨same, offset⟩
      exact slot ⟨same, by rw [offset]⟩

-- A page that `region_alloc` maps

theorem Layout.place_iff (g : Layout) (boot root : Nat) (va va' : Word) :
    g.place boot root va = g.place boot root va' ↔ SamePage va va' := by
  constructor
  · exact congrArg Prod.snd
  · intro same
    rw [place, place, (indices_of_page same).1, same]

theorem translate_regionEntry {page : Nat} (small : page < 2^32) :
    translate (leafEntry page regionPerm) = some ⟨page, leafEntry page regionPerm, true, true⟩ := by
  have flags : ∀ bit, flagMask &&& bit = bit → leafFlags regionPerm &&& bit = bit →
      leafEntry page regionPerm &&& bit = bit := by
    intro bit masked within
    calc leafEntry page regionPerm &&& bit
        = (leafEntry page regionPerm &&& flagMask) &&& bit := by rw [BitVec.and_assoc, masked]
      _ = bit := by rw [leafEntry_flags page regionPerm (by decide), within]
  rw [translate, if_pos (present_leafEntry page regionPerm), entryPage_leafEntry page regionPerm (by omega) (by decide),
    flags pteW (by decide) (by decide), flags pteU (by decide) (by decide)]
  rfl

section Region

variable {page : Nat} {m₁ : Memory} {g₁ : Layout}

theorem Region.mmuWalk (region : Region m g root va page m₁ g₁ m' g') (valid : Consistent m g)
    (role : g.role root = .table root []) (below : a < utop) :
    m'.mmuWalk root a = if SamePage a va then some ⟨page, leafEntry page regionPerm, true, true⟩ else m.mmuWalk root a := by
  have low := pml4_of_user below
  have role₁ : (g₁.setExtra page 1).role root = .table root [] := (region.fresh.table_iff root root []).mpr role
  have before : (m₁.setRef page 1).entry root a = m.entry root a := region.fresh.entry valid role low
  rw [region.valid.mmuWalk (region.sets.table root root [] role₁) low, valid.mmuWalk role low,
    region.sets.entry root a role₁ below, before]
  by_cases same : SamePage a va
  · rw [if_pos same, if_pos ((Layout.place_iff ..).mpr same), translate_regionEntry region.small]
  · rw [if_neg same, if_neg fun place => same ((Layout.place_iff ..).mp place)]

theorem Region.cell (region : Region m g root va page m₁ g₁ m' g') (valid : Consistent m g)
    (role : g.role root = .table root []) (below : a < utop) :
    m'.cell root a = if SamePage a va then some (0, true, true) else m.cell root a := by
  rw [Memory.cell, region.mmuWalk valid role below]
  split
  · have zero : ∀ i, m'.word page i = 0 := by
      intro i
      rw [region.sets.content page i (.inl region.fresh.data)]
      exact region.fresh.zero i
    rw [Option.map_some, Memory.byteAt, zero]
    simp [byteOf]
  · rw [Memory.cell]
    refine Option.map_congr fun translation found => ?_
    have data := valid.mmuWalk_data role below found
    have data₁ : (g₁.setExtra page 1).role translation.page = .data := by
      rw [Layout.setExtra_role, region.fresh.layout, Layout.setExtra_role, Layout.setRole_role, data, ite_self]
    have used : g.role translation.page ≠ .free := by simp [data]
    have words : ∀ i, m'.word translation.page i = m.word translation.page i := by
      intro i
      rw [region.sets.content translation.page i (.inl data₁), Memory.setRef_word, region.fresh.word_of_used used]
    rw [Memory.byteAt, Memory.byteAt, words]

end Region

def Memory.Sole (m : Memory) (root : Nat) (va : Word) : Prop :=
  ∀ va' < utop, ∀ translation translation', m.mmuWalk root va = some translation →
    m.mmuWalk root va' = some translation' → translation'.page = translation.page → SamePage va' va

theorem Region.sole {page : Nat} {m₁ : Memory} {g₁ : Layout} (region : Region m g root va page m₁ g₁ m' g')
    (valid : Consistent m g) (role : g.role root = .table root []) (below : a < utop)
    (before : SamePage a va ∨ m.Sole root a) : m'.Sole root a := by
  have fresh : ∀ {b : Word} {translation}, b < utop → m.mmuWalk root b = some translation → translation.page ≠ page := by
    intro b translation below' found same
    have data := valid.mmuWalk_data role below' found
    rw [same, region.fresh.free] at data
    cases data
  intro va' below' translation translation' found found' same
  rw [region.mmuWalk valid role below] at found
  rw [region.mmuWalk valid role below'] at found'
  by_cases here : SamePage a va
  · rw [if_pos here] at found
    cases found
    by_cases here' : SamePage va' va
    · exact here'.trans here.symm
    · rw [if_neg here'] at found'
      exact absurd same (fresh below' found')
  · rw [if_neg here] at found
    by_cases here' : SamePage va' va
    · rw [if_pos here'] at found'
      cases found'
      exact absurd same.symm (fresh below found)
    · rw [if_neg here'] at found'
      exact (before.resolve_left here) va' below' translation translation' found found' same

-- Stores

theorem Rewrites.sole (rewrites : Rewrites m g m') (valid : Consistent m g) (role : g.role root = .table root [])
    (below : a < utop) (sole : m.Sole root a) : m'.Sole root a := by
  intro va' below' translation translation' found found' same
  rw [rewrites.mmuWalk valid role (pml4_of_user below)] at found
  rw [rewrites.mmuWalk valid role (pml4_of_user below')] at found'
  exact sole va' below' translation translation' found found' same

theorem pgOff_of_samePage {va va' : Word} (same : SamePage va va') (offset : pgOff va = pgOff va') : va = va' := by
  rw [pgOff_eq, pgOff_eq] at offset
  have page : va.toNat / 4096 = va'.toNat / 4096 := same
  exact BitVec.eq_of_toNat_eq (by omega)

theorem Consistent.storeByte_cell (valid : Consistent m g) (role : g.role root = .table root []) {byte : BitVec 8}
    (inside : a < utop) (sole : m.Sole root a) (stored : m.storeByte root a byte = .ok m') (below : va < utop) :
    m'.cell root va = if va = a then (m.cell root va).map (fun cell => (byte, cell.2)) else m.cell root va := by
  have walk := (valid.storeByte role inside stored).mmuWalk valid role (pml4_of_user below)
  unfold Memory.storeByte at stored
  cases found : m.mmuWalk root a with
  | none =>
    rw [found] at stored
    cases stored
  | some translation =>
    rw [found] at stored
    simp only at stored
    split at stored
    · cases stored
      rw [Memory.cell, walk, Memory.cell]
      by_cases here : va = a
      · rw [if_pos here, here, found]
        simp [Memory.byteAt_setByte]
      · rw [if_neg here]
        refine Option.map_congr fun translation' found' => ?_
        rw [Memory.byteAt_setByte, if_neg]
        rintro ⟨same, offset⟩
        exact here (pgOff_of_samePage (sole va below translation translation' found found' same) offset)
    · cases stored

theorem Consistent.storeBytes_cell (valid : Consistent m g) (role : g.role root = .table root [])
    {bytes : List (BitVec 8)} (inside : a.toNat + bytes.length ≤ utop.toNat)
    (sole : ∀ b : Word, a.toNat ≤ b.toNat → b.toNat < a.toNat + bytes.length → m.Sole root b)
    (stored : m.storeBytes root a bytes = .ok m') (below : va < utop) :
    m'.cell root va =
      if a.toNat ≤ va.toNat ∧ va.toNat < a.toNat + bytes.length then
        (m.cell root va).map fun cell => (bytes.getD (va.toNat - a.toNat) 0, cell.2)
      else m.cell root va := by
  induction bytes generalizing m a with
  | nil =>
    cases stored
    rw [if_neg (by simp)]
  | cons byte bytes ih =>
    obtain ⟨middle, first, rest⟩ := Fallible.bind_ok.mp stored
    rw [List.length_cons] at inside sole ⊢
    have limit := utop_toNat
    have here : a < utop := by
      rw [BitVec.lt_def]
      omega
    have next : (a + 1).toNat = a.toNat + 1 := by
      rw [BitVec.toNat_add]
      change (a.toNat + 1) % 2^64 = _
      omega
    have rewrites := valid.storeByte role here first
    have sole' : ∀ b : Word, (a + 1).toNat ≤ b.toNat → b.toNat < (a + 1).toNat + bytes.length → middle.Sole root b := by
      intro b low high
      have small : b < utop := by
        rw [BitVec.lt_def]
        omega
      exact rewrites.sole valid role small (sole b (by omega) (by omega))
    rw [ih (rewrites.consistent valid) (by omega) sole' rest,
      valid.storeByte_cell role here (sole a (Nat.le_refl _) (by omega)) first below, next]
    by_cases start : va = a
    · subst start
      rw [if_neg (by omega), if_pos rfl, if_pos (by omega), Nat.sub_self]
      rfl
    · have apart : va.toNat ≠ a.toNat := fun same => start (BitVec.eq_of_toNat_eq same)
      rw [if_neg start]
      refine ite_congr (by rw [eq_iff_iff]; omega) (fun between => ?_) fun _ => rfl
      have offset : va.toNat - a.toNat = va.toNat - (a.toNat + 1) + 1 := by omega
      rw [offset]
      rfl

end Jos
