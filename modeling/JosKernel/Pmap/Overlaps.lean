import Mathlib.Order.Interval.Finset.Nat
import JosKernel.Lib.Coverage
import JosKernel.Pmap.MapSort

namespace Jos

namespace MemoryRange

def bytes (r : MemoryRange) : Finset Nat := Finset.Ico r.addr.toNat (r.addr.toNat + r.length.toNat)

/-- The bytes that are usable, and not in an entry of another type as well. Types that the specification does not
    know count as reserved. -/
def usableBytes (regions : List MemoryRange) : Finset Nat :=
  Coverage.union ((regions.filter fun r => r.Usable).map bytes) \
    Coverage.union ((regions.filter fun r => ¬ r.Usable).map bytes)

/-- The usable blocks that the entries form: those that touch and have one type are one block, and of two that
    overlap, each has the stricter type. -/
def kept (regions : List MemoryRange) : List MemoryRange := (blocks regions).filter fun r => r.Usable

def Separate (regions : List MemoryRange) : Prop :=
  (kept regions).Pairwise (fun left right => Disjoint left.bytes right.bytes) ∧
    ∀ r ∈ kept regions, ∀ other ∈ regions, ¬ other.Usable → Disjoint r.bytes other.bytes

theorem card_bytes (r : MemoryRange) : r.bytes.card = r.length.toNat := by
  rw [bytes, Nat.card_Ico, Nat.add_sub_cancel_left]

def Apart (left right : MemoryRange) : Prop :=
  left.addr.toNat + left.length.toNat ≤ right.addr.toNat ∨ right.addr.toNat + right.length.toNat ≤ left.addr.toNat

instance (left right : MemoryRange) : Decidable (left.Apart right) := inferInstanceAs (Decidable (_ ∨ _))

theorem Apart.disjoint {left right : MemoryRange} (apart : left.Apart right) : Disjoint left.bytes right.bytes := by
  rw [Finset.disjoint_left]
  intro byte inLeft inRight
  rw [bytes, Finset.mem_Ico] at inLeft inRight
  rcases apart with before | behind
  · omega
  · omega

theorem mem_usableBytes {regions : List MemoryRange} {byte : Nat} : byte ∈ usableBytes regions ↔
    (∃ r ∈ regions, r.Usable ∧ byte ∈ r.bytes) ∧ ∀ r ∈ regions, ¬ r.Usable → byte ∉ r.bytes := by
  simp only [usableBytes, Finset.mem_sdiff, Coverage.mem_union, List.mem_map, List.mem_filter, decide_eq_true_eq]
  constructor
  · rintro ⟨⟨_, ⟨r, ⟨listed, usable⟩, rfl⟩, inside⟩, others⟩
    exact ⟨⟨r, listed, usable, inside⟩, fun r listed unusable inside =>
      others ⟨_, ⟨r, ⟨listed, unusable⟩, rfl⟩, inside⟩⟩
  · rintro ⟨⟨r, listed, usable, inside⟩, others⟩
    refine ⟨⟨_, ⟨r, ⟨listed, usable⟩, rfl⟩, inside⟩, ?_⟩
    rintro ⟨_, ⟨r, ⟨listed, unusable⟩, rfl⟩, inside⟩
    exact others r listed unusable inside

-- Types

def KnownType (type : BitVec 32) : Prop := 1 ≤ type ∧ type ≤ 5

theorem KnownType.cases {type : BitVec 32} (known : KnownType type) : type = mbTypeUsable ∨ type = mbTypeReserved ∨
    type = mbTypeAcpiReclm ∨ type = mbTypeAcpiNvs ∨ type = mbTypeBad := by
  obtain ⟨lower, upper⟩ := known
  rw [BitVec.le_def] at lower upper
  change 1 ≤ type.toNat at lower
  change type.toNat ≤ 5 at upper
  simp only [← BitVec.toNat_inj]
  change type.toNat = 1 ∨ type.toNat = 2 ∨ type.toNat = 3 ∨ type.toNat = 4 ∨ type.toNat = 5
  omega

theorem restrictiveType_usable {left right : BitVec 32} (known : KnownType left) (known' : KnownType right) :
    KnownType (restrictiveType left right) ∧
      (restrictiveType left right = mbTypeUsable ∨ restrictiveType left right = mbTypeAcpiReclm ↔
        (left = mbTypeUsable ∨ left = mbTypeAcpiReclm) ∧ (right = mbTypeUsable ∨ right = mbTypeAcpiReclm)) := by
  rw [KnownType]
  rcases known.cases with rfl | rfl | rfl | rfl | rfl <;>
    rcases known'.cases with rfl | rfl | rfl | rfl | rfl <;> decide

theorem known_normalise (r : MemoryRange) : KnownType r.normalise.type := by
  rw [normalise]
  split
  · exact ⟨show 1 ≤ mbTypeReserved by decide, show mbTypeReserved ≤ 5 by decide⟩
  · rename_i known
    rw [not_or, BitVec.not_lt, BitVec.not_lt] at known
    exact ⟨known.2, known.1⟩

theorem usable_normalise (r : MemoryRange) : r.normalise.Usable ↔ r.Usable := by
  rw [normalise]
  split
  · rename_i unknown
    refine iff_of_false (show ¬ (mbTypeReserved = mbTypeUsable ∨ mbTypeReserved = mbTypeAcpiReclm) by decide) ?_
    rintro (usable | usable) <;> rw [usable] at unknown <;> exact absurd unknown (by decide)
  · rfl

theorem bytes_normalise (r : MemoryRange) : r.normalise.bytes = r.bytes := by
  rw [normalise]
  split <;> rfl

-- What the blocks add up to

def usableTotal (ranges : List MemoryRange) : Nat := Coverage.total ((ranges.filter fun r => r.Usable).map bytes)

theorem usableTotal_cons (r : MemoryRange) (ranges : List MemoryRange) :
    usableTotal (r :: ranges) = (if r.Usable then r.length.toNat else 0) + usableTotal ranges := by
  rw [usableTotal, List.filter_cons]
  by_cases usable : r.Usable
  · rw [if_pos (decide_eq_true usable), if_pos usable, List.map_cons, Coverage.total_cons, card_bytes]
    rfl
  · rw [if_neg (by rwa [decide_eq_true_eq]), if_neg usable, Nat.zero_add]
    rfl

/-- What every block has that entries form whose usable bytes lie in `covered`. -/
structure Sound (covered : Finset Nat) (r : MemoryRange) : Prop where
  known : KnownType r.type
  whole : r.addr.toNat + r.length.toNat ≤ 2^64
  inside : r.Usable → r.bytes ⊆ covered

theorem stop_toNat {r next : MemoryRange} (whole : r.addr.toNat + r.length.toNat ≤ 2^64) (ordered : r.addr ≤ next.addr)
    (touching : r.stop = next.addr) : r.addr.toNat + r.length.toNat = next.addr.toNat := by
  have length := r.length.isLt
  rw [BitVec.le_def] at ordered
  rw [stop, ← BitVec.toNat_inj, BitVec.toNat_add] at touching
  -- A range that ends with the last byte stops at 0, where no later one begins.
  omega

theorem Sound.merge {covered : Finset Nat} {r next : MemoryRange} (first : r.Sound covered)
    (second : next.Sound covered) (ordered : r.addr ≤ next.addr) (touching : r.stop = next.addr)
    (same : r.type = next.type) : Sound covered ⟨r.addr, r.length + next.length, r.type⟩ := by
  have stop := stop_toNat first.whole ordered touching
  have whole := second.whole
  have sum : (r.length + next.length).toNat ≤ r.length.toNat + next.length.toNat := by
    rw [BitVec.toNat_add]
    exact Nat.mod_le _ _
  refine ⟨first.known, ?_, ?_⟩
  · change r.addr.toNat + (r.length + next.length).toNat ≤ 2^64
    omega
  · intro usable byte member
    have low : byte ∈ r.bytes → byte ∈ covered := fun member => first.inside usable member
    have high : byte ∈ next.bytes → byte ∈ covered := fun member =>
      second.inside (by rwa [Usable, ← same]) member
    rw [bytes, Finset.mem_Ico] at member low high
    change r.addr.toNat ≤ byte ∧ byte < r.addr.toNat + (r.length + next.length).toNat at member
    by_cases before : byte < r.addr.toNat + r.length.toNat
    · exact low ⟨member.1, before⟩
    · exact high ⟨by omega, by omega⟩

theorem Sound.join {covered : Finset Nat} {r : MemoryRange} {rest : List MemoryRange} (sound : r.Sound covered)
    (others : ∀ other ∈ rest, other.Sound covered)
    (ordered : (r :: rest).Pairwise fun left right => left.addr ≤ right.addr) :
    ∀ block ∈ r.join rest, block.Sound covered := by
  induction rest generalizing r with
  | nil =>
    intro block member
    rw [MemoryRange.join, List.mem_singleton] at member
    exact member ▸ sound
  | cons next rest ih =>
    have second := others next (List.mem_cons_self ..)
    have later : ∀ other ∈ rest, other.Sound covered := fun other member =>
      others other (List.mem_cons_of_mem _ member)
    obtain ⟨lowest, ordered⟩ := List.pairwise_cons.mp ordered
    obtain ⟨lower, rising⟩ := List.pairwise_cons.mp ordered
    by_cases touching : r.stop = next.addr ∧ r.type = next.type
    · rw [join_touching r next touching.1 touching.2]
      refine ih (sound.merge second (lowest next (List.mem_cons_self ..)) touching.1 touching.2) later ?_
      exact List.pairwise_cons.mpr ⟨fun other member => lowest other (List.mem_cons_of_mem _ member), rising⟩
    · by_cases overlap : next.addr < r.stop
      · obtain ⟨known, both⟩ := restrictiveType_usable sound.known second.known
        rw [join_overlap r next touching overlap, List.forall_mem_cons]
        refine ⟨⟨known, sound.whole, fun usable => sound.inside (both.mp usable).1⟩, ?_⟩
        exact ih ⟨known, second.whole, fun usable => second.inside (both.mp usable).2⟩ later
          (List.pairwise_cons.mpr ⟨lower, rising⟩)
      · rw [join_separate r next touching overlap, List.forall_mem_cons]
        exact ⟨sound, ih second later ordered⟩

theorem sorted_perm (regions : List MemoryRange) : (sorted regions).Perm regions := by
  induction regions using List.reverseRecOn with
  | nil => exact .nil
  | append_singleton regions r ih =>
    rw [sorted, List.foldl_append]
    exact (List.perm_orderedInsert _ r _).trans ((ih.cons r).trans (List.perm_append_singleton r regions).symm)

theorem mem_sorted {regions : List MemoryRange} {P : MemoryRange → Prop} :
    (∀ r ∈ sorted (regions.map normalise), P r) ↔ ∀ r ∈ regions, P r.normalise := by
  simp only [(sorted_perm _).mem_iff, List.forall_mem_map]

theorem kept_covered {regions : List MemoryRange} (whole : ∀ r ∈ regions, r.addr.toNat + r.length.toNat ≤ 2^64) :
    ∀ block ∈ kept regions, block.bytes ⊆ Coverage.union ((regions.filter fun r => r.Usable).map bytes) := by
  have sound : ∀ r ∈ sorted (regions.map normalise),
      r.Sound (Coverage.union ((regions.filter fun r => r.Usable).map bytes)) := by
    refine mem_sorted.mpr fun r listed => ⟨known_normalise r, ?_, ?_⟩
    · have same := whole r listed
      rw [normalise]
      split <;> exact same
    · intro usable byte inside
      rw [bytes_normalise] at inside
      refine Coverage.mem_union.mpr ⟨_, List.mem_map_of_mem (List.mem_filter.mpr ⟨listed, ?_⟩), inside⟩
      exact decide_eq_true ((usable_normalise r).mp usable)
  have ordered := sorted_ordered (regions.map normalise)
  intro block member
  rw [kept, List.mem_filter, decide_eq_true_eq, blocks] at member
  obtain ⟨member, usable⟩ := member
  cases order : sorted (regions.map normalise) with
  | nil =>
    rw [order] at member
    cases member
  | cons first rest =>
    rw [order] at member sound ordered
    rw [List.forall_mem_cons] at sound
    exact (sound.1.join sound.2 ordered block member).inside usable

theorem sums_toNat (ranges : List MemoryRange) :
    (lowUsable ranges).toNat + (highUsable ranges).toNat ≤ usableTotal ranges ∧
      (usableTotal ranges < 2^64 → (lowUsable ranges).toNat + (highUsable ranges).toNat = usableTotal ranges) := by
  induction ranges with
  | nil => exact ⟨Nat.le_refl _, fun _ => rfl⟩
  | cons r ranges ih =>
    obtain ⟨below, exactly⟩ := ih
    have low_cons : lowUsable (r :: ranges) =
        if r.Usable ∧ r.Low then r.length + lowUsable ranges else lowUsable ranges := by
      by_cases counted : r.Usable ∧ r.Low <;> simp [lowUsable, counted]
    have high_cons : highUsable (r :: ranges) =
        if r.Usable ∧ ¬ r.Low then r.length + highUsable ranges else highUsable ranges := by
      by_cases counted : r.Usable ∧ ¬ r.Low <;> simp [highUsable, counted]
    rw [low_cons, high_cons, usableTotal_cons]
    by_cases usable : r.Usable
    · by_cases low : r.Low
      · rw [if_pos ⟨usable, low⟩, if_neg fun both => both.2 low, if_pos usable, BitVec.toNat_add]
        omega
      · rw [if_neg fun both => low both.2, if_pos ⟨usable, low⟩, if_pos usable, BitVec.toNat_add]
        omega
    · rw [if_neg fun both => usable both.1, if_neg fun both => usable both.1, if_neg usable, Nat.zero_add]
      exact ⟨below, exactly⟩

theorem mem_usableBytes_kept {regions : List MemoryRange}
    (whole : ∀ r ∈ regions, r.addr.toNat + r.length.toNat ≤ 2^64) {block : MemoryRange} (member : block ∈ kept regions)
    {byte : Nat} (inside : byte ∈ block.bytes) :
    byte ∈ usableBytes regions ↔ ∀ r ∈ regions, ¬ r.Usable → byte ∉ r.bytes := by
  have covered := kept_covered whole block member inside
  simp only [Coverage.mem_union, List.mem_map, List.mem_filter, decide_eq_true_eq] at covered
  obtain ⟨_, ⟨r, ⟨listed, usable⟩, rfl⟩, inside⟩ := covered
  rw [mem_usableBytes]
  exact and_iff_right ⟨r, listed, usable, inside⟩

theorem total_le_iff (regions ranges : List MemoryRange) :
    Coverage.total (ranges.map bytes) ≤
        (Coverage.union (ranges.map bytes) \ Coverage.union ((regions.filter fun r => ¬ r.Usable).map bytes)).card ↔
      ranges.Pairwise (fun left right => Disjoint left.bytes right.bytes) ∧
        ∀ r ∈ ranges, ∀ other ∈ regions, ¬ other.Usable → Disjoint r.bytes other.bytes := by
  rw [Coverage.total_le_card_sdiff, List.pairwise_map]
  simp only [List.forall_mem_map, Coverage.disjoint_union, List.mem_filter, decide_eq_true_eq, and_imp]

/-- The blocks are separate exactly if each byte is counted once at most, and only if it is usable. -/
theorem separate_iff {regions : List MemoryRange} (whole : ∀ r ∈ regions, r.addr.toNat + r.length.toNat ≤ 2^64) :
    Separate regions ↔ ∀ byte, ((kept regions).map bytes).countP (byte ∈ ·) ≤
      if byte ∈ usableBytes regions then 1 else 0 := by
  rw [Separate, ← List.pairwise_map, Coverage.pairwise_disjoint_iff]
  constructor
  · rintro ⟨once, others⟩ byte
    split
    · exact once byte
    · rename_i unusable
      refine Nat.le_of_eq (List.countP_eq_zero.mpr ?_)
      rw [List.forall_mem_map]
      intro block member inside
      rw [decide_eq_true_eq] at inside
      refine unusable ((mem_usableBytes_kept whole member inside).mpr fun r listed other => ?_)
      exact Finset.disjoint_left.mp (others block member r listed other) inside
  · intro once
    refine ⟨fun byte => (once byte).trans (by split <;> omega), ?_⟩
    intro block member other listed unusable
    refine Finset.disjoint_left.mpr fun byte inside inOther => ?_
    have counted : 0 < ((kept regions).map bytes).countP (byte ∈ ·) :=
      List.countP_pos_iff.mpr ⟨_, List.mem_map_of_mem member, decide_eq_true inside⟩
    have usable : byte ∈ usableBytes regions := by
      by_contra unusable
      have none := once byte
      rw [if_neg unusable] at none
      omega
    exact (mem_usableBytes_kept whole member inside).mp usable other listed unusable inOther

end MemoryRange

/-- `basemem + extmem` -/
def countedBytes (mmap : List MemoryMap) (stack : Nat → Option Nat) : Nat :=
  (multibootRead mmap stack).1.toNat + (multibootRead mmap stack).2.toNat

open MemoryRange

theorem countedBytes_eq (mmap : List MemoryMap) (stack : Nat → Option Nat) : countedBytes mmap stack =
    (lowUsable (blocks (mmap.map MemoryMap.region))).toNat +
      (highUsable (blocks (mmap.map MemoryMap.region))).toNat := by
  rw [countedBytes, multibootRead_eq]

/-- No memory is counted that should not be if the blocks are separate, which they are exactly if the sum counts no
    byte twice and none that is not usable. Where it leaves out no usable byte either, and does not wrap, the blocks
    have to be separate. -/
theorem multiboot_counts (mmap : List MemoryMap) (stack : Nat → Option Nat)
    (whole : ∀ map ∈ mmap, map.addr.toNat + map.length.toNat ≤ 2^64) :
    (Separate (mmap.map MemoryMap.region) →
      countedBytes mmap stack ≤ (usableBytes (mmap.map MemoryMap.region)).card) ∧
    (Separate (mmap.map MemoryMap.region) ↔ ∀ byte, ((kept (mmap.map MemoryMap.region)).map bytes).countP (byte ∈ ·) ≤
      if byte ∈ usableBytes (mmap.map MemoryMap.region) then 1 else 0) ∧
    (usableTotal (blocks (mmap.map MemoryMap.region)) < 2^64 →
      usableBytes (mmap.map MemoryMap.region) ⊆ Coverage.union ((kept (mmap.map MemoryMap.region)).map bytes) →
      (countedBytes mmap stack ≤ (usableBytes (mmap.map MemoryMap.region)).card ↔
        Separate (mmap.map MemoryMap.region))) := by
  rw [countedBytes_eq]
  replace whole : ∀ r ∈ mmap.map MemoryMap.region, r.addr.toNat + r.length.toNat ≤ 2^64 := List.forall_mem_map.mpr whole
  generalize mmap.map MemoryMap.region = regions at *
  obtain ⟨below, exactly⟩ := sums_toNat (blocks regions)
  have enough : Separate regions → usableTotal (blocks regions) ≤ (usableBytes regions).card := by
    intro separate
    refine ((total_le_iff regions (kept regions)).mpr separate).trans (Finset.card_le_card ?_)
    exact Finset.sdiff_subset_sdiff (Coverage.union_subset (List.forall_mem_map.mpr (kept_covered whole)))
      (Finset.Subset.refl _)
  refine ⟨fun separate => below.trans (enough separate), separate_iff whole, ?_⟩
  intro small none
  rw [exactly small]
  refine ⟨fun counted => (total_le_iff regions (kept regions)).mp (counted.trans (Finset.card_le_card ?_)), enough⟩
  intro byte usable
  refine Finset.mem_sdiff.mpr ⟨none usable, ?_⟩
  exact (Finset.mem_sdiff.mp usable).2

def extendedMap (second : BitVec 32) : List MemoryMap :=
  [⟨0, 0, 0xa0000, 0, mbTypeUsable⟩, ⟨0xa0000, 0, 0x60000, 0, mbTypeReserved⟩,
    ⟨0x100000, 0, 0x2000, 0, mbTypeUsable⟩, ⟨second, 0, 0x2000, 0, mbTypeUsable⟩]

/-- A page that two entries hold is counted twice. -/
theorem multiboot_overcounts : ¬ countedBytes (extendedMap 0x101000) (fun _ => none) ≤
    (usableBytes ((extendedMap 0x101000).map MemoryMap.region)).card := by
  have counted : countedBytes (extendedMap 0x101000) (fun _ => none) = 0xa0000 + 0x4000 := by decide +kernel
  have covered : usableBytes ((extendedMap 0x101000).map MemoryMap.region) ⊆
      Finset.Ico 0 0xa0000 ∪ Finset.Ico 0x100000 0x103000 := by
    intro byte member
    obtain ⟨⟨r, listed, usable, inside⟩, -⟩ := mem_usableBytes.mp member
    rw [Finset.mem_union, Finset.mem_Ico, Finset.mem_Ico]
    rw [bytes, Finset.mem_Ico] at inside
    simp only [extendedMap, List.map_cons, List.map_nil, List.mem_cons, List.not_mem_nil, or_false] at listed
    rcases listed with rfl | rfl | rfl | rfl
    · change 0 ≤ byte ∧ byte < 0xa0000 at inside
      omega
    · exact absurd usable (by decide)
    · change 0x100000 ≤ byte ∧ byte < 0x102000 at inside
      omega
    · change 0x101000 ≤ byte ∧ byte < 0x103000 at inside
      omega
  have fewer := (Finset.card_le_card covered).trans (Finset.card_union_le _ _)
  rw [Nat.card_Ico, Nat.card_Ico] at fewer
  omega

theorem multiboot_counts_touching : countedBytes (extendedMap 0x102000) (fun _ => none) ≤
    (usableBytes ((extendedMap 0x102000).map MemoryMap.region)).card := by
  have apart : (kept ((extendedMap 0x102000).map MemoryMap.region)).Pairwise Apart ∧
      ∀ r ∈ kept ((extendedMap 0x102000).map MemoryMap.region),
        ∀ other ∈ (extendedMap 0x102000).map MemoryMap.region, ¬ other.Usable → r.Apart other := by
    decide +kernel
  refine (multiboot_counts (extendedMap 0x102000) (fun _ => none) (by decide)).1 ⟨apart.1.imp Apart.disjoint, ?_⟩
  intro r member other listed unusable
  exact (apart.2 r member other listed unusable).disjoint

end Jos
