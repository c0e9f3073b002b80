import Mathlib.Data.BitVec
import Mathlib.Data.Finset.Card

namespace Coverage

variable {α : Type*}

def total (sets : List (Finset α)) : Nat := (sets.map Finset.card).sum

@[simp] theorem total_nil : total ([] : List (Finset α)) = 0 := rfl

@[simp] theorem total_cons (s : Finset α) (sets : List (Finset α)) : total (s :: sets) = s.card + total sets := by
  rw [total, List.map_cons, List.sum_cons]
  rfl

variable [DecidableEq α]

def union (sets : List (Finset α)) : Finset α := sets.foldr (· ∪ ·) ∅

@[simp] theorem union_nil : union ([] : List (Finset α)) = ∅ := rfl

@[simp] theorem union_cons (s : Finset α) (sets : List (Finset α)) : union (s :: sets) = s ∪ union sets := rfl

theorem mem_union {sets : List (Finset α)} {x : α} : x ∈ union sets ↔ ∃ s ∈ sets, x ∈ s := by
  induction sets with
  | nil => simp
  | cons s sets ih => simp [ih]

theorem union_subset {sets : List (Finset α)} {s : Finset α} (inside : ∀ t ∈ sets, t ⊆ s) : union sets ⊆ s := by
  intro x member
  obtain ⟨t, listed, inT⟩ := mem_union.mp member
  exact inside t listed inT

theorem disjoint_union {s : Finset α} {sets : List (Finset α)} :
    Disjoint s (union sets) ↔ ∀ t ∈ sets, Disjoint s t := by
  induction sets with
  | nil => simp
  | cons t sets ih => simp [Finset.disjoint_union_right, ih]

theorem union_disjoint {s : Finset α} {sets : List (Finset α)} :
    Disjoint (union sets) s ↔ ∀ t ∈ sets, Disjoint t s := by
  simp only [disjoint_comm, disjoint_union]

theorem card_union_le (sets : List (Finset α)) : (union sets).card ≤ total sets := by
  induction sets with
  | nil => simp
  | cons s sets ih =>
    rw [union_cons, total_cons]
    exact (Finset.card_union_le _ _).trans (Nat.add_le_add_left ih _)

theorem card_union_eq (sets : List (Finset α)) : (union sets).card = total sets ↔ sets.Pairwise Disjoint := by
  induction sets with
  | nil => simp
  | cons s sets ih =>
    have rest := card_union_le sets
    have split := Finset.card_union_add_card_inter s (union sets)
    rw [union_cons, total_cons, List.pairwise_cons, ← disjoint_union, ← ih, Finset.disjoint_iff_inter_eq_empty,
      ← Finset.card_eq_zero]
    omega

/-- What is counted is at most what is covered and not excluded exactly if each element is counted once, and none
    that is excluded. -/
theorem total_le_card_sdiff (sets : List (Finset α)) (excluded : Finset α) :
    total sets ≤ (union sets \ excluded).card ↔
      sets.Pairwise Disjoint ∧ ∀ s ∈ sets, Disjoint s excluded := by
  have counted := card_union_le sets
  have split := Finset.card_sdiff_add_card_inter (union sets) excluded
  rw [← card_union_eq, ← union_disjoint, Finset.disjoint_iff_inter_eq_empty, ← Finset.card_eq_zero]
  omega

theorem pairwise_disjoint_iff (sets : List (Finset α)) :
    sets.Pairwise Disjoint ↔ ∀ x, sets.countP (x ∈ ·) ≤ 1 := by
  induction sets with
  | nil => simp
  | cons s sets ih =>
    rw [List.pairwise_cons, ih]
    constructor
    · rintro ⟨apart, once⟩ x
      rw [List.countP_cons]
      split
      · rename_i inside
        have none : sets.countP (x ∈ ·) = 0 := List.countP_eq_zero.mpr fun t listed inT =>
          Finset.disjoint_left.mp (apart t listed) (of_decide_eq_true inside) (of_decide_eq_true inT)
        omega
      · exact once x
    · intro once
      refine ⟨fun t listed => Finset.disjoint_left.mpr fun x inside inT => ?_, fun x => ?_⟩
      · have counted := once x
        rw [List.countP_cons, if_pos (decide_eq_true inside)] at counted
        have positive : 0 < sets.countP (x ∈ ·) := List.countP_pos_iff.mpr ⟨t, listed, decide_eq_true inT⟩
        omega
      · exact (List.sublist_cons_self s sets).countP_le.trans (once x)

end Coverage
