import Mathlib.Data.Finset.Card

namespace Counting

variable {S Q : Type*} [DecidableEq Q]

def count (area : Finset S) (refers : S → Option Q) (target : Q) : Nat :=
  (area.filter (fun place => refers place = some target)).card

theorem count_mono {area : Finset S} {refers refers' : S → Option Q} {target : Q}
    (fewer : ∀ place ∈ area, refers' place = some target → refers place = some target) :
    count area refers' target ≤ count area refers target := by
  apply Finset.card_le_card
  intro place member
  simp only [Finset.mem_filter] at member ⊢
  exact ⟨member.1, fewer place member.1 member.2⟩

theorem count_congr {area : Finset S} {refers refers' : S → Option Q} {target : Q}
    (same : ∀ place ∈ area, refers' place = some target ↔ refers place = some target) :
    count area refers' target = count area refers target :=
  Nat.le_antisymm (count_mono fun place member => (same place member).mp)
    (count_mono fun place member => (same place member).mpr)

theorem count_eq_zero {area : Finset S} {refers : S → Option Q} {target : Q} :
    count area refers target = 0 ↔ ∀ place ∈ area, refers place ≠ some target := by
  simp only [count, Finset.card_eq_zero, Finset.filter_eq_empty_iff, ne_eq]

theorem count_pos {area : Finset S} {refers : S → Option Q} {target : Q} {place : S}
    (member : place ∈ area) (refer : refers place = some target) :
    0 < count area refers target :=
  Finset.card_pos.mpr ⟨place, Finset.mem_filter.mpr ⟨member, refer⟩⟩

/-- Changing one place moves one reference: the counts before and after differ by what it
    referred to and what it refers to now. -/
theorem count_set [DecidableEq S] {area : Finset S} {refers refers' : S → Option Q} {place : S}
    (member : place ∈ area) (others : ∀ other, other ≠ place → refers' other = refers other)
    (target : Q) :
    count area refers' target + (if refers place = some target then 1 else 0) =
      count area refers target + (if refers' place = some target then 1 else 0) := by
  have split : ∀ f : S → Option Q, count area f target =
      count (area.erase place) f target + (if f place = some target then 1 else 0) := by
    intro f
    unfold count
    conv_lhs => rw [← Finset.insert_erase member, Finset.filter_insert]
    split
    · rw [Finset.card_insert_of_notMem (by simp)]
    · rfl
  have rest : count (area.erase place) refers' target = count (area.erase place) refers target :=
    count_congr fun other erased => by rw [others other (Finset.ne_of_mem_erase erased)]
  rw [split refers', split refers, rest]
  omega

end Counting
