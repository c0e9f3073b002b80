import Mathlib.Data.List.Range

/-! Places `0, …, n - 1` in a circle. -/

namespace Circular

variable {n start place other : Nat} {p : Nat → Bool}

/-- How many places lie between `start` and `place` on the way up; `start` itself comes last. -/
def distance (n start place : Nat) : Nat := (place + n - 1 - start) % n

/-- The places after `start` in order, up to the one after `start` again. -/
def order (n start : Nat) : List Nat := (List.range (n + 1)).map fun i => (start + 1 + i) % n

theorem distance_eq (inside : start < n) (here : place < n) :
    distance n start place = if start < place then place - start - 1 else place + n - 1 - start := by
  unfold distance
  split
  · rename_i up
    have wraps : place + n - 1 - start = place - start - 1 + n := by omega
    rw [wraps, Nat.add_mod_right, Nat.mod_eq_of_lt (by omega)]
  · rw [Nat.mod_eq_of_lt (by omega)]

theorem distance_lt (here : place < n) : distance n start place < n :=
  Nat.mod_lt _ (by omega)

theorem distance_inj (inside : start < n) (here : place < n) (there : other < n)
    (same : distance n start place = distance n start other) : place = other := by
  rw [distance_eq inside here, distance_eq inside there] at same
  split at same <;> split at same <;> omega

theorem distance_advance {i : Nat} (inside : start < n) (small : i < n) :
    distance n start ((start + 1 + i) % n) = i := by
  rw [distance_eq inside (Nat.mod_lt _ (by omega))]
  by_cases wraps : start + 1 + i < n
  · rw [Nat.mod_eq_of_lt wraps, if_pos (by omega)]
    omega
  · have reduced : (start + 1 + i) % n = start + 1 + i - n := by
      rw [Nat.mod_eq_sub_mod (by omega), Nat.mod_eq_of_lt (by omega)]
    rw [reduced, if_neg (by omega)]
    omega

theorem advance_distance (inside : start < n) (here : place < n) :
    (start + 1 + distance n start place) % n = place :=
  distance_inj inside (Nat.mod_lt _ (by omega)) here (distance_advance inside (distance_lt here))

theorem distance_passed (inside : start < n) (here : place < n) (there : other < n)
    (before : distance n start place < distance n start other) :
    distance n place other < distance n start other := by
  rw [distance_eq inside here, distance_eq inside there] at before
  rw [distance_eq here there, distance_eq inside there]
  split at before <;> split at before <;> split <;> omega

/-- `place` is the first one after `start` with the property. -/
structure First (n : Nat) (p : Nat → Bool) (start place : Nat) : Prop where
  inside : place < n
  holds : p place = true
  least : ∀ other, other < n → p other = true → distance n start place ≤ distance n start other

theorem First.unique (inside : start < n) (first : First n p start place) (first' : First n p start other) :
    place = other :=
  distance_inj inside first.inside first'.inside
    (Nat.le_antisymm (first.least other first'.inside first'.holds) (first'.least place first.inside first.holds))

theorem mem_order (inside : start < n) : place ∈ order n start ↔ place < n := by
  unfold order
  rw [List.mem_map]
  constructor
  · rintro ⟨i, -, rfl⟩
    exact Nat.mod_lt _ (by omega)
  · intro here
    have small : distance n start place < n := distance_lt here
    exact ⟨distance n start place, List.mem_range.mpr (by omega), advance_distance inside here⟩

theorem find?_order_none (inside : start < n) :
    (order n start).find? p = none ↔ ∀ place, place < n → p place ≠ true := by
  rw [List.find?_eq_none]
  exact forall_congr' fun place => imp_congr (mem_order inside) Iff.rfl

theorem First.of_find? (inside : start < n) (found : (order n start).find? p = some place) :
    First n p start place := by
  have here : place < n := (mem_order inside).mp (List.mem_of_find?_eq_some found)
  refine ⟨here, List.find?_some found, ?_⟩
  intro other there holds
  rw [order, List.find?_map, Option.map_eq_some_iff] at found
  obtain ⟨i, first, rfl⟩ := found
  obtain ⟨-, small, earlier⟩ := List.find?_range_eq_some.mp first
  by_contra before
  have beyond : distance n start other < i := by
    by_cases last : i < n
    · rw [distance_advance inside last] at before
      omega
    · have := @distance_lt n start other there
      omega
  have missed := earlier _ beyond
  rw [Function.comp_apply, advance_distance inside there, holds] at missed
  cases missed

theorem find?_order (inside : start < n) : (order n start).find? p = some place ↔ First n p start place := by
  constructor
  · exact First.of_find? inside
  · intro first
    cases found : (order n start).find? p with
    | none => exact absurd first.holds ((find?_order_none inside).mp found place first.inside)
    | some place' => rw [first.unique inside (.of_find? inside found)]

end Circular
