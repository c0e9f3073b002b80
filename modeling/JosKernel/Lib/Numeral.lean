import Mathlib.Data.Nat.Digits.Lemmas

/-! Numerals: the digits of a number, the most significant one first. -/

namespace Numeral

variable {base n m k : Nat}

def digits (base n : Nat) : List Nat := if n = 0 then [0] else (Nat.digits base n).reverse

theorem digits_small (small : n < base) : digits base n = [n] := by
  unfold digits
  split
  · rename_i zero
    rw [zero]
  · rename_i nonzero
    rw [Nat.digits_of_lt base n nonzero small, List.reverse_singleton]

/-- The last digit is the remainder, and the others are those of the quotient. -/
theorem digits_step (two : 1 < base) (large : base ≤ n) : digits base n = digits base (n / base) ++ [n % base] := by
  have positive : 0 < n := by omega
  have quotient : n / base ≠ 0 := (Nat.div_pos large (by omega)).ne'
  unfold digits
  rw [if_neg positive.ne', if_neg quotient, Nat.digits_def' two positive, List.reverse_cons]

theorem digits_lt (two : 1 < base) {d : Nat} (member : d ∈ digits base n) : d < base := by
  unfold digits at member
  split at member
  · rw [List.mem_singleton.mp member]
    omega
  · exact Nat.digits_lt_base two (List.mem_reverse.mp member)

theorem digits_ne_nil (base n : Nat) : digits base n ≠ [] := by
  unfold digits
  split
  · simp
  · rename_i nonzero
    simpa [Nat.digits_eq_nil_iff_eq_zero] using nonzero

def value (base : Nat) (ds : List Nat) : Nat := ds.foldl (fun n d => n * base + d) 0

theorem value_append (base : Nat) (ds : List Nat) (d : Nat) : value base (ds ++ [d]) = value base ds * base + d := by
  rw [value, value, List.foldl_append]
  rfl

theorem value_digits (two : 1 < base) (n : Nat) : value base (digits base n) = n := by
  induction n using Nat.strongRecOn with
  | ind n ih =>
    by_cases small : n < base
    · rw [digits_small small]
      simp [value]
    · rw [digits_step two (by omega), value_append, ih (n / base) (Nat.div_lt_self (by omega) two), Nat.mul_comm]
      exact Nat.div_add_mod n base

theorem digits_inj (two : 1 < base) (same : digits base n = digits base m) : n = m := by
  rw [← value_digits two n, same, value_digits two m]

theorem digits_head (positive : 0 < n) {d : Nat} {ds : List Nat} (first : digits base n = d :: ds) : d ≠ 0 := by
  have nonzero : n ≠ 0 := by omega
  rw [digits, if_neg nonzero] at first
  have last := Nat.getLast_digit_ne_zero base nonzero
  have ends : (Nat.digits base n).getLast? = some d := by
    rw [← List.head?_reverse, first, List.head?_cons]
  rw [List.getLast?_eq_some_getLast (Nat.digits_ne_nil_iff_ne_zero.mpr nonzero)] at ends
  rwa [← Option.some.inj ends]

theorem digits_length_le (two : 1 < base) (positive : 0 < k) : (digits base n).length ≤ k ↔ n < base ^ k := by
  unfold digits
  split
  · rename_i zero
    rw [zero, List.length_singleton]
    exact iff_of_true positive (Nat.pow_pos (by omega))
  · rw [List.length_reverse]
    exact Nat.digits_length_le_iff two n

end Numeral
