import Mathlib.Data.Nat.Nth
import Mathlib.Data.Nat.PrimeFin

-- The sieve of Eratosthenes: a number is a prime if none of the primes found before divides it.

namespace Sieve

/-- The numbers that are left when the multiples of those in `found` are taken away. -/
def Passes (found : List Nat) (m : Nat) : Prop := 2 ≤ m ∧ ∀ q ∈ found, ¬ q ∣ m

structure Least (found : List Nat) (p : Nat) : Prop where
  passes : Passes found p
  least : ∀ m, Passes found m → p ≤ m

noncomputable def primes (n : Nat) : List Nat := (List.range n).map (Nat.nth Nat.Prime)

variable {found : List Nat} {p m n : Nat}

theorem passes_concat : Passes (found ++ [p]) m ↔ Passes found m ∧ ¬ p ∣ m := by
  simp only [Passes, List.forall_mem_append, List.forall_mem_singleton, and_assoc]

theorem Least.prime (least : Least found p) : p.Prime := by
  have two := least.passes.1
  have factor : p.minFac.Prime := Nat.minFac_prime (by omega)
  have passes : Passes found p.minFac :=
    ⟨factor.two_le, fun q member divides => least.passes.2 q member (divides.trans (Nat.minFac_dvd p))⟩
  have same : p.minFac = p := le_antisymm (Nat.minFac_le (by omega)) (least.least _ passes)
  rwa [← same]

theorem Least.eq_nth (least : Least (primes n) p) : p = Nat.nth Nat.Prime n := by
  have prime : ∀ i, (Nat.nth Nat.Prime i).Prime := Nat.nth_mem_of_infinite Nat.infinite_setOfPred_prime
  apply le_antisymm
  · apply least.least
    refine ⟨(prime n).two_le, fun q member divides => ?_⟩
    obtain ⟨i, below, rfl⟩ := List.mem_map.mp member
    have same := (Nat.prime_dvd_prime_iff_eq (prime i) (prime n)).mp divides
    have lower : Nat.nth Nat.Prime i < Nat.nth Nat.Prime n :=
      Nat.nth_strictMono Nat.infinite_setOfPred_prime (List.mem_range.mp below)
    exact lower.ne same
  · have place : Nat.nth Nat.Prime (Nat.count Nat.Prime p) = p := Nat.nth_count least.prime
    have enough : n ≤ Nat.count Nat.Prime p := by
      by_contra few
      have member : p ∈ primes n := List.mem_map.mpr ⟨_, List.mem_range.mpr (not_le.mp few), place⟩
      exact least.passes.2 p member (dvd_refl p)
    rw [← place]
    exact Nat.nth_monotone Nat.infinite_setOfPred_prime enough

theorem Least.primes_succ (least : Least (primes n) p) : primes n ++ [p] = primes (n + 1) := by
  rw [least.eq_nth, primes, primes, List.range_succ, List.map_append, List.map_singleton]

theorem primes_length : (primes n).length = n := by
  rw [primes, List.length_map, List.length_range]

end Sieve
