import Mathlib.Data.BitVec
import Mathlib.Data.List.Basic
import Mathlib.Tactic.Common

structure Bus (M : Type) where
  get : M → BitVec 64 → Option (BitVec 8)
  set : M → BitVec 64 → BitVec 8 → Option M

namespace Bus

variable {M : Type}

/-- The lowest `n` bytes of a word, the lowest first. -/
def bytes (w : BitVec 64) : Nat → List (BitVec 8)
  | 0 => []
  | n + 1 => w.setWidth 8 :: bytes (w >>> 8) n

def value : List (BitVec 8) → BitVec 64
  | [] => 0
  | byte :: rest => byte.setWidth 64 ||| value rest <<< 8

@[simp] theorem bytes_length (w : BitVec 64) (n : Nat) : (bytes w n).length = n := by
  induction n generalizing w with
  | zero => rfl
  | succ n ih => rw [bytes, List.length_cons, ih]

theorem bytes_getElem? (w : BitVec 64) {n k i : Nat} (within : i < n) (inside : i < k) :
    (bytes w n)[i]? = (bytes w k)[i]? := by
  induction i generalizing w n k with
  | zero =>
    obtain ⟨n, rfl⟩ := Nat.exists_eq_succ_of_ne_zero (by omega : n ≠ 0)
    obtain ⟨k, rfl⟩ := Nat.exists_eq_succ_of_ne_zero (by omega : k ≠ 0)
    rfl
  | succ i ih =>
    obtain ⟨n, rfl⟩ := Nat.exists_eq_succ_of_ne_zero (by omega : n ≠ 0)
    obtain ⟨k, rfl⟩ := Nat.exists_eq_succ_of_ne_zero (by omega : k ≠ 0)
    rw [bytes, bytes, List.getElem?_cons_succ, List.getElem?_cons_succ]
    exact ih (w >>> 8) (by omega) (by omega)

theorem value_bytes_toNat (w : BitVec 64) {n : Nat} (small : n ≤ 8) :
    (value (bytes w n)).toNat = w.toNat % 2^(8 * n) := by
  induction n generalizing w with
  | zero => simp [bytes, value, Nat.mod_one]
  | succ n ih =>
    have rest := ih (w >>> 8) (by omega)
    rw [BitVec.toNat_ushiftRight, Nat.shiftRight_eq_div_pow] at rest
    have limit : 2^(8 * n) ≤ 2^56 := Nat.pow_le_pow_right (by omega) (by omega)
    have bound : w.toNat / 2^8 % 2^(8 * n) < 2^(8 * n) := Nat.mod_lt _ (Nat.two_pow_pos _)
    have shifted : (value (bytes (w >>> 8) n) <<< 8).toNat = 2^8 * (w.toNat / 2^8 % 2^(8 * n)) := by
      rw [BitVec.toNat_shiftLeft, rest, Nat.shiftLeft_eq]
      omega
    have low : ((w.setWidth 8).setWidth 64 : BitVec 64).toNat = w.toNat % 2^8 := by
      rw [BitVec.toNat_setWidth, BitVec.toNat_setWidth]
      omega
    rw [bytes, value, BitVec.toNat_or, shifted, low, Nat.or_comm,
      ← Nat.two_pow_add_eq_or_of_lt (Nat.mod_lt _ (by decide)), Nat.add_comm, ← Nat.mod_mul,
      show 8 * (n + 1) = 8 + 8 * n by omega, Nat.pow_add]

theorem value_bytes (w : BitVec 64) : value (bytes w 8) = w := by
  apply BitVec.eq_of_toNat_eq
  rw [value_bytes_toNat w (by decide)]
  exact Nat.mod_eq_of_lt w.isLt

theorem words_length (words : List (BitVec 64)) : (words.flatMap (bytes · 8)).length = 8 * words.length := by
  induction words with
  | nil => rfl
  | cons first rest ih =>
    rw [List.flatMap_cons, List.length_append, bytes_length, ih, List.length_cons]
    omega

theorem words_getElem? {words : List (BitVec 64)} {w : BitVec 64} {j i : Nat} (member : words[j]? = some w)
    (inside : i < 8) : (words.flatMap (bytes · 8))[8 * j + i]? = (bytes w 8)[i]? := by
  induction words generalizing j with
  | nil => simp at member
  | cons first rest ih =>
    rw [List.flatMap_cons]
    cases j with
    | zero =>
      obtain rfl : first = w := by simpa using member
      rw [Nat.mul_zero, Nat.zero_add, List.getElem?_append_left (by rwa [bytes_length])]
    | succ j =>
      rw [List.getElem?_append_right (by rw [bytes_length]; omega), bytes_length,
        show 8 * (j + 1) + i - 8 = 8 * j + i by omega]
      exact ih (by simpa using member)

variable (bus : Bus M)

def fetch (m : M) (a : BitVec 64) : Nat → Option (List (BitVec 8))
  | 0 => some []
  | n + 1 => do
    let byte ← bus.get m a
    let rest ← fetch m (a + 1) n
    return byte :: rest

def put (m : M) (a : BitVec 64) : List (BitVec 8) → Option M
  | [] => some m
  | byte :: rest => do
    let m ← bus.set m a byte
    put m (a + 1) rest

def load (n : Nat) (m : M) (a : BitVec 64) : Option (BitVec 64) := (bus.fetch m a n).map value

/-- The lowest `n` bytes of `w` go to the addresses from `a` on. -/
def store (n : Nat) (m : M) (a w : BitVec 64) : Option M := bus.put m a (bytes w n)

structure Write where
  offset : BitVec 64
  size : Nat
  value : BitVec 64

def writes (base : BitVec 64) (list : List Write) (m : M) : Option M :=
  list.foldlM (fun m write => bus.store write.size m (base + write.offset) write.value) m

theorem writes_append (base : BitVec 64) (first later : List Write) (m : M) :
    bus.writes base (first ++ later) m = (bus.writes base first m).bind (bus.writes base later) := by
  rw [writes, List.foldlM_append]
  rfl

variable {bus}

theorem offset_succ (a : BitVec 64) (i : Nat) : a + BitVec.ofNat 64 (i + 1) = a + 1 + BitVec.ofNat 64 i := by
  rw [BitVec.add_assoc, Nat.add_comm, BitVec.ofNat_add]
  rfl

theorem fetch_congr {m m' : M} {a : BitVec 64} {n : Nat}
    (same : ∀ i < n, bus.get m' (a + BitVec.ofNat 64 i) = bus.get m (a + BitVec.ofNat 64 i)) :
    bus.fetch m' a n = bus.fetch m a n := by
  induction n generalizing a with
  | zero => rfl
  | succ n ih =>
    have first := same 0 (by omega)
    rw [BitVec.add_zero] at first
    have rest : bus.fetch m' (a + 1) n = bus.fetch m (a + 1) n := by
      refine ih fun i inside => ?_
      have next := same (i + 1) (by omega)
      rwa [offset_succ] at next
    rw [fetch, fetch, first, rest]

theorem fetch_eq {m : M} {a w : BitVec 64} {n : Nat}
    (there : ∀ i < n, bus.get m (a + BitVec.ofNat 64 i) = (bytes w n)[i]?) : bus.fetch m a n = some (bytes w n) := by
  induction n generalizing a w with
  | zero => rfl
  | succ n ih =>
    have first := there 0 (by omega)
    rw [BitVec.add_zero, bytes, List.getElem?_cons_zero] at first
    have rest : bus.fetch m (a + 1) n = some (bytes (w >>> 8) n) := by
      refine ih fun i inside => ?_
      have next := there (i + 1) (by omega)
      rwa [offset_succ, bytes, List.getElem?_cons_succ] at next
    rw [fetch, first, rest]
    rfl

/-- A bus on which stores keep `inv`, are read back, and change only the bytes at addresses that `overlaps`
    relates to theirs. -/
structure Lawful (bus : Bus M) (inv : M → Prop) (overlaps : BitVec 64 → BitVec 64 → Prop) : Prop where
  set_inv : ∀ m a byte m', inv m → bus.set m a byte = some m' → inv m'
  get_same : ∀ m a byte m', inv m → bus.set m a byte = some m' → bus.get m' a = some byte
  get_other : ∀ m a byte m' b, inv m → bus.set m a byte = some m' → ¬ overlaps a b → bus.get m' b = bus.get m b

/-- No byte of the `n` from `a` on is one of the `k` from `b` on. -/
def Apart (overlaps : BitVec 64 → BitVec 64 → Prop) (a : BitVec 64) (n : Nat) (b : BitVec 64) (k : Nat) : Prop :=
  ∀ i < n, ∀ j < k, ¬ overlaps (a + BitVec.ofNat 64 i) (b + BitVec.ofNat 64 j)

/-- The `n` bytes from `a` on are different ones. -/
def Distinct (overlaps : BitVec 64 → BitVec 64 → Prop) (a : BitVec 64) (n : Nat) : Prop :=
  ∀ i < n, ∀ j < n, i < j → ¬ overlaps (a + BitVec.ofNat 64 j) (a + BitVec.ofNat 64 i)

theorem Distinct.apart {overlaps : BitVec 64 → BitVec 64 → Prop} {a : BitVec 64} {n o o' k k' : Nat}
    (distinct : Distinct overlaps a n) (below : o' + k' ≤ o) (inside : o + k ≤ n) :
    Apart overlaps (a + BitVec.ofNat 64 o) k (a + BitVec.ofNat 64 o') k' := by
  intro i small j small'
  rw [BitVec.add_assoc, BitVec.add_assoc, ← BitVec.ofNat_add, ← BitVec.ofNat_add]
  exact distinct (o' + j) (by omega) (o + i) (by omega) (by omega)

theorem Distinct.part {overlaps : BitVec 64 → BitVec 64 → Prop} {a : BitVec 64} {n o k : Nat}
    (distinct : Distinct overlaps a n) (inside : o + k ≤ n) : Distinct overlaps (a + BitVec.ofNat 64 o) k := by
  intro i small j small' before
  rw [BitVec.add_assoc, BitVec.add_assoc, ← BitVec.ofNat_add, ← BitVec.ofNat_add]
  exact distinct (o + i) (by omega) (o + j) (by omega) (by omega)

theorem Apart.part {overlaps : BitVec 64 → BitVec 64 → Prop} {a b : BitVec 64} {n k o k' : Nat}
    (apart : Apart overlaps a n b k) (inside : o + k' ≤ k) : Apart overlaps a n (b + BitVec.ofNat 64 o) k' := by
  intro i small j small'
  rw [BitVec.add_assoc, ← BitVec.ofNat_add]
  exact apart i small (o + j) (by omega)

namespace Lawful

variable {inv : M → Prop} {overlaps : BitVec 64 → BitVec 64 → Prop}

theorem put_inv (lawful : bus.Lawful inv overlaps) {m m' : M} {a : BitVec 64} {list : List (BitVec 8)} (good : inv m)
    (done : bus.put m a list = some m') : inv m' := by
  induction list generalizing m a with
  | nil =>
    cases done
    exact good
  | cons byte rest ih =>
    obtain ⟨middle, first, later⟩ := Option.bind_eq_some_iff.mp done
    exact ih (lawful.set_inv m a byte middle good first) later

theorem put_other (lawful : bus.Lawful inv overlaps) {m m' : M} {a b : BitVec 64} {list : List (BitVec 8)}
    (good : inv m) (done : bus.put m a list = some m')
    (apart : ∀ i < list.length, ¬ overlaps (a + BitVec.ofNat 64 i) b) : bus.get m' b = bus.get m b := by
  induction list generalizing m a with
  | nil =>
    cases done
    rfl
  | cons byte rest ih =>
    obtain ⟨middle, first, later⟩ := Option.bind_eq_some_iff.mp done
    have here := apart 0 (by simp)
    rw [BitVec.add_zero] at here
    rw [ih (lawful.set_inv m a byte middle good first) later, lawful.get_other m a byte middle b good first here]
    intro i inside
    have next := apart (i + 1) (by simpa using inside)
    rwa [offset_succ] at next

theorem put_same (lawful : bus.Lawful inv overlaps) {m m' : M} {a : BitVec 64} {list : List (BitVec 8)}
    (good : inv m) (distinct : Distinct overlaps a list.length) (done : bus.put m a list = some m') {i : Nat}
    (inside : i < list.length) : bus.get m' (a + BitVec.ofNat 64 i) = list[i]? := by
  induction list generalizing m a i with
  | nil => simp at inside
  | cons byte rest ih =>
    obtain ⟨middle, first, later⟩ := Option.bind_eq_some_iff.mp done
    have kept := lawful.set_inv m a byte middle good first
    cases i with
    | zero =>
      rw [BitVec.add_zero, lawful.put_other kept later, lawful.get_same m a byte middle good first,
        List.getElem?_cons_zero]
      intro j small
      have other := distinct 0 (by simp) (j + 1) (by simpa using small) (by omega)
      rwa [offset_succ, BitVec.add_zero] at other
    | succ i =>
      rw [offset_succ, List.getElem?_cons_succ]
      refine ih kept ?_ later (by simpa using inside)
      intro i small j small' before
      have other := distinct (i + 1) (by simpa using small) (j + 1) (by simpa using small') (by omega)
      rwa [offset_succ, offset_succ] at other

theorem put_words (lawful : bus.Lawful inv overlaps) {m m' : M} {a w : BitVec 64} {words : List (BitVec 64)} {j : Nat}
    (good : inv m) (distinct : Distinct overlaps a (8 * words.length))
    (done : bus.put m a (words.flatMap (bytes · 8)) = some m') (member : words[j]? = some w) :
    bus.load 8 m' (a + BitVec.ofNat 64 (8 * j)) = some w := by
  obtain ⟨inside, -⟩ := List.getElem?_eq_some_iff.mp member
  have total := words_length words
  rw [load, @fetch_eq _ bus m' _ w]
  · rw [Option.map_some, value_bytes]
  · intro i small
    rw [BitVec.add_assoc, ← BitVec.ofNat_add, lawful.put_same good (by rwa [total]) done (by omega),
      words_getElem? member small]

theorem put_done {list : List (BitVec 8)} {m : M} {a : BitVec 64} (lawful : bus.Lawful inv overlaps) (good : inv m)
    (writable : ∀ i < list.length, ∀ m byte, inv m → ∃ m', bus.set m (a + BitVec.ofNat 64 i) byte = some m') :
    ∃ m', bus.put m a list = some m' := by
  induction list generalizing m a with
  | nil => exact ⟨m, rfl⟩
  | cons byte rest ih =>
    obtain ⟨middle, first⟩ := writable 0 (by simp) m byte good
    rw [BitVec.add_zero] at first
    have later : ∃ m', bus.put middle (a + 1) rest = some m' := by
      apply ih (lawful.set_inv m a byte middle good first)
      intro i inside m byte good
      rw [← offset_succ]
      exact writable (i + 1) (by simpa using inside) m byte good
    obtain ⟨m', later⟩ := later
    refine ⟨m', ?_⟩
    rw [put, first]
    exact later

theorem load_apart (lawful : bus.Lawful inv overlaps) {m m' : M} {a b w : BitVec 64} {n k : Nat} (good : inv m)
    (done : bus.store n m a w = some m') (apart : Apart overlaps a n b k) : bus.load k m' b = bus.load k m b := by
  rw [load, load, fetch_congr]
  intro j small
  refine lawful.put_other good done fun i inside => ?_
  rw [bytes_length] at inside
  exact apart i inside j small

theorem load_same (lawful : bus.Lawful inv overlaps) {m m' : M} {a w : BitVec 64} {n k : Nat} (good : inv m)
    (distinct : Distinct overlaps a n) (done : bus.store n m a w = some m') (within : k ≤ n) :
    bus.load k m' a = some (value (bytes w k)) := by
  rw [load, fetch_eq]
  · rfl
  · intro i inside
    rw [lawful.put_same good (by rwa [bytes_length]) done (by rw [bytes_length]; omega)]
    exact bytes_getElem? w (by omega) inside

theorem writes_load (lawful : bus.Lawful inv overlaps) {base : BitVec 64} {writes : List Write} {m m' : M}
    (good : inv m) (apart : writes.Pairwise fun early late =>
      Apart overlaps (base + late.offset) late.size (base + early.offset) early.size)
    (distinct : ∀ write ∈ writes, Distinct overlaps (base + write.offset) write.size)
    (done : bus.writes base writes m = some m') :
    inv m' ∧ (∀ write ∈ writes, ∀ k ≤ write.size,
      bus.load k m' (base + write.offset) = some (value (bytes write.value k))) ∧
      ∀ b k, (∀ write ∈ writes, Apart overlaps (base + write.offset) write.size b k) → bus.load k m' b = bus.load k m b := by
  induction writes generalizing m with
  | nil =>
    cases done
    exact ⟨good, by simp, fun _ _ _ => rfl⟩
  | cons write rest ih =>
    obtain ⟨middle, first, later⟩ := Option.bind_eq_some_iff.mp done
    obtain ⟨fromFirst, among⟩ := List.pairwise_cons.mp apart
    have kept := lawful.put_inv good first
    obtain ⟨good', back, others⟩ := ih kept among (fun other member => distinct other (by simp [member])) later
    refine ⟨good', ?_, ?_⟩
    · intro other member k within
      rcases List.mem_cons.mp member with rfl | member
      · rw [others _ k fun late member i inside j small => fromFirst late member i inside j (by omega)]
        exact lawful.load_same good (distinct other (by simp)) first within
      · exact back other member k within
    · intro b k outside
      rw [others b k fun late member => outside late (by simp [member])]
      exact lawful.load_apart good first (outside write (by simp))

end Lawful

-- Memory without faults

def flat : Bus (BitVec 64 → BitVec 8) where
  get := fun m a => some (m a)
  set := fun m a byte => some (Function.update m a byte)

theorem flat_lawful : flat.Lawful (fun _ => True) Eq where
  set_inv := fun _ _ _ _ _ _ => trivial
  get_same := by
    rintro m a byte _ - ⟨⟩
    exact congrArg some (Function.update_self ..)
  get_other := by
    rintro m a byte _ b - ⟨⟩ different
    exact congrArg some (Function.update_of_ne (Ne.symm different) ..)

end Bus
