import Mathlib.Data.BitVec
import Mathlib.Tactic.Abel

namespace Bytes

variable {w : Nat}

abbrev Memory (w : Nat) := BitVec w → BitVec 8

def Within (start : BitVec w) (n : Nat) (a : BitVec w) : Prop := start.toNat ≤ a.toNat ∧ a.toNat < start.toNat + n

instance (start : BitVec w) (n : Nat) (a : BitVec w) : Decidable (Within start n a) := inferInstanceAs (Decidable (_ ∧ _))

def Fits (start : BitVec w) (n : Nat) : Prop := start.toNat + n ≤ 2^w

instance (start : BitVec w) (n : Nat) : Decidable (Fits start n) := inferInstanceAs (Decidable (_ ≤ _))

/-- `n` bytes from `src` are at `dst`. All of them are read before any of them is written. -/
def copy (m : Memory w) (dst src : BitVec w) (n : Nat) : Memory w := fun a =>
  if Within dst n a then m (src + (a - dst)) else m a

def fill (m : Memory w) (dst : BitVec w) (byte : BitVec 8) (n : Nat) : Memory w := fun a =>
  if Within dst n a then byte else m a

section Addresses

variable {start a : BitVec w} {n i : Nat}

theorem within_zero : ¬ Within start 0 a := by
  intro within
  have low := within.1
  have high := within.2
  omega

theorem toNat_add_ofNat (small : start.toNat + i < 2^w) : (start + BitVec.ofNat w i).toNat = start.toNat + i := by
  rw [BitVec.toNat_add, BitVec.toNat_ofNat, Nat.mod_eq_of_lt (by omega : i < 2^w), Nat.mod_eq_of_lt small]

theorem toNat_sub_of_le (le : start.toNat ≤ a.toNat) : (a - start).toNat = a.toNat - start.toNat := by
  have small := a.isLt
  rw [BitVec.toNat_sub, show 2^w - start.toNat + a.toNat = 2^w + (a.toNat - start.toNat) by omega, Nat.add_mod_left,
    Nat.mod_eq_of_lt (by omega)]

theorem toNat_source {src : BitVec w} (fits : Fits src n) (within : Within start n a) :
    (src + (a - start)).toNat = src.toNat + (a.toNat - start.toNat) := by
  have low := within.1
  have high := within.2
  rw [Fits] at fits
  rw [BitVec.toNat_add, toNat_sub_of_le low, Nat.mod_eq_of_lt (by omega)]

theorem fits_zero : Fits start 0 := Nat.le_of_lt start.isLt

theorem Fits.front {front back : Nat} (fits : Fits start (front + back)) : Fits start front := by
  rw [Fits] at fits ⊢
  omega

/-- The part of the range behind `front` bytes, which begins at 0 if there is nothing left. -/
theorem Fits.back {front back : Nat} (fits : Fits start (front + back)) : Fits (start + BitVec.ofNat w front) back := by
  cases back with
  | zero => exact fits_zero
  | succ back =>
    rw [Fits] at fits ⊢
    rw [toNat_add_ofNat (by omega)]
    omega

end Addresses

section Copies

variable {m : Memory w} {dst src a : BitVec w} {n front back : Nat} {byte : BitVec 8}

@[simp] theorem copy_zero : copy m dst src 0 = m := funext fun _ => if_neg within_zero

@[simp] theorem fill_zero : fill m dst byte 0 = m := funext fun _ => if_neg within_zero

theorem copy_within (within : Within dst n a) : copy m dst src n a = m (src + (a - dst)) := if_pos within

theorem copy_outside (outside : ¬ Within dst n a) : copy m dst src n a = m a := if_neg outside

theorem fill_within (within : Within dst n a) : fill m dst byte n a = byte := if_pos within

theorem fill_outside (outside : ¬ Within dst n a) : fill m dst byte n a = m a := if_neg outside

theorem within_back (fits : Fits dst (front + (back + 1))) : Within (dst + BitVec.ofNat w front) (back + 1) a ↔
    dst.toNat + front ≤ a.toNat ∧ a.toNat < dst.toNat + (front + (back + 1)) := by
  rw [Fits] at fits
  rw [Within, toNat_add_ofNat (by omega)]
  omega

theorem source_back : src + BitVec.ofNat w front + (a - (dst + BitVec.ofNat w front)) = src + (a - dst) := by
  abel

theorem copy_front (fitsDst : Fits dst (front + back)) (fitsSrc : Fits src (front + back))
    (order : dst.toNat ≤ src.toNat ∨ src.toNat + (front + back) ≤ dst.toNat) :
    copy (copy m dst src front) (dst + BitVec.ofNat w front) (src + BitVec.ofNat w front) back =
      copy m dst src (front + back) := by
  cases back with
  | zero => rw [copy_zero, Nat.add_zero]
  | succ back =>
    funext a
    by_cases late : Within (dst + BitVec.ofNat w front) (back + 1) a
    · have bounds := (within_back fitsDst).mp late
      have within : Within dst (front + (back + 1)) a := ⟨by omega, bounds.2⟩
      rw [copy_within late, source_back, copy_within within]
      apply copy_outside
      have source := toNat_source fitsSrc within
      rintro ⟨low, high⟩
      omega
    · rw [copy_outside late]
      rw [within_back fitsDst] at late
      by_cases early : Within dst front a
      · have bounds := early
        rw [Within] at bounds
        rw [copy_within early, copy_within ⟨bounds.1, by omega⟩]
      · rw [copy_outside early, copy_outside]
        rw [Within] at early ⊢
        omega

theorem copy_back (fitsDst : Fits dst (front + back)) (fitsSrc : Fits src (front + back))
    (order : src.toNat ≤ dst.toNat) :
    copy (copy m (dst + BitVec.ofNat w front) (src + BitVec.ofNat w front) back) dst src front =
      copy m dst src (front + back) := by
  cases back with
  | zero => rw [copy_zero, Nat.add_zero]
  | succ back =>
    funext a
    by_cases early : Within dst front a
    · have bounds := early
      rw [Within] at bounds
      have within : Within dst (front + (back + 1)) a := ⟨bounds.1, by omega⟩
      rw [copy_within early, copy_within within]
      apply copy_outside
      have source := toNat_source fitsSrc within
      rw [within_back fitsDst]
      omega
    · rw [copy_outside early]
      rw [Within] at early
      by_cases late : Within (dst + BitVec.ofNat w front) (back + 1) a
      · have bounds := (within_back fitsDst).mp late
        rw [copy_within late, source_back, copy_within ⟨by omega, bounds.2⟩]
      · rw [copy_outside late, copy_outside]
        rw [within_back fitsDst] at late
        rw [Within]
        omega

theorem fill_front (fits : Fits dst (front + back)) :
    fill (fill m dst byte front) (dst + BitVec.ofNat w front) byte back = fill m dst byte (front + back) := by
  cases back with
  | zero => rw [fill_zero, Nat.add_zero]
  | succ back =>
    funext a
    have split := @within_back w dst a front back fits
    by_cases late : Within (dst + BitVec.ofNat w front) (back + 1) a
    · have bounds := split.mp late
      rw [fill_within late, fill_within ⟨by omega, bounds.2⟩]
    · rw [fill_outside late]
      rw [split] at late
      by_cases early : Within dst front a
      · have bounds := early
        rw [Within] at bounds
        rw [fill_within early, fill_within ⟨bounds.1, by omega⟩]
      · rw [fill_outside early, fill_outside]
        rw [Within] at early ⊢
        omega

end Copies

section Strings

variable {m : Memory w} {p : BitVec w} {c : BitVec 8} {s : List (BitVec 8)}

structure StringAt (m : Memory w) (p : BitVec w) (s : List (BitVec 8)) : Prop where
  chars : ∀ (j : Nat) (c : BitVec 8), s[j]? = some c → m (p + BitVec.ofNat w j) = c
  ends : m (p + BitVec.ofNat w s.length) = 0
  nonzero : 0 ∉ s

namespace StringAt

theorem tail (string : StringAt m p (c :: s)) : StringAt m (p + BitVec.ofNat w 1) s := by
  have next : ∀ j, p + BitVec.ofNat w 1 + BitVec.ofNat w j = p + BitVec.ofNat w (j + 1) := by
    intro j
    rw [BitVec.add_assoc, ← BitVec.ofNat_add, Nat.add_comm 1 j]
  refine ⟨fun j c found => ?_, ?_, fun member => string.nonzero (List.mem_cons_of_mem _ member)⟩
  · rw [next]
    exact string.chars (j + 1) c found
  · rw [next]
    exact string.ends

theorem head (string : StringAt m p (c :: s)) : m p = c ∧ c ≠ 0 := by
  have here := string.chars 0 c rfl
  rw [BitVec.add_zero] at here
  exact ⟨here, fun zero => string.nonzero (zero ▸ List.mem_cons_self ..)⟩

theorem nil_iff : StringAt m p [] ↔ m p = 0 := by
  constructor
  · intro string
    have here := string.ends
    rwa [List.length_nil, BitVec.add_zero] at here
  · intro zero
    refine ⟨fun j c found => absurd found (by simp), ?_, List.not_mem_nil⟩
    rwa [List.length_nil, BitVec.add_zero]

theorem cons (here : m p = c) (nonzero : c ≠ 0) (rest : StringAt m (p + BitVec.ofNat w 1) s) : StringAt m p (c :: s) := by
  have next : ∀ j, p + BitVec.ofNat w 1 + BitVec.ofNat w j = p + BitVec.ofNat w (j + 1) := by
    intro j
    rw [BitVec.add_assoc, ← BitVec.ofNat_add, Nat.add_comm 1 j]
  refine ⟨fun j d found => ?_, ?_, fun zero => ?_⟩
  · cases j with
    | zero =>
      cases found
      rw [BitVec.add_zero, here]
    | succ j =>
      rw [← next]
      exact rest.chars j d found
  · rw [List.length_cons, ← next]
    exact rest.ends
  · rcases List.mem_cons.mp zero with first | later
    · exact nonzero first.symm
    · exact rest.nonzero later

theorem short (string : StringAt m p s) : s.length < 2^w := by
  by_contra long
  have inside : s.length % 2^w < s.length := (Nat.mod_lt _ (Nat.two_pow_pos w)).trans_le (Nat.not_lt.mp long)
  have again := string.chars _ _ (List.getElem?_eq_getElem inside)
  have same : BitVec.ofNat w (s.length % 2^w) = BitVec.ofNat w s.length :=
    BitVec.eq_of_toNat_eq (by rw [BitVec.toNat_ofNat, BitVec.toNat_ofNat, Nat.mod_mod])
  rw [same, string.ends] at again
  exact string.nonzero (again ▸ List.getElem_mem inside)

theorem congr {m' : Memory w} {p' : BitVec w} (string : StringAt m p s)
    (same : ∀ j ≤ s.length, m' (p' + BitVec.ofNat w j) = m (p + BitVec.ofNat w j)) : StringAt m' p' s := by
  refine ⟨fun j c found => ?_, ?_, string.nonzero⟩
  · obtain ⟨inside, -⟩ := List.getElem?_eq_some_iff.mp found
    rw [same j inside.le]
    exact string.chars j c found
  · rw [same _ (Nat.le_refl _)]
    exact string.ends

theorem unique {s' : List (BitVec 8)} (string : StringAt m p s) (string' : StringAt m p s') : s = s' := by
  induction s generalizing p s' with
  | nil =>
    cases s' with
    | nil => rfl
    | cons c s' =>
      have head := string'.head
      rw [nil_iff.mp string] at head
      exact absurd head.1.symm head.2
  | cons c s ih =>
    have head := string.head
    cases s' with
    | nil =>
      rw [nil_iff.mp string'] at head
      exact absurd head.1.symm head.2
    | cons c' s' =>
      rw [ih string.tail string'.tail, ← head.1, string'.head.1]

instance (m : Memory w) (p : BitVec w) (s : List (BitVec 8)) : Decidable (StringAt m p s) :=
  decidable_of_iff ((∀ j (inside : j < s.length), m (p + BitVec.ofNat w j) = s.get ⟨j, inside⟩) ∧
      m (p + BitVec.ofNat w s.length) = 0 ∧ 0 ∉ s) (by
    constructor
    · rintro ⟨chars, ends, nonzero⟩
      refine ⟨fun j c found => ?_, ends, nonzero⟩
      obtain ⟨inside, rfl⟩ := List.getElem?_eq_some_iff.mp found
      exact chars j inside
    · intro string
      exact ⟨fun j inside => string.chars j _ (List.getElem?_eq_getElem inside), string.ends, string.nonzero⟩)

end StringAt

end Strings

end Bytes
