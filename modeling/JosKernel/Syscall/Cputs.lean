import JosKernel.Console.Printfmt
import JosKernel.Env.Booted
import JosKernel.Pmap.Access
import JosKernel.Sched.Slots
import JosKernel.Syscall.Outcomes
import JosKernel.Syscall.Table

namespace Jos

variable {k : Kernel} {m : Memory} {g : Layout} {c root : Nat} {s len : Word}

/-- A load by the kernel while it uses the tables under `root`. -/
def Memory.loadByte (m : Memory) (root : Nat) (va : Word) : Option (BitVec 8) :=
  (m.mmuWalk root va).map fun translation =>
    ((m.word translation.page (pgOff va / 8)) >>> (8 * (pgOff va % 8))).setWidth 8

/-- What `sys_cputs` fetches and prints, as far as the fuel goes. -/
def Kernel.sysCputsTrace (k : Kernel) (cur : Nat) (s len : Word) (fuel : Nat) : Trace :=
  match k.sysCputs cur s len with
  | .ok (.returned () k) =>
    match (k.envs cur).envPml4e with
    | some root => Print.after (Print.cprintf (k.mem.loadByte root) fuel "%.*s" [len, s]) .empty
    | none => .empty
  | _ => .empty

-- Which pages the check lets through

/-- The loop of `user_mem_check` visits a page that it does not let through. -/
def Memory.Refused (m : Memory) (root : Nat) (va len newPerm : Word) : Prop :=
  ∃ page < pagesBetween (roundDown va pgSize) (roundUp (va + len) pgSize),
    ¬ m.PageAllowed root (roundDown va pgSize + BitVec.ofNat 64 (page * pgSize)) newPerm

theorem Consistent.userMemCheckPages_code (valid : Consistent m g) (role : g.role root = .table root [])
    (va newPerm : Word) (pages : Nat) (start : Word) : ∃ code addr,
      m.userMemCheckPages root va newPerm pages start = .ok (code, { m with userMemCheckAddr := addr }) ∧
      ((code = 0 ∧ ∀ page < pages, m.PageAllowed root (start + BitVec.ofNat 64 (page * pgSize)) newPerm) ∨
        (code = -eFault ∧ ∃ page < pages, ¬ m.PageAllowed root (start + BitVec.ofNat 64 (page * pgSize)) newPerm)) := by
  induction pages generalizing start with
  | zero => exact ⟨0, m.userMemCheckAddr, rfl, .inl ⟨rfl, by simp⟩⟩
  | succ pages ih =>
    have here : start + BitVec.ofNat 64 (0 * pgSize) = start := by simp
    have refused : ∀ addr, ¬ m.PageAllowed root start newPerm → ∃ code addr',
        (Except.ok (-eFault, { m with userMemCheckAddr := addr }) : Except Stop (Int × Memory)) =
            .ok (code, { m with userMemCheckAddr := addr' }) ∧
          ((code = 0 ∧ ∀ page < pages + 1,
              m.PageAllowed root (start + BitVec.ofNat 64 (page * pgSize)) newPerm) ∨
            (code = -eFault ∧ ∃ page < pages + 1,
              ¬ m.PageAllowed root (start + BitVec.ofNat 64 (page * pgSize)) newPerm)) :=
      fun addr barred => ⟨_, addr, rfl, .inr ⟨rfl, 0, by omega, by rwa [here]⟩⟩
    rw [Memory.userMemCheckPages]
    split
    · rename_i above
      exact refused _ fun allowed => allowed.1 above
    · rename_i inside
      have low : pml4 start < 2 := pml4_below_ulim (BitVec.not_le.mp inside)
      have find := valid.pml4eWalk_find role low
      rw [find]
      simp only [bind, Except.bind]
      split
      · rename_i missing
        refine refused _ ?_
        rintro ⟨-, slot, after, walk, -⟩
        rw [find, missing] at walk
        cases walk
      · rename_i slot found
        split
        · rename_i flags
          refine refused _ ?_
          rintro ⟨-, slot', after, walk, same⟩
          rw [find, found] at walk
          cases walk
          exact flags same
        · rename_i flags
          have allowed : m.PageAllowed root start newPerm :=
            ⟨inside, slot, m, by rw [find, found], not_not.mp flags⟩
          have step : ∀ page, start + BitVec.ofNat 64 ((page + 1) * pgSize) =
              start + BitVec.ofNat 64 pgSize + BitVec.ofNat 64 (page * pgSize) := by
            intro page
            rw [BitVec.add_assoc, ← BitVec.ofNat_add, Nat.succ_mul, Nat.add_comm]
          obtain ⟨code, addr, result, codes⟩ := ih (start + BitVec.ofNat 64 pgSize)
          refine ⟨code, addr, result, codes.imp ?_ ?_⟩
          · rintro ⟨zero, rest⟩
            refine ⟨zero, fun page small => ?_⟩
            cases page with
            | zero => rwa [here]
            | succ page =>
              rw [step]
              exact rest page (by omega)
          · rintro ⟨fault, page, small, barred⟩
            refine ⟨fault, page + 1, by omega, ?_⟩
            rwa [step]

theorem Consistent.userMemCheck_code (valid : Consistent m g) (role : g.role root = .table root [])
    (va len : Word) (perm : BitVec 32) : ∃ code addr,
      m.userMemCheck root va len perm = .ok (code, { m with userMemCheckAddr := addr }) ∧
      ((code = 0 ∧ ¬ m.Refused root va len (leafFlags perm)) ∨
        (code = -eFault ∧ m.Refused root va len (leafFlags perm))) := by
  obtain ⟨code, addr, result, codes⟩ := valid.userMemCheckPages_code role va (leafFlags perm)
    (pagesBetween (roundDown va pgSize) (roundUp (va + len) pgSize)) (roundDown va pgSize)
  refine ⟨code, addr, result, codes.imp ?_ ?_⟩
  · rintro ⟨zero, allowed⟩
    exact ⟨zero, fun ⟨page, small, barred⟩ => barred (allowed page small)⟩
  · rintro ⟨fault, refused⟩
    exact ⟨fault, refused⟩

-- What is fetched

/-- A byte on a page that the check of `s` and `len` has visited and let through. -/
def Memory.Vouched (m : Memory) (root : Nat) (s len va : Word) : Prop :=
  (roundDown s pgSize).toNat ≤ va.toNat ∧ va.toNat < (roundUp (s + len) pgSize).toNat ∧
    va < ulim ∧ m.Mapped root (leafFlags (pteU.setWidth 32)) va

/-- Only checked bytes of the string are fetched, and an environment that fails the check is destroyed. -/
structure Kernel.CputsConfined (k : Kernel) (c root : Nat) (s len : Word) : Prop where
  destroys : ∀ code mem, k.mem.userMemCheck root s len (pteU.setWidth 32) = .ok (code, mem) → code < 0 →
    k.sysCputs c s len = (k.setMem mem).envDestroy (some c) c
  fetches : ∀ fuel, ∀ va ∈ (k.sysCputsTrace c s len fuel).fetched,
    s.toNat ≤ va.toNat ∧ va.toNat < s.toNat + len.toNat ∧ k.mem.Vouched root s len va

section Cputs

variable (pml4e : (k.envs c).envPml4e = some root)

include pml4e

theorem sysCputs_eq {code : Int} {mem : Memory}
    (checked : k.mem.userMemCheck root s len (pteU.setWidth 32) = .ok (code, mem)) :
    k.sysCputs c s len =
      if code < 0 then (k.setMem mem).envDestroy (some c) c else .ok (.returned () (k.setMem mem)) := by
  have flags : pteU.setWidth 32 ||| pteU.setWidth 32 = (pteU.setWidth 32 : BitVec 32) := BitVec.or_self
  rw [Kernel.sysCputs, Kernel.userMemAssert, Kernel.pml4eOf_ok.mpr pml4e, flags]
  simp only [bind, Except.bind, checked]

theorem sysCputsTrace_of_refused {code : Int} {mem : Memory} {fuel : Nat}
    (checked : k.mem.userMemCheck root s len (pteU.setWidth 32) = .ok (code, mem)) (fault : code < 0) :
    k.sysCputsTrace c s len fuel = .empty := by
  rw [Kernel.sysCputsTrace, sysCputs_eq pml4e checked, if_pos fault]
  split
  · rename_i k' destroyed
    unfold Kernel.envDestroy at destroyed
    rw [if_neg (by simp)] at destroyed
    obtain ⟨k₁, -, rest⟩ := Fallible.bind_ok.mp destroyed
    rw [if_pos rfl] at rest
    obtain ⟨_, _, -, left⟩ := leave_ok.mp rest
    cases left
  · rfl

theorem sysCputsTrace_fetched {addr : Word} {fuel : Nat} (va : Word)
    (checked : k.mem.userMemCheck root s len (pteU.setWidth 32) =
      .ok (0, { k.mem with userMemCheckAddr := addr })) :
    va ∈ (k.sysCputsTrace c s len fuel).fetched ↔ s ≠ 0 ∧ ∃ n, n < fuel ∧ va = s + BitVec.ofNat 64 n ∧
      Print.Looks (k.mem.loadByte root) s (len.setWidth 32).toInt n := by
  rw [Kernel.sysCputsTrace, sysCputs_eq pml4e checked, if_neg (by decide)]
  simp only [Kernel.setMem_envs, pml4e]
  exact Print.cprintf_fetched fuel len s va

end Cputs

theorem Memory.Mapped.loadByte {perm va : Word} (mapped : m.Mapped root perm va) :
    ∃ ch, m.loadByte root va = some ch := by
  obtain ⟨translation, found, -⟩ := mapped
  rw [Memory.loadByte, found]
  exact ⟨_, rfl⟩

theorem Consistent.checked (valid : Consistent m g) (role : g.role root = .table root []) {perm : BitVec 32}
    (room : s.toNat + len.toNat + 4095 < 2^64) (allowed : ¬ m.Refused root s len (leafFlags perm)) :
    m.Checked root s len (leafFlags perm) := by
  obtain ⟨code, addr, result, ⟨rfl, -⟩ | ⟨-, refused⟩⟩ := valid.userMemCheck_code role s len perm
  · have sound := Memory.userMemCheck_sound (valid.separate role) room result
    exact sound
  · exact absurd refused allowed

theorem Memory.Checked.vouched (room : s.toNat + len.toNat + 4095 < 2^64)
    (checked : m.Checked root s len (leafFlags (pteU.setWidth 32))) {va : Word} (low : s.toNat ≤ va.toNat)
    (high : va.toNat < s.toNat + len.toNat) : m.Vouched root s len va := by
  obtain ⟨below, mapped⟩ := checked va.toNat low high
  rw [BitVec.ofNat_toNat, BitVec.setWidth_eq] at mapped
  have sum : (s + len).toNat = s.toNat + len.toNat := by
    rw [BitVec.toNat_add]
    omega
  refine ⟨?_, ?_, BitVec.lt_def.mpr below, mapped⟩
  · rw [roundDown_toNat]
    omega
  · rw [roundUp_toNat, sum]
    omega

theorem offset_toNat {i : Nat} (room : s.toNat + i < 2^64) : (s + BitVec.ofNat 64 i).toNat = s.toNat + i := by
  rw [BitVec.toNat_add, BitVec.toNat_ofNat]
  omega

/-- `sys_cputs` fetches only what it has checked exactly when the string is NULL, the check refuses it,
    or the end of its last page does not wrap and the precision or a NUL stops printing inside of it. -/
theorem Kernel.cputsConfined_iff (valid : Consistent k.mem g) (pml4e : (k.envs c).envPml4e = some root)
    (role : g.role root = .table root []) (room : s.toNat + len.toNat < 2^64) :
    k.CputsConfined c root s len ↔
      s = 0 ∨ k.mem.Refused root s len (leafFlags (pteU.setWidth 32)) ∨
        (s.toNat + len.toNat + 4095 < 2^64 ∧
          ((0 ≤ (len.setWidth 32).toInt ∧ (len.setWidth 32).toInt < len.toNat) ∨
            ∃ i < len.toNat, k.mem.loadByte root (s + BitVec.ofNat 64 i) = some 0)) := by
  have destroys : ∀ code mem, k.mem.userMemCheck root s len (pteU.setWidth 32) = .ok (code, mem) → code < 0 →
      k.sysCputs c s len = (k.setMem mem).envDestroy (some c) c := by
    intro code mem checked fault
    rw [sysCputs_eq pml4e checked, if_pos fault]
  obtain ⟨code, addr, checked, ⟨rfl, allowed⟩ | ⟨rfl, refused⟩⟩ :=
    valid.userMemCheck_code role s len (pteU.setWidth 32)
  · have fetched : ∀ fuel va, va ∈ (k.sysCputsTrace c s len fuel).fetched ↔ _ :=
      fun fuel va => sysCputsTrace_fetched pml4e va checked
    constructor
    · intro confined
      by_cases null : s = 0
      · exact .inl null
      refine .inr (.inr ?_)
      have fits : s.toNat + len.toNat + 4095 < 2^64 := by
        by_contra wraps
        have first : s ∈ (k.sysCputsTrace c s len 1).fetched :=
          (fetched 1 s).mpr ⟨null, 0, by omega, by simp, by simp, by omega⟩
        have visited := (confined.fetches 1 s first).2.2.2.1
        have sum : (s + len).toNat = s.toNat + len.toNat := by
          rw [BitVec.toNat_add]
          omega
        rw [roundUp_toNat, sum] at visited
        omega
      refine ⟨fits, ?_⟩
      by_contra runs
      obtain ⟨unbounded, text⟩ := not_or.mp runs
      have seen : ∀ i < len.toNat, ∃ ch, k.mem.loadByte root (s + BitVec.ofNat 64 i) = some ch ∧ ch ≠ 0 := by
        intro i small
        have mapped := (valid.checked role fits allowed (s.toNat + i) (by omega) (by omega)).2
        rw [← offset_toNat (by omega), BitVec.ofNat_toNat, BitVec.setWidth_eq] at mapped
        obtain ⟨ch, loaded⟩ := mapped.loadByte
        refine ⟨ch, loaded, ?_⟩
        rintro rfl
        exact text ⟨i, small, loaded⟩
      have beyond : s + BitVec.ofNat 64 len.toNat ∈ (k.sysCputsTrace c s len (len.toNat + 1)).fetched :=
        (fetched _ _).mpr ⟨null, len.toNat, by omega, rfl, seen, by omega⟩
      have inside := (confined.fetches _ _ beyond).2.1
      rw [offset_toNat room] at inside
      omega
    · rintro condition
      refine ⟨destroys, fun fuel va member => ?_⟩
      obtain ⟨nonnull, n, -, rfl, seen, within⟩ := (fetched fuel va).mp member
      obtain null | refused | ⟨fits, stops⟩ := condition
      · exact absurd null nonnull
      · exact absurd refused allowed
      have inside : n < len.toNat := by
        rcases stops with ⟨positive, small⟩ | ⟨i, small, nul⟩
        · omega
        · by_contra beyond
          obtain ⟨ch, loaded, nonzero⟩ := seen i (by omega)
          rw [nul] at loaded
          cases loaded
          exact nonzero rfl
      have address := offset_toNat (s := s) (i := n) (by omega)
      have low : s.toNat ≤ (s + BitVec.ofNat 64 n).toNat := by omega
      have high : (s + BitVec.ofNat 64 n).toNat < s.toNat + len.toNat := by omega
      exact ⟨low, high, (valid.checked role fits allowed).vouched fits low high⟩
  · constructor
    · exact fun _ => .inr (.inl refused)
    · intro _
      refine ⟨destroys, fun fuel va member => ?_⟩
      rw [sysCputsTrace_of_refused pml4e checked (by decide)] at member
      cases member

def greeting : Program := ⟨[⟨utext, 8, [0x68, 0x69]⟩], utext⟩

def greeted : Option Kernel := Transition.exec BootOp.next (smallMachine.kernel fun _ => default) [.create greeting]

/-- The program asks for five bytes of itself to be printed. The kernel fetches three, the last of which is a NUL. -/
theorem Kernel.cputsConfined_iff_greeting : ∃ k root, greeted = some k ∧ (k.envs 0).envPml4e = some root ∧
    (k.sysCputsTrace 0 utext 5 9).fetched = [utext, utext + 1, utext + 2] ∧ k.CputsConfined 0 root utext 5 := by
  have result : (greeted.bind fun k => (k.envs 0).envPml4e.map fun root =>
      (k.mem.loadByte root (utext + BitVec.ofNat 64 2), (k.sysCputsTrace 0 utext 5 9).fetched)) =
      some (some 0, [utext, utext + 1, utext + 2]) := by
    rw [greeted, BootConfig.kernel, Kernel.envInit_eq]
    decide +kernel
  obtain ⟨k, done, rest⟩ := Option.bind_eq_some_iff.mp result
  obtain ⟨root, pml4e, shown⟩ := Option.map_eq_some_iff.mp rest
  obtain ⟨nul, fetched⟩ := Prod.mk.inj shown
  obtain ⟨g, root', page, leak⟩ := (smallMachine.kernel_spaces _).envCreate_stack (smallMachine.kernel_table _).1
    (show ∀ ph ∈ greeting.headers, ph.InUserPart by simp [greeting, Proghdr.InUserPart, utext, utop]; decide)
    smallMachine_head (BootOp.created_of_exec done)
  have role := leak.role
  rw [Option.some.inj (leak.pml4e.symm.trans pml4e)] at role
  refine ⟨k, root, done, pml4e, fetched, ?_⟩
  exact (Kernel.cputsConfined_iff leak.valid pml4e role (by decide)).mpr
    (.inr (.inr ⟨by decide, .inr ⟨2, by decide, nul⟩⟩))

/-- The first environment prints an empty string, and the kernel fetches from an address that is not
    mapped. -/
theorem cputs_empty_faults : ∃ k root, smallBoot = some k ∧ (k.envs 0).envPml4e = some root ∧
    k.mem.loadByte root utext = none ∧ utext ∈ (k.sysCputsTrace 0 utext 0 1).fetched ∧
    ¬ k.CputsConfined 0 root utext 0 := by
  have result : (smallBoot.bind fun k => (k.envs 0).envPml4e.map fun root =>
      k.mem.loadByte root utext) = some none := by
    rw [smallBoot_eq]
    decide +kernel
  obtain ⟨k, done, rest⟩ := Option.bind_eq_some_iff.mp result
  obtain ⟨root, pml4e, absent⟩ := Option.map_eq_some_iff.mp rest
  have checked : k.mem.userMemCheck root utext 0 (pteU.setWidth 32) =
      .ok (0, { k.mem with userMemCheckAddr := k.mem.userMemCheckAddr }) := rfl
  have fetched : utext ∈ (k.sysCputsTrace 0 utext 0 1).fetched :=
    (sysCputsTrace_fetched pml4e utext checked).mpr ⟨by decide, 0, by omega, by simp, by simp, by decide⟩
  refine ⟨k, root, done, pml4e, absent, fetched, fun confined => ?_⟩
  have inside := (confined.fetches 1 utext fetched).2.1
  exact absurd inside (by decide)

end Jos
