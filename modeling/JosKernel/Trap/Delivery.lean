import JosKernel.Syscall.Cputs
import JosKernel.System.Sound
import JosKernel.Trap.Effects

namespace Jos

variable {k : Kernel} {m m' : Memory} {g : Layout} {cur root : Nat} {va : Word}

-- What a user program may write

def Memory.UserWritable (m : Memory) (root : Nat) (va : Word) : Prop :=
  ∃ translation, m.mmuWalk root va = some translation ∧ translation.writable = true ∧ translation.user = true

theorem Memory.mmuWalk_of_page {va va' : Word} (same : va.toNat / 4096 = va'.toNat / 4096) :
    m.mmuWalk root va = m.mmuWalk root va' := by
  obtain ⟨hm, hp, hd, ht⟩ := indices_of_page same
  unfold mmuWalk
  rw [hm, hp, hd, ht]

theorem Memory.UserWritable.of_page {va va' : Word} (same : va.toNat / 4096 = va'.toNat / 4096) :
    m.UserWritable root va ↔ m.UserWritable root va' := by
  rw [UserWritable, UserWritable, mmuWalk_of_page same]

theorem Rewrites.mmuWalk (rewrites : Rewrites m g m') (valid : Consistent m g) (role : g.role root = .table root [])
    (low : pml4 va < 2) : m'.mmuWalk root va = m.mmuWalk root va := by
  rw [(rewrites.consistent valid).mmuWalk role low, valid.mmuWalk role low, rewrites.entry valid role low]

theorem Consistent.mapped_userWritable (valid : Consistent m g) (role : g.role root = .table root [])
    (low : pml4 va < 2) (mapped : m.Mapped root (leafFlags (pteW.setWidth 32 ||| pteU.setWidth 32)) va) :
    m.UserWritable root va := by
  obtain ⟨translation, found, flags⟩ := mapped
  have shown := found
  rw [valid.mmuWalk role low, translate] at shown
  split at shown
  · cases shown
    have bit : ∀ right : Word, leafFlags (pteW.setWidth 32 ||| pteU.setWidth 32) &&& right = right →
        m.entry root va &&& right = right := by
      intro right within
      calc m.entry root va &&& right
          = m.entry root va &&& (leafFlags (pteW.setWidth 32 ||| pteU.setWidth 32) &&& right) := by rw [within]
        _ = right := by rw [← BitVec.and_assoc, flags, within]
    refine ⟨_, found, ?_, ?_⟩
    · rw [decide_eq_true_iff, bit pteW (by decide)]
      decide
    · rw [decide_eq_true_iff, bit pteU (by decide)]
      decide
  · cases shown

theorem Consistent.storeBytes_done (valid : Consistent m g) (role : g.role root = .table root []) (va : Word)
    (bytes : List (BitVec 8)) (below : va.toNat + bytes.length ≤ utop.toNat)
    (writable : ∀ i < bytes.length, m.UserWritable root (va + BitVec.ofNat 64 i)) :
    ∃ m', m.storeBytes root va bytes = .ok m' := by
  induction bytes generalizing m va with
  | nil => exact ⟨m, rfl⟩
  | cons byte bytes ih =>
    simp only [List.length_cons] at below writable
    have limit := utop_toNat
    have here : va < utop := by
      rw [BitVec.lt_def]
      omega
    have next : (va + 1).toNat = va.toNat + 1 := by
      rw [BitVec.toNat_add]
      change (va.toNat + 1) % 2^64 = _
      omega
    obtain ⟨translation, found, granted, -⟩ := writable 0 (by omega)
    rw [BitVec.add_zero] at found
    have first : m.storeByte root va byte = .ok (m.setByte translation.page va byte) := by
      rw [Memory.storeByte, found]
      exact if_pos granted
    have rewrites := valid.storeByte role here first
    obtain ⟨m', rest⟩ := ih (rewrites.consistent valid) (va + 1) (by omega) (by
      intro i inside
      obtain ⟨translation, found, granted⟩ := writable (i + 1) (by omega)
      have same : va + BitVec.ofNat 64 (i + 1) = va + 1 + BitVec.ofNat 64 i := by
        rw [BitVec.add_assoc, Nat.add_comm, BitVec.ofNat_add]
        rfl
      refine ⟨translation, ?_, granted⟩
      rw [same] at found
      have small : (va + 1 + BitVec.ofNat 64 i) < utop := by
        rw [BitVec.lt_def, BitVec.toNat_add, BitVec.toNat_ofNat, next]
        omega
      rwa [rewrites.mmuWalk valid role (pml4_of_user small)])
    exact ⟨m', by rw [Memory.storeBytes, first]; exact rest⟩

-- The frame of a page fault

def Nested (rsp : Word) : Prop := rsp ≤ uxStackTop - 1 ∧ uxStackTop - BitVec.ofNat 64 pgSize ≤ rsp

instance (rsp : Word) : Decidable (Nested rsp) := inferInstanceAs (Decidable (_ ∧ _))

theorem nested_iff (rsp : Word) : Nested rsp ↔ 0xef7ff000 ≤ rsp.toNat ∧ rsp.toNat < 0xef800000 := by
  rw [Nested, BitVec.le_def, BitVec.le_def]
  change rsp.toNat ≤ 0xef800000 - 1 ∧ 0xef800000 - 4096 ≤ rsp.toNat ↔ _
  omega

/-- What is relied on from the new stack pointer up: the frame, and the word that is left free above it. -/
def deliverySize (rsp : Word) : Nat := if Nested rsp then utrapframeSize + 8 else utrapframeSize

theorem exceptionRsp_toNat (rsp : Word) :
    (exceptionRsp rsp).toNat = if Nested rsp then rsp.toNat - 168 else 0xef800000 - 160 := by
  rw [exceptionRsp, show exceptionTop rsp = if Nested rsp then rsp - 8 else uxStackTop from rfl]
  by_cases nested : Nested rsp
  · have place := (nested_iff rsp).mp nested
    rw [if_pos nested, if_pos nested, BitVec.toNat_sub, BitVec.toNat_sub]
    change (2^64 - 160 + (2^64 - 8 + rsp.toNat) % 2^64) % 2^64 = _
    omega
  · rw [if_neg nested, if_neg nested]
    rfl

theorem exceptionRsp_byte (rsp : Word) {i : Nat} (inside : i < deliverySize rsp) :
    (exceptionRsp rsp + BitVec.ofNat 64 i).toNat = (exceptionRsp rsp).toNat + i ∧
      (exceptionRsp rsp).toNat + i < 0xef800000 := by
  have place := exceptionRsp_toNat rsp
  have nested := nested_iff rsp
  rw [BitVec.toNat_add, BitVec.toNat_ofNat]
  rw [deliverySize] at inside
  split at place
  · rename_i recursive
    rw [if_pos recursive, utrapframeSize] at inside
    have := nested.mp recursive
    omega
  · rename_i first
    rw [if_neg first, utrapframeSize] at inside
    omega

def Straddles (rsp : Word) : Prop := 0xef7ff000 < rsp.toNat ∧ rsp.toNat < 0xef7ff000 + 168

/-- `page_fault_handler` destroys the environment since `user_mem_assert` fails, or it stores the frame where
    the environment could have stored it, and leaves the kernel. -/
inductive Kernel.Delivers (k : Kernel) (cur root : Nat) (faultVa : Word) : Prop
  | destroyed (rsp addr : Word) (trapped : (k.envs cur).envTf.rsp = rsp)
      (refused : k.mem.userMemCheck root (exceptionRsp rsp) 1 (pteW.setWidth 32 ||| pteU.setWidth 32) =
        .ok (-eFault, { k.mem with userMemCheckAddr := addr }))
      (ends : k.pageFaultHandler cur faultVa =
        ((k.setTf cur { (k.envs cur).envTf with rsp := exceptionTop rsp }).setMem
          { k.mem with userMemCheckAddr := addr }).envDestroy (some cur) cur)
  | pushed (rsp addr : Word) (mem : Memory) (k' : Kernel) (trapped : (k.envs cur).envTf.rsp = rsp)
      (writable : ∀ i < deliverySize rsp, k.mem.UserWritable root (exceptionRsp rsp + BitVec.ofNat 64 i))
      (stored : Memory.storeBytes { k.mem with userMemCheckAddr := addr } root (exceptionRsp rsp)
        ((utrapframe faultVa (k.envs cur).envTf rsp).flatMap wordBytes) = .ok mem)
      (resumes : k.pageFaultHandler cur faultVa = .ok (.left k' (some cur)))
      (memory : k'.mem = mem)

theorem Consistent.checkFrame (valid : Consistent m g) (role : g.role root = .table root []) (rsp : Word) :
    ∃ code addr, m.userMemCheck root (exceptionRsp rsp) 1 (pteW.setWidth 32 ||| pteU.setWidth 32) =
        .ok (code, { m with userMemCheckAddr := addr }) ∧
      (code = 0 ∧ ¬ m.Refused root (exceptionRsp rsp) 1 (leafFlags (pteW.setWidth 32 ||| pteU.setWidth 32)) ∧
          m.UserWritable root (exceptionRsp rsp) ∨
        code = -eFault ∧ m.Refused root (exceptionRsp rsp) 1 (leafFlags (pteW.setWidth 32 ||| pteU.setWidth 32))) := by
  obtain ⟨code, addr, result, ⟨rfl, allowed⟩ | ⟨rfl, refused⟩⟩ :=
    valid.userMemCheck_code role (exceptionRsp rsp) 1 (pteW.setWidth 32 ||| pteU.setWidth 32)
  · have positive : 0 < deliverySize rsp := by
      rw [deliverySize]
      split <;> decide
    obtain ⟨-, place⟩ := exceptionRsp_byte rsp positive
    have below : exceptionRsp rsp < utop := by
      have limit := utop_toNat
      rw [BitVec.lt_def]
      omega
    have room : (exceptionRsp rsp).toNat + (1 : Word).toNat + 4095 < 2^64 := by
      change (exceptionRsp rsp).toNat + 1 + 4095 < 2^64
      omega
    obtain ⟨-, mapped⟩ := valid.checked role room allowed (exceptionRsp rsp).toNat le_rfl (Nat.lt_succ_self _)
    rw [BitVec.ofNat_toNat, BitVec.setWidth_eq] at mapped
    exact ⟨0, addr, result, .inl ⟨rfl, allowed, valid.mapped_userWritable role (pml4_of_user below) mapped⟩⟩
  · exact ⟨_, addr, result, .inr ⟨rfl, refused⟩⟩

/-- If the page that the frame begins on is writable, all of it is, unless it straddles and the exception
    stack is not writable. -/
theorem Memory.frame_writable {rsp : Word} (first : m.UserWritable root (exceptionRsp rsp))
    (stack : Straddles rsp → m.UserWritable root (uxStackTop - 1)) {i : Nat} (inside : i < deliverySize rsp) :
    m.UserWritable root (exceptionRsp rsp + BitVec.ofNat 64 i) := by
  obtain ⟨address, top⟩ := exceptionRsp_byte rsp inside
  have place := exceptionRsp_toNat rsp
  have nested := nested_iff rsp
  have last : (uxStackTop - 1).toNat = 0xef7fffff := rfl
  by_cases same : (exceptionRsp rsp).toNat / 4096 = ((exceptionRsp rsp).toNat + i) / 4096
  · exact (Memory.UserWritable.of_page (by rw [address, same])).mp first
  · have straddles : Straddles rsp := by
      rw [deliverySize] at inside
      rw [Straddles]
      split at place
      · rename_i recursive
        rw [if_pos recursive, utrapframeSize] at inside
        have := nested.mp recursive
        omega
      · rename_i flat
        rw [if_neg flat, utrapframeSize] at inside
        omega
    have onStack : (uxStackTop - 1).toNat / 4096 = (exceptionRsp rsp + BitVec.ofNat 64 i).toNat / 4096 := by
      obtain ⟨lower, upper⟩ := straddles
      rw [if_pos (nested.mpr (by omega))] at place
      rw [address, last]
      omega
    exact (Memory.UserWritable.of_page onStack).mp (stack straddles)

section Handler

variable (pml4e : (k.envs cur).envPml4e = some root) (upcall : (k.envs cur).envPgfaultUpcall ≠ 0) {faultVa : Word}

include pml4e upcall

theorem pageFaultHandler_refused {code : Int} {mem : Memory} (fault : code < 0)
    (checked : k.mem.userMemCheck root (exceptionRsp (k.envs cur).envTf.rsp) 1
      (pteW.setWidth 32 ||| pteU.setWidth 32) = .ok (code, mem)) :
    k.pageFaultHandler cur faultVa = ((k.setTf cur { (k.envs cur).envTf with
      rsp := exceptionTop (k.envs cur).envTf.rsp }).setMem mem).envDestroy (some cur) cur := by
  rw [Kernel.pageFaultHandler, if_neg upcall]
  dsimp only
  have table := Kernel.setTf_envPml4e k cur cur { (k.envs cur).envTf with rsp := exceptionTop (k.envs cur).envTf.rsp }
  have memory := Kernel.setTf_mem k cur { (k.envs cur).envTf with rsp := exceptionTop (k.envs cur).envTf.rsp }
  generalize k.setTf cur { (k.envs cur).envTf with rsp := exceptionTop (k.envs cur).envTf.rsp } = k₀ at *
  have asserted : k₀.userMemAssert cur cur (exceptionRsp (k.envs cur).envTf.rsp) 1 (pteW.setWidth 32) =
      (k₀.setMem mem).envDestroy (some cur) cur := by
    rw [Kernel.userMemAssert, Kernel.pml4eOf_ok.mpr (table.trans pml4e), memory]
    simp only [bind, Except.bind, checked, if_pos fault]
  simp only [asserted]
  unfold Kernel.envDestroy
  rw [if_neg (by simp)]
  cases (k₀.setMem mem).envFree (some cur) cur with
  | error stop => rfl
  | ok k₁ =>
    simp only [bind, Except.bind, if_pos]
    cases k₁.schedYield none <;> rfl

theorem pageFaultHandler_passed {addr : Word} {mem : Memory}
    (checked : k.mem.userMemCheck root (exceptionRsp (k.envs cur).envTf.rsp) 1
      (pteW.setWidth 32 ||| pteU.setWidth 32) = .ok (0, { k.mem with userMemCheckAddr := addr }))
    (stored : Memory.storeBytes { k.mem with userMemCheckAddr := addr } root
      (exceptionRsp (k.envs cur).envTf.rsp)
      ((utrapframe faultVa (k.envs cur).envTf (k.envs cur).envTf.rsp).flatMap wordBytes) = .ok mem) :
    ∃ k', k.pageFaultHandler cur faultVa = .ok (.left k' (some cur)) ∧ k'.mem = mem := by
  rw [Kernel.pageFaultHandler, if_neg upcall]
  dsimp only
  have pml4e₀ := (Kernel.setTf_envPml4e k cur cur { (k.envs cur).envTf with
    rsp := exceptionTop (k.envs cur).envTf.rsp }).trans pml4e
  have memory := Kernel.setTf_mem k cur { (k.envs cur).envTf with rsp := exceptionTop (k.envs cur).envTf.rsp }
  generalize k.setTf cur { (k.envs cur).envTf with rsp := exceptionTop (k.envs cur).envTf.rsp } = k₀ at *
  have asserted : k₀.userMemAssert cur cur (exceptionRsp (k.envs cur).envTf.rsp) 1 (pteW.setWidth 32) =
      .ok (.returned () (k₀.setMem { k.mem with userMemCheckAddr := addr })) := by
    rw [Kernel.userMemAssert, Kernel.pml4eOf_ok.mpr pml4e₀, memory]
    simp only [bind, Except.bind, checked, if_neg (show ¬ (0 : Int) < 0 by decide)]
  have here : (k₀.setMem { k.mem with userMemCheckAddr := addr }).pml4eOf cur = .ok root :=
    Kernel.pml4eOf_ok.mpr pml4e₀
  have table : (((k₀.setMem mem).setTf cur { (k.envs cur).envTf with
      rip := (k₀.envs cur).envPgfaultUpcall, rsp := exceptionRsp (k.envs cur).envTf.rsp }).envs cur).envPml4e =
      some root := by
    rw [Kernel.setTf_envPml4e]
    exact pml4e₀
  obtain ⟨k', ran⟩ := envRun_done table (some cur)
  obtain ⟨-, exits⟩ := envRun_exits (.inr rfl) ran
  refine ⟨k', ?_, exits.mem⟩
  simp only [asserted, bind, Except.bind, here, Kernel.setMem_mem, stored]
  exact leave_ok.mpr ⟨k', some cur, ran, rfl⟩

end Handler

/-- The frame of a page fault is delivered safely exactly if `user_mem_assert` refuses the page that it begins
    on, it does not straddle the bottom of the exception stack, or the exception stack is writable. -/
theorem pageFault_delivers (valid : Consistent k.mem g) (role : g.role root = .table root [])
    (pml4e : (k.envs cur).envPml4e = some root) (upcall : (k.envs cur).envPgfaultUpcall ≠ 0) (faultVa : Word) :
    k.Delivers cur root faultVa ↔
      k.mem.Refused root (exceptionRsp (k.envs cur).envTf.rsp) 1 (leafFlags (pteW.setWidth 32 ||| pteU.setWidth 32)) ∨
        ¬ Straddles (k.envs cur).envTf.rsp ∨ k.mem.UserWritable root (uxStackTop - 1) := by
  obtain ⟨code, addr, checked, verdict⟩ := valid.checkFrame role (k.envs cur).envTf.rsp
  constructor
  · intro delivers
    by_contra bad
    obtain ⟨allowed, bad⟩ := not_or.mp bad
    obtain ⟨straddles, barred⟩ := not_or.mp bad
    rw [not_not] at straddles
    cases delivers with
    | destroyed rsp addr' trapped refused ends =>
      subst trapped
      rw [checked] at refused
      rcases verdict with ⟨rfl, -⟩ | ⟨-, refused⟩
      · simp [eFault] at refused
      · exact allowed refused
    | pushed rsp addr' mem k' trapped writable stored resumes memory =>
      subst trapped
      obtain ⟨lower, upper⟩ := straddles
      have nested : Nested (k.envs cur).envTf.rsp := (nested_iff _).mpr (by omega)
      have size : deliverySize (k.envs cur).envTf.rsp = 168 := if_pos nested
      have last := writable 167 (by omega)
      have place := exceptionRsp_toNat (k.envs cur).envTf.rsp
      rw [if_pos nested] at place
      obtain ⟨address, -⟩ := exceptionRsp_byte (k.envs cur).envTf.rsp (i := 167) (by omega)
      refine barred ((Memory.UserWritable.of_page ?_).mp last)
      rw [address, place, show (uxStackTop - 1).toNat = 0xef7fffff from rfl]
      omega
  · intro condition
    rcases verdict with ⟨rfl, allowed, first⟩ | ⟨rfl, refused⟩
    · have writable : ∀ i < deliverySize (k.envs cur).envTf.rsp,
          k.mem.UserWritable root (exceptionRsp (k.envs cur).envTf.rsp + BitVec.ofNat 64 i) := by
        intro i inside
        refine Memory.frame_writable first (fun straddles => ?_) inside
        rcases condition with refused | flat | stack
        · exact absurd refused allowed
        · exact absurd straddles flat
        · exact stack
      have records : Rewrites k.mem g { k.mem with userMemCheckAddr := addr } := .userMemCheckAddr addr
      have covered : utrapframeSize ≤ deliverySize (k.envs cur).envTf.rsp := by
        rw [deliverySize]
        split <;> simp [utrapframeSize]
      obtain ⟨mem, stored⟩ := (records.consistent valid).storeBytes_done role (exceptionRsp (k.envs cur).envTf.rsp)
        ((utrapframe faultVa (k.envs cur).envTf (k.envs cur).envTf.rsp).flatMap wordBytes)
        (by rw [Spaces.utrapframe_bytes]; exact Spaces.exceptionRsp_room _)
        (fun i inside => by
          rw [Spaces.utrapframe_bytes] at inside
          exact writable i (by omega))
      obtain ⟨k', resumes, memory⟩ := pageFaultHandler_passed pml4e upcall checked stored
      exact .pushed _ addr mem k' rfl writable stored resumes memory
    · exact .destroyed _ addr rfl checked (pageFaultHandler_refused pml4e upcall (by decide) checked)

/-- The first environment allocates a page at UTEXT and its exception stack, and sets an upcall. -/
def allocUpcall : List (Event Unit) :=
  [.start (), .trap () (syscallTf 4 0 utext 7 0 0) 0 0, .trap () (syscallTf 4 0 0xef7ff000 7 0 0) 0 0,
    .trap () (syscallTf 9 0 utext 0 0 0) 0 0]

def flatTf : Trapframe := { Trapframe.zero with trapno := tPgflt, cs := gdUt ||| 3, rip := utext, rsp := uStackTop }

/-- It gets the frame of its first page fault at the top of the exception stack. -/
theorem pageFault_delivers_flat : ∃ (s : System Unit) (root : Nat), guardedRun allocUpcall = some s ∧
    (s.kernel.envs 0).envPml4e = some root ∧ s.kernel.mem.UserWritable root 0xef7fff60 ∧
    (s.kernel.setTf 0 flatTf).Delivers 0 root 0x400000 := by
  have result : ((guardedRun allocUpcall).bind fun s : System Unit => (s.kernel.envs 0).envPml4e.map fun root =>
      ((s.kernel.envs 0).envStatus, (s.kernel.envs 0).envPgfaultUpcall,
        (s.kernel.mem.mmuWalk root 0xef7fff60).map fun translation => (translation.writable, translation.user))) =
      some (.running, utext, some (true, true)) := by
    rw [guardedRun, smallBoot_eq]
    decide +kernel
  obtain ⟨s, done, rest⟩ := Option.bind_eq_some_iff.mp result
  obtain ⟨root, pml4e, shown⟩ := Option.map_eq_some_iff.mp rest
  simp only [Prod.mk.injEq] at shown
  obtain ⟨status, upcall, rights⟩ := shown
  obtain ⟨k, booted, run⟩ := guardedRun_run done
  obtain ⟨g, spaces⟩ := ((System.sound_idle booted).run run).spaces
  have role := spaces.role ⟨by decide, by simp [status]⟩ pml4e
  refine ⟨s, root, done, pml4e, ?_, ?_⟩
  · obtain ⟨translation, walk, same⟩ := Option.map_eq_some_iff.mp rights
    exact ⟨translation, walk, congrArg Prod.fst same, congrArg Prod.snd same⟩
  · have valid : Consistent (s.kernel.setTf 0 flatTf).mem g := spaces.memory
    refine (pageFault_delivers valid role ?_ ?_ 0x400000).mpr (.inr (.inl ?_))
    · rwa [Kernel.setTf_envPml4e]
    · rw [Kernel.setTf_envPgfaultUpcall, upcall]
      decide
    · rw [Kernel.setTf_envTf]
      exact fun straddles => absurd straddles.1 (by decide)

def straddlingTf : Trapframe := { Trapframe.zero with trapno := tPgflt, cs := gdUt ||| 3, rsp := 0xef7ff080 }

/-- The first environment sets an upcall and maps the page below the exception stack, and a page at 0, but not
    the exception stack. Its page fault panics the kernel. -/
theorem pageFault_straddles : ∃ (s₀ s : System Unit) (root : Nat), s₀.Booted ∧
    Transition.Run System.Step s₀ [.start (), .trap () (syscallTf 9 0 utext 0 0 0) 0 0,
      .trap () (syscallTf 4 0 0xef7fe000 7 0 0) 0 0, .trap () (syscallTf 4 0 0 7 0 0) 0 0] s ∧
    (s.cpus ()).cpuEnv = some 0 ∧ (s.kernel.envs 0).envPml4e = some root ∧
    (s.kernel.envs 0).envPgfaultUpcall = utext ∧ s.kernel.trap 0 straddlingTf 0 0 = .error .panic ∧
    ¬ (s.kernel.setTf 0 straddlingTf).Delivers 0 root 0 := by
  have result : ((smallRun [.start (), .trap () (syscallTf 9 0 utext 0 0 0) 0 0,
      .trap () (syscallTf 4 0 0xef7fe000 7 0 0) 0 0, .trap () (syscallTf 4 0 0 7 0 0) 0 0]).bind
        fun s : System Unit => (s.kernel.envs 0).envPml4e.map fun root =>
          ((s.cpus ()).cpuEnv, (s.kernel.envs 0).envPgfaultUpcall,
            (match s.kernel.trap 0 straddlingTf 0 0 with | .error stop => some stop | .ok _ => none),
            (match (s.kernel.setTf 0 straddlingTf).pageFaultHandler 0 0 with | .error stop => some stop | .ok _ => none),
            (s.kernel.mem.userMemCheck root (exceptionRsp 0xef7ff080) 1 (pteW.setWidth 32 ||| pteU.setWidth 32)).toOption.map
              Prod.fst)) = some (some 0, utext, some .panic, some .panic, some 0) := by
    rw [smallRun, smallBoot_eq]
    decide +kernel
  obtain ⟨s, done, rest⟩ := Option.bind_eq_some_iff.mp result
  obtain ⟨root, pml4e, shown⟩ := Option.map_eq_some_iff.mp rest
  simp only [Prod.mk.injEq] at shown
  obtain ⟨current, upcall, panics, handler, passes⟩ := shown
  have faults : (s.kernel.setTf 0 straddlingTf).pageFaultHandler 0 0 = .error .panic := by
    cases handled : (s.kernel.setTf 0 straddlingTf).pageFaultHandler 0 0 <;> simp_all
  have trapped : s.kernel.trap 0 straddlingTf 0 0 = .error .panic := by
    cases handled : s.kernel.trap 0 straddlingTf 0 0 <;> simp_all
  obtain ⟨s₀, booted, run⟩ := smallRun_run done
  refine ⟨s₀, s, root, booted, run, current, pml4e, upcall, trapped, fun delivers => ?_⟩
  cases delivers with
  | destroyed rsp addr saved refused ends =>
    rw [Kernel.setTf_envTf] at saved
    subst saved
    rw [show exceptionRsp straddlingTf.rsp = exceptionRsp 0xef7ff080 from rfl, Kernel.setTf_mem] at refused
    rw [refused] at passes
    cases passes
  | pushed rsp addr mem k' saved writable stored resumes memory =>
    rw [faults] at resumes
    cases resumes

end Jos
