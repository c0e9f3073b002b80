import JosKernel.Env.Incarnations
import JosKernel.Program.Cells
import JosKernel.System.Protection
import JosKernel.Trap.Upcall

namespace Jos

open X64

variable {k k' : Kernel} {m m' : Memory} {g : Layout} {e root : Nat} {tf : Trapframe} {va : Word}

-- User programs and the MMU

/-- Memory below UTOP as a user program reaches it through the tables under `root`. -/
def userBus (root : Nat) : Bus Memory where
  get m va := do
    let translation ← m.mmuWalk root va
    if va < utop ∧ translation.user then some (m.byteAt translation.page va) else none
  set m va byte := do
    let translation ← m.mmuWalk root va
    if va < utop ∧ translation.writable ∧ translation.user then some (m.setByte translation.page va byte) else none

def Memory.Overlaps (m : Memory) (root : Nat) (a b : Word) : Prop :=
  ∃ translation translation', m.mmuWalk root a = some translation ∧ m.mmuWalk root b = some translation' ∧
    translation.page = translation'.page ∧ pgOff a = pgOff b

theorem userBus_get {byte : BitVec 8} : (userBus root).get m va = some byte ↔ ∃ translation,
    m.mmuWalk root va = some translation ∧ va < utop ∧ translation.user ∧ m.byteAt translation.page va = byte := by
  simp only [userBus, Option.bind_eq_bind, Option.bind_eq_some_iff, Option.ite_none_right_eq_some, Option.some.injEq,
    and_assoc]

theorem userBus_set {byte : BitVec 8} : (userBus root).set m va byte = some m' ↔ ∃ translation,
    m.mmuWalk root va = some translation ∧ va < utop ∧ translation.writable ∧ translation.user ∧
      m.setByte translation.page va byte = m' := by
  simp only [userBus, Option.bind_eq_bind, Option.bind_eq_some_iff, Option.ite_none_right_eq_some, Option.some.injEq,
    and_assoc]

theorem Consistent.userBus_lawful (valid : Consistent m g) (role : g.role root = .table root []) :
    (userBus root).Lawful (Rewrites m g) (m.Overlaps root) where
  set_inv := by
    intro m₁ a byte m₂ rewrites stored
    obtain ⟨translation, walk, below, -, -, rfl⟩ := userBus_set.mp stored
    have data := (rewrites.consistent valid).mmuWalk_data role below walk
    exact rewrites.trans (.setByte data a byte)
  get_same := by
    intro m₁ a byte m₂ rewrites stored
    obtain ⟨translation, walk, below, -, user, rfl⟩ := userBus_set.mp stored
    have valid₁ := rewrites.consistent valid
    have data := valid₁.mmuWalk_data role below walk
    have next : Rewrites m₁ g (m₁.setByte translation.page a byte) := .setByte data a byte
    rw [userBus_get]
    refine ⟨translation, ?_, below, user, ?_⟩
    · rw [next.mmuWalk valid₁ role (pml4_of_user below), walk]
    · rw [Memory.byteAt_setByte, if_pos ⟨rfl, rfl⟩]
  get_other := by
    intro m₁ a byte m₂ b rewrites stored apart
    obtain ⟨translation, walk, below, -, -, rfl⟩ := userBus_set.mp stored
    have valid₁ := rewrites.consistent valid
    have data := valid₁.mmuWalk_data role below walk
    have next : Rewrites m₁ g (m₁.setByte translation.page a byte) := .setByte data a byte
    by_cases small : b < utop
    · have walk' := next.mmuWalk valid₁ role (pml4_of_user small)
      simp only [userBus, walk']
      cases other : m₁.mmuWalk root b with
      | none => rfl
      | some translation' =>
        have same : (m₁.setByte translation.page a byte).byteAt translation'.page b =
            m₁.byteAt translation'.page b := by
          rw [Memory.byteAt_setByte, if_neg]
          rintro ⟨page, offset⟩
          apply apart
          refine ⟨translation, translation', ?_, ?_, page.symm, offset.symm⟩
          · rw [← rewrites.mmuWalk valid role (pml4_of_user below), walk]
          · rw [← rewrites.mmuWalk valid role (pml4_of_user small), other]
        simp only [Option.bind_eq_bind, Option.bind_some, same]
    · have unseen : ∀ m, (userBus root).get m b = none := by
        intro m
        cases found : (userBus root).get m b with
        | none => rfl
        | some value =>
          obtain ⟨-, -, inside, -⟩ := userBus_get.mp found
          exact absurd inside small
      rw [unseen, unseen]

theorem Memory.distinct_page (m : Memory) (root : Nat) (a : Word) {n : Nat} (small : n ≤ 4096) :
    Bus.Distinct (m.Overlaps root) a n := by
  rintro i inside j inside' before ⟨-, -, -, -, -, offset⟩
  rw [pgOff_eq, pgOff_eq, BitVec.toNat_add, BitVec.toNat_add, BitVec.toNat_ofNat, BitVec.toNat_ofNat] at offset
  omega

def Memory.Writable (m : Memory) (root : Nat) (a : Word) (n : Nat) : Prop :=
  ∀ i < n, a + BitVec.ofNat 64 i < utop ∧ m.UserWritable root (a + BitVec.ofNat 64 i)

theorem Memory.Writable.set {a : Word} {n : Nat} (writable : m.Writable root a n) (valid : Consistent m g)
    (role : g.role root = .table root []) {i : Nat} (inside : i < n) {m₁ : Memory} (byte : BitVec 8)
    (rewrites : Rewrites m g m₁) : ∃ m₂, (userBus root).set m₁ (a + BitVec.ofNat 64 i) byte = some m₂ := by
  obtain ⟨below, translation, walk, granted, user⟩ := writable i inside
  rw [← rewrites.mmuWalk valid role (pml4_of_user below)] at walk
  exact ⟨_, userBus_set.mpr ⟨translation, walk, below, granted, user, rfl⟩⟩

theorem Consistent.storeBytes_put {a : Word} {bytes : List (BitVec 8)} (valid : Consistent m g)
    (role : g.role root = .table root []) (writable : m.Writable root a bytes.length)
    (stored : m.storeBytes root a bytes = .ok m') : (userBus root).put m a bytes = some m' := by
  induction bytes generalizing m a with
  | nil =>
    cases stored
    rfl
  | cons byte rest ih =>
    obtain ⟨middle, first, later⟩ := Fallible.bind_ok.mp stored
    obtain ⟨below, translation, walk, granted, user⟩ := writable 0 (by simp)
    rw [BitVec.add_zero] at below walk
    rw [Memory.storeByte, walk] at first
    dsimp only at first
    rw [if_pos granted] at first
    cases first
    have data := valid.mmuWalk_data role below walk
    have next : Rewrites m g (m.setByte translation.page a byte) := .setByte data a byte
    have set : (userBus root).set m a byte = some (m.setByte translation.page a byte) :=
      userBus_set.mpr ⟨translation, walk, below, granted, user, rfl⟩
    rw [Bus.put, set]
    apply ih (next.consistent valid) _ later
    intro i inside
    obtain ⟨small, translation', walk', rights⟩ := writable (i + 1) (by simpa using inside)
    rw [Bus.offset_succ] at small walk'
    refine ⟨small, translation', ?_, rights⟩
    rw [next.mmuWalk valid role (pml4_of_user small), walk']

-- A processor at privilege level 3

def statusFlags : Word := 0x8D5

/-- What `popf` changes when IOPL is 0: the status flags, TF, DF, NT, AC and ID. RF, which it always clears, is left
    out: the frame and the flags are taken to agree on it. -/
def userFlags : Word := 0x244DD5

def userCore (root : Nat) (status : Word → Word → Word) : Core Memory where
  bus := userBus root
  alu := fun flags result => (flags &&& ~~~statusFlags) ||| (status flags result &&& statusFlags)
  popfMask := userFlags

theorem userCore_status (root : Nat) (status : Word → Word → Word) (flags result : Word) :
    (userCore root status).alu flags result &&& ~~~(userCore root status).popfMask =
      flags &&& ~~~(userCore root status).popfMask := by
  have within : ~~~statusFlags &&& ~~~userFlags = ~~~userFlags := by decide
  have covered : statusFlags &&& ~~~userFlags = 0 := by decide
  change ((flags &&& ~~~statusFlags) ||| (status flags result &&& statusFlags)) &&& ~~~userFlags =
    flags &&& ~~~userFlags
  rw [BitVec.and_or_distrib_right, BitVec.and_assoc, within, BitVec.and_assoc, covered]
  simp

theorem userFlags_merge (flags : Word) : (flags &&& ~~~userFlags) ||| (flags &&& userFlags) = flags := by
  have whole : ~~~userFlags ||| userFlags = BitVec.allOnes 64 := by decide
  rw [← BitVec.and_or_distrib_left, whole, BitVec.and_allOnes]

-- The C handler, and what follows it

/-- The C handler has returned: the stack pointer and the frame are as the kernel left them, the flags that a user
    program cannot change are those of the interrupted program, and the frame and the word below the interrupted
    stack, which lies outside the frame, can be written. -/
structure UTrapframe.Returned (utf : UTrapframe) (root : Nat) (s : State Memory) : Prop where
  stack : s.cpu.reg .rsp = exceptionRsp utf.rsp
  frame : utf.LiesAt (userBus root) s.mem (exceptionRsp utf.rsp)
  flags : s.cpu.rflags &&& ~~~userFlags = utf.eflags &&& ~~~userFlags
  writable : s.mem.Writable root (exceptionRsp utf.rsp) (deliverySize utf.rsp)
  word : ¬ Nested utf.rsp → s.mem.Writable root (utf.rsp - 8) 8
  apart : ¬ Nested utf.rsp → Bus.Apart (s.mem.Overlaps root) (utf.rsp - 8) 8 (exceptionRsp utf.rsp) utrapframeSize

/-- The word that the kernel leaves free above the frame of a nested page fault. -/
theorem exceptionRsp_nested {rsp : Word} (nested : Nested rsp) :
    rsp - 8 = exceptionRsp rsp + BitVec.ofNat 64 160 := by
  rw [exceptionRsp, show exceptionTop rsp = rsp - 8 from if_pos nested]
  exact (BitVec.sub_add_cancel ..).symm

namespace UTrapframe.Returned

variable {utf : UTrapframe} {s : State Memory}

theorem wordWritable (returned : utf.Returned root s) : s.mem.Writable root (utf.rsp - 8) 8 := by
  by_cases nested : Nested utf.rsp
  · have size : deliverySize utf.rsp = 168 := if_pos nested
    intro i inside
    rw [exceptionRsp_nested nested, BitVec.add_assoc, ← BitVec.ofNat_add]
    exact returned.writable (160 + i) (by omega)
  · exact returned.word nested

theorem wordApart (returned : utf.Returned root s) :
    Bus.Apart (s.mem.Overlaps root) (utf.rsp - 8) 8 (exceptionRsp utf.rsp) 160 := by
  by_cases nested : Nested utf.rsp
  · rw [exceptionRsp_nested nested]
    have distinct := s.mem.distinct_page root (exceptionRsp utf.rsp) (show 168 ≤ 4096 by decide)
    have above := @Bus.Distinct.apart _ _ _ 160 0 8 160 distinct (Nat.le_refl 160) (Nat.le_refl 168)
    rwa [BitVec.add_zero] at above
  · exact returned.apart nested

theorem resumes (returned : utf.Returned root s) (valid : Consistent s.mem g) (role : g.role root = .table root [])
    (status : Word → Word → Word) : ∃ mem, (userCore root status).run pgfaultUpcall s =
        some ⟨⟨fun r => if r = .rsp then utf.rsp else utf.regs.reg r, s.cpu.seg, utf.rip, utf.eflags⟩, mem⟩ ∧
      Rewrites s.mem g mem ∧ ∀ b k, Bus.Apart (s.mem.Overlaps root) (exceptionRsp utf.rsp + 152) 8 b k →
        Bus.Apart (s.mem.Overlaps root) (utf.rsp - 8) 8 b k → (userBus root).load k mem b = (userBus root).load k s.mem b := by
  have lawful : (userCore root status).bus.Lawful (Rewrites s.mem g) (s.mem.Overlaps root) :=
    valid.userBus_lawful role
  have stores : ∀ a, s.mem.Writable root a 8 → ∀ m value, Rewrites s.mem g m →
      ∃ m', (userCore root status).bus.store 8 m a value = some m' := by
    intro a writable m value rewrites
    apply lawful.put_done rewrites
    intro i inside m' byte rewrites'
    rw [Bus.bytes_length] at inside
    exact writable.set valid role inside byte rewrites'
  have covered : 160 ≤ deliverySize utf.rsp := by
    rw [deliverySize]
    split <;> decide
  have slot : s.mem.Writable root (exceptionRsp utf.rsp + 152) 8 := by
    intro i inside
    have place : exceptionRsp utf.rsp + 152 + BitVec.ofNat 64 i =
        exceptionRsp utf.rsp + BitVec.ofNat 64 (152 + i) := by
      rw [BitVec.add_assoc, BitVec.ofNat_add]
      rfl
    rw [place]
    exact returned.writable (152 + i) (by omega)
  obtain ⟨mem, ran, rewrites, others⟩ :=
    @UTrapframe.LiesAt.resume _ _ _ _ _ utf s returned.frame lawful (.refl s.mem g) returned.stack
      (s.mem.distinct_page root _ (by decide)) (s.mem.distinct_page root _ (by decide)) returned.wordApart
    (stores _ slot) (stores _ returned.wordWritable) (userCore_status root status)
  refine ⟨mem, ?_, rewrites, others⟩
  rw [ran]
  change some (State.mk (Cpu.mk _ _ _ ((s.cpu.rflags &&& ~~~userFlags) ||| (utf.eflags &&& userFlags))) mem) = _
  rw [returned.flags, userFlags_merge]

end UTrapframe.Returned

-- What the kernel delivers

theorem envDestroy_leaves {cur' : Option Nat} (destroyed : k.envDestroy (some e) e = .ok (.left k' cur')) :
    cur' ≠ some e := by
  unfold Kernel.envDestroy at destroyed
  rw [if_neg (by simp)] at destroyed
  obtain ⟨k₁, freed, rest⟩ := Fallible.bind_ok.mp destroyed
  rw [if_pos rfl] at rest
  obtain ⟨k₂, cur₂, yielded, left⟩ := leave_ok.mp rest
  cases left
  rintro rfl
  have free := Kernel.envFree_status freed
  rcases (schedYield_yields yielded).choice e rfl with runnable | ⟨none, -⟩
  · rw [free] at runnable
    cases runnable
  · cases none

theorem pageFaultHandler_redirects (done : (k.setTf e tf).pageFaultHandler e va = .ok (.left k' (some e))) :
    (k.envs e).envPgfaultUpcall ≠ 0 ∧ (k'.envs e).envTf =
      { tf with rip := (k.envs e).envPgfaultUpcall, rsp := exceptionRsp tf.rsp } := by
  have own : (k.setTf e tf).envs e = { k.envs e with envTf := tf } := if_pos rfl
  unfold Kernel.pageFaultHandler at done
  split at done
  · exact absurd rfl (envDestroy_leaves done)
  · rename_i upcall
    rw [own] at upcall
    refine ⟨upcall, ?_⟩
    obtain ⟨inner, asserted, rest⟩ := Fallible.bind_ok.mp done
    obtain ⟨root, -, asserted⟩ := Fallible.bind_ok.mp asserted
    obtain ⟨⟨code, mem⟩, -, asserted⟩ := Fallible.bind_ok.mp asserted
    dsimp only at asserted
    split at asserted
    · cases inner with
      | left k₁ cur₁ =>
        cases rest
        exact absurd rfl (envDestroy_leaves asserted)
      | returned value k₁ =>
        unfold Kernel.envDestroy at asserted
        rw [if_neg (by simp)] at asserted
        obtain ⟨k₂, -, asserted⟩ := Fallible.bind_ok.mp asserted
        rw [if_pos rfl] at asserted
        obtain ⟨_, _, -, left⟩ := leave_ok.mp asserted
        cases left
    · cases asserted
      obtain ⟨root', -, rest⟩ := Fallible.bind_ok.mp rest
      obtain ⟨mem', -, rest⟩ := Fallible.bind_ok.mp rest
      obtain ⟨k₁, cur₁, ran, left⟩ := leave_ok.mp rest
      cases left
      obtain ⟨-, exits⟩ := envRun_exits (.inr rfl) ran
      obtain ⟨runs, fields⟩ := exits.fields e
      rw [fields]
      simp only [Kernel.setTf_envTf, Kernel.setMem_envs, Kernel.setTf_envPgfaultUpcall, own]

theorem wordBytes_eq (w : Word) : wordBytes w = Bus.bytes w 8 := by
  simp only [wordBytes, Bus.bytes, List.range, List.range.loop, List.map_cons, List.map_nil, ← BitVec.shiftRight_add]
  rfl

theorem Kernel.Delivers.lies {cur : Nat} {faultVa : Word} (delivers : k.Delivers cur root faultVa)
    (valid : Consistent k.mem g) (role : g.role root = .table root [])
    (done : k.pageFaultHandler cur faultVa = .ok (.left k' (some cur))) :
    ((k.envs cur).envTf.utf faultVa).LiesAt (userBus root) k'.mem (exceptionRsp (k.envs cur).envTf.rsp) := by
  cases delivers with
  | destroyed rsp addr trapped refused ends =>
    rw [ends] at done
    exact absurd rfl (envDestroy_leaves done)
  | pushed rsp addr mem k₁ trapped writable stored resumes memory =>
    rw [resumes] at done
    cases done
    subst trapped
    have records : Rewrites k.mem g { k.mem with userMemCheckAddr := addr } := .userMemCheckAddr addr
    have valid₁ := records.consistent valid
    have size : (utrapframe faultVa (k.envs cur).envTf (k.envs cur).envTf.rsp).length = 20 := rfl
    have room : ((utrapframe faultVa (k.envs cur).envTf (k.envs cur).envTf.rsp).flatMap wordBytes).length = 160 := rfl
    have covered : 160 ≤ deliverySize (k.envs cur).envTf.rsp := by
      rw [deliverySize]
      split <;> decide
    have put := valid₁.storeBytes_put role (by
      intro i inside
      rw [room] at inside
      obtain ⟨address, top⟩ := exceptionRsp_byte (k.envs cur).envTf.rsp (i := i) (by omega)
      refine ⟨?_, writable i (by omega)⟩
      have limit := utop_toNat
      rw [BitVec.lt_def]
      omega) stored
    rw [show wordBytes = (Bus.bytes · 8) from funext wordBytes_eq] at put
    rw [memory]
    apply UTrapframe.liesAt_of_words
    intro j w found
    exact (valid₁.userBus_lawful role).put_words (.refl _ g)
      (Memory.distinct_page _ root _ (by rw [size]; decide)) put found

namespace System

variable {C : Type} [DecidableEq C]

theorem trap_pageFault {cr2 : Word} {key : Int} (fault : tf.trapno = tPgflt)
    (done : k.trap e tf cr2 key = .ok (k', some e)) :
    (k.setTf e tf).pageFaultHandler e cr2 = .ok (.left k' (some e)) := by
  unfold Kernel.trap at done
  split at done
  · obtain ⟨k₁, freed, rest⟩ := Fallible.bind_ok.mp done
    have free := Kernel.envFree_status freed
    rcases (schedYield_yields rest).choice e rfl with runnable | ⟨none, -⟩
    · rw [free] at runnable
      cases runnable
    · cases none
  · rename_i alive
    obtain ⟨inner, dispatched, rest⟩ := Fallible.bind_ok.mp done
    unfold Kernel.trapDispatch at dispatched
    simp only [Kernel.setTf_envTf, if_pos fault] at dispatched
    obtain ⟨k₁, cur₁, rfl, -⟩ := pageFaultHandler_handled alive fault dispatched
    cases rest
    exact dispatched

/-- A page fault that the environment survives does not show. The kernel leaves it at its upcall with a frame that
    says where it was, and when the C handler has returned, whatever it and all other environments have done before,
    the upcall goes on with the interrupted program: every register is as it was, and of memory below UTOP it has
    written only one word of the frame and the word below the interrupted stack. -/
theorem fault_transparent (config : BootConfig) (envs : Nat → Env) {ops : List BootOp} {k : Kernel}
    {events : List (Event C)} {s s' : System C} {c : C} {cr2 : Word} {key : Int}
    (booted : Transition.Run BootOp.Step (config.kernel envs) ops k)
    (run : Transition.Run (Transition.Guarded Guard Step) (idle k) events s)
    (fault : tf.trapno = tPgflt) (running : (s.cpus c).cpuEnv = some e) (pml4e : (s.kernel.envs e).envPml4e = some root)
    (stack : Straddles tf.rsp → s.kernel.mem.UserWritable root (uxStackTop - 1))
    (step : Transition.Guarded Guard Step s (.trap c tf cr2 key) s') (kept : (s'.cpus c).cpuEnv = some e) :
    ((s.kernel.envs e).envPgfaultUpcall ≠ 0 ∧ (s'.kernel.envs e).envTf =
        { tf with rip := (s.kernel.envs e).envPgfaultUpcall, rsp := exceptionRsp tf.rsp } ∧
      (tf.utf cr2).LiesAt (userBus root) s'.kernel.mem (exceptionRsp tf.rsp)) ∧
    ∀ later s'' c' root' cpu status, Transition.Run (Transition.Guarded Guard Step) s' later s'' →
      (s''.cpus c').cpuEnv = some e → (s''.kernel.envs e).envPml4e = some root' → (tf.utf cr2).Returned root' ⟨cpu, s''.kernel.mem⟩ →
      ∃ mem, (userCore root' status).run pgfaultUpcall ⟨cpu, s''.kernel.mem⟩ =
          some ⟨⟨tf.cpu.reg, cpu.seg, tf.rip, tf.eflags⟩, mem⟩ ∧ s''.kernel.Isolates none (s''.kernel.setMem mem) ∧
        ∀ b n, Bus.Apart (s''.kernel.mem.Overlaps root') (exceptionRsp tf.rsp + 152) 8 b n →
          Bus.Apart (s''.kernel.mem.Overlaps root') (tf.rsp - 8) 8 b n →
          (userBus root').load n mem b = (userBus root').load n s''.kernel.mem b := by
  have sound := (sound_idle booted).run run
  refine ⟨?_, ?_⟩
  · obtain ⟨g, spaces⟩ := sound.spaces
    have role := spaces.role (sound.inUse running) pml4e
    cases step.2 with
    | trap _ _ _ _ e' k' cur running' user entry =>
      rw [running] at running'
      cases running'
      have chosen : cur = some e := by
        simpa [System.leave] using kept
      subst chosen
      have handled := trap_pageFault fault entry
      obtain ⟨upcall, redirected⟩ := pageFaultHandler_redirects handled
      refine ⟨upcall, redirected, ?_⟩
      have table : ((s.kernel.setTf e tf).envs e).envPml4e = some root := by
        rw [Kernel.setTf_envPml4e]
        exact pml4e
      have registered : ((s.kernel.setTf e tf).envs e).envPgfaultUpcall ≠ 0 := by
        rw [s.kernel.setTf_field e e tf Env.envPgfaultUpcall fun _ => rfl]
        exact upcall
      have saved : ((s.kernel.setTf e tf).envs e).envTf = tf := Kernel.setTf_envTf ..
      have delivers :=
        (@pageFault_delivers (s.kernel.setTf e tf) g e root spaces.memory role table registered cr2).mpr (by
        rw [saved]
        by_cases straddles : Straddles tf.rsp
        · exact .inr (.inr (stack straddles))
        · exact .inr (.inl straddles))
      have lies := delivers.lies spaces.memory role handled
      rwa [saved] at lies
  · intro later s'' c' root' cpu status rest running'' pml4e'' returned
    have sound'' := (sound.step step).run rest
    obtain ⟨g, spaces⟩ := sound''.spaces
    have role := spaces.role (sound''.inUse running'') pml4e''
    obtain ⟨mem, ran, rewrites, others⟩ := returned.resumes spaces.memory role status
    exact ⟨mem, ran, spaces.rewrites_isolates rewrites, others⟩

/-- The first environment allocates a page of code and its exception stack, and sets an upcall. -/
def setUpcall : List (Event Bool) :=
  [.start false, .trap false (syscallTf 4 0 utext 7 0 0) 0 0, .trap false (syscallTf 4 0 0xef7ff000 7 0 0) 0 0,
    .trap false (syscallTf 9 0 utext 0 0 0) 0 0]

def faultTf : Trapframe :=
  { Trapframe.zero with trapno := tPgflt, cs := gdUt ||| 3, rip := utext, rsp := uStackTop, eflags := 0x202 }

theorem writable_of_page {a base : Word} {n page : Nat} (user : (m.mmuWalk root base).map (fun translation =>
      (translation.page, translation.writable, translation.user)) = some (page, true, true)) (below : base < utop)
    (inside : ∀ i < n, (a + BitVec.ofNat 64 i).toNat / 4096 = base.toNat / 4096) : m.Writable root a n := by
  obtain ⟨translation, walk, rights⟩ := Option.map_eq_some_iff.mp user
  simp only [Prod.mk.injEq] at rights
  intro i small
  refine ⟨?_, (Memory.UserWritable.of_page (inside i small)).mpr ⟨translation, walk, rights.2⟩⟩
  have place := inside i small
  have limit := utop_toNat
  rw [BitVec.lt_def] at below ⊢
  omega

/-- The upcall of the first environment returns to it when the C handler has done nothing. -/
theorem fault_transparent_first : ∃ (s s' : System Bool) (cpu : Cpu) (mem : Memory), (s.cpus false).cpuEnv = some 0 ∧
    Step s (.trap false faultTf 0x400000 0) s' ∧ cpu.reg .rsp = 0xef7fff60 ∧ cpu.rip = utext ∧
    (userCore 1 fun _ _ => 0).run pgfaultUpcall ⟨cpu, s'.kernel.mem⟩ =
      some ⟨⟨faultTf.cpu.reg, cpu.seg, faultTf.rip, faultTf.eflags⟩, mem⟩ := by
  have result : (guardedRun setUpcall).bind (fun s => (s.guardedNext (.trap false faultTf 0x400000 0)).map fun s' =>
      ([(s.cpus false).cpuEnv, (s'.cpus false).cpuEnv, (s.kernel.envs 0).envPml4e, (s'.kernel.envs 0).envPml4e],
        decide ((s'.kernel.envs 0).envTf = { faultTf with rip := utext, rsp := 0xef7fff60 }),
        decide ((s'.kernel.mem.mmuWalk 1 (uxStackTop - 0x1000)).map (fun translation =>
          (translation.page, translation.writable, translation.user)) = some (12, true, true)),
        decide ((s'.kernel.mem.mmuWalk 1 (uStackTop - 0x1000)).map (fun translation =>
          (translation.page, translation.writable, translation.user)) = some (2, true, true)))) =
      some ([some 0, some 0, some 1, some 1], true, true, true) := by
    rw [guardedRun, smallBoot_eq]
    decide +kernel
  obtain ⟨s, done, rest⟩ := Option.bind_eq_some_iff.mp result
  obtain ⟨s', moved, shown⟩ := Option.map_eq_some_iff.mp rest
  obtain ⟨k, booted, run⟩ := guardedRun_run done
  simp only [Prod.mk.injEq, List.cons.injEq, and_true, decide_eq_true_eq] at shown
  obtain ⟨⟨running, kept, pml4e, pml4e'⟩, redirected, exceptionStack, ownStack⟩ := shown
  have step := step_of_guardedNext moved
  have transparent := fault_transparent smallMachine (fun _ => default) booted run rfl running pml4e
    (fun straddles => absurd straddles.1 (by decide)) step kept
  have returned : (faultTf.utf 0x400000).Returned 1 ⟨(s'.kernel.envs 0).envTf.cpu, s'.kernel.mem⟩ := by
    have frame := transparent.1.2.2
    have onStack : ∀ i < 160, (exceptionRsp faultTf.rsp + BitVec.ofNat 64 i).toNat / 4096 =
        (uxStackTop - 0x1000).toNat / 4096 := by
      intro i inside
      rw [(exceptionRsp_byte faultTf.rsp inside).1, show (exceptionRsp faultTf.rsp).toNat = 0xef7fff60 by decide,
        show (uxStackTop - 0x1000).toNat = 0xef7ff000 by decide]
      omega
    have below : ∀ i < 8,
        (faultTf.rsp - 8 + BitVec.ofNat 64 i).toNat / 4096 = (uStackTop - 0x1000).toNat / 4096 := by decide
    refine ⟨?_, frame, ?_, writable_of_page exceptionStack (by decide) onStack,
      fun _ => writable_of_page ownStack (by decide) below, ?_⟩
    · rw [redirected]
      rfl
    · rw [redirected]
      rfl
    · rintro - i inside j inside' ⟨translation, translation', walk, walk', page, -⟩
      have walk := (Memory.mmuWalk_of_page (below i inside)).symm.trans walk
      have walk' := (Memory.mmuWalk_of_page (onStack j inside')).symm.trans walk'
      rw [walk] at ownStack
      rw [walk'] at exceptionStack
      simp only [Option.map_some, Option.some.injEq, Prod.mk.injEq] at ownStack exceptionStack
      omega
  obtain ⟨mem, ran, -⟩ := transparent.2 [] s' false 1 _ (fun _ _ => 0) (.nil s') kept pml4e' returned
  refine ⟨s, s', _, mem, running, step.2, ?_, ?_, ran⟩
  · rw [redirected]
    rfl
  · rw [redirected]
    rfl

end System

end Jos
