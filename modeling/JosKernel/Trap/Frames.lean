import JosKernel.Trap.Stubs

namespace Jos

open X64

-- inc/trap.h: struct Trapframe in memory

def PushRegs.reg (regs : PushRegs) : Reg → Word
  | .rax => regs.rax
  | .rbx => regs.rbx
  | .rcx => regs.rcx
  | .rdx => regs.rdx
  | .rbp => regs.rbp
  | .rdi => regs.rdi
  | .rsi => regs.rsi
  | .r8 => regs.r8
  | .r9 => regs.r9
  | .r10 => regs.r10
  | .r11 => regs.r11
  | .r12 => regs.r12
  | .r13 => regs.r13
  | .r14 => regs.r14
  | .r15 => regs.r15
  | .rsp => 0

structure Trapframe.LiesAt (tf : Trapframe) (m : Word → BitVec 8) (a : Word) : Prop where
  regs : ∀ slot ∈ popa, Bus.flat.load 8 m (a + slot.2) = some (tf.regs.reg slot.1)
  es : Bus.flat.load 2 m (a + 120) = some (tf.es.setWidth 64)
  ds : Bus.flat.load 2 m (a + 128) = some (tf.ds.setWidth 64)
  trapno : Bus.flat.load 8 m (a + 136) = some tf.trapno
  err : Bus.flat.load 8 m (a + 144) = some tf.err
  rip : Bus.flat.load 8 m (a + 152) = some tf.rip
  cs : Bus.flat.load 2 m (a + 160) = some (tf.cs.setWidth 64)
  eflags : Bus.flat.load 8 m (a + 168) = some tf.eflags
  rsp : Bus.flat.load 8 m (a + 176) = some tf.rsp
  ss : Bus.flat.load 2 m (a + 184) = some (tf.ss.setWidth 64)

-- The stubs

/-- What `trap` finds in the frame: %ds lies where `tf_es` does, and %es where `tf_ds` does. -/
def TrapHandler.frame (h : TrapHandler) (error : Word) (cpu : Cpu) : Trapframe where
  regs := pushRegs cpu
  es := cpu.seg .ds
  ds := cpu.seg .es
  trapno := h.num
  err := if h.noec then 0 else error
  rip := cpu.rip
  cs := cpu.seg .cs
  eflags := cpu.rflags
  rsp := cpu.reg .rsp
  ss := cpu.seg .ss

variable {base a : Word}

theorem apart_slots {o o' : Word} {n n' : Nat} (small : o.toNat + n ≤ 192) (small' : o'.toNat + n' ≤ 192)
    (apart : o.toNat + n ≤ o'.toNat ∨ o'.toNat + n' ≤ o.toNat) : Bus.Apart Eq (base + o) n (base + o') n' := by
  intro i inside j inside' same
  have offsets : o + BitVec.ofNat 64 i = o' + BitVec.ofNat 64 j := by
    rw [BitVec.add_assoc, BitVec.add_assoc] at same
    exact add_left_cancel same
  have values := congrArg BitVec.toNat offsets
  rw [BitVec.toNat_add, BitVec.toNat_add, BitVec.toNat_ofNat, BitVec.toNat_ofNat] at values
  omega

theorem distinct_slot {o : Word} {n : Nat} (small : n ≤ 192) : Bus.Distinct Eq (base + o) n := by
  intro i inside j inside' before same
  have values := congrArg BitVec.toNat (add_left_cancel same)
  rw [BitVec.toNat_ofNat, BitVec.toNat_ofNat] at values
  omega

def frameSlots : List (Word × Nat) :=
  [(184, 8), (176, 8), (168, 8), (160, 8), (152, 8), (144, 8), (136, 8), (128, 2), (120, 2)] ++
    pusha.map fun slot => (slot.2, 8)

theorem writes_slots (h : TrapHandler) (error : Word) (cpu : Cpu) :
    (h.writes error cpu).map (fun write => (write.offset, write.size)) = frameSlots := rfl

theorem writes_apart (h : TrapHandler) (error : Word) (cpu : Cpu) : (h.writes error cpu).Pairwise fun early late =>
    Bus.Apart Eq (base + late.offset) late.size (base + early.offset) early.size := by
  have descending : frameSlots.Pairwise fun early late =>
      late.1.toNat + late.2 ≤ 192 ∧ early.1.toNat + early.2 ≤ 192 ∧ late.1.toNat + late.2 ≤ early.1.toNat := by decide
  rw [← writes_slots h error cpu] at descending
  exact (List.pairwise_map.mp descending).imp fun ⟨small, small', below⟩ => apart_slots small small' (.inl below)

theorem writes_distinct {h : TrapHandler} {error : Word} {cpu : Cpu} {write : Bus.Write}
    (member : write ∈ h.writes error cpu) : Bus.Distinct Eq (base + write.offset) write.size := by
  have sizes : ∀ slot ∈ frameSlots, slot.2 ≤ 192 := by decide
  have slot := List.mem_map_of_mem (f := fun write : Bus.Write => (write.offset, write.size)) member
  rw [writes_slots] at slot
  exact distinct_slot (sizes _ slot)

theorem flat_puts (m : Word → BitVec 8) (a : Word) (list : List (BitVec 8)) : ∃ m', Bus.flat.put m a list = some m' := by
  induction list generalizing m a with
  | nil => exact ⟨m, rfl⟩
  | cons byte rest ih => exact ih (Function.update m a byte) (a + 1)

theorem flat_writes (m : Word → BitVec 8) (base : Word) (writes : List Bus.Write) :
    ∃ m', Bus.flat.writes base writes m = some m' := by
  induction writes generalizing m with
  | nil => exact ⟨m, rfl⟩
  | cons write rest ih =>
    obtain ⟨middle, stored⟩ := flat_puts m (base + write.offset) (Bus.bytes write.value write.size)
    obtain ⟨m', done⟩ := ih middle
    refine ⟨m', ?_⟩
    rw [Bus.writes, List.foldlM_cons, Bus.store, stored]
    exact done

theorem value_bytes_seg (selector : BitVec 16) :
    Bus.value (Bus.bytes (selector.setWidth 64) 2) = selector.setWidth 64 := by
  apply BitVec.eq_of_toNat_eq
  rw [Bus.value_bytes_toNat _ (by decide), BitVec.toNat_setWidth]
  have bound := selector.isLt
  omega

theorem popa_general : ∀ slot ∈ popa, slot.1 ≠ Reg.rsp := by decide

theorem pushRegs_reg (cpu : Cpu) {r : Reg} (general : r ≠ .rsp) : (pushRegs cpu).reg r = cpu.reg r := by
  cases r with
  | rsp => exact absurd rfl general
  | _ => rfl

theorem TrapHandler.enter_frame {h : TrapHandler} (kind : Core.pushesError h.num = !h.noec) (alu : Word → Word → Word)
    (popfMask entry base error : Word) (s : State (Word → BitVec 8)) :
    ∃ cpu m, h.enter (kernelCore alu popfMask) entry (base + 192) error s = some ⟨cpu, m⟩ ∧ cpu.reg .rdi = base ∧
      (h.frame error s.cpu).LiesAt m base := by
  obtain ⟨cpu, rdi, entered⟩ := enter_eq kind (kernelCore alu popfMask) entry base error s
  obtain ⟨m, written⟩ := flat_writes s.mem base (h.writes error s.cpu)
  obtain ⟨-, back, -⟩ := Bus.flat_lawful.writes_load trivial (writes_apart h error s.cpu)
    (fun write member => writes_distinct member) written
  have word : ∀ o value, ⟨o, 8, value⟩ ∈ h.writes error s.cpu → Bus.flat.load 8 m (base + o) = some value := by
    intro o value member
    rw [back _ member 8 (Nat.le_refl 8), Bus.value_bytes]
  have selector : ∀ o (seg : BitVec 16) n, 2 ≤ n → ⟨o, n, seg.setWidth 64⟩ ∈ h.writes error s.cpu →
      Bus.flat.load 2 m (base + o) = some (seg.setWidth 64) := by
    intro o seg n large member
    rw [back _ member 2 large, value_bytes_seg]
  refine ⟨cpu, m, ?_, rdi, ?_⟩
  · rw [entered]
    change Option.map _ (Bus.flat.writes base (h.writes error s.cpu) s.mem) = _
    rw [written]
    rfl
  · constructor
    · intro slot member
      have saved : slot ∈ pusha := by
        have same : ∀ slot ∈ popa, slot ∈ pusha := by decide
        exact same slot member
      change _ = some ((pushRegs s.cpu).reg slot.1)
      rw [pushRegs_reg _ (popa_general slot member)]
      exact word _ _ (List.mem_append_right _ (List.mem_map_of_mem saved))
    · exact selector 120 _ 2 (Nat.le_refl 2) (List.mem_append_left _ (by simp [frame]))
    · exact selector 128 _ 2 (Nat.le_refl 2) (List.mem_append_left _ (by simp [frame]))
    · exact word 136 _ (List.mem_append_left _ (by simp [frame]))
    · exact word 144 _ (List.mem_append_left _ (by simp [frame]))
    · exact word 152 _ (List.mem_append_left _ (by simp [frame]))
    · exact selector 160 _ 8 (by decide) (List.mem_append_left _ (by simp [frame]))
    · exact word 168 _ (List.mem_append_left _ (by simp [frame]))
    · exact word 176 _ (List.mem_append_left _ (by simp [frame]))
    · exact selector 184 _ 8 (by decide) (List.mem_append_left _ (by simp [frame]))

-- kern/env.c

def popTf : List Instr :=
  Core.restoring popa ++ [.add .rsp 120, .loadSeg .es .rsp 0, .loadSeg .ds .rsp 8, .add .rsp 16, .add .rsp 16, .iret]

def envPopTf (core : Core (Word → BitVec 8)) (tf : Word) (s : State (Word → BitVec 8)) :
    Option (State (Word → BitVec 8)) :=
  core.run popTf ⟨s.cpu.setReg .rsp tf, s.mem⟩

def Trapframe.cpu (tf : Trapframe) : Cpu where
  reg := fun r => if r = .rsp then tf.rsp else tf.regs.reg r
  seg
    | .es => tf.es
    | .ds => tf.ds
    | .cs => tf.cs
    | .ss => tf.ss
  rip := tf.rip
  rflags := tf.eflags

section Instructions

variable {core : Core (Word → BitVec 8)} {cpu : Cpu} {m : Word → BitVec 8}

theorem run_add (value : Word) (here : cpu.reg .rsp = a) : ∃ after, core.run [.add .rsp value] ⟨cpu, m⟩ = some ⟨after, m⟩ ∧
    after.reg = Function.update cpu.reg .rsp (a + value) ∧ after.seg = cpu.seg := by
  rw [← here]
  exact ⟨_, rfl, rfl, rfl⟩

theorem narrow_selector (selector : BitVec 16) : (selector.setWidth 64).setWidth 16 = selector := by
  rw [BitVec.setWidth_setWidth_of_le _ (by decide), BitVec.setWidth_eq]

theorem run_loadSeg {target : Seg} {offset : Word} {selector : BitVec 16}
    (loaded : core.bus.load 2 m (cpu.reg .rsp + offset) = some (selector.setWidth 64)) :
    core.run [.loadSeg target .rsp offset] ⟨cpu, m⟩ = some ⟨cpu.setSeg target selector, m⟩ := by
  rw [Core.run_cons, Core.exec, loaded]
  change some _ = _
  rw [narrow_selector]

theorem run_iret {rip rflags rsp : Word} {cs ss : BitVec 16} (here : cpu.reg .rsp = a)
    (ripLoaded : core.bus.load 8 m a = some rip) (csLoaded : core.bus.load 2 m (a + 8) = some (cs.setWidth 64))
    (rflagsLoaded : core.bus.load 8 m (a + 16) = some rflags) (rspLoaded : core.bus.load 8 m (a + 24) = some rsp)
    (ssLoaded : core.bus.load 2 m (a + 32) = some (ss.setWidth 64)) :
    core.run [.iret] ⟨cpu, m⟩ = some ⟨⟨Function.update cpu.reg .rsp rsp,
      Function.update (Function.update cpu.seg .cs cs) .ss ss, rip, rflags⟩, m⟩ := by
  rw [Core.run_cons, Core.exec, here]
  dsimp only
  rw [ripLoaded, csLoaded, rflagsLoaded, rspLoaded, ssLoaded]
  change some _ = _
  rw [narrow_selector, narrow_selector]
  rfl

end Instructions

theorem offset_add (a : Word) {o o' sum : Word} (total : o + o' = sum) : a + o + o' = a + sum := by
  rw [BitVec.add_assoc, total]

theorem Trapframe.LiesAt.pop_rest {tf : Trapframe} {m : Word → BitVec 8} (lies : tf.LiesAt m a) {cpu : Cpu}
    (stack : cpu.reg .rsp = a) (alu : Word → Word → Word) (popfMask : Word) : (kernelCore alu popfMask).run
      [.add .rsp 120, .loadSeg .es .rsp 0, .loadSeg .ds .rsp 8, .add .rsp 16, .add .rsp 16, .iret] ⟨cpu, m⟩ =
        some ⟨⟨Function.update cpu.reg .rsp tf.rsp, tf.cpu.seg, tf.rip, tf.eflags⟩, m⟩ := by
  have bus : (kernelCore alu popfMask).bus = Bus.flat := rfl
  obtain ⟨cpu₁, ran₁, reg₁, seg₁⟩ := @run_add a (kernelCore alu popfMask) cpu m 120 stack
  have stack₁ : cpu₁.reg .rsp = a + 120 := by rw [reg₁, Function.update_self]
  have ran₂ := @run_loadSeg (kernelCore alu popfMask) cpu₁ m .es 0 tf.es (by
    rw [stack₁, offset_add a (show (120 : Word) + 0 = 120 from rfl)]
    exact lies.es)
  have ran₃ := @run_loadSeg (kernelCore alu popfMask) (cpu₁.setSeg .es tf.es) m .ds 8 tf.ds (by
    rw [Cpu.setSeg_reg, stack₁, offset_add a (show (120 : Word) + 8 = 128 from rfl)]
    exact lies.ds)
  obtain ⟨cpu₄, ran₄, reg₄, seg₄⟩ := @run_add (a + 120) (kernelCore alu popfMask)
    ((cpu₁.setSeg .es tf.es).setSeg .ds tf.ds) m 16 (by rw [Cpu.setSeg_reg, Cpu.setSeg_reg, stack₁])
  have stack₄ : cpu₄.reg .rsp = a + 136 := by
    rw [reg₄, Function.update_self, offset_add a (show (120 : Word) + 16 = 136 from rfl)]
  obtain ⟨cpu₅, ran₅, reg₅, seg₅⟩ := @run_add (a + 136) (kernelCore alu popfMask) cpu₄ m 16 stack₄
  have stack₅ : cpu₅.reg .rsp = a + 152 := by
    rw [reg₅, Function.update_self, offset_add a (show (136 : Word) + 16 = 152 from rfl)]
  have ran₆ := @run_iret (a + 152) (kernelCore alu popfMask) cpu₅ m tf.rip tf.eflags tf.rsp tf.cs tf.ss stack₅ lies.rip
    (by rw [offset_add a (show (152 : Word) + 8 = 160 from rfl)]; exact lies.cs)
    (by rw [offset_add a (show (152 : Word) + 16 = 168 from rfl)]; exact lies.eflags)
    (by rw [offset_add a (show (152 : Word) + 24 = 176 from rfl)]; exact lies.rsp)
    (by rw [offset_add a (show (152 : Word) + 32 = 184 from rfl)]; exact lies.ss)
  have regs : Function.update cpu₅.reg .rsp tf.rsp = Function.update cpu.reg .rsp tf.rsp := by
    rw [reg₅, Function.update_idem, reg₄, Function.update_idem, Cpu.setSeg_reg, Cpu.setSeg_reg, reg₁,
      Function.update_idem]
  have segs : Function.update (Function.update cpu₅.seg .cs tf.cs) .ss tf.ss = tf.cpu.seg := by
    funext seg
    rw [seg₅, seg₄]
    cases seg <;> rfl
  rw [regs, segs] at ran₆
  exact Core.run_done ran₁ (Core.run_done ran₂ (Core.run_done ran₃ (Core.run_done ran₄ (Core.run_done ran₅ ran₆))))

theorem popa_all (r : Reg) : r ∈ popa.map Prod.fst ↔ r ≠ .rsp := by
  cases r <;> decide

theorem Trapframe.LiesAt.pop {tf : Trapframe} {s : State (Word → BitVec 8)} (lies : tf.LiesAt s.mem a)
    (alu : Word → Word → Word) (popfMask : Word) :
    envPopTf (kernelCore alu popfMask) a s = some ⟨tf.cpu, s.mem⟩ := by
  have restored := @Core.run_restoring _ (kernelCore alu popfMask) popa ⟨s.cpu.setReg .rsp a, s.mem⟩ tf.regs.reg
    (fun slot member => popa_general slot member) (by
      intro slot member
      rw [Cpu.setReg_same]
      exact lies.regs slot member)
  generalize middle : (Cpu.mk (fun r => if r ∈ popa.map Prod.fst then tf.regs.reg r else (s.cpu.setReg .rsp a).reg r)
    (s.cpu.setReg .rsp a).seg (s.cpu.setReg .rsp a).rip (s.cpu.setReg .rsp a).rflags) = cpu at restored
  have regs : ∀ r, cpu.reg r = if r ≠ .rsp then tf.regs.reg r else a := by
    intro r
    rw [← middle]
    dsimp only
    simp only [popa_all]
    by_cases stack : r = .rsp
    · rw [if_neg (not_not.mpr stack), if_neg (not_not.mpr stack), stack, Cpu.setReg_same]
    · rw [if_pos stack, if_pos stack]
  have same : Function.update cpu.reg .rsp tf.rsp = tf.cpu.reg := by
    funext r
    rw [Function.update_apply, regs, Trapframe.cpu]
    dsimp only
    by_cases stack : r = .rsp
    · rw [if_pos stack, if_pos stack]
    · rw [if_neg stack, if_neg stack, if_pos stack]
  have rest := lies.pop_rest (regs .rsp) alu popfMask
  rw [same] at rest
  exact Core.run_done restored rest

end Jos
