import JosKernel.Lib.X64
import JosKernel.Trap.Frames

namespace Jos

open X64

variable {M : Type} {core : Core M} {inv : M → Prop} {overlaps : Word → Word → Prop} {m : M} {a : Word}

-- inc/trap.h: struct UTrapframe in memory

structure UTrapframe where
  faultVa : Word
  err : Word
  regs : PushRegs
  rip : Word
  eflags : Word
  rsp : Word
  deriving DecidableEq, Repr

def Trapframe.utf (tf : Trapframe) (faultVa : Word) : UTrapframe :=
  ⟨faultVa, tf.err, tf.regs, tf.rip, tf.eflags, tf.rsp⟩

structure UTrapframe.LiesAt (utf : UTrapframe) (bus : Bus M) (m : M) (a : Word) : Prop where
  faultVa : bus.load 8 m a = some utf.faultVa
  err : bus.load 8 m (a + 8) = some utf.err
  regs : ∀ slot ∈ popa, bus.load 8 m (a + 16 + slot.2) = some (utf.regs.reg slot.1)
  rip : bus.load 8 m (a + 136) = some utf.rip
  eflags : bus.load 8 m (a + 144) = some utf.eflags
  rsp : bus.load 8 m (a + 152) = some utf.rsp

theorem UTrapframe.liesAt_of_words {bus : Bus M} (faultVa : Word) (tf : Trapframe)
    (there : ∀ (j : Nat) (w : Word), (utrapframe faultVa tf tf.rsp)[j]? = some w →
      bus.load 8 m (a + BitVec.ofNat 64 (8 * j)) = some w) : (tf.utf faultVa).LiesAt bus m a where
  faultVa := by
    have first := there 0 _ rfl
    rwa [Nat.mul_zero, BitVec.add_zero] at first
  err := there 1 _ rfl
  regs := by
    have word : ∀ (j : Nat) (offset w : Word), (16 : Word) + offset = BitVec.ofNat 64 (8 * j) →
        (utrapframe faultVa tf tf.rsp)[j]? = some w → bus.load 8 m (a + 16 + offset) = some w := by
      intro j offset w place found
      rw [offset_add a place]
      exact there j w found
    intro slot member
    simp only [popa, List.mem_cons, List.not_mem_nil, or_false] at member
    rcases member with rfl | rfl | rfl | rfl | rfl | rfl | rfl | rfl | rfl | rfl | rfl | rfl | rfl | rfl | rfl
    · exact word 2 _ _ rfl rfl
    · exact word 3 _ _ rfl rfl
    · exact word 4 _ _ rfl rfl
    · exact word 5 _ _ rfl rfl
    · exact word 6 _ _ rfl rfl
    · exact word 7 _ _ rfl rfl
    · exact word 8 _ _ rfl rfl
    · exact word 9 _ _ rfl rfl
    · exact word 10 _ _ rfl rfl
    · exact word 11 _ _ rfl rfl
    · exact word 12 _ _ rfl rfl
    · exact word 13 _ _ rfl rfl
    · exact word 14 _ _ rfl rfl
    · exact word 15 _ _ rfl rfl
    · exact word 16 _ _ rfl rfl
  rip := there 17 _ rfl
  eflags := there 18 _ rfl
  rsp := there 19 _ rfl

-- lib/pfentry.S

def pgfaultUpcall : List Instr :=
  [.load .rax .rsp 136, .subMem .rsp 152 8, .load .rbx .rsp 152, .store .rbx 0 .rax, .add .rsp 16] ++
    (Core.restoring popa ++ [.add .rsp 120, .add .rsp 8, .popf, .pop .rsp, .ret])

/-- The address of the interrupted instruction goes below the interrupted stack, which then begins there. -/
theorem UTrapframe.LiesAt.prepare {utf : UTrapframe} {cpu : Cpu} {m₁ m₂ : M} (lies : utf.LiesAt core.bus m a)
    (stack : cpu.reg .rsp = a) (lowered : core.bus.store 8 m (a + 152) (utf.rsp - 8) = some m₁)
    (shown : core.bus.load 8 m₁ (a + 152) = some (utf.rsp - 8))
    (planted : core.bus.store 8 m₁ (utf.rsp - 8) utf.rip = some m₂) : ∃ after,
      core.run [.load .rax .rsp 136, .subMem .rsp 152 8, .load .rbx .rsp 152, .store .rbx 0 .rax, .add .rsp 16]
        ⟨cpu, m⟩ = some ⟨after, m₂⟩ ∧ after.reg .rsp = a + 16 ∧ after.seg = cpu.seg ∧
      after.rflags = core.alu (core.alu cpu.rflags (utf.rsp - 8)) (a + 16) := by
  have kept : ∀ (cpu : Cpu) (r : Reg) (value : Word), r ≠ .rsp → (cpu.setReg r value).reg .rsp = cpu.reg .rsp :=
    fun cpu r value other => cpu.setReg_other value (Ne.symm other)
  let cpu₁ := cpu.setReg .rax utf.rip
  have stack₁ : cpu₁.reg .rsp = a := (kept cpu .rax utf.rip (by decide)).trans stack
  let cpu₂ : Cpu := { cpu₁ with rflags := core.alu cpu₁.rflags (utf.rsp - 8) }
  have stack₂ : cpu₂.reg .rsp = a := stack₁
  let cpu₃ := cpu₂.setReg .rbx (utf.rsp - 8)
  have stack₃ : cpu₃.reg .rsp = a := (kept cpu₂ .rbx _ (by decide)).trans stack₂
  have ran₁ : core.run [.load .rax .rsp 136] ⟨cpu, m⟩ = some ⟨cpu₁, m⟩ := by
    apply Core.run_load
    rw [stack]
    exact lies.rip
  have ran₂ : core.run [.subMem .rsp 152 8] ⟨cpu₁, m⟩ = some ⟨cpu₂, m₁⟩ := by
    apply Core.run_subMem
    · rw [stack₁]
      exact lies.rsp
    · rw [stack₁]
      exact lowered
  have ran₃ : core.run [.load .rbx .rsp 152] ⟨cpu₂, m₁⟩ = some ⟨cpu₃, m₁⟩ := by
    apply Core.run_load
    rw [stack₂]
    exact shown
  have ran₄ : core.run [.store .rbx 0 .rax] ⟨cpu₃, m₁⟩ = some ⟨cpu₃, m₂⟩ := by
    apply Core.run_store
    have target : cpu₃.reg .rbx + 0 = utf.rsp - 8 := (BitVec.add_zero _).trans (Cpu.setReg_same ..)
    have source : cpu₃.reg .rax = utf.rip :=
      (cpu₂.setReg_other (utf.rsp - 8) (show Reg.rax ≠ .rbx by decide)).trans (cpu.setReg_same .rax utf.rip)
    rw [target, source]
    exact planted
  refine ⟨{ cpu₃.setReg .rsp (a + 16) with rflags := core.alu cpu₃.rflags (a + 16) }, ?_,
    cpu₃.setReg_same .rsp (a + 16), rfl, rfl⟩
  have ran₅ : core.run [.add .rsp 16] ⟨cpu₃, m₂⟩ =
      some ⟨{ cpu₃.setReg .rsp (a + 16) with rflags := core.alu cpu₃.rflags (a + 16) }, m₂⟩ := by
    rw [← stack₃]
    rfl
  exact Core.run_done ran₁ (Core.run_done ran₂ (Core.run_done ran₃ (Core.run_done ran₄ ran₅)))

theorem run_unwind {cpu : Cpu} {rsp rip eflags : Word} (stack : cpu.reg .rsp = a + 16)
    (eflagsLoaded : core.bus.load 8 m (a + 144) = some eflags)
    (rspLoaded : core.bus.load 8 m (a + 152) = some (rsp - 8))
    (ripLoaded : core.bus.load 8 m (rsp - 8) = some rip) :
    core.run [.add .rsp 120, .add .rsp 8, .popf, .pop .rsp, .ret] ⟨cpu, m⟩ =
      some ⟨⟨Function.update cpu.reg .rsp rsp, cpu.seg, rip,
        (core.alu (core.alu cpu.rflags (a + 136)) (a + 144) &&& ~~~core.popfMask) ||| (eflags &&& core.popfMask)⟩, m⟩ := by
  let cpu₁ : Cpu := { cpu.setReg .rsp (a + 136) with rflags := core.alu cpu.rflags (a + 136) }
  let cpu₂ : Cpu := { cpu₁.setReg .rsp (a + 144) with rflags := core.alu cpu₁.rflags (a + 144) }
  let cpu₃ : Cpu := { cpu₂.setReg .rsp (a + 152) with
    rflags := (cpu₂.rflags &&& ~~~core.popfMask) ||| (eflags &&& core.popfMask) }
  let cpu₄ := (cpu₃.setReg .rsp (a + 160)).setReg .rsp (rsp - 8)
  have ran₁ : core.run [.add .rsp 120] ⟨cpu, m⟩ = some ⟨cpu₁, m⟩ := by
    rw [Core.run_cons, Core.exec, stack, offset_add a (show (16 : Word) + 120 = 136 from rfl)]
    rfl
  have ran₂ : core.run [.add .rsp 8] ⟨cpu₁, m⟩ = some ⟨cpu₂, m⟩ := by
    rw [Core.run_cons, Core.exec, show cpu₁.reg .rsp = a + 136 from cpu.setReg_same .rsp (a + 136),
      offset_add a (show (136 : Word) + 8 = 144 from rfl)]
    rfl
  have ran₃ : core.run [.popf] ⟨cpu₂, m⟩ = some ⟨cpu₃, m⟩ := by
    have here : cpu₂.reg .rsp = a + 144 := cpu₁.setReg_same .rsp (a + 144)
    rw [Core.run_popf (by rw [here]; exact eflagsLoaded), here, offset_add a (show (144 : Word) + 8 = 152 from rfl)]
  have ran₄ : core.run [.pop .rsp] ⟨cpu₃, m⟩ = some ⟨cpu₄, m⟩ := by
    have here : cpu₃.reg .rsp = a + 152 := cpu₂.setReg_same .rsp (a + 152)
    rw [Core.run_pop (by rw [here]; exact rspLoaded), here, offset_add a (show (152 : Word) + 8 = 160 from rfl)]
  have ran₅ : core.run [.ret] ⟨cpu₄, m⟩ = some ⟨{ cpu₄.setReg .rsp rsp with rip := rip }, m⟩ := by
    have here : cpu₄.reg .rsp = rsp - 8 := Cpu.setReg_same ..
    rw [Core.run_ret (by rw [here]; exact ripLoaded), here, BitVec.sub_add_cancel]
  have last : ({ cpu₄.setReg .rsp rsp with rip := rip } : Cpu) = ⟨Function.update cpu.reg .rsp rsp, cpu.seg, rip,
      (core.alu (core.alu cpu.rflags (a + 136)) (a + 144) &&& ~~~core.popfMask) ||| (eflags &&& core.popfMask)⟩ := by
    simp only [cpu₄, cpu₃, cpu₂, cpu₁, Cpu.setReg, Function.update_idem]
  rw [last] at ran₅
  exact Core.run_done ran₁ (Core.run_done ran₂ (Core.run_done ran₃ (Core.run_done ran₄ ran₅)))

/-- The upcall resumes what the frame describes. It changes the word of the frame that held the stack pointer, and
    the word below the interrupted stack. -/
theorem UTrapframe.LiesAt.resume {utf : UTrapframe} {s : State M} (lies : utf.LiesAt core.bus s.mem a)
    (lawful : core.bus.Lawful inv overlaps) (good : inv s.mem) (stack : s.cpu.reg .rsp = a)
    (frame : Bus.Distinct overlaps a 160) (word : Bus.Distinct overlaps (utf.rsp - 8) 8)
    (apart : Bus.Apart overlaps (utf.rsp - 8) 8 a 160)
    (frameStored : ∀ m value, inv m → ∃ m', core.bus.store 8 m (a + 152) value = some m')
    (wordStored : ∀ m value, inv m → ∃ m', core.bus.store 8 m (utf.rsp - 8) value = some m')
    (status : ∀ flags result, core.alu flags result &&& ~~~core.popfMask = flags &&& ~~~core.popfMask) : ∃ mem,
      core.run pgfaultUpcall s = some ⟨⟨fun r => if r = .rsp then utf.rsp else utf.regs.reg r, s.cpu.seg, utf.rip,
        (s.cpu.rflags &&& ~~~core.popfMask) ||| (utf.eflags &&& core.popfMask)⟩, mem⟩ ∧
      inv mem ∧ ∀ b k, Bus.Apart overlaps (a + 152) 8 b k → Bus.Apart overlaps (utf.rsp - 8) 8 b k →
        core.bus.load k mem b = core.bus.load k s.mem b := by
  obtain ⟨m₁, lowered⟩ := frameStored s.mem (utf.rsp - 8) good
  have good₁ := lawful.put_inv good lowered
  have slot : Bus.Distinct overlaps (a + 152) 8 := @Bus.Distinct.part overlaps a 160 152 8 frame (by omega)
  have shown : core.bus.load 8 m₁ (a + 152) = some (utf.rsp - 8) := by
    rw [lawful.load_same good slot lowered (Nat.le_refl 8), Bus.value_bytes]
  obtain ⟨m₂, planted⟩ := wordStored m₁ utf.rip good₁
  have good₂ := lawful.put_inv good₁ planted
  have others : ∀ b k, Bus.Apart overlaps (a + 152) 8 b k → Bus.Apart overlaps (utf.rsp - 8) 8 b k →
      core.bus.load k m₂ b = core.bus.load k s.mem b := by
    intro b k first second
    rw [lawful.load_apart good₁ planted second, lawful.load_apart good lowered first]
  have below : ∀ o : Nat, o + 8 ≤ 152 →
      core.bus.load 8 m₂ (a + BitVec.ofNat 64 o) = core.bus.load 8 s.mem (a + BitVec.ofNat 64 o) := by
    intro o inside
    apply others
    · exact @Bus.Distinct.apart overlaps a 160 152 o 8 8 frame inside (by omega)
    · exact apart.part (by omega)
  have outside : Bus.Apart overlaps (utf.rsp - 8) 8 (a + 152) 8 :=
    @Bus.Apart.part overlaps _ a 8 160 152 8 apart (by omega)
  have rspLoaded : core.bus.load 8 m₂ (a + 152) = some (utf.rsp - 8) := by
    rw [lawful.load_apart good₁ planted outside, shown]
  have ripLoaded : core.bus.load 8 m₂ (utf.rsp - 8) = some utf.rip := by
    rw [lawful.load_same good₁ word planted (Nat.le_refl 8), Bus.value_bytes]
  obtain ⟨cpu, ran₁, stack₁, seg₁, flags₁⟩ := lies.prepare stack lowered shown planted
  have restored := @Core.run_restoring _ core popa ⟨cpu, m₂⟩ utf.regs.reg popa_general (by
    intro slot member
    have bound : ∀ slot ∈ popa, 16 + slot.2.toNat + 8 ≤ 152 := by decide
    have place : a + 16 + slot.2 = a + BitVec.ofNat 64 (16 + slot.2.toNat) := by
      rw [BitVec.add_assoc, BitVec.ofNat_add, BitVec.ofNat_toNat, BitVec.setWidth_eq]
      rfl
    rw [stack₁, place, below _ (bound slot member), ← place]
    exact lies.regs slot member)
  let after : Cpu := { cpu with reg := fun r => if r ∈ popa.map Prod.fst then utf.regs.reg r else cpu.reg r }
  have unwound := @run_unwind _ core m₂ a after utf.rsp utf.rip utf.eflags stack₁
    ((below 144 (Nat.le_refl 152)).trans lies.eflags) rspLoaded ripLoaded
  refine ⟨m₂, ?_, good₂, others⟩
  rw [pgfaultUpcall, Core.run_done ran₁ (Core.run_done restored unwound)]
  congr 2
  rw [Cpu.mk.injEq]
  refine ⟨?_, seg₁, rfl, ?_⟩
  · funext r
    rw [Function.update_apply]
    by_cases top : r = .rsp
    · rw [if_pos top, if_pos top]
    · rw [if_neg top, if_neg top]
      exact if_pos ((popa_all r).mpr top)
  · rw [status, status, flags₁, status, status]

end Jos
