import JosKernel.Lib.X64
import JosKernel.Trap.Entry

namespace Jos

open X64

-- kern/macro.h: where the registers lie

def pusha : List (Reg × Word) :=
  [(.rax, 112), (.rbx, 104), (.rcx, 96), (.rdx, 88), (.rbp, 80), (.rdi, 72), (.rsi, 64), (.r8, 56), (.r9, 48),
    (.r10, 40), (.r11, 32), (.r12, 24), (.r13, 16), (.r14, 8), (.r15, 0)]

def popa : List (Reg × Word) :=
  [(.r15, 0), (.r14, 8), (.r13, 16), (.r12, 24), (.r11, 32), (.r10, 40), (.r9, 48), (.r8, 56), (.rsi, 64), (.rdi, 72),
    (.rbp, 80), (.rdx, 88), (.rcx, 96), (.rbx, 104), (.rax, 112)]

-- kern/trapentry.S

/-- `TRAPHANDLER` or `TRAPHANDLER_NOEC` for the trap `num`. -/
structure TrapHandler where
  num : Word
  noec : Bool
  deriving DecidableEq, Repr

def trapHandlers : List TrapHandler :=
  [⟨0, true⟩, ⟨1, true⟩, ⟨2, true⟩, ⟨3, true⟩, ⟨4, true⟩, ⟨5, true⟩, ⟨6, true⟩, ⟨7, true⟩, ⟨8, false⟩,
    ⟨10, false⟩, ⟨11, false⟩, ⟨12, false⟩, ⟨13, false⟩, ⟨14, false⟩,
    ⟨16, true⟩, ⟨17, false⟩, ⟨18, true⟩, ⟨19, true⟩,
    ⟨48, true⟩, ⟨500, true⟩,
    ⟨32 + 0, true⟩, ⟨32 + 1, true⟩, ⟨32 + 4, true⟩, ⟨32 + 7, true⟩, ⟨32 + 14, true⟩, ⟨32 + 19, true⟩]

def TrapHandler.pushes (h : TrapHandler) : List Word := if h.noec then [0, h.num] else [h.num]

def TrapHandler.code (h : TrapHandler) : List Instr := h.pushes.map .push

def gdKt : BitVec 16 := 0x08
def gdKd : BitVec 16 := 0x10

def pushSeg (seg : Seg) : List Instr := [.sub .rsp 8, .storeSeg .rsp 0 seg]

def alltraps : List Instr :=
  pushSeg .es ++ (pushSeg .ds ++ ([.sub .rsp 120] ++ (Core.saving pusha ++
    [.movWord .rax gdKd, .movSeg .ds .rax, .movSeg .es .rax, .mov .rdi .rsp])))

def kernelCore (alu : Word → Word → Word) (popfMask : Word) : Core (Word → BitVec 8) := ⟨Bus.flat, alu, popfMask⟩

/-- From the interrupt to the call of `trap`: the stack of the CPU begins at `stack`, the CPU pushes the error
    code `error` if the exception has one. -/
def TrapHandler.enter (h : TrapHandler) (core : Core (Word → BitVec 8)) (entry stack error : Word)
    (s : State (Word → BitVec 8)) : Option (State (Word → BitVec 8)) := do
  let s ← core.interrupt gdKt entry stack (if Core.pushesError h.num then some error else none) s
  core.run (h.code ++ alltraps) s

def pushRegs (cpu : Cpu) : PushRegs where
  r15 := cpu.reg .r15
  r14 := cpu.reg .r14
  r13 := cpu.reg .r13
  r12 := cpu.reg .r12
  r11 := cpu.reg .r11
  r10 := cpu.reg .r10
  r9 := cpu.reg .r9
  r8 := cpu.reg .r8
  rsi := cpu.reg .rsi
  rdi := cpu.reg .rdi
  rbp := cpu.reg .rbp
  rdx := cpu.reg .rdx
  rcx := cpu.reg .rcx
  rbx := cpu.reg .rbx
  rax := cpu.reg .rax

/-- What the stub and `_alltraps` store, relative to the frame: the two segment registers as they push them. -/
def TrapHandler.writes (h : TrapHandler) (error : Word) (cpu : Cpu) : List Bus.Write :=
  [⟨184, 8, (cpu.seg .ss).setWidth 64⟩, ⟨176, 8, cpu.reg .rsp⟩, ⟨168, 8, cpu.rflags⟩,
    ⟨160, 8, (cpu.seg .cs).setWidth 64⟩, ⟨152, 8, cpu.rip⟩, ⟨144, 8, if h.noec then 0 else error⟩, ⟨136, 8, h.num⟩,
    ⟨128, 2, (cpu.seg .es).setWidth 64⟩, ⟨120, 2, (cpu.seg .ds).setWidth 64⟩] ++
    pusha.map fun slot => ⟨slot.2, 8, cpu.reg slot.1⟩

variable {core : Core (Word → BitVec 8)}

section Entry

variable {cpu : Cpu} {base : Word}

theorem sub_stores (core : Core (Word → BitVec 8)) {top : Word} (value : Word) (here : cpu.reg .rsp = base + top) : ∃ after,
    after.reg = Function.update cpu.reg .rsp (base + (top - value)) ∧ after.seg = cpu.seg ∧
      core.Stores [.sub .rsp value] cpu base [] after := by
  let rsp := base + (top - value)
  refine ⟨{ cpu.setReg .rsp rsp with rflags := core.alu cpu.rflags rsp }, rfl, rfl, .quiet fun mem => ?_⟩
  rw [Core.run_cons, Core.exec, here, Core.sub_offset]
  rfl

theorem pushSeg_stores (core : Core (Word → BitVec 8)) {top : Word} (seg : Seg) (here : cpu.reg .rsp = base + top) : ∃ after,
    after.reg = Function.update cpu.reg .rsp (base + (top - 8)) ∧ after.seg = cpu.seg ∧
      core.Stores (pushSeg seg) cpu base [⟨top - 8, 2, (cpu.seg seg).setWidth 64⟩] after := by
  obtain ⟨after, regs, segs, lowered⟩ := sub_stores core 8 here
  have stored : core.Stores [.storeSeg .rsp 0 seg] after base [⟨top - 8, 2, (cpu.seg seg).setWidth 64⟩] after := by
    apply Core.Stores.single
    intro mem
    simp only [Core.exec, regs, segs, Function.update_self]
    rw [show base + (top - 8) + 0 = base + (top - 8) from BitVec.add_zero _]
  exact ⟨after, regs, segs, lowered.append stored⟩

theorem alltraps_stores (core : Core (Word → BitVec 8)) (here : cpu.reg .rsp = base + 136) : ∃ after, after.reg .rdi = base ∧
    core.Stores alltraps cpu base (⟨128, 2, (cpu.seg .es).setWidth 64⟩ :: ⟨120, 2, (cpu.seg .ds).setWidth 64⟩ ::
      pusha.map fun slot => ⟨slot.2, 8, cpu.reg slot.1⟩) after := by
  obtain ⟨cpu₁, regs₁, segs₁, es⟩ := pushSeg_stores core .es here
  have stack₁ : cpu₁.reg .rsp = base + 128 := by
    rw [regs₁, Function.update_self]
    rfl
  obtain ⟨cpu₂, regs₂, segs₂, ds⟩ := pushSeg_stores core .ds stack₁
  have stack₂ : cpu₂.reg .rsp = base + 120 := by
    rw [regs₂, Function.update_self]
    rfl
  obtain ⟨cpu₃, regs₃, segs₃, lowered⟩ := sub_stores core 120 stack₂
  have stack₃ : cpu₃.reg .rsp = base := by
    rw [regs₃, Function.update_self]
    exact BitVec.add_zero base
  have saved := Core.Stores.saving core pusha stack₃
  have same : (pusha.map fun slot => (⟨slot.2, 8, cpu₃.reg slot.1⟩ : Bus.Write)) =
      pusha.map fun slot => ⟨slot.2, 8, cpu.reg slot.1⟩ := by
    simp [pusha, regs₃, regs₂, regs₁]
  rw [same] at saved
  rw [segs₁] at ds
  let rax := (cpu₃.reg .rax >>> 16 <<< 16) ||| gdKd.setWidth 64
  let cpu₄ := ((cpu₃.setReg .rax rax).setSeg .ds (rax.setWidth 16)).setSeg .es (rax.setWidth 16)
  have moved : core.Stores [.movWord .rax gdKd, .movSeg .ds .rax, .movSeg .es .rax, .mov .rdi .rsp] cpu₃ base []
      (cpu₄.setReg .rdi (cpu₄.reg .rsp)) := by
    apply Core.Stores.quiet
    intro mem
    simp only [Core.run_cons, Core.exec, Option.bind_some, Cpu.setReg_same, Cpu.setSeg_reg, Core.run_nil, cpu₄, rax]
  refine ⟨_, ?_, es.append (ds.append (lowered.append (saved.append moved)))⟩
  rw [Cpu.setReg_same, Cpu.setSeg_reg, Cpu.setSeg_reg, Cpu.setReg_other _ _ (by decide), stack₃]

def TrapHandler.top (h : TrapHandler) : Word := if h.noec then 152 else 144

theorem code_stores {h : TrapHandler} (here : cpu.reg .rsp = base + h.top) :
    core.Stores h.code cpu base (Core.pushed h.top h.pushes) (cpu.setReg .rsp (base + 136)) := by
  have lowered : Core.lowered h.top h.pushes = 136 := by
    unfold TrapHandler.top TrapHandler.pushes
    cases h.noec <;> rfl
  rw [← lowered]
  exact .push core h.pushes here

theorem enter_eq {h : TrapHandler} (kind : Core.pushesError h.num = !h.noec) (core : Core (Word → BitVec 8))
    (entry base error : Word) (s : State (Word → BitVec 8)) :
    ∃ cpu, cpu.reg .rdi = base ∧ h.enter core entry (base + 192) error s =
      (core.bus.writes base (h.writes error s.cpu) s.mem).map (State.mk cpu) := by
  let pushesError := if Core.pushesError h.num then some error else none
  obtain ⟨cpu, regs, segs, entered⟩ := core.interrupt_eq gdKt entry base 192 pushesError s
  have stack : cpu.reg .rsp = base + h.top := by
    rw [regs, Function.update_self]
    simp only [pushesError, kind, TrapHandler.top]
    cases h.noec <;> rfl
  obtain ⟨after, rdi, saved⟩ := alltraps_stores core (Cpu.setReg_same cpu .rsp (base + 136))
  have rest := (code_stores stack).append saved
  refine ⟨after, rdi, ?_⟩
  have whole : h.writes error s.cpu = Core.pushed 192 (Core.interruptFrame s.cpu pushesError) ++
      (Core.pushed h.top h.pushes ++ (⟨128, 2, ((cpu.setReg .rsp (base + 136)).seg .es).setWidth 64⟩ ::
        ⟨120, 2, ((cpu.setReg .rsp (base + 136)).seg .ds).setWidth 64⟩ ::
          pusha.map fun slot => ⟨slot.2, 8, (cpu.setReg .rsp (base + 136)).reg slot.1⟩)) := by
    rw [Cpu.setReg_seg, segs .es (by decide) (by decide), segs .ds (by decide) (by decide)]
    simp only [pushesError, kind, TrapHandler.top, TrapHandler.pushes, TrapHandler.writes]
    have same : (pusha.map fun slot => (⟨slot.2, 8, (cpu.setReg .rsp (base + 136)).reg slot.1⟩ : Bus.Write)) =
        pusha.map fun slot => ⟨slot.2, 8, s.cpu.reg slot.1⟩ := by
      simp [pusha, regs, Cpu.setReg_reg]
    rw [same]
    cases h.noec <;> rfl
  rw [TrapHandler.enter, entered, whole, Bus.writes_append]
  cases core.bus.writes base (Core.pushed 192 (Core.interruptFrame s.cpu pushesError)) s.mem with
  | none => rfl
  | some mem => exact rest mem

end Entry

end Jos
