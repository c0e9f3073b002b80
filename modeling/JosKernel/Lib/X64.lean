import JosKernel.Lib.Bus

namespace X64

inductive Reg
  | rax | rbx | rcx | rdx | rbp | rdi | rsi | r8 | r9 | r10 | r11 | r12 | r13 | r14 | r15 | rsp
  deriving DecidableEq, Repr

inductive Seg
  | es | ds | cs | ss
  deriving DecidableEq, Repr

@[ext] structure Cpu where
  reg : Reg → BitVec 64
  seg : Seg → BitVec 16
  rip : BitVec 64
  rflags : BitVec 64

namespace Cpu

def setReg (cpu : Cpu) (r : Reg) (value : BitVec 64) : Cpu := { cpu with reg := Function.update cpu.reg r value }

def setSeg (cpu : Cpu) (s : Seg) (value : BitVec 16) : Cpu := { cpu with seg := Function.update cpu.seg s value }

section Updates

variable (cpu : Cpu) (r other : Reg) (s t : Seg) (value : BitVec 64) (selector : BitVec 16)

theorem setReg_reg : (cpu.setReg r value).reg other = if other = r then value else cpu.reg other :=
  Function.update_apply ..

@[simp] theorem setReg_same : (cpu.setReg r value).reg r = value := Function.update_self ..
@[simp] theorem setReg_seg : (cpu.setReg r value).seg = cpu.seg := rfl
@[simp] theorem setReg_rip : (cpu.setReg r value).rip = cpu.rip := rfl
@[simp] theorem setReg_rflags : (cpu.setReg r value).rflags = cpu.rflags := rfl

theorem setReg_other {r other : Reg} (different : other ≠ r) : (cpu.setReg r value).reg other = cpu.reg other :=
  Function.update_of_ne different ..

theorem setSeg_seg : (cpu.setSeg s selector).seg t = if t = s then selector else cpu.seg t :=
  Function.update_apply ..

@[simp] theorem setSeg_reg : (cpu.setSeg s selector).reg = cpu.reg := rfl
@[simp] theorem setSeg_rip : (cpu.setSeg s selector).rip = cpu.rip := rfl
@[simp] theorem setSeg_rflags : (cpu.setSeg s selector).rflags = cpu.rflags := rfl

end Updates

end Cpu

structure State (M : Type) where
  cpu : Cpu
  mem : M

/-- What a processor runs with: its memory, the flags that an addition or a subtraction leaves, and the flags
    that `popf` may change at the current privilege level. -/
structure Core (M : Type) where
  bus : Bus M
  alu : BitVec 64 → BitVec 64 → BitVec 64
  popfMask : BitVec 64

/-- The instructions, in the order of operands of the AT&T syntax turned round: the target comes first. -/
inductive Instr
  | push (value : BitVec 64)
  | pop (target : Reg)
  | mov (target source : Reg)
  | movWord (target : Reg) (value : BitVec 16)
  | movSeg (target : Seg) (source : Reg)
  | load (target base : Reg) (offset : BitVec 64)
  | store (base : Reg) (offset : BitVec 64) (source : Reg)
  | loadSeg (target : Seg) (base : Reg) (offset : BitVec 64)
  | storeSeg (base : Reg) (offset : BitVec 64) (source : Seg)
  | add (target : Reg) (value : BitVec 64)
  | sub (target : Reg) (value : BitVec 64)
  | subMem (base : Reg) (offset value : BitVec 64)
  | popf
  | ret
  | iret
  deriving DecidableEq, Repr

namespace Core

variable {M : Type} (core : Core M)

def exec (s : State M) : Instr → Option (State M)
  | .push value => do
    let rsp := s.cpu.reg .rsp - 8
    let mem ← core.bus.store 8 s.mem rsp value
    return ⟨s.cpu.setReg .rsp rsp, mem⟩
  | .pop target => do
    let value ← core.bus.load 8 s.mem (s.cpu.reg .rsp)
    return ⟨(s.cpu.setReg .rsp (s.cpu.reg .rsp + 8)).setReg target value, s.mem⟩
  | .mov target source => some ⟨s.cpu.setReg target (s.cpu.reg source), s.mem⟩
  | .movWord target value =>
    some ⟨s.cpu.setReg target ((s.cpu.reg target >>> 16 <<< 16) ||| value.setWidth 64), s.mem⟩
  | .movSeg target source => some ⟨s.cpu.setSeg target ((s.cpu.reg source).setWidth 16), s.mem⟩
  | .load target base offset => do
    let value ← core.bus.load 8 s.mem (s.cpu.reg base + offset)
    return ⟨s.cpu.setReg target value, s.mem⟩
  | .store base offset source => do
    let mem ← core.bus.store 8 s.mem (s.cpu.reg base + offset) (s.cpu.reg source)
    return ⟨s.cpu, mem⟩
  | .loadSeg target base offset => do
    let value ← core.bus.load 2 s.mem (s.cpu.reg base + offset)
    return ⟨s.cpu.setSeg target (value.setWidth 16), s.mem⟩
  | .storeSeg base offset source => do
    let mem ← core.bus.store 2 s.mem (s.cpu.reg base + offset) ((s.cpu.seg source).setWidth 64)
    return ⟨s.cpu, mem⟩
  | .add target value =>
    let result := s.cpu.reg target + value
    some ⟨{ s.cpu.setReg target result with rflags := core.alu s.cpu.rflags result }, s.mem⟩
  | .sub target value =>
    let result := s.cpu.reg target - value
    some ⟨{ s.cpu.setReg target result with rflags := core.alu s.cpu.rflags result }, s.mem⟩
  | .subMem base offset value => do
    let before ← core.bus.load 8 s.mem (s.cpu.reg base + offset)
    let mem ← core.bus.store 8 s.mem (s.cpu.reg base + offset) (before - value)
    return ⟨{ s.cpu with rflags := core.alu s.cpu.rflags (before - value) }, mem⟩
  | .popf => do
    let value ← core.bus.load 8 s.mem (s.cpu.reg .rsp)
    return ⟨{ s.cpu.setReg .rsp (s.cpu.reg .rsp + 8) with
      rflags := (s.cpu.rflags &&& ~~~core.popfMask) ||| (value &&& core.popfMask) }, s.mem⟩
  | .ret => do
    let value ← core.bus.load 8 s.mem (s.cpu.reg .rsp)
    return ⟨{ s.cpu.setReg .rsp (s.cpu.reg .rsp + 8) with rip := value }, s.mem⟩
  | .iret => do
    let rsp := s.cpu.reg .rsp
    let rip ← core.bus.load 8 s.mem rsp
    let cs ← core.bus.load 2 s.mem (rsp + 8)
    let rflags ← core.bus.load 8 s.mem (rsp + 16)
    let stack ← core.bus.load 8 s.mem (rsp + 24)
    let ss ← core.bus.load 2 s.mem (rsp + 32)
    return ⟨{ ((s.cpu.setReg .rsp stack).setSeg .cs (cs.setWidth 16)).setSeg .ss (ss.setWidth 16) with
      rip := rip, rflags := rflags }, s.mem⟩

def run (code : List Instr) (s : State M) : Option (State M) := code.foldlM (fun s instr => core.exec s instr) s

@[simp] theorem run_nil (s : State M) : core.run [] s = some s := rfl

theorem run_cons (instr : Instr) (code : List Instr) (s : State M) :
    core.run (instr :: code) s = (core.exec s instr).bind (core.run code) := rfl

theorem run_append (first later : List Instr) (s : State M) :
    core.run (first ++ later) s = (core.run first s).bind (core.run later) := by
  rw [run, List.foldlM_append]
  rfl

variable {core}

theorem run_done {first later : List Instr} {s middle last : State M} (head : core.run first s = some middle)
    (tail : core.run later middle = some last) : core.run (first ++ later) s = some last := by
  rw [run_append, head]
  exact tail

-- Interrupts

def pushesError (vector : BitVec 64) : Bool := [8, 10, 11, 12, 13, 14, 17, 21, 29, 30].contains vector

def gateFlags : BitVec 64 := 0x14300

def interruptFrame (cpu : Cpu) (error : Option (BitVec 64)) : List (BitVec 64) :=
  [(cpu.seg .ss).setWidth 64, cpu.reg .rsp, cpu.rflags, (cpu.seg .cs).setWidth 64, cpu.rip] ++ error.toList

/-- An interrupt through a gate to `entry` in the code segment `cs`, from a lower privilege level: the stack
    that it switches to ends at `stack`. -/
def interrupt (core : Core M) (cs : BitVec 16) (entry stack : BitVec 64) (error : Option (BitVec 64))
    (s : State M) : Option (State M) := do
  let s ← core.run ((interruptFrame s.cpu error).map .push) ⟨s.cpu.setReg .rsp stack, s.mem⟩
  return ⟨{ (s.cpu.setSeg .cs cs).setSeg .ss 0 with
    rip := entry, rflags := s.cpu.rflags &&& ~~~gateFlags }, s.mem⟩

-- Stores relative to a base

/-- Code that stores without a load before: what it stores, and the registers that it leaves. -/
def Stores (core : Core M) (code : List Instr) (cpu : Cpu) (base : BitVec 64) (writes : List Bus.Write)
    (after : Cpu) : Prop :=
  ∀ mem, core.run code ⟨cpu, mem⟩ = (core.bus.writes base writes mem).map (State.mk after)

theorem sub_offset (base a b : BitVec 64) : base + a - b = base + (a - b) := by bv_omega

/-- Where pushes store their values when the stack pointer is `top` above the base. -/
def pushed (top : BitVec 64) : List (BitVec 64) → List Bus.Write
  | [] => []
  | value :: rest => ⟨top - 8, 8, value⟩ :: pushed (top - 8) rest

def lowered (top : BitVec 64) : List (BitVec 64) → BitVec 64
  | [] => top
  | _ :: rest => lowered (top - 8) rest

def saving (area : List (Reg × BitVec 64)) : List Instr := area.map fun slot => .store .rsp slot.2 slot.1

def restoring (area : List (Reg × BitVec 64)) : List Instr := area.map fun slot => .load slot.1 .rsp slot.2

namespace Stores

variable {cpu middle after : Cpu} {base : BitVec 64}

theorem nil : core.Stores [] cpu base [] cpu := fun _ => rfl

theorem append {first later : List Instr} {writes writes' : List Bus.Write}
    (head : core.Stores first cpu base writes middle) (tail : core.Stores later middle base writes' after) :
    core.Stores (first ++ later) cpu base (writes ++ writes') after := by
  intro mem
  rw [run_append, head mem, Bus.writes_append]
  cases core.bus.writes base writes mem with
  | none => rfl
  | some mem' => exact tail mem'

theorem quiet {code : List Instr} (same : ∀ mem, core.run code ⟨cpu, mem⟩ = some ⟨after, mem⟩) :
    core.Stores code cpu base [] after := by
  intro mem
  rw [same mem]
  rfl

theorem single {instr : Instr} {offset value : BitVec 64} {size : Nat} (stores : ∀ mem, core.exec ⟨cpu, mem⟩ instr = do
      let mem ← core.bus.store size mem (base + offset) value
      return ⟨after, mem⟩) :
    core.Stores [instr] cpu base [⟨offset, size, value⟩] after := by
  intro mem
  rw [run_cons, stores mem, Bus.writes, List.foldlM_cons]
  cases core.bus.store size mem (base + offset) value with
  | none => rfl
  | some mem' => rfl

theorem push (core : Core M) (values : List (BitVec 64)) {cpu : Cpu} {top : BitVec 64}
    (here : cpu.reg .rsp = base + top) :
    core.Stores (values.map .push) cpu base (pushed top values)
      (cpu.setReg .rsp (base + lowered top values)) := by
  induction values generalizing cpu top with
  | nil =>
    intro mem
    rw [lowered, ← here, Cpu.setReg, Function.update_eq_self]
    rfl
  | cons value rest ih =>
    have first : core.Stores [.push value] cpu base [⟨top - 8, 8, value⟩] (cpu.setReg .rsp (base + (top - 8))) := by
      apply single
      intro mem
      simp only [exec, here, sub_offset]
    have later := @ih (cpu.setReg .rsp (base + (top - 8))) (top - 8) (Cpu.setReg_same ..)
    simp only [Cpu.setReg, Function.update_idem] at later
    exact first.append later

theorem saving (core : Core M) (area : List (Reg × BitVec 64)) (here : cpu.reg .rsp = base) :
    core.Stores (saving area) cpu base (area.map fun slot => ⟨slot.2, 8, cpu.reg slot.1⟩) cpu := by
  induction area with
  | nil => exact nil
  | cons slot area ih =>
    have first : core.Stores [.store .rsp slot.2 slot.1] cpu base [⟨slot.2, 8, cpu.reg slot.1⟩] cpu := by
      apply single
      intro mem
      simp only [exec, here]
    exact first.append ih

end Stores

theorem interrupt_eq (core : Core M) (cs : BitVec 16) (entry base top : BitVec 64) (error : Option (BitVec 64))
    (s : State M) : ∃ after,
      after.reg = Function.update s.cpu.reg .rsp (base + lowered top (interruptFrame s.cpu error)) ∧
      (∀ seg, seg ≠ .cs → seg ≠ .ss → after.seg seg = s.cpu.seg seg) ∧
      core.interrupt cs entry (base + top) error s =
        (core.bus.writes base (pushed top (interruptFrame s.cpu error)) s.mem).map (State.mk after) := by
  let frame := interruptFrame s.cpu error
  let cpu := s.cpu.setReg .rsp (base + lowered top frame)
  have push := Stores.push core frame (Cpu.setReg_same s.cpu .rsp (base + top))
  rw [show (s.cpu.setReg .rsp (base + top)).setReg .rsp (base + lowered top frame) = cpu by
    simp only [Cpu.setReg, Function.update_idem, cpu]] at push
  refine ⟨{ (cpu.setSeg .cs cs).setSeg .ss 0 with rip := entry, rflags := cpu.rflags &&& ~~~gateFlags }, rfl, ?_, ?_⟩
  · intro seg notCs notSs
    simp only [Cpu.setSeg_seg, if_neg notCs, if_neg notSs]
    rfl
  · rw [interrupt, push s.mem]
    cases core.bus.writes base (pushed top frame) s.mem with
    | none => rfl
    | some mem => rfl

theorem run_restoring {area : List (Reg × BitVec 64)} {s : State M} {value : Reg → BitVec 64}
    (kept : ∀ slot ∈ area, slot.1 ≠ .rsp)
    (there : ∀ slot ∈ area, core.bus.load 8 s.mem (s.cpu.reg .rsp + slot.2) = some (value slot.1)) :
    core.run (restoring area) s = some ⟨{ s.cpu with
      reg := fun r => if r ∈ area.map Prod.fst then value r else s.cpu.reg r }, s.mem⟩ := by
  induction area generalizing s with
  | nil => simp [restoring]
  | cons slot area ih =>
    have first := there slot (by simp)
    have stack : (s.cpu.setReg slot.1 (value slot.1)).reg .rsp = s.cpu.reg .rsp :=
      s.cpu.setReg_other _ (Ne.symm (kept slot (by simp)))
    have loaded : core.exec s (.load slot.1 .rsp slot.2) = some ⟨s.cpu.setReg slot.1 (value slot.1), s.mem⟩ := by
      simp only [exec, first, bind, Option.bind_some, pure]
    have rest := ih (s := ⟨s.cpu.setReg slot.1 (value slot.1), s.mem⟩) (fun other member => kept other (by simp [member]))
      (fun other member => by rw [stack]; exact there other (by simp [member]))
    rw [restoring, List.map_cons, ← restoring, run_cons, loaded, Option.bind_some, rest]
    congr 2
    ext1
    · funext r
      simp only [List.map_cons, List.mem_cons, Cpu.setReg_reg]
      by_cases later : r ∈ area.map Prod.fst <;> by_cases here : r = slot.1 <;> simp_all
    all_goals rfl

-- Single instructions

section Single

variable {cpu : Cpu} {m m' : M} {base target : Reg} {offset value : BitVec 64}

theorem run_load (loaded : core.bus.load 8 m (cpu.reg base + offset) = some value) :
    core.run [.load target base offset] ⟨cpu, m⟩ = some ⟨cpu.setReg target value, m⟩ := by
  rw [run_cons, exec, loaded]
  rfl

theorem run_store {source : Reg} (stored : core.bus.store 8 m (cpu.reg base + offset) (cpu.reg source) = some m') :
    core.run [.store base offset source] ⟨cpu, m⟩ = some ⟨cpu, m'⟩ := by
  rw [run_cons, exec, stored]
  rfl

theorem run_subMem {before : BitVec 64} (loaded : core.bus.load 8 m (cpu.reg base + offset) = some before)
    (stored : core.bus.store 8 m (cpu.reg base + offset) (before - value) = some m') :
    core.run [.subMem base offset value] ⟨cpu, m⟩ =
      some ⟨{ cpu with rflags := core.alu cpu.rflags (before - value) }, m'⟩ := by
  rw [run_cons, exec, loaded]
  dsimp only [bind, Option.bind]
  rw [stored]
  rfl

theorem run_pop (loaded : core.bus.load 8 m (cpu.reg .rsp) = some value) :
    core.run [.pop target] ⟨cpu, m⟩ = some ⟨(cpu.setReg .rsp (cpu.reg .rsp + 8)).setReg target value, m⟩ := by
  rw [run_cons, exec, loaded]
  rfl

theorem run_popf (loaded : core.bus.load 8 m (cpu.reg .rsp) = some value) :
    core.run [.popf] ⟨cpu, m⟩ = some ⟨{ cpu.setReg .rsp (cpu.reg .rsp + 8) with
      rflags := (cpu.rflags &&& ~~~core.popfMask) ||| (value &&& core.popfMask) }, m⟩ := by
  rw [run_cons, exec, loaded]
  rfl

theorem run_ret (loaded : core.bus.load 8 m (cpu.reg .rsp) = some value) :
    core.run [.ret] ⟨cpu, m⟩ = some ⟨{ cpu.setReg .rsp (cpu.reg .rsp + 8) with rip := value }, m⟩ := by
  rw [run_cons, exec, loaded]
  rfl

end Single

end Core

end X64
