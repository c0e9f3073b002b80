import JosKernel.Trap.Frames
import JosKernel.Trap.Messages

namespace Jos

open X64

variable {k k' k₁ : Kernel} {c t : Nat} {cur cur' : Option Nat} {tf : Trapframe}

-- The frame of an environment that does not run

def SameFrame (before after : Env) : Prop := after.envTf.setRax 0 = before.envTf.setRax 0

theorem SameFrame.of_eq {a b : Env} (same : b.envTf = a.envTf) : SameFrame a b := congrArg (Trapframe.setRax · 0) same

theorem SameFrame.trans {a b d : Env} (first : SameFrame a b) (second : SameFrame b d) : SameFrame a d :=
  Eq.trans second first

theorem Exits.frame (exits : Exits k cur k' cur') (e : Nat) : (k'.envs e).envTf = (k.envs e).envTf := by
  obtain ⟨runs, same⟩ := exits.fields e
  rw [same]

theorem Kernel.setEnv_frame (k : Kernel) {e : Nat} {env : Env} (same : SameFrame (k.envs e) env) (other : Nat) :
    SameFrame (k.envs other) ((k.setEnv e env).envs other) := by
  rw [Kernel.setEnv_envs]
  split
  · rename_i here
    rw [here]
    exact same
  · exact .of_eq rfl

theorem Kernel.envFree_frame {e : Nat} (freed : k.envFree cur e = .ok k') (other : Nat) :
    (k'.envs other).envTf = (k.envs other).envTf := by
  obtain ⟨root, mem, -, -, rfl⟩ := Kernel.envFree_ok freed
  by_cases here : other = e
  · rw [here]
    change (if e = e then _ else _ : Env).envTf = _
    rw [if_pos rfl]
  · exact congrArg Env.envTf (((k.say (.freeEnv (k.curId cur) (k.envs e).envId)).setMem mem).setEnv_other here _)

def Kernel.Reissued (k : Kernel) (t : Nat) (k' : Kernel) : Prop :=
  t < nenv → (issued k'.console t).length = (issued k.console t).length + 1

/-- The return of a system call changes no frame but that of a new environment. -/
theorem Returns.frame {call : Syscall} {code : Int} (returns : Returns k c call code k₁) (t : Nat) :
    SameFrame (k.envs t) (k₁.envs t) ∨ k.Reissued t k₁ := by
  cases returns with
  | quiet | refused => exact .inl (.of_eq rfl)
  | create e k₁ allocated =>
    by_cases here : e = t
    · subst here
      exact .inr (Kernel.forked_made allocated).issued
    · left
      rw [Kernel.forked, Kernel.setEnv_other _ (Ne.symm here)]
      rcases Kernel.envAlloc_ok allocated with ⟨code, impossible, -⟩ | ⟨e', p, mem, same, -, -, caller, rfl⟩
      · cases impossible
      · cases same
        exact .of_eq (congrArg Env.envTf (Kernel.setEnv_other (k.setMem mem) (Ne.symm here) _))
  | status | upcall | mark =>
    refine .inl (k.setEnv_frame ?_ t)
    exact .of_eq rfl
  | destroy envid e k₁ found other notRunning freed => exact .inl (.of_eq (Kernel.envFree_frame freed t))
  | deliver envid value srcva perm target mem given found recving page =>
    left
    have marked : SameFrame (k.envs t) (((k.setMem mem).setIpcPerm target given).envs t) := by
      refine (k.setMem mem).setEnv_frame ?_ t
      exact .of_eq rfl
    refine marked.trans (Kernel.setEnv_frame _ ?_ t)
    exact rfl

theorem Kernel.setTf_frame (k : Kernel) (tf : Trapframe) (other : t ≠ c) : SameFrame (k.envs t) ((k.setTf c tf).envs t) :=
  .of_eq (congrArg Env.envTf (k.setEnv_other other _))

theorem Kernel.setTf_rax (k : Kernel) (c t : Nat) (value : Word) :
    SameFrame (k.envs t) ((k.setTf c ((k.envs c).envTf.setRax value)).envs t) := by
  refine k.setEnv_frame ?_ t
  exact rfl

/-- What follows the saving of the registers, for the environment that traps and for others. -/
theorem Effect.frame (effect : Effect k c tf k₁ cur) (other : t ≠ c) :
    SameFrame (k.envs t) (k₁.envs t) ∨ k.Reissued t k₁ := by
  cases effect with
  | answered call code k₁ made returns =>
    rcases returns.frame t with same | reissued
    · exact .inl (same.trans (k₁.setTf_rax c t _))
    · exact .inr reissued
  | blocked dstva made =>
    refine .inl (k.setEnv_frame ?_ t)
    exact .of_eq rfl
  | yielded | ignored => exact .inl (.of_eq rfl)
  | ended mem k₁ rsp kept timer spurious freed =>
    exact .inl ((k.setTf_frame _ other).trans (.of_eq (Kernel.envFree_frame freed t)))

theorem Kernel.Reissued.console (reissued : k.Reissued t k₁) (same : k'.console = k₁.console) : k.Reissued t k' := by
  rw [Kernel.Reissued, same]
  exact reissued

theorem Kernel.trap_frame {cr2 : Word} {key : Int} (done : k.trap c tf cr2 key = .ok (k', cur')) (other : t ≠ c) :
    SameFrame (k.envs t) (k'.envs t) ∨ k.Reissued t k' := by
  have saved := k.setTf_frame tf other
  cases Kernel.trap_handled done with
  | reaped k₁ dying freed yields =>
    exact .inl (.of_eq ((yields.frame t).trans (Kernel.envFree_frame freed t)))
  | redirected mem rsp alive fault upcall resumed exits =>
    exact .inl (((k.setMem mem).setTf_frame _ other).trans (.of_eq (exits.frame t)))
  | handled k₁ cur alive effect yields =>
    rcases effect.frame other with same | reissued
    · exact .inl ((saved.trans same).trans (.of_eq (yields.frame t)))
    · exact .inr (reissued.console yields.console)

-- The frame of an environment that traps

/-- What becomes of the frame `tf` while its trap is handled. -/
inductive Saved (tf : Trapframe) : Trapframe → Prop
  | whole : Saved tf tf
  | answered (call : tf.trapno = tSyscall) (rax : Word) : Saved tf (tf.setRax rax)
  | redirected (fault : tf.trapno = tPgflt) (rip rsp : Word) : Saved tf { tf with rip := rip, rsp := rsp }

theorem Trapframe.setRax_setRax (tf : Trapframe) (first second : Word) :
    (tf.setRax first).setRax second = tf.setRax second := rfl

theorem Trapframe.eq_setRax {before after : Trapframe} (same : after.setRax 0 = before.setRax 0) :
    after = before.setRax after.regs.rax := by
  calc after = (after.setRax 0).setRax after.regs.rax := rfl
    _ = (before.setRax 0).setRax after.regs.rax := by rw [same]
    _ = before.setRax after.regs.rax := before.setRax_setRax 0 after.regs.rax

theorem Kernel.trap_saves {cr2 : Word} {key : Int} (done : k.trap c tf cr2 key = .ok (k', cur'))
    (alive : (k.envs c).envStatus ≠ .dying) : Saved tf (k'.envs c).envTf ∨ k.Reissued c k' := by
  have own : ((k.setTf c tf).envs c).envTf = tf := k.setTf_envTf c tf
  cases Kernel.trap_handled done with
  | reaped k₁ dying freed yields => exact absurd dying alive
  | redirected mem rsp alive fault upcall resumed exits =>
    left
    rw [exits.frame c, Kernel.redirected, Kernel.setTf_envTf]
    exact .redirected fault _ rsp
  | handled k₁ cur alive effect yields =>
    have kept := yields.frame c
    cases effect with
    | answered call code k₁ made returns =>
      have isCall : tf.trapno = tSyscall := Trapframe.call_vector made
      rcases returns.frame c with same | reissued
      · left
        have saved : ((k₁.setTf c ((k₁.envs c).envTf.setRax (BitVec.ofInt 64 code))).envs c).envTf.setRax 0 =
            tf.setRax 0 := by
          rw [← own]
          exact same.trans (k₁.setTf_rax c c _)
        rw [kept, Trapframe.eq_setRax saved]
        exact .answered isCall _
      · exact .inr (reissued.console yields.console)
    | blocked dstva made =>
      left
      have saved : ((k.setTf c tf).setEnv c { (k.setTf c tf).envs c with
          envIpcRecving := true, envStatus := .notRunnable, envIpcDstva := dstva }).envs c =
          { (k.setTf c tf).envs c with envIpcRecving := true, envStatus := .notRunnable, envIpcDstva := dstva } :=
        if_pos rfl
      rw [kept, saved, own]
      exact .whole
    | yielded | ignored =>
      left
      rw [kept, own]
      exact .whole
    | ended mem k₁ rsp same timer spurious freed =>
      left
      rw [own] at same freed
      rw [kept, Kernel.envFree_frame freed c, Kernel.setMem_envs, Kernel.setTf_envTf]
      by_cases fault : tf.trapno = tPgflt
      · exact .redirected fault tf.rip rsp
      · rw [same fault]
        exact .whole

-- The registers that come back

/-- The registers are as they were, but for those that the kernel is to change: rax for a system call, and what a
    page fault handler is entered with. -/
structure Resumes (num : Word) (before after : Cpu) : Prop where
  reg : ∀ r, (r = .rax → num ≠ tSyscall) → (r = .rsp → num ≠ tPgflt) → after.reg r = before.reg r
  seg : ∀ seg, after.seg seg = before.seg seg
  rip : num ≠ tPgflt → after.rip = before.rip
  rflags : after.rflags = before.rflags

variable {h : TrapHandler} {error : Word} {cpu : Cpu}

theorem TrapHandler.frame_reg (r : Reg) : (h.frame error cpu).cpu.reg r = cpu.reg r := by
  by_cases stack : r = .rsp
  · rw [stack]
    rfl
  · exact (if_neg stack).trans (pushRegs_reg cpu stack)

theorem Trapframe.setRax_reg (tf : Trapframe) (rax : Word) (r : Reg) :
    (tf.setRax rax).cpu.reg r = if r = .rax then rax else tf.cpu.reg r := by
  cases r <;> rfl

theorem Saved.rax {saved : Trapframe} (kept : Saved (h.frame error cpu) saved) (noCall : h.num ≠ tSyscall) :
    saved.regs.rax = cpu.reg .rax := by
  cases kept with
  | whole | redirected => rfl
  | answered call => exact absurd call noCall

/-- The frame of a stub gives back all but %es and %ds, which it swaps, and rax where that has been changed. -/
theorem Saved.resumes {saved : Trapframe} (kept : Saved (h.frame error cpu) saved) (rax : Word) :
    Resumes h.num cpu (saved.setRax rax).cpu ↔
      cpu.seg .es = cpu.seg .ds ∧ (h.num = tSyscall ∨ rax = cpu.reg .rax) := by
  have general : ∀ r, r ≠ .rax → (r = .rsp → h.num ≠ tPgflt) → (saved.setRax rax).cpu.reg r = cpu.reg r := by
    intro r general stack
    have own : (h.frame error cpu).cpu.reg r = cpu.reg r := TrapHandler.frame_reg r
    rw [Trapframe.setRax_reg, if_neg general, ← own]
    cases kept with
    | whole => rfl
    | answered call value => rw [Trapframe.setRax_reg, if_neg general]
    | redirected fault rip rsp =>
      have other : r ≠ .rsp := fun here => stack here fault
      exact (if_neg other).trans (if_neg other).symm
  have segs : ∀ seg, (saved.setRax rax).cpu.seg seg = (h.frame error cpu).cpu.seg seg := by
    cases kept <;> intro seg <;> cases seg <;> rfl
  constructor
  · intro resumes
    refine ⟨(resumes.seg .ds).symm.trans (segs .ds) |>.symm, ?_⟩
    by_cases call : h.num = tSyscall
    · exact .inl call
    · right
      have back := resumes.reg .rax (fun _ => call) (by simp)
      rwa [Trapframe.setRax_reg, if_pos rfl] at back
  · rintro ⟨same, answer⟩
    constructor
    · intro r notCall notFault
      by_cases here : r = .rax
      · rw [here, Trapframe.setRax_reg, if_pos rfl]
        exact answer.resolve_left (notCall here)
      · exact general r here notFault
    · intro seg
      rw [segs]
      cases seg with
      | es => exact same.symm
      | ds => exact same
      | cs | ss => rfl
    · intro notFault
      cases kept with
      | whole | answered => rfl
      | redirected fault rip rsp => exact absurd fault notFault
    · cases kept <;> rfl

-- The same bytes hold one frame

theorem setWidth_injective {x y : BitVec 16} (same : x.setWidth 64 = y.setWidth 64) : x = y := by
  rw [← narrow_selector x, same, narrow_selector]

theorem PushRegs.eq_of_reg {regs regs' : PushRegs} (same : ∀ r, r ≠ .rsp → regs.reg r = regs'.reg r) :
    regs = regs' := by
  cases regs
  cases regs'
  congr 1
  · exact same .r15 (by decide)
  · exact same .r14 (by decide)
  · exact same .r13 (by decide)
  · exact same .r12 (by decide)
  · exact same .r11 (by decide)
  · exact same .r10 (by decide)
  · exact same .r9 (by decide)
  · exact same .r8 (by decide)
  · exact same .rsi (by decide)
  · exact same .rdi (by decide)
  · exact same .rbp (by decide)
  · exact same .rdx (by decide)
  · exact same .rcx (by decide)
  · exact same .rbx (by decide)
  · exact same .rax (by decide)

theorem Trapframe.LiesAt.unique {tf tf' : Trapframe} {m : Word → BitVec 8} {a : Word} (lies : tf.LiesAt m a)
    (lies' : tf'.LiesAt m a) : tf = tf' := by
  have regs : tf.regs = tf'.regs := by
    apply PushRegs.eq_of_reg
    intro r general
    obtain ⟨slot, member, rfl⟩ := List.mem_map.mp ((popa_all r).mpr general)
    exact Option.some.inj ((lies.regs slot member).symm.trans (lies'.regs slot member))
  have es := setWidth_injective (Option.some.inj (lies.es.symm.trans lies'.es))
  have ds := setWidth_injective (Option.some.inj (lies.ds.symm.trans lies'.ds))
  have trapno := Option.some.inj (lies.trapno.symm.trans lies'.trapno)
  have err := Option.some.inj (lies.err.symm.trans lies'.err)
  have rip := Option.some.inj (lies.rip.symm.trans lies'.rip)
  have cs := setWidth_injective (Option.some.inj (lies.cs.symm.trans lies'.cs))
  have eflags := Option.some.inj (lies.eflags.symm.trans lies'.eflags)
  have rsp := Option.some.inj (lies.rsp.symm.trans lies'.rsp)
  have ss := setWidth_injective (Option.some.inj (lies.ss.symm.trans lies'.ss))
  cases tf
  cases tf'
  simp_all

theorem TrapHandler.enter_found {h : TrapHandler} (kind : Core.pushesError h.num = !h.noec) {alu : Word → Word → Word}
    {popfMask entry stack error : Word} {s entered : State (Word → BitVec 8)} {tf : Trapframe}
    (enters : h.enter (kernelCore alu popfMask) entry stack error s = some entered)
    (found : tf.LiesAt entered.mem (entered.cpu.reg .rdi)) : tf = h.frame error s.cpu := by
  obtain ⟨cpu, m, entered', rdi, lies⟩ := TrapHandler.enter_frame kind alu popfMask entry (stack - 192) error s
  have top : stack - 192 + 192 = stack := sub_add_cancel stack 192
  rw [top, enters] at entered'
  cases entered'
  rw [rdi] at found
  exact found.unique lies

/-- The stubs agree with the processor about which exceptions push an error code. -/
theorem trapHandlers_kind : ∀ h ∈ trapHandlers, Core.pushesError h.num = !h.noec := by decide

end Jos
