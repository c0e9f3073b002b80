import JosKernel.System.Receiving
import JosKernel.Trap.Resuming

namespace Jos

open X64

namespace System

variable {C : Type} [DecidableEq C] {s s' s'' : System C} {e : Nat} {event : Event C} {events : List (Event C)}

-- While other environments run

theorem Step.frame (step : Step s event s') (other : ¬ s.TrapOf e event) :
    SameFrame (s.kernel.envs e) (s'.kernel.envs e) ∨ s.kernel.Reissued e s'.kernel := by
  cases step with
  | start c k cur unused yield => exact .inl (.of_eq ((schedYield_yields yield).frame e))
  | wake c k cur halted yield => exact .inl (.of_eq ((schedYield_yields yield).frame e))
  | store c va byte after stored =>
    obtain ⟨e', root, translation, -, -, -, -, -, -, rfl⟩ := stored
    exact .inl (.of_eq rfl)
  | trap c tf cr2 key e' k cur running user entry =>
    have different : e ≠ e' := by
      intro same
      rw [← same] at running
      exact other running
    exact Kernel.trap_frame entry different

/-- The steps that are no trap of `e`, and in which its slot stays with it. -/
def Idles (e : Nat) (before : System C) (event : Event C) (after : System C) : Prop :=
  Transition.Guarded (fun s event => ¬ s.TrapOf e event) Step before event after ∧
    (issued after.kernel.console e).length = (issued before.kernel.console e).length

theorem Idles.frame (idles : Idles e s event s') (inside : e < nenv) :
    SameFrame (s.kernel.envs e) (s'.kernel.envs e) := by
  rcases idles.1.2.frame idles.1.1 with same | reissued
  · exact same
  · have more := reissued inside
    have same := idles.2
    omega

theorem Idles.mail (idles : Idles e s event s') (inside : e < nenv) (quiet : ¬ s.Sends e event) :
    SameMail (s.kernel.envs e) (s'.kernel.envs e) := by
  cases idles.1.2.arrives idles.1.1 with
  | kept same => exact same
  | made made =>
    have more := made.issued inside
    have same := idles.2
    omega
  | sent sends => exact absurd sends quiet

def Undisturbed (e : Nat) (s : System C) (event : Event C) : Prop := ¬ s.TrapOf e event ∧ ¬ s.Sends e event

def Messaged (e : Nat) (s : System C) : Prop :=
  (s.kernel.envs e).envIpcRecving = false ∧ (s.kernel.envs e).envTf.regs.rax = 0

theorem Messaged.step (messaged : s.Messaged e) (idles : Idles e s event s') (inside : e < nenv) : s'.Messaged e := by
  have quiet : ¬ s.Sends e event := by
    intro sends
    have waits := (Sends.recving sends idles.1.2).1
    rw [messaged.1] at waits
    cases waits
  have mail := idles.mail inside quiet
  exact ⟨mail.envIpcRecving.trans messaged.1, mail.rax.trans messaged.2⟩

section Runs

variable (run : Transition.Run (Transition.Guarded (fun s event => ¬ s.TrapOf e event) Step) s events s')
  (inside : e < nenv) (same : (issued s'.kernel.console e).length = (issued s.kernel.console e).length)

include run same in
theorem idles_of_same : Transition.Run (Idles e) s events s' :=
  run.constant (fun _ _ _ step => step.2.issued e) (Nat.le_of_eq same)

include run inside same

theorem run_frame : SameFrame (s.kernel.envs e) (s'.kernel.envs e) :=
  @Transition.Run.invariant _ _ _ (fun middle => SameFrame (s.kernel.envs e) (middle.kernel.envs e)) _ _ _
    (idles_of_same run same) (fun _ _ _ frame idles => frame.trans (idles.frame inside)) (.of_eq rfl)

theorem run_rax : Transition.Run (Transition.Guarded (Undisturbed e) Step) s events s' ∨
    (s'.kernel.envs e).envTf.regs.rax = 0 := by
  have parts := @Transition.Run.avoids_or _ _ _ (fun s event => s.Sends e event) _ _ _ (Messaged e)
    (idles_of_same run same) (fun _ _ _ idles sends => (Sends.recving sends idles.1.2).2)
    (fun _ _ _ messaged idles => messaged.step idles inside)
  rcases parts with avoids | done
  · left
    exact avoids.mono fun _ _ _ step => ⟨⟨step.2.1.1, step.1⟩, step.2.1.2⟩
  · exact .inr done.2

end Runs

theorem undisturbed_rax (run : Transition.Run (Transition.Guarded (Undisturbed e) Step) s events s')
    (inside : e < nenv) (same : (issued s'.kernel.console e).length = (issued s.kernel.console e).length) :
    (s'.kernel.envs e).envTf.regs.rax = (s.kernel.envs e).envTf.regs.rax := by
  have idles := run.constant (fun _ _ _ step => step.2.issued e) (Nat.le_of_eq same)
  exact @Transition.Run.invariant _ _ _
    (fun middle => (middle.kernel.envs e).envTf.regs.rax = (s.kernel.envs e).envTf.regs.rax) _ _ _ idles
    (fun _ _ _ kept step =>
      ((Idles.mail ⟨⟨step.1.1.1, step.1.2⟩, step.2⟩ inside step.1.1.2).rax).trans kept) rfl

-- From a trap to the return from it

/-- The registers that an environment traps with come back to it, whatever runs in between, if and only if its %es
    and %ds are the same and no message comes that changes rax. -/
theorem trap_resumes {s₀ : System C} {earlier later : List (Event C)} {c : C} {tf : Trapframe} {cr2 : Word} {key : Int}
    {h : TrapHandler} {alu : Word → Word → Word} {popfMask entry stack error a : Word}
    {interrupted entered left : State (Word → BitVec 8)} (booted : s₀.Booted)
    (run₀ : Transition.Run (Transition.Guarded Guard Step) s₀ earlier s)
    (stub : h ∈ trapHandlers)
    (enters : h.enter (kernelCore alu popfMask) entry stack error interrupted = some entered)
    (found : tf.LiesAt entered.mem (entered.cpu.reg .rdi)) (running : (s.cpus c).cpuEnv = some e)
    (alive : (s.kernel.envs e).envStatus ≠ .dying) (step : Transition.Guarded Guard Step s (.trap c tf cr2 key) s')
    (run : Transition.Run (Transition.Guarded (fun s event => s.Guard event ∧ ¬ s.TrapOf e event) Step) s' later s'')
    (same : (issued s''.kernel.console e).length = (issued s.kernel.console e).length)
    (lies : (s''.kernel.envs e).envTf.LiesAt left.mem a) :
    ∃ resumed, envPopTf (kernelCore alu popfMask) a left = some resumed ∧
      (Resumes h.num interrupted.cpu resumed.cpu ↔ interrupted.cpu.seg .es = interrupted.cpu.seg .ds ∧
        (h.num = tSyscall ∨ interrupted.cpu.reg .rax = 0 ∨
          Transition.Run (Transition.Guarded (Undisturbed e) Step) s' later s'')) := by
  refine ⟨_, lies.pop alu popfMask, ?_⟩
  have inside : e < nenv := ((booted.guarded_exclusive run₀).current c e running).1
  have frame : tf = h.frame error interrupted.cpu := TrapHandler.enter_found (trapHandlers_kind h stub) enters found
  obtain ⟨-, step⟩ := step
  have run : Transition.Run (Transition.Guarded (fun s event => ¬ s.TrapOf e event) Step) s' later s'' :=
    run.mono fun _ _ _ step => ⟨step.1.2, step.2⟩
  have grown := step.issued e
  have grown' := run.climbs fun _ _ _ step => step.2.issued e
  have same' : (issued s''.kernel.console e).length = (issued s'.kernel.console e).length := by omega
  have saved : Saved (h.frame error interrupted.cpu) (s'.kernel.envs e).envTf := by
    rw [← frame]
    cases step with
    | trap _ _ _ _ e' k cur running' user entry =>
      rw [running] at running'
      cases running'
      rcases Kernel.trap_saves entry alive with saved | reissued
      · exact saved
      · have more := reissued inside
        have kept : (issued k.console e).length = (issued s.kernel.console e).length := same'.symm.trans same
        omega
  have resumed := Trapframe.eq_setRax (run_frame run inside same')
  change Resumes _ _ (s''.kernel.envs e).envTf.cpu ↔ _
  rw [resumed, saved.resumes]
  apply and_congr_right
  intro segs
  constructor
  · intro restored
    rcases restored with call | back
    · exact .inl call
    · rcases run_rax run inside same' with quiet | messaged
      · exact .inr (.inr quiet)
      · exact .inr (.inl (back.symm.trans messaged))
  · intro condition
    by_cases call : h.num = tSyscall
    · exact .inl call
    · right
      have before := saved.rax call
      rcases condition.resolve_left call with zero | quiet
      · rcases run_rax run inside same' with quiet | messaged
        · exact (undisturbed_rax quiet inside same').trans before
        · exact messaged.trans zero.symm
      · exact (undisturbed_rax quiet inside same').trans before

-- The small machine

def userCpu (es ds : BitVec 16) : Cpu where
  reg := fun _ => 0
  seg
    | .es => es
    | .ds => ds
    | .cs => gdUt ||| 3
    | .ss => gdUd ||| 3
  rip := utext
  rflags := 0x202

def timerHandler : TrapHandler := ⟨irqOffset + irqTimer, true⟩

def flatCore : Core (Word → BitVec 8) := kernelCore (fun _ _ => 0) 0

def preempted (tf : Trapframe) : Option (System Bool × System Bool × System Bool) :=
  (guardedRun [.start false, .trap false (syscallTf 7 0 0 0 0 0) 0 0,
    .trap false (syscallTf 8 0x1001 2 0 0 0) 0 0]).bind fun s =>
      (s.guardedNext (.trap false tf 0 0)).bind fun s' =>
        (Transition.exec (Transition.nextIf (fun s event => s.Guard event ∧ ¬ s.TrapOf 0 event) System.next) s'
          [.trap false timerTf 0 0]).map fun s'' => (s, s', s'')

/-- The first environment runs, is preempted and runs again with the frame that it was preempted with. -/
structure Preemption (interrupted : Cpu) (s₀ s s' s'' : System Bool) (entered : State (Word → BitVec 8)) : Prop where
  booted : s₀.Booted
  run₀ : ∃ earlier, Transition.Run (Transition.Guarded Guard Step) s₀ earlier s
  enters : timerHandler.enter flatCore 0 (0xf000 + 192) 0 ⟨interrupted, fun _ => 0⟩ = some entered
  found : (timerHandler.frame 0 interrupted).LiesAt entered.mem (entered.cpu.reg .rdi)
  running : (s.cpus false).cpuEnv = some 0
  alive : (s.kernel.envs 0).envStatus ≠ .dying
  step : Transition.Guarded Guard Step s (.trap false (timerHandler.frame 0 interrupted) 0 0) s'
  run : ∃ later, Transition.Run (Transition.Guarded (fun s event => s.Guard event ∧ ¬ s.TrapOf 0 event) Step) s' later s''
  same : (issued s''.kernel.console 0).length = (issued s.kernel.console 0).length
  resumes : (s''.cpus false).cpuEnv = some 0
  kept : (s''.kernel.envs 0).envTf = timerHandler.frame 0 interrupted

theorem preempted_run {interrupted : Cpu} (computed : (preempted (timerHandler.frame 0 interrupted)).map
    (fun seen => ((seen.1.cpus false).cpuEnv, (seen.1.kernel.envs 0).envStatus,
      decide ((issued seen.2.2.kernel.console 0).length = (issued seen.1.kernel.console 0).length),
      (seen.2.2.cpus false).cpuEnv, decide ((seen.2.2.kernel.envs 0).envTf = timerHandler.frame 0 interrupted))) =
        some (some 0, .running, true, some 0, true)) :
    ∃ s₀ s s' s'' entered, Preemption interrupted s₀ s s' s'' entered := by
  obtain ⟨⟨s, s', s''⟩, done, shown⟩ := Option.map_eq_some_iff.mp computed
  simp only [Prod.mk.injEq] at shown
  obtain ⟨running, status, same, resumes, kept⟩ := shown
  obtain ⟨first, ran, rest⟩ := Option.bind_eq_some_iff.mp done
  obtain ⟨second, moved, rest⟩ := Option.bind_eq_some_iff.mp rest
  obtain ⟨third, ran', listed⟩ := Option.map_eq_some_iff.mp rest
  cases listed
  obtain ⟨s₀, booted, run₀⟩ := guardedRun_booted ran
  obtain ⟨cpu, m, enters, rdi, lies⟩ :=
    @TrapHandler.enter_frame timerHandler rfl (fun _ _ => 0) 0 0 0xf000 0 ⟨interrupted, fun _ => 0⟩
  refine ⟨s₀, s, s', s'', ⟨cpu, m⟩, booted, ⟨_, run₀⟩, enters, ?_, running, ?_, step_of_guardedNext moved, ⟨_, .of_exec ?_ ran'⟩,
    of_decide_eq_true same, resumes, of_decide_eq_true kept⟩
  · rw [rdi]
    exact lies
  · rw [status]
    decide
  · exact fun _ _ _ => Transition.guarded_of_nextIf fun _ _ _ => step_of_next

theorem trap_resumes_flat : ∃ s₀ s s' s'' entered resumed, Preemption (userCpu (gdUd ||| 3) (gdUd ||| 3)) s₀ s s' s'' entered ∧
    envPopTf flatCore (entered.cpu.reg .rdi) entered = some resumed ∧
    Resumes timerHandler.num (userCpu (gdUd ||| 3) (gdUd ||| 3)) resumed.cpu := by
  obtain ⟨s₀, s, s', s'', entered, facts⟩ := @preempted_run (userCpu (gdUd ||| 3) (gdUd ||| 3)) (by
    rw [preempted, guardedRun, smallBoot_eq]
    decide +kernel)
  obtain ⟨earlier, run₀⟩ := facts.run₀
  obtain ⟨later, run⟩ := facts.run
  obtain ⟨resumed, popped, restored⟩ := trap_resumes facts.booted run₀ (by decide) facts.enters facts.found facts.running
    facts.alive facts.step run facts.same (facts.kept ▸ facts.found)
  exact ⟨s₀, s, s', s'', entered, resumed, facts, popped, restored.mpr ⟨rfl, .inr (.inl rfl)⟩⟩

/-- A program that has cleared %ds gets %es back there, and %es is cleared. -/
theorem trap_swaps_segments : ∃ s₀ s s' s'' entered resumed, Preemption (userCpu (gdUd ||| 3) 0) s₀ s s' s'' entered ∧
    envPopTf flatCore (entered.cpu.reg .rdi) entered = some resumed ∧
    resumed.cpu.seg .es = 0 ∧ resumed.cpu.seg .ds = gdUd ||| 3 ∧
    ¬ Resumes timerHandler.num (userCpu (gdUd ||| 3) 0) resumed.cpu := by
  obtain ⟨s₀, s, s', s'', entered, facts⟩ := @preempted_run (userCpu (gdUd ||| 3) 0) (by
    rw [preempted, guardedRun, smallBoot_eq]
    decide +kernel)
  have popped := facts.found.pop (s := entered) (fun _ _ => 0) 0
  refine ⟨s₀, s, s', s'', entered, _, facts, popped, rfl, rfl, ?_⟩
  intro resumes
  have es : (0 : BitVec 16) = gdUd ||| 3 := resumes.seg .es
  exact absurd es (by decide)

end System

end Jos
