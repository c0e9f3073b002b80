import JosKernel.System.Single

namespace Jos

-- Hardware interrupts

inductive Irq
  | timer
  | kbd
  | serial
  | spurious
  | ide
  | error
  deriving DecidableEq, Repr

def Irq.number : Irq → Word
  | timer => irqTimer
  | kbd => 1
  | serial => 4
  | spurious => irqSpurious
  | ide => 14
  | error => 19

def Irq.trapno (irq : Irq) : Word := irqOffset + irq.number

/-- An interrupt of a CPU that has halted: `trap` when it comes from kernel mode, with `curenv` NULL. -/
def Kernel.trapHalted (k : Kernel) (trapno : Word) : Except Stop (Kernel × Option Nat) :=
  if trapno = irqOffset + irqSpurious then k.schedYield none
  else if trapno = irqOffset + irqTimer then k.schedYield none
  else .error .panic

/-- What an interrupt that comes while `e` runs must leave of it. -/
structure Kernel.Undisturbed (k : Kernel) (e : Nat) (tf : Trapframe) (k' : Kernel) : Prop where
  status : (k'.envs e).envStatus = .running ∨ (k'.envs e).envStatus = .runnable
  envId : (k'.envs e).envId = (k.envs e).envId
  envTf : (k'.envs e).envTf = tf
  envPml4e : (k'.envs e).envPml4e = (k.envs e).envPml4e
  envCr3 : (k'.envs e).envCr3 = (k.envs e).envCr3
  mem : k'.mem = k.mem

variable {k k' : Kernel} {e : Nat} {tf : Trapframe} {cur cur' : Option Nat}

/-- `sched_yield` finds an environment to run if the current one is still running. -/
theorem schedYield_done (tables : ∀ e, k.InUse e → (k.envs e).envPml4e ≠ none) {c : Nat} (inside : c < nenv)
    (running : (k.envs c).envStatus = .running) : ∃ k' cur', k.schedYield (some c) = .ok (k', cur') := by
  have runs : ∀ e, k.InUse e → ∃ k' cur', k.envRun (some c) e = .ok (k', cur') := by
    intro e inUse
    obtain ⟨page, table⟩ := Option.ne_none_iff_exists'.mp (tables e inUse)
    obtain ⟨k', ran⟩ := envRun_done table (some c)
    exact ⟨k', some e, ran⟩
  unfold Kernel.schedYield
  split
  · rename_i e found
    have runnable : (k.envs e).envStatus = .runnable := by simpa using List.find?_some found
    have small : e < nenv := by
      obtain ⟨i, -, rfl⟩ := List.mem_map.mp (List.mem_of_find?_eq_some found)
      exact Nat.mod_lt _ (by decide)
    exact runs e ⟨small, by simp [runnable]⟩
  · simp only [running]
    exact runs c ⟨inside, by simp [running]⟩

theorem Yields.undisturbed (running : (k.envs e).envStatus = .running)
    (yields : Yields (k.setTf e tf) (some e) k' cur') : k.Undisturbed e tf k' := by
  obtain ⟨runs, same⟩ := yields.fields e
  refine ⟨?_, ?_, ?_, ?_, ?_, yields.mem⟩
  · rw [same, Kernel.leftStatus, Kernel.setTf_envStatus, running]
    split <;> simp
  · rw [same, Kernel.setTf_envId]
  · rw [same, Kernel.setTf_envTf]
  · rw [same, Kernel.setTf_envPml4e]
  · rw [same]
    exact k.setTf_field e e tf Env.envCr3 fun _ => rfl

theorem Irq.trapno_ne (irq : Irq) : irq.trapno ≠ tPgflt ∧ irq.trapno ≠ tSyscall := by
  cases irq <;> decide

theorem trap_dispatched {irq : Irq} {cr2 : Word} {key : Int} (tables : ∀ e, k.InUse e → (k.envs e).envPml4e ≠ none)
    (inside : e < nenv) (running : (k.envs e).envStatus = .running) (vector : tf.trapno = irq.trapno)
    (known : irq = .timer ∨ irq = .spurious) :
    ∃ k' cur', k.trap e tf cr2 key = .ok (k', cur') ∧ k.Undisturbed e tf k' := by
  have alive : (k.envs e).envStatus ≠ .dying := by simp [running]
  have runs : ((k.setTf e tf).envs e).envStatus = .running := by rw [Kernel.setTf_envStatus, running]
  have tables' : ∀ other, (k.setTf e tf).InUse other → ((k.setTf e tf).envs other).envPml4e ≠ none := by
    intro other inUse
    rw [Kernel.InUse, Kernel.setTf_envStatus] at inUse
    rw [Kernel.setTf_envPml4e]
    exact tables other inUse
  have notFault : tf.trapno ≠ tPgflt := vector ▸ irq.trapno_ne.1
  have notCall : tf.trapno ≠ tSyscall := vector ▸ irq.trapno_ne.2
  have done : ∃ k' cur', k.trap e tf cr2 key = .ok (k', cur') ∧ Yields (k.setTf e tf) (some e) k' cur' := by
    unfold Kernel.trap Kernel.trapDispatch
    simp only [Kernel.setTf_envTf]
    rw [if_neg alive, if_neg notFault, if_neg notCall]
    rcases known with rfl | rfl
    · obtain ⟨k', cur', yielded⟩ := schedYield_done tables' inside runs
      rw [vector, if_neg (by decide), if_pos (by rfl), leave_ok.mpr ⟨k', cur', yielded, rfl⟩]
      exact ⟨k', cur', rfl, schedYield_yields yielded⟩
    · obtain ⟨page, table⟩ := Option.ne_none_iff_exists'.mp (tables' e ⟨inside, by simp [running]⟩)
      obtain ⟨k', ran⟩ := envRun_done table (some e)
      rw [vector, if_pos (by rfl)]
      refine ⟨k', some e, ?_, envRun_yields runs ran⟩
      change (if ((k.setTf e tf).envs e).envStatus = .running then (k.setTf e tf).envRun (some e) e
        else (k.setTf e tf).schedYield (some e)) = .ok (k', some e)
      rw [if_pos runs, ran]
  obtain ⟨k', cur', trapped, yields⟩ := done
  exact ⟨k', cur', trapped, yields.undisturbed running⟩

theorem trap_undispatched {irq : Irq} {cr2 : Word} {key : Int} (running : (k.envs e).envStatus = .running)
    (vector : tf.trapno = irq.trapno) (unknown : ¬ (irq = .timer ∨ irq = .spurious))
    (done : k.trap e tf cr2 key = .ok (k', cur')) : (k'.envs e).envStatus = .free := by
  have noCall : tf.call = none := by rw [Trapframe.call, if_neg (vector ▸ irq.trapno_ne.2)]
  have noTimer : tf.trapno ≠ irqOffset + irqTimer := by
    rw [vector]
    cases irq <;> first | exact absurd (.inl rfl) unknown | decide
  have noSpurious : tf.trapno ≠ irqOffset + irqSpurious := by
    rw [vector]
    cases irq <;> first | exact absurd (.inr rfl) unknown | decide
  have handled := Kernel.trap_handled done
  cases handled with
  | reaped k₁ dying =>
    rw [running] at dying
    cases dying
  | redirected mem rsp alive fault => exact absurd (vector ▸ fault) irq.trapno_ne.1
  | handled k₁ cur alive effect yields =>
    cases effect with
    | answered call code k₁ made =>
      rw [noCall] at made
      cases made
    | blocked dstva made =>
      rw [noCall] at made
      cases made
    | yielded cause =>
      rw [noCall] at cause
      exact absurd (cause.resolve_left (by simp)) noTimer
    | ignored spurious => exact absurd spurious noSpurious
    | ended mem k₁ rsp kept _ _ freed =>
      have free := Kernel.envFree_status freed
      obtain ⟨runs, same⟩ := yields.fields e
      have unchosen : cur' ≠ some e := by
        intro chosen
        rcases yields.choice e chosen with runnable | ⟨current, -⟩
        · rw [free] at runnable
          cases runnable
        · cases current
      rw [same, Kernel.leftStatus_other _ unchosen, Kernel.leftStatus_idle (by simp)]
      exact free

theorem trapHalted_dispatched {irq : Irq} (tables : ∀ e, k.InUse e → (k.envs e).envPml4e ≠ none) :
    k.trapHalted irq.trapno ≠ .error .panic ↔ irq = .timer ∨ irq = .spurious := by
  have yields : k.schedYield none ≠ .error .panic := by
    unfold Kernel.schedYield
    split
    · rename_i e found
      have runnable : (k.envs e).envStatus = .runnable := by simpa using List.find?_some found
      obtain ⟨i, -, small⟩ := List.mem_map.mp (List.mem_of_find?_eq_some found)
      have inside : e < nenv := small ▸ Nat.mod_lt _ (by decide)
      obtain ⟨page, table⟩ := Option.ne_none_iff_exists'.mp (tables e ⟨inside, by simp [runnable]⟩)
      obtain ⟨k', ran⟩ := envRun_done table none
      rw [ran]
      simp
    · change k.schedHalt ≠ _
      unfold Kernel.schedHalt
      split
      · simp
      · simp
  unfold Kernel.trapHalted
  cases irq with
  | timer =>
    rw [if_neg (by decide), if_pos (by decide)]
    exact iff_of_true yields (.inl rfl)
  | spurious =>
    rw [if_pos (by decide)]
    exact iff_of_true yields (.inr rfl)
  | kbd | serial | ide | error =>
    rw [if_neg (by decide), if_neg (by decide)]
    exact iff_of_false (fun safe => safe rfl) (by simp)

/-- An interrupt leaves the current environment alone, and does not panic a halted CPU, exactly if
    `trap_dispatch` has an arm for it. -/
theorem interrupt_undisturbed (tables : ∀ e, k.InUse e → (k.envs e).envPml4e ≠ none) (inside : e < nenv)
    (running : (k.envs e).envStatus = .running) (irq : Irq) (vector : tf.trapno = irq.trapno) (cr2 : Word) (key : Int) :
    ((∃ k' cur', k.trap e tf cr2 key = .ok (k', cur') ∧ k.Undisturbed e tf k') ↔ irq = .timer ∨ irq = .spurious) ∧
      (k.trapHalted irq.trapno ≠ .error .panic ↔ irq = .timer ∨ irq = .spurious) := by
  refine ⟨⟨?_, trap_dispatched tables inside running vector⟩, trapHalted_dispatched tables⟩
  rintro ⟨k', cur', done, undisturbed⟩
  by_contra unknown
  have status := undisturbed.status
  rw [trap_undispatched running vector unknown done] at status
  simp at status

def irqTf (irq : Irq) : Trapframe := { timerTf with trapno := irq.trapno }

theorem interrupt_undisturbed_timer : ∃ s : System Unit, (s.cpus ()).cpuEnv = some 0 ∧
    (∃ k' cur', s.kernel.trap 0 (irqTf .timer) 0 0 = .ok (k', cur') ∧ s.kernel.Undisturbed 0 (irqTf .timer) k') ∧
    s.kernel.trapHalted Irq.timer.trapno ≠ .error .panic := by
  have result : (smallRun [.start ()]).map (fun s : System Unit =>
      ((s.cpus ()).cpuEnv, (s.kernel.envs 0).envStatus)) = some (some 0, .running) := by
    rw [smallRun, smallBoot_eq]
    decide +kernel
  obtain ⟨s, done, shown⟩ := Option.map_eq_some_iff.mp result
  obtain ⟨current, status⟩ := Prod.mk.inj shown
  obtain ⟨s₀, booted, run⟩ := smallRun_run done
  have tables := (booted.loaded.orderly.run run).table.pml4e
  obtain ⟨running, halted⟩ := interrupt_undisturbed tables (by decide) status .timer
    (show (irqTf .timer).trapno = Irq.timer.trapno from rfl) 0 0
  exact ⟨s, current, running.mpr (.inl rfl), halted.mpr (.inl rfl)⟩

/-- A key is pressed while the first environment runs, and there is a second one that can run. -/
theorem interrupt_destroys : ∃ s₀ s s' : System Unit, s₀.Booted ∧
    Transition.Run System.Step s₀ [.start (), .trap () (syscallTf 7 0 0 0 0 0) 0 0,
      .trap () (syscallTf 8 0x1001 2 0 0 0) 0 0] s ∧
    (s.cpus ()).cpuEnv = some 0 ∧ (s.kernel.envs 0).envStatus = .running ∧
    System.Step s (.trap () (irqTf .kbd) 0 0) s' ∧ (s'.kernel.envs 0).envStatus = .free ∧
    s'.kernel.console = s.kernel.console ++ [.freeEnv 0x1000 0x1000] ∧
    s.kernel.trapHalted Irq.kbd.trapno = .error .panic := by
  have result : ((smallRun [.start (), .trap () (syscallTf 7 0 0 0 0 0) 0 0,
      .trap () (syscallTf 8 0x1001 2 0 0 0) 0 0]).bind fun s : System Unit =>
        (s.next (.trap () (irqTf .kbd) 0 0)).map fun s' => ((s.cpus ()).cpuEnv, (s.kernel.envs 0).envStatus,
          (s'.kernel.envs 0).envStatus, s.kernel.console, s'.kernel.console)) =
      some (some 0, .running, .free, [.newEnv 0 0x1000, .newEnv 0x1000 0x1001],
        [.newEnv 0 0x1000, .newEnv 0x1000 0x1001, .freeEnv 0x1000 0x1000]) := by
    rw [smallRun, smallBoot_eq]
    decide +kernel
  obtain ⟨s, done, rest⟩ := Option.bind_eq_some_iff.mp result
  obtain ⟨s', moved, shown⟩ := Option.map_eq_some_iff.mp rest
  simp only [Prod.mk.injEq] at shown
  obtain ⟨current, status, gone, log, log'⟩ := shown
  obtain ⟨s₀, booted, run⟩ := smallRun_run done
  refine ⟨s₀, s, s', booted, run, current, status, System.step_of_next moved, gone, ?_, ?_⟩
  · rw [log, log']
    rfl
  · unfold Kernel.trapHalted
    rw [if_neg (by decide), if_neg (by decide)]

end Jos
