import JosKernel.Env.Booted
import JosKernel.System.Exclusion
import JosKernel.Trap.Evolution

namespace Jos

namespace System

variable {C : Type}

/-- System calls map only what kern/pmap.c gets right, and no environment is freed before its PML4 has
    entry 0. -/
def Careful (s : System C) : Event C → Prop
  | .trap c tf _ _ => ∀ e, (s.cpus c).cpuEnv = some e →
      tf.Careful s.kernel e ∧ ∀ freed, tf.destroys s.kernel e = some freed → s.kernel.Rooted freed
  | _ => True

/-- Neither the scheduler nor the memory of the kernel gets confused by the event. -/
def Guard (s : System C) (event : Event C) : Prop := s.Respectful event ∧ s.Careful event

structure Sound (reserved : Nat → Prop) (s : System C) : Prop where
  exclusive : s.Exclusive
  spaces : ∃ g, Spaces reserved s.kernel g

variable {reserved : Nat → Prop}

structure Waiting (reserved : Nat → Prop) (k : Kernel) : Prop where
  scheduled : Scheduled (fun _ => False) k none
  spaces : ∃ g, Spaces reserved k g

theorem Waiting.step {before after : Kernel} {op : BootOp} (waiting : Waiting reserved before)
    (step : op.Step before after) : Waiting reserved after := by
  obtain ⟨g, spaces⟩ := waiting.spaces
  exact ⟨op.step_scheduled waiting.scheduled step, op.step_spaces spaces waiting.scheduled.table step⟩

theorem sound_idle {config : BootConfig} {envs : Nat → Env} {ops : List BootOp} {k : Kernel}
    (run : Transition.Run BootOp.Step (config.kernel envs) ops k) : (idle k : System C).Sound config.Reserved where
  exclusive := Booted.exclusive ⟨config, envs, ops, k, run, rfl⟩
  spaces := by
    have initial : Waiting config.Reserved (config.kernel envs) :=
      ⟨config.kernel_scheduled envs, _, config.kernel_spaces envs⟩
    exact (run.invariant (fun _ _ _ waiting step => waiting.step step) initial).spaces

def Maps (s : System C) : Event C → Nat → Word → Word → Prop
  | .trap c tf _ _, e, va, entry => ∃ cur, (s.cpus c).cpuEnv = some cur ∧ tf.Maps s.kernel cur e va entry
  | _, _, _, _ => False

theorem Sound.inUse {s : System C} {c : C} {e : Nat} (sound : s.Sound reserved) (current : (s.cpus c).cpuEnv = some e) :
    s.kernel.InUse e := by
  obtain ⟨inside, status⟩ := sound.exclusive.current c e current
  exact ⟨inside, by rcases status with status | status <;> simp [status]⟩

variable [DecidableEq C] {s s' : System C} {event : Event C}

theorem Sound.evolves (sound : s.Sound reserved) (step : Transition.Guarded Guard Step s event s') :
    Evolves reserved (s.Maps event) s.kernel s'.kernel := by
  obtain ⟨⟨respectful, careful⟩, moved⟩ := step
  obtain ⟨g, spaces⟩ := sound.spaces
  cases moved with
  | start c k cur unused yield => exact spaces.evolves_yield (by simp) yield
  | trap c tf cr2 key e k cur running user entry =>
    obtain ⟨tame, rooted⟩ := careful e running
    have evolves := spaces.trap (sound.exclusive.scheduled running) (fun alive call made =>
      respectful e call running alive made) tame rooted entry
    exact evolves.mono fun e' va leaf mapped => ⟨e, running, mapped⟩
  | wake c k cur halted yield => exact spaces.evolves_yield (by simp) yield
  | store c va byte after stored =>
    obtain ⟨e, root, translation, current, pml4e, walk, -, -, below, rfl⟩ := stored
    have data := spaces.memory.mmuWalk_data (spaces.role (sound.inUse current) pml4e) below walk
    exact spaces.evolves_rewrites (.setByte data va byte)

theorem Sound.step (sound : s.Sound reserved) (step : Transition.Guarded Guard Step s event s') : s'.Sound reserved :=
  ⟨sound.exclusive.step ⟨step.1.1, step.2⟩, (sound.evolves step).spaces⟩

theorem Sound.run {events : List (Event C)} (sound : s.Sound reserved)
    (run : Transition.Run (Transition.Guarded Guard Step) s events s') : s'.Sound reserved :=
  run.invariant (fun _ _ _ sound step => sound.step step) sound

/-- Nothing is written to the pages that `page_init` has reserved, where the kernel keeps its own data. -/
theorem Sound.run_holds {events : List (Event C)} (sound : s.Sound reserved)
    (run : Transition.Run (Transition.Guarded Guard Step) s events s') : s.kernel.mem.Holds reserved s'.kernel.mem := by
  have initial : s.Sound reserved ∧ s.kernel.mem.Holds reserved s.kernel.mem := ⟨sound, .refl reserved s.kernel.mem⟩
  refine (@Transition.Run.invariant _ _ _ (fun state => state.Sound reserved ∧ s.kernel.mem.Holds reserved state.kernel.mem)
    s s' events run ?_ initial).2
  exact fun before event after ⟨sound, holds⟩ step => ⟨sound.step step, holds.trans (sound.evolves step).holds⟩

end System

-- Runs of the small machine that meet the condition

theorem System.respectful_trap {C : Type} {s : System C} {c : C} {tf : Trapframe} {cr2 : Word} {key : Int} :
    s.Respectful (.trap c tf cr2 key) ↔ ∀ e ∈ (s.cpus c).cpuEnv, (s.kernel.envs e).envStatus ≠ .dying →
      ∀ call ∈ tf.call, call.Respects (s.Elsewhere c) (s.kernel.setTf e tf) e :=
  ⟨fun met e current alive call made => met e call current alive made,
    fun met e call current alive made => met e current alive call made⟩

theorem System.careful_trap {C : Type} {s : System C} {c : C} {tf : Trapframe} {cr2 : Word} {key : Int} :
    s.Careful (.trap c tf cr2 key) ↔ ∀ e ∈ (s.cpus c).cpuEnv, tf.Careful s.kernel e ∧
      ∀ freed ∈ tf.destroys s.kernel e, s.kernel.Rooted freed := Iff.rfl

section Decide

variable {C : Type} [Fintype C] [DecidableEq C]

instance (s : System C) (c : C) : DecidablePred (s.Elsewhere c) :=
  fun e => inferInstanceAs (Decidable (∃ other, other ≠ c ∧ (s.cpus other).cpuEnv = some e))

instance decidableRespectful (s : System C) : (event : Event C) → Decidable (s.Respectful event)
  | .trap _ _ _ _ => decidable_of_iff _ System.respectful_trap.symm
  | .start _ | .wake _ | .store _ _ _ => isTrue trivial

instance decidableCareful (s : System C) : (event : Event C) → Decidable (s.Careful event)
  | .trap _ _ _ _ => decidable_of_iff _ System.careful_trap.symm
  | .start _ | .wake _ | .store _ _ _ => isTrue trivial

instance (s : System C) (event : Event C) : Decidable (s.Guard event) := inferInstanceAs (Decidable (_ ∧ _))

def System.guardedNext (s : System C) (event : Event C) : Option (System C) :=
  if s.Guard event then s.next event else none

theorem System.step_of_guardedNext {s s' : System C} {event : Event C} (moved : s.guardedNext event = some s') :
    Transition.Guarded System.Guard System.Step s event s' := by
  rw [System.guardedNext] at moved
  split at moved
  · rename_i met
    exact ⟨met, System.step_of_next moved⟩
  · cases moved

def guardedRun (events : List (Event C)) : Option (System C) :=
  smallBoot.bind fun k => Transition.exec System.guardedNext (System.idle k) events

theorem guardedRun_run {events : List (Event C)} {s : System C} (done : guardedRun events = some s) :
    ∃ k, Transition.Run BootOp.Step (smallMachine.kernel fun _ => default) [.create ⟨[], 0⟩] k ∧
      Transition.Run (Transition.Guarded System.Guard System.Step) (System.idle k) events s := by
  obtain ⟨k, booted, rest⟩ := Option.bind_eq_some_iff.mp done
  exact ⟨k, smallBoot_run booted, .of_exec (fun _ _ _ moved => System.step_of_guardedNext moved) rest⟩

theorem guardedRun_booted {events : List (Event C)} {s : System C} (done : guardedRun events = some s) :
    ∃ s₀, s₀.Booted ∧ Transition.Run (Transition.Guarded System.Guard System.Step) s₀ events s := by
  obtain ⟨k, booted, run⟩ := guardedRun_run done
  exact ⟨System.idle k, ⟨smallMachine, _, _, k, booted, rfl⟩, run⟩

end Decide

namespace System

variable {C : Type} [DecidableEq C] {s : System C}

theorem Booted.guarded_exclusive {s₀ : System C} {events : List (Event C)} (booted : s₀.Booted)
    (run : Transition.Run (Transition.Guarded Guard Step) s₀ events s) : s.Exclusive :=
  booted.run_exclusive (run.mono fun _ _ _ step => ⟨step.1.1, step.2⟩)

/-- No environment is current on two CPUs, and the one that a CPU goes on to run is current on no other. -/
theorem current_exclusive {s₀ s : System C} {events : List (Event C)} (booted : s₀.Booted)
    (run : Transition.Run (Transition.Guarded Guard Step) s₀ events s) :
    (∀ c c' e, (s.cpus c).cpuEnv = some e → (s.cpus c').cpuEnv = some e → c = c') ∧
      ∀ event s', Transition.Guarded Guard Step s event s' →
        ∀ e, (s'.cpus event.cpu).cpuEnv = some e → ¬ s.Elsewhere event.cpu e := by
  have exclusive := booted.guarded_exclusive run
  refine ⟨exclusive.unique, ?_⟩
  intro event s' step e current
  rcases exclusive.entry ⟨step.1.1, step.2⟩ with ⟨k, cur, rfl, kept⟩ | ⟨cpus, -⟩
  · rw [show ((s.leave event.cpu k cur).cpus event.cpu).cpuEnv = cur by simp [System.leave]] at current
    exact (kept.scheduled.current e current).2.2
  · rw [cpus] at current
    rintro ⟨other, different, elsewhere⟩
    exact different (exclusive.unique other event.cpu e elsewhere current)

def forkAndShare : List (Event Bool) :=
  [.start false, .trap false (syscallTf 7 0 0 0 0 0) 0 0, .trap false (syscallTf 4 0x1001 0x800000 7 0 0) 0 0,
    .trap false (syscallTf 8 0x1001 2 0 0 0) 0 0, .start true]

theorem current_exclusive_child : ∃ s : System Bool, (s.cpus false).cpuEnv = some 0 ∧ (s.cpus true).cpuEnv = some 1 ∧
    ∀ c c' e, (s.cpus c).cpuEnv = some e → (s.cpus c').cpuEnv = some e → c = c' := by
  have result : (guardedRun forkAndShare).map (fun s => ((s.cpus false).cpuEnv, (s.cpus true).cpuEnv)) =
      some (some 0, some 1) := by
    rw [guardedRun, smallBoot_eq]
    decide +kernel
  obtain ⟨s, done, shown⟩ := Option.map_eq_some_iff.mp result
  obtain ⟨first, second⟩ := Prod.mk.inj shown
  obtain ⟨s₀, booted, run⟩ := guardedRun_booted done
  exact ⟨s, first, second, (current_exclusive booted run).1⟩

/-- The first environment makes its child runnable while that runs on the other CPU, and yields. -/
def wakeRunning : List (Event Bool) :=
  [.start false, .trap false (syscallTf 7 0 0 0 0 0) 0 0, .trap false (syscallTf 8 0x1001 2 0 0 0) 0 0,
    .start true, .trap false (syscallTf 8 0x1001 2 0 0 0) 0 0, .trap false (syscallTf 10 0 0 0 0 0) 0 0]

theorem wakeRunning_shared : ∃ s₀ s : System Bool, s₀.Booted ∧
    Transition.Run Step s₀ wakeRunning s ∧
    (s.cpus false).cpuEnv = some 1 ∧ (s.cpus true).cpuEnv = some 1 := by
  have result : (smallRun wakeRunning).map (fun s => ((s.cpus false).cpuEnv, (s.cpus true).cpuEnv)) =
      some (some 1, some 1) := by
    rw [smallRun, smallBoot_eq]
    decide +kernel
  obtain ⟨s, done, current⟩ := Option.map_eq_some_iff.mp result
  obtain ⟨s₀, booted, run⟩ := smallRun_run done
  exact ⟨s₀, s, booted, run, congrArg Prod.fst current, congrArg Prod.snd current⟩

/-- `env_free` is applied to no environment that is current on another CPU, and once to each
    environment that was made. The console shows each call of it. -/
theorem freed_once {s₀ s : System C} {events : List (Event C)} (booted : s₀.Booted)
    (run : Transition.Run (Transition.Guarded Guard Step) s₀ events s) :
    FreedOnce s.kernel.console ∧
      ∀ event s', Transition.Guarded Guard Step s event s' →
        ∃ notices, s'.kernel.console = s.kernel.console ++ notices ∧
          ∀ cur envid, .freeEnv cur envid ∈ notices → ¬ s.Elsewhere event.cpu (envx envid) := by
  have exclusive := booted.guarded_exclusive run
  refine ⟨exclusive.log.freedOnce, ?_⟩
  intro event s' step
  rcases exclusive.entry ⟨step.1.1, step.2⟩ with ⟨k, cur, rfl, kept⟩ | ⟨-, mem, kernel⟩
  · exact kept.frees
  · exact ⟨[], by simp [kernel], by simp⟩

/-- The first environment destroys its child while the other CPU runs it, and the child traps. -/
def destroyRunning : List (Event Bool) :=
  forkAndShare ++ [.trap false (syscallTf 3 0x1001 0 0 0 0) 0 0, .trap true timerTf 0 0]

theorem freed_once_child : ∃ s : System Bool, .freeEnv 0x1001 0x1001 ∈ s.kernel.console ∧
    FreedOnce s.kernel.console := by
  have result : (guardedRun destroyRunning).map (fun s => s.kernel.console) =
      some [.newEnv 0 0x1000, .newEnv 0x1000 0x1001, .freeEnv 0x1001 0x1001] := by
    rw [guardedRun, smallBoot_eq]
    decide +kernel
  obtain ⟨s, done, console⟩ := Option.map_eq_some_iff.mp result
  obtain ⟨s₀, booted, run⟩ := guardedRun_booted done
  exact ⟨s, by simp [console], (freed_once booted run).1⟩

def destroyTwice : List (Event Bool) :=
  [.start false, .trap false (syscallTf 7 0 0 0 0 0) 0 0, .trap false (syscallTf 8 0x1001 2 0 0 0) 0 0,
    .start true, .trap false (syscallTf 3 0x1001 0 0 0 0) 0 0]

theorem destroyTwice_freesCurrent : ∃ s₀ s s' : System Bool, s₀.Booted ∧
    Transition.Run Step s₀ destroyTwice s ∧
    Step s (.trap false (syscallTf 3 0x1001 0 0 0 0) 0 0) s' ∧
    s'.kernel.console = s.kernel.console ++ [.freeEnv 0x1000 0x1001] ∧
    envx 0x1001 = 1 ∧ s.Elsewhere false 1 := by
  have result : ((smallRun destroyTwice).bind fun s =>
      (s.next (.trap false (syscallTf 3 0x1001 0 0 0 0) 0 0)).map fun s' =>
        ((s.cpus true).cpuEnv, s.kernel.console, s'.kernel.console)) =
      some (some 1, [.newEnv 0 0x1000, .newEnv 0x1000 0x1001],
        [.newEnv 0 0x1000, .newEnv 0x1000 0x1001, .freeEnv 0x1000 0x1001]) := by
    rw [smallRun, smallBoot_eq]
    decide +kernel
  obtain ⟨s, done, rest⟩ := Option.bind_eq_some_iff.mp result
  obtain ⟨s', moved, shown⟩ := Option.map_eq_some_iff.mp rest
  obtain ⟨s₀, booted, run⟩ := smallRun_run done
  have current : (s.cpus true).cpuEnv = some 1 := congrArg Prod.fst shown
  have before : s.kernel.console = _ := congrArg (fun seen => seen.2.1) shown
  have after : s'.kernel.console = _ := congrArg (fun seen => seen.2.2) shown
  refine ⟨s₀, s, s', booted, run, step_of_next moved, ?_, by decide, true, by decide, current⟩
  rw [before, after]
  rfl

end System

end Jos
