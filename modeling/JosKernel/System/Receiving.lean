import JosKernel.System.Messages

namespace Jos

def Event.Enters {C : Type} : Event C → Prop
  | .store _ _ _ => False
  | _ => True

theorem BootOp.step_waits {before after : Kernel} {op : BootOp} (waits : before.Waits)
    (step : op.Step before after) : after.Waits := by
  obtain ⟨-, ran⟩ := step
  cases op with
  | map la pa perm =>
    obtain ⟨mem, -, rfl⟩ := Fallible.map_ok.mp ran
    exact waits
  | create program =>
    obtain ⟨⟨result, k⟩, allocated, rest⟩ := Fallible.bind_ok.mp ran
    cases result with
    | error code => cases rest
    | ok e =>
      obtain ⟨root, -, rest⟩ := Fallible.bind_ok.mp rest
      obtain ⟨mem, -, rest⟩ := Fallible.bind_ok.mp rest
      cases rest
      have made : k.Waits := waits.envAlloc allocated
      have loaded : (k.setMem mem).Waits := made
      exact loaded.setEnv (made e)

namespace System

variable {C : Type} {s s' : System C} {event : Event C}

def Unwoken (s : System C) : Event C → Prop
  | .trap c tf _ _ => ∀ e, (s.cpus c).cpuEnv = some e → (s.kernel.envs e).envStatus ≠ .dying → s.kernel.Unwoken e tf
  | _ => True

/-- The kernel does not get confused, and nothing but a message wakes an environment that waits for one. -/
def Regular (s : System C) (event : Event C) : Prop := s.Guard event ∧ s.Unwoken event

structure Waits (s : System C) : Prop where
  waits : s.kernel.Waits
  inside : ∀ c e, (s.cpus c).cpuEnv = some e → e < nenv

theorem Booted.waits (booted : s.Booted) : s.Waits := by
  obtain ⟨config, envs, ops, k, run, rfl⟩ := booted
  have initial : (config.kernel envs).Waits := by
    intro e inside _
    by_contra used
    exact (config.kernel_table envs).2 e ⟨inside, fun free => used (.inr free)⟩
  refine ⟨run.invariant (fun _ _ _ => BootOp.step_waits) initial, ?_⟩
  intro c e current
  cases current

variable [DecidableEq C]

theorem Waits.leave (waits : s.Waits) {c : C} {k : Kernel} {cur : Option Nat} (after : k.Waits)
    (chosen : ∀ e, cur = some e → e < nenv) : (s.leave c k cur).Waits := by
  refine ⟨after, ?_⟩
  intro other e current
  simp only [System.leave] at current
  split at current
  · exact chosen e current
  · exact waits.inside other e current

theorem Waits.step (waits : s.Waits) (step : Transition.Guarded Unwoken Step s event s') :
    s'.Waits ∧ (event.Enters → ∀ e, (s'.cpus event.cpu).cpuEnv = some e →
      e < nenv ∧ (s'.kernel.envs e).envIpcRecving = false) := by
  obtain ⟨unwoken, step⟩ := step
  have yields : ∀ {c : C} {k : Kernel} {cur : Option Nat}, s.kernel.schedYield none = .ok (k, cur) →
      (s.leave c k cur).Waits ∧ ∀ e, ((s.leave c k cur).cpus c).cpuEnv = some e →
        e < nenv ∧ (k.envs e).envIpcRecving = false := by
    intro c k cur yield
    have yields := schedYield_yields yield
    obtain ⟨after, chosen⟩ := waits.waits.yields yields (by simp)
    refine ⟨waits.leave after (yields.slot (by simp)), ?_⟩
    intro e current
    simp only [System.leave, if_pos] at current
    exact ⟨yields.slot (by simp) e current, chosen e current⟩
  cases step with
  | start c k cur unused yield => exact ⟨(yields yield).1, fun _ => (yields yield).2⟩
  | wake c k cur halted yield => exact ⟨(yields yield).1, fun _ => (yields yield).2⟩
  | trap c tf cr2 key e k cur running user entry =>
    obtain ⟨after, chosen⟩ := waits.waits.trap (unwoken e running) (waits.inside c e running) entry
    refine ⟨waits.leave after fun e here => (chosen e here).1, fun _ e current => ?_⟩
    simp only [Event.cpu, System.leave, if_pos] at current
    exact chosen e current
  | store c va byte after stored =>
    obtain ⟨e, root, translation, -, -, -, -, -, -, rfl⟩ := stored
    exact ⟨⟨waits.waits, waits.inside⟩, fun enters => enters.elim⟩

theorem Waits.run {events : List (Event C)} (waits : s.Waits)
    (run : Transition.Run (Transition.Guarded Unwoken Step) s events s') : s'.Waits :=
  run.invariant (fun _ _ _ waits step => (waits.step step).1) waits

def Away (e : Nat) : System C → Event C → System C → Prop :=
  Transition.Guarded (fun s event => s.Regular event ∧ ¬ s.TrapOf e event) Step

/-- When `e` runs again it has got exactly one message, unless its slot has been handed out again. The call
    then returns 0. -/
def WakesWithMessage (s : System C) (e : Nat) : Prop :=
  ∀ later event s₂ s₃, Transition.Run (Away e) s later s₂ → Away e s₂ event s₃ → event.Enters →
    (s₃.cpus event.cpu).cpuEnv = some e → (issued s₃.kernel.console e).length = (issued s.kernel.console e).length →
    Transition.Once (fun s event => s.Sends e event) Step s (later ++ [event]) s₃ ∧
      (s₃.kernel.envs e).envTf.regs.rax = 0

theorem Step.issued (step : Step s event s') (e : Nat) :
    (Jos.issued s.kernel.console e).length ≤ (Jos.issued s'.kernel.console e).length := by
  have grows : ∃ notices, s'.kernel.console = s.kernel.console ++ notices := by
    cases step with
    | start c k cur unused yield => exact ⟨[], (schedYield_yields yield).console.trans (List.append_nil _).symm⟩
    | wake c k cur halted yield => exact ⟨[], (schedYield_yields yield).console.trans (List.append_nil _).symm⟩
    | trap c tf cr2 key e k cur running user entry => exact Kernel.trap_console entry
    | store c va byte after stored =>
      obtain ⟨e, root, translation, -, -, -, -, -, -, rfl⟩ := stored
      exact ⟨[], (List.append_nil _).symm⟩
  obtain ⟨notices, log⟩ := grows
  rw [log, issued_append, List.length_append]
  exact Nat.le_add_right _ _

theorem Away.keeps {e : Nat} (away : Away e s event s') (inside : e < nenv)
    (same : (Jos.issued s'.kernel.console e).length = (Jos.issued s.kernel.console e).length)
    (quiet : ¬ s.Sends e event) :
    (s'.kernel.envs e).envIpcRecving = (s.kernel.envs e).envIpcRecving := by
  cases away.2.arrives away.1.2 with
  | kept mail => exact mail.envIpcRecving
  | made made =>
    have more := made.issued inside
    omega
  | sent sends => exact absurd sends quiet

/-- The call of `sys_ipc_recv` is still blocked, or its result is there. -/
def Answered (e : Nat) (s : System C) : Prop :=
  (s.kernel.envs e).envIpcRecving = true ∨ (s.kernel.envs e).envTf.regs.rax = 0

theorem Away.answered {e : Nat} (away : Away e s event s') (answered : s.Answered e) : s'.Answered e := by
  cases away.2.arrives away.1.2 with
  | kept mail =>
    rw [Answered, mail.envIpcRecving, mail.rax]
    exact answered
  | made made => exact .inr made.rax
  | sent sends => exact .inr (Sends.recving sends away.2).2.2

theorem Waits.wakes (waits : s.Waits) {e : Nat} (recving : (s.kernel.envs e).envIpcRecving = true) :
    s.WakesWithMessage e := by
  intro later event s₂ s₃ run last enters current same
  have whole : Transition.Run (Away e) s (later ++ [event]) s₃ := run.snoc last
  have before : s₂.Waits := waits.run (run.mono fun _ _ _ away => ⟨away.1.1.2, away.2⟩)
  obtain ⟨inside, clear⟩ := (before.step ⟨last.1.1.2, last.2⟩).2 enters e current
  have constant := whole.constant (fun _ _ _ away => away.2.issued e) (Nat.le_of_eq same)
  refine ⟨(constant.once (fun s => (s.kernel.envs e).envIpcRecving) ?_ ?_ recving clear).mono fun _ _ _ step => step.1.2, ?_⟩
  · intro before label after step sends
    obtain ⟨waiting, done, -⟩ := Sends.recving sends step.1.2
    exact ⟨waiting, done⟩
  · exact fun before label after step quiet => Away.keeps step.1 inside step.2 quiet
  have answered : s₃.Answered e := whole.invariant (fun _ _ _ answered away => Away.answered away answered) (.inl recving)
  rcases answered with waiting | returned
  · rw [clear] at waiting
    cases waiting
  · exact returned

/-- As long as nothing but a message makes a waiting environment runnable, it does not run, and its call of
    `sys_ipc_recv` fails at once or returns after exactly one message. -/
theorem ipc_recv_waits {s₀ : System C} {events : List (Event C)} (booted : s₀.Booted)
    (run : Transition.Run (Transition.Guarded Regular Step) s₀ events s) :
    (∀ e, s.kernel.InUse e → (s.kernel.envs e).envIpcRecving = true → (s.kernel.envs e).envStatus = .notRunnable) ∧
      ∀ c tf cr2 key e dstva s', (s.cpus c).cpuEnv = some e → (s.kernel.envs e).envStatus ≠ .dying →
        tf.call = some (.ipcRecv dstva) → Step s (.trap c tf cr2 key) s' →
        dstva < utop ∧ dstva % BitVec.ofNat 64 pgSize ≠ 0 ∧
            (s'.kernel.envs e).envTf.regs.rax = BitVec.ofInt 64 (-eInval) ∨
          (s'.cpus c).cpuEnv ≠ some e ∧ (s'.kernel.envs e).envStatus = .notRunnable ∧ s'.WakesWithMessage e := by
  have waits := booted.waits.run (run.mono fun _ _ _ step => ⟨step.1.2, step.2⟩)
  refine ⟨?_, ?_⟩
  · intro e inUse recving
    exact (waits.waits e inUse.1 recving).resolve_right inUse.2
  · intro c tf cr2 key e dstva s' current alive made step
    have unwoken : s.Unwoken (.trap c tf cr2 key) := by
      intro e' _ _
      refine ⟨?_, ?_⟩
      · simp [Kernel.wakes, made]
      · intro fault
        rw [Trapframe.call, fault, if_neg (by decide)] at made
        cases made
    have after := (waits.step ⟨unwoken, step⟩).1
    cases step with
    | trap _ _ _ _ e' k cur running user entry =>
      rw [current] at running
      cases running
      rcases Kernel.trap_ipcRecv alive made entry with ⟨low, misaligned, -, refused⟩ | ⟨recving, status, left⟩
      · exact .inl ⟨low, misaligned, refused⟩
      · refine .inr ⟨?_, status, after.wakes recving⟩
        simpa [System.leave] using left

end System

-- The small machine

instance (k : Kernel) (c : Nat) (tf : Trapframe) : Decidable (k.Unwoken c tf) :=
  decidable_of_iff ((∀ e ∈ k.wakes c tf, (k.envs e).envIpcRecving = false) ∧
      (tf.trapno = tPgflt → (k.envs c).envPgfaultUpcall ≠ 0 → (k.envs c).envIpcRecving = false))
    ⟨fun both => ⟨both.1, both.2⟩, fun unwoken => ⟨unwoken.status, unwoken.upcall⟩⟩

namespace System

theorem unwoken_trap {C : Type} {s : System C} {c : C} {tf : Trapframe} {cr2 : Word} {key : Int} :
    s.Unwoken (.trap c tf cr2 key) ↔ ∀ e ∈ (s.cpus c).cpuEnv, (s.kernel.envs e).envStatus ≠ .dying →
      s.kernel.Unwoken e tf := Iff.rfl

variable {C : Type}

instance decidableUnwoken (s : System C) : (event : Event C) → Decidable (s.Unwoken event)
  | .trap _ _ _ _ => decidable_of_iff _ unwoken_trap.symm
  | .start _ | .wake _ | .store _ _ _ => isTrue trivial

instance [Fintype C] [DecidableEq C] (s : System C) (event : Event C) : Decidable (s.Regular event) :=
  inferInstanceAs (Decidable (_ ∧ _))

instance decidableTrapOf (s : System C) (e : Nat) : (event : Event C) → Decidable (s.TrapOf e event)
  | .trap c _ _ _ => inferInstanceAs (Decidable ((s.cpus c).cpuEnv = some e))
  | .start _ | .wake _ | .store _ _ _ => isFalse id

def forkAndYield : List (Event Bool) :=
  [.start false, .trap false (syscallTf 7 0 0 0 0 0) 0 0, .trap false (syscallTf 8 0x1001 2 0 0 0) 0 0,
    .trap false (syscallTf 10 0 0 0 0 0) 0 0]

/-- What the small machine computes when the child waits, the parent does what is listed and at last `event`
    happens. -/
def receiveResult (condition : System Bool → Event Bool → Prop) [∀ s event, Decidable (condition s event)]
    (later : List (Event Bool)) (event : Event Bool) : Option (System Bool × System Bool × System Bool × System Bool) :=
  smallBoot.bind fun k =>
    (Transition.exec (Transition.nextIf Regular System.next) (idle k) forkAndYield).bind fun s =>
      (s.next (.trap false (syscallTf 12 utext 0 0 0 0) 0 0)).bind fun s₁ =>
        (Transition.exec (Transition.nextIf condition System.next) s₁ later).bind fun s₂ =>
          (Transition.nextIf condition System.next s₂ event).map fun s₃ => (s, s₁, s₂, s₃)

theorem receiveResult_run {condition : System Bool → Event Bool → Prop} [∀ s event, Decidable (condition s event)]
    {later : List (Event Bool)} {event : Event Bool} {s s₁ s₂ s₃ : System Bool}
    (done : receiveResult condition later event = some (s, s₁, s₂, s₃)) :
    ∃ s₀, s₀.Booted ∧ Transition.Run (Transition.Guarded Regular Step) s₀ forkAndYield s ∧
      Step s (.trap false (syscallTf 12 utext 0 0 0 0) 0 0) s₁ ∧
      Transition.Run (Transition.Guarded condition Step) s₁ later s₂ ∧
      Transition.Guarded condition Step s₂ event s₃ := by
  obtain ⟨k, booted, rest⟩ := Option.bind_eq_some_iff.mp done
  obtain ⟨first, ran, rest⟩ := Option.bind_eq_some_iff.mp rest
  obtain ⟨second, waits, rest⟩ := Option.bind_eq_some_iff.mp rest
  obtain ⟨third, ran', rest⟩ := Option.bind_eq_some_iff.mp rest
  obtain ⟨fourth, moved, same⟩ := Option.map_eq_some_iff.mp rest
  cases same
  refine ⟨idle k, ⟨smallMachine, _, _, k, smallBoot_run booted, rfl⟩, .of_exec ?_ ran, step_of_next waits,
    .of_exec ?_ ran', Transition.guarded_of_nextIf (fun _ _ _ => step_of_next) moved⟩
  · exact fun _ _ _ => Transition.guarded_of_nextIf fun _ _ _ => step_of_next
  · exact fun _ _ _ => Transition.guarded_of_nextIf fun _ _ _ => step_of_next

def yieldCall : Event Bool := .trap false (syscallTf 10 0 0 0 0 0) 0 0

theorem ipc_recv_waits_message : ∃ s₀ s s₁ s₃ : System Bool, ∃ later, s₀.Booted ∧
    Transition.Run (Transition.Guarded Regular Step) s₀ forkAndYield s ∧
    Step s (.trap false (syscallTf 12 utext 0 0 0 0) 0 0) s₁ ∧ (s₃.cpus false).cpuEnv = some 1 ∧
    Transition.Once (fun s event => s.Sends 1 event) Step s₁ (later ++ [yieldCall]) s₃ := by
  have result : (receiveResult (fun s event => s.Regular event ∧ ¬ s.TrapOf 1 event)
      [.trap false (syscallTf 11 0x1001 42 utop 0 0) 0 0] yieldCall).map (fun seen =>
        ((seen.1.cpus false).cpuEnv, (seen.1.kernel.envs 1).envStatus, (seen.2.2.2.cpus false).cpuEnv,
          (issued seen.2.1.kernel.console 1).length, (issued seen.2.2.2.kernel.console 1).length)) =
      some (some 1, .running, some 1, 1, 1) := by
    rw [receiveResult, smallBoot_eq]
    decide +kernel
  obtain ⟨⟨s, s₁, s₂, s₃⟩, done, shown⟩ := Option.map_eq_some_iff.mp result
  simp only [Prod.mk.injEq] at shown
  obtain ⟨current, status, resumed, before, after⟩ := shown
  obtain ⟨s₀, booted, run, recv, later, last⟩ := receiveResult_run done
  rcases (ipc_recv_waits booted run).2 false _ _ _ 1 utext s₁ current (by simp [status]) rfl recv with
    ⟨-, misaligned, -⟩ | ⟨-, -, wakes⟩
  · exact absurd (show utext % BitVec.ofNat 64 pgSize = 0 by decide) misaligned
  · exact ⟨s₀, s, s₁, s₃, _, booted, run, recv, resumed,
      (wakes _ yieldCall s₂ s₃ later last trivial resumed (after.trans before.symm)).1⟩

/-- The parent makes its child runnable, which returns from `sys_ipc_recv` without a message. -/
theorem ipc_recv_woken : ∃ s₀ s s₁ s₂ s₃ : System Bool, s₀.Booted ∧
    Transition.Run (Transition.Guarded Regular Step) s₀ forkAndYield s ∧
    Step s (.trap false (syscallTf 12 utext 0 0 0 0) 0 0) s₁ ∧
    Transition.Run (Transition.Guarded (fun s event => ¬ s.Sends 1 event) Step) s₁
      [.trap false (syscallTf 8 0x1001 2 0 0 0) 0 0] s₂ ∧
    Transition.Guarded (fun s event => ¬ s.Sends 1 event) Step s₂ yieldCall s₃ ∧
    s₂.kernel.InUse 1 ∧ (s₂.kernel.envs 1).envIpcRecving = true ∧ (s₂.kernel.envs 1).envStatus = .runnable ∧
    (s₃.cpus false).cpuEnv = some 1 ∧ (s₃.kernel.envs 1).envIpcRecving = true := by
  have result : (receiveResult (fun _ _ => True) [.trap false (syscallTf 8 0x1001 2 0 0 0) 0 0] yieldCall).map
      (fun seen => ((seen.2.2.1.kernel.envs 1).envStatus, (seen.2.2.1.kernel.envs 1).envIpcRecving,
        (seen.2.2.2.cpus false).cpuEnv, (seen.2.2.2.kernel.envs 1).envIpcRecving)) =
      some (.runnable, true, some 1, true) := by
    rw [receiveResult, smallBoot_eq]
    decide +kernel
  obtain ⟨⟨s, s₁, s₂, s₃⟩, done, shown⟩ := Option.map_eq_some_iff.mp result
  simp only [Prod.mk.injEq] at shown
  obtain ⟨status, recving, resumed, still⟩ := shown
  obtain ⟨s₀, booted, run, recv, later, last⟩ := receiveResult_run done
  have quiet : ∀ (s : System Bool) (number a1 a2 : Word), number = 8 ∨ number = 10 →
      ¬ s.Sends 1 (.trap false (syscallTf number a1 a2 0 0 0) 0 0) := by
    rintro s number a1 a2 (rfl | rfl) ⟨e, value, srcva, perm, k₁, -, sends⟩
    · obtain ⟨envid, made, -⟩ := sends.call
      cases made
    · obtain ⟨envid, made, -⟩ := sends.call
      cases made
  cases later with
  | cons head tail =>
    cases tail
    exact ⟨s₀, s, s₁, s₂, s₃, booted, run, recv, .cons ⟨quiet _ _ _ _ (.inl rfl), head.2⟩ (.nil _),
      ⟨quiet _ _ _ _ (.inr rfl), last.2⟩, ⟨by decide, by simp [status]⟩, recving, status, resumed, still⟩

end System

end Jos
