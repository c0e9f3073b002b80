import JosKernel.System.Sound
import JosKernel.Trap.Messages

namespace Jos

-- lib/ipc.c

structure Received where
  fromEnv : BitVec 32
  perm : BitVec 32
  value : BitVec 32

/-- `result` is what `sys_ipc_recv` returns. Both places to store to are given. -/
def ipcRecv (result : Word) (thisenv : Env) : Received :=
  if (result.setWidth 32).toInt < 0 then ⟨0, 0, result.setWidth 32⟩
  else ⟨thisenv.envIpcFrom, thisenv.envIpcPerm, thisenv.envIpcValue⟩

structure Env.Reports (env : Env) (maps : Prop) (perm : BitVec 32) : Prop where
  page : maps → env.envIpcPerm = perm
  none : ¬ maps → env.envIpcPerm = 0
  stored : (ipcRecv env.envTf.regs.rax env).perm ≠ 0 ↔ maps

namespace System

variable {C : Type} {s s' s'' : System C} {t : Nat} {event : Event C} {events : List (Event C)}

def TrapOf (s : System C) (e : Nat) : Event C → Prop
  | .trap c _ _ _ => (s.cpus c).cpuEnv = some e
  | _ => False

def Sends (s : System C) (t : Nat) : Event C → Prop
  | .trap c tf _ _ => ∃ e value srcva perm k₁, (s.cpus c).cpuEnv = some e ∧ s.kernel.Sends e tf t value srcva perm k₁
  | _ => False

structure Settled (t : Nat) (given : BitVec 32) (s : System C) : Prop where
  envIpcRecving : (s.kernel.envs t).envIpcRecving = false
  envIpcPerm : (s.kernel.envs t).envIpcPerm = given
  rax : (s.kernel.envs t).envTf.regs.rax = 0

theorem Settled.reports {given perm : BitVec 32} {maps : Prop} (settled : s.Settled t given) :
    (s.kernel.envs t).Reports maps perm ↔ (maps → given = perm) ∧ (¬ maps → given = 0) ∧ (given ≠ 0 ↔ maps) := by
  have stored : (ipcRecv (s.kernel.envs t).envTf.regs.rax (s.kernel.envs t)).perm = given := by
    rw [settled.rax]
    exact settled.envIpcPerm
  constructor
  · intro reports
    refine ⟨?_, ?_, ?_⟩
    · exact fun maps => settled.envIpcPerm.symm.trans (reports.page maps)
    · exact fun unmapped => settled.envIpcPerm.symm.trans (reports.none unmapped)
    · rw [← stored]
      exact reports.stored
  · rintro ⟨page, none, told⟩
    refine ⟨?_, ?_, ?_⟩
    · exact fun maps => settled.envIpcPerm.trans (page maps)
    · exact fun unmapped => settled.envIpcPerm.trans (none unmapped)
    · rw [stored]
      exact told

variable [DecidableEq C]

inductive Arrives (s : System C) (t : Nat) (event : Event C) (s' : System C) : Prop
  | kept (same : SameMail (s.kernel.envs t) (s'.kernel.envs t))
  | made (made : MadeIn s.kernel t s'.kernel)
  | sent (sends : s.Sends t event)

theorem Step.arrives (step : Step s event s') (other : ¬ s.TrapOf t event) : s.Arrives t event s' := by
  cases step with
  | start c k cur unused yield => exact .kept ((schedYield_yields yield).mail t)
  | wake c k cur halted yield => exact .kept ((schedYield_yields yield).mail t)
  | store c va byte after stored =>
    obtain ⟨e, root, translation, -, -, -, -, -, -, rfl⟩ := stored
    exact .kept (.refl _)
  | trap c tf cr2 key e k cur running user entry =>
    have different : t ≠ e := by
      rintro rfl
      exact other running
    cases Kernel.trap_arrives entry different with
    | kept same => exact .kept same
    | made _ made => exact .made made
    | sent value srcva perm k₁ sends => exact .sent ⟨e, value, srcva, perm, k₁, running, sends⟩

theorem Sends.recving (sends : s.Sends t event) (step : Step s event s') :
    (s.kernel.envs t).envIpcRecving = true ∧ (s'.kernel.envs t).envIpcRecving = false ∧
      (s'.kernel.envs t).envTf.regs.rax = 0 := by
  cases step with
  | trap c tf cr2 key e k cur running user entry =>
    obtain ⟨e', value, srcva, perm, k₁, running', sends⟩ := sends
    rw [running] at running'
    cases running'
    obtain ⟨recving, given, -, delivered⟩ := sends.delivered entry
    exact ⟨recving, delivered.envIpcRecving, delivered.rax⟩
  | _ => cases sends

theorem Settled.step {given : BitVec 32} (settled : s.Settled t given)
    (step : Transition.Guarded (fun s event => ¬ s.TrapOf t event) Step s event s') : s'.Settled t given := by
  obtain ⟨other, step⟩ := step
  cases step.arrives other with
  | kept same =>
    exact ⟨same.envIpcRecving.trans settled.envIpcRecving, same.envIpcPerm.trans settled.envIpcPerm,
      same.rax.trans settled.rax⟩
  | made made => exact ⟨made.envIpcRecving, made.envIpcPerm.trans settled.envIpcPerm, made.rax⟩
  | sent sends =>
    have waits := (Sends.recving sends step).1
    rw [settled.envIpcRecving] at waits
    cases waits

/-- From a successful send until the receiver enters the kernel again, env_ipc_perm tells whether a page came
    if and only if one did, or none had come to that slot before. -/
theorem ipc_perm_reports {c : C} {tf : Trapframe} {cr2 : Word} {key : Int} {e : Nat} {value : BitVec 32}
    {srcva : Word} {perm : BitVec 32} {k₁ : Kernel} (running : (s.cpus c).cpuEnv = some e)
    (sends : s.kernel.Sends e tf t value srcva perm k₁) (step : Step s (.trap c tf cr2 key) s')
    (run : Transition.Run (Transition.Guarded (fun s event => s.Guard event ∧ ¬ s.TrapOf t event) Step) s' events s'') :
    (s''.kernel.envs t).Reports (s.kernel.MapsPage e t srcva perm k₁) perm ↔
      s.kernel.Transfers t srcva ∨ (s.kernel.envs t).envIpcPerm = 0 := by
  cases step with
  | trap _ _ _ _ e' k cur running' user entry =>
    rw [running] at running'
    cases running'
    obtain ⟨-, given, maps, delivered⟩ := sends.delivered entry
    have settled : Settled t given (s.leave c k cur) :=
      ⟨delivered.envIpcRecving, delivered.envIpcPerm, delivered.rax⟩
    rw [(run.invariant (fun _ _ _ settled step => settled.step ⟨step.1.2, step.2⟩) settled).reports]
    rcases maps with ⟨maps, rfl, nonzero⟩ | ⟨stays, rfl⟩
    · have both : s.kernel.Transfers t srcva := ⟨maps.1, maps.2.1⟩
      exact iff_of_true ⟨fun _ => rfl, fun unmapped => absurd maps unmapped, iff_of_true nonzero maps⟩ (.inl both)
    · have unmapped : ¬ s.kernel.MapsPage e t srcva perm k₁ := fun maps => stays ⟨maps.1, maps.2.1⟩
      simp [unmapped, stays]

def sendTf (value : Word) (srcva perm : Word) : Trapframe := syscallTf 11 0x1001 value srcva perm 0

def awaitPage : List (Event Bool) :=
  [.start false, .trap false (syscallTf 7 0 0 0 0 0) 0 0, .trap false (syscallTf 8 0x1001 2 0 0 0) 0 0,
    .trap false (syscallTf 10 0 0 0 0 0) 0 0, .trap false (syscallTf 12 utext 0 0 0 0) 0 0,
    .trap false (syscallTf 4 0 utext 7 0 0) 0 0]

def awaitValue : List (Event Bool) :=
  awaitPage ++ [.trap false (sendTf 42 utext 7) 0 0, .trap false (syscallTf 10 0 0 0 0 0) 0 0,
    .trap false (syscallTf 12 utop 0 0 0 0) 0 0]

def sendResult (events : List (Event Bool)) (value srcva perm : Word) :
    Option (System Bool × (Int × Kernel) × System Bool) :=
  (smallRun events).bind fun s =>
    ((s.kernel.setTf 0 (sendTf value srcva perm)).sysIpcTrySend 0 0x1001 (value.setWidth 32) srcva
      (perm.setWidth 32)).toOption.bind fun sent =>
        (s.next (.trap false (sendTf value srcva perm) 0 0)).map fun s' => (s, sent, s')

theorem sendResult_sends {events : List (Event Bool)} {value srcva perm : Word} {s s' : System Bool}
    {sent : Int × Kernel} (done : sendResult events value srcva perm = some (s, sent, s'))
    (alive : (s.kernel.envs 0).envStatus ≠ .dying) (found : s.kernel.envid2env 0 0x1001 false = some 1)
    (success : sent.1 = 0) : ∃ s₀, s₀.Booted ∧ Transition.Run Step s₀ events s ∧
      s.kernel.Sends 0 (sendTf value srcva perm) 1 (value.setWidth 32) srcva (perm.setWidth 32) sent.2 ∧
      Step s (.trap false (sendTf value srcva perm) 0 0) s' := by
  obtain ⟨s₁, ran, rest⟩ := Option.bind_eq_some_iff.mp done
  obtain ⟨result, sends, rest⟩ := Option.bind_eq_some_iff.mp rest
  obtain ⟨s₂, moved, same⟩ := Option.map_eq_some_iff.mp rest
  cases same
  obtain ⟨s₀, booted, run⟩ := smallRun_run ran
  have returned := Fallible.toOption_eq_some.mp sends
  rw [← Prod.mk.eta (p := sent), success] at returned
  exact ⟨s₀, booted, run, ⟨alive, 0x1001, rfl, found, returned⟩, step_of_next moved⟩

theorem ipc_perm_reports_page : ∃ s₀ s s' : System Bool, ∃ k₁, s₀.Booted ∧ Transition.Run Step s₀ awaitPage s ∧
    s.kernel.Sends 0 (sendTf 42 utext 7) 1 42 utext 7 k₁ ∧
    (s'.kernel.envs 1).Reports (s.kernel.MapsPage 0 1 utext 7 k₁) 7 := by
  have result : (sendResult awaitPage 42 utext 7).map (fun seen => ((seen.1.cpus false).cpuEnv,
      (seen.1.kernel.envs 0).envStatus, seen.1.kernel.envid2env 0 0x1001 false, seen.2.1.1,
      (seen.1.kernel.envs 1).envIpcDstva)) =
      some (some 0, .running, some 1, 0, utext) := by
    rw [sendResult, smallRun, smallBoot_eq]
    decide +kernel
  obtain ⟨⟨s, sent, s'⟩, done, shown⟩ := Option.map_eq_some_iff.mp result
  simp only [Prod.mk.injEq] at shown
  obtain ⟨current, status, found, success, dstva⟩ := shown
  obtain ⟨s₀, booted, run, sends, step⟩ := sendResult_sends done (by simp [status]) found success
  refine ⟨s₀, s, s', sent.2, booted, run, sends, (ipc_perm_reports current sends step (.nil _)).mpr (.inl ⟨?_, ?_⟩)⟩
  · decide
  · rw [dstva]
    decide

/-- The message has no page, but the permission is that of the one before. -/
theorem ipc_perm_stale : ∃ s₀ s s' : System Bool, ∃ k₁, s₀.Booted ∧ Transition.Run Step s₀ awaitValue s ∧
    (s.cpus false).cpuEnv = some 0 ∧ s.kernel.Sends 0 (sendTf 43 utop 0) 1 43 utop 0 k₁ ∧
    Step s (.trap false (sendTf 43 utop 0) 0 0) s' ∧ ¬ s.kernel.MapsPage 0 1 utop 0 k₁ ∧
    (ipcRecv (s'.kernel.envs 1).envTf.regs.rax (s'.kernel.envs 1)).perm = 7 := by
  have result : (sendResult awaitValue 43 utop 0).map (fun seen => ((seen.1.cpus false).cpuEnv,
      (seen.1.kernel.envs 0).envStatus, seen.1.kernel.envid2env 0 0x1001 false, seen.2.1.1,
      (ipcRecv (seen.2.2.kernel.envs 1).envTf.regs.rax (seen.2.2.kernel.envs 1)).perm)) =
      some (some 0, .running, some 1, 0, 7) := by
    rw [sendResult, smallRun, smallBoot_eq]
    decide +kernel
  obtain ⟨⟨s, sent, s'⟩, done, shown⟩ := Option.map_eq_some_iff.mp result
  simp only [Prod.mk.injEq] at shown
  obtain ⟨current, status, found, success, perm⟩ := shown
  obtain ⟨s₀, booted, run, sends, step⟩ := sendResult_sends done (by simp [status]) found success
  refine ⟨s₀, s, s', sent.2, booted, run, current, sends, step, ?_, perm⟩
  rintro ⟨below, -⟩
  exact absurd below (by decide)

end System

end Jos
