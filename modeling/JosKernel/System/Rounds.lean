import JosKernel.Sched.Rounds
import JosKernel.System.Single

namespace Jos

variable {k k' : Kernel} {c e : Nat} {cur cur' : Option Nat}

-- Where the only CPU calls sched_yield

/-- The CPU goes on with `c`, which was current, or as `sched_yield` decides. -/
def Decided (c : Nat) (k' : Kernel) (cur' : Option Nat) : Prop :=
  cur' = some c ∨ ∃ k cur, Orderly k cur ∧ (cur = some c ∨ cur = none) ∧ k.schedYield cur = .ok (k', cur')

def Flow.Decided {α : Type} (c : Nat) : Flow α → Prop
  | .returned _ _ => True
  | .left k' cur' => Jos.Decided c k' cur'

theorem Orderly.destroys {flow : Flow Unit} (orderly : Orderly k (some c))
    (done : k.envDestroy (some c) c = .ok flow) : flow.Decided c := by
  unfold Kernel.envDestroy at done
  rw [if_neg (by simp)] at done
  obtain ⟨k₁, freed, rest⟩ := Fallible.bind_ok.mp done
  rw [if_pos rfl] at rest
  obtain ⟨k', cur', yielded, rfl⟩ := leave_ok.mp rest
  have after := orderly.envFree (orderly.current c rfl) freed
  rw [if_pos rfl] at after
  exact .inr ⟨k₁, none, after, .inr rfl, yielded⟩

theorem Orderly.asserts {va len : Word} {perm : BitVec 32} {flow : Flow Unit} (orderly : Orderly k (some c))
    (done : k.userMemAssert c c va len perm = .ok flow) : flow.Decided c := by
  obtain ⟨root, -, rest⟩ := Fallible.bind_ok.mp done
  obtain ⟨⟨code, mem⟩, -, rest⟩ := Fallible.bind_ok.mp rest
  simp only at rest
  split at rest
  · exact (orderly.setMem mem).destroys rest
  · cases rest
    exact trivial

theorem Orderly.yields {α : Type} {flow : Flow α} (orderly : Orderly k (some c))
    (left : Kernel.leave (k.schedYield (some c)) = .ok flow) : flow.Decided c := by
  obtain ⟨k', cur', yielded, rfl⟩ := leave_ok.mp left
  exact .inr ⟨k, some c, orderly, .inl rfl, yielded⟩

theorem Orderly.destroyCall {envid : BitVec 32} {flow : Flow Int} (orderly : Orderly k (some c))
    (done : k.sysEnvDestroy c envid = .ok flow) : flow.Decided c := by
  unfold Kernel.sysEnvDestroy at done
  split at done
  · cases done
    exact trivial
  · rename_i e found
    obtain ⟨inner, destroyed, rfl⟩ := Fallible.map_ok.mp done
    by_cases here : e = c
    · subst here
      have decided := orderly.destroys destroyed
      cases inner with
      | returned => exact trivial
      | left => exact decided
    · unfold Kernel.envDestroy at destroyed
      split at destroyed
      · cases destroyed
        exact trivial
      · obtain ⟨k₁, freed, rest⟩ := Fallible.bind_ok.mp destroyed
        rw [if_neg (by simpa using Ne.symm here)] at rest
        cases rest
        exact trivial

theorem Orderly.calls {key : Int} {call : Syscall} {flow : Flow Int} (orderly : Orderly k (some c))
    (done : k.syscall c key call = .ok flow) : flow.Decided c := by
  have returns : ∀ {result : Except Stop (Int × Kernel)}, Kernel.finish result = .ok flow → flow.Decided c := by
    intro result finished
    obtain ⟨code, k', -, rfl⟩ := Kernel.finish_ok.mp finished
    exact trivial
  cases call with
  | cputs s len =>
    obtain ⟨inner, asserted, rfl⟩ := Fallible.map_ok.mp done
    have decided := orderly.asserts asserted
    cases inner with
    | returned => exact trivial
    | left => exact decided
  | cgetc | getenvid | unknown =>
    cases done
    exact trivial
  | envDestroy envid => exact orderly.destroyCall done
  | pageAlloc | pageMap | pageUnmap | exofork | envSetStatus | envSetPgfaultUpcall | ipcTrySend => exact returns done
  | yield => exact orderly.yields done
  | ipcRecv dstva =>
    change k.sysIpcRecv c dstva = .ok flow at done
    unfold Kernel.sysIpcRecv at done
    split at done
    · cases done
      exact trivial
    · have blocked : Orderly (k.setEnv c { k.envs c with
          envIpcRecving := true, envStatus := .notRunnable, envIpcDstva := dstva }) (some c) :=
        orderly.setEnv ⟨rfl, rfl, rfl, rfl, iff_of_false (by simp) (orderly.current c rfl).2⟩ (by simp)
      exact blocked.yields done

theorem Orderly.faults {faultVa : Word} {flow : Flow Unit} (orderly : Orderly k (some c))
    (done : k.pageFaultHandler c faultVa = .ok flow) : flow.Decided c := by
  unfold Kernel.pageFaultHandler at done
  split at done
  · exact orderly.destroys done
  · obtain ⟨inner, asserted, rest⟩ := Fallible.bind_ok.mp done
    have decided := (orderly.setTf c _).asserts asserted
    cases inner with
    | left =>
      cases rest
      exact decided
    | returned =>
      obtain ⟨root, -, rest⟩ := Fallible.bind_ok.mp rest
      obtain ⟨mem, -, rest⟩ := Fallible.bind_ok.mp rest
      obtain ⟨k', cur', ran, rfl⟩ := leave_ok.mp rest
      unfold Kernel.envRun at ran
      simp only at ran
      split at ran
      · cases ran
      cases ran
      exact .inl rfl

theorem Orderly.returned {tf : Trapframe} {key : Int} {call : Syscall} {code : Int} (orderly : Orderly k (some c))
    (made : tf.call = some call) (done : k.syscall c key call = .ok (.returned code k')) : Orderly k' (some c) := by
  have number : tf.trapno = tSyscall := by
    unfold Trapframe.call at made
    split at made
    · assumption
    · cases made
  have timer : tf.trapno ≠ irqOffset + irqTimer := by
    rw [number]
    decide
  have spurious : tf.trapno ≠ irqOffset + irqSpurious := by
    rw [number]
    decide
  cases syscall_ends made timer spurious done with
  | returned code k₁ returns => exact orderly.returns returns

theorem Orderly.resumes (orderly : Orderly k (some c))
    (done : (if (k.envs c).envStatus = .running then k.envRun (some c) c else k.schedYield (some c)) = .ok (k', cur')) :
    Decided c k' cur' := by
  split at done
  · obtain ⟨rfl, -⟩ := envRun_exits (.inr rfl) done
    exact .inl rfl
  · exact .inr ⟨k, some c, orderly, .inl rfl, done⟩

/-- A trap ends with the environment that it interrupts, or as `sched_yield` decides. -/
theorem Orderly.decided {tf : Trapframe} {cr2 : Word} {key : Int} (orderly : Orderly k (some c))
    (done : k.trap c tf cr2 key = .ok (k', cur')) : Decided c k' cur' := by
  have saved := orderly.setTf c tf
  have frame : ((k.setTf c tf).envs c).envTf = tf := by
    rw [Kernel.setTf, Kernel.setEnv_envs, if_pos rfl]
  unfold Kernel.trap at done
  rw [if_neg (orderly.alive c (orderly.current c rfl).1)] at done
  obtain ⟨inner, dispatched, rest⟩ := Fallible.bind_ok.mp done
  have left : inner.Decided c → (∀ k₁, inner = .returned () k₁ → Orderly k₁ (some c)) → Decided c k' cur' := by
    intro decided returned
    cases inner with
    | returned value k₁ => exact (returned k₁ rfl).resumes rest
    | left k₁ cur₁ =>
      cases rest
      exact decided
  unfold Kernel.trapDispatch at dispatched
  simp only [frame] at dispatched
  split at dispatched
  · refine left (saved.faults dispatched) ?_
    rintro k₁ rfl
    obtain ⟨_, _, impossible, -⟩ := pageFaultHandler_handled (orderly.alive c (orderly.current c rfl).1)
      (by assumption) dispatched
    cases impossible
  split at dispatched
  · rename_i number
    have made : tf.call = some (.decode tf.regs.rax tf.regs.rdx tf.regs.rcx tf.regs.rbx tf.regs.rdi tf.regs.rsi) :=
      if_pos number
    obtain ⟨flow, called, rfl⟩ := Fallible.map_ok.mp dispatched
    cases flow with
    | returned code k₁ =>
      refine left trivial ?_
      rintro _ ⟨⟩
      exact (saved.returned made called).setTf c _
    | left k₁ cur₁ => exact left (saved.calls called) (by simp)
  split at dispatched
  · cases dispatched
    refine left trivial ?_
    rintro _ ⟨⟩
    exact saved
  split at dispatched
  · refine left (saved.yields dispatched) ?_
    rintro k₁ rfl
    obtain ⟨_, _, -, impossible⟩ := leave_ok.mp dispatched
    cases impossible
  · refine left (saved.destroys dispatched) ?_
    rintro k₁ rfl
    unfold Kernel.envDestroy at dispatched
    rw [if_neg (by simp)] at dispatched
    obtain ⟨_, -, rest⟩ := Fallible.bind_ok.mp dispatched
    rw [if_pos rfl] at rest
    obtain ⟨_, _, -, impossible⟩ := leave_ok.mp rest
    cases impossible

namespace System

def turns (s : System Unit) (chosen : List Nat) : Turns := ⟨s.kernel, (s.cpus ()).cpuEnv, chosen⟩

variable {s s' : System Unit} {event : Event Unit}

theorem Orderly.seated (orderly : s.Orderly) : s.kernel.Seated (s.cpus ()).cpuEnv :=
  ⟨fun e inUse => orderly.table.table.ids e inUse.1 inUse.2, orderly.table.current⟩

theorem Orderly.waiting (orderly : s.Orderly) (waits : s.kernel.runnable e) : (s.cpus ()).cpuEnv ≠ some e := by
  intro current
  have status : (s.kernel.envs e).envStatus = .runnable := of_decide_eq_true waits
  rw [orderly.current e current] at status
  cases status

/-- Every step of the machine is what its scheduler sees of it, with at most one decision. -/
theorem Step.turns (step : Step s event s') (orderly : s.Orderly) (waits : s.kernel.runnable e)
    (waits' : s'.kernel.runnable e) (chosen : List Nat) :
    ∃ moves chosen', Transition.Run (Turns.Passes e) (s.turns chosen) moves (s'.turns chosen') ∧
      ((s'.cpus ()).cpuEnv = (s.cpus ()).cpuEnv ∧ chosen' = chosen ∨
        chosen' = (s'.cpus ()).cpuEnv.toList ++ chosen) := by
  have seated' := (orderly.step step).seated
  have yields : ∀ {k : Kernel} {cur : Option Nat}, (s.cpus ()).cpuEnv = none →
      s.kernel.schedYield none = .ok (k, cur) → k.runnable e → ∃ moves chosen',
        Transition.Run (Turns.Passes e) (s.turns chosen) moves ((s.leave () k cur).turns chosen') ∧
          (cur = (s.cpus ()).cpuEnv ∧ chosen' = chosen ∨ chosen' = cur.toList ++ chosen) := by
    intro k cur idle yield waits'
    refine ⟨[.decide], cur.toList ++ chosen, .cons ⟨waits, .decide k cur ?_, waits'⟩ (.nil _), .inr rfl⟩
    change s.kernel.schedYield (s.cpus ()).cpuEnv = _
    rw [idle, yield]
  cases step with
  | start c k cur unused yield => exact yields (orderly.idle (by simp [unused])) yield waits'
  | wake c k cur halted yield => exact yields (orderly.idle (by simp [halted])) yield waits'
  | store c va byte after stored =>
    obtain ⟨_, _, _, -, -, -, -, -, -, rfl⟩ := stored
    exact ⟨[.act], chosen, .cons ⟨waits, .act _ _ seated' (.inl rfl), waits'⟩ (.nil _), .inl ⟨rfl, rfl⟩⟩
  | trap u tf cr2 key c k' cur' running user entry =>
    have table := orderly.table
    rw [running] at table
    rcases table.decided entry with rfl | ⟨k₁, cur₁, before, from_, yield⟩
    · refine ⟨[.act], chosen, .cons ⟨waits, .act _ _ seated' (.inl ?_), waits'⟩ (.nil _), .inl ⟨?_, rfl⟩⟩
      · exact running.symm
      · exact running.symm
    · have yields := schedYield_yields yield
      have unchosen : cur' ≠ some e := (orderly.step (.trap u tf cr2 key c k' cur' running user entry)).waiting waits'
      have waits₁ : k₁.runnable e := by
        obtain ⟨runs, same⟩ := yields.fields e
        have status : (k'.envs e).envStatus = .runnable := of_decide_eq_true waits'
        have elsewhere : cur₁ ≠ some e := by
          rintro rfl
          rcases from_ with here | none
          · exact orderly.waiting waits (running.trans here.symm)
          · cases none
        rw [same, Kernel.leftStatus_other k₁ unchosen, Kernel.leftStatus_idle fun here => absurd here elsewhere] at status
        exact decide_eq_true status
      have act : Turns.Step (s.turns chosen) .act ⟨k₁, cur₁, chosen⟩ := by
        refine .act k₁ cur₁ ⟨fun e inUse => before.table.ids e inUse.1 inUse.2, before.current⟩ ?_
        exact from_.imp (fun here => here.trans running.symm) id
      exact ⟨[.act, .decide], cur'.toList ++ chosen,
        .cons ⟨waits, act, waits₁⟩ (.cons ⟨waits₁, .decide k' cur' yield, waits'⟩ (.nil _)), .inr rfl⟩

theorem Orderly.turns_run {events : List (Event Unit)} (orderly : s.Orderly)
    (run : Transition.Run (fun before event after =>
      before.kernel.runnable e ∧ Step before event after ∧ after.kernel.runnable e) s events s') (chosen : List Nat) :
    ∃ moves chosen', Transition.Run (Turns.Passes e) (s.turns chosen) moves (s'.turns chosen') := by
  induction run generalizing chosen with
  | nil => exact ⟨[], chosen, .nil _⟩
  | cons head _ ih =>
    obtain ⟨moves, middle, first, -⟩ := head.2.1.turns orderly head.1 head.2.2 chosen
    obtain ⟨moves', chosen', rest⟩ := ih (orderly.step head.2.1) middle
    exact ⟨moves ++ moves', chosen', first.append rest⟩

end System

/-- While an environment can run and is not chosen, the scheduler chooses no slot twice. -/
theorem Turns.round_robin {s : Turns} {moves : List Turn} (inside : e < nenv) (seated : k.Seated cur)
    (run : Transition.Run (Transition.Guarded Turns.Resumes (Turns.Passes e)) ⟨k, cur, []⟩ moves s) :
    s.chosen.Nodup := by
  have closing : s.Closing e :=
    run.invariant (fun _ _ _ closing step => closing.step inside step) ⟨seated, by simp, .nil, by simp⟩
  exact closing.nodup

def threeChildren : List (Event Unit) :=
  [.start (), .trap () (syscallTf 7 0 0 0 0 0) 0 0, .trap () (syscallTf 7 0 0 0 0 0) 0 0,
    .trap () (syscallTf 7 0 0 0 0 0) 0 0, .trap () (syscallTf 8 0x1001 2 0 0 0) 0 0,
    .trap () (syscallTf 8 0x1002 2 0 0 0) 0 0, .trap () (syscallTf 8 0x1003 2 0 0 0) 0 0]

theorem Turns.round_robin_children : ∃ (s : System Unit) (k k' : Kernel),
    Transition.Run (Turns.Passes 3) (s.turns []) [.decide, .decide] ⟨k', some 2, [2, 1]⟩ ∧
    s.kernel.schedYield (some 0) = .ok (k, some 1) ∧ k.schedYield (some 1) = .ok (k', some 2) ∧ [2, 1].Nodup := by
  have result : ((smallRun threeChildren).bind fun s : System Unit =>
      (s.kernel.schedYield (s.cpus ()).cpuEnv).toOption.bind fun left =>
        (left.1.schedYield left.2).toOption.map fun left' =>
          ((s.cpus ()).cpuEnv, left.2, left'.2, s.kernel.runnable 3, left.1.runnable 3, left'.1.runnable 3)) =
      some (some 0, some 1, some 2, true, true, true) := by
    rw [smallRun, smallBoot_eq]
    decide +kernel
  obtain ⟨s, done, rest⟩ := Option.bind_eq_some_iff.mp result
  obtain ⟨⟨k, cur⟩, first, rest⟩ := Option.bind_eq_some_iff.mp rest
  obtain ⟨⟨k', cur'⟩, second, shown⟩ := Option.map_eq_some_iff.mp rest
  simp only [Prod.mk.injEq] at shown
  obtain ⟨current, rfl, rfl, waits, waits₁, waits₂⟩ := shown
  have first := Fallible.toOption_eq_some.mp first
  have second := Fallible.toOption_eq_some.mp second
  obtain ⟨s₀, booted, run⟩ := smallRun_run done
  have step₁ : Turns.Passes 3 (s.turns []) .decide ⟨k, some 1, [1]⟩ := ⟨waits, .decide k (some 1) first, waits₁⟩
  have step₂ : Turns.Passes 3 ⟨k, some 1, [1]⟩ .decide ⟨k', some 2, [2, 1]⟩ :=
    ⟨waits₁, .decide k' (some 2) second, waits₂⟩
  have resumes₁ : (s.turns []).Resumes .decide := by
    rintro - last ⟨⟩
  have resumes₂ : (Turns.mk k (some 1) [1]).Resumes .decide := by
    rintro ⟨⟩
  refine ⟨s, k, k', .cons step₁ (.cons step₂ (.nil _)), current ▸ first, second, ?_⟩
  exact Turns.round_robin (by decide) (booted.loaded.orderly.run run).seated
    (.cons ⟨resumes₁, step₁⟩ (.cons ⟨resumes₂, step₂⟩ (.nil _)))

/-- The first environment yields, so does the second, and the third exits: the second one runs again,
    though the fourth has not. -/
theorem Turns.round_robin_restarts : ∃ (s₀ s₁ s₂ s₃ s₄ : System Unit) (moves : List Turn),
    s₀.Booted ∧ Transition.Run System.Step s₀ threeChildren s₁ ∧
    System.Step s₁ (.trap () (syscallTf 10 0 0 0 0 0) 0 0) s₂ ∧ (s₂.cpus ()).cpuEnv = some 1 ∧
    System.Step s₂ (.trap () (syscallTf 10 0 0 0 0 0) 0 0) s₃ ∧ (s₃.cpus ()).cpuEnv = some 2 ∧
    System.Step s₃ (.trap () (syscallTf 3 0 0 0 0 0) 0 0) s₄ ∧ (s₄.cpus ()).cpuEnv = some 1 ∧
    Transition.Run (Turns.Passes 3) (s₁.turns []) moves (s₄.turns [1, 2, 1]) ∧ ¬ [1, 2, 1].Nodup := by
  have result : ((smallRun threeChildren).bind fun s₁ : System Unit =>
      (s₁.next (.trap () (syscallTf 10 0 0 0 0 0) 0 0)).bind fun s₂ =>
        (s₂.next (.trap () (syscallTf 10 0 0 0 0 0) 0 0)).bind fun s₃ =>
          (s₃.next (.trap () (syscallTf 3 0 0 0 0 0) 0 0)).map fun s₄ =>
            ([s₁, s₂, s₃, s₄].map fun s => ((s.cpus ()).cpuEnv, s.kernel.runnable 3))) =
      some [(some 0, true), (some 1, true), (some 2, true), (some 1, true)] := by
    rw [smallRun, smallBoot_eq]
    decide +kernel
  obtain ⟨s₁, done, rest⟩ := Option.bind_eq_some_iff.mp result
  obtain ⟨s₂, second, rest⟩ := Option.bind_eq_some_iff.mp rest
  obtain ⟨s₃, third, rest⟩ := Option.bind_eq_some_iff.mp rest
  obtain ⟨s₄, fourth, shown⟩ := Option.map_eq_some_iff.mp rest
  simp only [List.map_cons, List.map_nil, List.cons.injEq, Prod.mk.injEq, and_true] at shown
  obtain ⟨⟨cur₁, waits₁⟩, ⟨cur₂, waits₂⟩, ⟨cur₃, waits₃⟩, cur₄, waits₄⟩ := shown
  obtain ⟨s₀, booted, run⟩ := smallRun_run done
  have orderly₁ := booted.loaded.orderly.run run
  have second := System.step_of_next second
  have third := System.step_of_next third
  have fourth := System.step_of_next fourth
  have orderly₂ := orderly₁.step second
  obtain ⟨moves₂, chosen₂, run₂, ⟨same, -⟩ | rfl⟩ := second.turns orderly₁ waits₁ waits₂ []
  · rw [cur₁, cur₂] at same
    cases same
  obtain ⟨moves₃, chosen₃, run₃, ⟨same, -⟩ | rfl⟩ := third.turns orderly₂ waits₂ waits₃ [1]
  · rw [cur₂, cur₃] at same
    cases same
  obtain ⟨moves₄, chosen₄, run₄, ⟨same, -⟩ | rfl⟩ := fourth.turns (orderly₂.step third) waits₃ waits₄ [2, 1]
  · rw [cur₃, cur₄] at same
    cases same
  rw [cur₂] at run₂
  rw [cur₃] at run₃
  rw [cur₄] at run₄
  exact ⟨s₀, s₁, s₂, s₃, s₄, _, booted, run, second, cur₂, third, cur₃, fourth, cur₄,
    run₂.append (run₃.append run₄), by decide⟩

end Jos
