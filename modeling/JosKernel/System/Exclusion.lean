import JosKernel.Sched.Calls
import JosKernel.System.Machine

namespace Jos

-- Booting

theorem BootConfig.kernel_scheduled (config : BootConfig) (envs : Nat → Env) :
    Scheduled (fun _ => False) (config.kernel envs) none := by
  have initial := Kernel.envInit_table
    { mem := config.pageInit, envs := envs, envFreeList := none, console := [] }
  rw [← BootConfig.kernel] at initial
  obtain ⟨table, free⟩ := initial
  have silent : (config.kernel envs).console = [] := by
    rw [BootConfig.kernel, Kernel.envInit_eq]
  refine ⟨table, ⟨?_, ?_⟩, by simp, by simp⟩
  · intro before cur envid after split
    rw [silent] at split
    simp at split
  · exact fun e small used => absurd (free e small) used

theorem BootOp.step_scheduled {before after : Kernel} {op : BootOp}
    (scheduled : Scheduled (fun _ => False) before none) (step : op.Step before after) :
    Scheduled (fun _ => False) after none := by
  obtain ⟨-, ran⟩ := step
  cases op with
  | map la pa perm =>
    obtain ⟨mem, -, rfl⟩ := Fallible.map_ok.mp ran
    exact (scheduled.setMem mem).scheduled
  | create program =>
    obtain ⟨⟨result, k⟩, allocated, rest⟩ := Fallible.bind_ok.mp ran
    cases result with
    | error code => cases rest
    | ok e =>
      obtain ⟨root, -, rest⟩ := Fallible.bind_ok.mp rest
      obtain ⟨mem, -, rest⟩ := Fallible.bind_ok.mp rest
      cases rest
      have made := (scheduled.envAlloc allocated).1.scheduled
      have loaded := (made.setMem mem).scheduled
      refine (loaded.setEnv (by simp) ?_).scheduled
      exact ⟨rfl, rfl, rfl, rfl, Iff.rfl⟩

namespace System

variable {C : Type}

/-- The invariant of scheduling: an environment that is current on a CPU is marked as running or dying,
    and is current on one CPU only. -/
structure Exclusive (s : System C) : Prop where
  table : EnvTable s.kernel
  log : Incarnations s.kernel
  current : ∀ c e, (s.cpus c).cpuEnv = some e → e < nenv ∧
    ((s.kernel.envs e).envStatus = .running ∨ (s.kernel.envs e).envStatus = .dying)
  unique : ∀ c c' e, (s.cpus c).cpuEnv = some e → (s.cpus c').cpuEnv = some e → c = c'

theorem Booted.exclusive {s : System C} (booted : s.Booted) : s.Exclusive := by
  obtain ⟨config, envs, ops, k, run, rfl⟩ := booted
  have scheduled := run.invariant (fun _ _ _ => BootOp.step_scheduled) (config.kernel_scheduled envs)
  refine ⟨scheduled.table, scheduled.log, ?_, ?_⟩
  · intro c e current
    cases current
  · intro c c' e current
    cases current

theorem Exclusive.scheduled_none {s : System C} (exclusive : s.Exclusive) (c : C) :
    Scheduled (s.Elsewhere c) s.kernel none where
  table := exclusive.table
  log := exclusive.log
  current := by simp
  elsewhere := fun e ⟨other, _, current⟩ => exclusive.current other e current

theorem Exclusive.scheduled {s : System C} (exclusive : s.Exclusive) {c : C} {e : Nat}
    (current : (s.cpus c).cpuEnv = some e) : Scheduled (s.Elsewhere c) s.kernel (some e) where
  table := exclusive.table
  log := exclusive.log
  current := by
    rintro _ ⟨⟩
    obtain ⟨small, status⟩ := exclusive.current c e current
    refine ⟨small, by rcases status with status | status <;> simp [status], ?_⟩
    rintro ⟨other, different, elsewhere⟩
    exact different (exclusive.unique other c e elsewhere current)
  elsewhere := fun other ⟨cpu, _, elsewhere⟩ => exclusive.current cpu other elsewhere

/-- No step overwrites the status of an environment that is current on another CPU, and none destroys an
    environment that is dying. -/
def Respectful (s : System C) : Event C → Prop
  | .trap c tf _ _ => ∀ e call, (s.cpus c).cpuEnv = some e → (s.kernel.envs e).envStatus ≠ .dying →
      tf.call = some call → call.Respects (s.Elsewhere c) (s.kernel.setTf e tf) e
  | _ => True

end System

def Event.cpu {C : Type} : Event C → C
  | .start c | .trap c _ _ _ | .wake c | .store c _ _ => c

theorem Kernel.envid2env_setTf (k : Kernel) (e : Nat) (tf : Trapframe) :
    (k.setTf e tf).envid2env = k.envid2env := by
  funext cur envid checkperm
  have fields : ∀ other, ((k.setTf e tf).envs other).envStatus = (k.envs other).envStatus ∧
      ((k.setTf e tf).envs other).envId = (k.envs other).envId ∧
      ((k.setTf e tf).envs other).envParentId = (k.envs other).envParentId := by
    intro other
    rw [Kernel.setTf, Kernel.setEnv_envs]
    split
    · rename_i here
      rw [here]
      exact ⟨rfl, rfl, rfl⟩
    · exact ⟨rfl, rfl, rfl⟩
  unfold Kernel.envid2env
  simp only [fields]

namespace System

variable {C : Type} [DecidableEq C] {s s' : System C} {event : Event C}

/-- An entry into the kernel leaves the invariant intact if the kernel code does its part. -/
theorem Exclusive.leave (exclusive : s.Exclusive) {c : C} {k : Kernel} {cur : Option Nat}
    (kept : KeepsRunning (s.Elsewhere c) s.kernel k cur) : (s.leave c k cur).Exclusive := by
  have here : ((s.leave c k cur).cpus c).cpuEnv = cur := by simp [System.leave]
  have there : ∀ other, other ≠ c → ((s.leave c k cur).cpus other).cpuEnv = (s.cpus other).cpuEnv := by
    intro other different
    simp [System.leave, different]
  refine ⟨kept.scheduled.table, kept.scheduled.log, ?_, ?_⟩
  · intro other e current
    by_cases same : other = c
    · rw [same, here] at current
      exact ⟨(kept.scheduled.current e current).1, .inl (kept.running e current)⟩
    · rw [there other same] at current
      exact kept.scheduled.elsewhere e ⟨other, same, current⟩
  · intro first second e current current'
    by_cases same : first = c
    · by_cases same' : second = c
      · rw [same, same']
      · rw [same, here] at current
        rw [there second same'] at current'
        exact absurd ⟨second, same', current'⟩ (kept.scheduled.current e current).2.2
    · rw [there first same] at current
      by_cases same' : second = c
      · rw [same', here] at current'
        exact absurd ⟨first, same, current⟩ (kept.scheduled.current e current').2.2
      · rw [there second same'] at current'
        exact exclusive.unique first second e current current'

theorem Exclusive.entry (exclusive : s.Exclusive)
    (step : Transition.Guarded Respectful Step s event s') :
    (∃ k cur, s' = s.leave event.cpu k cur ∧ KeepsRunning (s.Elsewhere event.cpu) s.kernel k cur) ∨
      s'.cpus = s.cpus ∧ ∃ mem, s'.kernel = s.kernel.setMem mem := by
  obtain ⟨respectful, step⟩ := step
  cases step with
  | start c k cur unused yield =>
    exact .inl ⟨k, cur, rfl, (exclusive.scheduled_none c).schedYield yield⟩
  | trap c tf cr2 key e k cur running user entry =>
    exact .inl ⟨k, cur, rfl, (exclusive.scheduled running).trap
      (fun alive call made => respectful e call running alive made) entry⟩
  | wake c k cur halted yield =>
    exact .inl ⟨k, cur, rfl, (exclusive.scheduled_none c).schedYield yield⟩
  | store c va byte after stored =>
    obtain ⟨e, root, translation, -, -, -, -, -, -, rfl⟩ := stored
    exact .inr ⟨rfl, _, rfl⟩

theorem Exclusive.step (exclusive : s.Exclusive)
    (step : Transition.Guarded Respectful Step s event s') : s'.Exclusive := by
  rcases exclusive.entry step with ⟨k, cur, rfl, kept⟩ | ⟨cpus, mem, kernel⟩
  · exact exclusive.leave kept
  · refine ⟨?_, ⟨?_, ?_⟩, ?_, ?_⟩
    · rw [kernel]
      exact exclusive.table.setMem mem
    · rw [kernel]
      exact exclusive.log.freedOnce
    · rw [kernel]
      exact exclusive.log.alive
    · rw [cpus, kernel]
      exact exclusive.current
    · rw [cpus]
      exact exclusive.unique

theorem Booted.run_exclusive {events : List (Event C)} (booted : s.Booted)
    (run : Transition.Run (Transition.Guarded Respectful Step) s events s') : s'.Exclusive :=
  run.invariant (fun _ _ _ exclusive step => exclusive.step step) booted.exclusive

end System

end Jos
