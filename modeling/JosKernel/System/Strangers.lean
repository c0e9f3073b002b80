import JosKernel.System.Delivery

namespace Jos

structure Intact (before after : Env) : Prop where
  fields : ∃ status runs, after = { before with envStatus := status, envRuns := runs }
  status : after.envStatus = before.envStatus ∨ before.envStatus = .runnable ∧ after.envStatus = .running

namespace Intact

variable {a b d : Env}

theorem refl (a : Env) : Intact a a := ⟨⟨a.envStatus, a.envRuns, rfl⟩, .inl rfl⟩

theorem of_eq (same : b = a) : Intact a b := same ▸ refl a

theorem trans (first : Intact a b) (second : Intact b d) : Intact a d := by
  obtain ⟨⟨status, runs, rfl⟩, change⟩ := first
  obtain ⟨⟨status', runs', rfl⟩, change'⟩ := second
  refine ⟨⟨status', runs', rfl⟩, ?_⟩
  rcases change' with same | ⟨runnable, running⟩
  · rw [same]
    exact change
  · rcases change with same' | ⟨-, running'⟩
    · exact .inr ⟨same'.symm.trans runnable, running⟩
    · rw [runnable] at running'
      cases running'

end Intact

variable {k k' k₁ : Kernel} {c e : Nat} {cur cur' : Option Nat} {tf : Trapframe}

def Kernel.Stranger (k : Kernel) (c e : Nat) : Prop := c ≠ e ∧ (k.envs e).envParentId ≠ (k.envs c).envId

theorem Kernel.Stranger.envid2env (stranger : k.Stranger c e) (envid : BitVec 32) :
    k.envid2env c envid true ≠ some e := by
  intro found
  unfold Kernel.envid2env at found
  simp only at found
  split at found
  · exact stranger.1 (Option.some.inj found)
  split at found
  · cases found
  split at found
  · cases found
  · rename_i allowed
    have here := Option.some.inj found
    rw [here] at allowed
    exact allowed ⟨trivial, stranger.1.symm, stranger.2⟩

theorem Kernel.Stranger.setTf (stranger : k.Stranger c e) (tf : Trapframe) : (k.setTf c tf).Stranger c e := by
  refine ⟨stranger.1, ?_⟩
  rw [Kernel.setTf_envId, k.setTf_field c e tf Env.envParentId fun _ => rfl]
  exact stranger.2

theorem Kernel.setEnv_intact (k : Kernel) {other : Nat} (different : e ≠ other) (env : Env) :
    Intact (k.envs e) ((k.setEnv other env).envs e) := .of_eq (k.setEnv_other different env)

theorem Kernel.setTf_intact (k : Kernel) (other : c ≠ e) (tf : Trapframe) :
    Intact (k.envs e) ((k.setTf c tf).envs e) := k.setEnv_intact other.symm _

theorem Kernel.envFree_intact {other : Nat} (different : e ≠ other) (freed : k.envFree cur other = .ok k') :
    Intact (k.envs e) (k'.envs e) := by
  obtain ⟨root, mem, -, -, rfl⟩ := Kernel.envFree_ok freed
  exact ((k.say (.freeEnv (k.curId cur) (k.envs other).envId)).setMem mem).setEnv_intact different _

theorem Exits.intact (exits : Exits k cur k' cur') (choice : cur' = some e → (k.envs e).envStatus = .runnable)
    (other : cur ≠ some e) : Intact (k.envs e) (k'.envs e) := by
  obtain ⟨runs, same⟩ := exits.fields e
  refine ⟨⟨_, runs, same⟩, ?_⟩
  rw [same]
  by_cases chosen : cur' = some e
  · exact .inr ⟨choice chosen, if_pos chosen⟩
  · left
    rw [Kernel.leftStatus_other _ chosen]
    exact Kernel.leftStatus_idle fun here => absurd here other

theorem Yields.intact (yields : Yields k cur k' cur') (other : cur ≠ some e) : Intact (k.envs e) (k'.envs e) :=
  yields.toExits.intact (fun chosen => (yields.choice e chosen).resolve_right fun here => other here.1) other

theorem Returns.intact {call : Syscall} {code : Int} (returns : Returns k c call code k₁) (stranger : k.Stranger c e)
    (table : EnvTable k) (used : (k.envs e).envStatus ≠ .free) (idle : (k.envs e).envIpcRecving = false) :
    Intact (k.envs e) (k₁.envs e) := by
  have named : ∀ {envid other}, k.envid2env c envid true = some other → e ≠ other := by
    rintro envid other found rfl
    exact stranger.envid2env envid found
  cases returns with
  | quiet | refused => exact .refl _
  | create fresh k₁ allocated =>
    rcases Kernel.envAlloc_ok allocated with ⟨code, impossible, -⟩ | ⟨e', p, mem, same, head, -, caller, rfl⟩
    · cases impossible
    cases same
    have other : e ≠ fresh := by
      rintro rfl
      exact used (table.head_free head).2
    have first := (k.setMem mem).setEnv_intact other (Kernel.newEnv (k.envs fresh) fresh p (k.envs c).envId)
    exact Intact.trans first (Kernel.setEnv_intact _ other _)
  | status envid target status found legal => exact k.setEnv_intact (named found) _
  | upcall envid func target found => exact k.setEnv_intact (named found) _
  | mark envid target found => exact k.setEnv_intact (named found) _
  | destroy envid target k₁ found different notRunning freed => exact Kernel.envFree_intact (named found) freed
  | deliver envid value srcva perm target mem given found recving page =>
    have other : e ≠ target := by
      rintro rfl
      rw [idle] at recving
      cases recving
    have first : Intact (k.envs e) (((k.setMem mem).setIpcPerm target given).envs e) :=
      (k.setMem mem).setEnv_intact other _
    exact first.trans (Kernel.setEnv_intact _ other _)

/-- A trap of an environment leaves strangers alone that do not wait for a message. -/
theorem Kernel.trap_intact {cr2 : Word} {key : Int} (done : k.trap c tf cr2 key = .ok (k', cur'))
    (stranger : k.Stranger c e) (table : EnvTable k) (used : (k.envs e).envStatus ≠ .free)
    (idle : (k.envs e).envIpcRecving = false) : Intact (k.envs e) (k'.envs e) := by
  have other : some c ≠ some e := by simpa using stranger.1
  have saved := k.setTf_intact stranger.1 tf
  have touches : Touches (fun other => other = c) k (k.setTf c tf) := .setTf c tf
  have handled := Kernel.trap_handled done
  cases handled with
  | reaped k₁ dying freed yields =>
    exact (Kernel.envFree_intact stranger.1.symm freed).trans (yields.intact (by simp))
  | redirected mem rsp alive fault upcall resumed exits =>
    have first : Intact (k.envs e) ((k.redirected c tf mem rsp).envs e) := (k.setMem mem).setTf_intact stranger.1 _
    exact first.trans (exits.intact (fun here => absurd here other) other)
  | handled k₁ cur alive effect yields =>
    cases effect with
    | answered call code k₁ made returns =>
      have answered := returns.intact (stranger.setTf tf) (table.touches touches) (mt (touches.slot e).free.mp used)
        (by rw [Kernel.setTf_envIpcRecving, idle])
      exact (saved.trans answered).trans ((k₁.setTf_intact stranger.1 _).trans (yields.intact other))
    | blocked dstva made =>
      exact saved.trans ((Kernel.setEnv_intact _ stranger.1.symm _).trans (yields.intact other))
    | yielded | ignored => exact saved.trans (yields.intact other)
    | ended mem k₁ rsp kept timer spurious freed =>
      have again := (k.setTf c tf).setTf_intact stranger.1 { ((k.setTf c tf).envs c).envTf with rsp := rsp }
      have first := Kernel.envFree_intact stranger.1.symm freed
      exact ((saved.trans again).trans first).trans (yields.intact (by simp))

namespace System

variable {C : Type} {s s' : System C} {event : Event C}

def Apart (e : Nat) (s : System C) : Event C → Prop
  | .trap c _ _ _ => ∀ cur, (s.cpus c).cpuEnv = some cur → s.kernel.Stranger cur e
  | _ => True

variable [DecidableEq C]

theorem Step.intact (step : Step s event s') (apart : s.Apart e event) (table : EnvTable s.kernel)
    (used : (s.kernel.envs e).envStatus ≠ .free) (idle : (s.kernel.envs e).envIpcRecving = false) :
    Intact (s.kernel.envs e) (s'.kernel.envs e) := by
  cases step with
  | start c k cur unused yield => exact (schedYield_yields yield).intact (by simp)
  | wake c k cur halted yield => exact (schedYield_yields yield).intact (by simp)
  | store c va byte after stored =>
    obtain ⟨_, root, translation, -, -, -, -, -, -, rfl⟩ := stored
    exact .refl _
  | trap c tf cr2 key cur k cur' running user entry =>
    exact Kernel.trap_intact entry (apart cur running) table used idle

/-- An environment that does not wait for a message is at the mercy of itself and its parent only: whatever all
    others do, it stays in its slot with its registers, its upcall, its address space and its mailbox. -/
theorem strangers_leave_alone {s₀ s s' : System C} {events later : List (Event C)} (booted : s₀.Booted)
    (reached : Transition.Run (Transition.Guarded Guard Step) s₀ events s) (inUse : s.kernel.InUse e)
    (idle : (s.kernel.envs e).envIpcRecving = false)
    (run : Transition.Run (Transition.Guarded (fun s event => s.Guard event ∧ s.Apart e event) Step) s later s') :
    s'.kernel.InUse e ∧ Intact (s.kernel.envs e) (s'.kernel.envs e) := by
  have exclusive : s.Exclusive := booted.guarded_exclusive reached
  have step : ∀ (before : System C) event after,
      before.Exclusive ∧ before.kernel.InUse e ∧ Intact (s.kernel.envs e) (before.kernel.envs e) →
      Transition.Guarded (fun s event => s.Guard event ∧ s.Apart e event) Step before event after →
      after.Exclusive ∧ after.kernel.InUse e ∧ Intact (s.kernel.envs e) (after.kernel.envs e) := by
    intro before event after ⟨exclusive, used, intact⟩ ⟨⟨guard, apart⟩, moved⟩
    have still : (before.kernel.envs e).envIpcRecving = false := by
      obtain ⟨status, runs, same⟩ := intact.fields
      rw [same]
      exact idle
    have here := Step.intact moved apart exclusive.table used.2 still
    refine ⟨exclusive.step ⟨guard.1, moved⟩, ⟨used.1, ?_⟩, intact.trans here⟩
    rcases here.status with same | ⟨-, running⟩
    · rw [same]
      exact used.2
    · simp [running]
  exact (run.invariant step ⟨exclusive, inUse, .refl _⟩).2

instance (k : Kernel) (c e : Nat) : Decidable (k.Stranger c e) := inferInstanceAs (Decidable (_ ∧ _))

instance decidableApart {C : Type} (e : Nat) (s : System C) : (event : Event C) → Decidable (s.Apart e event)
  | .trap c _ _ _ => inferInstanceAs (Decidable (∀ cur ∈ (s.cpus c).cpuEnv, s.kernel.Stranger cur e))
  | .start _ | .wake _ | .store _ _ _ => isTrue trivial

def revolt : List (Event Bool) :=
  [.trap false (syscallTf 3 0x1000 0 0 0 0) 0 0, .trap false (syscallTf 8 0x1000 4 0 0 0) 0 0,
    .trap false (syscallTf 9 0x1000 utext 0 0 0) 0 0]

theorem strangers_leave_parent_alone : ∃ s s' : System Bool, (s.cpus false).cpuEnv = some 1 ∧
    Transition.Run Step s revolt s' ∧ s'.kernel.InUse 0 ∧ Intact (s.kernel.envs 0) (s'.kernel.envs 0) := by
  have result : smallBoot.bind (fun k =>
      (Transition.exec (Transition.nextIf Guard System.next) (idle k) forkAndYield).bind
      fun s => (Transition.exec (Transition.nextIf (fun s event => s.Guard event ∧ s.Apart 0 event) System.next)
        s revolt).map fun _ => ((s.cpus false).cpuEnv, (s.kernel.envs 0).envStatus, (s.kernel.envs 0).envIpcRecving)) =
      some (some 1, .runnable, false) := by
    rw [smallBoot_eq]
    decide +kernel
  obtain ⟨k, booted, rest⟩ := Option.bind_eq_some_iff.mp result
  obtain ⟨s, ran, rest⟩ := Option.bind_eq_some_iff.mp rest
  obtain ⟨s', ran', shown⟩ := Option.map_eq_some_iff.mp rest
  simp only [Prod.mk.injEq] at shown
  obtain ⟨current, status, idle⟩ := shown
  have start : (System.idle k : System Bool).Booted := ⟨smallMachine, _, _, k, smallBoot_run booted, rfl⟩
  have reached : Transition.Run (Transition.Guarded Guard Step) (System.idle k) forkAndYield s :=
    .of_exec (fun _ _ _ => Transition.guarded_of_nextIf fun _ _ _ => step_of_next) ran
  have run : Transition.Run (Transition.Guarded (fun s event => s.Guard event ∧ s.Apart 0 event) Step) s revolt s' :=
    .of_exec (fun _ _ _ => Transition.guarded_of_nextIf fun _ _ _ => step_of_next) ran'
  have kept := strangers_leave_alone start reached ⟨by decide, by simp [status]⟩ idle run
  exact ⟨s, s', current, run.mono fun _ _ _ step => step.2, kept⟩

end System

end Jos
