import JosKernel.Sched.Exclusive

namespace Jos

/-- The system call does not overwrite the status of an environment that is current on another CPU, and
    does not destroy one that is dying. -/
def Syscall.Respects (others : Nat → Prop) (k : Kernel) (cur : Nat) : Syscall → Prop
  | .envSetStatus envid status => ∀ e, k.envid2env cur envid true = some e →
      (k.sysEnvSetStatus cur envid status).1 = 0 → ¬ others e
  | .envDestroy envid => ∀ e, k.envid2env cur envid true = some e → (k.envs e).envStatus ≠ .dying
  | .ipcTrySend envid value srcva perm => ∀ e, k.envid2env cur envid false = some e →
      (k.sysIpcTrySend cur envid value srcva perm).toOption.map Prod.fst = some 0 → ¬ others e
  | _ => True

instance decidableRespects (others : Nat → Prop) [DecidablePred others] (k : Kernel) (cur : Nat) :
    (call : Syscall) → Decidable (call.Respects others k cur)
  | .envSetStatus envid status => inferInstanceAs (Decidable (∀ e ∈ k.envid2env cur envid true,
      (k.sysEnvSetStatus cur envid status).1 = 0 → ¬ others e))
  | .envDestroy envid => inferInstanceAs (Decidable (∀ e ∈ k.envid2env cur envid true, (k.envs e).envStatus ≠ .dying))
  | .ipcTrySend envid value srcva perm => inferInstanceAs (Decidable (∀ e ∈ k.envid2env cur envid false,
      (k.sysIpcTrySend cur envid value srcva perm).toOption.map Prod.fst = some 0 → ¬ others e))
  | .cputs _ _ | .cgetc | .getenvid | .pageAlloc _ _ _ | .pageMap _ _ _ _ _ | .pageUnmap _ _ | .exofork |
    .envSetPgfaultUpcall _ _ | .yield | .ipcRecv _ | .unknown => isTrue trivial

namespace Scheduled

variable {others : Nat → Prop} {k k' : Kernel} {c : Nat} {cur' : Option Nat}

theorem used_of_envid2env (scheduled : Scheduled others k (some c)) {envid : BitVec 32} {checkperm : Bool}
    {e : Nat} (found : k.envid2env c envid checkperm = some e) :
    e < nenv ∧ (k.envs e).envStatus ≠ .free := by
  rcases Kernel.envid2env_used found with rfl | ⟨small, used, -⟩
  · obtain ⟨small, used, -⟩ := scheduled.current e rfl
    exact ⟨small, used⟩
  · exact ⟨small, used⟩

theorem userMemAssert {va len : Word} {perm : BitVec 32} {flow : Flow Unit}
    (scheduled : Scheduled others k (some c)) (done : k.userMemAssert c c va len perm = .ok flow) :
    flow.Keeps others k c := by
  obtain ⟨root, -, rest⟩ := Fallible.bind_ok.mp done
  obtain ⟨⟨code, mem⟩, -, rest⟩ := Fallible.bind_ok.mp rest
  have kept := scheduled.setMem mem
  obtain ⟨small, used, -⟩ := scheduled.current c rfl
  simp only at rest
  split at rest
  · exact kept.andFlow (kept.scheduled.envDestroy small used (.inr rfl) rest)
  · cases rest
    exact kept

theorem keeps_of_map {α β : Type} {flow : Flow α} {flow' : Flow β} (kept : flow.Keeps others k c)
    (returned : ∀ value k', flow = .returned value k' → ∃ value', flow' = .returned value' k')
    (left : ∀ k' cur', flow = .left k' cur' → flow' = .left k' cur') : flow'.Keeps others k c := by
  cases flow with
  | returned value k' =>
    obtain ⟨value', rfl⟩ := returned value k' rfl
    exact kept
  | left k' cur' =>
    rw [left k' cur' rfl]
    exact kept

theorem sysEnvDestroy {envid : BitVec 32} {flow : Flow Int} (scheduled : Scheduled others k (some c))
    (alive : ∀ e, k.envid2env c envid true = some e → (k.envs e).envStatus ≠ .dying)
    (done : k.sysEnvDestroy c envid = .ok flow) : flow.Keeps others k c := by
  unfold Kernel.sysEnvDestroy at done
  split at done
  · cases done
    exact scheduled.refl
  · rename_i e found
    obtain ⟨inner, destroyed, rfl⟩ := Fallible.map_ok.mp done
    obtain ⟨small, used⟩ := scheduled.used_of_envid2env found
    refine keeps_of_map (scheduled.envDestroy small used (.inl (alive e found)) destroyed) ?_ ?_
    · rintro _ k' rfl
      exact ⟨0, rfl⟩
    · rintro k' cur' rfl
      rfl

theorem sysExofork {code : Int} (scheduled : Scheduled others k (some c))
    (done : k.sysExofork c = .ok (code, k')) : Keeps others k k' (some c) := by
  obtain ⟨⟨result, k₁⟩, allocated, rest⟩ := Fallible.bind_ok.mp done
  obtain ⟨kept, fresh⟩ := scheduled.envAlloc allocated
  cases result with
  | error code =>
    cases rest
    exact kept
  | ok e =>
    cases rest
    obtain ⟨here, runnable⟩ := fresh e rfl
    exact kept.andThen (kept.scheduled.setEnv here ⟨rfl, rfl, rfl, rfl, by simp [runnable]⟩)

theorem sysEnvSetStatus {envid status : BitVec 32} (scheduled : Scheduled others k (some c))
    (apart : ∀ e, k.envid2env c envid true = some e → (k.sysEnvSetStatus c envid status).1 = 0 → ¬ others e) :
    Keeps others k (k.sysEnvSetStatus c envid status).2 (some c) := by
  unfold Kernel.sysEnvSetStatus at apart ⊢
  split
  · exact scheduled.refl
  · rename_i e found
    have used := (scheduled.used_of_envid2env found).2
    have apart := apart e found
    simp only [found] at apart
    split
    · rename_i runnable
      exact scheduled.setEnv (apart (by rw [if_pos runnable])) ⟨rfl, rfl, rfl, rfl, by simp [used]⟩
    · rename_i other
      split
      · rename_i notRunnable
        exact scheduled.setEnv (apart (by rw [if_neg other, if_pos notRunnable])) ⟨rfl, rfl, rfl, rfl, by simp [used]⟩
      · exact scheduled.refl

theorem sysEnvSetPgfaultUpcall {envid : BitVec 32} {func : Word} (scheduled : Scheduled others k (some c)) :
    Keeps others k (k.sysEnvSetPgfaultUpcall c envid func).2 (some c) := by
  unfold Kernel.sysEnvSetPgfaultUpcall
  split
  · exact scheduled.refl
  · rename_i e found
    -- the upcall of an environment that runs elsewhere may be set: nothing else of it changes
    refine keeps_of_console ⟨scheduled.table.touches (.setEnv ⟨rfl, rfl, rfl, rfl, Iff.rfl⟩),
      ⟨scheduled.log.freedOnce, ?_⟩, ?_, ?_⟩ rfl
    all_goals
      intro other
      rw [Kernel.setEnv_envs]
      split
    · rename_i same
      rw [same]
      exact scheduled.log.alive e
    · exact scheduled.log.alive other
    · rename_i same
      rw [same]
      exact scheduled.current e
    · exact scheduled.current other
    · rename_i same
      rw [same]
      exact scheduled.elsewhere e
    · exact scheduled.elsewhere other

theorem sysIpcTrySend {envid value : BitVec 32} {srcva : Word} {perm : BitVec 32} {code : Int}
    (scheduled : Scheduled others k (some c))
    (apart : ∀ e, k.envid2env c envid false = some e →
      (k.sysIpcTrySend c envid value srcva perm).toOption.map Prod.fst = some 0 → ¬ others e)
    (done : k.sysIpcTrySend c envid value srcva perm = .ok (code, k')) : Keeps others k k' (some c) := by
  rcases Kernel.sysIpcTrySend_cases done with ⟨-, mem, rfl⟩ | ⟨success, target, mem, given, found, -, rfl⟩
  · exact scheduled.setMem mem
  · have here := apart target found (by rw [done, success]; rfl)
    have used := (scheduled.used_of_envid2env found).2
    have kept := scheduled.setMem mem
    have marked : Keeps others (k.setMem mem) ((k.setMem mem).setIpcPerm target given) (some c) :=
      kept.scheduled.setEnv here ⟨rfl, rfl, rfl, rfl, Iff.rfl⟩
    refine kept.andThen (marked.andThen (marked.scheduled.setEnv here ⟨rfl, rfl, rfl, rfl, ?_⟩))
    refine iff_of_false (by simp) ?_
    rw [Kernel.setIpcPerm, Kernel.setEnv_envs, if_pos rfl]
    exact used

theorem sysIpcRecv {dstva : Word} {flow : Flow Int} (scheduled : Scheduled others k (some c))
    (done : k.sysIpcRecv c dstva = .ok flow) : flow.Keeps others k c := by
  unfold Kernel.sysIpcRecv at done
  split at done
  · cases done
    exact scheduled.refl
  · have used := (scheduled.current c rfl).2.1
    have kept : Keeps others k (k.setEnv c { k.envs c with
        envIpcRecving := true, envStatus := .notRunnable, envIpcDstva := dstva }) (some c) :=
      scheduled.setCurrent ⟨rfl, rfl, rfl, rfl, by simp [used]⟩
    exact kept.andFlow (kept.scheduled.leave done)

theorem finish {result : Except Stop (Int × Kernel)} {flow : Flow Int}
    (kept : ∀ code k', result = .ok (code, k') → Keeps others k k' (some c))
    (done : Kernel.finish result = .ok flow) : flow.Keeps others k c := by
  obtain ⟨code, k', returned, rfl⟩ := Kernel.finish_ok.mp done
  exact kept code k' returned

theorem syscall {key : Int} {call : Syscall} {flow : Flow Int} (scheduled : Scheduled others k (some c))
    (respects : call.Respects others k c) (done : k.syscall c key call = .ok flow) : flow.Keeps others k c := by
  cases call with
  | cputs s len =>
    obtain ⟨inner, asserted, rfl⟩ := Fallible.map_ok.mp done
    refine keeps_of_map (scheduled.userMemAssert asserted) ?_ ?_
    · rintro _ k' rfl
      exact ⟨0, rfl⟩
    · rintro k' cur' rfl
      rfl
  | cgetc | getenvid | unknown =>
    cases done
    exact scheduled.refl
  | envDestroy envid => exact scheduled.sysEnvDestroy respects done
  | pageAlloc envid va perm =>
    refine finish ?_ done
    intro code k' returned
    obtain ⟨mem, rfl⟩ := Kernel.sysPageAlloc_setMem returned
    exact scheduled.setMem mem
  | pageMap srcenvid srcva dstenvid dstva perm =>
    refine finish ?_ done
    intro code k' returned
    obtain ⟨mem, rfl⟩ := Kernel.sysPageMap_setMem returned
    exact scheduled.setMem mem
  | pageUnmap envid va =>
    refine finish ?_ done
    intro code k' returned
    obtain ⟨mem, rfl⟩ := Kernel.sysPageUnmap_setMem returned
    exact scheduled.setMem mem
  | exofork => exact finish (fun _ _ returned => scheduled.sysExofork returned) done
  | envSetStatus envid status =>
    refine finish ?_ done
    intro code k' returned
    have after : (k.sysEnvSetStatus c envid status).2 = k' := congrArg Prod.snd (Except.ok.inj returned)
    exact after ▸ scheduled.sysEnvSetStatus respects
  | envSetPgfaultUpcall envid func =>
    refine finish ?_ done
    intro code k' returned
    have after : (k.sysEnvSetPgfaultUpcall c envid func).2 = k' := congrArg Prod.snd (Except.ok.inj returned)
    exact after ▸ scheduled.sysEnvSetPgfaultUpcall
  | yield => exact scheduled.leave done
  | ipcTrySend envid value srcva perm =>
    exact finish (fun _ _ returned => scheduled.sysIpcTrySend respects returned) done
  | ipcRecv dstva => exact scheduled.sysIpcRecv done

-- Traps

theorem setTf (scheduled : Scheduled others k (some c)) (tf : Trapframe) :
    Keeps others k (k.setTf c tf) (some c) :=
  scheduled.setCurrent ⟨rfl, rfl, rfl, rfl, Iff.rfl⟩

theorem pageFaultHandler {faultVa : Word} {flow : Flow Unit} (scheduled : Scheduled others k (some c))
    (done : k.pageFaultHandler c faultVa = .ok flow) : flow.Keeps others k c := by
  obtain ⟨small, used, -⟩ := scheduled.current c rfl
  unfold Kernel.pageFaultHandler at done
  split at done
  · exact scheduled.envDestroy small used (.inr rfl) done
  · obtain ⟨inner, asserted, rest⟩ := Fallible.bind_ok.mp done
    have saved := scheduled.setTf { (k.envs c).envTf with rsp := exceptionTop (k.envs c).envTf.rsp }
    have kept := saved.andFlow (saved.scheduled.userMemAssert asserted)
    cases inner with
    | left k₁ cur₁ =>
      cases rest
      exact kept
    | returned value k₁ =>
      obtain ⟨root, -, rest⟩ := Fallible.bind_ok.mp rest
      obtain ⟨mem, -, rest⟩ := Fallible.bind_ok.mp rest
      obtain ⟨k', cur', ran, rfl⟩ := leave_ok.mp rest
      have stored := kept.andThen (kept.scheduled.setMem mem)
      exact stored.andRun ((stored.scheduled.setTf _).andRun ((stored.scheduled.setTf _).scheduled.envRun ran))

theorem trapDispatch {cr2 : Word} {key : Int} {flow : Flow Unit} (scheduled : Scheduled others k (some c))
    (respects : ∀ call, (k.envs c).envTf.call = some call → call.Respects others k c)
    (done : k.trapDispatch c cr2 key = .ok flow) : flow.Keeps others k c := by
  obtain ⟨small, used, -⟩ := scheduled.current c rfl
  unfold Kernel.trapDispatch at done
  simp only at done
  split at done
  · exact scheduled.pageFaultHandler done
  split at done
  · rename_i isCall
    obtain ⟨inner, called, rfl⟩ := Fallible.map_ok.mp done
    have kept := scheduled.syscall (respects _ (if_pos isCall)) called
    cases inner with
    | returned value k' => exact kept.andThen (kept.scheduled.setTf _)
    | left k' cur' => exact kept
  split at done
  · cases done
    exact scheduled.refl
  split at done
  · exact scheduled.leave done
  · exact scheduled.envDestroy small used (.inr rfl) done

theorem trap {tf : Trapframe} {cr2 : Word} {key : Int} (scheduled : Scheduled others k (some c))
    (respects : (k.envs c).envStatus ≠ .dying →
      ∀ call, tf.call = some call → call.Respects others (k.setTf c tf) c)
    (done : k.trap c tf cr2 key = .ok (k', cur')) : KeepsRunning others k k' cur' := by
  obtain ⟨small, used, here⟩ := scheduled.current c rfl
  unfold Kernel.trap at done
  split at done
  · obtain ⟨k₁, freed, rest⟩ := Fallible.bind_ok.mp done
    have kept := scheduled.envFree small used here freed
    rw [if_pos rfl] at kept
    exact kept.andRun (kept.scheduled.schedYield rest)
  · rename_i alive
    obtain ⟨inner, dispatched, rest⟩ := Fallible.bind_ok.mp done
    have saved := scheduled.setTf tf
    have kept := saved.andFlow (saved.scheduled.trapDispatch (by
      rw [Kernel.setTf, Kernel.setEnv_envs, if_pos rfl]
      exact respects alive) dispatched)
    cases inner with
    | left k₁ cur₁ =>
      cases rest
      exact kept
    | returned value k₁ =>
      simp only at rest
      split at rest
      · exact kept.andRun (kept.scheduled.envRun rest)
      · exact kept.andRun (kept.scheduled.schedYield rest)

end Scheduled

end Jos
