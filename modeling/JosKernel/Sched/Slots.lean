import JosKernel.Lib.Linked
import JosKernel.Sched.Yield

namespace Jos

structure SameSlot (before after : Env) : Prop where
  envLink : after.envLink = before.envLink
  envId : after.envId = before.envId
  envPml4e : after.envPml4e = before.envPml4e
  envCr3 : after.envCr3 = before.envCr3
  free : after.envStatus = .free ↔ before.envStatus = .free

/-- Nothing has changed but the environments in `slots`, and those not in their use. -/
structure Touches (slots : Nat → Prop) (k k' : Kernel) : Prop where
  mem : k'.mem = k.mem
  envFreeList : k'.envFreeList = k.envFreeList
  console : k'.console = k.console
  slot : ∀ e, SameSlot (k.envs e) (k'.envs e)
  others : ∀ e, ¬ slots e → k'.envs e = k.envs e

namespace Touches

variable {slots slots' : Nat → Prop} {k k' k'' : Kernel}

theorem refl (slots : Nat → Prop) (k : Kernel) : Touches slots k k :=
  ⟨rfl, rfl, rfl, fun _ => ⟨rfl, rfl, rfl, rfl, Iff.rfl⟩, fun _ _ => rfl⟩

theorem trans (first : Touches slots k k') (second : Touches slots k' k'') : Touches slots k k'' where
  mem := second.mem.trans first.mem
  envFreeList := second.envFreeList.trans first.envFreeList
  console := second.console.trans first.console
  slot := fun e => {
    envLink := (second.slot e).envLink.trans (first.slot e).envLink
    envId := (second.slot e).envId.trans (first.slot e).envId
    envPml4e := (second.slot e).envPml4e.trans (first.slot e).envPml4e
    envCr3 := (second.slot e).envCr3.trans (first.slot e).envCr3
    free := (second.slot e).free.trans (first.slot e).free }
  others := fun e other => (second.others e other).trans (first.others e other)

theorem mono (touches : Touches slots k k') (wider : ∀ e, slots e → slots' e) : Touches slots' k k' where
  mem := touches.mem
  envFreeList := touches.envFreeList
  console := touches.console
  slot := touches.slot
  others := fun e other => touches.others e fun member => other (wider e member)

theorem setEnv {e : Nat} {env : Env} (same : SameSlot (k.envs e) env) :
    Touches (fun other => other = e) k (k.setEnv e env) where
  mem := rfl
  envFreeList := rfl
  console := rfl
  slot := by
    intro other
    rw [Kernel.setEnv_envs]
    split
    · rename_i here
      rw [here]
      exact same
    · exact ⟨rfl, rfl, rfl, rfl, Iff.rfl⟩
  others := fun other different => if_neg different

theorem setStatus {e : Nat} {status : EnvStatus} (used : (k.envs e).envStatus ≠ .free)
    (inUse : status ≠ .free) : Touches (fun other => other = e) k (k.setStatus e status) :=
  setEnv ⟨rfl, rfl, rfl, rfl, iff_of_false inUse used⟩

theorem setTf (e : Nat) (tf : Trapframe) :
    Touches (fun other => other = e) k (k.setEnv e { k.envs e with envTf := tf }) :=
  setEnv ⟨rfl, rfl, rfl, rfl, Iff.rfl⟩

end Touches

-- Leaving the kernel

section Leaving

variable {k k' : Kernel} {cur : Option Nat}

theorem suspend_touches : Touches (fun e => cur = some e) k (k.suspend cur) := by
  cases cur with
  | none => exact .refl _ k
  | some c =>
    rw [Kernel.suspend]
    split
    · rename_i running
      refine (Touches.setStatus (by simp [running]) (by simp)).mono ?_
      intro e here
      rw [here]
    · exact .refl _ k

theorem leave_ok {α : Type} {result : Except Stop (Kernel × Option Nat)} {flow : Flow α} :
    Kernel.leave result = .ok flow ↔ ∃ k cur, result = .ok (k, cur) ∧ flow = .left k cur := by
  rw [Kernel.leave, Fallible.map_ok]
  constructor
  · rintro ⟨⟨k, cur⟩, done, rfl⟩
    exact ⟨k, cur, done, rfl⟩
  · rintro ⟨k, cur, done, rfl⟩
    exact ⟨(k, cur), done, rfl⟩

/-- The kernel that a CPU leaves behind: at most the environment it ran and the one it runs now have
    changed, and the one it runs now is marked as running. -/
structure Leaves (k : Kernel) (cur : Option Nat) (k' : Kernel) (cur' : Option Nat) : Prop where
  touches : Touches (fun e => cur = some e ∨ cur' = some e) k k'
  chosen : ∀ e, cur' = some e → (k.envs e).envStatus = .runnable ∨ cur = some e
  running : ∀ e, cur' = some e → k'.envs e =
    { k.envs e with envStatus := .running, envRuns := (k.envs e).envRuns + 1 }
  suspended : ∀ e, cur = some e → cur' ≠ some e → k'.envs e =
    { k.envs e with envStatus :=
        if (k.envs e).envStatus = .running then .runnable else (k.envs e).envStatus }

theorem envRun_leaves {e : Nat} {cur' : Option Nat} (used : (k.envs e).envStatus ≠ .free)
    (chosen : (k.envs e).envStatus = .runnable ∨ cur = some e) (ran : k.envRun cur e = .ok (k', cur')) :
    cur' = some e ∧ Leaves k cur k' (some e) := by
  unfold Kernel.envRun at ran
  simp only at ran
  split at ran
  · cases ran
  cases ran
  have suspends : Touches (fun other => cur = some other) k (k.suspend cur) := suspend_touches
  have kept : ∀ other, cur ≠ some other → (k.suspend cur).envs other = k.envs other := suspends.others
  have same : ∃ status, (k.suspend cur).envs e = { k.envs e with envStatus := status } := by
    by_cases current : cur = some e
    · rw [current, Kernel.suspend]
      split
      · exact ⟨.runnable, if_pos rfl⟩
      · exact ⟨_, rfl⟩
    · exact ⟨_, kept e current⟩
  obtain ⟨status, same⟩ := same
  refine ⟨rfl, ?_, ?_, ?_, ?_⟩
  · refine (suspends.mono fun e here => .inl here).trans (Touches.mono (Touches.setEnv ?_) ?_)
    · have used' := mt (suspends.slot e).free.mp used
      exact ⟨rfl, rfl, rfl, rfl, iff_of_false (by simp) used'⟩
    · rintro other rfl
      exact .inr rfl
  · rintro other ⟨⟩
    exact chosen
  · rintro other ⟨⟩
    rw [Kernel.setEnv_envs, if_pos rfl, same]
  · intro other current different
    rw [Kernel.setEnv_envs, if_neg (by rintro rfl; exact different rfl), current, Kernel.suspend]
    split
    · exact if_pos rfl
    · rfl

theorem schedHalt_leaves {cur' : Option Nat} (idle : ∀ e, cur = some e → (k.envs e).envStatus ≠ .running)
    (halted : k.schedHalt = .ok (k', cur')) : Leaves k cur k' cur' := by
  unfold Kernel.schedHalt at halted
  split at halted
  · cases halted
    refine ⟨.refl _ k, by simp, by simp, ?_⟩
    intro e current _
    rw [if_neg (idle e current)]
  · cases halted

theorem schedYield_leaves {cur' : Option Nat} (used : ∀ e, cur = some e → (k.envs e).envStatus ≠ .free)
    (yielded : k.schedYield cur = .ok (k', cur')) : Leaves k cur k' cur' := by
  unfold Kernel.schedYield at yielded
  split at yielded
  · rename_i e found
    have runnable : (k.envs e).envStatus = .runnable := by simpa using List.find?_some found
    obtain ⟨rfl, leaves⟩ := envRun_leaves (by simp [runnable]) (.inl runnable) yielded
    exact leaves
  · split at yielded
    · split at yielded
      · obtain ⟨rfl, leaves⟩ := envRun_leaves (used _ rfl) (.inr rfl) yielded
        exact leaves
      · rename_i idle
        exact schedHalt_leaves (by rintro _ ⟨⟩; exact idle) yielded
    · exact schedHalt_leaves (by simp) yielded

theorem schedYield_slot {cur' : Option Nat} (inside : ∀ e, cur = some e → e < nenv)
    (yielded : k.schedYield cur = .ok (k', cur')) : ∀ e, cur' = some e → e < nenv := by
  have ran : ∀ {e : Nat}, k.envRun cur e = .ok (k', cur') → cur' = some e := by
    intro e ran
    unfold Kernel.envRun at ran
    simp only at ran
    split at ran
    · cases ran
    · cases ran
      rfl
  have halted : k.schedHalt = .ok (k', cur') → cur' = none := by
    intro halted
    unfold Kernel.schedHalt at halted
    split at halted <;> cases halted
    rfl
  unfold Kernel.schedYield at yielded
  intro e here
  split at yielded
  · rename_i found
    have member := List.mem_of_find?_eq_some found
    obtain ⟨i, -, rfl⟩ := List.mem_map.mp member
    rw [ran yielded] at here
    cases here
    exact Nat.mod_lt _ (by decide)
  · split at yielded
    · split at yielded
      · rw [ran yielded] at here
        cases here
        exact inside _ rfl
      · rw [halted yielded] at here
        cases here
    · rw [halted yielded] at here
      cases here

end Leaving

-- The table of environments

structure EnvTable (k : Kernel) : Prop where
  freeList : ∃ nodes, Linked.Chain (fun e => (k.envs e).envLink) k.envFreeList nodes ∧
    ∀ e, e ∈ nodes ↔ e < nenv ∧ (k.envs e).envStatus = .free
  ids : ∀ e, e < nenv → (k.envs e).envStatus ≠ .free → envx (k.envs e).envId = e

namespace EnvTable

variable {k k' : Kernel}

theorem touches {slots : Nat → Prop} (table : EnvTable k) (touches : Touches slots k k') : EnvTable k' where
  freeList := by
    obtain ⟨nodes, chain, members⟩ := table.freeList
    refine ⟨nodes, ?_, ?_⟩
    · rw [touches.envFreeList]
      exact Linked.chain_congr (fun e _ => (touches.slot e).envLink) chain
    · intro e
      rw [members, (touches.slot e).free]
  ids := by
    intro e small used
    rw [(touches.slot e).envId]
    exact table.ids e small (mt (touches.slot e).free.mpr used)

theorem setMem (table : EnvTable k) (mem : Memory) : EnvTable (k.setMem mem) := ⟨table.freeList, table.ids⟩

theorem say (table : EnvTable k) (notice : Notice) : EnvTable (k.say notice) := ⟨table.freeList, table.ids⟩

theorem head_free (table : EnvTable k) {e : Nat} (head : k.envFreeList = some e) :
    e < nenv ∧ (k.envs e).envStatus = .free := by
  obtain ⟨nodes, chain, members⟩ := table.freeList
  rw [head] at chain
  obtain ⟨rest, rfl, -⟩ := Linked.chain_some chain
  exact (members e).mp (by simp)

theorem take (table : EnvTable k) {e : Nat} {env : Env} (head : k.envFreeList = some e)
    (id : envx env.envId = e) (used : env.envStatus ≠ .free) :
    e < nenv ∧ (k.envs e).envStatus = .free ∧
      EnvTable ((k.setEnv e env).setEnvFreeList (k.envs e).envLink) := by
  obtain ⟨nodes, chain, members⟩ := table.freeList
  have nodup := Linked.chain_nodup chain
  rw [head] at chain
  obtain ⟨rest, rfl, tail⟩ := Linked.chain_some chain
  obtain ⟨notRest, -⟩ := List.nodup_cons.mp nodup
  obtain ⟨small, free⟩ := (members e).mp (by simp)
  refine ⟨small, free, ⟨rest, ?_, ?_⟩, ?_⟩
  · refine Linked.chain_congr ?_ tail
    intro other member
    rw [Kernel.setEnvFreeList_envs, Kernel.setEnv_envs, if_neg (by rintro rfl; exact notRest member)]
  · intro other
    rw [Kernel.setEnvFreeList_envs, Kernel.setEnv_envs]
    split
    · rename_i here
      rw [here]
      exact iff_of_false notRest fun inside => used inside.2
    · rename_i different
      rw [← members, List.mem_cons, or_iff_right different]
  · intro other inside
    rw [Kernel.setEnvFreeList_envs, Kernel.setEnv_envs]
    split
    · rename_i here
      rw [here]
      exact fun _ => id
    · exact table.ids other inside

theorem put (table : EnvTable k) {e : Nat} {env : Env} (small : e < nenv)
    (used : (k.envs e).envStatus ≠ .free) (link : env.envLink = k.envFreeList) (free : env.envStatus = .free) :
    EnvTable ((k.setEnv e env).setEnvFreeList (some e)) where
  freeList := by
    obtain ⟨nodes, chain, members⟩ := table.freeList
    have fresh : e ∉ nodes := by
      rw [members]
      exact fun inside => used inside.2
    refine ⟨e :: nodes, Linked.chain_push ?_ ?_ chain, ?_⟩
    · rw [Kernel.setEnvFreeList_envs, Kernel.setEnv_envs, if_pos rfl, link]
    · intro other member
      rw [Kernel.setEnvFreeList_envs, Kernel.setEnv_envs, if_neg (by rintro rfl; exact fresh member)]
    · intro other
      rw [Kernel.setEnvFreeList_envs, Kernel.setEnv_envs]
      split
      · rename_i here
        subst here
        simp [small, free]
      · rename_i different
        rw [← members, List.mem_cons, or_iff_right different]
  ids := by
    intro other inside inUse
    rw [Kernel.setEnvFreeList_envs, Kernel.setEnv_envs] at inUse ⊢
    split at inUse
    · exact absurd free inUse
    · rename_i different
      rw [if_neg different]
      exact table.ids other inside inUse

end EnvTable

-- The table that `env_init` sets up

theorem Kernel.envInit_table (k : Kernel) :
    EnvTable k.envInit ∧ ∀ e, e < nenv → (k.envInit.envs e).envStatus = .free := by
  have slot : ∀ e, e < nenv →
      k.envInit.envs e = (k.envs e).unused (if e + 1 = nenv then none else some (e + 1)) := by
    intro e small
    rw [Kernel.envInit_eq]
    exact if_pos small
  have free : ∀ e, e < nenv → (k.envInit.envs e).envStatus = .free := by
    intro e small
    rw [slot e small]
    rfl
  have head : k.envInit.envFreeList = some 0 := by rw [Kernel.envInit_eq]
  have positive : 0 < nenv := by decide
  obtain ⟨nodes, chain, members⟩ := Linked.chain_below positive fun e small =>
    show (k.envInit.envs e).envLink = _ by
      rw [slot e small]
      rfl
  refine ⟨⟨⟨nodes, head ▸ chain, ?_⟩, ?_⟩, free⟩
  · intro e
    rw [members e]
    exact ⟨fun small => ⟨small, free e small⟩, fun inside => inside.1⟩
  · exact fun e small used => absurd (free e small) used

end Jos
