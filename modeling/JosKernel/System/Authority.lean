import JosKernel.System.Isolation

namespace Jos

deriving instance DecidableEq for Insertion

def MapsWritable (page : Nat) (entry : Word) : Prop := Present entry ∧ entryPage entry = page ∧ entry &&& pteW ≠ 0

def Kernel.CanWrite (k : Kernel) (e page : Nat) : Prop :=
  k.InUse e ∧ ∃ va, va < utop ∧ MapsWritable page (k.leaf e va)

/-- `sys_page_map` is not asked for a writable mapping of a page that the source may only read. -/
def Syscall.KeepsReadOnly (k : Kernel) (cur : Nat) : Syscall → Prop
  | .pageMap srcenvid srcva _ _ perm => ∀ source, k.envid2env cur srcenvid true = some source →
      ∀ found, k.found source srcva = some found → perm &&& pteW.setWidth 32 ≠ 0 → k.mem.read found.2 &&& pteW ≠ 0
  | _ => True

instance decidableKeepsReadOnly (k : Kernel) (cur : Nat) : (call : Syscall) → Decidable (call.KeepsReadOnly k cur)
  | .pageMap srcenvid srcva _ _ perm => inferInstanceAs (Decidable (∀ source ∈ k.envid2env cur srcenvid true,
      ∀ found ∈ k.found source srcva, perm &&& pteW.setWidth 32 ≠ 0 → k.mem.read found.2 &&& pteW ≠ 0))
  | .cputs _ _ | .cgetc | .getenvid | .envDestroy _ | .pageAlloc _ _ _ | .pageUnmap _ _ | .exofork | .envSetStatus _ _ |
    .envSetPgfaultUpcall _ _ | .yield | .ipcTrySend _ _ _ _ | .ipcRecv _ | .unknown => isTrue trivial

variable {reserved : Nat → Prop} {k k' : Kernel} {g : Layout} {cur : Nat}

theorem and_twoPow_ne_zero {w : Nat} (value : BitVec w) {bit : Nat} (inside : bit < w) :
    value &&& BitVec.twoPow w bit ≠ 0 ↔ value.getLsbD bit = true := by
  have nonzero : BitVec.twoPow w bit ≠ 0#w := by
    intro zero
    have selected := congrArg (fun bits => bits.getLsbD bit) zero
    simp [inside] at selected
  rw [BitVec.and_twoPow]
  cases present : value.getLsbD bit <;> simp [nonzero]

theorem leafEntry_writable {page : Nat} {perm : BitVec 32} :
    leafEntry page perm &&& pteW ≠ 0 ↔ perm &&& pteW.setWidth 32 ≠ 0 := by
  rw [show pteW.setWidth 32 = BitVec.twoPow 32 1 by decide, show pteW = BitVec.twoPow 64 1 by decide,
    and_twoPow_ne_zero _ (by decide), and_twoPow_ne_zero _ (by decide), leafEntry_getLsbD page perm (by decide)]
  simp

/-- A copy that can be written to is one of a mapping that can be written to. -/
theorem Spaces.source_writable (spaces : Spaces reserved k g) (inUse : k.InUse cur) {call : Syscall} {i : Insertion}
    (keeps : call.KeepsReadOnly k cur) (made : call.insertion k cur = some i) {e : Nat} {va : Word}
    (source : i.source = some (e, va)) (writable : i.entry &&& pteW ≠ 0) :
    k.InUse e ∧ va < utop ∧ MapsWritable i.page (k.leaf e va) := by
  cases call with
  | pageAlloc envid va perm =>
    obtain ⟨found, here, rest⟩ := Option.bind_eq_some_iff.mp made
    obtain ⟨page, -, rest⟩ := Option.bind_eq_some_iff.mp rest
    split at rest
    · cases rest
    · cases rest
      cases source
  | pageMap srcenvid srcva dstenvid dstva perm =>
    obtain ⟨e', known, rest⟩ := Option.bind_eq_some_iff.mp made
    obtain ⟨target, -, rest⟩ := Option.bind_eq_some_iff.mp rest
    obtain ⟨⟨page, pte⟩, found, rest⟩ := Option.bind_eq_some_iff.mp rest
    simp only at rest
    split at rest
    · cases rest
    · rename_i good
      cases rest
      cases source
      have below : va < utop := below_of_good fun bad => good (.inl bad)
      obtain ⟨-, present, here, read⟩ := spaces.found_data (inUse.target known) below found
      refine ⟨inUse.target known, below, present, here, ?_⟩
      rw [← read]
      exact keeps e known (page, pte) found (leafEntry_writable.mp writable)
  | ipcTrySend envid value srcva perm =>
    obtain ⟨target, -, rest⟩ := Option.bind_eq_some_iff.mp made
    obtain ⟨⟨page, pte⟩, found, rest⟩ := Option.bind_eq_some_iff.mp rest
    simp only at rest
    split at rest
    · cases rest
    · rename_i good
      cases rest
      cases source
      have below : va < utop := below_of_good fun bad => good (.inr (.inl bad))
      obtain ⟨-, present, here, read⟩ := spaces.found_data inUse below found
      refine ⟨inUse, below, present, here, ?_⟩
      rw [← read]
      intro readOnly
      exact good (.inr (.inr (.inr (.inl ⟨leafEntry_writable.mp writable, readOnly⟩))))
  | _ => cases made

theorem Spaces.entryPage_entry (spaces : Spaces reserved k g) {i : Insertion} (inUse : k.InUse i.target)
    (fits : i.Fits k) :
    entryPage i.entry = i.page := by
  obtain ⟨root, pml4e, -⟩ := spaces.root inUse
  exact (fits root pml4e).1

theorem Syscall.insertion_target {call : Syscall} {i : Insertion} (inUse : k.InUse cur)
    (made : call.insertion k cur = some i) : k.InUse i.target ∧ i.va < utop := by
  cases call with
  | pageAlloc envid va perm =>
    obtain ⟨found, here, rest⟩ := Option.bind_eq_some_iff.mp made
    obtain ⟨page, -, rest⟩ := Option.bind_eq_some_iff.mp rest
    split at rest
    · cases rest
    · rename_i good
      cases rest
      exact ⟨inUse.target here, below_of_good fun bad => good (.inl bad)⟩
  | pageMap srcenvid srcva dstenvid dstva perm =>
    obtain ⟨source, -, rest⟩ := Option.bind_eq_some_iff.mp made
    obtain ⟨found, here, rest⟩ := Option.bind_eq_some_iff.mp rest
    obtain ⟨page, -, rest⟩ := Option.bind_eq_some_iff.mp rest
    simp only at rest
    split at rest
    · cases rest
    · rename_i good
      cases rest
      exact ⟨inUse.target here, below_of_good fun bad => good (.inr (.inl bad))⟩
  | ipcTrySend envid value srcva perm =>
    obtain ⟨found, here, rest⟩ := Option.bind_eq_some_iff.mp made
    obtain ⟨page, -, rest⟩ := Option.bind_eq_some_iff.mp rest
    simp only at rest
    split at rest
    · cases rest
    · rename_i good
      cases rest
      exact ⟨inUse.target here, below_of_good fun bad => good (.inr (.inr (.inr (.inr bad))))⟩
  | _ => cases made

theorem SpaceCall.mapped {call : SpaceCall} {i : Insertion} {code : Int} (spaces : Spaces reserved k g)
    (inUse : k.InUse cur)
    (careful : call.syscall.Careful k cur) (done : call.run k cur = .ok (code, k')) (success : code = 0)
    (made : call.syscall.insertion k cur = some i) : k'.leaf i.target i.va = i.entry := by
  obtain ⟨target, below⟩ := Syscall.insertion_target inUse made
  have shown : ∀ {mem g'}, Shows reserved k g (Insertion.view k (some i)) mem g' →
      (k.setMem mem).leaf i.target i.va = i.entry := by
    intro mem g' shows
    rw [shows.leaf i.target i.va target below]
    exact if_pos ⟨rfl, .refl _⟩
  have succeeds : ¬ code < 0 := by omega
  cases call with
  | pageAlloc envid va perm =>
    obtain ⟨mem, g', rfl, ⟨failed, -⟩ | ⟨-, i', made', -, shows, -⟩⟩ := spaces.sysPageAlloc inUse careful done
    · exact absurd failed succeeds
    · cases Option.some.inj (made'.symm.trans made)
      exact shown shows
  | pageMap srcenvid srcva dstenvid dstva perm =>
    obtain ⟨mem, g', rfl, ⟨failed, -⟩ | ⟨-, i', made', shows⟩⟩ := spaces.sysPageMap inUse careful done
    · exact absurd failed succeeds
    · cases Option.some.inj (made'.symm.trans made)
      exact shown shows
  | pageUnmap envid va => cases made
  | ipcTrySend envid value srcva perm =>
    obtain ⟨mem, g', ⟨failed, -, -⟩ | ⟨-, receiver, given, found, -, rfl, shows⟩⟩ :=
      spaces.sysIpcTrySend inUse careful done
    · exact absurd failed succeeds
    · have made : Syscall.insertion k cur (.ipcTrySend envid value srcva perm) = some i := made
      rw [made] at shows
      have touches := Spaces.deliver_touches (k.setMem mem) (inUse.target found) given cur value
      rw [touches.leaf]
      exact shown shows

namespace System

variable {C : Type} [DecidableEq C] {s s' : System C} {event : Event C} {e page : Nat}

/-- No environment asks `sys_page_map` for more than the source mapping allows. -/
def KeepsReadOnly (s : System C) : Event C → Prop
  | .trap c tf _ _ => ∀ cur call, (s.cpus c).cpuEnv = some cur → (s.kernel.envs cur).envStatus ≠ .dying →
      tf.call = some call → call.KeepsReadOnly (s.kernel.setTf cur tf) cur
  | _ => True

/-- The environment `e` is given the page to write to: it comes from the free list or from another environment. -/
def Gives (s : System C) (e page : Nat) : Event C → Prop
  | .trap c tf _ _ => ∃ cur call i, (s.cpus c).cpuEnv = some cur ∧ tf.call = some call ∧
      call.insertion (s.kernel.setTf cur tf) cur = some i ∧ i.target = e ∧ MapsWritable page i.entry ∧
      ∀ va, i.source ≠ some (e, va)
  | _ => False

theorem Sound.canWrite (sound : s.Sound reserved) (keeps : s.KeepsReadOnly event)
    (step : Transition.Guarded Guard Step s event s')
    (after : s'.kernel.CanWrite e page) : s.kernel.CanWrite e page ∨ s.Gives e page event := by
  obtain ⟨inUse, va, below, writable⟩ := after
  rcases (sound.evolves step).leaf e va inUse below with absent | ⟨used, same⟩ | mapped
  · exact absurd writable.1 absent
  · rw [same] at writable
    exact .inl ⟨used, va, below, writable⟩
  · cases event with
    | trap c tf cr2 key =>
      obtain ⟨cur, current, alive, call, made, i, pending, rfl, -, entry⟩ := mapped
      rw [entry] at writable
      by_cases own : ∃ srcva, i.source = some (i.target, srcva)
      · obtain ⟨srcva, source⟩ := own
        obtain ⟨g, spaces⟩ := sound.spaces
        have touches : Touches (fun other => other = cur) s.kernel (s.kernel.setTf cur tf) := .setTf cur tf
        have spaces' := spaces.touches touches
        have inUse' := (touches.inUse cur).mpr (sound.inUse current)
        obtain ⟨used, below', readable⟩ :=
          spaces'.source_writable inUse' (keeps cur call current alive made) pending source
          writable.2.2
        obtain ⟨-, fits⟩ := (step.1.2 cur current).1 alive call made i pending
        have same : i.page = page :=
          (spaces'.entryPage_entry (Syscall.insertion_target inUse' pending).1 fits).symm.trans writable.2.1
        rw [touches.leaf, same] at readable
        exact .inl ⟨(touches.inUse _).mp used, srcva, below', readable⟩
      · exact .inr ⟨cur, call, i, current, made, pending, rfl, writable, fun srcva source => own ⟨srcva, source⟩⟩
    | _ => exact mapped.elim

/-- Write authority over a page does not grow but by gift. A copy that can be written to is one of a mapping that
    can, and an environment that cannot write to a page gets no writable mapping of it, as long as nobody gives it
    one and `sys_page_map` is not asked for more than the source allows. -/
theorem write_authority (config : BootConfig) (envs : Nat → Env) {ops : List BootOp} {k : Kernel}
    {events : List (Event C)} {s : System C} (booted : Transition.Run BootOp.Step (config.kernel envs) ops k)
    (run : Transition.Run (Transition.Guarded Guard Step) (idle k) events s) :
    (∀ c e tf (call : SpaceCall) k' i source srcva, (s.cpus c).cpuEnv = some e →
      call.syscall.Careful (s.kernel.setTf e tf) e → call.syscall.KeepsReadOnly (s.kernel.setTf e tf) e →
      call.run (s.kernel.setTf e tf) e = .ok (0, k') → call.syscall.insertion (s.kernel.setTf e tf) e = some i →
      i.source = some (source, srcva) → MapsWritable i.page (k'.leaf i.target i.va) →
      MapsWritable i.page (s.kernel.leaf source srcva)) ∧
    ∀ e page later s', Transition.Run (Transition.Guarded (fun s event =>
        s.Guard event ∧ s.KeepsReadOnly event ∧ ¬ s.Gives e page event) Step) s later s' →
      ¬ s.kernel.CanWrite e page → ¬ s'.kernel.CanWrite e page := by
  have sound := (sound_idle booted).run run
  refine ⟨?_, ?_⟩
  · intro c e tf call k' i source srcva current careful keeps done made from' writable
    obtain ⟨g, spaces⟩ := sound.spaces
    have touches : Touches (fun other => other = e) s.kernel (s.kernel.setTf e tf) := .setTf e tf
    have spaces' := spaces.touches touches
    have inUse := (touches.inUse e).mpr (sound.inUse current)
    rw [call.mapped spaces' inUse careful done rfl made] at writable
    rw [← touches.leaf]
    exact (spaces'.source_writable inUse keeps made from' writable.2.2).2.2
  · intro e page later s' rest cannot
    have step : ∀ (before : System C) event after, before.Sound config.Reserved ∧ ¬ before.kernel.CanWrite e page →
        Transition.Guarded (fun s event => s.Guard event ∧ s.KeepsReadOnly event ∧ ¬ s.Gives e page event) Step
          before event after → after.Sound config.Reserved ∧ ¬ after.kernel.CanWrite e page := by
      intro before event after ⟨sound, cannot⟩ ⟨⟨guard, keeps, givesNot⟩, step⟩
      refine ⟨sound.step ⟨guard, step⟩, fun can => ?_⟩
      rcases sound.canWrite keeps ⟨guard, step⟩ can with already | gives
      · exact cannot already
      · exact givesNot gives
    exact (rest.invariant step ⟨sound, cannot⟩).2

def allocOwn : List (Event Bool) := [.start false, .trap false (syscallTf 4 0 0x800000 7 0 0) 0 0]

theorem write_authority_own : ∃ s : System Bool, ∃ k', (s.cpus false).cpuEnv = some 0 ∧
    SpaceCall.run (s.kernel.setTf 0 .zero) 0 (.pageMap 0 0x800000 0 0x900000 7) = .ok (0, k') ∧
    MapsWritable 6 (k'.leaf 0 0x900000) ∧ MapsWritable 6 (s.kernel.leaf 0 0x800000) := by
  have result : (guardedRun allocOwn).bind (fun s =>
      (SpaceCall.run (s.kernel.setTf 0 .zero) 0 (.pageMap 0 0x800000 0 0x900000 7)).toOption.map fun r =>
      ((s.cpus false).cpuEnv, r.1, r.2.leaf 0 0x900000,
        decide ((Syscall.pageMap 0 0x800000 0 0x900000 7).Careful (s.kernel.setTf 0 .zero) 0 ∧
          (Syscall.pageMap 0 0x800000 0 0x900000 7).KeepsReadOnly (s.kernel.setTf 0 .zero) 0 ∧
          (Syscall.pageMap 0 0x800000 0 0x900000 7).insertion (s.kernel.setTf 0 .zero) 0 =
            some ⟨some (0, 0x800000), 6, 0, 0x900000, 7⟩))) =
      some (some 0, 0, leafEntry 6 7, true) := by
    rw [guardedRun, smallBoot_eq]
    decide +kernel
  obtain ⟨s, done, rest⟩ := Option.bind_eq_some_iff.mp result
  obtain ⟨⟨code, k'⟩, returned, shown⟩ := Option.map_eq_some_iff.mp rest
  obtain ⟨k, booted, run⟩ := guardedRun_run done
  simp only [Prod.mk.injEq, decide_eq_true_eq] at shown
  obtain ⟨current, rfl, leaf, careful, keeps, made⟩ := shown
  have returned := Fallible.toOption_eq_some.mp returned
  have writable : MapsWritable 6 (k'.leaf 0 0x900000) := by
    rw [leaf]
    exact ⟨by decide, by decide, by decide⟩
  have authority := write_authority smallMachine (fun _ => default) booted run
  have before := authority.1 false 0 .zero (.pageMap 0 0x800000 0 0x900000 7) k' _ 0 0x800000 current careful keeps
    returned made rfl
  exact ⟨s, k', current, returned, writable, before writable⟩

end System

end Jos
