import JosKernel.Env.Generations
import JosKernel.System.Exclusion
import JosKernel.Trap.Effects

namespace Jos

variable {k k' k₁ : Kernel} {c t : Nat} {cur cur' : Option Nat} {tf : Trapframe}

-- Messages

/-- The trap is a `sys_ipc_try_send` to the environment `t` that succeeds. -/
structure Kernel.Sends (k : Kernel) (c : Nat) (tf : Trapframe) (t : Nat) (value : BitVec 32) (srcva : Word)
    (perm : BitVec 32) (k₁ : Kernel) : Prop where
  alive : (k.envs c).envStatus ≠ .dying
  call : ∃ envid, tf.call = some (.ipcTrySend envid value srcva perm) ∧ k.envid2env c envid false = some t ∧
    (k.setTf c tf).sysIpcTrySend c envid value srcva perm = .ok (0, k₁)

/-- The page that the sender has at `srcva` is mapped where the receiver wants it. -/
def Kernel.MapsPage (k : Kernel) (c t : Nat) (srcva : Word) (perm : BitVec 32) (k₁ : Kernel) : Prop :=
  srcva < utop ∧ (k.envs t).envIpcDstva < utop ∧ ∃ root dstRoot page pte mem,
    (k.envs c).envPml4e = some root ∧ k.mem.pageLookup root srcva = .ok (some (page, pte), mem) ∧
    (k.envs t).envPml4e = some dstRoot ∧
    mem.pageInsert dstRoot page (k.envs t).envIpcDstva perm = .ok (true, k₁.mem)

structure SameMail (before after : Env) : Prop where
  envIpcRecving : after.envIpcRecving = before.envIpcRecving
  envIpcValue : after.envIpcValue = before.envIpcValue
  envIpcFrom : after.envIpcFrom = before.envIpcFrom
  envIpcPerm : after.envIpcPerm = before.envIpcPerm
  rax : after.envTf.regs.rax = before.envTf.regs.rax

namespace SameMail

variable {a b d : Env}

theorem refl (a : Env) : SameMail a a := ⟨rfl, rfl, rfl, rfl, rfl⟩

theorem of_eq (same : b = a) : SameMail a b := same ▸ refl a

theorem trans (first : SameMail a b) (second : SameMail b d) : SameMail a d where
  envIpcRecving := second.envIpcRecving.trans first.envIpcRecving
  envIpcValue := second.envIpcValue.trans first.envIpcValue
  envIpcFrom := second.envIpcFrom.trans first.envIpcFrom
  envIpcPerm := second.envIpcPerm.trans first.envIpcPerm
  rax := second.rax.trans first.rax

end SameMail

theorem Exits.mail (exits : Exits k cur k' cur') (e : Nat) : SameMail (k.envs e) (k'.envs e) := by
  obtain ⟨runs, same⟩ := exits.fields e
  rw [same]
  exact ⟨rfl, rfl, rfl, rfl, rfl⟩

theorem Kernel.setEnv_other (k : Kernel) {e other : Nat} (different : other ≠ e) (env : Env) :
    (k.setEnv e env).envs other = k.envs other := if_neg different

theorem Kernel.setEnv_mail (k : Kernel) {e : Nat} {env : Env} (same : SameMail (k.envs e) env) (other : Nat) :
    SameMail (k.envs other) ((k.setEnv e env).envs other) := by
  rw [Kernel.setEnv_envs]
  split
  · rename_i here
    rw [here]
    exact same
  · exact .refl _

theorem Kernel.envFree_mail {e : Nat} (freed : k.envFree cur e = .ok k') (other : Nat) :
    SameMail (k.envs other) (k'.envs other) := by
  obtain ⟨root, mem, -, -, rfl⟩ := Kernel.envFree_ok freed
  have same : SameMail (k.envs e) { k.envs e with
      envPml4e := none, envCr3 := 0, envStatus := .free, envLink := k.envFreeList } := ⟨rfl, rfl, rfl, rfl, rfl⟩
  exact ((k.say (.freeEnv (k.curId cur) (k.envs e).envId)).setMem mem).setEnv_mail same other

theorem Kernel.setTf_mail (k : Kernel) (tf : Trapframe) (other : t ≠ c) : SameMail (k.envs t) ((k.setTf c tf).envs t) :=
  .of_eq (k.setEnv_other other _)

theorem Trapframe.call_vector {call : Syscall} (made : tf.call = some call) : tf.trapno = tSyscall := by
  by_contra different
  rw [Trapframe.call, if_neg different] at made
  cases made

theorem Kernel.trap_syscall {cr2 : Word} {key : Int} {call : Syscall} (alive : (k.envs c).envStatus ≠ .dying)
    (made : tf.call = some call) (done : k.trap c tf cr2 key = .ok (k', cur')) :
    (k.setTf c tf).syscall c key call = .ok (.left k' cur') ∨
      ∃ code k₁, (k.setTf c tf).syscall c key call = .ok (.returned code k₁) ∧
        Yields (k₁.setTf c ((k₁.envs c).envTf.setRax (BitVec.ofInt 64 code))) (some c) k' cur' := by
  have isCall : tf.trapno = tSyscall := Trapframe.call_vector made
  rw [Trapframe.call, if_pos isCall] at made
  unfold Kernel.trap at done
  rw [if_neg alive] at done
  obtain ⟨flow, dispatched, rest⟩ := Fallible.bind_ok.mp done
  unfold trapDispatch at dispatched
  simp only [setTf_envTf] at dispatched
  rw [if_neg (by rw [isCall]; decide), if_pos isCall, Option.some.inj made] at dispatched
  obtain ⟨inner, called, rfl⟩ := Fallible.map_ok.mp dispatched
  cases inner with
  | left k₁ cur₁ =>
    cases rest
    exact .inl called
  | returned code k₁ =>
    refine .inr ⟨code, k₁, called, ?_⟩
    simp only at rest
    split at rest
    · rename_i running
      exact envRun_yields running rest
    · exact schedYield_yields rest

theorem Kernel.trap_finish {cr2 : Word} {key : Int} {call : Syscall} {result : Except Stop (Int × Kernel)}
    (alive : (k.envs c).envStatus ≠ .dying) (made : tf.call = some call)
    (finishes : (k.setTf c tf).syscall c key call = finish result) (done : k.trap c tf cr2 key = .ok (k', cur')) :
    ∃ code k₁, result = .ok (code, k₁) ∧
      Yields (k₁.setTf c ((k₁.envs c).envTf.setRax (BitVec.ofInt 64 code))) (some c) k' cur' := by
  rcases Kernel.trap_syscall alive made done with called | ⟨code, k₁, called, yields⟩
  · rw [finishes] at called
    obtain ⟨_, _, _, impossible⟩ := finish_ok.mp called
    cases impossible
  · rw [finishes] at called
    obtain ⟨code', k₂, returned, same⟩ := finish_ok.mp called
    cases same
    exact ⟨code, k₁, returned, yields⟩

structure Delivered (k : Kernel) (c t : Nat) (value given : BitVec 32) (env : Env) : Prop where
  envIpcRecving : env.envIpcRecving = false
  envIpcValue : env.envIpcValue = value
  envIpcFrom : env.envIpcFrom = (k.envs c).envId
  envIpcPerm : env.envIpcPerm = given
  rax : env.envTf.regs.rax = 0

variable {value : BitVec 32} {srcva : Word} {perm : BitVec 32}

theorem Delivered.mail {given : BitVec 32} {before after : Env} (delivered : Delivered k c t value given before)
    (same : SameMail before after) : Delivered k c t value given after where
  envIpcRecving := same.envIpcRecving.trans delivered.envIpcRecving
  envIpcValue := same.envIpcValue.trans delivered.envIpcValue
  envIpcFrom := same.envIpcFrom.trans delivered.envIpcFrom
  envIpcPerm := same.envIpcPerm.trans delivered.envIpcPerm
  rax := same.rax.trans delivered.rax

theorem mapsPage_setTf : (k.setTf c tf).MapsPage c t srcva perm k₁ ↔ k.MapsPage c t srcva perm k₁ := by
  simp [Kernel.MapsPage]

theorem ne_zero_of_perm (good : ¬ BadPerm perm) : perm ≠ 0 := by
  rintro rfl
  exact good (by decide)

theorem Kernel.sysIpcTrySend_given {envid : BitVec 32} {code : Int} (found : k.envid2env c envid false = some t)
    (returned : k.sysIpcTrySend c envid value srcva perm = .ok (code, k₁)) (success : code = 0) :
    (k.envs t).envIpcRecving = true ∧ ∃ given mem,
      (k.MapsPage c t srcva perm k₁ ∧ given = perm ∧ perm ≠ 0 ∨
        ¬ k.Transfers t srcva ∧ given = (k.envs t).envIpcPerm) ∧
      k₁ = ((k.setMem mem).setIpcPerm t given).deliver c t value := by
  cases sysIpcTrySend_outcome returned with
  | page target root dstRoot page pte mem mem' found' recving below _ goodPerm pml4e lookup _ goodDst dstPml4e inserted =>
    rw [found] at found'
    cases found'
    have wanted : (k.envs t).envIpcDstva < utop := by
      rw [← BitVec.not_le]
      exact fun high => goodDst (.inl high)
    refine ⟨recving, perm, mem', .inl ⟨⟨below, wanted, root, dstRoot, page, pte, mem, pml4e, lookup, dstPml4e,
      inserted⟩, rfl, ne_zero_of_perm goodPerm⟩, rfl⟩
  | unwanted target root page pte mem found' recving below _ _ _ _ _ noPage =>
    rw [found] at found'
    cases found'
    exact ⟨recving, _, mem, .inr ⟨fun both => noPage both.2, rfl⟩, deliver_setIpcPerm_self k mem c t value⟩
  | value target found' recving noPage =>
    rw [found] at found'
    cases found'
    exact ⟨recving, _, k.mem, .inr ⟨fun both => noPage both.1, rfl⟩, deliver_setIpcPerm_self k k.mem c t value⟩
  | badEnv | notRecv | badArgs | inval | noTable => exact absurd success (by decide)

theorem delivered_deliver (k : Kernel) (c t : Nat) (mem : Memory) (value given : BitVec 32) :
    Delivered k c t value given ((((k.setMem mem).setIpcPerm t given).deliver c t value).envs t) := by
  have sender : (((k.setMem mem).setIpcPerm t given).envs c).envId = (k.envs c).envId := by
    rw [Kernel.setIpcPerm, Kernel.setEnv_envs]
    split
    · rename_i here
      rw [here]
      rfl
    · rfl
  unfold Kernel.deliver
  rw [Kernel.setEnv_envs, if_pos rfl]
  refine ⟨rfl, rfl, sender, ?_, rfl⟩
  exact congrArg Env.envIpcPerm (if_pos rfl)

theorem Delivered.of_setTf {given : BitVec 32} {env : Env} (here : Delivered (k.setTf c tf) c t value given env) :
    Delivered k c t value given env where
  envIpcRecving := here.envIpcRecving
  envIpcValue := here.envIpcValue
  envIpcFrom := by rw [here.envIpcFrom, Kernel.setTf_envId]
  envIpcPerm := here.envIpcPerm
  rax := here.rax

theorem Delivered.returns {given : BitVec 32} (here : Delivered k c t value given (k₁.envs t)) :
    Delivered k c t value given ((k₁.setTf c ((k₁.envs c).envTf.setRax (BitVec.ofInt 64 0))).envs t) := by
  by_cases own : t = c
  · subst own
    refine ⟨?_, ?_, ?_, ?_, ?_⟩
    · rw [Kernel.setTf_envIpcRecving, here.envIpcRecving]
    · rw [k₁.setTf_field t t _ Env.envIpcValue fun _ => rfl, here.envIpcValue]
    · rw [k₁.setTf_field t t _ Env.envIpcFrom fun _ => rfl, here.envIpcFrom]
    · rw [Kernel.setTf_envIpcPerm, here.envIpcPerm]
    · rw [Kernel.setTf_envTf]
      rfl
  · exact here.mail (k₁.setTf_mail _ own)

theorem Kernel.Sends.delivered {cr2 : Word} {key : Int} (sends : k.Sends c tf t value srcva perm k₁)
    (done : k.trap c tf cr2 key = .ok (k', cur')) : (k.envs t).envIpcRecving = true ∧
      ∃ given, (k.MapsPage c t srcva perm k₁ ∧ given = perm ∧ perm ≠ 0 ∨
          ¬ k.Transfers t srcva ∧ given = (k.envs t).envIpcPerm) ∧
        Delivered k c t value given (k'.envs t) := by
  obtain ⟨envid, made, found, returned⟩ := sends.call
  obtain ⟨code, k₂, returned', yields⟩ := Kernel.trap_finish sends.alive made rfl done
  rw [returned] at returned'
  cases returned'
  rw [← Kernel.envid2env_setTf k c tf] at found
  obtain ⟨recving, given, mem, maps, rfl⟩ := Kernel.sysIpcTrySend_given found returned rfl
  rw [mapsPage_setTf] at maps
  simp only [Kernel.Transfers, Kernel.setTf_envIpcRecving, Kernel.setTf_envIpcPerm,
    Kernel.setTf_envIpcDstva] at recving maps
  have here := delivered_deliver (k.setTf c tf) c t mem value given
  exact ⟨recving, given, maps, here.of_setTf.returns.mail (yields.mail t)⟩

-- What a trap of one environment does to the mail of another

structure MadeIn (k : Kernel) (t : Nat) (k' : Kernel) : Prop where
  envIpcRecving : (k'.envs t).envIpcRecving = false
  envIpcPerm : (k'.envs t).envIpcPerm = (k.envs t).envIpcPerm
  rax : (k'.envs t).envTf.regs.rax = 0
  issued : t < nenv → (Jos.issued k'.console t).length = (Jos.issued k.console t).length + 1

theorem Kernel.forked_made {parentId : BitVec 32} (allocated : k.envAlloc (some c) parentId = .ok (.ok t, k₁)) :
    MadeIn k t (k₁.forked c t) := by
  rcases envAlloc_ok allocated with ⟨code, impossible, -⟩ | ⟨e, p, mem, same, -, -, caller, rfl⟩
  · cases impossible
  cases same
  have slot := Kernel.setEnv_envs (k.setMem mem) t (newEnv (k.envs t) t p parentId) t
  rw [if_pos rfl] at slot
  have recving := congrArg Env.envIpcRecving slot
  have given := congrArg Env.envIpcPerm slot
  refine ⟨?_, ?_, ?_, ?_⟩
  · rw [forked, setEnv_envs, if_pos rfl]
    exact recving
  · rw [forked, setEnv_envs, if_pos rfl]
    exact given
  · rw [forked, setEnv_envs, if_pos rfl]
    rfl
  · intro inside
    change (Jos.issued (k.console ++ [.newEnv caller _]) t).length = _
    rw [issued_snoc_new, envx_nextEnvId _ inside, if_pos rfl]
    simp

theorem Returns.mail {call : Syscall} {code : Int} (returns : Returns k c call code k₁) :
    SameMail (k.envs t) (k₁.envs t) ∨ call = .exofork ∧ MadeIn k t k₁ ∨
      ∃ envid value srcva perm, call = .ipcTrySend envid value srcva perm ∧ code = 0 ∧
        k.envid2env c envid false = some t := by
  cases returns with
  | quiet | refused => exact .inl (.refl _)
  | create e k₁ allocated =>
    by_cases here : e = t
    · subst here
      exact .inr (.inl ⟨rfl, Kernel.forked_made allocated⟩)
    · left
      rw [Kernel.forked, Kernel.setEnv_other _ (Ne.symm here)]
      rcases Kernel.envAlloc_ok allocated with ⟨code, impossible, -⟩ | ⟨e', p, mem, same, -, -, caller, rfl⟩
      · cases impossible
      · cases same
        exact .of_eq (Kernel.setEnv_other (k.setMem mem) (Ne.symm here) _)
  | status envid e | upcall envid func e | mark envid e =>
    refine .inl (k.setEnv_mail ?_ t)
    exact ⟨rfl, rfl, rfl, rfl, rfl⟩
  | destroy envid e k₁ found other notRunning freed => exact .inl (Kernel.envFree_mail freed t)
  | deliver envid value srcva perm target mem given found recving page =>
    by_cases here : target = t
    · subst here
      exact .inr (.inr ⟨envid, value, srcva, perm, rfl, rfl, found⟩)
    · left
      rw [Kernel.deliver, Kernel.setEnv_other _ (Ne.symm here), Kernel.setIpcPerm, Kernel.setEnv_other _ (Ne.symm here)]
      exact .refl _

inductive Kernel.Arrives (k : Kernel) (c : Nat) (tf : Trapframe) (t : Nat) (k' : Kernel) : Prop
  | kept (same : SameMail (k.envs t) (k'.envs t))
  | made (forks : tf.call = some .exofork) (made : MadeIn k t k')
  | sent (value : BitVec 32) (srcva : Word) (perm : BitVec 32) (k₁ : Kernel)
      (sends : k.Sends c tf t value srcva perm k₁)

theorem MadeIn.mail {k₀ k₂ : Kernel} (made : MadeIn k t k₁) (perm : (k₀.envs t).envIpcPerm = (k.envs t).envIpcPerm)
    (log : k₀.console = k.console) (same : SameMail (k₁.envs t) (k₂.envs t)) (log' : k₂.console = k₁.console) :
    MadeIn k₀ t k₂ where
  envIpcRecving := same.envIpcRecving.trans made.envIpcRecving
  envIpcPerm := (same.envIpcPerm.trans made.envIpcPerm).trans perm.symm
  rax := same.rax.trans made.rax
  issued := by
    rw [log, log']
    exact made.issued

theorem Kernel.trap_arrives {cr2 : Word} {key : Int} (done : k.trap c tf cr2 key = .ok (k', cur')) (other : t ≠ c) :
    k.Arrives c tf t k' := by
  have saved := k.setTf_mail tf other
  have answers : ∀ {call : Syscall} {code : Int} {k₁ : Kernel}, (k.envs c).envStatus ≠ .dying →
      tf.call = some call → Returns (k.setTf c tf) c call code k₁ →
      Yields (k₁.setTf c ((k₁.envs c).envTf.setRax (BitVec.ofInt 64 code))) (some c) k' cur' →
      (∀ envid value srcva perm, call = .ipcTrySend envid value srcva perm →
        (k.setTf c tf).sysIpcTrySend c envid value srcva perm = .ok (code, k₁)) → k.Arrives c tf t k' := by
    intro call code k₁ alive made returns yields ran
    have after := (k₁.setTf_mail ((k₁.envs c).envTf.setRax (BitVec.ofInt 64 code)) other).trans (yields.mail t)
    rcases returns.mail with same | ⟨rfl, born⟩ | ⟨envid, value, srcva, perm, rfl, rfl, found⟩
    · exact .kept ((saved.trans same).trans after)
    · exact .made made (born.mail saved.envIpcPerm.symm rfl after yields.console)
    · rw [Kernel.envid2env_setTf] at found
      exact .sent value srcva perm k₁ ⟨alive, envid, made, found, ran envid value srcva perm rfl⟩
  have handled := Kernel.trap_handled done
  cases handled with
  | reaped k₁ dying freed yields => exact .kept ((Kernel.envFree_mail freed t).trans (yields.mail t))
  | redirected mem rsp alive fault upcall resumed exits =>
    exact .kept (((k.setMem mem).setTf_mail _ other).trans (exits.mail t))
  | handled k₁ cur alive effect yields =>
    cases effect with
    | answered call code k₁ made returns =>
      cases call with
      | ipcTrySend envid value srcva perm =>
        obtain ⟨code', k₂, ran, yields'⟩ := Kernel.trap_finish alive made rfl done
        refine answers alive made (Kernel.sysIpcTrySend_returns ran) yields' ?_
        rintro _ _ _ _ ⟨⟩
        exact ran
      | _ => exact answers alive made returns yields (by simp)
    | blocked dstva made => exact .kept ((saved.trans (.of_eq (Kernel.setEnv_other _ other _))).trans (yields.mail t))
    | yielded | ignored => exact .kept (saved.trans (yields.mail t))
    | ended mem k₁ rsp kept timer spurious freed =>
      have again := (k.setTf c tf).setTf_mail { ((k.setTf c tf).envs c).envTf with rsp := rsp } other
      exact .kept (((saved.trans again).trans (Kernel.envFree_mail freed t)).trans (yields.mail t))

-- The log only grows

theorem Returns.console {call : Syscall} {code : Int} (returns : Returns k c call code k₁) :
    ∃ notices, k₁.console = k.console ++ notices := by
  cases returns with
  | create e k₁ allocated =>
    rcases Kernel.envAlloc_ok allocated with ⟨code, impossible, -⟩ | ⟨e', p, mem, same, -, -, caller, rfl⟩
    · cases impossible
    · exact ⟨_, rfl⟩
  | destroy envid e k₁ found other notRunning freed =>
    obtain ⟨root, mem, -, -, rfl⟩ := Kernel.envFree_ok freed
    exact ⟨_, rfl⟩
  | _ => exact ⟨[], (List.append_nil _).symm⟩

theorem Kernel.trap_console {cr2 : Word} {key : Int} (done : k.trap c tf cr2 key = .ok (k', cur')) :
    ∃ notices, k'.console = k.console ++ notices := by
  have handled := Kernel.trap_handled done
  cases handled with
  | reaped k₁ dying freed yields =>
    obtain ⟨root, mem, -, -, rfl⟩ := Kernel.envFree_ok freed
    exact ⟨_, yields.console⟩
  | redirected mem rsp alive fault upcall resumed exits => exact ⟨[], exits.console.trans (List.append_nil _).symm⟩
  | handled k₁ cur alive effect yields =>
    rw [yields.console]
    cases effect with
    | answered call code k₁ made returns => exact returns.console
    | ended mem k₁ rsp kept timer spurious freed =>
      obtain ⟨root, mem, -, -, rfl⟩ := Kernel.envFree_ok freed
      exact ⟨_, rfl⟩
    | _ => exact ⟨[], (List.append_nil _).symm⟩

-- Blocked receivers

def Kernel.Waits (k : Kernel) : Prop :=
  ∀ e, e < nenv → (k.envs e).envIpcRecving = true →
    (k.envs e).envStatus = .notRunnable ∨ (k.envs e).envStatus = .free

/-- The environment that the trap makes runnable by `sys_env_set_status`. -/
def Kernel.wakes (k : Kernel) (c : Nat) (tf : Trapframe) : Option Nat :=
  match tf.call with
  | some (.envSetStatus envid status) =>
    if status = EnvStatus.runnable.code then k.envid2env c envid true else none
  | _ => none

theorem Kernel.wakes_eq {envid : BitVec 32} (made : tf.call = some (.envSetStatus envid EnvStatus.runnable.code)) :
    k.wakes c tf = k.envid2env c envid true := by
  rw [wakes, made]
  exact if_pos rfl

/-- The trap makes no environment runnable that waits for a message: not by `sys_env_set_status`, and not by
    an upcall that it gets itself. -/
structure Kernel.Unwoken (k : Kernel) (c : Nat) (tf : Trapframe) : Prop where
  status : ∀ e ∈ k.wakes c tf, (k.envs e).envIpcRecving = false
  upcall : tf.trapno = tPgflt → (k.envs c).envPgfaultUpcall ≠ 0 → (k.envs c).envIpcRecving = false

namespace Kernel.Waits

theorem setEnv (waits : k.Waits) {e : Nat} {env : Env} (own : e < nenv → env.envIpcRecving = true →
    env.envStatus = .notRunnable ∨ env.envStatus = .free) : (k.setEnv e env).Waits := by
  intro other inside recving
  rw [Kernel.setEnv_envs] at recving ⊢
  split at recving
  · rename_i here
    rw [if_pos here]
    exact own (here ▸ inside) recving
  · rename_i different
    rw [if_neg different]
    exact waits other inside recving

theorem setTf (waits : k.Waits) (e : Nat) (tf : Trapframe) : (k.setTf e tf).Waits := waits.setEnv (waits e)

theorem envFree (waits : k.Waits) {e : Nat} (freed : k.envFree cur e = .ok k') : k'.Waits := by
  obtain ⟨root, mem, -, -, rfl⟩ := Kernel.envFree_ok freed
  have cleared : ((k.say (.freeEnv (k.curId cur) (k.envs e).envId)).setMem mem).Waits := waits
  exact cleared.setEnv fun _ _ => .inr rfl

theorem envAlloc (waits : k.Waits) {parentId : BitVec 32} {result : Except Int Nat}
    (allocated : k.envAlloc cur parentId = .ok (result, k')) : k'.Waits := by
  rcases Kernel.envAlloc_ok allocated with
    ⟨code, rfl, ⟨-, rfl⟩ | ⟨mem, -, rfl⟩⟩ | ⟨e, p, mem, rfl, -, -, caller, rfl⟩
  · exact waits
  · exact waits
  · have before : (k.setMem mem).Waits := waits
    exact before.setEnv fun _ recving => absurd recving (by simp [Kernel.newEnv])

theorem returns (waits : k.Waits) {call : Syscall} {code : Int} (returns : Returns k c call code k₁)
    (unwoken : ∀ envid e, call = .envSetStatus envid EnvStatus.runnable.code →
      k.envid2env c envid true = some e → (k.envs e).envIpcRecving = false) : k₁.Waits := by
  cases returns with
  | quiet | refused => exact waits
  | create e k₁ allocated => exact (waits.envAlloc allocated).setEnv fun _ _ => .inl rfl
  | status envid e status found legal =>
    refine waits.setEnv fun small recving => ?_
    rcases legal with rfl | rfl
    · rw [unwoken envid e rfl found] at recving
      cases recving
    · exact .inl rfl
  | upcall envid func e found => exact waits.setEnv (waits e)
  | mark envid e found other running =>
    refine waits.setEnv fun small recving => ?_
    have status := waits e small recving
    rw [running] at status
    simp at status
  | destroy envid e k₁ found other notRunning freed => exact waits.envFree freed
  | deliver envid value srcva perm target mem given found recving page =>
    have before : ((k.setMem mem).setIpcPerm target given).Waits :=
      Kernel.Waits.setEnv (k := k.setMem mem) waits (waits target)
    exact before.setEnv (by simp)

theorem yields (waits : k.Waits) (yields : Yields k cur k' cur') (inside : ∀ e, cur = some e → e < nenv) :
    k'.Waits ∧ ∀ e, cur' = some e → (k'.envs e).envIpcRecving = false := by
  have chosen : ∀ e, cur' = some e → (k.envs e).envIpcRecving = false := by
    intro e here
    by_contra recving
    have status := waits e (yields.slot inside e here) (by simpa using recving)
    rcases yields.choice e here with runnable | ⟨-, running⟩
    · rw [runnable] at status
      simp at status
    · rw [running] at status
      simp at status
  refine ⟨?_, fun e here => (yields.mail e).envIpcRecving.trans (chosen e here)⟩
  intro e small recving
  rw [(yields.mail e).envIpcRecving] at recving
  have status := waits e small recving
  obtain ⟨runs, same⟩ := yields.fields e
  have unchosen : cur' ≠ some e := by
    intro here
    rw [chosen e here] at recving
    cases recving
  rw [same, k.leftStatus_other unchosen, Kernel.leftStatus_idle]
  · exact status
  · intro _ running
    rw [running] at status
    simp at status

theorem trap (waits : k.Waits) {cr2 : Word} {key : Int}
    (unwoken : (k.envs c).envStatus ≠ .dying → k.Unwoken c tf) (inside : c < nenv)
    (done : k.trap c tf cr2 key = .ok (k', cur')) :
    k'.Waits ∧ ∀ e, cur' = some e → e < nenv ∧ (k'.envs e).envIpcRecving = false := by
  have within : ∀ {cur : Option Nat}, cur = some c ∨ cur = none → ∀ e, cur = some e → e < nenv := by
    rintro cur (rfl | rfl) e ⟨⟩
    exact inside
  have exits : ∀ {k₁ : Kernel} {cur : Option Nat}, k₁.Waits → cur = some c ∨ cur = none → Yields k₁ cur k' cur' →
      k'.Waits ∧ ∀ e, cur' = some e → e < nenv ∧ (k'.envs e).envIpcRecving = false := by
    intro k₁ cur waits₁ own yields
    obtain ⟨after, chosen⟩ := waits₁.yields yields (within own)
    exact ⟨after, fun e here => ⟨yields.slot (within own) e here, chosen e here⟩⟩
  have handled := Kernel.trap_handled done
  cases handled with
  | reaped k₁ dying freed yields => exact exits (waits.envFree freed) (.inr rfl) yields
  | redirected mem rsp alive fault upcall resumed redirects =>
    have before : (k.redirected c tf mem rsp).Waits := Kernel.Waits.setTf (k := k.setMem mem) waits c _
    have idle := (unwoken alive).upcall fault upcall
    have own : (k'.envs c).envIpcRecving = false := by
      rw [(redirects.mail c).envIpcRecving, Kernel.redirected, Kernel.setTf_envIpcRecving]
      exact idle
    refine ⟨?_, by rintro e here; cases resumed.symm.trans here; exact ⟨inside, own⟩⟩
    intro e small recving
    have other : some c ≠ some e := by
      rintro ⟨⟩
      rw [own] at recving
      cases recving
    obtain ⟨runs, same⟩ := redirects.fields e
    rw [(redirects.mail e).envIpcRecving] at recving
    rw [same, Kernel.leftStatus_other _ other, Kernel.leftStatus_idle fun current => absurd current other]
    exact before e small recving
  | handled k₁ cur alive effect yields =>
    have saved := waits.setTf c tf
    cases effect with
    | answered call code k₁ made returns =>
      refine exits ((saved.returns returns ?_).setTf c _) (.inl rfl) yields
      intro envid e same found
      rw [same] at made
      rw [Kernel.envid2env_setTf] at found
      rw [Kernel.setTf_envIpcRecving]
      exact (unwoken alive).status e ((Kernel.wakes_eq made).trans found)
    | blocked dstva made => exact exits (saved.setEnv fun _ _ => .inl rfl) (.inl rfl) yields
    | yielded | ignored => exact exits saved (.inl rfl) yields
    | ended mem k₁ rsp kept timer spurious freed =>
      have before : (((k.setTf c tf).setTf c { ((k.setTf c tf).envs c).envTf with rsp := rsp }).setMem mem).Waits :=
        saved.setTf c _
      exact exits (before.envFree freed) (.inr rfl) yields

end Kernel.Waits

theorem Kernel.trap_ipcRecv {cr2 : Word} {key : Int} {dstva : Word} (alive : (k.envs c).envStatus ≠ .dying)
    (made : tf.call = some (.ipcRecv dstva)) (done : k.trap c tf cr2 key = .ok (k', cur')) :
    (dstva < utop ∧ dstva % BitVec.ofNat 64 pgSize ≠ 0 ∧ (k'.envs c).envIpcRecving = (k.envs c).envIpcRecving ∧
        (k'.envs c).envTf.regs.rax = BitVec.ofInt 64 (-eInval)) ∨
      (k'.envs c).envIpcRecving = true ∧ (k'.envs c).envStatus = .notRunnable ∧ cur' ≠ some c := by
  rcases Kernel.trap_syscall alive made done with called | ⟨code, k₁, called, yields⟩
  · change (k.setTf c tf).sysIpcRecv c dstva = _ at called
    unfold Kernel.sysIpcRecv at called
    split at called
    · cases called
    obtain ⟨k₂, cur₂, yielded, same⟩ := leave_ok.mp called
    cases same
    have yields := schedYield_yields yielded
    have blocked := Kernel.setEnv_envs (k.setTf c tf) c { (k.setTf c tf).envs c with
      envIpcRecving := true, envStatus := .notRunnable, envIpcDstva := dstva } c
    rw [if_pos rfl] at blocked
    have status := congrArg Env.envStatus blocked
    have unchosen : cur' ≠ some c := by
      intro here
      rcases yields.choice c here with runnable | ⟨-, running⟩
      · rw [runnable] at status
        cases status
      · rw [running] at status
        cases status
    obtain ⟨runs, same⟩ := yields.fields c
    refine .inr ⟨?_, ?_, unchosen⟩
    · rw [(yields.mail c).envIpcRecving]
      exact congrArg Env.envIpcRecving blocked
    · rw [same, Kernel.leftStatus_other _ unchosen, Kernel.leftStatus_idle]
      · exact status
      · intro _ running
        rw [running] at status
        cases status
  · change (k.setTf c tf).sysIpcRecv c dstva = _ at called
    unfold Kernel.sysIpcRecv at called
    split at called
    · rename_i bad
      cases called
      refine .inl ⟨bad.1, bad.2, ?_, ?_⟩
      · rw [(yields.mail c).envIpcRecving, Kernel.setTf_envIpcRecving, Kernel.setTf_envIpcRecving]
      · rw [(yields.mail c).rax, Kernel.setTf_envTf]
        rfl
    · obtain ⟨_, _, _, impossible⟩ := leave_ok.mp called
      cases impossible

end Jos
