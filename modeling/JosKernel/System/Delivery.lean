import JosKernel.Lib.Rendezvous
import JosKernel.System.Receiving
import JosKernel.System.Sound

namespace Jos

open Rendezvous

abbrev Letter := BitVec 32 × BitVec 32

def Env.mailbox (env : Env) : Mailbox Letter := ⟨env.envIpcRecving, env.envIpcFrom, env.envIpcValue⟩

theorem SameMail.mailbox {before after : Env} (same : SameMail before after) : after.mailbox = before.mailbox := by
  unfold Env.mailbox
  rw [same.envIpcRecving, same.envIpcFrom, same.envIpcValue]

variable {k k' k₁ : Kernel} {c t : Nat} {cur cur' : Option Nat} {tf : Trapframe}

theorem Kernel.setTf_mailbox (k : Kernel) (c : Nat) (tf : Trapframe) (t : Nat) :
    ((k.setTf c tf).envs t).mailbox = (k.envs t).mailbox := k.setTf_field c t tf Env.mailbox fun _ => rfl

structure Kernel.Receives (k : Kernel) (c : Nat) (tf : Trapframe) : Prop where
  alive : (k.envs c).envStatus ≠ .dying
  call : ∃ dstva, tf.call = some (.ipcRecv dstva) ∧ ¬ (dstva < utop ∧ dstva % BitVec.ofNat 64 pgSize ≠ 0)

/-- The return of a system call leaves the mailbox of its caller alone, which is not waiting. -/
theorem Returns.mailbox {call : Syscall} {code : Int} (returns : Returns k c call code k₁)
    (idle : (k.envs c).envIpcRecving = false) (table : EnvTable k) (used : (k.envs c).envStatus ≠ .free) :
    (k₁.envs c).mailbox = (k.envs c).mailbox := by
  have kept : ∀ {e : Nat} {env : Env}, SameMail (k.envs e) env →
      ((k.setEnv e env).envs c).mailbox = (k.envs c).mailbox :=
    fun same => (k.setEnv_mail same c).mailbox
  cases returns with
  | quiet | refused => rfl
  | create e k₁ allocated =>
    rcases Kernel.envAlloc_ok allocated with ⟨code, impossible, -⟩ | ⟨e', p, mem, same, head, -, caller, rfl⟩
    · cases impossible
    cases same
    have other : c ≠ e := by
      rintro rfl
      exact used (table.head_free head).2
    rw [Kernel.forked, Kernel.setEnv_other _ other]
    exact congrArg Env.mailbox (Kernel.setEnv_other (k.setMem mem) other _)
  | status envid e status => exact kept ⟨rfl, rfl, rfl, rfl, rfl⟩
  | upcall envid func e => exact kept ⟨rfl, rfl, rfl, rfl, rfl⟩
  | mark envid e => exact kept ⟨rfl, rfl, rfl, rfl, rfl⟩
  | destroy envid e k₁ found other notRunning freed => exact (Kernel.envFree_mail freed c).mailbox
  | deliver envid value srcva perm target mem given found recving page =>
    have other : c ≠ target := by
      rintro rfl
      rw [idle] at recving
      cases recving
    rw [Kernel.deliver, Kernel.setEnv_other _ other, Kernel.setIpcPerm, Kernel.setEnv_other _ other]
    rfl

theorem Kernel.trap_recv_mailbox {cr2 : Word} {key : Int} {dstva : Word} (alive : (k.envs c).envStatus ≠ .dying)
    (made : tf.call = some (.ipcRecv dstva)) (done : k.trap c tf cr2 key = .ok (k', cur')) :
    k.Receives c tf ∧ (k'.envs c).mailbox = ⟨true, (k.envs c).mailbox.last⟩ ∨
      ¬ k.Receives c tf ∧ (k'.envs c).mailbox = (k.envs c).mailbox := by
  have saved := k.setTf_mailbox c tf c
  rcases Kernel.trap_syscall alive made done with called | ⟨code, k₁, called, yields⟩
  · change (k.setTf c tf).sysIpcRecv c dstva = _ at called
    unfold Kernel.sysIpcRecv at called
    split at called
    · cases called
    · rename_i good
      obtain ⟨k₂, cur₂, yielded, same⟩ := leave_ok.mp called
      cases same
      refine .inl ⟨⟨alive, dstva, made, good⟩, ?_⟩
      rw [((schedYield_yields yielded).mail c).mailbox, Kernel.setEnv_envs, if_pos rfl, ← saved]
      rfl
  · change (k.setTf c tf).sysIpcRecv c dstva = _ at called
    unfold Kernel.sysIpcRecv at called
    split at called
    · rename_i bad
      cases called
      refine .inr ⟨?_, ?_⟩
      · rintro ⟨-, dstva', made', good⟩
        rw [made] at made'
        cases made'
        exact good bad
      · rw [(yields.mail c).mailbox, Kernel.setTf_mailbox, saved]
    · obtain ⟨k₂, cur₂, -, same⟩ := leave_ok.mp called
      cases same

/-- What a trap does to the mailbox of the environment that traps, when it is not waiting. -/
theorem Kernel.trap_mailbox {cr2 : Word} {key : Int} (done : k.trap c tf cr2 key = .ok (k', cur'))
    (idle : (k.envs c).envIpcRecving = false) (table : EnvTable k) (used : (k.envs c).envStatus ≠ .free) :
    k.Receives c tf ∧ (k'.envs c).mailbox = ⟨true, (k.envs c).mailbox.last⟩ ∨
      ¬ k.Receives c tf ∧ (k'.envs c).mailbox = (k.envs c).mailbox := by
  by_cases recv : ∃ dstva, tf.call = some (.ipcRecv dstva) ∧ (k.envs c).envStatus ≠ .dying
  · obtain ⟨dstva, made, alive⟩ := recv
    exact Kernel.trap_recv_mailbox alive made done
  have saved := k.setTf_mailbox c tf c
  have touches : Touches (fun other => other = c) k (k.setTf c tf) := .setTf c tf
  refine .inr ⟨fun receives => ?_, ?_⟩
  · obtain ⟨alive, dstva, made, -⟩ := receives
    exact recv ⟨dstva, made, alive⟩
  have handled := Kernel.trap_handled done
  cases handled with
  | reaped k₁ dying freed yields => rw [(yields.mail c).mailbox, (Kernel.envFree_mail freed c).mailbox]
  | redirected mem rsp alive fault upcall resumed exits =>
    rw [(exits.mail c).mailbox, Kernel.redirected, Kernel.setTf_mailbox]
    rfl
  | handled k₁ cur alive effect yields =>
    rw [(yields.mail c).mailbox]
    cases effect with
    | answered call code k₁ made returns =>
      rw [Kernel.setTf_mailbox, returns.mailbox, saved]
      · rw [Kernel.setTf_envIpcRecving, idle]
      · exact table.touches touches
      · exact mt (touches.slot c).free.mp used
    | blocked dstva made => exact absurd ⟨dstva, made, alive⟩ recv
    | yielded | ignored => exact saved
    | ended mem k₁ rsp kept timer spurious freed =>
      rw [(Kernel.envFree_mail freed c).mailbox, Kernel.setMem_envs, Kernel.setTf_mailbox, saved]

namespace System

variable {C : Type} {s s' : System C} {event : Event C}

def mailbox (s : System C) (t : Nat) : Mailbox Letter := (s.kernel.envs t).mailbox

/-- The event is a `sys_ipc_recv` of the environment `t` that is not refused. -/
def Receives (s : System C) (t : Nat) : Event C → Prop
  | .trap c tf _ _ => (s.cpus c).cpuEnv = some t ∧ s.kernel.Receives t tf
  | _ => False

/-- The event is a successful send of the letter to the environment `t`. -/
def SendsLetter (s : System C) (t : Nat) (letter : Letter) : Event C → Prop
  | .trap c tf _ _ => ∃ e srcva perm k₁, (s.cpus c).cpuEnv = some e ∧ s.kernel.Sends e tf t letter.2 srcva perm k₁ ∧
      letter.1 = (s.kernel.envs e).envId
  | _ => False

inductive Mails (t : Nat) (s : System C) (event : Event C) : Action Letter → Prop
  | receive (receives : s.Receives t event) : Mails t s event .receive
  | send (letter : Letter) (sends : s.SendsLetter t letter event) : Mails t s event (.send letter)
  | quiet (busy : ¬ s.Receives t event) (silent : ∀ letter, ¬ s.SendsLetter t letter event) : Mails t s event .quiet

structure Ordered (s : System C) : Prop where
  exclusive : s.Exclusive
  waits : s.Waits

theorem Ordered.idle (ordered : s.Ordered) {c : C} {e : Nat} (current : (s.cpus c).cpuEnv = some e) :
    (s.kernel.envs e).envIpcRecving = false := by
  by_contra recving
  obtain ⟨inside, status⟩ := ordered.exclusive.current c e current
  rcases ordered.waits.waits e inside (by simpa using recving) with waiting | free
  · rw [waiting] at status
    simp at status
  · rw [free] at status
    simp at status

variable [DecidableEq C]

theorem SendsLetter.recving {t : Nat} {letter : Letter} (sends : s.SendsLetter t letter event)
    (step : Step s event s') :
    (s.kernel.envs t).envIpcRecving = true ∧ s'.mailbox t = ⟨false, letter⟩ := by
  cases step with
  | trap c tf cr2 key e k cur running user entry =>
    obtain ⟨e', srcva, perm, k₁, running', sends, sender⟩ := sends
    rw [running] at running'
    cases running'
    obtain ⟨recving, given, -, delivered⟩ := sends.delivered entry
    refine ⟨recving, ?_⟩
    change (k.envs t).mailbox = _
    unfold Env.mailbox
    rw [delivered.envIpcRecving, delivered.envIpcFrom, delivered.envIpcValue, ← sender]
  | _ => exact sends.elim

theorem Ordered.step (ordered : s.Ordered) (step : Transition.Guarded Regular Step s event s') : s'.Ordered :=
  ⟨ordered.exclusive.step ⟨step.1.1.1, step.2⟩, (ordered.waits.step ⟨step.1.2, step.2⟩).1⟩

theorem Ordered.mails (ordered : s.Ordered) {t : Nat} (inside : t < nenv) (step : Step s event s')
    (same : (issued s'.kernel.console t).length = (issued s.kernel.console t).length) :
    ∃ action, Mails t s event action ∧ Rendezvous.Step (s.mailbox t) action (s'.mailbox t) := by
  by_cases own : s.TrapOf t event
  · cases step with
    | trap c tf cr2 key e k cur running user entry =>
      have here : e = t := Option.some.inj (running.symm.trans own)
      subst here
      have idle := ordered.idle running
      have whole : s.mailbox e = ⟨false, (s.mailbox e).last⟩ := by
        rw [mailbox, Env.mailbox, idle]
      have used : (s.kernel.envs e).envStatus ≠ .free := by
        rcases (ordered.exclusive.current c e running).2 with status | status <;> simp [status]
      rcases Kernel.trap_mailbox entry idle ordered.exclusive.table used with ⟨receives, after⟩ | ⟨busy, after⟩
      · refine ⟨.receive, .receive ⟨running, receives⟩, ?_⟩
        rw [whole, show (s.leave c k cur).mailbox e = _ from after]
        exact .receive _
      · refine ⟨.quiet, .quiet (fun receives => busy receives.2) ?_, ?_⟩
        · rintro letter ⟨e', srcva, perm, k₁, running', sends, -⟩
          rw [running] at running'
          cases running'
          rw [(sends.delivered entry).1] at idle
          cases idle
        · rw [show (s.leave c k cur).mailbox e = _ from after]
          exact .quiet _
    | _ => exact own.elim
  · have busy : ¬ s.Receives t event := by
      intro receives
      cases event with
      | trap c tf cr2 key => exact own receives.1
      | _ => exact receives
    cases step.arrives own with
    | kept mail =>
      have unchanged : s'.mailbox t = s.mailbox t := mail.mailbox
      refine ⟨.quiet, .quiet busy fun letter sends => ?_, ?_⟩
      · obtain ⟨recving, after⟩ := sends.recving step
        rw [unchanged] at after
        have clear := congrArg Mailbox.waiting after
        rw [show (s.mailbox t).waiting = _ from recving] at clear
        cases clear
      · rw [unchanged]
        exact .quiet _
    | made made =>
      have more := made.issued inside
      omega
    | sent sends =>
      cases event with
      | trap c tf cr2 key =>
        obtain ⟨e, value, srcva, perm, k₁, running, sends⟩ := sends
        have letter : s.SendsLetter t ((s.kernel.envs e).envId, value) (.trap c tf cr2 key) :=
          ⟨e, srcva, perm, k₁, running, sends, rfl⟩
        obtain ⟨recving, after⟩ := letter.recving step
        refine ⟨.send _, .send _ letter, ?_⟩
        have whole : s.mailbox t = ⟨true, (s.mailbox t).last⟩ := by
          rw [mailbox, Env.mailbox, recving]
        rw [whole, after]
        exact .send _ _
      | _ => exact sends.elim

/-- Messages are delivered exactly once. What happens to an environment between two uses of its slot is a run of
    its mailbox: each message that is accepted answers a call of `sys_ipc_recv` of its own, at most one call has got
    none yet, and the message is what env_ipc_from and env_ipc_value tell until the next one. -/
theorem ipc_exactly_once {s₀ s s' : System C} {events later : List (Event C)} (booted : s₀.Booted)
    (reached : Transition.Run (Transition.Guarded Regular Step) s₀ events s)
    (run : Transition.Run (Transition.Guarded Regular Step) s later s') {t : Nat} (inside : t < nenv)
    (same : (issued s'.kernel.console t).length = (issued s.kernel.console t).length) :
    ∃ actions, Transition.Observed Step (Mails t) s later actions s' ∧
      Transition.Run Rendezvous.Step (s.mailbox t) actions (s'.mailbox t) ∧
      (s.kernel.envs t).envIpcRecving.toNat + receives actions =
        (sends actions).length + (s'.kernel.envs t).envIpcRecving.toNat ∧
      ((s'.kernel.envs t).envIpcFrom, (s'.kernel.envs t).envIpcValue) =
        (sends actions).getLast?.getD ((s.kernel.envs t).envIpcFrom, (s.kernel.envs t).envIpcValue) ∧
      ∀ early first middle second late, actions = early ++ .send first :: (middle ++ .send second :: late) →
        0 < receives middle := by
  have initial : s₀.Ordered := ⟨booted.exclusive, booted.waits⟩
  have ordered : s.Ordered := reached.invariant (fun _ _ _ ordered step => ordered.step step) initial
  have constant := run.constant (fun _ _ _ step => step.2.issued t) (Nat.le_of_eq same)
  obtain ⟨actions, shown, moved⟩ := constant.refines (fun s => s.mailbox t) (fun before event after ordered step =>
    ⟨ordered.step step.1, ordered.mails inside step.1.2 step.2⟩) ordered
  refine ⟨actions, shown.mono fun _ _ _ step => step.1.2, moved, Rendezvous.Step.balance moved,
    Rendezvous.Step.last_eq moved, ?_⟩
  intro early first middle second late split
  subst split
  exact Rendezvous.Step.receive_between moved

def sendTwice : List (Event Bool) :=
  [.trap false (syscallTf 12 utop 0 0 0 0) 0 0, .trap false (sendTf 42 utop 0) 0 0, .trap false (sendTf 43 utop 0) 0 0]

theorem ipc_exactly_once_child : ∃ s s' : System Bool, ∃ actions,
    Transition.Observed Step (Mails 1) s sendTwice actions s' ∧ (sends actions).getLast? = some (0x1000, 42) ∧
    receives actions = (sends actions).length := by
  have result : smallBoot.bind (fun k =>
      (Transition.exec (Transition.nextIf Regular System.next) (idle k) forkAndYield).bind
      fun s => (Transition.exec (Transition.nextIf Regular System.next) s sendTwice).map fun s' =>
        ((s.kernel.envs 1).envIpcRecving, (s'.kernel.envs 1).envIpcRecving,
          [((s.kernel.envs 1).envIpcFrom, (s.kernel.envs 1).envIpcValue),
            ((s'.kernel.envs 1).envIpcFrom, (s'.kernel.envs 1).envIpcValue)],
          [(issued s.kernel.console 1).length, (issued s'.kernel.console 1).length])) =
      some (false, false, [(0, 0), (0x1000, 42)], [1, 1]) := by
    rw [smallBoot_eq]
    decide +kernel
  obtain ⟨k, booted, rest⟩ := Option.bind_eq_some_iff.mp result
  obtain ⟨s, ran, rest⟩ := Option.bind_eq_some_iff.mp rest
  obtain ⟨s', ran', shown⟩ := Option.map_eq_some_iff.mp rest
  simp only [Prod.mk.injEq, List.cons.injEq, and_true] at shown
  obtain ⟨before, after, ⟨⟨sender, value⟩, sender', value'⟩, made, made'⟩ := shown
  have sound : ∀ (before : System Bool) label after, Transition.nextIf Regular System.next before label = some after →
      Transition.Guarded Regular Step before label after :=
    fun _ _ _ => Transition.guarded_of_nextIf fun _ _ _ => step_of_next
  have start : (idle k : System Bool).Booted := ⟨smallMachine, _, _, k, smallBoot_run booted, rfl⟩
  obtain ⟨actions, observed, -, balance, last, -⟩ := ipc_exactly_once start (.of_exec sound ran) (.of_exec sound ran')
    (show 1 < nenv by decide) (made'.trans made.symm)
  refine ⟨s, s', actions, observed, ?_, ?_⟩
  · rw [sender, value, sender', value'] at last
    cases sent : (sends actions).getLast? with
    | none =>
      rw [sent] at last
      exact absurd last (by decide)
    | some letter =>
      rw [sent] at last
      exact congrArg some last.symm
  · rw [before, after] at balance
    simpa using balance

end System

end Jos
