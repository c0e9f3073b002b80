import JosKernel.System.Delivery
import JosKernel.User.Primes

namespace Jos

open Rendezvous (Mailbox)

-- lib/ipc.c

/-- `ipc_send` without a page is told to try again as long as the environment does not wait. -/
theorem Kernel.sysIpcTrySend_value {k : Kernel} {cur t : Nat} {envid : BitVec 32}
    (found : k.envid2env cur envid false = some t) (value perm : BitVec 32) :
    k.sysIpcTrySend cur envid value (-1) perm =
      .ok (if (k.envs t).envIpcRecving then (0, k.deliver cur t value) else (-eIpcNotRecv, k)) := by
  have nothing : ¬ (-1 : Word) < utop := by decide
  rw [Kernel.sysIpcTrySend, found]
  cases recving : (k.envs t).envIpcRecving with
  | false => simp only [if_true, recving, Bool.false_eq_true, if_false]
  | true => simp only [recving, Bool.true_eq_false, if_false, if_neg nothing, if_true]

namespace Primes

-- user/primes.c

/-- Whether it is in `ipc_recv`. -/
def Proc.Waits : Proc → Prop
  | .top | .recv _ => True
  | _ => False

/-- The number that `ipc_recv` has returned last, while it is still of use. -/
def Proc.got : Proc → Option Nat
  | .top | .recv _ => none
  | .first p | .forking p | .panicked p => some p
  | .filter _ i | .send _ i => some i

/-- What the kernel keeps about messages to the environment agrees with where it is. -/
structure Proc.Stands (proc : Proc) (mailbox : Mailbox Letter) : Prop where
  waits : mailbox.waiting = true → proc.Waits
  got : ∀ n, proc.got = some n → mailbox.last.2 = BitVec.ofNat 32 n

variable {proc proc' : Proc} {procs procs' : List Proc} {mailbox mailbox' : Mailbox Letter} {letter : Letter}
  {out : Option Nat}

theorem Proc.Waits.got (waits : proc.Waits) : proc.got = none := by
  cases proc <;> first | rfl | exact waits.elim

theorem Proc.Stands.receive (waits : proc.Waits) (mailbox : Mailbox Letter) : proc.Stands mailbox :=
  ⟨fun _ => waits, fun n got => absurd (waits.got.symm.trans got) (by simp)⟩

theorem Proc.Stands.quiet (stands : proc.Stands mailbox) (step : Rendezvous.Step mailbox .quiet mailbox') :
    proc.Stands mailbox' := by
  cases step
  exact stands

theorem Proc.Stands.send (stands : proc.Stands mailbox) (step : Rendezvous.Step mailbox (.send letter) mailbox')
    {value : Nat} (number : letter.2 = BitVec.ofNat 32 value) (procs : List Proc) :
    ∃ proc', Deliver value (proc :: procs) (proc' :: procs) ∧ proc'.Stands mailbox' := by
  cases step with
  | send last =>
    have waits := stands.waits rfl
    cases proc with
    | top => exact ⟨_, .top procs, fun waiting => absurd waiting (by simp), fun n got => by cases got; exact number⟩
    | recv p =>
      exact ⟨_, .recv p procs, fun waiting => absurd waiting (by simp), fun n got => by cases got; exact number⟩
    | _ => exact waits.elim

/-- What an environment does by itself, or as it sends, does not need its mailbox. -/
theorem Moves.stands (moves : Moves (proc :: procs) out (proc' :: procs')) (stands : proc.Stands mailbox) :
    proc'.Stands mailbox := by
  cases moves with
  | print p => exact ⟨fun waiting => (stands.waits waiting).elim, stands.got⟩
  | fork p | drop p | send p => exact .receive (show Proc.Waits (.recv p) from trivial) mailbox
  | panic p => exact ⟨fun waiting => (stands.waits waiting).elim, stands.got⟩
  | keep p i => exact ⟨fun waiting => (stands.waits waiting).elim, stands.got⟩
  | right => exact stands

variable {C : Type} [DecidableEq C] {s s' : System C} {event : Event C} {es : List Nat} {e t : Nat}

/-- The environments `es` stand where those of the chain do. -/
def Stand (s : System C) (es : List Nat) (procs : List Proc) : Prop :=
  List.Forall₂ (fun e proc => proc.Stands (s.mailbox e)) es procs

/-- The environment calls `sys_ipc_recv` only where the program does. -/
def Follows (s : System C) (event : Event C) (e : Nat) (proc : Proc) : Prop := s.Receives e event → proc.Waits

omit [DecidableEq C] in
theorem sendsLetter_unique {letter' : Letter} (sends : s.SendsLetter e letter event)
    (sends' : s.SendsLetter t letter' event) : e = t := by
  cases event with
  | trap c tf cr2 key =>
    obtain ⟨a, srcva, perm, k₁, running, sends, -⟩ := sends
    obtain ⟨b, srcva', perm', k₂, running', sends', -⟩ := sends'
    cases running.symm.trans running'
    obtain ⟨envid, call, found, -⟩ := sends.call
    obtain ⟨envid', call', found', -⟩ := sends'.call
    have one := call.symm.trans call'
    simp only [Option.some.injEq, Syscall.ipcTrySend.injEq] at one
    rw [← one.1, found] at found'
    exact Option.some.inj found'
  | _ => exact sends.elim

theorem stands_sent (step : System.Step s event s') (stands : proc.Stands (s.mailbox e))
    (sends : s.SendsLetter e letter event) {value : Nat} (number : letter.2 = BitVec.ofNat 32 value) (procs : List Proc) :
    ∃ proc', Deliver value (proc :: procs) (proc' :: procs) ∧ proc'.Stands (s'.mailbox e) := by
  obtain ⟨recving, after⟩ := sends.recving step
  have before : s.mailbox e = ⟨true, (s.mailbox e).last⟩ := by
    rw [System.mailbox, Env.mailbox, recving]
  rw [before] at stands
  rw [after]
  exact stands.send (.send _ letter) number procs

def Reused (s s' : System C) (e : Nat) : Prop :=
  (issued s'.kernel.console e).length ≠ (issued s.kernel.console e).length

section

variable (ordered : s.Ordered) (step : System.Step s event s')

include ordered step

theorem stands_kept (inside : e < nenv) (same : ¬ Reused s s' e) (stands : proc.Stands (s.mailbox e))
    (follows : Follows s event e proc) (silent : ∀ letter, ¬ s.SendsLetter e letter event) : proc.Stands (s'.mailbox e) := by
  obtain ⟨action, mails, moved⟩ := ordered.mails inside step (not_not.mp same)
  cases mails with
  | receive receives => exact .receive (follows receives) _
  | send letter sends => exact absurd sends (silent letter)
  | quiet => exact stands.quiet moved

theorem stand_kept (inside : ∀ e ∈ es, e < nenv) (same : ∀ e ∈ es, ¬ Reused s s' e) (stand : Stand s es procs)
    (follows : List.Forall₂ (Follows s event) es procs)
    (silent : ∀ e ∈ es, ∀ letter, ¬ s.SendsLetter e letter event) : Stand s' es procs := by
  induction stand with
  | nil => exact .nil
  | cons stands _ ih =>
    cases follows with
    | cons first follows =>
      refine .cons (stands_kept ordered step (inside _ (by simp)) (same _ (by simp)) stands first
        (silent _ (by simp))) ?_
      exact ih (fun e member => inside e (List.mem_cons_of_mem _ member))
        (fun e member => same e (List.mem_cons_of_mem _ member)) follows
        fun e member => silent e (List.mem_cons_of_mem _ member)

/-- A step of the machine is none of the chain, or passes a number to one of its environments as a message step does. -/
theorem stand_step (inside : ∀ e ∈ es, e < nenv) (same : ∀ e ∈ es, ¬ Reused s s' e) (distinct : es.Nodup)
    (stand : Stand s es procs) (follows : List.Forall₂ (Follows s event) es procs) :
    Stand s' es procs ∨ ∃ i e letter, es[i]? = some e ∧ s.SendsLetter e letter event ∧
      ∀ value, letter.2 = BitVec.ofNat 32 value →
        ∃ late, Deliver value (procs.drop i) late ∧ Stand s' es (procs.take i ++ late) := by
  induction stand with
  | nil => exact .inl .nil
  | @cons e proc es procs stands stand ih =>
    obtain ⟨absent, distinct⟩ := List.nodup_cons.mp distinct
    have later : ∀ e ∈ es, e < nenv := fun e member => inside e (List.mem_cons_of_mem _ member)
    have unchanged : ∀ e ∈ es, ¬ Reused s s' e := fun e member => same e (List.mem_cons_of_mem _ member)
    cases follows with
    | cons first follows =>
      by_cases sent : ∃ letter, s.SendsLetter e letter event
      · obtain ⟨letter, sends⟩ := sent
        have silent : ∀ t ∈ es, ∀ letter, ¬ s.SendsLetter t letter event := by
          intro t member letter' sends'
          rw [sendsLetter_unique sends sends'] at absent
          exact absent member
        have rest := stand_kept ordered step later unchanged stand follows silent
        refine .inr ⟨0, e, letter, rfl, sends, fun value number => ?_⟩
        obtain ⟨proc', delivered, stands'⟩ := stands_sent step stands sends number procs
        exact ⟨_, delivered, .cons stands' rest⟩
      · have kept := stands_kept ordered step (inside e (by simp)) (same e (by simp)) stands first
          fun letter sends => sent ⟨letter, sends⟩
        rcases ih later unchanged distinct follows with rest | ⟨i, t, letter, found, sends, passes⟩
        · exact .inl (.cons kept rest)
        · refine .inr ⟨i + 1, t, letter, found, sends, fun value number => ?_⟩
          obtain ⟨late, delivered, rest⟩ := passes value number
          exact ⟨late, delivered, .cons kept rest⟩

end

end Primes

end Jos
