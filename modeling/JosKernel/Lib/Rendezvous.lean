import JosKernel.Lib.Transition

namespace Transition

variable {State Label Observation Abstract : Type*}

inductive Observed (step : State → Label → State → Prop) (observe : State → Label → Observation → Prop) :
    State → List Label → List Observation → State → Prop
  | nil (state : State) : Observed step observe state [] [] state
  | cons {before middle after : State} {label : Label} {labels : List Label} {seen : Observation}
      {observations : List Observation} (shown : observe before label seen) (first : step before label middle)
      (rest : Observed step observe middle labels observations after) :
      Observed step observe before (label :: labels) (seen :: observations) after

variable {step : State → Label → State → Prop} {observe : State → Label → Observation → Prop}
  {abstractStep : Abstract → Observation → Abstract → Prop}

theorem Observed.mono {step' : State → Label → State → Prop} {first last : State} {labels : List Label}
    {observations : List Observation} (observed : Observed step observe first labels observations last)
    (wider : ∀ before label after, step before label after → step' before label after) :
    Observed step' observe first labels observations last := by
  induction observed with
  | nil state => exact .nil state
  | cons shown head _ ih => exact .cons shown (wider _ _ _ head) ih

/-- Where every step is one of an abstract system, which is told what is observed, so is every run. -/
theorem Run.refines {invariant : State → Prop} (view : State → Abstract)
    (matched : ∀ before label after, invariant before → step before label after → invariant after ∧
      ∃ seen, observe before label seen ∧ abstractStep (view before) seen (view after))
    {first last : State} {labels : List Label} (run : Run step first labels last) (initial : invariant first) :
    ∃ observations, Observed step observe first labels observations last ∧
      Run abstractStep (view first) observations (view last) := by
  induction run with
  | nil state => exact ⟨[], .nil state, .nil _⟩
  | cons head _ ih =>
    obtain ⟨kept, seen, shown, moved⟩ := matched _ _ _ initial head
    obtain ⟨observations, rest, abstractRest⟩ := ih kept
    exact ⟨seen :: observations, .cons shown head rest, .cons moved abstractRest⟩

end Transition

namespace Rendezvous

variable {Message : Type*}

inductive Action (Message : Type*)
  | receive
  | send (message : Message)
  | quiet

namespace Action

def message : Action Message → Option Message
  | send message => some message
  | _ => none

def isReceive : Action Message → Bool
  | receive => true
  | _ => false

end Action

structure Mailbox (Message : Type*) where
  waiting : Bool
  last : Message

inductive Step : Mailbox Message → Action Message → Mailbox Message → Prop
  | receive (last : Message) : Step ⟨false, last⟩ .receive ⟨true, last⟩
  | send (last message : Message) : Step ⟨true, last⟩ (.send message) ⟨false, message⟩
  | quiet (mailbox : Mailbox Message) : Step mailbox .quiet mailbox

def sends (actions : List (Action Message)) : List Message := actions.filterMap Action.message

def receives (actions : List (Action Message)) : Nat := actions.countP Action.isReceive

variable {before after : Mailbox Message} {actions : List (Action Message)}

/-- Every message is for a receive of its own, and at most one receive has got none yet. -/
theorem Step.balance (run : Transition.Run Step before actions after) :
    before.waiting.toNat + receives actions = (sends actions).length + after.waiting.toNat := by
  induction run with
  | nil => simp [receives, sends]
  | cons head _ ih =>
    cases head with
    | receive last =>
      simp only [receives, sends, List.countP_cons, Action.isReceive, List.filterMap_cons, Action.message] at ih ⊢
      simp only [Bool.toNat_true, Bool.toNat_false, if_true] at ih ⊢
      omega
    | send last message =>
      simp only [receives, sends, List.countP_cons, Action.isReceive, List.filterMap_cons, Action.message] at ih ⊢
      simp only [Bool.toNat_true, Bool.toNat_false, List.length_cons] at ih ⊢
      simp only [Bool.false_eq_true, if_false]
      omega
    | quiet =>
      simp only [receives, sends, List.countP_cons, Action.isReceive, List.filterMap_cons, Action.message] at ih ⊢
      simpa using ih

theorem Step.last_eq (run : Transition.Run Step before actions after) :
    after.last = (sends actions).getLast?.getD before.last := by
  induction run with
  | nil => rfl
  | cons head _ ih =>
    rw [ih]
    cases head with
    | receive | quiet => rfl
    | send last message =>
      simp only [sends, List.filterMap_cons, Action.message, List.getLast?_cons, Option.getD_some]

theorem Step.receive_between {early middle late : List (Action Message)} {first second : Message}
    (run : Transition.Run Step before (early ++ .send first :: (middle ++ .send second :: late)) after) :
    0 < receives middle := by
  obtain ⟨state, -, rest⟩ := run.split
  cases rest with
  | cons head rest =>
    cases head with
    | send last message =>
      have tail : Transition.Run Step ⟨false, first⟩ (middle ++ .send second :: late) after := rest
      obtain ⟨state', inner, rest⟩ := tail.split
      cases rest with
      | cons head rest =>
        cases head with
        | send last' message' =>
          have balance := Step.balance inner
          simp only [Bool.toNat_true, Bool.toNat_false] at balance
          omega

end Rendezvous
