import Mathlib.Data.List.Basic

namespace Transition

variable {State Label : Type*}

inductive Run (step : State → Label → State → Prop) : State → List Label → State → Prop
  | nil (state : State) : Run step state [] state
  | cons {before middle after : State} {label : Label} {labels : List Label}
      (first : step before label middle) (rest : Run step middle labels after) :
      Run step before (label :: labels) after

/-- The steps of `step` that meet `condition` in the state they start from. -/
def Guarded (condition : State → Label → Prop) (step : State → Label → State → Prop)
    (before : State) (label : Label) (after : State) : Prop :=
  condition before label ∧ step before label after

variable {step : State → Label → State → Prop}

theorem Run.guard {condition : State → Label → Prop} {first last : State} {labels : List Label}
    (run : Run step first labels last) (met : ∀ state, ∀ label ∈ labels, condition state label) :
    Run (Guarded condition step) first labels last := by
  induction run with
  | nil => exact .nil _
  | cons head _ ih =>
    exact .cons ⟨met _ _ (by simp), head⟩ (ih fun state label member => met state label (by simp [member]))

theorem Run.mono {step' : State → Label → State → Prop} {first last : State} {labels : List Label}
    (run : Run step first labels last) (wider : ∀ before label after, step before label after → step' before label after) :
    Run step' first labels last := by
  induction run with
  | nil => exact .nil _
  | cons head _ ih => exact .cons (wider _ _ _ head) ih

theorem Run.mono_of_invariant {invariant : State → Prop} {step' : State → Label → State → Prop} {first last : State}
    {labels : List Label} (run : Run step first labels last) (initial : invariant first)
    (preserved : ∀ before label after, invariant before → step before label after → invariant after)
    (wider : ∀ before label after, invariant before → step before label after → step' before label after) :
    Run step' first labels last := by
  induction run with
  | nil => exact .nil _
  | cons head _ ih => exact .cons (wider _ _ _ initial head) (ih (preserved _ _ _ initial head))

theorem Run.append {first middle last : State} {early late : List Label}
    (left : Run step first early middle) (right : Run step middle late last) :
    Run step first (early ++ late) last := by
  induction left with
  | nil => exact right
  | cons head _ ih => exact .cons head (ih right)

theorem Run.split {first last : State} {early late : List Label} (run : Run step first (early ++ late) last) :
    ∃ middle, Run step first early middle ∧ Run step middle late last := by
  induction early generalizing first with
  | nil => exact ⟨first, .nil first, run⟩
  | cons label early ih =>
    cases run with
    | cons head rest =>
      obtain ⟨middle, left, right⟩ := ih rest
      exact ⟨middle, .cons head left, right⟩

theorem Run.snoc {first middle last : State} {labels : List Label} {label : Label}
    (run : Run step first labels middle) (final : step middle label last) :
    Run step first (labels ++ [label]) last :=
  run.append (.cons final (.nil last))

theorem Run.invariant {invariant : State → Prop} {first last : State} {labels : List Label}
    (run : Run step first labels last)
    (preserved : ∀ before label after, invariant before → step before label after → invariant after)
    (initial : invariant first) : invariant last := by
  induction run with
  | nil => exact initial
  | cons head _ ih => exact ih (preserved _ _ _ initial head)

section Counting

def Once (condition : State → Label → Prop) (step : State → Label → State → Prop) (first : State)
    (labels : List Label) (last : State) : Prop :=
  ∃ early label late before after, labels = early ++ label :: late ∧
    Run (Guarded (fun state label => ¬ condition state label) step) first early before ∧
    condition before label ∧ step before label after ∧
    Run (Guarded (fun state label => ¬ condition state label) step) after late last

variable {condition : State → Label → Prop} {first last : State} {labels : List Label}

/-- Steps that meet `condition` need a flag that nothing else sets, so without it there are none. -/
theorem Run.never (run : Run step first labels last) (flag : State → Bool)
    (spends : ∀ before label after, step before label after → condition before label →
      flag before = true ∧ flag after = false)
    (keeps : ∀ before label after, step before label after → ¬ condition before label → flag after = flag before)
    (clear : flag first = false) : Run (Guarded (fun state label => ¬ condition state label) step) first labels last := by
  induction run with
  | nil => exact .nil _
  | @cons before _ _ label _ head _ ih =>
    have unmet : ¬ condition before label := by
      intro met
      have set := (spends _ _ _ head met).1
      rw [clear] at set
      cases set
    exact .cons ⟨unmet, head⟩ (ih ((keeps _ _ _ head unmet).trans clear))

theorem Run.once (run : Run step first labels last) (flag : State → Bool)
    (spends : ∀ before label after, step before label after → condition before label →
      flag before = true ∧ flag after = false)
    (keeps : ∀ before label after, step before label after → ¬ condition before label → flag after = flag before)
    (set : flag first = true) (clear : flag last = false) : Once condition step first labels last := by
  induction run with
  | nil =>
    rw [set] at clear
    cases clear
  | @cons before middle after label labels head rest ih =>
    by_cases met : condition before label
    · exact ⟨[], label, labels, before, middle, rfl, .nil _, met, head,
        rest.never flag spends keeps (spends _ _ _ head met).2⟩
    · obtain ⟨early, sent, late, state, state', rfl, quiet, here, moved, others⟩ :=
        ih ((keeps _ _ _ head met).trans set) clear
      exact ⟨label :: early, sent, late, state, state', rfl, .cons ⟨met, head⟩ quiet, here, moved, others⟩

/-- Either no step meets `condition`, or what such a step reaches, and the others keep, is reached. -/
theorem Run.avoids_or {goal : State → Prop} (run : Run step first labels last)
    (reaches : ∀ before label after, step before label after → condition before label → goal after)
    (keeps : ∀ before label after, goal before → step before label after → goal after) :
    Run (Guarded (fun state label => ¬ condition state label) step) first labels last ∨ goal last := by
  induction run with
  | nil state => exact .inl (.nil state)
  | @cons before middle after label labels head rest ih =>
    by_cases met : condition before label
    · exact .inr (rest.invariant keeps (reaches _ _ _ head met))
    · rcases ih with avoids | reached
      · exact .inl (.cons ⟨met, head⟩ avoids)
      · exact .inr reached

theorem Once.mono {step' : State → Label → State → Prop} (once : Once condition step first labels last)
    (wider : ∀ before label after, step before label after → step' before label after) :
    Once condition step' first labels last := by
  obtain ⟨early, label, late, before, after, split, quiet, met, moved, quiet'⟩ := once
  have guarded : ∀ before label after, Guarded (fun state label => ¬ condition state label) step before label after →
      Guarded (fun state label => ¬ condition state label) step' before label after :=
    fun _ _ _ step => ⟨step.1, wider _ _ _ step.2⟩
  exact ⟨early, label, late, before, after, split, quiet.mono guarded, met, wider _ _ _ moved, quiet'.mono guarded⟩

theorem Run.climbs {measure : State → Nat} (run : Run step first labels last)
    (grows : ∀ before label after, step before label after → measure before ≤ measure after) :
    measure first ≤ measure last := by
  induction run with
  | nil => exact Nat.le_refl _
  | cons head _ ih => exact Nat.le_trans (grows _ _ _ head) ih

/-- A run along which a measure can only grow, and which ends no higher, keeps it in every step. -/
theorem Run.constant {measure : State → Nat} (run : Run step first labels last)
    (grows : ∀ before label after, step before label after → measure before ≤ measure after)
    (same : measure last ≤ measure first) :
    Run (fun before label after => step before label after ∧ measure after = measure before) first labels last := by
  induction run with
  | nil => exact .nil _
  | cons head rest ih =>
    have up := grows _ _ _ head
    have rise := rest.climbs grows
    exact .cons ⟨head, by omega⟩ (ih (by omega))

end Counting

section Execution

def exec (next : State → Label → Option State) : State → List Label → Option State
  | first, [] => some first
  | first, label :: labels => (next first label).bind fun middle => exec next middle labels

theorem Run.of_exec {next : State → Label → Option State} {first last : State} {labels : List Label}
    (sound : ∀ before label after, next before label = some after → step before label after)
    (done : exec next first labels = some last) : Run step first labels last := by
  induction labels generalizing first with
  | nil =>
    cases done
    exact .nil _
  | cons label labels ih =>
    obtain ⟨middle, head, rest⟩ := Option.bind_eq_some_iff.mp done
    exact .cons (sound _ _ _ head) (ih rest)

def nextIf (condition : State → Label → Prop) [∀ state label, Decidable (condition state label)]
    (next : State → Label → Option State) (state : State) (label : Label) : Option State :=
  if condition state label then next state label else none

theorem guarded_of_nextIf {condition : State → Label → Prop} [∀ state label, Decidable (condition state label)]
    {next : State → Label → Option State} (sound : ∀ before label after, next before label = some after →
      step before label after) {before after : State} {label : Label}
    (moved : nextIf condition next before label = some after) : Guarded condition step before label after := by
  unfold nextIf at moved
  split at moved
  · rename_i met
    exact ⟨met, sound _ _ _ moved⟩
  · cases moved

end Execution

section Simulation

variable {Abstract Observation : Type*}

/-- The observations of a run: what `observe` keeps of its labels. -/
def observations (observe : Label → Option Observation) (labels : List Label) : List Observation :=
  labels.filterMap observe

/-- Forward simulation. Each concrete step is matched by an abstract step with the same observation,
    or by none if it shows nothing; so every concrete run has an abstract run that observes the same. -/
theorem Run.simulation {abstractStep : Abstract → Observation → Abstract → Prop}
    {observe : Label → Option Observation} {relation : State → Abstract → Prop}
    (matched : ∀ before label after view, relation before view → step before label after →
      match observe label with
      | none => relation after view
      | some seen => ∃ view', abstractStep view seen view' ∧ relation after view')
    {first last : State} {labels : List Label} (run : Run step first labels last)
    {view : Abstract} (initial : relation first view) :
    ∃ view', Run abstractStep view (observations observe labels) view' ∧ relation last view' := by
  induction run generalizing view with
  | nil => exact ⟨view, .nil _, initial⟩
  | @cons before middle after label labels head _ ih =>
    have here := matched _ _ _ _ initial head
    unfold observations
    cases shown : observe label with
    | none =>
      rw [shown] at here
      rw [List.filterMap_cons_none shown]
      exact ih here
    | some seen =>
      rw [shown] at here
      obtain ⟨next, moved, related⟩ := here
      rw [List.filterMap_cons_some shown]
      obtain ⟨view', rest, final⟩ := ih related
      exact ⟨view', .cons moved rest, final⟩

end Simulation

end Transition
