import Mathlib.Data.List.Basic

/-! Programs that hand what they emit to a callback, piece by piece. -/

namespace Emission

variable {ε χ α β σ : Type}

abbrev Printer (ε σ α : Type) := StateT σ (Except ε) α

def put (callback : χ → σ → σ) (ch : χ) : Printer ε σ Unit := modify (callback ch)

def feed (callback : χ → σ → σ) (state : σ) (out : List χ) : σ := out.foldl (fun state ch => callback ch state) state

@[simp] theorem feed_nil (callback : χ → σ → σ) (state : σ) : feed callback state [] = state := rfl

@[simp] theorem feed_cons (callback : χ → σ → σ) (state : σ) (ch : χ) (out : List χ) :
    feed callback state (ch :: out) = feed callback (callback ch state) out := rfl

@[simp] theorem feed_append (callback : χ → σ → σ) (state : σ) (out out' : List χ) :
    feed callback state (out ++ out') = feed callback (feed callback state out) out' := List.foldl_append

def putAll (callback : χ → σ → σ) (out : List χ) : Printer ε σ Unit := modify fun state => feed callback state out

@[simp] theorem putAll_nil (callback : χ → σ → σ) : (putAll callback [] : Printer ε σ Unit) = pure () := rfl

theorem putAll_cons (callback : χ → σ → σ) (ch : χ) (out : List χ) :
    (putAll callback (ch :: out) : Printer ε σ Unit) = (do put callback ch; putAll callback out) := rfl

theorem putAll_append (callback : χ → σ → σ) (out out' : List χ) :
    (putAll callback (out ++ out') : Printer ε σ Unit) = (do putAll callback out; putAll callback out') := by
  funext state
  change (Except.ok ((), feed callback state (out ++ out')) : Except ε (Unit × σ)) =
    .ok ((), feed callback (feed callback state out) out')
  rw [feed_append]

abbrev Program (ε χ α : Type) := (σ : Type) → (χ → σ → σ) → Printer ε σ α

/-- A program that ends as `result` says, after it has emitted what `result` says. -/
def Emits (print : Program ε χ α) (result : Except ε (α × List χ)) : Prop :=
  ∀ (σ : Type) (callback : χ → σ → σ) (state : σ),
    (print σ callback).run state = result.map fun done => (done.1, feed callback state done.2)

def collect (ch : χ) (out : List χ) : List χ := out ++ [ch]

theorem feed_collect (out out' : List χ) : feed collect out out' = out ++ out' := by
  induction out' generalizing out with
  | nil => simp
  | cons ch out' ih => simp [ih, collect]

def output (print : Program ε χ α) : Except ε (α × List χ) := (print (List χ) collect).run []

theorem Emits.output {print : Program ε χ α} {result : Except ε (α × List χ)} (emits : Emits print result) :
    Emission.output print = result := by
  rw [Emission.output, emits (List χ) collect []]
  cases result with
  | error stop => rfl
  | ok done =>
    change Except.ok (done.1, feed collect [] done.2) = _
    rw [feed_collect]
    rfl

theorem Emits.pure (value : α) : Emits (fun σ _ => (Pure.pure value : Printer ε σ α)) (.ok (value, ([] : List χ))) :=
  fun _ _ _ => rfl

theorem Emits.throw (stop : ε) :
    Emits (fun σ _ => (MonadExcept.throw stop : Printer ε σ α)) (.error stop : Except ε (α × List χ)) :=
  fun _ _ _ => rfl

theorem Emits.put (ch : χ) : Emits (fun σ callback => (Emission.put callback ch : Printer ε σ Unit)) (.ok ((), [ch])) :=
  fun _ _ _ => rfl

theorem Emits.putAll (out : List χ) :
    Emits (fun σ callback => (Emission.putAll callback out : Printer ε σ Unit)) (.ok ((), out)) :=
  fun _ _ _ => rfl

theorem Emits.bind {first : Program ε χ α} {next : α → Program ε χ β} {result : Except ε (α × List χ)}
    {rest : α → Except ε (β × List χ)} (emits : Emits first result) (emits' : ∀ value, Emits (next value) (rest value)) :
    Emits (fun σ callback => first σ callback >>= fun value => next value σ callback)
      (result.bind fun done => (rest done.1).map fun last => (last.1, done.2 ++ last.2)) := by
  intro σ callback state
  change ((first σ callback).run state >>= fun done => (next done.1 σ callback).run done.2) = _
  rw [emits]
  cases result with
  | error stop => rfl
  | ok done =>
    change (next done.1 σ callback).run (feed callback state done.2) = _
    rw [emits']
    change _ = ((rest done.1).map fun last => (last.1, done.2 ++ last.2)).map _
    cases rest done.1 with
    | error stop => rfl
    | ok last =>
      change Except.ok (last.1, feed callback (feed callback state done.2) last.2) =
        .ok (last.1, feed callback state (done.2 ++ last.2))
      rw [feed_append]

def Uniform (print : Program ε χ α) : Prop := Emits print (output print)

theorem Emits.uniform {print : Program ε χ α} {result : Except ε (α × List χ)} (emits : Emits print result) :
    Uniform print := by
  rw [Uniform, emits.output]
  exact emits

theorem Uniform.bind {first : Program ε χ α} {next : α → Program ε χ β} (uniform : Uniform first)
    (uniform' : ∀ value, Uniform (next value)) :
    Uniform fun σ callback => first σ callback >>= fun value => next value σ callback :=
  (Emits.bind uniform uniform').uniform

theorem Uniform.output_bind {first : Program ε χ α} {next : α → Program ε χ β} (uniform : Uniform first)
    (uniform' : ∀ value, Uniform (next value)) {result : β} {out : List χ}
    (done : output (fun σ callback => first σ callback >>= fun value => next value σ callback) = .ok (result, out)) :
    ∃ value out₁ out₂, output first = .ok (value, out₁) ∧ output (next value) = .ok (result, out₂) ∧
      out = out₁ ++ out₂ := by
  rw [(Emits.bind uniform uniform').output] at done
  cases head : output first with
  | error stop =>
    rw [head] at done
    cases done
  | ok here =>
    rw [head] at done
    change ((output (next here.1)).map fun last => (last.1, here.2 ++ last.2)) = _ at done
    cases tail : output (next here.1) with
    | error stop =>
      rw [tail] at done
      cases done
    | ok last =>
      rw [tail] at done
      cases done
      exact ⟨here.1, here.2, last.2, rfl, tail, rfl⟩

theorem Uniform.output_after {first : Program ε χ α} {next : α → Program ε χ β} (uniform : Uniform first)
    (uniform' : ∀ value, Uniform (next value)) {value : α} (silent : output first = .ok (value, [])) :
    output (fun σ callback => first σ callback >>= fun value => next value σ callback) = output (next value) := by
  rw [(Emits.bind uniform uniform').output, silent]
  change ((output (next value)).map fun last => (last.1, [] ++ last.2)) = _
  cases output (next value) <;> rfl

theorem output_discard (print : Program ε χ α) :
    output (fun σ callback => discard (print σ callback)) = (output print).map fun done => ((), done.2) := by
  rw [Emission.output, Emission.output]
  change ((print (List χ) collect).run [] >>= fun done => pure ((), done.2)) = _
  cases (print (List χ) collect).run [] <;> rfl

theorem Uniform.lift (value : Except ε α) : Uniform fun σ (_ : χ → σ → σ) => (liftM value : Printer ε σ α) := by
  cases value with
  | error stop => exact (Emits.throw stop).uniform
  | ok value => exact (Emits.pure value).uniform

theorem output_lift {value : Except ε α} {result : α} {out : List χ}
    (done : output (fun σ (_ : χ → σ → σ) => (liftM value : Printer ε σ α)) = .ok (result, out)) : value = .ok result := by
  cases value with
  | error stop => cases done
  | ok value =>
    cases done
    rfl

def Loud (print : Program ε χ α) : Prop := ∀ value out, output print = .ok (value, out) → out ≠ []

theorem Loud.put (ch : χ) : Loud fun σ callback => (Emission.put callback ch : Printer ε σ Unit) := by
  intro value out done
  rw [(Emits.put ch).output] at done
  cases done
  exact List.cons_ne_nil _ _

theorem Loud.putAll {chars : List χ} (some : chars ≠ []) :
    Loud fun σ callback => (Emission.putAll callback chars : Printer ε σ Unit) := by
  intro value out done
  rw [(Emits.putAll chars).output] at done
  cases done
  exact some

section Sequence

variable {first : Program ε χ α} {next : α → Program ε χ β} (uniform : Uniform first)
  (uniform' : ∀ value, Uniform (next value))

include uniform uniform'

theorem Loud.bind (loud : Loud first) : Loud fun σ callback => first σ callback >>= fun value => next value σ callback := by
  intro result out done
  obtain ⟨value, out₁, out₂, head, -, rfl⟩ := uniform.output_bind uniform' done
  exact fun none => loud value out₁ head (List.append_eq_nil_iff.mp none).1

theorem Loud.after (loud : ∀ value out, output first = .ok (value, out) → Loud (next value)) :
    Loud fun σ callback => first σ callback >>= fun value => next value σ callback := by
  intro result out done
  obtain ⟨value, out₁, out₂, head, tail, rfl⟩ := uniform.output_bind uniform' done
  exact fun none => loud value out₁ head result out₂ tail (List.append_eq_nil_iff.mp none).2

end Sequence

end Emission
