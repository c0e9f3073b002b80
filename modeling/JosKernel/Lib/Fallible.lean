namespace Fallible

variable {ε α β : Type}

theorem bind_ok {first : Except ε α} {next : α → Except ε β} {result : β} :
    (first >>= next) = .ok result ↔ ∃ value, first = .ok value ∧ next value = .ok result := by
  cases first with
  | error stop => simp [bind, Except.bind]
  | ok value => simp [bind, Except.bind]

theorem bind_of_ok {first : Except ε α} {next : α → Except ε β} {value : α}
    (succeeded : first = .ok value) : (first >>= next) = next value := by
  rw [succeeded]
  rfl

theorem map_ok {first : Except ε α} {f : α → β} {result : β} :
    first.map f = .ok result ↔ ∃ value, first = .ok value ∧ f value = result := by
  cases first with
  | error stop => simp [Except.map]
  | ok value => simp [Except.map]

theorem toOption_eq_some {result : Except ε α} {value : α} : result.toOption = some value ↔ result = .ok value := by
  cases result with
  | error stop => simp [Except.toOption]
  | ok given => simp [Except.toOption]

/-- What the body of a loop keeps wherever it succeeds holds after a loop that succeeds. -/
theorem foldlM_keeps (invariant : β → Prop) {body : β → α → Except ε β} {items : List α} {first last : β}
    (step : ∀ state item next, item ∈ items → invariant state → body state item = .ok next → invariant next)
    (initial : invariant first) (done : items.foldlM body first = .ok last) : invariant last := by
  induction items generalizing first with
  | nil =>
    cases done
    exact initial
  | cons item items ih =>
    rw [List.foldlM_cons] at done
    obtain ⟨next, head, rest⟩ := bind_ok.mp done
    exact ih (fun state other after member => step state other after (List.mem_cons_of_mem _ member))
      (step first item next (by simp) initial head) rest

/-- A loop that settles something for each item, and unsettles nothing, has settled it for all of them. -/
theorem foldlM_each {invariant : β → Prop} {body : β → α → Except ε β} {items : List α} {first : β}
    (settled : α → β → Prop)
    (step : ∀ state item, item ∈ items → invariant state →
      ∃ next, body state item = .ok next ∧ invariant next ∧ settled item next)
    (kept : ∀ state item next other, body state item = .ok next → settled other state → settled other next)
    (initial : invariant first) :
    ∃ last, items.foldlM body first = .ok last ∧ invariant last ∧ ∀ item ∈ items, settled item last := by
  induction items generalizing first with
  | nil => exact ⟨first, rfl, initial, by simp⟩
  | cons item items ih =>
    obtain ⟨next, done, holds, here⟩ := step first item (by simp) initial
    obtain ⟨last, rest, final, others⟩ :=
      ih (fun state other member => step state other (List.mem_cons_of_mem _ member)) holds
    refine ⟨last, by rw [List.foldlM_cons, bind_of_ok done, rest], final, ?_⟩
    intro other member
    rcases List.mem_cons.mp member with rfl | member
    · exact foldlM_keeps (settled other) (fun state _ after _ before ran => kept state _ after _ ran before) here rest
    · exact others other member

inductive Related {γ : Type} (related : α → γ → Prop) : Except ε α → Except ε γ → Prop
  | ok {left : α} {right : γ} (results : related left right) : Related related (.ok left) (.ok right)
  | error (stop : ε) : Related related (.error stop) (.error stop)

namespace Related

variable {γ δ : Type} {related : α → γ → Prop} {related' : β → δ → Prop}

theorem bind {first : Except ε α} {first' : Except ε γ} {next : α → Except ε β} {next' : γ → Except ε δ}
    (alike : Related related first first')
    (rest : ∀ value value', related value value' → Related related' (next value) (next' value')) :
    Related related' (first >>= next) (first' >>= next') := by
  cases alike with
  | ok results => exact rest _ _ results
  | error stop => exact .error stop

theorem foldlM {items : List β} {body : α → β → Except ε α} {body' : γ → β → Except ε γ} {first : α} {first' : γ}
    (step : ∀ state state' item, item ∈ items → related state state' →
      Related related (body state item) (body' state' item))
    (initial : related first first') : Related related (items.foldlM body first) (items.foldlM body' first') := by
  induction items generalizing first first' with
  | nil => exact .ok initial
  | cons item items ih =>
    rw [List.foldlM_cons, List.foldlM_cons]
    refine (step first first' item (by simp) initial).bind ?_
    intro state state' results
    exact ih (fun before before' other member => step before before' other (List.mem_cons_of_mem _ member)) results

theorem mono {wider : α → γ → Prop} {left : Except ε α} {right : Except ε γ} (alike : Related related left right)
    (results : ∀ value value', related value value' → wider value value') : Related wider left right := by
  cases alike with
  | ok here => exact .ok (results _ _ here)
  | error stop => exact .error stop

end Related

end Fallible
