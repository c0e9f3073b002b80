namespace Editor

variable {α β γ : Type} {step : β → α → β} {stuck : β → α → Prop} {state : β}

def Avoids (step : β → α → β) (stuck : β → α → Prop) : β → List α → Prop
  | _, [] => True
  | state, item :: items => ¬ stuck state item ∧ Avoids step stuck (step state item) items

theorem avoids_or_first (step : β → α → β) (stuck : β → α → Prop) (state : β) (items : List α) :
    Avoids step stuck state items ∨ ∃ front item back,
    items = front ++ item :: back ∧ Avoids step stuck state front ∧ stuck (front.foldl step state) item := by
  induction items generalizing state with
  | nil => exact .inl trivial
  | cons item items ih =>
    by_cases here : stuck state item
    · exact .inr ⟨[], item, items, rfl, trivial, here⟩
    · rcases @ih (step state item) with free | ⟨front, other, back, rfl, free, there⟩
      · exact .inl ⟨here, free⟩
      · exact .inr ⟨item :: front, other, back, rfl, ⟨here, free⟩, there⟩

/-- Where nothing gets stuck, another fold that goes along with each step goes along with the whole. -/
theorem Avoids.simulates {step' : γ → α → γ} {state' : γ} {items : List α} (related : β → γ → Prop)
    (alike : ∀ state state' item, related state state' → ¬ stuck state item →
      related (step state item) (step' state' item))
    (free : Avoids step stuck state items) (initial : related state state') :
    related (items.foldl step state) (items.foldl step' state') := by
  induction items generalizing state state' with
  | nil => exact initial
  | cons item items ih => exact ih free.2 (alike state state' item initial free.1)

inductive Key (α : Type)
  | erase
  | enter (item : α)
  | ignore

def press (room : Nat) (line : List α) : Key α → List α
  | .erase => line.dropLast
  | .enter item => if line.length < room then line ++ [item] else line
  | .ignore => line

def edit (room : Nat) (keys : List (Key α)) : List α := keys.foldl (press room) []

theorem press_length {room : Nat} {short long : List α} (key : Key α)
    (close : short.length ≤ long.length ∧ long.length ≤ short.length + 1) :
    (press room short key).length ≤ (press (room + 1) long key).length ∧
      (press (room + 1) long key).length ≤ (press room short key).length + 1 := by
  cases key with
  | erase =>
    rw [press, press, List.length_dropLast, List.length_dropLast]
    omega
  | enter item =>
    rw [press, press]
    split
    · rw [if_pos (by omega), List.length_append, List.length_append, List.length_singleton]
      omega
    · split
      · rw [List.length_append, List.length_singleton]
        omega
      · exact close
  | ignore => exact close

theorem edit_length (room : Nat) (keys : List (Key α)) : (edit (room + 1) keys).length ≤ (edit room keys).length + 1 := by
  have close : ∀ short long : List α, short.length ≤ long.length ∧ long.length ≤ short.length + 1 →
      (keys.foldl (press (room + 1)) long).length ≤ (keys.foldl (press room) short).length + 1 := by
    induction keys with
    | nil => exact fun _ _ close => close.2
    | cons key keys ih => exact fun short long close => ih _ _ (press_length key close)
  exact close [] [] ⟨Nat.le_refl _, Nat.zero_le _⟩

theorem mem_press {room : Nat} {line : List α} {key : Key α} {item : α} (member : item ∈ press room line key) :
    item ∈ line ∨ key = .enter item := by
  cases key with
  | erase => exact .inl ((List.dropLast_sublist line).mem member)
  | enter other =>
    rw [press] at member
    split at member
    · rcases List.mem_append.mp member with old | new
      · exact .inl old
      · rw [List.mem_singleton.mp new]
        exact .inr rfl
    · exact .inl member
  | ignore => exact .inl member

theorem mem_presses {room : Nat} {line : List α} {keys : List (Key α)} {item : α}
    (member : item ∈ keys.foldl (press room) line) : item ∈ line ∨ .enter item ∈ keys := by
  induction keys generalizing line with
  | nil => exact .inl member
  | cons key keys ih =>
    rcases ih member with early | late
    · rcases mem_press early with old | rfl
      · exact .inl old
      · exact .inr (List.mem_cons_self ..)
    · exact .inr (List.mem_cons_of_mem _ late)

theorem mem_edit {room : Nat} {keys : List (Key α)} {item : α} (member : item ∈ edit room keys) : .enter item ∈ keys := by
  rcases mem_presses member with absent | entered
  · cases absent
  · exact entered

end Editor
