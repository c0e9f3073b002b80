namespace Tokens

variable {α : Type} {sep : α → Bool}

/-- The maximal runs of items that are no separators, with their positions, in a list that begins at `start` and may
    go on with a run that has begun. -/
def runs (sep : α → Bool) : (start : Nat) → (inside : Bool) → List α → List (Nat × List α)
  | _, _, [] => []
  | start, inside, item :: items =>
    if sep item then runs sep (start + 1) false items
    else if inside then runs sep (start + 1) true items
    else (start, (item :: items).takeWhile fun item => !sep item) :: runs sep (start + 1) true items

variable {start : Nat} {items : List α}

theorem runs_separators (items : List α) : runs sep start false items =
    runs sep (start + (items.takeWhile sep).length) false (items.dropWhile sep) := by
  induction items generalizing start with
  | nil => rfl
  | cons item items ih =>
    by_cases separates : sep item
    · rw [runs, if_pos separates, List.takeWhile_cons_of_pos separates, List.dropWhile_cons_of_pos separates, ih,
        List.length_cons, Nat.add_right_comm, Nat.add_assoc]
    · rw [List.takeWhile_cons_of_neg separates, List.dropWhile_cons_of_neg separates]
      rfl

theorem runs_inside (items : List α) : runs sep start true items =
    runs sep (start + (items.takeWhile fun item => !sep item).length) false (items.dropWhile fun item => !sep item) := by
  induction items generalizing start with
  | nil => rfl
  | cons item items ih =>
    by_cases separates : sep item = true
    · rw [List.takeWhile_cons_of_neg (by simp [separates]), List.dropWhile_cons_of_neg (by simp [separates]), runs, runs,
        if_pos separates, List.length_nil, if_pos separates, Nat.add_zero]
    · rw [runs, if_neg separates, if_pos rfl, List.takeWhile_cons_of_pos (by simp [separates]),
        List.dropWhile_cons_of_pos (by simp [separates]), ih, List.length_cons, Nat.add_right_comm, Nat.add_assoc]

theorem drop_takeWhile (items : List α) : items.drop (items.takeWhile sep).length = items.dropWhile sep := by
  have parts := @List.takeWhile_append_dropWhile _ sep items
  have rest := congrArg (List.drop (items.takeWhile sep).length) parts
  rw [List.drop_left] at rest
  exact rest.symm

theorem runs_cons {item : α} (inside : ¬ sep item) : runs sep start false (item :: items) =
    (start, (item :: items).takeWhile fun item => !sep item) ::
      runs sep (start + ((item :: items).takeWhile fun item => !sep item).length) false
        ((item :: items).dropWhile fun item => !sep item) := by
  have rest := @runs_inside _ sep start (item :: items)
  rw [runs, if_neg inside, if_pos rfl] at rest
  rw [runs, if_neg inside, if_neg Bool.false_ne_true, rest]

end Tokens
