import Mathlib.Data.List.Induction

namespace Radix

variable {Node Index Root : Type*}

def descend (child : Node → Index → Option Node) : Node → List Index → Option Node
  | node, [] => some node
  | node, index :: path => (child node index).bind fun next => descend child next path

@[simp] theorem descend_nil (child : Node → Index → Option Node) (node : Node) :
    descend child node [] = some node := rfl

@[simp] theorem descend_cons (child : Node → Index → Option Node) (node : Node) (index : Index)
    (path : List Index) :
    descend child node (index :: path) =
      (child node index).bind fun next => descend child next path := rfl

theorem descend_append (child : Node → Index → Option Node) (node : Node) (before after : List Index) :
    descend child node (before ++ after) =
      (descend child node before).bind fun last => descend child last after := by
  induction before generalizing node with
  | nil => rfl
  | cons first rest ih =>
    simp only [List.cons_append, descend_cons]
    cases child node first with
    | none => rfl
    | some next => exact ih next

theorem descend_snoc (child : Node → Index → Option Node) (node : Node) (path : List Index)
    (index : Index) :
    descend child node (path ++ [index]) =
      (descend child node path).bind fun last => child last index := by
  rw [descend_append]
  cases descend child node path with
  | none => rfl
  | some last => simp

theorem descend_congr {child child' : Node → Index → Option Node} {node : Node} {path : List Index}
    (agree : ∀ before index after, path = before ++ index :: after →
      ∀ last, descend child node before = some last → child' last index = child last index) :
    descend child' node path = descend child node path := by
  induction path generalizing node with
  | nil => rfl
  | cons first rest ih =>
    have here : child' node first = child node first := agree [] first rest rfl node rfl
    simp only [descend_cons, here]
    cases found : child node first with
    | none => rfl
    | some next =>
      apply ih
      intro before index after split last reached
      apply agree (first :: before) index after (by simp [split]) last
      simp [found, reached]

theorem descend_mono {child child' : Node → Index → Option Node}
    (fewer : ∀ node index next, child' node index = some next → child node index = some next)
    {node last : Node} {path : List Index} (reached : descend child' node path = some last) :
    descend child node path = some last := by
  induction path generalizing node with
  | nil => exact reached
  | cons first rest ih =>
    obtain ⟨next, found, tail⟩ := Option.bind_eq_some_iff.mp reached
    rw [descend_cons, fewer node first next found]
    exact ih tail

def missing (child : Node → Index → Option Node) : Node → List Index → Nat
  | _, [] => 0
  | node, index :: path =>
    match child node index with
    | some next => missing child next path
    | none => path.length + 1

theorem missing_cons_some {child : Node → Index → Option Node} {node next : Node} {index : Index}
    (found : child node index = some next) (path : List Index) :
    missing child node (index :: path) = missing child next path := by
  rw [missing, found]

theorem missing_cons_none {child : Node → Index → Option Node} {node : Node} {index : Index}
    (absent : child node index = none) (path : List Index) :
    missing child node (index :: path) = path.length + 1 := by
  rw [missing, absent]

theorem missing_bare {child : Node → Index → Option Node} {node : Node} (bare : ∀ i, child node i = none)
    (path : List Index) : missing child node path = path.length := by
  cases path with
  | nil => rfl
  | cons index path => exact missing_cons_none (bare index) path

section Graft

/-- A node without children is hung under a slot of a node that is reached along one path only.
    `inside` names the paths that are part of the tree. -/
structure Grafts (child child' : Node → Index → Option Node) (inside : List Index → Prop)
    (root table page : Node) (path : List Index) (index : Index) : Prop where
  reached : descend child root path = some table
  alone : ∀ p, inside p → descend child root p = some table → p = path
  vacant : child table index = none
  unreached : ∀ p, inside p → descend child root p ≠ some page
  here : child' table index = some page
  bare : ∀ i, child' page i = none
  same : ∀ node i, node ≠ page → ¬ (node = table ∧ i = index) → child' node i = child node i

variable [DecidableEq Index] {child child' : Node → Index → Option Node} {inside : List Index → Prop}
  {root table page : Node} {path : List Index} {index : Index}

theorem Grafts.descend_eq (grafts : Grafts child child' inside root table page path index)
    (closed : ∀ p i, inside (p ++ [i]) → inside p) {p : List Index} (within : inside p) :
    descend child' root p = if p = path ++ [index] then some page else descend child root p := by
  induction p using List.reverseRecOn with
  | nil => simp
  | append_singleton p i ih =>
    have step := ih (closed p i within)
    rw [descend_snoc, descend_snoc, step]
    by_cases last : p = path ++ [index]
    · have differ : ¬ p ++ [i] = path ++ [index] := by
        intro same
        have lengths := congrArg List.length same
        simp [last] at lengths
      rw [if_pos last, if_neg differ, Option.bind_some, grafts.bare, last, descend_snoc, grafts.reached,
        Option.bind_some, grafts.vacant]
      rfl
    rw [if_neg last]
    cases found : descend child root p with
    | none =>
      have differ : ¬ p ++ [i] = path ++ [index] := by
        intro same
        obtain ⟨rfl, -⟩ := List.append_inj' same rfl
        rw [grafts.reached] at found
        cases found
      rw [if_neg differ]
      rfl
    | some node =>
      have old : node ≠ page := by
        rintro rfl
        exact grafts.unreached p (closed p i within) found
      simp only [Option.bind_some]
      by_cases slot : node = table ∧ i = index
      · obtain ⟨rfl, rfl⟩ := slot
        rw [grafts.alone p (closed p i within) found, if_pos rfl, grafts.here]
      · have differ : ¬ p ++ [i] = path ++ [index] := by
          intro same
          obtain ⟨rfl, single⟩ := List.append_inj' same rfl
          rw [grafts.reached] at found
          exact slot ⟨(Option.some.inj found).symm, List.singleton_inj.mp single⟩
        rw [if_neg differ, grafts.same node i old slot]

end Graft

/-- Every node of a forest of bounded depth carries the root it hangs under and its path from there.
    `owned` names the slots that are part of the forest; the others may point anywhere. -/
structure Labelled (child : Node → Index → Option Node) (rootNode : Root → Node)
    (owned : Root → List Index → Index → Prop) (depth : Nat)
    (label : Node → Option (Root × List Index)) : Prop where
  down : ∀ node root path index next, label node = some (root, path) → path.length < depth →
    owned root path index → child node index = some next → label next = some (root, path ++ [index])
  up : ∀ node root path index, label node = some (root, path ++ [index]) →
    ∃ parent, label parent = some (root, path) ∧ owned root path index ∧ child parent index = some node
  top : ∀ node root, label node = some (root, []) → node = rootNode root

namespace Labelled

variable {child : Node → Index → Option Node} {rootNode : Root → Node}
  {owned : Root → List Index → Index → Prop} {depth : Nat}
  {label : Node → Option (Root × List Index)}

theorem descend_label (forest : Labelled child rootNode owned depth label)
    {node last : Node} {root : Root} {base path : List Index}
    (start : label node = some (root, base)) (short : base.length + path.length ≤ depth)
    (inside : ∀ before index after, path = before ++ index :: after → owned root (base ++ before) index)
    (walked : descend child node path = some last) : label last = some (root, base ++ path) := by
  induction path generalizing node base with
  | nil =>
    cases walked
    simpa using start
  | cons first rest ih =>
    simp only [descend_cons, Option.bind_eq_some_iff] at walked
    obtain ⟨next, found, tail⟩ := walked
    simp only [List.length_cons] at short
    have first_owned := inside [] first rest rfl
    rw [List.append_nil] at first_owned
    have labelled := forest.down _ _ _ _ _ start (by omega) first_owned found
    have result := ih labelled (by simp; omega) (by
      intro before index after split
      have := inside (first :: before) index after (by simp [split])
      simpa using this) tail
    simpa using result

theorem descend_of_label (forest : Labelled child rootNode owned depth label)
    {node : Node} {root : Root} {path : List Index} (labelled : label node = some (root, path)) :
    descend child (rootNode root) path = some node := by
  induction path using List.reverseRecOn generalizing node with
  | nil => rw [forest.top _ _ labelled, descend_nil]
  | append_singleton path index ih =>
    obtain ⟨parent, above, _, found⟩ := forest.up _ _ _ _ labelled
    rw [descend_snoc, ih above, Option.bind_some, found]

theorem label_injective (forest : Labelled child rootNode owned depth label)
    {left right : Node} {root : Root} {path : List Index}
    (hl : label left = some (root, path)) (hr : label right = some (root, path)) : left = right :=
  Option.some.inj ((forest.descend_of_label hl).symm.trans (forest.descend_of_label hr))

end Labelled

end Radix
