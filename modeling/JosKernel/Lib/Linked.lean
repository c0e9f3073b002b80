import Mathlib.Data.List.Nodup

namespace Linked

variable {α : Type*}

/-- Following `next` from `head` visits exactly `nodes`, in order, and then stops. -/
def Chain (next : α → Option α) : Option α → List α → Prop
  | head, [] => head = none
  | head, node :: rest => head = some node ∧ Chain next (next node) rest

@[simp] theorem chain_nil (next : α → Option α) (head : Option α) :
    Chain next head [] ↔ head = none := Iff.rfl

@[simp] theorem chain_cons (next : α → Option α) (head : Option α) (node : α) (rest : List α) :
    Chain next head (node :: rest) ↔ head = some node ∧ Chain next (next node) rest := Iff.rfl

theorem chain_none {next : α → Option α} {nodes : List α} (chain : Chain next none nodes) :
    nodes = [] := by
  cases nodes with
  | nil => rfl
  | cons node rest => cases chain.1

theorem chain_some {next : α → Option α} {head : α} {nodes : List α}
    (chain : Chain next (some head) nodes) :
    ∃ rest, nodes = head :: rest ∧ Chain next (next head) rest := by
  cases nodes with
  | nil => cases chain
  | cons node rest =>
    obtain ⟨same, tail⟩ := chain
    cases same
    exact ⟨rest, rfl, tail⟩

theorem chain_unique {next : α → Option α} {head : Option α} {left right : List α}
    (hl : Chain next head left) (hr : Chain next head right) : left = right := by
  induction left generalizing head right with
  | nil =>
    cases hl
    exact (chain_none hr).symm
  | cons node rest ih =>
    obtain ⟨rfl, tail⟩ := hl
    obtain ⟨others, rfl, tail'⟩ := chain_some hr
    rw [ih tail tail']

theorem chain_suffix {next : α → Option α} {head : Option α} {before after : List α} {node : α}
    (chain : Chain next head (before ++ node :: after)) : Chain next (some node) (node :: after) := by
  induction before generalizing head with
  | nil => exact ⟨rfl, chain.2⟩
  | cons first rest ih => exact ih chain.2

/-- A chain that ends cannot come back to a node: the two tails would have equal lengths. -/
theorem chain_nodup {next : α → Option α} {head : Option α} {nodes : List α}
    (chain : Chain next head nodes) : nodes.Nodup := by
  induction nodes generalizing head with
  | nil => exact List.nodup_nil
  | cons node rest ih =>
    refine List.nodup_cons.mpr ⟨?_, ih chain.2⟩
    intro member
    obtain ⟨before, after, rfl⟩ := List.append_of_mem member
    have again := chain_suffix chain.2
    have whole : Chain next (some node) (node :: (before ++ node :: after)) := ⟨rfl, chain.2⟩
    have lengths := congrArg List.length (chain_unique again whole)
    simp only [List.length_cons, List.length_append] at lengths
    omega

theorem chain_congr {next next' : α → Option α} {head : Option α} {nodes : List α}
    (agree : ∀ node ∈ nodes, next' node = next node) (chain : Chain next head nodes) :
    Chain next' head nodes := by
  induction nodes generalizing head with
  | nil => exact chain
  | cons node rest ih =>
    refine ⟨chain.1, ?_⟩
    rw [agree node (by simp)]
    exact ih (fun other member => agree other (List.mem_cons_of_mem _ member)) chain.2

theorem chain_push {next next' : α → Option α} {head : Option α} {nodes : List α} {node : α}
    (link : next' node = head) (agree : ∀ other ∈ nodes, next' other = next other)
    (chain : Chain next head nodes) : Chain next' (some node) (node :: nodes) := by
  refine ⟨rfl, ?_⟩
  rw [link]
  exact chain_congr agree chain

theorem chain_last {next : α → Option α} {head : Option α} {nodes : List α} {node : α} (chain : Chain next head nodes)
    (member : node ∈ nodes) : next node = none ↔ nodes.getLast? = some node := by
  obtain ⟨before, after, rfl⟩ := List.append_of_mem member
  have tail := (chain_suffix chain).2
  have nodup := chain_nodup chain
  cases after with
  | nil => simpa using tail
  | cons second after =>
    have apart : (before ++ node :: second :: after).getLast? ≠ some node := by
      intro last
      rw [List.getLast?_append_cons, List.getLast?_cons_cons] at last
      have again : node ∈ second :: after := List.mem_of_getLast? last
      have unique := (List.nodup_append.mp nodup).2.1
      exact (List.nodup_cons.mp unique).1 again
    rw [tail.1]
    exact iff_of_false (by simp) apart

theorem chain_reaches {next next' : α → Option α} {head : Option α} {before nodes : List α} {node : α}
    (chain : Chain next head (before ++ [node])) (agree : ∀ other ∈ before, next' other = next other)
    (chain' : Chain next' head nodes) : node ∈ nodes := by
  induction before generalizing head nodes with
  | nil =>
    rw [chain.1] at chain'
    obtain ⟨rest, rfl, -⟩ := chain_some chain'
    simp
  | cons first before ih =>
    rw [chain.1] at chain'
    obtain ⟨rest, rfl, tail⟩ := chain_some chain'
    rw [agree first (by simp)] at tail
    exact List.mem_cons_of_mem _ (ih chain.2 (fun other member => agree other (List.mem_cons_of_mem _ member)) tail)

/-- Appending behind the last node, which is how a list is built in ascending order. -/
theorem chain_snoc {next next' : α → Option α} {head : Option α} {nodes : List α} {last node : α}
    (link : next' last = some node) (stop : next' node = none)
    (agree : ∀ other ∈ nodes, next' other = next other)
    (chain : Chain next head (nodes ++ [last])) : Chain next' head (nodes ++ [last, node]) := by
  induction nodes generalizing head with
  | nil =>
    refine ⟨chain.1, link, ?_⟩
    exact stop
  | cons first rest ih =>
    refine ⟨chain.1, ?_⟩
    rw [agree first (by simp)]
    exact ih (fun other member => agree other (List.mem_cons_of_mem _ member)) chain.2

theorem chain_range {next : Nat → Option Nat} {bound first length : Nat} (total : first + length + 1 = bound)
    (link : ∀ node, node < bound → next node = if node + 1 = bound then none else some (node + 1)) :
    Chain next (some first) (List.range' first (length + 1)) := by
  induction length generalizing first with
  | zero =>
    refine ⟨rfl, ?_⟩
    rw [link first (by omega), if_pos (by omega)]
    rfl
  | succ length ih =>
    refine ⟨rfl, ?_⟩
    rw [link first (by omega), if_neg (by omega)]
    exact ih (by omega)

theorem chain_below {next : Nat → Option Nat} {bound : Nat} (positive : 0 < bound)
    (link : ∀ node, node < bound → next node = if node + 1 = bound then none else some (node + 1)) :
    ∃ nodes, Chain next (some 0) nodes ∧ ∀ node, node ∈ nodes ↔ node < bound := by
  refine ⟨List.range' 0 (bound - 1 + 1), chain_range (by omega) link, ?_⟩
  intro node
  rw [List.mem_range'_1]
  omega

variable {σ ε : Type*}

/-- Run `body` on the node and on those that follow, as the state links them then. -/
def each (next : σ → α → Option α) (body : σ → α → Except ε σ) : Nat → Option α → σ → Option (Except ε σ)
  | 0, _, _ => none
  | _ + 1, none, s => some (.ok s)
  | fuel + 1, some node, s =>
    match body s node with
    | .ok s => each next body fuel (next s node) s
    | .error stop => some (.error stop)

/-- A body that leaves the links alone is run on each node of the list, until it fails. -/
theorem each_chain {next : σ → α → Option α} {body : σ → α → Except ε σ} {fuel : Nat} {head : Option α} {s : σ}
    {nodes : List α} (keeps : ∀ s node s', body s node = .ok s' → next s' = next s) (chain : Chain (next s) head nodes)
    (enough : nodes.length < fuel) : each next body fuel head s = some (nodes.foldlM body s) := by
  induction nodes generalizing head s fuel with
  | nil =>
    rw [show head = none from chain]
    cases fuel with
    | zero => cases enough
    | succ fuel => rfl
  | cons node nodes ih =>
    rw [show head = some node from chain.1]
    cases fuel with
    | zero => cases enough
    | succ fuel =>
      rw [each, List.foldlM_cons]
      cases done : body s node with
      | error stop => rfl
      | ok after =>
        have tail : Chain (next after) (next after node) nodes := by
          rw [keeps s node after done]
          exact chain.2
        exact ih tail (Nat.lt_of_succ_lt_succ enough)

end Linked
