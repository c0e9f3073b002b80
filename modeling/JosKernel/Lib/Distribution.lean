import Mathlib.Data.List.Perm.Basic
import Mathlib.Logic.Function.Basic
import JosKernel.Lib.Linked

namespace Linked

variable {κ α : Type*}

inductive Place (κ α : Type*)
  | head (list : κ)
  | link (node : α)
  deriving DecidableEq

structure Distribution (κ α : Type*) where
  cells : Place κ α → Option α
  tails : κ → Place κ α

def Place.behind : Place κ α → List α → Place κ α
  | place, [] => place
  | _, node :: rest => behind (.link node) rest

def Trail (cells : Place κ α → Option α) : Place κ α → List α → Prop
  | _, [] => True
  | place, node :: rest => cells place = some node ∧ Trail cells (.link node) rest

variable {cells cells' : Place κ α → Option α} {place : Place κ α} {nodes rest : List α}

theorem Place.behind_snoc (place : Place κ α) (nodes : List α) (node : α) :
    place.behind (nodes ++ [node]) = .link node := by
  induction nodes generalizing place with
  | nil => rfl
  | cons first rest ih => exact ih (.link first)

theorem Place.behind_mem (place : Place κ α) (nodes : List α) :
    place.behind nodes ∈ place :: nodes.map Place.link := by
  induction nodes generalizing place with
  | nil => exact List.mem_singleton_self place
  | cons first rest ih => exact List.mem_cons_of_mem _ (ih (.link first))

theorem trail_snoc (node : α) : Trail cells place (nodes ++ [node]) ↔
    Trail cells place nodes ∧ cells (place.behind nodes) = some node := by
  induction nodes generalizing place with
  | nil => exact and_comm
  | cons first rest ih =>
    rw [List.cons_append, Trail, Trail, Place.behind, ih, and_assoc]

theorem trail_congr (apart : (place :: nodes.map Place.link).Nodup)
    (agree : ∀ other ∈ place :: nodes.map Place.link, other ≠ place.behind nodes → cells' other = cells other)
    (trail : Trail cells place nodes) : Trail cells' place nodes := by
  induction nodes generalizing place with
  | nil => trivial
  | cons node rest ih =>
    obtain ⟨fresh, apart'⟩ := List.nodup_cons.mp apart
    constructor
    · rw [agree place (List.mem_cons_self ..)]
      · exact trail.1
      · intro same
        rw [same] at fresh
        exact fresh (Place.behind_mem (.link node) rest)
    · exact ih apart' (fun other member => agree other (List.mem_cons_of_mem _ member)) trail.2

theorem trail_chain (trail : Trail cells place nodes)
    (chain : Chain (fun node => cells (.link node)) (cells (place.behind nodes)) rest) :
    Chain (fun node => cells (.link node)) (cells place) (nodes ++ rest) := by
  induction nodes generalizing place with
  | nil => exact chain
  | cons node nodes ih => exact ⟨trail.1, ih trail.2 chain⟩

namespace Distribution

variable [DecidableEq κ]

variable {kind : α → κ} {s : Distribution κ α} {seen : List α} {next : α → Option α}

def ofKind (kind : α → κ) (nodes : List α) (list : κ) : List α := nodes.filter fun node => kind node = list

/-- The nodes seen are in the lists of their kinds, and the links of the others are as they were. -/
structure Holds (kind : α → κ) (next : α → Option α) (seen : List α) (s : Distribution κ α) : Prop where
  tails : ∀ list, s.tails list = (Place.head list).behind (ofKind kind seen list)
  trails : ∀ list, Trail s.cells (.head list) (ofKind kind seen list)
  unseen : ∀ node, node ∉ seen → s.cells (.link node) = next node

theorem holds_nil (kind : α → κ) (cells : Place κ α → Option α) :
    Holds kind (fun node => cells (.link node)) [] ⟨cells, .head⟩ where
  tails _ := rfl
  trails _ := trivial
  unseen _ _ := rfl

theorem mem_ofKind {list : κ} {node : α} : node ∈ ofKind kind nodes list ↔ node ∈ nodes ∧ kind node = list := by
  rw [ofKind, List.mem_filter, decide_eq_true_iff]

theorem ofKind_snoc (list : κ) (node : α) : ofKind kind (nodes ++ [node]) list =
    ofKind kind nodes list ++ if kind node = list then [node] else [] := by
  rw [ofKind, List.filter_append, ofKind]
  by_cases same : kind node = list
  · rw [if_pos same, List.filter_cons_of_pos (by simpa using same), List.filter_nil]
  · rw [if_neg same, List.filter_cons_of_neg (by simpa using same), List.filter_nil]

def places (kind : α → κ) (nodes : List α) (list : κ) : List (Place κ α) :=
  .head list :: (ofKind kind nodes list).map Place.link

theorem places_nodup (list : κ) (apart : nodes.Nodup) : (places kind nodes list).Nodup := by
  apply List.nodup_cons.mpr
  constructor
  · rw [List.mem_map]
    rintro ⟨node, -, same⟩
    cases same
  · exact (apart.filter _).map fun a b same => Place.link.inj same

theorem places_apart {list list' : κ} (other : list ≠ list') {place : Place κ α}
    (member : place ∈ places kind nodes list) : place ∉ places kind nodes list' := by
  intro member'
  rcases List.mem_cons.mp member with rfl | member
  · rcases List.mem_cons.mp member' with same | member'
    · exact other (Place.head.inj same)
    · obtain ⟨node, -, same⟩ := List.mem_map.mp member'
      cases same
  · obtain ⟨node, inside, rfl⟩ := List.mem_map.mp member
    rcases List.mem_cons.mp member' with same | member'
    · cases same
    · obtain ⟨node', inside', same⟩ := List.mem_map.mp member'
      cases same
      exact other ((mem_ofKind.mp inside).2.symm.trans (mem_ofKind.mp inside').2)

theorem Holds.tail_mem (holds : s.Holds kind next seen) (list : κ) : s.tails list ∈ places kind seen list := by
  rw [holds.tails]
  exact Place.behind_mem ..

theorem Holds.tail_ne_link (holds : s.Holds kind next seen) (list : κ) {node : α} (fresh : node ∉ seen) :
    Place.link node ≠ s.tails list := by
  intro same
  have member := holds.tail_mem list
  rw [← same] at member
  rcases List.mem_cons.mp member with same | member
  · cases same
  · obtain ⟨other, inside, same⟩ := List.mem_map.mp member
    cases same
    exact fresh (mem_ofKind.mp inside).1

variable [DecidableEq α]

def append (s : Distribution κ α) (list : κ) (node : α) : Distribution κ α where
  cells := Function.update s.cells (s.tails list) (some node)
  tails := Function.update s.tails list (.link node)

/-- Append each node from `node` on to the list of its kind, if there are fewer than the given number. -/
def walk (kind : α → κ) : Nat → Option α → Distribution κ α → Option (Distribution κ α)
  | 0, _, _ => none
  | _ + 1, none, s => some s
  | fuel + 1, some node, s =>
    let s := s.append (kind node) node
    walk kind fuel (s.cells (.link node)) s

theorem Holds.store (holds : s.Holds kind next seen) (apart : seen.Nodup) (list list' : κ) (value : Option α)
    {cells : Place κ α → Option α} (trail : Trail cells (.head list') (ofKind kind seen list')) :
    Trail (Function.update cells (s.tails list) value) (.head list') (ofKind kind seen list') := by
  apply trail_congr (places_nodup list' apart) _ trail
  intro place member notTail
  apply Function.update_of_ne
  rintro rfl
  by_cases same : list = list'
  · rw [same, holds.tails] at notTail
    exact notTail rfl
  · exact places_apart same (holds.tail_mem list) member

theorem Holds.append (holds : s.Holds kind next seen) (apart : seen.Nodup) (node : α) :
    (s.append (kind node) node).Holds kind next (seen ++ [node]) where
  tails list := by
    rw [ofKind_snoc]
    by_cases same : kind node = list
    · rw [if_pos same, Place.behind_snoc, ← same]
      exact Function.update_self ..
    · rw [if_neg same, List.append_nil, ← holds.tails]
      exact Function.update_of_ne (Ne.symm same) ..
  trails list := by
    have kept := holds.store apart (kind node) list (some node) (holds.trails list)
    rw [ofKind_snoc]
    by_cases same : kind node = list
    · rw [if_pos same, trail_snoc]
      refine ⟨kept, ?_⟩
      rw [← same, ← holds.tails]
      exact Function.update_self ..
    · rw [if_neg same, List.append_nil]
      exact kept
  unseen other outside := by
    rw [List.mem_append, not_or] at outside
    rw [← holds.unseen other outside.1]
    exact Function.update_of_ne (holds.tail_ne_link _ outside.1) ..

theorem Holds.walk {first : Option α} (holds : s.Holds kind next seen) (chain : Chain next first nodes)
    (apart : (seen ++ nodes).Nodup) : ∃ s', s'.Holds kind next (seen ++ nodes) ∧
      ∀ fuel, nodes.length < fuel → s.walk kind fuel first = some s' := by
  induction nodes generalizing s seen first with
  | nil =>
    refine ⟨s, by rwa [List.append_nil], fun fuel enough => ?_⟩
    rw [show first = none from chain]
    cases fuel with
    | zero => cases enough
    | succ fuel => rfl
  | cons node nodes ih =>
    have fresh : node ∉ seen := by
      intro member
      exact (List.nodup_append.mp apart).2.2 node member node (List.mem_cons_self ..) rfl
    have onward : (s.append (kind node) node).cells (.link node) = next node := by
      rw [← holds.unseen node fresh]
      exact Function.update_of_ne (holds.tail_ne_link _ fresh) ..
    rw [← List.singleton_append, ← List.append_assoc] at apart
    have appended := holds.append (List.nodup_append.mp (List.nodup_append.mp apart).1).1 node
    obtain ⟨s', holds', done⟩ := ih appended chain.2 apart
    refine ⟨s', by rwa [List.append_assoc] at holds', fun fuel enough => ?_⟩
    rw [show first = some node from chain.1]
    cases fuel with
    | zero => cases enough
    | succ fuel =>
      rw [Distribution.walk, onward]
      exact done fuel (Nat.lt_of_succ_lt_succ enough)

/-- Close the second list and hang it behind the first, in this order: the first list may be empty. -/
def join (s : Distribution κ α) (first second : κ) : Place κ α → Option α :=
  let cells := Function.update s.cells (s.tails second) none
  Function.update cells (s.tails first) (cells (.head second))

theorem Holds.join {first second : κ} (holds : s.Holds kind next seen) (apart : seen.Nodup) (other : first ≠ second) :
    Chain (fun node => s.join first second (.link node)) (s.join first second (.head first))
      (ofKind kind seen first ++ ofKind kind seen second) := by
  have trail : ∀ list, Trail (s.join first second) (.head list) (ofKind kind seen list) := fun list =>
    holds.store apart first list _ (holds.store apart second list _ (holds.trails list))
  have separate : ∀ place ∈ places kind seen second, place ≠ s.tails first := by
    rintro place member rfl
    exact places_apart other (holds.tail_mem first) member
  have hung : s.join first second (s.tails first) = s.join first second (.head second) := by
    have head : s.join first second (.head second) = Function.update s.cells (s.tails second) none (.head second) :=
      Function.update_of_ne (separate _ (List.mem_cons_self ..)) ..
    rw [head]
    exact Function.update_self ..
  have closed : s.join first second (s.tails second) = none := by
    have kept : s.join first second (s.tails second) = Function.update s.cells (s.tails second) none (s.tails second) :=
      Function.update_of_ne (separate _ (holds.tail_mem second)) ..
    rw [kept]
    exact Function.update_self ..
  apply trail_chain (trail first)
  rw [← holds.tails, hung, ← List.append_nil (ofKind kind seen second)]
  apply trail_chain (trail second)
  rw [← holds.tails]
  exact closed

theorem Holds.join_unseen {first second : κ} {node : α} (holds : s.Holds kind next seen) (fresh : node ∉ seen) :
    s.join first second (.link node) = next node := by
  rw [← holds.unseen node fresh, Distribution.join, Function.update_of_ne (holds.tail_ne_link _ fresh),
    Function.update_of_ne (holds.tail_ne_link _ fresh)]

end Distribution
end Linked
