import JosKernel.Pmap.Insertion
import JosKernel.Pmap.ReadOnly
import JosKernel.Syscall.Insertions

namespace Jos

/-- What a call that changes nothing leaves: the contents of all pages that are not free, the counts,
    and the set of pages on the free list. -/
structure Untouched (m : Memory) (free : List Nat) (m' : Memory) : Prop where
  word : ∀ page, page ∉ free → m'.word page = m.word page
  ppRef : m'.ppRef = m.ppRef
  list : ∃ free', Linked.Chain m'.ppLink m'.pageFreeList free' ∧ ∀ page, page ∈ free' ↔ page ∈ free

def Memory.Reflagged (m : Memory) (root : Nat) (va : Word) : Prop :=
  ∀ pdpt, m.child root (pml4 va) = some pdpt → Present (m.word pdpt (pdpe va)) →
    m.word pdpt (pdpe va) &&& flagMask = 7

variable {m m' : Memory} {root page : Nat} {free rest : List Nat} {va : Word} {perm : BitVec 32}

theorem Memory.reflag_word_iff : (m.reflag root va).word = m.word ↔ m.Reflagged root va := by
  rw [reflag, Reflagged]
  cases m.child root (pml4 va) with
  | none => simp
  | some pdpt =>
    rw [Option.elim_some, refresh_word_iff]
    exact ⟨fun flags _ same => Option.some.inj same ▸ flags, fun flags => flags pdpt rfl⟩

theorem Memory.Reflagged.reflag (settled : m.Reflagged root va) : m.reflag root va = m := by
  have same := reflag_word_iff.mpr settled
  rw [Memory.reflag] at same ⊢
  cases found : m.child root (pml4 va) with
  | none => rfl
  | some pdpt =>
    rw [found, Option.elim_some] at same
    exact refresh_eq_self (congrFun (congrFun same _) _)

theorem Memory.reflag_reflag {root' : Nat} {va' : Word}
    (same : ((m.reflag root va).reflag root' va').word = m.word) : (m.reflag root va).word = m.word := by
  funext page index
  by_contra changed
  have settled : (m.reflag root va).word page index &&& flagMask = 7 := by
    rw [reflag] at changed ⊢
    cases found : m.child root (pml4 va) with
    | none =>
      rw [found] at changed
      exact absurd rfl changed
    | some pdpt =>
      rw [found] at changed
      exact refresh_rewritten changed
  refine changed ?_
  rw [← congrFun (congrFun same page) index]
  change _ = (((m.reflag root va).child root' (pml4 va')).elim (m.reflag root va) fun pdpt =>
    (m.reflag root va).refresh (pdpt, pdpe va')).word page index
  cases (m.reflag root va).child root' (pml4 va') with
  | none => rfl
  | some pdpt => exact (refresh_settled settled).symm

theorem Memory.reflag_ppRef : (m.reflag root va).ppRef = m.ppRef := by
  rw [reflag]
  cases m.child root (pml4 va) with
  | none => rfl
  | some pdpt =>
    rw [Option.elim_some, refresh]
    split <;> rfl

theorem Untouched.refl (chain : Linked.Chain m.ppLink m.pageFreeList free) : Untouched m free m :=
  ⟨fun _ _ => rfl, rfl, free, chain, fun _ => Iff.rfl⟩

theorem Untouched.free_eq_nil (untouched : Untouched m free m') (empty : m'.pageFreeList = none) :
    free = [] := by
  obtain ⟨free', chain, members⟩ := untouched.list
  rw [empty] at chain
  rw [Linked.chain_none chain] at members
  exact List.eq_nil_iff_forall_not_mem.mpr fun page member => absurd ((members page).mpr member) (by simp)

namespace PageTree

/-- An insertion fails if fewer pages are free than tables are missing. It then takes them all. -/
theorem pageInsert_failed (tree : PageTree m root free) (below : va < utop)
    (failed : m.pageInsert root page va perm = .ok (false, m')) :
    free.length < Radix.missing m.child root [pml4 va, pdpe va, pdx va] ∧ m'.pageFreeList = none ∧
      (free = [] → m' = m.reflag root va) := by
  have outside := outside_of_user below
  obtain ⟨⟨slot, middle⟩, walk, done⟩ := Fallible.bind_ok.mp failed
  obtain ⟨result, m₁, rest, created, creates⟩ := tree.walkPath outside
  rw [tree.pml4eWalk outside, created] at walk
  cases walk
  cases result with
  | some table =>
    obtain ⟨removed, -, done⟩ := Fallible.bind_ok.mp done
    cases done
  | none =>
    cases done
    have list := creates.expands.tree.list
    rw [creates.used rfl] at list
    have failed := creates.failed.mp rfl
    rw [Memory.child_reflag] at failed
    exact ⟨failed, list, creates.nothing⟩

theorem pageInsert_fails (tree : PageTree m root free) (below : va < utop)
    (few : free.length < Radix.missing m.child root [pml4 va, pdpe va, pdx va]) :
    ∃ m', m.pageInsert root page va perm = .ok (false, m') := by
  have outside := outside_of_user below
  obtain ⟨result, m', rest, created, creates⟩ := tree.walkPath outside
  rw [← show (m.reflag root va).child = m.child from Memory.child_reflag] at few
  cases creates.failed.mpr few
  refine ⟨m', ?_⟩
  rw [Memory.pageInsert, tree.pml4eWalk outside, created]
  rfl

theorem pageAlloc (tree : PageTree m root (page :: rest)) :
    ∃ m', m.pageAlloc true = .ok (some page, m') ∧ PageTree m' root rest ∧ m'.ppRef = m.ppRef ∧
      (∀ other, other ≠ page → m'.word other = m.word other) ∧ m'.ppLink page = none := by
  obtain ⟨bound, unreached⟩ := tree.unused page (by simp)
  have head : m.pageFreeList = some page := tree.list.1
  have small := tree.small
  have cleared : m.kaddr (page2pa page) = .ok page := by
    refine Memory.InReach.kaddr ?_ bound
    rw [ppn_eq, page2pa_toNat]
    omega
  obtain ⟨first, nodup⟩ := List.nodup_cons.mp (Linked.chain_nodup tree.list)
  have word : ∀ other, other ≠ page →
      (((m.clearPage page).setFreeList (m.ppLink page)).setLink page none).word other = m.word other := by
    intro other different
    funext i
    simp [different]
  have descend : ∀ path, Inside path →
      Radix.descend (((m.clearPage page).setFreeList (m.ppLink page)).setLink page none).child root path =
        Radix.descend m.child root path := by
    intro path inside
    refine Radix.descend_congr ?_
    intro before index after split last reached
    apply Memory.child_congr
    rw [word last]
    rintro rfl
    rw [split] at inside
    exact unreached before inside.front reached
  have old : ∀ {path table}, Inside path → Radix.descend m.child root path = some table → table ≠ page := by
    rintro path table inside found rfl
    exact unreached path inside found
  refine ⟨((m.clearPage page).setFreeList (m.ppLink page)).setLink page none, ?_,
    ⟨small, ?_, ?_, ?_, ?_⟩, rfl, word, if_pos rfl⟩
  · rw [Memory.pageAlloc, head]
    simp only [if_true, cleared]
    rfl
  · intro path index table inside reached present
    rw [descend path inside.front] at reached
    rw [word table (old inside.front reached)] at present ⊢
    exact tree.entry path index table inside reached present
  · intro path path' table inside inside' reached reached'
    rw [descend path inside] at reached
    rw [descend path' inside'] at reached'
    exact tree.alone path path' table inside inside' reached reached'
  · refine Linked.chain_congr ?_ tree.list.2
    intro other member
    rw [Memory.setLink_ppLink, if_neg (by rintro rfl; exact first member)]
    rfl
  · intro other member
    obtain ⟨bound', unreached'⟩ := tree.unused other (List.mem_cons_of_mem _ member)
    refine ⟨bound', fun path inside => ?_⟩
    rw [descend path inside]
    exact unreached' path inside

theorem pageInsert_atomic (tree : PageTree m root free) (below : va < utop)
    (failed : m.pageInsert root page va perm = .ok (false, m')) :
    Untouched m free m' ↔ free = [] ∧ m.Reflagged root va := by
  obtain ⟨-, empty, nothing⟩ := tree.pageInsert_failed below failed
  constructor
  · intro untouched
    have none := untouched.free_eq_nil empty
    refine ⟨none, Memory.reflag_word_iff.mp ?_⟩
    rw [← nothing none]
    funext page
    exact untouched.word page (by simp [none])
  · rintro ⟨none, settled⟩
    rw [nothing none, settled.reflag]
    exact .refl tree.list

end PageTree

/-- The page that was taken for the mapping goes back, the pages that became tables do not. -/
theorem Untouched.pageFree {m₂ freed : Memory} (tree : PageTree m root (page :: rest)) (ppRef : m₂.ppRef = m.ppRef)
    (empty : m'.pageFreeList = none) (nothing : rest = [] → m' = m₂) (free : m'.pageFree page = .ok freed) :
    Untouched m (page :: rest) freed ↔ rest = [] ∧ ∀ other, other ≠ page → m₂.word other = m.word other := by
  rw [Memory.pageFree] at free
  split at free
  · cases free
  cases free
  have chain : Linked.Chain ((m'.setLink page m'.pageFreeList).setFreeList (some page)).ppLink
      ((m'.setLink page m'.pageFreeList).setFreeList (some page)).pageFreeList [page] := by
    refine ⟨rfl, ?_⟩
    rw [Memory.setFreeList_ppLink, Memory.setLink_ppLink, if_pos rfl, empty]
    rfl
  constructor
  · intro untouched
    obtain ⟨free', chain', members⟩ := untouched.list
    rw [Linked.chain_unique chain' chain] at members
    obtain ⟨first, -⟩ := List.nodup_cons.mp (Linked.chain_nodup tree.list)
    have none : rest = [] := by
      refine List.eq_nil_iff_forall_not_mem.mpr fun other member => first ?_
      have same := (members other).mpr (List.mem_cons_of_mem _ member)
      rwa [List.mem_singleton.mp same] at member
    refine ⟨none, fun other different => ?_⟩
    rw [← nothing none]
    exact untouched.word other (by simp [none, different])
  · rintro ⟨none, word⟩
    rw [nothing none, none] at *
    refine ⟨fun other outside => ?_, ppRef, [page], chain, fun _ => Iff.rfl⟩
    exact word other fun same => outside (by simp [same])

theorem PageTree.reflag_untouched {m₁ : Memory} (tree : PageTree m root (page :: rest)) (outside : pml4 va ≠ pml4 uvpt)
    (word : ∀ other, other ≠ page → m₁.word other = m.word other) :
    (∀ other, other ≠ page → (m₁.reflag root va).word other = m.word other) ↔ m.Reflagged root va := by
  obtain ⟨-, unreached⟩ := tree.unused page (by simp)
  have apart : root ≠ page := fun same => unreached [] .nil (by rw [same]; rfl)
  have top : m₁.child root (pml4 va) = m.child root (pml4 va) := Memory.child_congr (by rw [word root apart])
  rw [Memory.reflag, Memory.Reflagged, top]
  cases found : m.child root (pml4 va) with
  | none => simpa using word
  | some pdpt =>
    have different : pdpt ≠ page := by
      rintro rfl
      exact unreached [pml4 va] (inside_top outside) (by simp [found])
    have slot : m₁.read (pdpt, pdpe va) = m.word pdpt (pdpe va) := congrFun (word pdpt different) _
    have here := Memory.refresh_word_iff (m := m₁) (pdpt, pdpe va)
    rw [slot] at here
    rw [Option.elim_some]
    constructor
    · intro same pdpt' same' present
      have known := Option.some.inj same'
      subst known
      refine here.mp ?_ present
      funext other index
      by_cases free : other = page
      · exact Memory.refresh_word_of_ne (.inl (by rw [free]; exact different.symm))
      · rw [same other free, word other free]
    · intro flags other free
      rw [here.mpr (flags pdpt rfl), word other free]

theorem PageTree.copy_atomic {middle : Memory} {root' page' : Nat} {va' : Word} {slot : Slot}
    (tree : PageTree m root free) (tree' : PageTree m root' free) (below : va < utop) (below' : va' < utop)
    (looked : m.pageLookup root va = .ok (some (page, slot), middle))
    (failed : middle.pageInsert root' page' va' perm = .ok (false, m')) :
    Untouched m free m' ↔ free = [] ∧ m.Reflagged root va ∧ m.Reflagged root' va' := by
  have walked := tree.lookup_reflag (outside_of_user below) looked
  have tree₁ : PageTree middle root' free := by
    rw [walked, Memory.reflag]
    cases m.child root (pml4 va) with
    | none => exact tree'
    | some pdpt => exact tree'.refreshed _
  obtain ⟨-, empty, nothing⟩ := tree₁.pageInsert_failed below' failed
  constructor
  · intro untouched
    have none := untouched.free_eq_nil empty
    have same : ((m.reflag root va).reflag root' va').word = m.word := by
      rw [← walked, ← nothing none]
      funext page
      exact untouched.word page (by simp [none])
    have settled := Memory.reflag_word_iff.mp (Memory.reflag_reflag same)
    rw [settled.reflag] at same
    exact ⟨none, settled, Memory.reflag_word_iff.mp same⟩
  · rintro ⟨none, settled, settled'⟩
    rw [nothing none, walked, settled.reflag, settled'.reflag]
    exact .refl tree.list

-- The system calls that insert pages

variable {k : Kernel} {cur : Nat}

structure Kernel.Planted (k : Kernel) (free : List Nat) : Prop where
  list : Linked.Chain k.mem.ppLink k.mem.pageFreeList free
  space : ∀ e root, k.InUse e → (k.envs e).envPml4e = some root → PageTree k.mem root free

def Kernel.Reflagged (k : Kernel) (e : Nat) (va : Word) : Prop :=
  ∀ root, (k.envs e).envPml4e = some root → k.mem.Reflagged root va

theorem Kernel.reflagged_of {e : Nat} (pml4e : (k.envs e).envPml4e = some root) :
    k.Reflagged e va ↔ k.mem.Reflagged root va :=
  ⟨fun settled => settled root pml4e, fun settled _ same => Option.some.inj (pml4e.symm.trans same) ▸ settled⟩

theorem Kernel.reflagged_named {cur e : Nat} {envid : BitVec 32} {checkperm : Bool}
    (found : k.envid2env cur envid checkperm = some e) (pml4e : (k.envs e).envPml4e = some root) :
    (∀ e, k.envid2env cur envid checkperm = some e → k.Reflagged e va) ↔ k.mem.Reflagged root va := by
  rw [← Kernel.reflagged_of pml4e]
  exact ⟨fun settled => settled e found, fun settled _ same => Option.some.inj (found.symm.trans same) ▸ settled⟩

theorem Kernel.sysPageAlloc_atomic {k' : Kernel} {envid : BitVec 32} (caller : k.InUse cur)
    (planted : k.Planted free) (returned : k.sysPageAlloc cur envid va perm = .ok (-eNoMem, k')) :
    k'.envs = k.envs ∧ (Untouched k.mem free k'.mem ↔
      free = [] ∨ free.length = 1 ∧ ∀ e, k.envid2env cur envid true = some e → k.Reflagged e va) := by
  have outcome := Kernel.sysPageAlloc_outcome returned
  generalize code : -eNoMem = result at outcome
  cases outcome with
  | badEnv none => exact absurd code (by decide)
  | inval usedEnv target bad => exact absurd code (by decide)
  | done usedEnv root page mem mem' => exact absurd code (by decide)
  | noPage usedEnv mem target goodVa goodPerm empty =>
    refine ⟨rfl, ?_⟩
    have list := planted.list
    rw [Memory.pageAlloc] at empty
    split at empty
    · rename_i none
      cases empty
      rw [none] at list
      cases Linked.chain_none list
      exact iff_of_true (.refl planted.list) (.inl rfl)
    · obtain ⟨middle, -, rest⟩ := Fallible.bind_ok.mp empty
      cases rest
  | noTable usedEnv root page mem mem' freed target goodVa goodPerm allocated pml4e failed free' =>
    refine ⟨rfl, ?_⟩
    have tree := planted.space usedEnv root (caller.target target) pml4e
    cases free with
    | nil =>
      have none : k.mem.pageFreeList = none := tree.list
      rw [Memory.pageAlloc, none] at allocated
      cases allocated
    | cons first rest =>
      obtain ⟨m₁, alloc, tree₁, counts, words, -⟩ := tree.pageAlloc
      rw [alloc] at allocated
      cases allocated
      have below := below_of_good goodVa
      obtain ⟨-, empty, nothing⟩ := tree₁.pageInsert_failed below failed
      have result := Untouched.pageFree tree (Memory.reflag_ppRef.trans counts) empty nothing free'
      rw [Kernel.setMem_mem, result, tree.reflag_untouched (outside_of_user below) words,
        Kernel.reflagged_named target pml4e]
      cases rest <;> simp

theorem Kernel.sysPageMap_atomic {k' : Kernel} {srcenvid dstenvid : BitVec 32} {srcva dstva : Word}
    (caller : k.InUse cur) (planted : k.Planted free)
    (returned : k.sysPageMap cur srcenvid srcva dstenvid dstva perm = .ok (-eNoMem, k')) :
    k'.envs = k.envs ∧ (Untouched k.mem free k'.mem ↔ free = [] ∧
      (∀ e, k.envid2env cur srcenvid true = some e → k.Reflagged e srcva) ∧
      ∀ e, k.envid2env cur dstenvid true = some e → k.Reflagged e dstva) := by
  have outcome := Kernel.sysPageMap_outcome returned
  generalize code : -eNoMem = result at outcome
  cases outcome with
  | badEnv none => exact absurd code (by decide)
  | badVa srcEnv dstEnv source target bad => exact absurd code (by decide)
  | inval srcEnv dstEnv srcRoot found mem => exact absurd code (by decide)
  | insert srcEnv dstEnv srcRoot dstRoot page pte inserted mem mem' source target goodSrc goodDst goodPerm
      srcPml4e lookup dstPml4e result =>
    cases inserted with
    | true => exact absurd code (by decide)
    | false =>
      have srcTree := planted.space srcEnv srcRoot (caller.target source) srcPml4e
      have tree := planted.space dstEnv dstRoot (caller.target target) dstPml4e
      rw [Kernel.reflagged_named source srcPml4e, Kernel.reflagged_named target dstPml4e]
      exact ⟨rfl, srcTree.copy_atomic tree (below_of_good goodSrc) (below_of_good goodDst) lookup result⟩

theorem Kernel.sysIpcTrySend_atomic {k' : Kernel} {envid value : BitVec 32} {srcva : Word}
    (caller : k.InUse cur) (planted : k.Planted free)
    (returned : k.sysIpcTrySend cur envid value srcva perm = .ok (-eNoMem, k')) :
    k'.envs = k.envs ∧ (Untouched k.mem free k'.mem ↔ free = [] ∧ k.Reflagged cur srcva ∧
      ∀ e, k.envid2env cur envid false = some e → k.Reflagged e (k.envs e).envIpcDstva) := by
  have outcome := Kernel.sysIpcTrySend_outcome returned
  generalize code : -eNoMem = result at outcome
  cases outcome with
  | noTable target root dstRoot page pte mem mem' found recving below aligned goodPerm pml4e lookup write
      goodDst dstPml4e failed =>
    have srcTree := planted.space cur root caller pml4e
    have tree := planted.space target dstRoot (caller.target found) dstPml4e
    have named : (∀ e, k.envid2env cur envid false = some e → k.Reflagged e (k.envs e).envIpcDstva) ↔
        k.mem.Reflagged dstRoot (k.envs target).envIpcDstva := by
      rw [← Kernel.reflagged_of dstPml4e]
      exact ⟨fun settled => settled target found, fun settled _ same => Option.some.inj (found.symm.trans same) ▸ settled⟩
    rw [Kernel.reflagged_of pml4e, named]
    exact ⟨rfl, srcTree.copy_atomic tree below (below_of_good goodDst) lookup failed⟩
  | _ => exact absurd code (by decide)

/-- Out of memory, `page_insert` changes nothing exactly if no page was free and the flags of the PDPT entry on its
    way need no rewriting, and so do the system calls that use it, but for the page that `sys_page_alloc` takes for
    itself and gives back. -/
theorem Kernel.noMem_atomic_iff (caller : k.InUse cur) (planted : k.Planted free) :
    (∀ root page va perm, PageTree k.mem root free → va < utop →
      ((∀ m', k.mem.pageInsert root page va perm = .ok (false, m') → Untouched k.mem free m') ↔
        Radix.missing k.mem.child root [pml4 va, pdpe va, pdx va] ≤ free.length ∨
          free = [] ∧ k.mem.Reflagged root va)) ∧
    (∀ envid va perm k', k.sysPageAlloc cur envid va perm = .ok (-eNoMem, k') →
      (k'.envs = k.envs ∧ Untouched k.mem free k'.mem ↔
        free = [] ∨ free.length = 1 ∧ ∀ e, k.envid2env cur envid true = some e → k.Reflagged e va)) ∧
    (∀ srcenvid srcva dstenvid dstva perm k',
      k.sysPageMap cur srcenvid srcva dstenvid dstva perm = .ok (-eNoMem, k') →
      (k'.envs = k.envs ∧ Untouched k.mem free k'.mem ↔ free = [] ∧
        (∀ e, k.envid2env cur srcenvid true = some e → k.Reflagged e srcva) ∧
        ∀ e, k.envid2env cur dstenvid true = some e → k.Reflagged e dstva)) ∧
    ∀ envid value srcva perm k', k.sysIpcTrySend cur envid value srcva perm = .ok (-eNoMem, k') →
      (k'.envs = k.envs ∧ Untouched k.mem free k'.mem ↔ free = [] ∧ k.Reflagged cur srcva ∧
        ∀ e, k.envid2env cur envid false = some e → k.Reflagged e (k.envs e).envIpcDstva) := by
  refine ⟨?_, ?_, ?_, ?_⟩
  · intro root page va perm tree below
    constructor
    · intro atomic
      by_cases enough : Radix.missing k.mem.child root [pml4 va, pdpe va, pdx va] ≤ free.length
      · exact .inl enough
      · obtain ⟨m', failed⟩ := tree.pageInsert_fails below (Nat.not_le.mp enough)
        exact .inr ((tree.pageInsert_atomic below failed).mp (atomic m' failed))
    · rintro (enough | condition) m' failed
      · have few := (tree.pageInsert_failed below failed).1
        omega
      · exact (tree.pageInsert_atomic below failed).mpr condition
  · intro envid va perm k' returned
    obtain ⟨envs, result⟩ := Kernel.sysPageAlloc_atomic caller planted returned
    rw [and_iff_right envs, result]
  · intro srcenvid srcva dstenvid dstva perm k' returned
    obtain ⟨envs, result⟩ := Kernel.sysPageMap_atomic caller planted returned
    rw [and_iff_right envs, result]
  · intro envid value srcva perm k' returned
    obtain ⟨envs, result⟩ := Kernel.sysIpcTrySend_atomic caller planted returned
    rw [and_iff_right envs, result]

-- A machine with one free page

def scarce : Kernel where
  mem := {
    npages := 16
    bootPml4e := 9
    word := fun _ _ => 0
    ppRef := fun page => if page = 5 then 0 else 1
    ppLink := fun _ => none
    pageFreeList := some 5
    userMemCheckAddr := 0 }
  envs := fun e => { (default : Env) with
    envStatus := if e = 0 then .runnable else .free
    envPml4e := if e = 0 then some 9 else none }
  envFreeList := some 1
  console := []

theorem scarce_tree : PageTree scarce.mem 9 [5] := by
  have bare : ∀ page index, scarce.mem.child page index = none := fun _ _ =>
    Memory.child_eq_none.mpr (show ¬ Present 0 by decide)
  have only : ∀ {path table}, Radix.descend scarce.mem.child 9 path = some table → path = [] ∧ table = 9 := by
    intro path table reached
    cases path with
    | nil =>
      cases reached
      exact ⟨rfl, rfl⟩
    | cons index path =>
      rw [Radix.descend_cons, bare] at reached
      cases reached
  refine ⟨by decide, ?_, ?_, ⟨rfl, rfl⟩, ?_⟩
  · intro path index table _ _ present
    exact absurd present (show ¬ Present 0 by decide)
  · intro path path' table _ _ reached reached'
    rw [(only reached).1, (only reached').1]
  · intro page member
    cases List.mem_singleton.mp member
    refine ⟨by decide, fun path _ reached => ?_⟩
    exact absurd (only reached).2 (by decide)

theorem scarce_planted : scarce.Planted [5] where
  list := scarce_tree.list
  space := by
    intro e root inUse pml4e
    unfold scarce at pml4e
    simp only at pml4e
    split at pml4e
    · cases pml4e
      exact scarce_tree
    · cases pml4e

theorem scarce_inUse : scarce.InUse 0 := ⟨by decide, by decide⟩

theorem Kernel.noMem_atomic_iff_scarce :
    ((∀ m', scarce.mem.pageInsert 9 6 utext 7 = .ok (false, m') → Untouched scarce.mem [5] m') ↔
      Radix.missing scarce.mem.child 9 [pml4 utext, pdpe utext, pdx utext] ≤ 1 ∨
        [5] = [] ∧ scarce.mem.Reflagged 9 utext) :=
  (Kernel.noMem_atomic_iff scarce_inUse scarce_planted).1 9 6 utext 7 scarce_tree (by decide)

/-- An insertion that needs three tables takes the only free page and fails. -/
theorem scarce_leaks : ∃ m', scarce.mem.pageInsert 9 6 utext 7 = .ok (false, m') ∧
    m'.word 9 0 = tableEntry 5 ∧ ¬ Untouched scarce.mem [5] m' := by
  obtain ⟨m', failed⟩ : ∃ m', scarce.mem.pageInsert 9 6 utext 7 = .ok (false, m') :=
    scarce_tree.pageInsert_fails (by decide) (by decide)
  refine ⟨m', failed, ?_, fun untouched => ?_⟩
  · have written : (scarce.mem.pageInsert 9 6 utext 7).toOption.map (fun result => result.2.word 9 0) =
        some (tableEntry 5) := by decide +kernel
    rw [failed] at written
    exact Option.some.inj written
  · exact absurd ((scarce_tree.pageInsert_atomic (by decide) failed).mp untouched) (by simp)

end Jos
