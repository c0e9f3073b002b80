import JosKernel.Env.Views
import JosKernel.Pmap.Runs
import JosKernel.Syscall.Outcomes
import JosKernel.Syscall.Table

namespace Jos

/-- What `page_lookup` finds in the address space of an environment. -/
def Kernel.found (k : Kernel) (e : Nat) (va : Word) : Option (Nat × Slot) :=
  (k.envs e).envPml4e.bind fun root => k.mem.lookup root va

/-- A mapping that a system call is about to make: the page, where it was looked up if it was not
    allocated, and where it goes. -/
structure Insertion where
  source : Option (Nat × Word)
  page : Nat
  target : Nat
  va : Word
  perm : BitVec 32

namespace Insertion

def Low (i : Insertion) : Prop := pml4 i.va = 0

/-- `page_insert` handles the page, the address and the permissions as it should. -/
def Fits (k : Kernel) (i : Insertion) : Prop :=
  ∀ root, (k.envs i.target).envPml4e = some root → PageOp.Fits k.mem i.page root i.va i.perm

instance (i : Insertion) : Decidable i.Low := inferInstanceAs (Decidable (_ = _))

instance (k : Kernel) (i : Insertion) : Decidable (i.Fits k) :=
  inferInstanceAs (Decidable (∀ root ∈ (k.envs i.target).envPml4e, PageOp.Fits k.mem i.page root i.va i.perm))

def entry (i : Insertion) : Word := leafEntry i.page i.perm

def view (k : Kernel) : Option Insertion → Nat → Word → Word
  | none => k.leaf
  | some i => remap k.leaf i.target i.va i.entry

end Insertion

def Syscall.insertion (k : Kernel) (cur : Nat) : Syscall → Option Insertion
  | .pageAlloc envid va perm => do
    let target ← k.envid2env cur envid true
    let page ← k.mem.pageFreeList
    if BadVa va ∨ BadPerm perm then none else some ⟨none, page, target, va, perm⟩
  | .pageMap srcenvid srcva dstenvid dstva perm => do
    let source ← k.envid2env cur srcenvid true
    let target ← k.envid2env cur dstenvid true
    let (page, _) ← k.found source srcva
    if BadVa srcva ∨ BadVa dstva ∨ BadPerm perm then none
    else some ⟨some (source, srcva), page, target, dstva, perm⟩
  | .ipcTrySend envid _ srcva perm => do
    let target ← k.envid2env cur envid false
    let (page, pte) ← k.found cur srcva
    let dstva := (k.envs target).envIpcDstva
    if (k.envs target).envIpcRecving = false ∨ BadVa srcva ∨ BadPerm perm ∨
        (perm &&& pteW.setWidth 32 ≠ 0 ∧ k.mem.read pte &&& pteW = 0) ∨ BadVa dstva then none
    else some ⟨some (cur, srcva), page, target, dstva, perm⟩
  | _ => none

/-- The mapping that the call makes is one that kern/pmap.c gets right and no other environment sees. -/
def Syscall.Careful (k : Kernel) (cur : Nat) (call : Syscall) : Prop :=
  ∀ i, call.insertion k cur = some i → i.Low ∧ i.Fits k

instance (k : Kernel) (cur : Nat) (call : Syscall) : Decidable (call.Careful k cur) :=
  inferInstanceAs (Decidable (∀ i ∈ call.insertion k cur, i.Low ∧ i.Fits k))

variable {reserved : Nat → Prop} {k k' : Kernel} {g : Layout} {cur : Nat} {code : Int}

theorem Kernel.InUse.target (inUse : k.InUse cur) {envid : BitVec 32} {checkperm : Bool} {e : Nat}
    (found : k.envid2env cur envid checkperm = some e) : k.InUse e := by
  rcases Kernel.envid2env_used found with rfl | ⟨small, used, -⟩
  · exact inUse
  · exact ⟨small, used⟩

namespace Spaces

theorem pageLookup (spaces : Spaces reserved k g) {e root : Nat} {va : Word} {result : Option (Nat × Slot)}
    {mem : Memory} (inUse : k.InUse e) (pml4e : (k.envs e).envPml4e = some root) (below : va < utop)
    (looked : k.mem.pageLookup root va = .ok (result, mem)) : mem = k.mem ∧ result = k.found e va := by
  rw [spaces.memory.pageLookup (spaces.role inUse pml4e) below] at looked
  cases looked
  refine ⟨rfl, ?_⟩
  rw [Kernel.found, pml4e]
  rfl

theorem found_data (spaces : Spaces reserved k g) {e page : Nat} {va : Word} {slot : Slot} (inUse : k.InUse e)
    (below : va < utop) (found : k.found e va = some (page, slot)) :
    g.role page = .data ∧ Present (k.leaf e va) ∧ entryPage (k.leaf e va) = page ∧
      k.mem.read slot = k.leaf e va := by
  obtain ⟨root, pml4e, role⟩ := spaces.root inUse
  rw [Kernel.found, pml4e, Option.bind_some] at found
  obtain ⟨-, leaf, present, page'⟩ := Memory.lookup_eq_some.mp found
  rw [Kernel.leaf_eq pml4e, Memory.entry_of_leafSlot leaf]
  exact ⟨spaces.memory.lookup_data role below found, present, page', rfl⟩

end Spaces

theorem below_of_good {va : Word} (good : ¬ BadVa va) : va < utop := BitVec.not_le.mp fun high => good (.inl high)

namespace Spaces

theorem sysPageAlloc (spaces : Spaces reserved k g) (inUse : k.InUse cur) {envid : BitVec 32} {va : Word}
    {perm : BitVec 32} (careful : (Syscall.pageAlloc envid va perm).Careful k cur)
    (done : k.sysPageAlloc cur envid va perm = .ok (code, k')) :
    ∃ mem g', k' = k.setMem mem ∧
      ((code < 0 ∧ Shows reserved k g k.leaf mem g') ∨
        code = 0 ∧ ∃ i, (Syscall.pageAlloc envid va perm).insertion k cur = some i ∧ i.source = none ∧
          Shows reserved k g (Insertion.view k (some i)) mem g' ∧ g.role i.page = .free ∧ ∀ j, mem.word i.page j = 0) := by
  have insertion : ∀ {usedEnv page}, k.envid2env cur envid true = some usedEnv → ¬ BadVa va →
      ¬ BadPerm perm → k.mem.pageFreeList = some page →
      (Syscall.pageAlloc envid va perm).insertion k cur = some ⟨none, page, usedEnv, va, perm⟩ := by
    intro usedEnv page target goodVa goodPerm head
    simp [Syscall.insertion, target, head, goodVa, goodPerm]
  cases Kernel.sysPageAlloc_outcome done with
  | badEnv | inval => exact ⟨k.mem, g, rfl, .inl ⟨by decide, spaces.shows_refl⟩⟩
  | noPage usedEnv mem target goodVa goodPerm empty =>
    rcases spaces.memory.pageAlloc with ⟨-, alloc⟩ | ⟨page, m', -, alloc, -⟩
    · rw [alloc] at empty
      cases empty
      exact ⟨k.mem, g, rfl, .inl ⟨by decide, spaces.shows_refl⟩⟩
    · rw [alloc] at empty
      cases empty
  | noTable usedEnv root page mem mem' freed target goodVa goodPerm allocated pml4e failed free =>
    obtain ⟨head, -⟩ := spaces.memory.fresh allocated
    obtain ⟨low, fits⟩ := careful _ (insertion target goodVa goodPerm head)
    obtain ⟨-, -, -, unchanged⟩ := spaces.alloc (inUse.target target) pml4e (below_of_good goodVa) low
      allocated (fits root pml4e).1 failed
    obtain ⟨g', shown⟩ := unchanged rfl freed free
    exact ⟨freed, g', rfl, .inl ⟨by decide, shown⟩⟩
  | done usedEnv root page mem mem' target goodVa goodPerm allocated pml4e inserted =>
    obtain ⟨head, -⟩ := spaces.memory.fresh allocated
    have here := insertion target goodVa goodPerm head
    obtain ⟨low, fits⟩ := careful _ here
    obtain ⟨-, free, mapped, -⟩ := spaces.alloc (inUse.target target) pml4e (below_of_good goodVa) low
      allocated (fits root pml4e).1 inserted
    obtain ⟨zero, g', shown⟩ := mapped rfl
    exact ⟨mem', g', rfl, .inr ⟨rfl, _, here, rfl, shown, free, zero⟩⟩

theorem sysPageMap (spaces : Spaces reserved k g) (inUse : k.InUse cur) {srcenvid dstenvid : BitVec 32}
    {srcva dstva : Word} {perm : BitVec 32}
    (careful : (Syscall.pageMap srcenvid srcva dstenvid dstva perm).Careful k cur)
    (done : k.sysPageMap cur srcenvid srcva dstenvid dstva perm = .ok (code, k')) :
    ∃ mem g', k' = k.setMem mem ∧
      ((code < 0 ∧ Shows reserved k g k.leaf mem g') ∨
        code = 0 ∧ ∃ i, (Syscall.pageMap srcenvid srcva dstenvid dstva perm).insertion k cur = some i ∧
          Shows reserved k g (Insertion.view k (some i)) mem g') := by
  cases Kernel.sysPageMap_outcome done with
  | badEnv | badVa => exact ⟨k.mem, g, rfl, .inl ⟨by decide, spaces.shows_refl⟩⟩
  | inval srcEnv dstEnv srcRoot found mem source target goodSrc goodDst srcPml4e lookup bad =>
    obtain ⟨rfl, -⟩ := spaces.pageLookup (inUse.target source) srcPml4e (below_of_good goodSrc) lookup
    exact ⟨k.mem, g, rfl, .inl ⟨by decide, spaces.shows_refl⟩⟩
  | insert srcEnv dstEnv srcRoot dstRoot page pte inserted mem mem' source target goodSrc goodDst goodPerm
      srcPml4e lookup dstPml4e result =>
    have sourceUse := inUse.target source
    obtain ⟨rfl, found⟩ := spaces.pageLookup sourceUse srcPml4e (below_of_good goodSrc) lookup
    have insertion : (Syscall.pageMap srcenvid srcva dstenvid dstva perm).insertion k cur =
        some ⟨some (srcEnv, srcva), page, dstEnv, dstva, perm⟩ := by
      simp [Syscall.insertion, source, target, ← found, goodSrc, goodDst, goodPerm]
    obtain ⟨low, fits⟩ := careful _ insertion
    have data := (spaces.found_data sourceUse (below_of_good goodSrc) found.symm).1
    obtain ⟨g', shown, -⟩ := spaces.insert (inUse.target target) dstPml4e (below_of_good goodDst) low
      (.of_fits data (fits dstRoot dstPml4e)) result
    refine ⟨mem', g', rfl, ?_⟩
    cases inserted with
    | false => exact .inl ⟨by decide, shown⟩
    | true => exact .inr ⟨rfl, _, insertion, shown⟩

theorem sysPageUnmap (spaces : Spaces reserved k g) (inUse : k.InUse cur) {envid : BitVec 32} {va : Word}
    (done : k.sysPageUnmap cur envid va = .ok (code, k')) :
    ∃ mem g', k' = k.setMem mem ∧ ((code < 0 ∧ Shows reserved k g k.leaf mem g') ∨
      code = 0 ∧ ∃ e, k.envid2env cur envid true = some e ∧
        Shows reserved k g (if (k.found e va).isSome then remap k.leaf e va 0 else k.leaf) mem g') := by
  cases Kernel.sysPageUnmap_outcome done with
  | badEnv | inval => exact ⟨k.mem, g, rfl, .inl ⟨by decide, spaces.shows_refl⟩⟩
  | done usedEnv root mem target goodVa pml4e removed =>
    obtain ⟨g', shown⟩ := spaces.remove (inUse.target target) pml4e (below_of_good goodVa) removed
    refine ⟨mem, g', rfl, .inr ⟨rfl, usedEnv, target, ?_⟩⟩
    rw [Kernel.found, pml4e]
    exact shown

/-- A send that fails maps nothing, and one that goes through maps the page it offers if the receiver
    wants one. -/
theorem sysIpcTrySend (spaces : Spaces reserved k g) (inUse : k.InUse cur) {envid value : BitVec 32} {srcva : Word}
    {perm : BitVec 32} (careful : (Syscall.ipcTrySend envid value srcva perm).Careful k cur)
    (done : k.sysIpcTrySend cur envid value srcva perm = .ok (code, k')) :
    ∃ mem g', (code < 0 ∧ k' = k.setMem mem ∧ Shows reserved k g k.leaf mem g') ∨
      code = 0 ∧ ∃ target given, k.envid2env cur envid false = some target ∧
        (k.envs target).envIpcRecving = true ∧
        k' = ((k.setMem mem).setIpcPerm target given).deliver cur target value ∧
        Shows reserved k g (Insertion.view k ((Syscall.ipcTrySend envid value srcva perm).insertion k cur)) mem g' := by
  cases Kernel.sysIpcTrySend_outcome done with
  | badEnv | notRecv | badArgs => exact ⟨k.mem, g, .inl ⟨by decide, rfl, spaces.shows_refl⟩⟩
  | inval target root source mem found recving below goodPerm pml4e lookup bad =>
    obtain ⟨rfl, -⟩ := spaces.pageLookup inUse pml4e below lookup
    exact ⟨k.mem, g, .inl ⟨by decide, rfl, spaces.shows_refl⟩⟩
  | noTable target root dstRoot page pte mem mem' found recving below aligned goodPerm pml4e lookup write
      goodDst dstPml4e failed =>
    obtain ⟨rfl, source⟩ := spaces.pageLookup inUse pml4e below lookup
    have goodSrc : ¬ BadVa srcva := by simp [BadVa, aligned, BitVec.not_le.mpr below]
    have insertion : (Syscall.ipcTrySend envid value srcva perm).insertion k cur =
        some ⟨some (cur, srcva), page, target, (k.envs target).envIpcDstva, perm⟩ := by
      simp [Syscall.insertion, found, ← source, recving, goodSrc, goodPerm, goodDst]
      exact write
    obtain ⟨low, fits⟩ := careful _ insertion
    have data := (spaces.found_data inUse below source.symm).1
    obtain ⟨g', shown, -⟩ := spaces.insert (inUse.target found) dstPml4e (below_of_good goodDst) low
      (.of_fits data (fits dstRoot dstPml4e)) failed
    exact ⟨mem', g', .inl ⟨by decide, rfl, shown⟩⟩
  | page target root dstRoot page pte mem mem' found recving below aligned goodPerm pml4e lookup write
      goodDst dstPml4e inserted =>
    obtain ⟨rfl, source⟩ := spaces.pageLookup inUse pml4e below lookup
    have goodSrc : ¬ BadVa srcva := by simp [BadVa, aligned, BitVec.not_le.mpr below]
    have insertion : (Syscall.ipcTrySend envid value srcva perm).insertion k cur =
        some ⟨some (cur, srcva), page, target, (k.envs target).envIpcDstva, perm⟩ := by
      simp [Syscall.insertion, found, ← source, recving, goodSrc, goodPerm, goodDst]
      exact write
    obtain ⟨low, fits⟩ := careful _ insertion
    have data := (spaces.found_data inUse below source.symm).1
    obtain ⟨g', shown, -⟩ := spaces.insert (inUse.target found) dstPml4e (below_of_good goodDst) low
      (.of_fits data (fits dstRoot dstPml4e)) inserted
    refine ⟨mem', g', .inr ⟨rfl, target, perm, found, recving, rfl, ?_⟩⟩
    rw [insertion]
    exact shown
  | unwanted target root page pte mem found recving below aligned goodPerm pml4e lookup write noPage =>
    obtain ⟨rfl, source⟩ := spaces.pageLookup inUse pml4e below lookup
    have badDst : BadVa (k.envs target).envIpcDstva := .inl (BitVec.not_lt.mp noPage)
    have insertion : (Syscall.ipcTrySend envid value srcva perm).insertion k cur = none := by
      simp [Syscall.insertion, found, ← source, badDst]
    refine ⟨k.mem, g, .inr ⟨rfl, target, _, found, recving,
      Kernel.deliver_setIpcPerm_self k k.mem cur target value, ?_⟩⟩
    rw [insertion]
    exact spaces.shows_refl
  | value target found recving noPage =>
    have badSrc : BadVa srcva := .inl (BitVec.not_lt.mp noPage)
    have insertion : (Syscall.ipcTrySend envid value srcva perm).insertion k cur = none := by
      simp only [Syscall.insertion, found, badSrc, true_or, or_true, if_true, Option.bind_eq_bind,
        Option.bind_some]
      cases k.found cur srcva <;> rfl
    refine ⟨k.mem, g, .inr ⟨rfl, target, _, found, recving,
      Kernel.deliver_setIpcPerm_self k k.mem cur target value, ?_⟩⟩
    rw [insertion]
    exact spaces.shows_refl

end Spaces

end Jos
