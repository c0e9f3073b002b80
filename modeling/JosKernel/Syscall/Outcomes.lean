import JosKernel.Syscall.Pages

namespace Jos.Kernel

/-- Every way in which `sys_page_alloc` returns, with its result and the state it leaves. -/
inductive PageAllocOutcome (k : Kernel) (cur : Nat) (envid : BitVec 32) (va : Word) (perm : BitVec 32) :
    Int → Kernel → Prop
  | badEnv (none : k.envid2env cur envid true = none) : PageAllocOutcome k cur envid va perm (-eBadEnv) k
  | inval (usedEnv : Nat) (target : k.envid2env cur envid true = some usedEnv)
      (bad : BadVa va ∨ BadPerm perm) : PageAllocOutcome k cur envid va perm (-eInval) k
  | noPage (usedEnv : Nat) (mem : Memory) (target : k.envid2env cur envid true = some usedEnv)
      (goodVa : ¬ BadVa va) (goodPerm : ¬ BadPerm perm) (empty : k.mem.pageAlloc true = .ok (none, mem)) :
      PageAllocOutcome k cur envid va perm (-eNoMem) (k.setMem mem)
  | noTable (usedEnv root page : Nat) (mem mem' freed : Memory)
      (target : k.envid2env cur envid true = some usedEnv) (goodVa : ¬ BadVa va)
      (goodPerm : ¬ BadPerm perm) (allocated : k.mem.pageAlloc true = .ok (some page, mem))
      (pml4e : (k.envs usedEnv).envPml4e = some root)
      (failed : mem.pageInsert root page va perm = .ok (false, mem')) (free : mem'.pageFree page = .ok freed) :
      PageAllocOutcome k cur envid va perm (-eNoMem) (k.setMem freed)
  | done (usedEnv root page : Nat) (mem mem' : Memory)
      (target : k.envid2env cur envid true = some usedEnv) (goodVa : ¬ BadVa va)
      (goodPerm : ¬ BadPerm perm) (allocated : k.mem.pageAlloc true = .ok (some page, mem))
      (pml4e : (k.envs usedEnv).envPml4e = some root)
      (inserted : mem.pageInsert root page va perm = .ok (true, mem')) :
      PageAllocOutcome k cur envid va perm 0 (k.setMem mem')

theorem sysPageAlloc_outcome {k k' : Kernel} {cur : Nat} {envid : BitVec 32} {va : Word}
    {perm : BitVec 32} {code : Int} (returned : k.sysPageAlloc cur envid va perm = .ok (code, k')) :
    PageAllocOutcome k cur envid va perm code k' := by
  unfold sysPageAlloc at returned
  split at returned
  · rename_i none
    cases returned
    exact .badEnv none
  rename_i usedEnv target
  split at returned
  · rename_i bad
    cases returned
    exact .inval usedEnv target (.inl bad)
  rename_i goodVa
  split at returned
  · rename_i bad
    cases returned
    exact .inval usedEnv target (.inr bad)
  rename_i goodPerm
  obtain ⟨⟨newPage, mem⟩, allocated, rest⟩ := Fallible.bind_ok.mp returned
  cases newPage with
  | none =>
    cases rest
    exact .noPage usedEnv mem target goodVa goodPerm allocated
  | some newPage =>
    obtain ⟨root, pml4e, rest⟩ := Fallible.bind_ok.mp rest
    obtain ⟨⟨inserted, mem'⟩, insert, rest⟩ := Fallible.bind_ok.mp rest
    cases inserted with
    | false =>
      obtain ⟨freed, free, rest⟩ := Fallible.bind_ok.mp rest
      cases rest
      exact .noTable usedEnv root newPage mem mem' freed target goodVa goodPerm allocated
        (pml4eOf_ok.mp pml4e) insert free
    | true =>
      cases rest
      exact .done usedEnv root newPage mem mem' target goodVa goodPerm allocated
        (pml4eOf_ok.mp pml4e) insert

inductive PageMapOutcome (k : Kernel) (cur : Nat) (srcenvid : BitVec 32) (srcva : Word)
    (dstenvid : BitVec 32) (dstva : Word) (perm : BitVec 32) : Int → Kernel → Prop
  | badEnv (none : k.envid2env cur srcenvid true = none ∨ k.envid2env cur dstenvid true = none) :
      PageMapOutcome k cur srcenvid srcva dstenvid dstva perm (-eBadEnv) k
  | badVa (srcEnv dstEnv : Nat) (source : k.envid2env cur srcenvid true = some srcEnv)
      (target : k.envid2env cur dstenvid true = some dstEnv) (bad : BadVa srcva ∨ BadVa dstva) :
      PageMapOutcome k cur srcenvid srcva dstenvid dstva perm (-eInval) k
  | inval (srcEnv dstEnv srcRoot : Nat) (found : Option (Nat × Slot)) (mem : Memory)
      (source : k.envid2env cur srcenvid true = some srcEnv)
      (target : k.envid2env cur dstenvid true = some dstEnv) (goodSrc : ¬ BadVa srcva)
      (goodDst : ¬ BadVa dstva) (srcPml4e : (k.envs srcEnv).envPml4e = some srcRoot)
      (lookup : k.mem.pageLookup srcRoot srcva = .ok (found, mem)) (bad : found = none ∨ BadPerm perm) :
      PageMapOutcome k cur srcenvid srcva dstenvid dstva perm (-eInval) (k.setMem mem)
  | insert (srcEnv dstEnv srcRoot dstRoot page : Nat) (pte : Slot) (inserted : Bool) (mem mem' : Memory)
      (source : k.envid2env cur srcenvid true = some srcEnv)
      (target : k.envid2env cur dstenvid true = some dstEnv) (goodSrc : ¬ BadVa srcva)
      (goodDst : ¬ BadVa dstva) (goodPerm : ¬ BadPerm perm)
      (srcPml4e : (k.envs srcEnv).envPml4e = some srcRoot)
      (lookup : k.mem.pageLookup srcRoot srcva = .ok (some (page, pte), mem))
      (dstPml4e : (k.envs dstEnv).envPml4e = some dstRoot)
      (result : mem.pageInsert dstRoot page dstva perm = .ok (inserted, mem')) :
      PageMapOutcome k cur srcenvid srcva dstenvid dstva perm (if inserted then 0 else -eNoMem)
        (k.setMem mem')

theorem sysPageMap_outcome {k k' : Kernel} {cur : Nat} {srcenvid dstenvid : BitVec 32}
    {srcva dstva : Word} {perm : BitVec 32} {code : Int}
    (returned : k.sysPageMap cur srcenvid srcva dstenvid dstva perm = .ok (code, k')) :
    PageMapOutcome k cur srcenvid srcva dstenvid dstva perm code k' := by
  unfold sysPageMap at returned
  split at returned
  · rename_i none
    cases returned
    exact .badEnv (.inl none)
  rename_i srcEnv source
  split at returned
  · rename_i none
    cases returned
    exact .badEnv (.inr none)
  rename_i dstEnv target
  split at returned
  · rename_i bad
    cases returned
    exact .badVa srcEnv dstEnv source target (.inl bad)
  rename_i goodSrc
  split at returned
  · rename_i bad
    cases returned
    exact .badVa srcEnv dstEnv source target (.inr bad)
  rename_i goodDst
  obtain ⟨srcRoot, srcPml4e, rest⟩ := Fallible.bind_ok.mp returned
  obtain ⟨⟨found, mem⟩, lookup, rest⟩ := Fallible.bind_ok.mp rest
  have srcPml4e := pml4eOf_ok.mp srcPml4e
  cases found with
  | none =>
    cases rest
    exact .inval srcEnv dstEnv srcRoot none mem source target goodSrc goodDst srcPml4e lookup (.inl rfl)
  | some found =>
    simp only at rest
    split at rest
    · rename_i bad
      cases rest
      refine .inval srcEnv dstEnv srcRoot _ mem source target goodSrc goodDst srcPml4e lookup (.inr ?_)
      exact badPerm_of_first bad
    split at rest
    · rename_i bad
      cases rest
      exact .inval srcEnv dstEnv srcRoot _ mem source target goodSrc goodDst srcPml4e lookup (.inr bad)
    rename_i goodPerm
    obtain ⟨dstRoot, dstPml4e, rest⟩ := Fallible.bind_ok.mp rest
    obtain ⟨⟨inserted, mem'⟩, insert, rest⟩ := Fallible.bind_ok.mp rest
    cases rest
    exact .insert srcEnv dstEnv srcRoot dstRoot found.1 found.2 inserted mem mem' source target goodSrc
      goodDst goodPerm srcPml4e lookup (pml4eOf_ok.mp dstPml4e) insert

inductive PageUnmapOutcome (k : Kernel) (cur : Nat) (envid : BitVec 32) (va : Word) : Int → Kernel → Prop
  | badEnv (none : k.envid2env cur envid true = none) : PageUnmapOutcome k cur envid va (-eBadEnv) k
  | inval (usedEnv : Nat) (target : k.envid2env cur envid true = some usedEnv) (bad : BadVa va) :
      PageUnmapOutcome k cur envid va (-eInval) k
  | done (usedEnv root : Nat) (mem : Memory) (target : k.envid2env cur envid true = some usedEnv)
      (goodVa : ¬ BadVa va) (pml4e : (k.envs usedEnv).envPml4e = some root)
      (removed : k.mem.pageRemove root va = .ok mem) : PageUnmapOutcome k cur envid va 0 (k.setMem mem)

theorem sysPageUnmap_outcome {k k' : Kernel} {cur : Nat} {envid : BitVec 32} {va : Word} {code : Int}
    (returned : k.sysPageUnmap cur envid va = .ok (code, k')) :
    PageUnmapOutcome k cur envid va code k' := by
  unfold sysPageUnmap at returned
  split at returned
  · rename_i none
    cases returned
    exact .badEnv none
  rename_i usedEnv target
  split at returned
  · rename_i bad
    cases returned
    exact .inval usedEnv target bad
  rename_i goodVa
  obtain ⟨root, pml4e, rest⟩ := Fallible.bind_ok.mp returned
  obtain ⟨mem, removed, rest⟩ := Fallible.bind_ok.mp rest
  cases rest
  exact .done usedEnv root mem target goodVa (pml4eOf_ok.mp pml4e) removed

inductive IpcTrySendOutcome (k : Kernel) (cur : Nat) (envid value : BitVec 32) (srcva : Word)
    (perm : BitVec 32) : Int → Kernel → Prop
  | badEnv (none : k.envid2env cur envid false = none) :
      IpcTrySendOutcome k cur envid value srcva perm (-eBadEnv) k
  | notRecv (target : Nat) (found : k.envid2env cur envid false = some target)
      (idle : (k.envs target).envIpcRecving = false) :
      IpcTrySendOutcome k cur envid value srcva perm (-eIpcNotRecv) k
  | badArgs (target : Nat) (found : k.envid2env cur envid false = some target)
      (recving : (k.envs target).envIpcRecving = true) (below : srcva < utop)
      (bad : srcva % BitVec.ofNat 64 pgSize ≠ 0 ∨ BadPerm perm) :
      IpcTrySendOutcome k cur envid value srcva perm (-eInval) k
  | inval (target root : Nat) (source : Option (Nat × Slot)) (mem : Memory)
      (found : k.envid2env cur envid false = some target)
      (recving : (k.envs target).envIpcRecving = true) (below : srcva < utop)
      (goodPerm : ¬ BadPerm perm) (pml4e : (k.envs cur).envPml4e = some root)
      (lookup : k.mem.pageLookup root srcva = .ok (source, mem))
      (bad : source = none ∨ ∃ page pte, source = some (page, pte) ∧
        (perm &&& pteW.setWidth 32 ≠ 0 ∧ mem.read pte &&& pteW = 0 ∨
          (k.envs target).envIpcDstva < utop ∧
            (k.envs target).envIpcDstva % BitVec.ofNat 64 pgSize ≠ 0)) :
      IpcTrySendOutcome k cur envid value srcva perm (-eInval) (k.setMem mem)
  | noTable (target root dstRoot page : Nat) (pte : Slot) (mem mem' : Memory)
      (found : k.envid2env cur envid false = some target)
      (recving : (k.envs target).envIpcRecving = true) (below : srcva < utop)
      (aligned : srcva % BitVec.ofNat 64 pgSize = 0) (goodPerm : ¬ BadPerm perm)
      (pml4e : (k.envs cur).envPml4e = some root)
      (lookup : k.mem.pageLookup root srcva = .ok (some (page, pte), mem))
      (write : perm &&& pteW.setWidth 32 ≠ 0 → mem.read pte &&& pteW ≠ 0)
      (goodDst : ¬ BadVa (k.envs target).envIpcDstva)
      (dstPml4e : (k.envs target).envPml4e = some dstRoot)
      (failed : mem.pageInsert dstRoot page (k.envs target).envIpcDstva perm = .ok (false, mem')) :
      IpcTrySendOutcome k cur envid value srcva perm (-eNoMem) (k.setMem mem')
  | page (target root dstRoot page : Nat) (pte : Slot) (mem mem' : Memory)
      (found : k.envid2env cur envid false = some target)
      (recving : (k.envs target).envIpcRecving = true) (below : srcva < utop)
      (aligned : srcva % BitVec.ofNat 64 pgSize = 0) (goodPerm : ¬ BadPerm perm)
      (pml4e : (k.envs cur).envPml4e = some root)
      (lookup : k.mem.pageLookup root srcva = .ok (some (page, pte), mem))
      (write : perm &&& pteW.setWidth 32 ≠ 0 → mem.read pte &&& pteW ≠ 0)
      (goodDst : ¬ BadVa (k.envs target).envIpcDstva)
      (dstPml4e : (k.envs target).envPml4e = some dstRoot)
      (inserted : mem.pageInsert dstRoot page (k.envs target).envIpcDstva perm = .ok (true, mem')) :
      IpcTrySendOutcome k cur envid value srcva perm 0
        (((k.setMem mem').setIpcPerm target perm).deliver cur target value)
  | unwanted (target root page : Nat) (pte : Slot) (mem : Memory)
      (found : k.envid2env cur envid false = some target)
      (recving : (k.envs target).envIpcRecving = true) (below : srcva < utop)
      (aligned : srcva % BitVec.ofNat 64 pgSize = 0) (goodPerm : ¬ BadPerm perm)
      (pml4e : (k.envs cur).envPml4e = some root)
      (lookup : k.mem.pageLookup root srcva = .ok (some (page, pte), mem))
      (write : perm &&& pteW.setWidth 32 ≠ 0 → mem.read pte &&& pteW ≠ 0)
      (noPage : ¬ (k.envs target).envIpcDstva < utop) :
      IpcTrySendOutcome k cur envid value srcva perm 0 ((k.setMem mem).deliver cur target value)
  | value (target : Nat) (found : k.envid2env cur envid false = some target)
      (recving : (k.envs target).envIpcRecving = true) (noPage : ¬ srcva < utop) :
      IpcTrySendOutcome k cur envid value srcva perm 0 (k.deliver cur target value)

theorem sysIpcTrySend_outcome {k k' : Kernel} {cur : Nat} {envid value : BitVec 32} {srcva : Word}
    {perm : BitVec 32} {code : Int}
    (returned : k.sysIpcTrySend cur envid value srcva perm = .ok (code, k')) :
    IpcTrySendOutcome k cur envid value srcva perm code k' := by
  unfold sysIpcTrySend at returned
  split at returned
  · rename_i none
    cases returned
    exact .badEnv none
  rename_i target found
  split at returned
  · rename_i idle
    cases returned
    exact .notRecv target found idle
  rename_i recving
  rw [Bool.not_eq_false] at recving
  split at returned
  case isFalse noPage =>
    cases returned
    exact .value target found recving noPage
  case isTrue below =>
  split at returned
  · rename_i bad
    cases returned
    exact .badArgs target found recving below (.inl bad)
  rename_i aligned
  split at returned
  · rename_i bad
    cases returned
    exact .badArgs target found recving below (.inr bad)
  rename_i goodPerm
  obtain ⟨root, pml4e, rest⟩ := Fallible.bind_ok.mp returned
  obtain ⟨⟨source, mem⟩, lookup, rest⟩ := Fallible.bind_ok.mp rest
  have pml4e := pml4eOf_ok.mp pml4e
  cases source with
  | none =>
    cases rest
    exact .inval target root none mem found recving below goodPerm pml4e lookup (.inl rfl)
  | some source =>
    obtain ⟨page, pte⟩ := source
    simp only at rest
    split at rest
    · rename_i readOnly
      cases rest
      exact .inval target root _ mem found recving below goodPerm pml4e lookup
        (.inr ⟨page, pte, rfl, .inl readOnly⟩)
    rename_i write
    have write : perm &&& pteW.setWidth 32 ≠ 0 → mem.read pte &&& pteW ≠ 0 := by tauto
    split at rest
    case isFalse noPage =>
      cases rest
      exact .unwanted target root page pte mem found recving below (not_not.mp aligned) goodPerm pml4e
        lookup write noPage
    case isTrue wanted =>
    split at rest
    · rename_i misaligned
      cases rest
      exact .inval target root _ mem found recving below goodPerm pml4e lookup
        (.inr ⟨page, pte, rfl, .inr ⟨wanted, misaligned⟩⟩)
    rename_i dstAligned
    have goodDst : ¬ BadVa (k.envs target).envIpcDstva := by
      rintro (high | misaligned)
      · exact BitVec.not_le.mpr wanted high
      · exact dstAligned misaligned
    obtain ⟨dstRoot, dstPml4e, rest⟩ := Fallible.bind_ok.mp rest
    obtain ⟨⟨inserted, mem'⟩, insert, rest⟩ := Fallible.bind_ok.mp rest
    cases inserted with
    | false =>
      cases rest
      exact .noTable target root dstRoot page pte mem mem' found recving below (not_not.mp aligned)
        goodPerm pml4e lookup write goodDst (pml4eOf_ok.mp dstPml4e) insert
    | true =>
      cases rest
      exact .page target root dstRoot page pte mem mem' found recving below (not_not.mp aligned)
        goodPerm pml4e lookup write goodDst (pml4eOf_ok.mp dstPml4e) insert

-- What the calls change besides memory

theorem sysPageAlloc_setMem {k k' : Kernel} {cur : Nat} {envid : BitVec 32} {va : Word} {perm : BitVec 32}
    {code : Int} (returned : k.sysPageAlloc cur envid va perm = .ok (code, k')) : ∃ mem, k' = k.setMem mem := by
  cases sysPageAlloc_outcome returned <;> exact ⟨_, rfl⟩

theorem sysPageMap_setMem {k k' : Kernel} {cur : Nat} {srcenvid dstenvid : BitVec 32} {srcva dstva : Word}
    {perm : BitVec 32} {code : Int}
    (returned : k.sysPageMap cur srcenvid srcva dstenvid dstva perm = .ok (code, k')) :
    ∃ mem, k' = k.setMem mem := by
  cases sysPageMap_outcome returned <;> exact ⟨_, rfl⟩

theorem sysPageUnmap_setMem {k k' : Kernel} {cur : Nat} {envid : BitVec 32} {va : Word} {code : Int}
    (returned : k.sysPageUnmap cur envid va = .ok (code, k')) : ∃ mem, k' = k.setMem mem := by
  cases sysPageUnmap_outcome returned <;> exact ⟨_, rfl⟩

theorem deliver_setIpcPerm_self (k : Kernel) (mem : Memory) (cur target : Nat) (value : BitVec 32) :
    (k.setMem mem).deliver cur target value =
      ((k.setMem mem).setIpcPerm target (k.envs target).envIpcPerm).deliver cur target value := by
  have same : (k.setMem mem).setIpcPerm target (k.envs target).envIpcPerm = k.setMem mem :=
    setEnv_self (k.setMem mem) target
  rw [same]

theorem sysIpcTrySend_cases {k k' : Kernel} {cur : Nat} {envid value : BitVec 32} {srcva : Word}
    {perm : BitVec 32} {code : Int} (returned : k.sysIpcTrySend cur envid value srcva perm = .ok (code, k')) :
    (code < 0 ∧ ∃ mem, k' = k.setMem mem) ∨
      code = 0 ∧ ∃ target mem given, k.envid2env cur envid false = some target ∧
        (k.envs target).envIpcRecving = true ∧
        k' = ((k.setMem mem).setIpcPerm target given).deliver cur target value := by
  cases sysIpcTrySend_outcome returned with
  | page target root dstRoot page pte mem mem' found recving =>
    exact .inr ⟨rfl, target, mem', perm, found, recving, rfl⟩
  | unwanted target root page pte mem found recving =>
    exact .inr ⟨rfl, target, mem, _, found, recving, deliver_setIpcPerm_self k mem cur target value⟩
  | value target found recving =>
    exact .inr ⟨rfl, target, k.mem, _, found, recving, deliver_setIpcPerm_self k k.mem cur target value⟩
  | _ => exact .inl ⟨by decide, _, rfl⟩

end Jos.Kernel
