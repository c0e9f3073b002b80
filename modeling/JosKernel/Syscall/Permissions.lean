import JosKernel.Env.Boot
import JosKernel.Pmap.Access
import JosKernel.Sched.Yield
import JosKernel.Syscall.Outcomes

namespace Jos

/-- `PTE_U` or `PTE_P` is missing. -/
def LacksUser (perm : BitVec 32) : Prop :=
  perm &&& pteU.setWidth 32 = 0 ∨ perm &&& pteP.setWidth 32 = 0

def OutsideSyscall (perm : BitVec 32) : Prop := perm &&& ~~~(pteSyscall.setWidth 32) ≠ 0

instance (perm : BitVec 32) : Decidable (LacksUser perm) := inferInstanceAs (Decidable (_ ∨ _))
instance (perm : BitVec 32) : Decidable (OutsideSyscall perm) := inferInstanceAs (Decidable (_ ≠ _))

theorem badPerm_iff (perm : BitVec 32) : BadPerm perm ↔ LacksUser perm := by
  have zero : perm &&& logicalNot (pteSyscall.setWidth 32) = 0 := BitVec.and_zero
  rw [BadPerm, LacksUser, zero]
  tauto

theorem and_syscall_of_inside {perm : BitVec 32} (inside : ¬ OutsideSyscall perm) :
    perm &&& pteSyscall.setWidth 32 = perm := by
  have outside : perm &&& ~~~(pteSyscall.setWidth 32) = 0#32 := not_not.mp inside
  have split : perm &&& (pteSyscall.setWidth 32 ||| ~~~(pteSyscall.setWidth 32)) = perm := by
    rw [show pteSyscall.setWidth 32 ||| ~~~(pteSyscall.setWidth 32) = BitVec.allOnes 32 by decide,
      BitVec.and_allOnes]
  rw [BitVec.and_or_distrib_left, outside, BitVec.or_zero] at split
  exact split

theorem small_of_inside {perm : BitVec 32} (inside : ¬ OutsideSyscall perm) : perm.toNat < 4096 := by
  rw [← and_syscall_of_inside inside, BitVec.toNat_and]
  exact Nat.lt_of_le_of_lt Nat.and_le_right (by decide)

theorem leafFlags_inside {perm : BitVec 32} (inside : ¬ OutsideSyscall perm) :
    leafFlags perm &&& ~~~pteSyscall = 0 := by
  have small := small_of_inside inside
  have joined : perm ||| pteP.setWidth 32 =
      (perm ||| pteP.setWidth 32) &&& pteSyscall.setWidth 32 := by
    rw [BitVec.and_or_distrib_right, and_syscall_of_inside inside,
      show pteP.setWidth 32 &&& pteSyscall.setWidth 32 = pteP.setWidth 32 by decide]
  have wide : (pteSyscall.setWidth 32).setWidth 64 = pteSyscall := by decide
  rw [leafFlags_eq perm small, joined, BitVec.setWidth_and, wide, BitVec.and_assoc,
    show pteSyscall &&& ~~~pteSyscall = 0#64 by decide, BitVec.and_zero]
  rfl

/-- What a leaf entry for `page` that a system call installs is to look like. -/
def GoodEntry (page : Nat) (entry : Word) : Prop :=
  pteAddr entry = page2pa page ∧ entry &&& flagMask &&& ~~~pteSyscall = 0 ∧
    entry &&& pteP ≠ 0 ∧ entry &&& pteU ≠ 0

theorem goodEntry_leafEntry {page : Nat} {perm : BitVec 32} (inside : ¬ OutsideSyscall perm)
    (user : ¬ LacksUser perm) : GoodEntry page (leafEntry page perm) := by
  have small := small_of_inside inside
  refine ⟨pteAddr_leafEntry page perm small, ?_, present_leafEntry page perm, ?_⟩
  · rw [leafEntry_flags page perm small, leafFlags_inside inside]
  · have bit : perm.getLsbD 2 = true := by
      by_contra clear
      apply user
      left
      rw [show pteU.setWidth 32 = BitVec.twoPow 32 2 by decide, BitVec.and_twoPow, if_neg clear]
      rfl
    rw [show pteU = BitVec.twoPow 64 2 by decide, BitVec.and_twoPow,
      leafEntry_getLsbD page perm (by decide), bit]
    decide

namespace Kernel

/-- The calls that map a page: a send is one if it offers a page, as `below` says. -/
inductive PageCall
  | alloc (envid : BitVec 32) (va : Word) (perm : BitVec 32)
  | map (srcenvid : BitVec 32) (srcva : Word) (dstenvid : BitVec 32) (dstva : Word) (perm : BitVec 32)
  | send (envid value : BitVec 32) (srcva : Word) (perm : BitVec 32) (below : srcva < utop)

namespace PageCall

def perm : PageCall → BitVec 32
  | alloc _ _ perm | map _ _ _ _ perm | send _ _ _ perm _ => perm

def run (k : Kernel) (cur : Nat) : PageCall → Except Stop (Int × Kernel)
  | alloc envid va perm => k.sysPageAlloc cur envid va perm
  | map srcenvid srcva dstenvid dstva perm => k.sysPageMap cur srcenvid srcva dstenvid dstva perm
  | send envid value srcva perm _ => k.sysIpcTrySend cur envid value srcva perm

/-- A successful `page_insert` of `page` at `va`, seen from the memory it was given and the one in the
    end: the entry that the walk found is now as it should be. -/
def Installed (before : Memory) (root page : Nat) (va : Word) (after : Memory) : Prop :=
  ∃ slot middle, before.pml4eWalk root va true = .ok (some slot, middle) ∧ GoodEntry page (after.read slot)

/-- What a call that returns 0 is to have installed: the page it allocated or looked up, at the
    address asked for. A receiver that asks for no page gets none. -/
def Outcome (k : Kernel) (cur : Nat) (after : Memory) : PageCall → Prop
  | alloc envid va _ => ∃ usedEnv root page mem, k.envid2env cur envid true = some usedEnv ∧
      (k.envs usedEnv).envPml4e = some root ∧ k.mem.pageAlloc true = .ok (some page, mem) ∧
      Installed mem root page va after
  | map srcenvid srcva dstenvid dstva _ => ∃ srcEnv dstEnv srcRoot dstRoot page pte mem,
      k.envid2env cur srcenvid true = some srcEnv ∧ k.envid2env cur dstenvid true = some dstEnv ∧
      (k.envs srcEnv).envPml4e = some srcRoot ∧ (k.envs dstEnv).envPml4e = some dstRoot ∧
      k.mem.pageLookup srcRoot srcva = .ok (some (page, pte), mem) ∧
      Installed mem dstRoot page dstva after
  | send envid _ srcva _ _ => ∃ target root page pte mem, k.envid2env cur envid false = some target ∧
      (k.envs cur).envPml4e = some root ∧ k.mem.pageLookup root srcva = .ok (some (page, pte), mem) ∧
      ((k.envs target).envIpcDstva < utop → ∃ dstRoot, (k.envs target).envPml4e = some dstRoot ∧
        Installed mem dstRoot page (k.envs target).envIpcDstva after)

def Validates (k : Kernel) (cur : Nat) (call : PageCall) : Prop :=
  (∀ after, call.run k cur = .ok (0, after) → call.Outcome k cur after.mem) ∧
    (OutsideSyscall call.perm → call.run k cur = .ok (-eInval, k))

def Looks (k : Kernel) (e : Nat) (va : Word) (found : Option (Nat × Slot)) : Prop :=
  ∃ root, (k.envs e).envPml4e = some root ∧ k.mem.pageLookup root va = .ok (found, k.mem)

def RefusedAnyway (k : Kernel) (cur : Nat) : PageCall → Prop
  | alloc envid va perm => k.envid2env cur envid true ≠ none ∧ (BadVa va ∨ LacksUser perm)
  | map srcenvid srcva dstenvid dstva perm => ∃ srcEnv, k.envid2env cur srcenvid true = some srcEnv ∧
      k.envid2env cur dstenvid true ≠ none ∧
      (BadVa srcva ∨ BadVa dstva ∨
        ∃ found, Looks k srcEnv srcva found ∧ (found = none ∨ LacksUser perm))
  | send envid _ srcva perm _ => ∃ target, k.envid2env cur envid false = some target ∧
      (k.envs target).envIpcRecving = true ∧
      (srcva % BitVec.ofNat 64 pgSize ≠ 0 ∨ LacksUser perm ∨ Looks k cur srcva none ∨
        ∃ page pte, Looks k cur srcva (some (page, pte)) ∧
          (perm &&& pteW.setWidth 32 ≠ 0 ∧ k.mem.read pte &&& pteW = 0 ∨
            (k.envs target).envIpcDstva < utop ∧
              (k.envs target).envIpcDstva % BitVec.ofNat 64 pgSize ≠ 0))

theorem Installed.of_pageInsert {before after : Memory} {root page : Nat} {va : Word} {perm : BitVec 32}
    (inserted : before.pageInsert root page va perm = .ok (true, after))
    (inside : ¬ OutsideSyscall perm) (user : ¬ BadPerm perm) : Installed before root page va after := by
  obtain ⟨slot, middle, walk, entry⟩ := Memory.pageInsert_slot inserted
  refine ⟨slot, middle, walk, ?_⟩
  rw [entry]
  exact goodEntry_leafEntry inside (mt (badPerm_iff perm).mpr user)

theorem outcome_of_inside {k after : Kernel} {cur : Nat} {call : PageCall}
    (done : call.run k cur = .ok (0, after)) (inside : ¬ OutsideSyscall call.perm) :
    call.Outcome k cur after.mem := by
  cases call with
  | alloc envid va perm =>
    generalize zero : (0 : Int) = code at done
    cases sysPageAlloc_outcome done with
    | done usedEnv root page mem mem' target goodVa goodPerm allocated pml4e inserted =>
      exact ⟨usedEnv, root, page, mem, target, pml4e, allocated, .of_pageInsert inserted inside goodPerm⟩
    | _ => cases zero
  | map srcenvid srcva dstenvid dstva perm =>
    generalize zero : (0 : Int) = code at done
    cases sysPageMap_outcome done with
    | insert srcEnv dstEnv srcRoot dstRoot page pte inserted mem mem' source target goodSrc goodDst
        goodPerm srcPml4e lookup dstPml4e result =>
      cases inserted with
      | false => cases zero
      | true =>
        exact ⟨srcEnv, dstEnv, srcRoot, dstRoot, page, pte, mem, source, target, srcPml4e, dstPml4e,
          lookup, .of_pageInsert result inside goodPerm⟩
    | _ => cases zero
  | send envid value srcva perm below =>
    generalize zero : (0 : Int) = code at done
    cases sysIpcTrySend_outcome done with
    | page target root dstRoot page pte mem mem' found recving below aligned goodPerm pml4e lookup write
        goodDst dstPml4e inserted =>
      exact ⟨target, root, page, pte, mem, found, pml4e, lookup, fun _ =>
        ⟨dstRoot, dstPml4e, .of_pageInsert inserted inside goodPerm⟩⟩
    | unwanted target root page pte mem found recving below aligned goodPerm pml4e lookup write noPage =>
      exact ⟨target, root, page, pte, mem, found, pml4e, lookup, fun wanted => absurd wanted noPage⟩
    | value target found recving noPage => exact absurd below noPage
    | _ => cases zero

theorem mem_eq_of_setMem {k : Kernel} {mem : Memory} (same : k.setMem mem = k) : mem = k.mem :=
  congrArg Kernel.mem same

theorem refusedAnyway_of_inval {k after : Kernel} {cur : Nat} {call : PageCall} {code : Int}
    (returned : call.run k cur = .ok (code, after)) (inval : code = -eInval) (same : after = k) :
    call.RefusedAnyway k cur := by
  cases call with
  | alloc envid va perm =>
    cases sysPageAlloc_outcome returned with
    | inval usedEnv target bad => exact ⟨by simp [target], bad.imp_right (badPerm_iff perm).mp⟩
    | _ => cases inval
  | map srcenvid srcva dstenvid dstva perm =>
    cases sysPageMap_outcome returned with
    | badEnv none => cases inval
    | badVa srcEnv dstEnv source target bad =>
      refine ⟨srcEnv, source, by simp [target], ?_⟩
      rcases bad with bad | bad
      · exact .inl bad
      · exact .inr (.inl bad)
    | inval srcEnv dstEnv srcRoot found mem source target goodSrc goodDst srcPml4e lookup bad =>
      rw [mem_eq_of_setMem same] at lookup
      exact ⟨srcEnv, source, by simp [target], .inr (.inr ⟨found, ⟨srcRoot, srcPml4e, lookup⟩,
        bad.imp_right (badPerm_iff perm).mp⟩)⟩
    | insert srcEnv dstEnv srcRoot dstRoot page pte inserted =>
      cases inserted <;> cases inval
  | send envid value srcva perm below =>
    cases sysIpcTrySend_outcome returned with
    | badArgs target found recving below bad =>
      refine ⟨target, found, recving, ?_⟩
      rcases bad with bad | bad
      · exact .inl bad
      · exact .inr (.inl ((badPerm_iff perm).mp bad))
    | inval target root source mem found recving below goodPerm pml4e lookup bad =>
      have unchanged := mem_eq_of_setMem same
      subst unchanged
      refine ⟨target, found, recving, .inr (.inr ?_)⟩
      rcases bad with rfl | ⟨page, pte, rfl, bad⟩
      · exact .inl ⟨root, pml4e, lookup⟩
      · exact .inr ⟨page, pte, ⟨root, pml4e, lookup⟩, bad⟩
    | _ => cases inval

theorem inval_of_refusedAnyway {k : Kernel} {cur : Nat} {call : PageCall}
    (refused : call.RefusedAnyway k cur) : call.run k cur = .ok (-eInval, k) := by
  cases call with
  | alloc envid va perm =>
    obtain ⟨known, bad⟩ := refused
    obtain ⟨usedEnv, target⟩ := Option.ne_none_iff_exists'.mp known
    rw [run, sysPageAlloc, target]
    rcases bad with bad | bad
    · simp only [if_pos bad]
    · simp only [if_pos ((badPerm_iff perm).mpr bad), ite_self]
  | map srcenvid srcva dstenvid dstva perm =>
    obtain ⟨srcEnv, source, known, bad⟩ := refused
    obtain ⟨dstEnv, target⟩ := Option.ne_none_iff_exists'.mp known
    rw [run, sysPageMap, source]
    simp only [target]
    rcases bad with bad | bad | ⟨found, ⟨root, pml4e, lookup⟩, bad⟩
    · rw [if_pos bad]
    · rw [if_pos bad, ite_self]
    · rw [Fallible.bind_of_ok (pml4eOf_ok.mpr pml4e), Fallible.bind_of_ok lookup, setMem_self]
      rcases bad with rfl | bad
      · simp only [ite_self]
      · cases found with
        | none => simp only [ite_self]
        | some found => simp only [if_pos ((badPerm_iff perm).mpr bad), ite_self]
  | send envid value srcva perm below =>
    obtain ⟨target, found, recving, bad⟩ := refused
    rw [run, sysIpcTrySend, found]
    simp only [recving, Bool.true_eq_false, if_false, if_pos below]
    rcases bad with bad | bad | ⟨root, pml4e, lookup⟩ | ⟨page, pte, ⟨root, pml4e, lookup⟩, bad⟩
    · rw [if_pos bad]
    · rw [if_pos ((badPerm_iff perm).mpr bad), ite_self]
    · rw [Fallible.bind_of_ok (pml4eOf_ok.mpr pml4e), Fallible.bind_of_ok lookup, setMem_self]
      simp only [ite_self]
    · rw [Fallible.bind_of_ok (pml4eOf_ok.mpr pml4e), Fallible.bind_of_ok lookup, setMem_self]
      rcases bad with bad | ⟨wanted, misaligned⟩
      · simp only [if_pos bad, ite_self]
      · simp only [if_pos wanted, if_pos misaligned, ite_self]

/-- The calls treat `perm` as they should exactly when it stays inside PTE_SYSCALL or another argument
    makes them fail before they use it. -/
theorem validates_iff (k : Kernel) (cur : Nat) (call : PageCall) :
    call.Validates k cur ↔ ¬ OutsideSyscall call.perm ∨ call.RefusedAnyway k cur := by
  constructor
  · intro ⟨_, refuses⟩
    by_cases outside : OutsideSyscall call.perm
    · exact .inr (refusedAnyway_of_inval (refuses outside) rfl rfl)
    · exact .inl outside
  · rintro (inside | refused)
    · exact ⟨fun after done => outcome_of_inside done inside, fun outside => absurd outside inside⟩
    · have result := inval_of_refusedAnyway refused
      refine ⟨?_, fun _ => result⟩
      intro after done
      rw [result] at done
      cases done

/-- Bit 12 of `perm` is no flag: the allocation succeeds, and maps the page behind the new one. -/
theorem alloc_foreignPage : ∃ booted k k' : Kernel, smallBoot = some booted ∧
    booted.schedYield none = .ok (k, some 0) ∧
    (PageCall.alloc 0 utext 0x1007).run k 0 = .ok (0, k') ∧
    k.mem.pageFreeList = some 6 ∧
    ((k'.envs 0).envPml4e.bind fun root => k'.mem.mmuWalk root utext).map Translation.page = some 7 ∧
    ¬ Validates k 0 (.alloc 0 utext 0x1007) := by
  have result : (smallBoot.bind fun booted => (booted.schedYield none).toOption.bind fun yielded =>
      ((PageCall.alloc 0 utext 0x1007).run yielded.1 0).toOption.map fun mapped =>
        (yielded.2, mapped.1, yielded.1.mem.pageFreeList,
          ((mapped.2.envs 0).envPml4e.bind fun root => mapped.2.mem.mmuWalk root utext).map Translation.page)) =
      some (some 0, 0, some 6, some 7) := by
    rw [smallBoot_eq]
    decide +kernel
  obtain ⟨booted, done, rest⟩ := Option.bind_eq_some_iff.mp result
  obtain ⟨⟨k, cur⟩, yield, rest⟩ := Option.bind_eq_some_iff.mp rest
  obtain ⟨⟨code, k'⟩, ran, shown⟩ := Option.map_eq_some_iff.mp rest
  have first : cur = some 0 := congrArg Prod.fst shown
  have zero : code = 0 := congrArg (fun seen => seen.2.1) shown
  subst first zero
  have success := Fallible.toOption_eq_some.mp ran
  refine ⟨booted, k, k', done, Fallible.toOption_eq_some.mp yield, success,
    congrArg (fun seen => seen.2.2.1) shown, congrArg (fun seen => seen.2.2.2) shown, ?_⟩
  intro validates
  have refused := validates.2 (by decide)
  rw [success] at refused
  cases refused

end PageCall

end Kernel

end Jos
