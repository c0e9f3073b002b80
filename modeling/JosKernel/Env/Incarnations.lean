import JosKernel.Env.Lifecycle

namespace Jos

-- The log of environments made and freed

def Notice.slot : Notice → Nat
  | .newEnv _ envid | .freeEnv _ envid => envx envid

/-- The environment with the id `envid` has been made, and its slot has not been freed or reused since. -/
def Alive (log : List Notice) (envid : BitVec 32) : Prop :=
  ∃ before cur after, log = before ++ .newEnv cur envid :: after ∧ ∀ notice ∈ after, notice.slot ≠ envx envid

def FreedOnce (log : List Notice) : Prop :=
  ∀ before cur envid after, log = before ++ .freeEnv cur envid :: after → Alive before envid

theorem Alive.snoc_new (log : List Notice) (cur envid : BitVec 32) : Alive (log ++ [.newEnv cur envid]) envid :=
  ⟨log, cur, [], rfl, by simp⟩

theorem Alive.snoc {log : List Notice} {envid : BitVec 32} {notice : Notice} (alive : Alive log envid)
    (other : notice.slot ≠ envx envid) : Alive (log ++ [notice]) envid := by
  obtain ⟨before, cur, after, rfl, quiet⟩ := alive
  refine ⟨before, cur, after ++ [notice], by simp, ?_⟩
  intro later member
  rcases List.mem_append.mp member with member | member
  · exact quiet later member
  · rw [List.mem_singleton.mp member]
    exact other

theorem FreedOnce.snoc {log : List Notice} {notice : Notice} (once : FreedOnce log)
    (alive : ∀ cur envid, notice = .freeEnv cur envid → Alive log envid) : FreedOnce (log ++ [notice]) := by
  intro before cur envid after split
  rcases List.eq_nil_or_concat after with rfl | ⟨rest, last, rfl⟩
  · obtain ⟨rfl, same⟩ := List.append_inj' split rfl
    cases same
    exact alive cur envid rfl
  · have front : log = before ++ .freeEnv cur envid :: rest := by
      have whole : log ++ [notice] = (before ++ .freeEnv cur envid :: rest) ++ [last] := by
        rw [split]
        simp
      exact (List.append_inj' whole rfl).1
    exact once before cur envid rest front

structure Incarnations (k : Kernel) : Prop where
  freedOnce : FreedOnce k.console
  alive : ∀ e, e < nenv → (k.envs e).envStatus ≠ .free → Alive k.console (k.envs e).envId

namespace Kernel

variable {k k' : Kernel} {cur : Option Nat}

theorem envAlloc_ok {parentId : BitVec 32} {result : Except Int Nat}
    (allocated : k.envAlloc cur parentId = .ok (result, k')) :
    (∃ code, result = .error code ∧
        (k.envFreeList = none ∧ k' = k ∨ ∃ mem, k.mem.envSetupVm = .ok (none, mem) ∧ k' = k.setMem mem)) ∨
      ∃ e p mem, result = .ok e ∧ k.envFreeList = some e ∧ k.mem.envSetupVm = .ok (some p, mem) ∧
        ∃ caller, k' = (((k.setMem mem).setEnv e (newEnv (k.envs e) e p parentId)).setEnvFreeList
          (k.envs e).envLink).say (.newEnv caller (nextEnvId (k.envs e).envId e)) := by
  unfold envAlloc at allocated
  split at allocated
  · rename_i empty
    cases allocated
    exact .inl ⟨_, rfl, .inl ⟨empty, rfl⟩⟩
  · rename_i e head
    obtain ⟨⟨p, mem⟩, setup, rest⟩ := Fallible.bind_ok.mp allocated
    cases p with
    | none =>
      cases rest
      exact .inl ⟨_, rfl, .inr ⟨mem, setup, rfl⟩⟩
    | some p =>
      cases rest
      exact .inr ⟨e, p, mem, rfl, head, setup, _, rfl⟩

theorem envAlloc_of {e p : Nat} {mem : Memory} (head : k.envFreeList = some e)
    (setup : k.mem.envSetupVm = .ok (some p, mem)) (cur : Option Nat) (parentId : BitVec 32) :
    k.envAlloc cur parentId = .ok (.ok e, (((k.setMem mem).setEnv e (newEnv (k.envs e) e p parentId)).setEnvFreeList
      (k.envs e).envLink).say (.newEnv ((k.setEnv e (newEnv (k.envs e) e p parentId)).curId cur)
        (nextEnvId (k.envs e).envId e))) := by
  simp only [envAlloc, head]
  rw [Fallible.bind_of_ok setup]
  rfl

theorem envFree_ok {e : Nat} (freed : k.envFree cur e = .ok k') :
    ∃ root mem, (k.envs e).envPml4e = some root ∧ k.mem.freeSpace root (k.envs e).envCr3 = .ok mem ∧
      k' = (((k.say (.freeEnv (k.curId cur) (k.envs e).envId)).setMem mem).setEnv e { k.envs e with
        envPml4e := none, envCr3 := 0, envStatus := .free, envLink := k.envFreeList }).setEnvFreeList (some e) := by
  unfold envFree at freed
  obtain ⟨root, pml4e, rest⟩ := Fallible.bind_ok.mp freed
  obtain ⟨mem, space, rest⟩ := Fallible.bind_ok.mp rest
  cases rest
  refine ⟨root, mem, ?_, space, rfl⟩
  unfold pml4eOf at pml4e
  split at pml4e
  · cases pml4e
  · rename_i page found
    cases pml4e
    exact found

theorem envFree_status {e : Nat} (freed : k.envFree cur e = .ok k') : (k'.envs e).envStatus = .free := by
  obtain ⟨root, mem, -, -, rfl⟩ := envFree_ok freed
  rw [setEnvFreeList_envs, setEnv_envs, if_pos rfl]

theorem envFree_of {e root : Nat} {mem : Memory} (pml4e : (k.envs e).envPml4e = some root)
    (freed : k.mem.freeSpace root (k.envs e).envCr3 = .ok mem) (cur : Option Nat) :
    k.envFree cur e = .ok ((((k.say (.freeEnv (k.curId cur) (k.envs e).envId)).setMem mem).setEnv e { k.envs e with
      envPml4e := none, envCr3 := 0, envStatus := .free, envLink := k.envFreeList }).setEnvFreeList (some e)) := by
  have own : (k.say (.freeEnv (k.curId cur) (k.envs e).envId)).pml4eOf e = .ok root := pml4eOf_ok.mpr pml4e
  simp only [envFree]
  rw [Fallible.bind_of_ok own, say_mem, say_envs, Fallible.bind_of_ok freed]
  rfl

end Kernel

end Jos
