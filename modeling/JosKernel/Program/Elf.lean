import JosKernel.Program.Segments

namespace Jos

-- inc/elf.h

def elfMagic : Word := 0x464C457F
def elfProgLoad : Word := 1

abbrev Binary := Word → BitVec 8

/-- The `size` bytes from `offset` on, the lowest first. -/
def Binary.field (binary : Binary) (offset : Word) : Nat → Word
  | 0 => 0
  | size + 1 => (binary offset).setWidth 64 ||| binary.field (offset + 1) size <<< 8

def sizeofProghdr : Nat := 56

structure ElfProghdr where
  pType : Word
  pOffset : Word
  pVa : Word
  pFilesz : Word
  pMemsz : Word
  deriving DecidableEq

namespace Binary

variable (binary : Binary)

def eMagic : Word := binary.field 0 4
def eEntry : Word := binary.field 24 8
def ePhoff : Word := binary.field 32 8
def ePhnum : Word := binary.field 56 2

def proghdrAt (ph : Word) : ElfProghdr where
  pType := binary.field ph 4
  pOffset := binary.field (ph + 8) 8
  pVa := binary.field (ph + 16) 8
  pFilesz := binary.field (ph + 32) 8
  pMemsz := binary.field (ph + 40) 8

def proghdrs : List ElfProghdr :=
  (List.range binary.ePhnum.toNat).map fun i => binary.proghdrAt (binary.ePhoff + BitVec.ofNat 64 (sizeofProghdr * i))

def loadable : List ElfProghdr := binary.proghdrs.filter fun ph => ph.pType = elfProgLoad

def segment (ph : ElfProghdr) : Proghdr where
  pVa := ph.pVa
  pMemsz := ph.pMemsz
  contents := (List.range ph.pFilesz.toNat).map fun k => binary (ph.pOffset + BitVec.ofNat 64 k)

def program : Program where
  headers := binary.loadable.map binary.segment
  entry := binary.eEntry

end Binary

-- kern/env.c

def Kernel.loadIcode (k : Kernel) (e : Nat) (binary : Binary) : Except Stop Kernel :=
  if binary.eMagic ≠ elfMagic then .error .panic
  else do
    let root ← k.pml4eOf e
    let mem ← k.mem.loadIcode root binary.program
    let env := k.envs e
    .ok ((k.setMem mem).setEnv e { env with envTf := { env.envTf with rip := binary.eEntry } })

theorem Kernel.setEnv_setEnv (k : Kernel) (e : Nat) (first second : Env) :
    (k.setEnv e first).setEnv e second = k.setEnv e second := by
  unfold Kernel.setEnv
  congr 1
  funext other
  by_cases here : other = e
  · simp only [here, if_true]
  · simp only [here, if_false]

theorem Kernel.envCreate_loadIcode (k : Kernel) {binary : Binary} (magic : binary.eMagic = elfMagic) :
    k.envCreate binary.program = (do
      let (e, k) ← k.envAlloc none 0
      match e with
      | .error _ => .error .panic
      | .ok e =>
        let k ← k.loadIcode e binary
        .ok (k.setEnv e { k.envs e with envParentId := 0 })) := by
  rw [Kernel.envCreate]
  apply bind_congr
  rintro ⟨_ | e, made⟩
  · rfl
  · simp only [Kernel.loadIcode, magic, ne_eq, not_true_eq_false, if_false]
    cases made.pml4eOf e with
    | error stop => rfl
    | ok root =>
      simp only [bind, Except.bind]
      cases made.mem.loadIcode root binary.program with
      | error stop => rfl
      | ok mem =>
        change _ = Except.ok (Kernel.setEnv (Kernel.setEnv (made.setMem mem) e _) e _)
        rw [Kernel.setEnv_setEnv, Kernel.setEnv_envs, if_pos rfl]
        rfl

end Jos
