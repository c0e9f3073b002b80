import JosKernel.Lib.Fallible
import JosKernel.Arch.Entries

namespace Jos

-- inc/error.h

def eBadEnv : Int := 2
def eInval : Int := 3
def eNoMem : Int := 4
def eNoFreeEnv : Int := 5
def eFault : Int := 6
def eNoSys : Int := 7
def eIpcNotRecv : Int := 8

inductive Stop
  | panic
  | nullDeref
  | monitor
  deriving DecidableEq, Repr

/-- A `pte_t *`: the page that holds the entry and the index of the entry in it. -/
abbrev Slot := Nat × Nat

/-- Physical memory and the variables of kern/pmap.c. A `struct PageInfo *` is the index of its page,
    and a kernel pointer to a table is the page it lies in. -/
structure Memory where
  npages : Nat
  bootPml4e : Nat
  word : Nat → Nat → Word
  ppRef : Nat → BitVec 16
  ppLink : Nat → Option Nat
  pageFreeList : Option Nat
  userMemCheckAddr : Word

namespace Memory

def read (m : Memory) (slot : Slot) : Word := m.word slot.1 slot.2

def write (m : Memory) (slot : Slot) (value : Word) : Memory :=
  { m with word := fun page index => if page = slot.1 ∧ index = slot.2 then value else m.word page index }

def clearPage (m : Memory) (page : Nat) : Memory :=
  { m with word := fun other index => if other = page then 0 else m.word other index }

def setRef (m : Memory) (page : Nat) (count : BitVec 16) : Memory :=
  { m with ppRef := fun other => if other = page then count else m.ppRef other }

def setLink (m : Memory) (page : Nat) (link : Option Nat) : Memory :=
  { m with ppLink := fun other => if other = page then link else m.ppLink other }

def setFreeList (m : Memory) (head : Option Nat) : Memory := { m with pageFreeList := head }

-- What the updates of a `Memory` leave alone

section Updates

variable (m : Memory) (slot : Slot) (value : Word) (page : Nat) (count : BitVec 16)
  (link head : Option Nat)

@[simp] theorem write_word (p i : Nat) : (m.write slot value).word p i =
    if p = slot.1 ∧ i = slot.2 then value else m.word p i := rfl
@[simp] theorem write_ppRef : (m.write slot value).ppRef = m.ppRef := rfl
@[simp] theorem write_ppLink : (m.write slot value).ppLink = m.ppLink := rfl
@[simp] theorem write_pageFreeList : (m.write slot value).pageFreeList = m.pageFreeList := rfl
@[simp] theorem write_npages : (m.write slot value).npages = m.npages := rfl
@[simp] theorem write_bootPml4e : (m.write slot value).bootPml4e = m.bootPml4e := rfl

@[simp] theorem clearPage_word (p i : Nat) : (m.clearPage page).word p i =
    if p = page then 0 else m.word p i := rfl
@[simp] theorem clearPage_ppRef : (m.clearPage page).ppRef = m.ppRef := rfl
@[simp] theorem clearPage_ppLink : (m.clearPage page).ppLink = m.ppLink := rfl
@[simp] theorem clearPage_pageFreeList : (m.clearPage page).pageFreeList = m.pageFreeList := rfl
@[simp] theorem clearPage_npages : (m.clearPage page).npages = m.npages := rfl
@[simp] theorem clearPage_bootPml4e : (m.clearPage page).bootPml4e = m.bootPml4e := rfl

@[simp] theorem setRef_word : (m.setRef page count).word = m.word := rfl
@[simp] theorem setRef_ppRef (p : Nat) : (m.setRef page count).ppRef p =
    if p = page then count else m.ppRef p := rfl
@[simp] theorem setRef_ppLink : (m.setRef page count).ppLink = m.ppLink := rfl
@[simp] theorem setRef_pageFreeList : (m.setRef page count).pageFreeList = m.pageFreeList := rfl
@[simp] theorem setRef_npages : (m.setRef page count).npages = m.npages := rfl
@[simp] theorem setRef_bootPml4e : (m.setRef page count).bootPml4e = m.bootPml4e := rfl

@[simp] theorem setLink_word : (m.setLink page link).word = m.word := rfl
@[simp] theorem setLink_ppRef : (m.setLink page link).ppRef = m.ppRef := rfl
@[simp] theorem setLink_ppLink (p : Nat) : (m.setLink page link).ppLink p =
    if p = page then link else m.ppLink p := rfl
@[simp] theorem setLink_pageFreeList : (m.setLink page link).pageFreeList = m.pageFreeList := rfl
@[simp] theorem setLink_npages : (m.setLink page link).npages = m.npages := rfl
@[simp] theorem setLink_bootPml4e : (m.setLink page link).bootPml4e = m.bootPml4e := rfl

@[simp] theorem setFreeList_word : (m.setFreeList head).word = m.word := rfl
@[simp] theorem setFreeList_ppRef : (m.setFreeList head).ppRef = m.ppRef := rfl
@[simp] theorem setFreeList_ppLink : (m.setFreeList head).ppLink = m.ppLink := rfl
@[simp] theorem setFreeList_pageFreeList : (m.setFreeList head).pageFreeList = head := rfl
@[simp] theorem setFreeList_npages : (m.setFreeList head).npages = m.npages := rfl
@[simp] theorem setFreeList_bootPml4e : (m.setFreeList head).bootPml4e = m.bootPml4e := rfl

end Updates

theorem write_same (m : Memory) (slot : Slot) : m.write slot (m.read slot) = m := by
  have same : (m.write slot (m.read slot)).word = m.word := by
    funext p i
    rw [write_word]
    split
    · rename_i here
      rw [here.1, here.2]
      rfl
    · rfl
  unfold write at same ⊢
  cases m
  simp only at same
  simp only [same]

-- kern/pmap.h. KADDR keeps only 32 bits of the page number it checks.

def kaddr (m : Memory) (pa : Word) : Except Stop Nat :=
  if m.npages ≤ ppn pa % 2^32 then .error .panic else .ok (ppn pa)

def pa2page (m : Memory) (pa : Word) : Except Stop Nat :=
  if m.npages ≤ ppn pa then .error .panic else .ok (ppn pa)

-- kern/pmap.c: the page allocator

def pageAlloc (m : Memory) (allocZero : Bool) : Except Stop (Option Nat × Memory) :=
  match m.pageFreeList with
  | none => .ok (none, m)
  | some page => do
    -- the source clears the page before and again after it unlinks it
    let m ← (if allocZero then (m.kaddr (page2pa page)).map m.clearPage else .ok m : Except Stop Memory)
    .ok (some page, (m.setFreeList (m.ppLink page)).setLink page none)

def pageFree (m : Memory) (page : Nat) : Except Stop Memory :=
  if m.ppRef page ≠ 0 ∨ m.ppLink page ≠ none then .error .panic
  else .ok ((m.setLink page m.pageFreeList).setFreeList (some page))

def pageDecref (m : Memory) : Option Nat → Except Stop Memory
  | none => .error .nullDeref
  | some page =>
    let m := m.setRef page (m.ppRef page - 1)
    if m.ppRef page = 0 then m.pageFree page else .ok m

-- kern/pmap.c: the page-table walks

/-- What the three walks do alike: follow the entry in `slot`, or hang a cleared page under it. -/
def nextTable (m : Memory) (slot : Slot) (create : Bool) : Except Stop (Option Nat × Memory) :=
  if Present (m.read slot) then do
    let table ← m.kaddr (pteAddr (m.read slot))
    .ok (some table, m)
  else if create then do
    let (page, m) ← m.pageAlloc true
    match page with
    | none => .ok (none, m)
    | some page =>
      let m := (m.setRef page (m.ppRef page + 1)).write slot (tableEntry page)
      let table ← m.kaddr (pteAddr (m.read slot))
      .ok (some table, m)
  else .ok (none, m)

-- The test of `ptr_pte` against NULL after KADDR is left out: KADDR never gives NULL.
def pgdirWalk (m : Memory) (pgdir : Nat) (va : Word) (create : Bool) :
    Except Stop (Option Slot × Memory) := do
  let (table, m) ← m.nextTable (pgdir, pdx va) create
  match table with
  | none => .ok (none, m)
  | some table => .ok (some (table, ptx va), m)

def refresh (m : Memory) (slot : Slot) : Memory :=
  if Present (m.read slot) then
    m.write slot ((m.read slot &&& ~~~flagMask) ||| pteU ||| pteP ||| pteW)
  else m

def pdpeWalk (m : Memory) (table : Nat) (va : Word) (create : Bool) :
    Except Stop (Option Slot × Memory) :=
  -- `!*pdpe` looks at entry 0 of the table, whatever `va` is
  if m.word table 0 = 0 ∧ create = false then .ok (none, m)
  else do
    let (pgdir, m) ← (m.refresh (table, pdpe va)).nextTable (table, pdpe va) create
    match pgdir with
    | none => .ok (none, m)
    | some pgdir => m.pgdirWalk pgdir va create

def pml4eWalk (m : Memory) (table : Nat) (va : Word) (create : Bool) :
    Except Stop (Option Slot × Memory) :=
  if m.word table 0 = 0 ∧ create = false then .ok (none, m)
  else do
    let (pdpt, m) ← m.nextTable (table, pml4 va) create
    match pdpt with
    | none => .ok (none, m)
    | some pdpt => m.pdpeWalk pdpt va create

-- kern/pmap.c: mapping and unmapping pages. Error codes are those of inc/error.h.

/-- The page mapped at `va` and the entry that maps it, which is what `*pte_store` is set to. -/
def pageLookup (m : Memory) (table : Nat) (va : Word) : Except Stop (Option (Nat × Slot) × Memory) := do
  let (slot, m) ← m.pml4eWalk table va false
  match slot with
  | none => .ok (none, m)
  | some slot =>
    if Present (m.read slot) then do
      let page ← m.pa2page (pteAddr (m.read slot))
      .ok (some (page, slot), m)
    else .ok (none, m)

def pageRemove (m : Memory) (table : Nat) (va : Word) : Except Stop Memory := do
  let (slot, m) ← m.pml4eWalk table va false
  match slot with
  | none => .ok m
  | some slot =>
    let (found, m) ← m.pageLookup table va
    let m ← m.pageDecref (found.map Prod.fst)
    .ok (m.write slot 0)

/-- `true` is the return value 0, `false` is -E_NO_MEM. -/
def pageInsert (m : Memory) (table page : Nat) (va : Word) (perm : BitVec 32) :
    Except Stop (Bool × Memory) := do
  let (slot, m) ← m.pml4eWalk table va true
  match slot with
  | none => .ok (false, m)
  | some slot =>
    let m ← (if Present (m.read slot) then m.pageRemove table va else .ok m : Except Stop Memory)
    let m := m.write slot (m.read slot &&& ~~~flagMask)
    let m := m.write slot (leafEntry page perm)
    .ok (true, m.setRef page (m.ppRef page + 1))

end Memory

end Jos
