import JosKernel.Lib.Radix
import JosKernel.Pmap.Memory

namespace Jos

/-- What the MMU makes of a virtual address: the page, the leaf entry, and the rights that all four
    levels grant together. Large pages are left out: no entry above the leaves has PTE_PS. -/
structure Translation where
  page : Nat
  leaf : Word
  writable : Bool
  user : Bool
  deriving DecidableEq, Repr

namespace Memory

def child (m : Memory) (page index : Nat) : Option Nat :=
  if Present (m.word page index) then some (entryPage (m.word page index)) else none

/-- The leaf entry the MMU reads for `va`, if the upper three levels are present. -/
def leafSlot (m : Memory) (root : Nat) (va : Word) : Option Slot :=
  (Radix.descend m.child root [pml4 va, pdpe va, pdx va]).map fun table => (table, ptx va)

def mmuWalk (m : Memory) (root : Nat) (va : Word) : Option Translation := do
  let pdpt ← m.child root (pml4 va)
  let pgdir ← m.child pdpt (pdpe va)
  let table ← m.child pgdir (pdx va)
  let page ← m.child table (ptx va)
  let entries := [m.word root (pml4 va), m.word pdpt (pdpe va), m.word pgdir (pdx va), m.word table (ptx va)]
  some {
    page := page
    leaf := m.word table (ptx va)
    writable := entries.all fun entry => entry &&& pteW ≠ 0
    user := entries.all fun entry => entry &&& pteU ≠ 0 }

theorem child_eq_some {m : Memory} {page index next : Nat} :
    m.child page index = some next ↔
      Present (m.word page index) ∧ entryPage (m.word page index) = next := by
  unfold child
  split <;> simp_all

theorem child_eq_none {m : Memory} {page index : Nat} :
    m.child page index = none ↔ ¬ Present (m.word page index) := by
  unfold child
  split <;> simp_all

theorem child_congr {m m' : Memory} {page index : Nat}
    (same : m'.word page index = m.word page index) : m'.child page index = m.child page index := by
  unfold child
  rw [same]

end Memory

end Jos
