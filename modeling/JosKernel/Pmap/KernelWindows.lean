import JosKernel.Pmap.Access
import JosKernel.Pmap.VmInit

namespace Jos

def Memory.physical (m : Memory) (root : Nat) (va : Word) : Option Nat :=
  (m.mmuWalk root va).map fun translation => translation.page * pgSize + pgOff va

def windowFlags : BitVec 32 := (pteU ||| pteP).setWidth 32

theorem regionEntry_window {pa page : Nat} (aligned : pa % 4096 = 0) (small : pa + page * 4096 < 2^52) :
    (regionEntry (BitVec.ofNat 64 pa) windowFlags page).toNat = pa + page * 4096 + 5 ∧
      regionEntry (BitVec.ofNat 64 pa) windowFlags page &&& pteU ≠ 0 := by
  have flags : windowFlags.signExtend 64 ||| pteP = 5 := by decide
  have start : (BitVec.ofNat 64 pa).toNat = pa := by
    rw [BitVec.toNat_ofNat]
    omega
  constructor
  · rw [regionEntry_toNat (by rwa [start]) (by decide) (by rw [start]; omega), start, flags]
    rfl
  · exact regionEntry_bit page (by decide) (by decide)

namespace VmConfig

def HoldsArray (c : VmConfig) (page : Nat) : Prop :=
  ∃ address, address / pgSize = page ∧ (c.pages ≤ address ∧ address < c.pages + c.npages * sizeofPageInfo ∨
    c.envs ≤ address ∧ address < c.envs + 1024 * sizeofEnv)

def WindowsPrivate (c : VmConfig) (m : Memory) : Prop :=
  ∀ va translation, utop ≤ va → va.toNat < 2^48 → m.mmuWalk m.bootPml4e va = some translation →
    translation.user = true → c.HoldsArray translation.page

variable {c : VmConfig} {m : Memory}

theorem Windows.mmuWalk (windows : c.Windows m) {va : Word} (below : va < ulim) :
    m.mmuWalk m.bootPml4e va = translate (c.windowEntry va) := by
  obtain ⟨⟨g, valid⟩, -, entry⟩ := windows
  have low : pml4 va < 2 := by
    rw [BitVec.lt_def, ulim_toNat] at below
    rw [pml4_eq]
    omega
  rw [valid.mmuWalk valid.tables.boot low, entry va below]

theorem pages_eq (c : VmConfig) : c.pages = bootStart c.kernelEnd + 4096 := by
  have first : pagesFor (BitVec.ofNat 32 pgSize) = 1 := by decide
  rw [pages, bootCursor_eq]
  simp only [List.map_cons, List.map_nil, List.sum_cons, List.sum_nil, first]
  rfl

theorem envs_eq (c : VmConfig) : c.envs = bootStart c.kernelEnd + 4096 * (1 + (c.npages * 16 + 4095) / 4096) := by
  have limited := c.limited
  rw [maxNpages_eq] at limited
  have first : pagesFor (BitVec.ofNat 32 pgSize) = 1 := by decide
  have second : pagesFor (BitVec.ofNat 32 (c.npages * sizeofPageInfo)) = (c.npages * 16 + 4095) / 4096 := by
    rw [pagesFor, BitVec.toNat_ofNat, sizeofPageInfo, pgSize, Nat.mod_eq_of_lt (by omega)]
  rw [envs, bootCursor_eq]
  simp only [List.map_cons, List.map_nil, List.sum_cons, List.sum_nil, first, second, Nat.add_zero]
  rfl

theorem arrays (c : VmConfig) : c.pages % 4096 = 0 ∧ c.envs % 4096 = 0 ∧
    c.pages + c.npages * 16 ≤ c.envs ∧ c.envs < 2^40 := by
  have limited := c.limited
  have room := c.room
  have aligned := bootStart_aligned c.kernelEnd
  rw [maxNpages_eq] at limited
  rw [pages_eq, envs_eq]
  rw [pgSize] at *
  omega

theorem windowEntry_uenvs (c : VmConfig) {va : Word} {page : Nat} (place : pageNumber va = pageNumber uenvs + page)
    (inside : page < 512) : c.windowEntry va = regionEntry (BitVec.ofNat 64 c.envs) windowFlags page := by
  rw [windowEntry, place, if_pos (by omega), Nat.add_sub_cancel_left]
  rfl

theorem windowEntry_upages (c : VmConfig) {va : Word} (page : Nat) (place : pageNumber va = pageNumber upages + page) :
    c.windowEntry va = if page < 512 then regionEntry (BitVec.ofNat 64 c.pages) windowFlags page else 0 := by
  have apart : pageNumber upages = pageNumber uenvs + 512 := by decide
  rw [windowEntry, place, if_neg (by omega), Nat.add_sub_cancel_left]
  exact if_congr (by omega) rfl rfl

theorem translate_window {pa page : Nat} (aligned : pa % 4096 = 0) (small : pa + page * 4096 < 2^52) :
    ∃ translation, translate (regionEntry (BitVec.ofNat 64 pa) windowFlags page) = some translation ∧
      translation.page = pa / 4096 + page ∧ translation.user = true := by
  obtain ⟨entry, user⟩ := regionEntry_window aligned small
  have present : Present (regionEntry (BitVec.ofNat 64 pa) windowFlags page) := by
    rw [present_iff, entry]
    omega
  refine ⟨_, if_pos present, ?_, decide_eq_true user⟩
  simp only [entryPage_eq, entry]
  omega

theorem uenvs_last (done : c.x64VmInit = .ok m) : ∃ translation,
    m.mmuWalk m.bootPml4e (uenvs + 0x1ff000) = some translation ∧ translation.page = c.envs / 4096 + 511 ∧
      translation.user = true := by
  obtain ⟨-, aligned, -, low⟩ := c.arrays
  have walk : m.mmuWalk m.bootPml4e (uenvs + 0x1ff000) = translate (c.windowEntry (uenvs + 0x1ff000)) :=
    (x64VmInit_windows done).mmuWalk (by decide)
  rw [c.windowEntry_uenvs (by decide) (show 511 < 512 by decide)] at walk
  rw [walk]
  exact translate_window aligned (by omega)

theorem not_holdsArray (c : VmConfig) : ¬ c.HoldsArray (c.envs / 4096 + 511) := by
  obtain ⟨-, aligned, behind, -⟩ := c.arrays
  rintro ⟨address, here, inArray⟩
  rw [pgSize] at here
  rw [sizeofPageInfo, sizeofEnv] at inArray
  omega

/-- On no machine do the windows show the arrays only. -/
theorem windows_reveal (c : VmConfig) (done : c.x64VmInit = .ok m) : ¬ c.WindowsPrivate m := by
  intro isPrivate
  obtain ⟨translation, found, page, user⟩ := uenvs_last done
  have holds := isPrivate _ translation (by decide) (by decide) found user
  rw [page] at holds
  exact c.not_holdsArray holds

def sixteenMegabytes : VmConfig where
  npages := 4096
  npagesBasemem := 160
  kernelEnd := 0x1c0000
  bootstack := 0x120000
  percpuKstacks := fun i => BitVec.ofNat 64 (0x130000 + i * kstkSize)
  word := fun _ _ => 0
  limited := by decide +kernel
  extended := by decide
  room := by decide

theorem windows_reveal_sixteenMegabytes : ∃ m, sixteenMegabytes.x64VmInit = .ok m ∧
    ¬ sixteenMegabytes.WindowsPrivate m := by
  obtain ⟨m, done⟩ := x64VmInit_done sixteenMegabytes (by decide +kernel)
  exact ⟨m, done, windows_reveal sixteenMegabytes done⟩

/-- There the last page of the window for `envs` is a free page. -/
theorem windows_reveal_free : ∃ m, sixteenMegabytes.x64VmInit = .ok m ∧ ¬ sixteenMegabytes.WindowsPrivate m ∧
    ∃ translation, m.mmuWalk m.bootPml4e (uenvs + 0x1ff000) = some translation ∧ translation.user = true ∧
      translation.page ∈ sixteenMegabytes.boot.freePages 4096 := by
  obtain ⟨m, done⟩ := x64VmInit_done sixteenMegabytes (by decide +kernel)
  obtain ⟨translation, found, page, user⟩ := uenvs_last done
  refine ⟨m, done, ?_, translation, found, user, ?_⟩
  · intro isPrivate
    have holds := isPrivate _ translation (by decide) (by decide) found user
    rw [page] at holds
    exact sixteenMegabytes.not_holdsArray holds
  · rw [page, BootConfig.mem_freePages]
    decide +kernel

theorem upages_physical (done : c.x64VmInit = .ok m) {i : Nat} (inside : i < c.npages * sizeofPageInfo) :
    m.physical m.bootPml4e (upages + BitVec.ofNat 64 i) = if i < ptSize then some (c.pages + i) else none := by
  obtain ⟨aligned, -, behind, low⟩ := c.arrays
  have limited := c.limited
  rw [maxNpages_eq] at limited
  rw [sizeofPageInfo] at inside
  have base : upages.toNat = 0x8000a00000 := rfl
  have va : (upages + BitVec.ofNat 64 i).toNat = 0x8000a00000 + i := by
    rw [BitVec.toNat_add, base, BitVec.toNat_ofNat]
    omega
  have place : pageNumber (upages + BitVec.ofNat 64 i) = pageNumber upages + i / 4096 := by
    rw [pageNumber, pageNumber, va, base]
    omega
  have below : upages + BitVec.ofNat 64 i < ulim := by
    rw [BitVec.lt_def, va, ulim_toNat]
    omega
  have span : ptSize = 512 * 4096 := by decide
  rw [Memory.physical, (x64VmInit_windows done).mmuWalk below, c.windowEntry_upages (i / 4096) place]
  by_cases short : i < ptSize
  · obtain ⟨translation, found, page, -⟩ : ∃ translation,
        translate (regionEntry (BitVec.ofNat 64 c.pages) windowFlags (i / 4096)) = some translation ∧
          translation.page = c.pages / 4096 + i / 4096 ∧ translation.user = true :=
      translate_window aligned (by omega)
    rw [if_pos short, if_pos (by omega), found, Option.map_some, page, pgOff_eq, va, pgSize]
    refine congrArg some ?_
    omega
  · have absent : translate 0 = none := if_neg (by decide)
    rw [if_neg short, if_neg (by omega), absent, Option.map_none]

/-- The window shows all of `pages` exactly if `pages` has at most 2 MB. -/
theorem upages_whole (c : VmConfig) (done : c.x64VmInit = .ok m) :
    (∀ i, i < c.npages * sizeofPageInfo →
      m.physical m.bootPml4e (upages + BitVec.ofNat 64 i) = some (c.pages + i)) ↔
      c.npages * sizeofPageInfo ≤ ptSize := by
  constructor
  · intro whole
    by_contra longer
    have inside : ptSize < c.npages * sizeofPageInfo := by omega
    have beyond := whole ptSize inside
    rw [upages_physical done inside, if_neg (by omega)] at beyond
    cases beyond
  · intro short i inside
    rw [upages_physical done inside, if_pos (by omega)]

theorem upages_whole_sixteenMegabytes : ∃ m, sixteenMegabytes.x64VmInit = .ok m ∧
    ((∀ i, i < sixteenMegabytes.npages * sizeofPageInfo →
      m.physical m.bootPml4e (upages + BitVec.ofNat 64 i) = some (sixteenMegabytes.pages + i)) ↔
      sixteenMegabytes.npages * sizeofPageInfo ≤ ptSize) := by
  obtain ⟨m, done⟩ := x64VmInit_done sixteenMegabytes (by decide +kernel)
  exact ⟨m, done, upages_whole sixteenMegabytes done⟩

def oneGigabyte : VmConfig :=
  { sixteenMegabytes with
    npages := 0x40000
    limited := by decide +kernel
    room := by decide }

/-- There the window ends in the middle of `pages`. -/
theorem upages_short : ∃ m, oneGigabyte.x64VmInit = .ok m ∧ ptSize < oneGigabyte.npages * sizeofPageInfo ∧
    m.physical m.bootPml4e (upages + BitVec.ofNat 64 ptSize) = none := by
  obtain ⟨m, done⟩ := x64VmInit_done oneGigabyte (by decide +kernel)
  have inside : ptSize < oneGigabyte.npages * sizeofPageInfo := by decide +kernel
  refine ⟨m, done, inside, ?_⟩
  rw [upages_physical done inside, if_neg (by decide)]

end VmConfig

end Jos
