import Mathlib.Logic.Function.Basic

variable {α : Type} {rows cols : Nat}

@[ext]
structure Terminal (α : Type) (rows cols : Nat) where
  cell : Fin rows → Fin cols → α
  row : Fin rows
  col : Fin cols

namespace Terminal

def write (t : Terminal α rows cols) (item : α) : Terminal α rows cols :=
  { t with cell := fun r c => if r = t.row ∧ c = t.col then item else t.cell r c }

def scroll (t : Terminal α rows cols) (blank : α) : Terminal α rows cols :=
  { t with cell := fun r c => if below : r.val + 1 < rows then t.cell ⟨r.val + 1, below⟩ c else blank }

def down (t : Terminal α rows cols) (blank : α) : Terminal α rows cols :=
  if below : t.row.val + 1 < rows then { t with row := ⟨t.row.val + 1, below⟩ } else t.scroll blank

def home (t : Terminal α rows cols) : Terminal α rows cols :=
  { t with col := ⟨0, Nat.zero_lt_of_lt t.col.isLt⟩ }

def newline (t : Terminal α rows cols) (blank : α) : Terminal α rows cols := t.home.down blank

def advance (t : Terminal α rows cols) (blank : α) : Terminal α rows cols :=
  if beside : t.col.val + 1 < cols then { t with col := ⟨t.col.val + 1, beside⟩ } else t.newline blank

def erase (t : Terminal α rows cols) (blank : α) : Terminal α rows cols :=
  if 0 < t.col.val then
    { t with col := ⟨t.col.val - 1, Nat.lt_of_le_of_lt (Nat.sub_le ..) t.col.isLt⟩ }.write blank
  else if 0 < t.row.val then
    { t with
      row := ⟨t.row.val - 1, Nat.lt_of_le_of_lt (Nat.sub_le ..) t.row.isLt⟩
      col := ⟨cols - 1, Nat.sub_lt (Nat.zero_lt_of_lt t.col.isLt) Nat.zero_lt_one⟩ }.write blank
  else t

/-- The rows lie in a buffer, one behind the other, and the cursor is at the position `pos` of it. -/
structure Shows (t : Terminal α rows cols) (cells : Nat → α) (pos : Nat) : Prop where
  pos : pos = t.row.val * cols + t.col.val
  cell : ∀ r c, t.cell r c = cells (r.val * cols + c.val)

def shifted (rows cols : Nat) (cells : Nat → α) (blank : α) (i : Nat) : α :=
  if i + cols < rows * cols then cells (i + cols) else blank

variable {t t' : Terminal α rows cols} {cells cells' : Nat → α} {pos : Nat}

theorem offset_lt (r : Fin rows) (c : Fin cols) : r.val * cols + c.val < rows * cols := by
  have whole : (r.val + 1) * cols ≤ rows * cols := Nat.mul_le_mul_right cols r.isLt
  rw [Nat.succ_mul] at whole
  have inside := c.isLt
  omega

theorem offset_inj {r r' : Fin rows} {c c' : Fin cols} (same : r.val * cols + c.val = r'.val * cols + c'.val) :
    r = r' ∧ c = c' := by
  have positive := Nat.zero_lt_of_lt c.isLt
  have row : ∀ (r : Fin rows) (c : Fin cols), (r.val * cols + c.val) / cols = r.val := by
    intro r c
    rw [Nat.add_comm, Nat.add_mul_div_right _ _ positive, Nat.div_eq_of_lt c.isLt, Nat.zero_add]
  have rowSame : r.val = r'.val := by rw [← row r c, same, row r' c']
  rw [rowSame] at same
  exact ⟨Fin.ext rowSame, Fin.ext (Nat.add_left_cancel same)⟩

namespace Shows

theorem inside (showing : t.Shows cells pos) : pos < rows * cols := by
  rw [showing.pos]
  exact offset_lt t.row t.col

theorem unique (showing : t.Shows cells pos) (shows' : t'.Shows cells pos) : t = t' := by
  obtain ⟨row, col⟩ := offset_inj (showing.pos.symm.trans shows'.pos)
  apply Terminal.ext _ row col
  funext r c
  rw [showing.cell, shows'.cell]

theorem congr (showing : t.Shows cells pos) (same : ∀ i < rows * cols, cells' i = cells i) : t.Shows cells' pos := by
  refine ⟨showing.pos, fun r c => ?_⟩
  rw [same _ (offset_lt r c)]
  exact showing.cell r c

theorem write (showing : t.Shows cells pos) (item : α) : (t.write item).Shows (Function.update cells pos item) pos := by
  refine ⟨showing.pos, fun r c => ?_⟩
  rw [Terminal.write]
  by_cases here : r = t.row ∧ c = t.col
  · rw [here.1, here.2, ← showing.pos, Function.update_self]
    exact if_pos ⟨rfl, rfl⟩
  · have other : r.val * cols + c.val ≠ pos := by
      rw [showing.pos]
      exact fun same => here (offset_inj same)
    rw [Function.update_of_ne other, ← showing.cell]
    exact if_neg here

theorem home (showing : t.Shows cells pos) : t.home.Shows cells (pos - pos % cols) := by
  refine ⟨?_, showing.cell⟩
  have col : pos % cols = t.col.val := by
    rw [showing.pos, Nat.add_comm, Nat.add_mul_mod_self_right, Nat.mod_eq_of_lt t.col.isLt]
  rw [col, showing.pos, Nat.add_sub_cancel]
  rfl

theorem scroll (showing : t.Shows cells pos) (blank : α) :
    (t.scroll blank).Shows (shifted rows cols cells blank) pos := by
  refine ⟨showing.pos, fun r c => ?_⟩
  rw [Terminal.scroll, shifted]
  have next : r.val * cols + c.val + cols = (r.val + 1) * cols + c.val := by
    rw [Nat.succ_mul]
    omega
  dsimp only
  split
  · rename_i below
    rw [next, if_pos (offset_lt ⟨r.val + 1, below⟩ c)]
    exact showing.cell ⟨r.val + 1, below⟩ c
  · rename_i last
    have whole : rows * cols ≤ (r.val + 1) * cols := Nat.mul_le_mul_right cols (Nat.not_lt.mp last)
    rw [if_neg (by omega)]

/-- To go down is to go on by a row, and to scroll where that leaves the buffer. -/
theorem down (showing : t.Shows cells pos) (blank : α) :
    if pos + cols < rows * cols then (t.down blank).Shows cells (pos + cols)
    else (t.down blank).Shows (shifted rows cols cells blank) pos := by
  rw [Terminal.down]
  have next : pos + cols = (t.row.val + 1) * cols + t.col.val := by
    rw [showing.pos, Nat.succ_mul]
    omega
  split
  · rename_i inside
    have below : t.row.val + 1 < rows := by
      by_contra last
      have whole : rows * cols ≤ (t.row.val + 1) * cols := Nat.mul_le_mul_right cols (Nat.not_lt.mp last)
      omega
    rw [dif_pos below]
    exact ⟨next, showing.cell⟩
  · rename_i outside
    have last : ¬ t.row.val + 1 < rows := by
      intro below
      have within := offset_lt ⟨t.row.val + 1, below⟩ t.col
      exact outside (next ▸ within)
    rw [dif_neg last]
    exact showing.scroll blank

theorem newline (showing : t.Shows cells pos) (blank : α) :
    if pos + cols - (pos + cols) % cols < rows * cols then
      (t.newline blank).Shows cells (pos + cols - (pos + cols) % cols)
    else (t.newline blank).Shows (shifted rows cols cells blank) (pos + cols - (pos + cols) % cols - cols) := by
  have start : pos + cols - (pos + cols) % cols = pos - pos % cols + cols := by
    have le := Nat.mod_le pos cols
    rw [Nat.add_mod_right]
    omega
  rw [start, Nat.add_sub_cancel]
  exact showing.home.down blank

theorem advance (showing : t.Shows cells pos) (blank : α) :
    if pos + 1 < rows * cols then (t.advance blank).Shows cells (pos + 1)
    else (t.advance blank).Shows (shifted rows cols cells blank) (pos + 1 - cols) := by
  have here := showing.pos
  rw [Terminal.advance]
  by_cases beside : t.col.val + 1 < cols
  · have within := offset_lt t.row ⟨t.col.val + 1, beside⟩
    rw [dif_pos beside, if_pos (by rw [here]; exact within)]
    exact ⟨by rw [here]; rfl, showing.cell⟩
  · rw [dif_neg beside]
    have inside := t.col.isLt
    have col : pos % cols = t.col.val := by
      rw [here, Nat.add_comm, Nat.add_mul_mod_self_right, Nat.mod_eq_of_lt inside]
    have next : pos - pos % cols + cols = pos + 1 := by omega
    have below := showing.home.down blank
    rw [next, show pos - pos % cols = pos + 1 - cols by omega] at below
    exact below

theorem erase (showing : t.Shows cells pos) (blank : α) :
    if 0 < pos then (t.erase blank).Shows (Function.update cells (pos - 1) blank) (pos - 1)
    else (t.erase blank).Shows cells pos := by
  have here := showing.pos
  rw [Terminal.erase]
  by_cases beside : 0 < t.col.val
  · rw [if_pos (by omega), if_pos beside]
    apply write
    exact ⟨by rw [here]; exact Nat.add_sub_assoc beside _, showing.cell⟩
  · rw [if_neg beside]
    have col : t.col.val = 0 := Nat.eq_zero_of_not_pos beside
    have positive := Nat.zero_lt_of_lt t.col.isLt
    rw [col, Nat.add_zero] at here
    by_cases below : 0 < t.row.val
    · have product := Nat.mul_pos below positive
      rw [if_pos (by omega), if_pos below]
      apply write
      refine ⟨?_, showing.cell⟩
      have split : t.row.val * cols = (t.row.val - 1) * cols + cols := by
        rw [← Nat.succ_mul, Nat.succ_eq_add_one, Nat.sub_add_cancel below]
      change pos - 1 = (t.row.val - 1) * cols + (cols - 1)
      omega
    · have row : t.row.val = 0 := Nat.eq_zero_of_not_pos below
      rw [row, Nat.zero_mul] at here
      rw [if_neg (by omega), if_neg below]
      exact showing

end Shows

end Terminal
