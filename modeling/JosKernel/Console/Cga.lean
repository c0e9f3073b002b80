import JosKernel.Lib.Terminal
import JosKernel.Strings.Moves

namespace Jos

open Bytes

-- kern/console.c: the screen

def crtRows : Nat := 25
def crtCols : Nat := 80
def crtSize : Nat := crtRows * crtCols

structure Screen where
  mono : Bool
  m : Bytes.Memory 64
  crtPos : BitVec 16
  outs : List (Nat × BitVec 8)

namespace Screen

def crtBuf (s : Screen) : Word := kernBase + if s.mono then 0xB0000 else 0xB8000

def addr6845 (s : Screen) : Nat := if s.mono then 0x3B4 else 0x3D4

def outb (s : Screen) (port : Nat) (data : BitVec 8) : Screen := { s with outs := s.outs ++ [(port, data)] }

/-- `crt_buf[i] = c` -/
def store (s : Screen) (i : Nat) (c : BitVec 32) : Screen :=
  { s with m := storeLow s.m (s.crtBuf + BitVec.ofNat 64 (2 * i)) 2 c }

def blank : BitVec 32 := 0x0700 ||| 0x20

def scroll (s : Screen) : Screen :=
  let s := { s with m := (memmove s.m s.crtBuf (s.crtBuf + BitVec.ofNat 64 (2 * crtCols))
    (BitVec.ofNat 64 ((crtSize - crtCols) * 2))).2 }
  let s := (List.range' (crtSize - crtCols) crtCols).foldl (fun s i => s.store i blank) s
  { s with crtPos := s.crtPos - BitVec.ofNat 16 crtCols }

/-- The loops that wait for the port, which end at some time, do not write. -/
def serialPutc (c : BitVec 32) (s : Screen) : Screen := s.outb 0x3F8 (c.setWidth 8)

def lptPutc (c : BitVec 32) (s : Screen) : Screen :=
  ((s.outb 0x378 (c.setWidth 8)).outb 0x37A (0x08 ||| 0x04 ||| 0x01)).outb 0x37A 0x08

def carriageReturn (s : Screen) : Screen := { s with crtPos := s.crtPos - s.crtPos % BitVec.ofNat 16 crtCols }

def moveCursor (s : Screen) : Screen :=
  let s := s.outb s.addr6845 14
  let s := s.outb (s.addr6845 + 1) ((s.crtPos >>> 8).setWidth 8)
  let s := s.outb s.addr6845 15
  s.outb (s.addr6845 + 1) (s.crtPos.setWidth 8)

def settle (s : Screen) : Screen :=
  let s := if s.crtPos.toNat ≥ crtSize then s.scroll else s
  s.moveCursor

end Screen

def attributed (c : BitVec 32) : BitVec 32 := if c &&& ~~~0xFF = 0 then c ||| 0x0700 else c

theorem attributed_char (c : BitVec 32) : attributed c &&& 0xFF = c &&& 0xFF := by
  rw [attributed]
  split
  · rw [BitVec.and_comm, BitVec.and_or_distrib_left, BitVec.and_comm 0xFF c]
    exact BitVec.or_zero
  · rfl

open Screen

mutual

def cgaPutc (c : BitVec 32) (s : Screen) : Screen :=
  if attributed c &&& 0xFF = 0x08 then
    if s.crtPos > 0 then
      let s := { s with crtPos := s.crtPos - 1 }
      (s.store s.crtPos.toNat (attributed c &&& ~~~0xFF ||| 0x20)).settle
    else s.settle
  else if attributed c &&& 0xFF = 0x0A then
    { s with crtPos := s.crtPos + BitVec.ofNat 16 crtCols }.carriageReturn.settle
  else if attributed c &&& 0xFF = 0x0D then s.carriageReturn.settle
  else if attributed c &&& 0xFF = 0x09 then
    (consPutc 0x20 (consPutc 0x20 (consPutc 0x20 (consPutc 0x20 (consPutc 0x20 s))))).settle
  else { s.store s.crtPos.toNat (attributed c) with crtPos := s.crtPos + 1 }.settle
termination_by if c &&& 0xFF = 0x09 then 2 else 0
decreasing_by all_goals
  rename_i tab
  rw [attributed_char] at tab
  rw [if_pos tab]
  decide

def consPutc (c : BitVec 32) (s : Screen) : Screen := cgaPutc c (lptPutc c (serialPutc c s))
termination_by if c &&& 0xFF = 0x09 then 3 else 1
decreasing_by all_goals
  split <;> decide

end

-- Cells

def Screen.cell (s : Screen) (i : Nat) : BitVec 16 :=
  s.m (s.crtBuf + BitVec.ofNat 64 (2 * i + 1)) ++ s.m (s.crtBuf + BitVec.ofNat 64 (2 * i))

variable {s : Screen} {i j : Nat}

theorem crtBuf_room (s : Screen) : s.crtBuf.toNat + 2 * crtSize ≤ 2 ^ 64 := by
  cases mono : s.mono <;> rw [crtBuf, mono] <;> decide

theorem toNat_cell {n : Nat} (inside : n < 2 * crtSize) :
    (s.crtBuf + BitVec.ofNat 64 n).toNat = s.crtBuf.toNat + n :=
  toNat_add_ofNat ((Nat.add_lt_add_left inside _).trans_le (crtBuf_room s))

theorem low_bytes (c : BitVec 32) : (c >>> 8).setWidth 8 ++ c.setWidth 8 = c.setWidth 16 := by
  apply BitVec.eq_of_getLsbD_eq
  intro i inside
  rw [BitVec.getLsbD_append, BitVec.getLsbD_setWidth, BitVec.getLsbD_setWidth, BitVec.getLsbD_setWidth,
    BitVec.getLsbD_ushiftRight]
  by_cases low : i < 8
  · rw [if_pos low]
    simp [low, inside]
  · rw [if_neg low, show 8 + (i - 8) = i by omega]
    have high : i - 8 < 8 := by omega
    simp [high, inside]

theorem within_cell {n : Nat} (inside : n < 2 * crtSize) (inside' : j < crtSize) :
    Within (s.crtBuf + BitVec.ofNat 64 (2 * j)) 2 (s.crtBuf + BitVec.ofNat 64 n) ↔ 2 * j ≤ n ∧ n < 2 * j + 2 := by
  rw [Within, toNat_cell inside, toNat_cell (by omega)]
  omega

theorem store_apply (s : Screen) (j : Nat) (c : BitVec 32) (a : Word) : (s.store j c).m a =
    if Within (s.crtBuf + BitVec.ofNat 64 (2 * j)) 2 a then
      (c >>> (8 * (a - (s.crtBuf + BitVec.ofNat 64 (2 * j))).toNat)).setWidth 8
    else s.m a :=
  rfl

theorem cell_of_mono {s s' : Screen} (mono : s'.mono = s.mono) (i : Nat) : s'.cell i =
    s'.m (s.crtBuf + BitVec.ofNat 64 (2 * i + 1)) ++ s'.m (s.crtBuf + BitVec.ofNat 64 (2 * i)) := by
  rw [Screen.cell, crtBuf, mono]
  rfl

theorem store_byte (c : BitVec 32) {n k : Nat} (inside : n < 2 * crtSize) (inside' : j < crtSize) (split : n = 2 * j + k)
    (low : k < 2) : (s.store j c).m (s.crtBuf + BitVec.ofNat 64 n) = (c >>> (8 * k)).setWidth 8 := by
  have within := (within_cell (s := s) inside inside').mpr (by omega)
  have offset : (s.crtBuf + BitVec.ofNat 64 n - (s.crtBuf + BitVec.ofNat 64 (2 * j))).toNat = k := by
    rw [toNat_sub_of_le within.1, toNat_cell inside, toNat_cell (by omega)]
    omega
  rw [store_apply, if_pos within, offset]

theorem store_cell (c : BitVec 32) (inside : i < crtSize) (inside' : j < crtSize) :
    (s.store j c).cell i = Function.update s.cell j (c.setWidth 16) i := by
  by_cases here : i = j
  · subst here
    rw [Function.update_self, cell_of_mono (show (s.store i c).mono = s.mono from rfl),
      store_byte c (by omega) inside rfl (by decide), store_byte c (by omega) inside (Nat.add_zero _).symm (by decide)]
    exact low_bytes c
  · have other : ∀ n, n = 2 * i ∨ n = 2 * i + 1 →
        (s.store j c).m (s.crtBuf + BitVec.ofNat 64 n) = s.m (s.crtBuf + BitVec.ofNat 64 n) := by
      intro n place
      rw [store_apply, if_neg]
      rw [within_cell (by omega) inside']
      omega
    rw [Function.update_of_ne here, cell_of_mono (show (s.store j c).mono = s.mono from rfl), Screen.cell,
      other _ (.inr rfl), other _ (.inl rfl)]

structure Screen.Keeps (s s' : Screen) : Prop where
  mono : s'.mono = s.mono
  outside : ∀ a, ¬ Within s.crtBuf (2 * crtSize) a → s'.m a = s.m a

namespace Screen.Keeps

variable {s' s'' : Screen}

theorem refl (s : Screen) : s.Keeps s := ⟨rfl, fun _ _ => rfl⟩

theorem trans (first : s.Keeps s') (second : s'.Keeps s'') : s.Keeps s'' := by
  refine ⟨second.mono.trans first.mono, fun a outside => ?_⟩
  rw [second.outside a (by rwa [crtBuf, first.mono]), first.outside a outside]

theorem store (s : Screen) (c : BitVec 32) (inside : j < crtSize) : s.Keeps (s.store j c) := by
  refine ⟨rfl, fun a outside => ?_⟩
  rw [store_apply, if_neg]
  intro within
  rw [Within, toNat_cell (by omega)] at within
  exact outside ⟨by omega, by omega⟩

theorem stores (c : BitVec 32) {start n : Nat} (inside : start + n ≤ crtSize) :
    s.Keeps ((List.range' start n).foldl (fun s i => s.store i c) s) := by
  induction n generalizing s start with
  | zero => exact refl s
  | succ n ih => exact (store s c (by omega)).trans (ih (by omega))

end Screen.Keeps

theorem stores_cell (c : BitVec 32) {start n : Nat} (inside : i < crtSize) (room : start + n ≤ crtSize) :
    ((List.range' start n).foldl (fun s i => s.store i c) s).cell i =
      if start ≤ i ∧ i < start + n then c.setWidth 16 else s.cell i := by
  induction n generalizing s start with
  | zero => rw [if_neg (by omega), List.range'_zero, List.foldl_nil]
  | succ n ih =>
    rw [List.range'_succ, List.foldl_cons, ih (by omega), store_cell c inside (by omega)]
    by_cases here : i = start
    · rw [here, if_neg (by omega), if_pos (by omega), Function.update_self]
    · rw [Function.update_of_ne here]
      by_cases later : start + 1 ≤ i ∧ i < start + 1 + n
      · rw [if_pos later, if_pos (by omega)]
      · rw [if_neg later, if_neg (by omega)]

theorem moved (s : Screen) : (memmove s.m s.crtBuf (s.crtBuf + BitVec.ofNat 64 (2 * crtCols))
    (BitVec.ofNat 64 ((crtSize - crtCols) * 2))).2 =
      copy s.m s.crtBuf (s.crtBuf + BitVec.ofNat 64 (2 * crtCols)) ((crtSize - crtCols) * 2) := by
  have room := crtBuf_room s
  have start := toNat_cell (s := s) (n := 2 * crtCols) (by decide)
  rw [memmove_copy]
  · rfl
  · change s.crtBuf.toNat + (crtSize - crtCols) * 2 ≤ 2 ^ 64
    simp only [crtSize, crtRows, crtCols] at room ⊢
    omega
  · change _ + (crtSize - crtCols) * 2 ≤ 2 ^ 64
    rw [start]
    simp only [crtSize, crtRows, crtCols] at room ⊢
    omega

theorem copied_byte (s : Screen) {n : Nat} (inside : n < (crtSize - crtCols) * 2) :
    copy s.m s.crtBuf (s.crtBuf + BitVec.ofNat 64 (2 * crtCols)) ((crtSize - crtCols) * 2)
      (s.crtBuf + BitVec.ofNat 64 n) = s.m (s.crtBuf + BitVec.ofNat 64 (n + 2 * crtCols)) := by
  have place := toNat_cell (s := s) (n := n) (by simp only [crtSize, crtRows, crtCols] at inside ⊢; omega)
  rw [copy_within ⟨by omega, by omega⟩]
  congr 1
  rw [Nat.add_comm n, BitVec.ofNat_add, BitVec.add_assoc, BitVec.add_comm s.crtBuf (BitVec.ofNat 64 n),
    BitVec.add_sub_cancel]

def Screen.cursor (s : Screen) (pos : BitVec 16) : Screen := { s with crtPos := pos }

theorem cursor_cell (s : Screen) (pos : BitVec 16) (i : Nat) : (s.cursor pos).cell i = s.cell i := rfl

theorem cursor_keeps (s : Screen) (pos : BitVec 16) : s.Keeps (s.cursor pos) := ⟨rfl, fun _ _ => rfl⟩

def Screen.raised (s : Screen) : Screen := { s with m := (memmove s.m s.crtBuf
  (s.crtBuf + BitVec.ofNat 64 (2 * crtCols)) (BitVec.ofNat 64 ((crtSize - crtCols) * 2))).2 }

theorem raised_cell (inside : i + crtCols < crtSize) : s.raised.cell i = s.cell (i + crtCols) := by
  have bound : 2 * i + 1 < (crtSize - crtCols) * 2 := by omega
  rw [cell_of_mono (show s.raised.mono = s.mono from rfl), Screen.cell, raised]
  dsimp only
  rw [moved, copied_byte s bound, copied_byte s (by omega), Nat.mul_add, Nat.add_right_comm]

theorem raised_keeps (s : Screen) : s.Keeps s.raised := by
  refine ⟨rfl, fun a outside => ?_⟩
  rw [raised]
  dsimp only
  rw [moved, copy_outside]
  rw [Within] at outside ⊢
  simp only [crtSize, crtRows, crtCols] at outside ⊢
  omega

theorem scroll_eq (s : Screen) : s.scroll =
    ((List.range' (crtSize - crtCols) crtCols).foldl (fun s i => s.store i blank) s.raised).cursor
      (((List.range' (crtSize - crtCols) crtCols).foldl (fun s i => s.store i blank) s.raised).crtPos -
        BitVec.ofNat 16 crtCols) := by
  rw [Screen.scroll, cursor, raised]

theorem scroll_cell (inside : i < crtSize) :
    s.scroll.cell i = Terminal.shifted crtRows crtCols s.cell (blank.setWidth 16) i := by
  have whole : crtSize - crtCols + crtCols = crtSize := by decide
  rw [scroll_eq, cursor_cell, stores_cell blank inside whole.le, Terminal.shifted, ← crtSize]
  by_cases below : i + crtCols < crtSize
  · rw [if_neg (by omega), if_pos below, raised_cell below]
  · rw [if_pos (by omega), if_neg below]

theorem stores_crtPos (c : BitVec 32) (places : List Nat) (s : Screen) :
    (places.foldl (fun s i => s.store i c) s).crtPos = s.crtPos := by
  induction places generalizing s with
  | nil => rfl
  | cons i places ih => exact ih _

theorem scroll_crtPos (s : Screen) : s.scroll.crtPos = s.crtPos - BitVec.ofNat 16 crtCols := by
  rw [scroll_eq, cursor, stores_crtPos]
  rfl

theorem scroll_keeps (s : Screen) : s.Keeps s.scroll := by
  have whole : crtSize - crtCols + crtCols = crtSize := by decide
  rw [scroll_eq]
  exact ((raised_keeps s).trans (.stores blank whole.le)).trans (cursor_keeps ..)

-- The reference terminal

abbrev Console := Terminal (BitVec 16) crtRows crtCols

namespace Console

def blankCell : BitVec 16 := 0x0720

def print (t : Console) (cell : BitVec 16) : Console := (t.write cell).advance blankCell

def put (t : Console) (c : BitVec 32) : Console :=
  if c &&& 0xFF = 0x08 then t.erase ((attributed c &&& ~~~0xFF ||| 0x20).setWidth 16)
  else if c &&& 0xFF = 0x0A then t.newline blankCell
  else if c &&& 0xFF = 0x0D then t.home
  else if c &&& 0xFF = 0x09 then
    ((((t.print blankCell).print blankCell).print blankCell).print blankCell).print blankCell
  else t.print ((attributed c).setWidth 16)

end Console

/-- The rows and the cursor of the terminal are what the buffer and `crt_pos` say. -/
def Screen.Displays (s : Screen) (t : Console) : Prop := t.Shows s.cell s.crtPos.toNat

variable {t : Console} {s' : Screen}

theorem Screen.Displays.inside (displays : s.Displays t) : s.crtPos.toNat < crtSize := Terminal.Shows.inside displays

theorem moveCursor_displays (displays : s.Displays t) : s.moveCursor.Displays t := displays

theorem moveCursor_keeps (s : Screen) : s.Keeps s.moveCursor := ⟨rfl, fun _ _ => rfl⟩

theorem settle_keeps (s : Screen) : s.Keeps s.settle := by
  rw [settle]
  split
  · exact (scroll_keeps s).trans (moveCursor_keeps _)
  · exact moveCursor_keeps s

theorem settle_displays
    (showing : if s.crtPos.toNat < crtRows * crtCols then t.Shows s.cell s.crtPos.toNat
      else t.Shows (Terminal.shifted crtRows crtCols s.cell Console.blankCell) (s.crtPos.toNat - crtCols)) :
    s.settle.Displays t := by
  rw [settle]
  split
  · rename_i outside
    rw [crtSize] at outside
    rw [if_neg (Nat.not_lt.mpr outside)] at showing
    apply moveCursor_displays
    rw [Screen.Displays, scroll_crtPos, BitVec.toNat_sub_of_le]
    · apply showing.congr
      intro i inside
      exact scroll_cell inside
    · rw [BitVec.le_def, BitVec.toNat_ofNat]
      simp only [crtRows, crtCols] at outside ⊢
      omega
  · rename_i inside
    rw [crtSize] at inside
    rw [if_pos (Nat.not_le.mp inside)] at showing
    exact showing

theorem settle_inside (displays : s.Displays t) : s.settle.Displays t := by
  apply settle_displays
  rw [if_pos (show s.crtPos.toNat < crtRows * crtCols from displays.inside)]
  exact displays

theorem carriageReturn_displays (displays : s.Displays t) : s.carriageReturn.Displays t.home := by
  have back : s.carriageReturn.crtPos.toNat = s.crtPos.toNat - s.crtPos.toNat % crtCols := by
    rw [carriageReturn, BitVec.toNat_sub_of_le]
    · rfl
    · rw [BitVec.le_def, BitVec.toNat_umod]
      exact Nat.mod_le ..
  rw [Screen.Displays, back]
  exact Terminal.Shows.home displays

theorem backspace_displays (displays : s.Displays t) (c : BitVec 32) :
    (if s.crtPos > 0 then
      ({ s with crtPos := s.crtPos - 1 }.store (s.crtPos - 1).toNat c).settle
    else s.settle).Displays (t.erase (c.setWidth 16)) := by
  have erased := Terminal.Shows.erase displays (c.setWidth 16)
  have inside := displays.inside
  have positive : s.crtPos > 0 ↔ 0 < s.crtPos.toNat := by bv_omega
  by_cases start : 0 < s.crtPos.toNat
  · rw [if_pos start] at erased
    have back : (s.crtPos - 1).toNat = s.crtPos.toNat - 1 := by bv_omega
    rw [if_pos (positive.mpr start)]
    apply settle_inside
    change t.erase _ |>.Shows _ (s.crtPos - 1).toNat
    rw [back]
    apply erased.congr
    intro i bound
    exact store_cell c bound (by omega)
  · rw [if_neg start] at erased
    rw [if_neg (fun other => start (positive.mp other))]
    exact settle_inside erased

theorem print_displays (displays : s.Displays t) (c : BitVec 32) :
    ({ s.store s.crtPos.toNat c with crtPos := s.crtPos + 1 } : Screen).settle.Displays (t.print (c.setWidth 16)) := by
  have inside := displays.inside
  have next : (s.crtPos + 1).toNat = s.crtPos.toNat + 1 := by
    rw [crtSize, crtRows, crtCols] at inside
    bv_omega
  have written : (t.write (c.setWidth 16)).Shows (s.store s.crtPos.toNat c).cell s.crtPos.toNat := by
    apply (Terminal.Shows.write displays (c.setWidth 16)).congr
    intro i bound
    exact store_cell c bound inside
  apply settle_displays
  dsimp only
  rw [next]
  exact written.advance Console.blankCell

theorem newline_displays (displays : s.Displays t) :
    ({ s with crtPos := s.crtPos + BitVec.ofNat 16 crtCols } : Screen).carriageReturn.settle.Displays
      (t.newline Console.blankCell) := by
  have inside := displays.inside
  have next : ({ s with crtPos := s.crtPos + BitVec.ofNat 16 crtCols } : Screen).carriageReturn.crtPos.toNat =
      s.crtPos.toNat + crtCols - (s.crtPos.toNat + crtCols) % crtCols := by
    have down : (s.crtPos + BitVec.ofNat 16 crtCols).toNat = s.crtPos.toNat + crtCols := by
      rw [crtSize, crtRows, crtCols] at inside
      rw [crtCols]
      bv_omega
    rw [carriageReturn, BitVec.toNat_sub_of_le]
    · rw [BitVec.toNat_umod, down]
      rfl
    · rw [BitVec.le_def, BitVec.toNat_umod]
      exact Nat.mod_le ..
  apply settle_displays
  rw [next]
  exact Terminal.Shows.newline displays Console.blankCell

theorem store_within (displays : s.Displays t) (c : BitVec 32) : s.Keeps (s.store s.crtPos.toNat c) :=
  .store s c displays.inside

theorem cgaPutc_keeps_char (displays : s.Displays t) {c : BitVec 32} (char : c &&& 0xFF ≠ 0x09) :
    s.Keeps (cgaPutc c s) := by
  have inside := displays.inside
  rw [cgaPutc, attributed_char]
  split
  · split
    · rename_i positive
      have back : (s.crtPos - 1).toNat < crtSize := by bv_omega
      exact ((cursor_keeps s (s.crtPos - 1)).trans (.store _ _ back)).trans (settle_keeps _)
    · exact settle_keeps s
  · split
    · exact (cursor_keeps s _).trans (settle_keeps _)
    · split
      · exact (cursor_keeps s _).trans (settle_keeps _)
      · exact ((store_within displays _).trans (cursor_keeps _ _)).trans (settle_keeps _)

theorem cgaPutc_displays_char (displays : s.Displays t) {c : BitVec 32} (char : c &&& 0xFF ≠ 0x09) :
    (cgaPutc c s).Displays (t.put c) := by
  rw [cgaPutc, attributed_char, Console.put]
  split
  · exact backspace_displays displays _
  · split
    · exact newline_displays displays
    · split
      · exact settle_inside (carriageReturn_displays displays)
      · exact print_displays displays _

/-- One character, of which what the serial line and the parallel port do is not seen on the screen. -/
theorem consPutc_char (displays : s.Displays t) {c : BitVec 32} (char : c &&& 0xFF ≠ 0x09) :
    s.Keeps (consPutc c s) ∧ (consPutc c s).Displays (t.put c) := by
  have ports : (lptPutc c (serialPutc c s)).Displays t := displays
  have unseen : s.Keeps (lptPutc c (serialPutc c s)) := ⟨rfl, fun _ _ => rfl⟩
  rw [consPutc]
  exact ⟨unseen.trans (cgaPutc_keeps_char ports char), cgaPutc_displays_char ports char⟩

theorem consPutc_space (displays : s.Displays t) :
    s.Keeps (consPutc 0x20 s) ∧ (consPutc 0x20 s).Displays (t.print Console.blankCell) :=
  consPutc_char displays (by decide)

theorem cgaPutc_tab (displays : s.Displays t) {c : BitVec 32} (tab : c &&& 0xFF = 0x09) :
    s.Keeps (cgaPutc c s) ∧ (cgaPutc c s).Displays (t.put c) := by
  obtain ⟨keeps₁, displays₁⟩ := consPutc_space displays
  obtain ⟨keeps₂, displays₂⟩ := consPutc_space displays₁
  obtain ⟨keeps₃, displays₃⟩ := consPutc_space displays₂
  obtain ⟨keeps₄, displays₄⟩ := consPutc_space displays₃
  obtain ⟨keeps₅, displays₅⟩ := consPutc_space displays₄
  have keeps := (((keeps₁.trans keeps₂).trans keeps₃).trans keeps₄).trans keeps₅
  have others : (0x09 : BitVec 32) ≠ 0x08 ∧ (0x09 : BitVec 32) ≠ 0x0A ∧ (0x09 : BitVec 32) ≠ 0x0D := by decide
  rw [cgaPutc, attributed_char, tab, if_neg others.1, if_neg others.2.1, if_neg others.2.2, if_pos rfl, Console.put, tab,
    if_neg others.1, if_neg others.2.1, if_neg others.2.2, if_pos rfl]
  exact ⟨keeps.trans (settle_keeps _), settle_inside displays₅⟩

theorem consPutc_displays (displays : s.Displays t) (c : BitVec 32) :
    s.Keeps (consPutc c s) ∧ (consPutc c s).Displays (t.put c) := by
  by_cases tab : c &&& 0xFF = 0x09
  · have ports : (lptPutc c (serialPutc c s)).Displays t := displays
    have unseen : s.Keeps (lptPutc c (serialPutc c s)) := ⟨rfl, fun _ _ => rfl⟩
    obtain ⟨keeps, shown⟩ := cgaPutc_tab ports tab
    rw [consPutc]
    exact ⟨unseen.trans keeps, shown⟩
  · exact consPutc_char displays tab

def Screen.output (s : Screen) (chars : List (BitVec 32)) : Screen := chars.foldl (fun s c => consPutc c s) s

theorem output_displays (displays : s.Displays t) (chars : List (BitVec 32)) :
    s.Keeps (s.output chars) ∧ (s.output chars).Displays (chars.foldl Console.put t) := by
  induction chars generalizing s t with
  | nil => exact ⟨.refl s, displays⟩
  | cons c chars ih =>
    obtain ⟨keeps, shown⟩ := consPutc_displays displays c
    obtain ⟨others, last⟩ := ih shown
    exact ⟨keeps.trans others, last⟩

def Screen.console (s : Screen) (inside : s.crtPos.toNat < crtSize) : Console where
  cell r c := s.cell (r.val * crtCols + c.val)
  row := ⟨s.crtPos.toNat / crtCols, Nat.div_lt_of_lt_mul (by rwa [Nat.mul_comm])⟩
  col := ⟨s.crtPos.toNat % crtCols, Nat.mod_lt _ (by decide)⟩

theorem console_displays (inside : s.crtPos.toNat < crtSize) : s.Displays (s.console inside) :=
  ⟨(Nat.div_add_mod' ..).symm, fun _ _ => rfl⟩

/-- From any position inside the screen on, whatever is put out: the position stays inside, what is written lies in
    the buffer, and rows and cursor are those of the terminal. -/
theorem cons_putc_terminal (s : Screen) (inside : s.crtPos.toNat < crtSize) (chars : List (BitVec 32)) :
    ∃ inside' : (s.output chars).crtPos.toNat < crtSize,
      (s.output chars).console inside' = chars.foldl Console.put (s.console inside) ∧
      ∀ a, ¬ Within s.crtBuf (2 * crtSize) a → (s.output chars).m a = s.m a := by
  obtain ⟨keeps, displays⟩ := output_displays (console_displays inside) chars
  exact ⟨displays.inside, (console_displays displays.inside).unique displays, keeps.outside⟩

theorem cons_putc_terminal_last : ∃ start inside,
    (Screen.output ⟨false, fun _ => 0x20, 1999, []⟩ [0x41, 0x0A]).console inside =
      [0x41, 0x0A].foldl Console.put (Screen.console ⟨false, fun _ => 0x20, 1999, []⟩ start) := by
  have start : (Screen.mk false (fun _ => 0x20) 1999 []).crtPos.toNat < crtSize := Nat.lt_add_one 1999
  obtain ⟨inside, same, -⟩ := cons_putc_terminal ⟨false, fun _ => 0x20, 1999, []⟩ start [0x41, 0x0A]
  exact ⟨start, inside, same⟩

end Jos
