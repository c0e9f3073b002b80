import JosKernel.Debug.Lineno

namespace Jos

open Leb128 (FitsUnsigned FitsSigned)
open LineProgram (Format Instr Operand Row)

-- What is encoded is read back

variable {msb : Bool} {addrSize : Nat} {pc : Word} {r : LineRegisters} {li : DwarfLineInfo} {row : Row}
  {p : List (BitVec 8)}

def Legible (operand : Operand) : Prop :=
  FitsUnsigned operand.extra operand.value ∧ operand.extra ≤ 4 ∧ operand.value < 2^31

instance (operand : Operand) : Decidable (Legible operand) := inferInstanceAs (Decidable (_ ∧ _))

theorem Legible.read {operand : Operand} (exact : Legible operand) :
    dwarfDecodeUleb128 (operand.bytes ++ p) = some (BitVec.ofNat 64 operand.value, p) :=
  (dwarfDecodeUleb128_exact exact.1 p).mpr exact.2

theorem dwarfDecode_word {size : Nat} (sizes : size ∈ [1, 2, 4, 8]) {w : Word} (fits : w.toNat < 2^(8 * size)) :
    dwarfDecode msb size (LineProgram.word msb size w ++ p) = some (w, p) := by
  have whole : Bus.value (Bus.bytes w size) = w := by
    apply BitVec.eq_of_toNat_eq
    rw [Bus.value_bytes_toNat w (by revert size; simp), Nat.mod_eq_of_lt fits]
  have length := LineProgram.word_length msb size w
  rw [dwarfDecode, if_pos sizes, if_neg (by rw [List.length_append, length]; omega),
    List.take_left' length, List.drop_left' length]
  cases msb with
  | false => exact congrArg (fun value => some (value, p)) whole
  | true =>
    rw [LineProgram.word]
    simp only [if_true, List.reverse_reverse, whole]

theorem skipString_name {name : List (BitVec 8)} (text : 0 ∉ name) : skipString (name ++ 0 :: p) = some p := by
  induction name with
  | nil => rfl
  | cons byte name ih =>
    rw [List.mem_cons, not_or] at text
    rw [List.cons_append, skipString, if_neg (Ne.symm text.1), ih text.2]

theorem dwarfLinenoAddFile_entry {name : List (BitVec 8)} (text : 0 ∉ name) {directory time size : Operand}
    (first : Legible directory) (second : Legible time) (third : Legible size) :
    dwarfLinenoAddFile (LineProgram.fileEntry name directory time size ++ p) = some p := by
  have shape : LineProgram.fileEntry name directory time size ++ p =
      name ++ 0 :: (directory.bytes ++ (time.bytes ++ (size.bytes ++ p))) := by
    simp [LineProgram.fileEntry]
  rw [shape, dwarfLinenoAddFile, skipString_name text]
  change (dwarfDecodeUleb128 (directory.bytes ++ (time.bytes ++ (size.bytes ++ p)))).bind _ = _
  rw [first.read]
  change (dwarfDecodeUleb128 (time.bytes ++ (size.bytes ++ p))).bind _ = _
  rw [second.read]
  change (dwarfDecodeUleb128 (size.bytes ++ p)).bind _ = _
  rw [third.read]
  rfl

-- The code and the machine

def DwarfLineInfo.format (li : DwarfLineInfo) : Format where
  minLength := li.liMinlen.toNat
  defaultIsStmt := decide (li.liDefstmt ≠ 0)
  lineBase := li.liLbase.toInt
  lineRange := li.liLrange.toNat
  opcodeBase := li.liOpbase.toNat

structure LineRegisters.Holds (r : LineRegisters) (row : Row) : Prop where
  address : r.address = row.address
  file : r.file = BitVec.ofNat 64 row.file
  line : r.line = BitVec.ofInt 64 row.line
  column : r.column = BitVec.ofNat 64 row.column
  isStmt : r.isStmt ≠ 0 ↔ row.isStmt = true
  basicBlock : r.basicBlock = row.basicBlock
  endSequence : r.endSequence = false
  open' : row.endSequence = false

structure DwarfLine.Shows (ln : DwarfLine) (row : Row) : Prop where
  lnAddr : ln.lnAddr = row.address
  lnSymndx : ln.lnSymndx = 0
  lnFileno : ln.lnFileno = BitVec.ofNat 64 row.file
  lnLineno : ln.lnLineno = BitVec.ofInt 64 row.line
  lnColumn : ln.lnColumn = BitVec.ofNat 64 row.column
  lnBblock : ln.lnBblock = row.basicBlock
  lnStmt : ln.lnStmt ≠ 0 ↔ row.isStmt = true
  lnEndseq : ln.lnEndseq = false

def Readable (li : DwarfLineInfo) (addrSize : Nat) : Instr → Prop
  | .copy => 1 < li.liOpbase.toNat
  | .advancePc delta => 2 < li.liOpbase.toNat ∧ Legible delta
  | .advanceLine extra delta =>
    3 < li.liOpbase.toNat ∧ FitsSigned extra delta ∧ extra ≤ 4 ∧ -2^31 ≤ delta ∧ delta < 2^31
  | .setFile file => 4 < li.liOpbase.toNat ∧ Legible file
  | .setColumn column => 5 < li.liOpbase.toNat ∧ Legible column
  | .negateStmt => 6 < li.liOpbase.toNat
  | .setBasicBlock => 7 < li.liOpbase.toNat
  | .constAddPc => 8 < li.liOpbase.toNat ∧ li.liLrange ≠ 0
  | .fixedAdvancePc _ => 9 < li.liOpbase.toNat
  | .setPrologueEnd => 10 < li.liOpbase.toNat
  | .setEpilogueBegin => 11 < li.liOpbase.toNat
  | .setIsa isa => 12 < li.liOpbase.toNat ∧ Legible isa
  | .special opcode => opcode ≠ 0 ∧ li.liOpbase ≤ opcode ∧ li.liLrange ≠ 0
  | .endSequence extra => Legible ⟨extra, 1⟩
  | .setAddress extra address =>
    Legible ⟨extra, addrSize + 1⟩ ∧ addrSize ∈ [1, 2, 4, 8] ∧ address.toNat < 2^(8 * addrSize)
  | .defineFile extra name directory time size =>
    Legible ⟨extra, (LineProgram.fileEntry name directory time size).length + 1⟩ ∧ 0 ∉ name ∧ Legible directory ∧
      Legible time ∧ Legible size
  | .extended extra opcode payload => Legible ⟨extra, payload.length + 1⟩ ∧ opcode.toNat ∉ [1, 2, 3]

inductive Performs (pc : Word) (li : DwarfLineInfo) (row : Row) (instr : Instr) (p : List (BitVec 8)) : LineStep → Prop
  | quiet (r : LineRegisters) (holds : r.Holds (li.format.exec row instr).1)
      (silent : ∀ made ∈ (li.format.exec row instr).2, made.endSequence = true) :
      Performs pc li row instr p (.goesOn r li p)
  | appends (r : LineRegisters) (li' : DwarfLineInfo) (made : Row) (holds : r.Holds (li.format.exec row instr).1)
      (makes : (li.format.exec row instr).2 = some made) (open' : made.endSequence = false) (low : made.address ≤ pc)
      (same : li' = { li with liLine := li'.liLine, liLnlen := li.liLnlen + 1 }) (shows : li'.liLine.Shows made) :
      Performs pc li row instr p (.goesOn r li' p)
  | returns (made : Row) (makes : (li.format.exec row instr).2 = some made) (open' : made.endSequence = false)
      (high : pc < made.address) : Performs pc li row instr p (.returns li)

section Steps

theorem resetRegisters_holds (li : DwarfLineInfo) : li.resetRegisters.Holds (Row.initial li.format) where
  address := rfl
  file := rfl
  line := rfl
  column := rfl
  isStmt := by
    change (li.liDefstmt.toNat : Int) ≠ 0 ↔ decide (li.liDefstmt ≠ 0) = true
    rw [decide_eq_true_iff, not_iff_not]
    exact ⟨fun zero => BitVec.eq_of_toNat_eq (by simpa using zero), fun zero => by simp [zero]⟩
  basicBlock := rfl
  endSequence := rfl
  open' := rfl

theorem addressOf_eq {x : BitVec 8} (special : li.liOpbase ≤ x) (range : li.liLrange ≠ 0) :
    li.addressOf x = some ((li.format.advance x.toNat : Nat) : Int) := by
  have order : li.liOpbase.toNat ≤ x.toNat := special
  rw [DwarfLineInfo.addressOf, if_neg range, ← Int.ofNat_sub order]
  rfl

theorem lineOf_eq {x : BitVec 8} (special : li.liOpbase ≤ x) (range : li.liLrange ≠ 0) :
    li.lineOf x = some (li.format.lineDelta x.toNat) := by
  have order : li.liOpbase.toNat ≤ x.toNat := special
  rw [DwarfLineInfo.lineOf, if_neg range, ← Int.ofNat_sub order]
  rfl

theorem lineStep_standard (r : LineRegisters) (opcode : BitVec 8) (nonzero : opcode ≠ 0)
    (standard : opcode.toNat < li.liOpbase.toNat) :
    lineStep msb addrSize pc r li (opcode :: p) = standardOpcode msb pc r li opcode p := by
  rw [lineStep, if_neg nonzero]
  exact if_pos standard

theorem lineStep_block (r : LineRegisters) {extra : Nat} {opcode : BitVec 8} {operands : List (BitVec 8)}
    (exact : Legible ⟨extra, operands.length + 1⟩) :
    lineStep msb addrSize pc r li (LineProgram.block extra (opcode :: operands) ++ p) =
      extendedSwitch msb addrSize r li (BitVec.ofNat 64 (operands.length + 1)) (opcode :: (operands ++ p)) := by
  have read : dwarfDecodeUleb128 (Leb128.unsigned extra (operands.length + 1) ++ (opcode :: (operands ++ p))) =
      some (BitVec.ofNat 64 (operands.length + 1), opcode :: (operands ++ p)) := exact.read
  have shape : LineProgram.block extra (opcode :: operands) ++ p =
      0 :: (Leb128.unsigned extra (operands.length + 1) ++ (opcode :: (operands ++ p))) := by
    simp [LineProgram.block]
  rw [shape, lineStep, if_pos rfl, extendedOpcode, read]
  rfl

theorem extendedSwitch_unknown (r : LineRegisters) {extra : Nat} {opcode : BitVec 8} {operands : List (BitVec 8)}
    (exact : Legible ⟨extra, operands.length + 1⟩) (unknown : opcode.toNat ∉ [1, 2, 3]) :
    extendedSwitch msb addrSize r li (BitVec.ofNat 64 (operands.length + 1)) (opcode :: (operands ++ p)) =
      some (.goesOn r li p) := by
  have bound : operands.length + 1 < 2^31 := exact.2.2
  have size : (BitVec.ofNat 64 (operands.length + 1)).toNat = operands.length + 1 := by
    rw [BitVec.toNat_ofNat]
    exact Nat.mod_eq_of_lt (by omega)
  simp only [List.mem_cons, List.not_mem_nil, or_false, not_or] at unknown
  rw [extendedSwitch]
  split
  · exact absurd ‹_› unknown.1
  · exact absurd ‹_› unknown.2.1
  · exact absurd ‹_› unknown.2.2
  · rw [size, if_neg (by rw [List.length_append]; omega), List.drop_succ_cons, List.drop_left' rfl]

theorem appendAndClear_performs {instr : Instr} {made : Row} (holds : r.Holds made)
    (makes : li.format.exec row instr = (made.clear, some made)) :
    Performs pc li row instr p (appendAndClear pc r li p) := by
  have address := holds.address
  rw [appendAndClear, DwarfLineInfo.appendRow]
  by_cases high : pc < r.address
  · rw [if_pos high]
    exact .returns made (by rw [makes]) holds.open' (by rwa [← address])
  · rw [if_neg high]
    refine .appends _ _ made ?_ (by rw [makes]) holds.open' ?_ rfl
      ⟨holds.address, rfl, holds.file, holds.line, holds.column, holds.basicBlock, holds.isStmt, holds.endSequence⟩
    · rw [makes]
      exact ⟨holds.address, holds.file, holds.line, holds.column, holds.isStmt, rfl, holds.endSequence, holds.open'⟩
    · rw [← address]
      exact BitVec.not_lt.mp high

theorem uleb_step {operand : Operand} (exact : Legible operand) (next : Word → LineRegisters) :
    ((dwarfDecodeUleb128 (operand.bytes ++ p)).bind fun x => some (LineStep.goesOn (next x.1) li x.2)) =
      some (.goesOn (next (BitVec.ofNat 64 operand.value)) li p) := by
  rw [exact.read]
  rfl

theorem Performs.silently {instr : Instr} {row' : Row} (makes : li.format.exec row instr = (row', none))
    (holds : r.Holds row') : Performs pc li row instr p (.goesOn r li p) := by
  refine .quiet r (by rwa [makes]) ?_
  intro made member
  rw [makes] at member
  cases member

theorem address_add {delta : Word} {distance : Nat} (same : delta = BitVec.ofNat 64 distance) (holds : r.Holds row) :
    LineRegisters.Holds { r with address := r.address + delta }
      { row with address := LineProgram.Format.add row distance } :=
  { holds with address := by rw [Format.add, holds.address, same] }

theorem lineStep_performs (holds : r.Holds row) {instr : Instr} (readable : Readable li addrSize instr) : ∃ step,
    lineStep msb addrSize pc r li (instr.encode msb addrSize ++ p) = some step ∧ Performs pc li row instr p step := by
  cases instr with
  | copy => exact ⟨_, lineStep_standard r 1 (by decide) readable, appendAndClear_performs holds rfl⟩
  | advancePc delta =>
    obtain ⟨standard, exact⟩ := readable
    refine ⟨_, (lineStep_standard r 2 (by decide) standard).trans (uleb_step exact fun delta =>
      { r with address := r.address + delta * li.liMinlen.setWidth 64 }), .silently rfl (address_add ?_ holds)⟩
    rw [BitVec.ofNat_mul]
    congr 1
    apply BitVec.eq_of_toNat_eq
    rw [BitVec.toNat_setWidth, BitVec.toNat_ofNat]
    rfl
  | advanceLine extra delta =>
    obtain ⟨standard, fits, exact⟩ := readable
    have read := (dwarfDecodeSleb128_exact fits p).mpr exact
    refine ⟨.goesOn { r with line := r.line + BitVec.ofInt 64 delta } li p,
      (lineStep_standard r 3 (by decide) standard).trans ?_, .silently rfl { holds with line := ?_ }⟩
    · change (dwarfDecodeSleb128 (Leb128.signed extra delta ++ p)).bind _ = _
      rw [read]
      rfl
    · dsimp only
      rw [holds.line, BitVec.ofInt_add]
  | setFile file =>
    exact ⟨_, (lineStep_standard r 4 (by decide) readable.1).trans (uleb_step readable.2 fun file =>
      { r with file := file }), .silently rfl { holds with file := rfl }⟩
  | setColumn column =>
    exact ⟨_, (lineStep_standard r 5 (by decide) readable.1).trans (uleb_step readable.2 fun column =>
      { r with column := column }), .silently rfl { holds with column := rfl }⟩
  | negateStmt =>
    refine ⟨_, lineStep_standard r 6 (by decide) readable, .silently rfl { holds with isStmt := ?_ }⟩
    have flag := holds.isStmt
    by_cases zero : r.isStmt = 0 <;> simp_all
  | setBasicBlock =>
    exact ⟨_, lineStep_standard r 7 (by decide) readable, .silently rfl { holds with basicBlock := rfl }⟩
  | constAddPc =>
    obtain ⟨standard, range⟩ := readable
    have top : li.liOpbase ≤ 255 := by
      have bound := li.liOpbase.isLt
      rw [BitVec.le_def]
      change _ ≤ 255
      omega
    refine ⟨.goesOn { r with address := r.address + BitVec.ofInt 64 (li.format.advance 255 : Nat) } li p,
      (lineStep_standard r 8 (by decide) standard).trans ?_, .silently rfl (address_add (BitVec.ofInt_natCast ..) holds)⟩
    · change (li.addressOf 255).bind _ = _
      rw [addressOf_eq top range]
      rfl
  | fixedAdvancePc delta =>
    have small : (delta.setWidth 64).toNat = delta.toNat := by
      rw [BitVec.toNat_setWidth]
      omega
    have read := @dwarfDecode_word msb p 2 (by decide) (delta.setWidth 64) (by rw [small]; exact delta.isLt)
    refine ⟨.goesOn { r with address := r.address + delta.setWidth 64 } li p,
      (lineStep_standard r 9 (by decide) readable).trans ?_, .silently rfl (address_add ?_ holds)⟩
    · change (dwarfDecode msb 2 (LineProgram.word msb 2 (delta.setWidth 64) ++ p)).bind _ = _
      rw [read]
      rfl
    · rw [← small, BitVec.ofNat_toNat, BitVec.setWidth_eq]
  | setPrologueEnd => exact ⟨_, lineStep_standard r 10 (by decide) readable, .silently rfl { holds with }⟩
  | setEpilogueBegin => exact ⟨_, lineStep_standard r 11 (by decide) readable, .silently rfl { holds with }⟩
  | setIsa isa =>
    exact ⟨_, (lineStep_standard r 12 (by decide) readable.1).trans (uleb_step readable.2 fun _ => r),
      .silently rfl holds⟩
  | special opcode =>
    obtain ⟨nonzero, special, range⟩ := readable
    refine ⟨_, ?_, appendAndClear_performs (r := { r with
      line := r.line + BitVec.ofInt 64 (li.format.lineDelta opcode.toNat),
      address := r.address + BitVec.ofInt 64 (li.format.advance opcode.toNat : Nat) }) ?_ rfl⟩
    · have notStandard : ¬ opcode < li.liOpbase := BitVec.not_lt.mpr special
      change lineStep msb addrSize pc r li (opcode :: p) = _
      rw [lineStep, if_neg nonzero, if_neg notStandard, specialOpcode, lineOf_eq special range,
        addressOf_eq special range]
      rfl
    · refine { holds with address := ?_, line := ?_ }
      · dsimp only
        rw [Format.add, holds.address, BitVec.ofInt_natCast]
      · dsimp only
        rw [holds.line, BitVec.ofInt_add]
  | endSequence extra =>
    refine ⟨_, (@lineStep_block msb addrSize pc li p r extra 1 [] readable).trans rfl, .quiet _ ?_ ?_⟩
    · exact resetRegisters_holds li
    · rintro made ⟨⟩
      rfl
  | setAddress extra address =>
    obtain ⟨exact, sizes, fits⟩ := readable
    have read := @dwarfDecode_word msb p addrSize sizes address fits
    have length := LineProgram.word_length msb addrSize address
    refine ⟨.goesOn { r with address := address } li p,
      (@lineStep_block msb addrSize pc li p r extra 2 (LineProgram.word msb addrSize address) ?_).trans ?_,
      .silently rfl { holds with address := rfl }⟩
    · rwa [length]
    · change (dwarfDecode msb addrSize (LineProgram.word msb addrSize address ++ p)).bind _ = _
      rw [read]
      rfl
  | defineFile extra name directory time size =>
    obtain ⟨exact, text, first, second, third⟩ := readable
    refine ⟨.goesOn r li p, (@lineStep_block msb addrSize pc li p r extra 3
      (LineProgram.fileEntry name directory time size) exact).trans ?_, .silently rfl holds⟩
    change (dwarfLinenoAddFile (LineProgram.fileEntry name directory time size ++ p)).bind _ = _
    rw [dwarfLinenoAddFile_entry text first second third]
    rfl
  | extended extra opcode payload =>
    exact ⟨_, (@lineStep_block msb addrSize pc li p r extra opcode payload readable.1).trans
      (extendedSwitch_unknown r readable.1 readable.2), .silently rfl holds⟩

end Steps

-- A whole program

structure Finds (li : DwarfLineInfo) (table : List Row) (li' : DwarfLineInfo) : Prop where
  same : li' = { li with liLine := li'.liLine, liLnlen := li.liLnlen + BitVec.ofNat 64 table.length }
  none : table = [] → li'.liLine = li.liLine
  last : ∀ row, table.getLast? = some row → li'.liLine.Shows row

theorem Finds.nil (li : DwarfLineInfo) : Finds li [] li :=
  ⟨by simp, fun _ => rfl, by simp⟩

theorem Finds.cons {li' li'' : DwarfLineInfo} {table : List Row} {made : Row}
    (same : li' = { li with liLine := li'.liLine, liLnlen := li.liLnlen + 1 }) (shows : li'.liLine.Shows made)
    (rest : Finds li' table li'') : Finds li (made :: table) li'' := by
  refine ⟨?_, by simp, ?_⟩
  · have count : li.liLnlen + 1 + BitVec.ofNat 64 table.length =
        li.liLnlen + BitVec.ofNat 64 (made :: table).length := by
      rw [List.length_cons, BitVec.ofNat_add, BitVec.add_assoc, BitVec.add_comm (BitVec.ofNat 64 table.length)]
      rfl
    rw [← count]
    have whole := rest.same
    rw [same] at whole
    exact whole
  · intro row found
    cases table with
    | nil =>
      cases found
      rw [rest.none rfl]
      exact shows
    | cons other table =>
      rw [List.getLast?_cons_cons] at found
      exact rest.last row found

theorem upTo_append (made : Option Row) (table : List Row) (pc : Word) :
    LineProgram.upTo (made.toList ++ table) pc =
      match made with
      | none => LineProgram.upTo table pc
      | some made =>
        if made.endSequence then LineProgram.upTo table pc
        else if made.address ≤ pc then made :: LineProgram.upTo table pc
        else [] := by
  cases made with
  | none => rfl
  | some made =>
    rw [Option.toList_some, List.singleton_append, LineProgram.upTo, List.filter_cons]
    cases ends : made.endSequence with
    | true => simp [ends, LineProgram.upTo]
    | false => by_cases low : made.address ≤ pc <;> simp [ends, low, LineProgram.upTo]

theorem encode_ne_nil (msb : Bool) (addrSize : Nat) (instr : Instr) : instr.encode msb addrSize ≠ [] := by
  cases instr <;> exact List.cons_ne_nil _ _

theorem Readable.of_same {li' : DwarfLineInfo} (base : li'.liOpbase = li.liOpbase)
    (range : li'.liLrange = li.liLrange)
    {instr : Instr} (readable : Readable li addrSize instr) : Readable li' addrSize instr := by
  cases instr <;> simpa only [Readable, base, range] using readable

theorem dwarfLinenoRunProgram_finds {program : List Instr} (readable : ∀ instr ∈ program, Readable li addrSize instr)
    (holds : r.Holds row) (rest : List (BitVec 8)) : ∃ li',
      dwarfLinenoRunProgram msb addrSize pc rest.length r li (LineProgram.encodeAll msb addrSize program ++ rest) =
        some li' ∧ Finds li (LineProgram.upTo (li.format.rows row program) pc) li' := by
  induction program generalizing r row li with
  | nil =>
    refine ⟨li, ?_, .nil li⟩
    rw [dwarfLinenoRunProgram]
    exact if_pos (Nat.le_refl _)
  | cons instr program ih =>
    have shape : LineProgram.encodeAll msb addrSize (instr :: program) ++ rest =
        instr.encode msb addrSize ++ (LineProgram.encodeAll msb addrSize program ++ rest) := by
      rw [LineProgram.encodeAll, List.flatMap_cons, List.append_assoc]
      rfl
    have more : ¬ (instr.encode msb addrSize ++ (LineProgram.encodeAll msb addrSize program ++ rest)).length ≤
        rest.length := by
      have positive := List.length_pos_iff.mpr (encode_ne_nil msb addrSize instr)
      rw [List.length_append, List.length_append]
      omega
    obtain ⟨step, stepped, performs⟩ := lineStep_performs holds (readable instr (by simp))
    have others : ∀ instr ∈ program, Readable li addrSize instr := by
      intro other member
      exact readable other (by simp [member])
    rw [shape, dwarfLinenoRunProgram, if_neg more, Format.rows, upTo_append]
    split
    · rename_i failed
      rw [stepped] at failed
      cases failed
    · rename_i li' failed
      rw [stepped] at failed
      cases failed
      cases performs with
      | returns made makes open' high =>
        refine ⟨li, rfl, ?_⟩
        rw [makes]
        dsimp only
        rw [if_neg (by simp [open']), if_neg (BitVec.not_le.mpr high)]
        exact .nil li
    · rename_i r' li' p' failed
      rw [stepped] at failed
      cases failed
      cases performs with
      | quiet _ holds' silent =>
        obtain ⟨li'', ran, finds⟩ := ih others holds'
        refine ⟨li'', ran, ?_⟩
        cases makes : (li.format.exec row instr).2 with
        | none => exact finds
        | some made =>
          dsimp only
          rwa [if_pos (silent made makes)]
      | appends _ _ made holds' makes open' low same shows =>
        have format : li'.format = li.format := by
          rw [same]
          rfl
        have base : li'.liOpbase = li.liOpbase := by rw [same]
        have range : li'.liLrange = li.liLrange := by rw [same]
        obtain ⟨li'', ran, finds⟩ := ih (fun instr member => (others instr member).of_same base range) holds'
        rw [format] at finds
        refine ⟨li'', ran, ?_⟩
        rw [makes]
        dsimp only
        rw [if_neg (by simp [open']), if_pos low]
        exact finds.cons same shows

end Jos
