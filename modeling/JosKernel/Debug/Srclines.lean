import JosKernel.Debug.LineTable

namespace Jos

open LineProgram (Header Instr Operand Row)

-- kern/libdwarf_rw.c

/-- `dbg->read`: `_dwarf_read_msb` or `_dwarf_read_lsb`, with what `*offsetp` is then. -/
def dwarfRead (msb : Bool) (data : List (BitVec 8)) (offset : Word) (bytesToRead : Nat) : Option (Word × Word) := do
  let (ret, _) ← dwarfDecode msb bytesToRead (data.drop offset.toNat)
  return (ret, if bytesToRead ∈ [1, 2, 4, 8] then offset + BitVec.ofNat 64 bytesToRead else offset)

-- kern/libdwarf_lineno.c

structure DwarfLineSection where
  dsData : List (BitVec 8)
  dsSize : Word

inductive DwarfError
  | debugLineLengthBad
  deriving DecidableEq, Repr

def readLength (msb : Bool) (data : List (BitVec 8)) (offset : Word) : Option (Word × Word × Nat) := do
  let (length, offset) ← dwarfRead msb data offset 4
  if length = 0xFFFFFFFF then do
    let (length, offset) ← dwarfRead msb data offset 8
    return (length, offset, 8)
  else return (length, offset, 4)

def readOplen (msb : Bool) (data : List (BitVec 8)) : Nat → Word → Option Word
  | 0, offset => some offset
  | n + 1, offset => do
    let (_, offset) ← dwarfRead msb data offset 1
    readOplen msb data n offset

def countDirs (length : Word) (p : List (BitVec 8)) : Option (Word × List (BitVec 8)) :=
  match p with
  | [] => none
  | byte :: rest =>
    if byte = 0 then some (length, byte :: rest)
    else
      match _skipped : skipString (byte :: rest) with
      | none => none
      | some p => countDirs (length + 1) p
termination_by p.length
decreasing_by exact skipString_length _skipped

def addFiles (p : List (BitVec 8)) : Option (List (BitVec 8)) :=
  match p with
  | [] => none
  | byte :: rest =>
    if byte = 0 then some (byte :: rest)
    else
      match _added : dwarfLinenoAddFile (byte :: rest) with
      | none => none
      | some p => addFiles p
termination_by p.length
decreasing_by exact dwarfLinenoAddFile_length _added

def linenoTables (msb : Bool) (addrSize : Nat) (ds : DwarfLineSection) (pc endoff hdroff : Word) (li : DwarfLineInfo)
    (p : List (BitVec 8)) : Option (Except DwarfError DwarfLineInfo) := do
  let (inclen, p) ← countDirs 0 p
  if (ds.dsSize.setWidth 32).toInt < (ds.dsData.length : Int) - p.length then return .error .debugLineLengthBad
  else
    let p ← addFiles (p.drop 1)
    let p := p.drop 1
    if BitVec.ofNat 64 (ds.dsData.length - p.length) - hdroff ≠ li.liHdrlen then return .error .debugLineLengthBad
    -- the program lies in memory
    else if ds.dsData.length < endoff.toNat then none
    else
      let li := { li with liInclen := inclen }
      let li ← dwarfLinenoRunProgram msb addrSize pc (ds.dsData.length - endoff.toNat) li.resetRegisters li p
      return .ok li

def dwarfLinenoInit (msb : Bool) (addrSize : Nat) (ds : DwarfLineSection) (offset pc : Word) :
    Option (Except DwarfError DwarfLineInfo) := do
  let (length, offset, dwarfSize) ← readLength msb ds.dsData offset
  if ds.dsSize - offset < length then return .error .debugLineLengthBad
  else
    let endoff := offset + length
    let (version, offset) ← dwarfRead msb ds.dsData offset 2
    let (hdrlen, offset) ← dwarfRead msb ds.dsData offset dwarfSize
    let hdroff := offset
    let (minlen, offset) ← dwarfRead msb ds.dsData offset 1
    let (defstmt, offset) ← dwarfRead msb ds.dsData offset 1
    let (lbase, offset) ← dwarfRead msb ds.dsData offset 1
    let (lrange, offset) ← dwarfRead msb ds.dsData offset 1
    let (opbase, offset) ← dwarfRead msb ds.dsData offset 1
    let li : DwarfLineInfo := {
      liLength := length
      liVersion := version.setWidth 16
      liHdrlen := hdrlen
      liMinlen := minlen.setWidth 8
      liDefstmt := defstmt.setWidth 8
      liLbase := lbase.setWidth 8
      liLrange := lrange.setWidth 8
      liOpbase := opbase.setWidth 8
      liInclen := 0
      liLine := .zero
      liLnlen := 0 }
    if (hdrlen.setWidth 32).toInt - 5 < (li.liOpbase.toNat : Int) - 1 then return .error .debugLineLengthBad
    else
      let offset ← readOplen msb ds.dsData (li.liOpbase.toNat - 1) offset
      linenoTables msb addrSize ds pc endoff hdroff li (ds.dsData.drop offset.toNat)

/-- `dwarf_srclines`, where the unit has the attribute `DW_AT_stmt_list` or not: the result, and `*linebuf`. -/
def dwarfSrclines (msb : Bool) (addrSize : Nat) (ds : DwarfLineSection) (stmtList : Option Word) (linebuf : DwarfLine)
    (pc : Word) : Option (Int × DwarfLine) :=
  match stmtList with
  | none => some (-1, linebuf)
  | some offset => do
    match ← dwarfLinenoInit msb addrSize ds offset pc with
    | .error _ => return (1, linebuf)
    | .ok li => return (0, li.liLine)

-- Reading what is encoded

section Reads

variable {msb : Bool} {data rest : List (BitVec 8)} {offset : Word}

structure At (data : List (BitVec 8)) (offset : Word) (rest : List (BitVec 8)) : Prop where
  small : data.length < 2^64
  drop : data.drop offset.toNat = rest
  length : offset.toNat + rest.length = data.length

theorem At.skip {first : List (BitVec 8)} (here : At data offset (first ++ rest)) :
    At data (offset + BitVec.ofNat 64 first.length) rest := by
  obtain ⟨small, drop, length⟩ := here
  rw [List.length_append] at length
  have place : (offset + BitVec.ofNat 64 first.length).toNat = offset.toNat + first.length := by
    rw [BitVec.toNat_add, BitVec.toNat_ofNat]
    omega
  refine ⟨small, ?_, ?_⟩
  · rw [place, ← List.drop_drop, drop, List.drop_left' rfl]
  · rw [place, ← length, Nat.add_assoc]

theorem At.read {size : Nat} {w : Word} (here : At data offset (LineProgram.word msb size w ++ rest))
    (sizes : size ∈ [1, 2, 4, 8]) (fits : w.toNat < 2^(8 * size)) :
    dwarfRead msb data offset size = some (w, offset + BitVec.ofNat 64 size) ∧
      At data (offset + BitVec.ofNat 64 size) rest := by
  have next := here.skip
  rw [LineProgram.word_length] at next
  refine ⟨?_, next⟩
  rw [dwarfRead, here.drop, dwarfDecode_word sizes fits, if_pos sizes]
  rfl

theorem narrow {size : Nat} (small : size ≤ 64) (field : BitVec size) :
    (field.setWidth 64).setWidth size = field := by
  rw [BitVec.setWidth_setWidth_of_le _ small, BitVec.setWidth_eq]

theorem At.byte {byte : BitVec 8} (here : At data offset (byte :: rest)) :
    dwarfRead msb data offset 1 = some (byte.setWidth 64, offset + 1) ∧ At data (offset + 1) rest := by
  have single : LineProgram.word msb 1 (byte.setWidth 64) = [byte] := by
    cases msb <;> simp [LineProgram.word, Bus.bytes]
  apply At.read
  · rwa [single, List.singleton_append]
  · decide
  · rw [BitVec.toNat_setWidth]
    have bound := byte.isLt
    omega

theorem readOplen_at {lengths : List (BitVec 8)} (here : At data offset (lengths ++ rest)) : ∃ offset',
    readOplen msb data lengths.length offset = some offset' ∧ At data offset' rest := by
  induction lengths generalizing offset with
  | nil => exact ⟨offset, rfl, here⟩
  | cons byte lengths ih =>
    obtain ⟨read, next⟩ := @At.byte msb _ _ _ _ here
    obtain ⟨offset', loop, last⟩ := ih next
    refine ⟨offset', ?_, last⟩
    rw [List.length_cons, readOplen, read]
    exact loop

theorem readLength_at {header : Header} {code : List (BitVec 8)}
    (here : At data offset (header.unitLength msb code ++ rest))
    (small : (header.contents msb code).length < 0xFFFFFFFF) : ∃ offset',
      readLength msb data offset = some (BitVec.ofNat 64 (header.contents msb code).length, offset', header.width) ∧
        At data offset' rest := by
  rw [Header.unitLength, Header.width] at here
  rw [Header.width]
  cases wide : header.wide with
  | true =>
    simp only [wide, if_true, List.append_assoc] at here
    obtain ⟨read, next⟩ := here.read (by decide) (by decide)
    obtain ⟨read', last⟩ := next.read (by decide) (BitVec.isLt _)
    refine ⟨_, ?_, last⟩
    rw [readLength, read]
    dsimp only [bind, Option.bind]
    rw [if_pos rfl, read']
    rfl
  | false =>
    simp only [wide, Bool.false_eq_true, if_false, List.nil_append] at here
    have size : (BitVec.ofNat 64 (header.contents msb code).length).toNat = (header.contents msb code).length := by
      rw [BitVec.toNat_ofNat]
      omega
    obtain ⟨read, next⟩ := here.read (by decide) (by rw [size]; omega)
    refine ⟨_, ?_, next⟩
    rw [readLength, read]
    refine if_neg fun marked => ?_
    have value := congrArg BitVec.toNat marked
    rw [size] at value
    change _ = 0xFFFFFFFF at value
    omega

theorem countDirs_table {directories : List (List (BitVec 8))}
    (texts : ∀ name ∈ directories, name ≠ [] ∧ 0 ∉ name) (length : Word) :
    countDirs length (directories.flatMap (· ++ [0]) ++ 0 :: rest) =
      some (length + BitVec.ofNat 64 directories.length, 0 :: rest) := by
  induction directories generalizing length with
  | nil =>
    rw [List.flatMap_nil, List.nil_append, countDirs, if_pos rfl]
    simp
  | cons name directories ih =>
    obtain ⟨nonempty, text⟩ := texts name (by simp)
    have skipped := @skipString_name (directories.flatMap (· ++ [0]) ++ 0 :: rest) name text
    have later := ih (fun other member => texts other (by simp [member])) (length + 1)
    obtain ⟨byte, bytes, rfl⟩ := List.exists_cons_of_ne_nil nonempty
    have shape : ((byte :: bytes) :: directories).flatMap (· ++ [0]) ++ 0 :: rest =
        byte :: (bytes ++ 0 :: (directories.flatMap (· ++ [0]) ++ 0 :: rest)) := by simp
    have visible : byte ≠ 0 := fun zero => text (by simp [zero])
    rw [List.cons_append] at skipped
    rw [shape, countDirs, if_neg visible]
    split
    · rename_i failed
      rw [skipped] at failed
      cases failed
    · rename_i p found
      rw [skipped] at found
      cases found
      rw [later, List.length_cons, BitVec.ofNat_add, BitVec.add_assoc,
        BitVec.add_comm (BitVec.ofNat 64 directories.length)]
      rfl

theorem addFiles_table {files : List (List (BitVec 8) × Operand × Operand × Operand)}
    (entries : ∀ file ∈ files, file.1 ≠ [] ∧ 0 ∉ file.1 ∧ Legible file.2.1 ∧ Legible file.2.2.1 ∧ Legible file.2.2.2) :
    addFiles (files.flatMap (fun file => LineProgram.fileEntry file.1 file.2.1 file.2.2.1 file.2.2.2) ++ 0 :: rest) =
      some (0 :: rest) := by
  induction files with
  | nil =>
    rw [List.flatMap_nil, List.nil_append, addFiles, if_pos rfl]
  | cons file files ih =>
    obtain ⟨name, directory, time, size⟩ := file
    obtain ⟨nonempty, text, first, second, third⟩ := entries (name, directory, time, size) (by simp)
    have later := ih fun other member => entries other (by simp [member])
    generalize tail : files.flatMap (fun file =>
      LineProgram.fileEntry file.1 file.2.1 file.2.2.1 file.2.2.2) ++ 0 :: rest = others at later
    have added := @dwarfLinenoAddFile_entry others name text directory time size first second third
    obtain ⟨byte, bytes, rfl⟩ := List.exists_cons_of_ne_nil nonempty
    have visible : byte ≠ 0 := fun zero => text (by simp [zero])
    rw [List.flatMap_cons, List.append_assoc, tail, LineProgram.fileEntry, List.cons_append, List.cons_append, addFiles,
      if_neg visible]
    rw [LineProgram.fileEntry, List.cons_append, List.cons_append] at added
    split
    · rename_i failed
      rw [added] at failed
      cases failed
    · rename_i p found
      rw [added] at found
      cases found
      exact later

structure LegalHeader (header : Header) : Prop where
  lengths : header.standardLengths.length = header.opcodeBase.toNat - 1
  directories : ∀ name ∈ header.directories, name ≠ [] ∧ 0 ∉ name
  files : ∀ file ∈ header.files, file.1 ≠ [] ∧ 0 ∉ file.1 ∧ Legible file.2.1 ∧ Legible file.2.2.1 ∧ Legible file.2.2.2

def headerInfo (header : Header) (msb : Bool) (code : List (BitVec 8)) : DwarfLineInfo where
  liLength := BitVec.ofNat 64 (header.contents msb code).length
  liVersion := header.version
  liHdrlen := BitVec.ofNat 64 header.fields.length
  liMinlen := header.minLength
  liDefstmt := header.defaultIsStmt
  liLbase := header.lineBase
  liLrange := header.lineRange
  liOpbase := header.opcodeBase
  liInclen := BitVec.ofNat 64 header.directories.length
  liLine := .zero
  liLnlen := 0

theorem toInt_narrow {n : Nat} (small : n < 2^31) : ((BitVec.ofNat 64 n).setWidth 32).toInt = n := by
  rw [BitVec.toInt_eq_toNat_cond, BitVec.toNat_setWidth, BitVec.toNat_ofNat]
  omega

/-- Of a unit that is encoded in the section the code finds the program, and its end. -/
theorem dwarfLinenoInit_at {header : Header} {code : List (BitVec 8)} {size pc : Word} {addrSize : Nat}
    (legal : LegalHeader header) (here : At data offset (header.encode msb code ++ rest))
    (within : offset.toNat + (header.encode msb code).length ≤ size.toNat) (small : size.toNat < 2^31) :
    dwarfLinenoInit msb addrSize ⟨data, size⟩ offset pc =
      (dwarfLinenoRunProgram msb addrSize pc rest.length (headerInfo header msb code).resetRegisters
        (headerInfo header msb code) (code ++ rest)).map .ok := by
  have total : (header.encode msb code).length =
      (header.unitLength msb code).length + (header.contents msb code).length :=
    List.length_append
  have parts : (header.contents msb code).length = 2 + (header.width + (header.fields.length + code.length)) := by
    rw [Header.contents, List.length_append, List.length_append, List.length_append, LineProgram.word_length,
      LineProgram.word_length]
  have tables : header.fields.length =
      5 + (header.standardLengths.length + (header.directoryTable.length + header.fileTable.length)) := by
    rw [Header.fields, List.length_append, List.length_append, List.length_append]
    rfl
  have widths : header.width ∈ [1, 2, 4, 8] := by
    rw [Header.width]
    split <;> decide
  have hdrlen : (BitVec.ofNat 64 header.fields.length).toNat = header.fields.length := by
    rw [BitVec.toNat_ofNat]
    omega
  have hdrfits : (BitVec.ofNat 64 header.fields.length).toNat < 2^(8 * header.width) := by
    have least : 4 ≤ header.width := by
      rw [Header.width]
      split <;> decide
    have power : 2^32 ≤ 2^(8 * header.width) := Nat.pow_le_pow_right (by decide) (by omega)
    omega
  rw [Header.encode, List.append_assoc] at here
  obtain ⟨start, lengthRead, at₁⟩ := readLength_at here (by omega)
  have at₁' := at₁
  rw [Header.contents, List.append_assoc, List.append_assoc] at at₁'
  obtain ⟨versionRead, at₂⟩ := at₁'.read (by decide) (by
    rw [BitVec.toNat_setWidth]
    have bound := header.version.isLt
    omega)
  obtain ⟨hdrlenRead, at₃⟩ := at₂.read widths hdrfits
  generalize hdr : start + BitVec.ofNat 64 2 + BitVec.ofNat 64 header.width = hdroff at hdrlenRead at₃
  have at₃' := at₃
  rw [Header.fields, List.append_assoc, List.append_assoc, List.append_assoc, List.append_assoc] at at₃'
  obtain ⟨minlenRead, at₄⟩ := @At.byte msb _ _ _ _ at₃'
  obtain ⟨defstmtRead, at₅⟩ := @At.byte msb _ _ _ _ at₄
  obtain ⟨lbaseRead, at₆⟩ := @At.byte msb _ _ _ _ at₅
  obtain ⟨lrangeRead, at₇⟩ := @At.byte msb _ _ _ _ at₆
  obtain ⟨opbaseRead, at₈⟩ := @At.byte msb _ _ _ _ at₇
  obtain ⟨dirs, oplenRead, at₉⟩ := @readOplen_at msb _ _ _ header.standardLengths at₈
  rw [legal.lengths] at oplenRead
  have dirsRead : countDirs 0 (data.drop dirs.toNat) =
      some (BitVec.ofNat 64 header.directories.length, 0 :: (header.fileTable ++ (code ++ rest))) := by
    have counted := @countDirs_table (header.fileTable ++ (code ++ rest)) header.directories legal.directories 0
    rw [at₉.drop, Header.directoryTable, List.append_assoc, List.singleton_append, counted, zero_add]
  have filesRead : addFiles (header.fileTable ++ (code ++ rest)) = some (0 :: (code ++ rest)) := by
    rw [Header.fileTable, List.append_assoc, List.singleton_append]
    exact addFiles_table legal.files
  have lengths := here.length
  have lengths₁ := at₁.length
  have lengths₃ := at₃.length
  rw [List.length_append, List.length_append] at lengths
  rw [List.length_append] at lengths₁
  rw [List.length_append, List.length_append] at lengths₃
  have memory := here.small
  have fieldsSmall : header.fields.length < 2^31 := by omega
  have contentsSize : (BitVec.ofNat 64 (header.contents msb code).length).toNat =
      (header.contents msb code).length := by
    rw [BitVec.toNat_ofNat]
    omega
  have inSection : ¬ size - start < BitVec.ofNat 64 (header.contents msb code).length := by
    rw [BitVec.lt_def, contentsSize, BitVec.toNat_sub]
    omega
  have hdrRoom : ¬ ((BitVec.ofNat 64 header.fields.length).setWidth 32).toInt - 5 <
      (header.opcodeBase.toNat : Int) - 1 := by
    have standard := legal.lengths
    rw [toInt_narrow fieldsSmall]
    omega
  have sizeInt : (size.setWidth 32).toInt = size.toNat := by
    have value := toInt_narrow small
    rwa [BitVec.ofNat_toNat, BitVec.setWidth_eq] at value
  have stop : (start + BitVec.ofNat 64 (header.contents msb code).length).toNat = data.length - rest.length := by
    rw [BitVec.toNat_add, contentsSize]
    omega
  rw [dwarfLinenoInit]
  simp only [lengthRead, Option.bind_eq_bind, Option.bind_some]
  rw [if_neg inSection]
  simp only [versionRead, Option.bind_some]
  rw [hdrlenRead]
  simp only [Option.bind_some, minlenRead, defstmtRead, lbaseRead, lrangeRead, opbaseRead,
    narrow (show 8 ≤ 64 by decide), narrow (show 16 ≤ 64 by decide)]
  rw [if_neg hdrRoom, oplenRead, Option.bind_some, linenoTables, dirsRead]
  simp only [Option.bind_eq_bind, Option.bind_some, List.drop_succ_cons, List.drop_zero, filesRead]
  rw [if_neg, if_neg, if_neg]
  · rw [stop, show data.length - (data.length - rest.length) = rest.length by omega]
    exact Option.map_eq_bind.symm
  · rw [stop]
    omega
  · rw [not_not, List.length_append]
    apply BitVec.eq_of_toNat_eq
    rw [BitVec.toNat_sub, BitVec.toNat_ofNat, hdrlen]
    omega
  · rw [sizeInt, List.length_cons, List.length_append, List.length_append]
    omega

end Reads

/-- The line that `dwarf_srclines` gives is the last row of the table that is not above the address; in a table whose
addresses do not fall that is the row that covers the address. -/
theorem dwarfSrclines_covers {msb : Bool} {addrSize : Nat} {header : Header} {program : List Instr}
    {data rest : List (BitVec 8)} {size offset pc : Word} (linebuf : DwarfLine) (legal : LegalHeader header)
    (readable : ∀ instr ∈ program,
      Readable (headerInfo header msb (LineProgram.encodeAll msb addrSize program)) addrSize instr)
    (here : At data offset (header.encode msb (LineProgram.encodeAll msb addrSize program) ++ rest))
    (within : offset.toNat + (header.encode msb (LineProgram.encodeAll msb addrSize program)).length ≤ size.toNat)
    (small : size.toNat < 2^31) :
    ∃ line, dwarfSrclines msb addrSize ⟨data, size⟩ (some offset) linebuf pc = some (0, line) ∧
      (LineProgram.upTo (header.table program) pc = [] → line = .zero) ∧
      (∀ row, (LineProgram.upTo (header.table program) pc).getLast? = some row → line.Shows row) ∧
      ((header.table program).Pairwise (fun row later => row.address ≤ later.address) →
        ∀ row, LineProgram.Covers (header.table program) pc row → line.Shows row) := by
  have opened := @dwarfLinenoInit_at _ _ _ _ _ _ _ pc addrSize legal here within small
  obtain ⟨li, ran, -, none, last⟩ := @dwarfLinenoRunProgram_finds msb _ pc _ _ _ _ readable
    (resetRegisters_holds (headerInfo header msb (LineProgram.encodeAll msb addrSize program))) rest
  rw [ran] at opened
  refine ⟨li.liLine, ?_, none, last, fun ascending row covers => last row (covers.last ascending)⟩
  rw [dwarfSrclines, opened]
  rfl

def unitHeader : Header where
  wide := false
  version := 2
  minLength := 1
  defaultIsStmt := 1
  lineBase := 0xfb
  lineRange := 14
  opcodeBase := 13
  standardLengths := [0, 1, 1, 1, 1, 0, 0, 0, 1, 0, 0, 1]
  directories := []
  files := [([0x61, 0x2e, 0x63], ⟨0, 0⟩, ⟨0, 0⟩, ⟨0, 0⟩)]

/-- Line 10 from `0x8004200000` on, line 11 from `0x8004200004` on and line 9 up to `0x8004200010`. -/
def unitProgram : List Instr :=
  [.setAddress 0 0x8004200000, .advanceLine 0 9, .copy, .special 75, .advanceLine 0 (-2), .advancePc ⟨0, 8⟩, .copy,
    .advancePc ⟨0, 4⟩, .endSequence 0]

theorem unitHeader_legal : LegalHeader unitHeader where
  lengths := rfl
  directories := by
    intro name member
    cases member
  files := by
    intro file member
    rw [List.mem_singleton.mp member]
    decide

theorem unitProgram_readable : ∀ instr ∈ unitProgram, Readable
    (headerInfo unitHeader false (LineProgram.encodeAll false 8 unitProgram)) 8 instr := by
  simp only [unitProgram, List.forall_mem_cons, List.not_mem_nil, false_imp_iff, implies_true, Readable, headerInfo]
  decide

theorem dwarfSrclines_covers_unit : ∃ line,
    dwarfSrclines false 8 ⟨unitHeader.encode false (LineProgram.encodeAll false 8 unitProgram), 61⟩ (some 0) .zero
      0x8004200007 = some (0, line) ∧
      line.Shows { Row.initial unitHeader.format with address := 0x8004200004, line := 11 } := by
  have length : (unitHeader.encode false (LineProgram.encodeAll false 8 unitProgram)).length = 61 := by
    decide +kernel
  have here : At (unitHeader.encode false (LineProgram.encodeAll false 8 unitProgram)) 0
      (unitHeader.encode false (LineProgram.encodeAll false 8 unitProgram) ++ []) := by
    refine ⟨?_, ?_, ?_⟩
    · rw [length]
      decide
    · rw [List.append_nil]
      rfl
    · rw [List.append_nil]
      exact Nat.zero_add _
  obtain ⟨line, found, -, -, covered⟩ := @dwarfSrclines_covers _ _ _ _ _ _ 61 _ 0x8004200007 .zero unitHeader_legal
    unitProgram_readable here (by rw [length]; decide) (by decide)
  refine ⟨line, found, covered (by decide +kernel) _ ?_⟩
  exact ⟨_, _, _, (by decide +kernel : unitHeader.table unitProgram =
    [{ Row.initial unitHeader.format with address := 0x8004200000, line := 10 }] ++
    { Row.initial unitHeader.format with address := 0x8004200004, line := 11 } ::
    { Row.initial unitHeader.format with address := 0x800420000c, line := 9 } ::
    [{ Row.initial unitHeader.format with address := 0x8004200010, line := 9, endSequence := true }]),
    rfl, by decide, by decide⟩

end Jos
