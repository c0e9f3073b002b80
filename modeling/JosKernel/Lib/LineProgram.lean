import JosKernel.Lib.Bus
import JosKernel.Lib.Leb128

-- The line number programs of DWARF: what they mean, and how they are encoded.

namespace LineProgram

abbrev Byte := BitVec 8

structure Format where
  minLength : Nat
  defaultIsStmt : Bool
  lineBase : Int
  lineRange : Nat
  opcodeBase : Nat

structure Operand where
  extra : Nat
  value : Nat
  deriving DecidableEq, Repr

/-- In the extended instructions `extra` is about the bytes of their length. -/
inductive Instr
  | copy
  | advancePc (delta : Operand)
  | advanceLine (extra : Nat) (delta : Int)
  | setFile (file : Operand)
  | setColumn (column : Operand)
  | negateStmt
  | setBasicBlock
  | constAddPc
  | fixedAdvancePc (delta : BitVec 16)
  | setPrologueEnd
  | setEpilogueBegin
  | setIsa (isa : Operand)
  | special (opcode : Byte)
  | endSequence (extra : Nat)
  | setAddress (extra : Nat) (address : BitVec 64)
  | defineFile (extra : Nat) (name : List Byte) (directory time size : Operand)
  | extended (extra : Nat) (opcode : Byte) (payload : List Byte)

@[ext] structure Row where
  address : BitVec 64
  file : Nat
  line : Int
  column : Nat
  isStmt : Bool
  basicBlock : Bool
  endSequence : Bool
  prologueEnd : Bool
  epilogueBegin : Bool
  deriving DecidableEq, Repr

namespace Row

def initial (format : Format) : Row where
  address := 0
  file := 1
  line := 1
  column := 0
  isStmt := format.defaultIsStmt
  basicBlock := false
  endSequence := false
  prologueEnd := false
  epilogueBegin := false

def clear (r : Row) : Row := { r with basicBlock := false, prologueEnd := false, epilogueBegin := false }

end Row

namespace Format

def advance (format : Format) (opcode : Nat) : Nat := (opcode - format.opcodeBase) / format.lineRange * format.minLength

def lineDelta (format : Format) (opcode : Nat) : Int :=
  format.lineBase + ((opcode - format.opcodeBase) % format.lineRange : Nat)

def add (r : Row) (distance : Nat) : BitVec 64 := r.address + BitVec.ofNat 64 distance

def exec (format : Format) (r : Row) : Instr → Row × Option Row
  | .copy => (r.clear, some r)
  | .advancePc delta => ({ r with address := add r (delta.value * format.minLength) }, none)
  | .advanceLine _ delta => ({ r with line := r.line + delta }, none)
  | .setFile file => ({ r with file := file.value }, none)
  | .setColumn column => ({ r with column := column.value }, none)
  | .negateStmt => ({ r with isStmt := !r.isStmt }, none)
  | .setBasicBlock => ({ r with basicBlock := true }, none)
  | .constAddPc => ({ r with address := add r (format.advance 255) }, none)
  | .fixedAdvancePc delta => ({ r with address := add r delta.toNat }, none)
  | .setPrologueEnd => ({ r with prologueEnd := true }, none)
  | .setEpilogueBegin => ({ r with epilogueBegin := true }, none)
  | .special opcode =>
    let r := { r with line := r.line + format.lineDelta opcode.toNat, address := add r (format.advance opcode.toNat) }
    (r.clear, some r)
  | .endSequence _ => (Row.initial format, some { r with endSequence := true })
  | .setAddress _ address => ({ r with address := address }, none)
  | .setIsa _ | .defineFile _ _ _ _ _ | .extended _ _ _ => (r, none)

def rows (format : Format) (r : Row) : List Instr → List Row
  | [] => []
  | instr :: program => (format.exec r instr).2.toList ++ format.rows (format.exec r instr).1 program

end Format

-- Encodings

def word (big : Bool) (size : Nat) (w : BitVec 64) : List Byte :=
  if big then (Bus.bytes w size).reverse else Bus.bytes w size

theorem word_length (big : Bool) (size : Nat) (w : BitVec 64) : (word big size w).length = size := by
  rw [word]
  split
  · rw [List.length_reverse, Bus.bytes_length]
  · exact Bus.bytes_length w size

def Operand.bytes (operand : Operand) : List Byte := Leb128.unsigned operand.extra operand.value

def fileEntry (name : List Byte) (directory time size : Operand) : List Byte :=
  name ++ 0 :: (directory.bytes ++ (time.bytes ++ size.bytes))

def block (extra : Nat) (body : List Byte) : List Byte := 0 :: (Leb128.unsigned extra body.length ++ body)

namespace Instr

def body (big : Bool) (addressSize : Nat) : Instr → List Byte
  | .endSequence _ => [1]
  | .setAddress _ address => 2 :: word big addressSize address
  | .defineFile _ name directory time size => 3 :: fileEntry name directory time size
  | .extended _ opcode payload => opcode :: payload
  | _ => []

def encode (big : Bool) (addressSize : Nat) (instr : Instr) : List Byte :=
  match instr with
  | .copy => [1]
  | .advancePc delta => 2 :: delta.bytes
  | .advanceLine extra delta => 3 :: Leb128.signed extra delta
  | .setFile file => 4 :: file.bytes
  | .setColumn column => 5 :: column.bytes
  | .negateStmt => [6]
  | .setBasicBlock => [7]
  | .constAddPc => [8]
  | .fixedAdvancePc delta => 9 :: word big 2 (delta.setWidth 64)
  | .setPrologueEnd => [10]
  | .setEpilogueBegin => [11]
  | .setIsa isa => 12 :: isa.bytes
  | .special opcode => [opcode]
  | .endSequence extra | .setAddress extra _ | .defineFile extra _ _ _ _ | .extended extra _ _ =>
    block extra (instr.body big addressSize)

end Instr

def encodeAll (big : Bool) (addressSize : Nat) (program : List Instr) : List Byte :=
  program.flatMap (Instr.encode big addressSize)

/-- The tables of directories and files before a program, and how its numbers are to be read. -/
structure Header where
  wide : Bool
  version : BitVec 16
  minLength : Byte
  defaultIsStmt : Byte
  lineBase : Byte
  lineRange : Byte
  opcodeBase : Byte
  standardLengths : List Byte
  directories : List (List Byte)
  files : List (List Byte × Operand × Operand × Operand)

namespace Header

variable (header : Header) (big : Bool)

def width : Nat := if header.wide then 8 else 4

def directoryTable : List Byte := header.directories.flatMap (· ++ [0]) ++ [0]

def fileTable : List Byte := header.files.flatMap (fun file => fileEntry file.1 file.2.1 file.2.2.1 file.2.2.2) ++ [0]

def fields : List Byte :=
  [header.minLength, header.defaultIsStmt, header.lineBase, header.lineRange, header.opcodeBase] ++
    (header.standardLengths ++ (header.directoryTable ++ header.fileTable))

def contents (code : List Byte) : List Byte :=
  word big 2 (header.version.setWidth 64) ++
    (word big header.width (BitVec.ofNat 64 header.fields.length) ++ (header.fields ++ code))

def unitLength (code : List Byte) : List Byte :=
  (if header.wide then word big 4 0xFFFFFFFF else []) ++
    word big header.width (BitVec.ofNat 64 (header.contents big code).length)

def encode (code : List Byte) : List Byte := header.unitLength big code ++ header.contents big code

def format : Format where
  minLength := header.minLength.toNat
  defaultIsStmt := decide (header.defaultIsStmt ≠ 0)
  lineBase := header.lineBase.toInt
  lineRange := header.lineRange.toNat
  opcodeBase := header.opcodeBase.toNat

def table (program : List Instr) : List Row := header.format.rows (Row.initial header.format) program

end Header

-- Lookups

def Covers (table : List Row) (pc : BitVec 64) (row : Row) : Prop :=
  ∃ before next after, table = before ++ row :: next :: after ∧ row.endSequence = false ∧ row.address ≤ pc ∧
    pc < next.address

def upTo (table : List Row) (pc : BitVec 64) : List Row :=
  (table.filter fun row => !row.endSequence).takeWhile fun row => row.address ≤ pc

/-- In a table whose addresses do not fall, the last of them is the row for the address. -/
theorem Covers.last {table : List Row} {pc : BitVec 64} {row : Row} (covers : Covers table pc row)
    (ascending : table.Pairwise fun row later => row.address ≤ later.address) :
    (upTo table pc).getLast? = some row := by
  obtain ⟨before, next, after, rfl, ends, low, high⟩ := covers
  have below : ∀ other ∈ before, other.address ≤ pc := by
    intro other member
    exact BitVec.le_trans ((List.pairwise_append.mp ascending).2.2 other member row (by simp)) low
  have above : ∀ other ∈ next :: after, pc < other.address := by
    intro other member
    rcases List.mem_cons.mp member with rfl | later
    · exact high
    · have rest := (List.pairwise_cons.mp (List.pairwise_append.mp ascending).2.1).2
      have step := (List.pairwise_cons.mp rest).1 other later
      rw [BitVec.le_def] at step
      rw [BitVec.lt_def] at high ⊢
      omega
  have tail : ((next :: after).filter fun row => !row.endSequence).takeWhile
      (fun row => decide (row.address ≤ pc)) = [] := by
    cases kept : (next :: after).filter fun row => !row.endSequence with
    | nil => rfl
    | cons first others =>
      have member : first ∈ (next :: after).filter fun row => !row.endSequence := by simp [kept]
      have beyond := above first (List.mem_of_mem_filter member)
      rw [List.takeWhile_cons_of_neg]
      simpa using beyond
  rw [upTo, List.filter_append, List.takeWhile_append_of_pos, List.filter_cons_of_pos (by simp [ends]),
    List.takeWhile_cons_of_pos (by simpa using low), tail, List.getLast?_concat]
  intro other member
  exact decide_eq_true (below other (List.mem_of_mem_filter member))

end LineProgram
