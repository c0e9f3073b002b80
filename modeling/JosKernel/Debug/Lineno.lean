import JosKernel.Debug.Leb
import JosKernel.Lib.LineProgram

namespace Jos

open LineProgram (Format Instr Operand Row)

-- kern/dwarf.h

/-- `struct _Dwarf_Line_` -/
structure DwarfLine where
  lnAddr : Word
  lnSymndx : Word
  lnFileno : Word
  lnLineno : Word
  lnColumn : Word
  lnBblock : Bool
  lnStmt : Int
  lnEndseq : Bool
  deriving DecidableEq, Repr

/-- `struct _Dwarf_LineInfo_`, without the arrays that nothing reads. -/
structure DwarfLineInfo where
  liLength : Word
  liVersion : BitVec 16
  liHdrlen : Word
  liMinlen : BitVec 8
  liDefstmt : BitVec 8
  liLbase : BitVec 8
  liLrange : BitVec 8
  liOpbase : BitVec 8
  liInclen : Word
  liLine : DwarfLine
  liLnlen : Word
  deriving DecidableEq, Repr

def DwarfLine.zero : DwarfLine := ⟨0, 0, 0, 0, 0, false, 0, false⟩

def DwarfLineInfo.zero : DwarfLineInfo := ⟨0, 0, 0, 0, 0, 0, 0, 0, 0, .zero, 0⟩

-- kern/libdwarf_rw.c

/-- `dbg->decode`: `_dwarf_decode_msb` or `_dwarf_decode_lsb`. -/
def dwarfDecode (msb : Bool) (bytesToRead : Nat) (src : List (BitVec 8)) : Option (Word × List (BitVec 8)) :=
  if bytesToRead ∈ [1, 2, 4, 8] then
    if src.length < bytesToRead then none
    else
      let bytes := src.take bytesToRead
      some (Bus.value (if msb then bytes.reverse else bytes), src.drop bytesToRead)
  else some (0, src)

-- kern/libdwarf_lineno.c

structure LineRegisters where
  address : Word
  file : Word
  line : Word
  column : Word
  isStmt : Int
  basicBlock : Bool
  endSequence : Bool
  prologueEnd : Bool
  epilogueBegin : Bool

namespace DwarfLineInfo

variable (li : DwarfLineInfo)

def resetRegisters : LineRegisters where
  address := 0
  file := 1
  line := 1
  column := 0
  isStmt := li.liDefstmt.toNat
  basicBlock := false
  endSequence := false
  prologueEnd := false
  epilogueBegin := false

def appendRow (pc : Word) (r : LineRegisters) : Option DwarfLineInfo :=
  if pc < r.address then none
  else some { li with
    liLine := {
      lnAddr := r.address
      lnSymndx := 0
      lnFileno := r.file
      lnLineno := r.line
      lnColumn := r.column
      lnBblock := r.basicBlock
      lnStmt := r.isStmt
      lnEndseq := r.endSequence }
    liLnlen := li.liLnlen + 1 }

/-- `LINE(x)`, which divides by `li_lrange`. -/
def lineOf (x : BitVec 8) : Option Int :=
  if li.liLrange = 0 then none
  else some (li.liLbase.toInt + ((x.toNat : Int) - li.liOpbase.toNat).tmod li.liLrange.toNat)

def addressOf (x : BitVec 8) : Option Int :=
  if li.liLrange = 0 then none
  else some (((x.toNat : Int) - li.liOpbase.toNat).tdiv li.liLrange.toNat * li.liMinlen.toNat)

end DwarfLineInfo

def skipString : List (BitVec 8) → Option (List (BitVec 8))
  | [] => none
  | byte :: src => if byte = 0 then some src else skipString src

/-- `_dwarf_lineno_add_file`, which only moves `*p`. -/
def dwarfLinenoAddFile (src : List (BitVec 8)) : Option (List (BitVec 8)) := do
  let src ← skipString src
  let (_, src) ← dwarfDecodeUleb128 src
  let (_, src) ← dwarfDecodeUleb128 src
  let (_, src) ← dwarfDecodeUleb128 src
  return src

inductive LineStep
  | goesOn (r : LineRegisters) (li : DwarfLineInfo) (p : List (BitVec 8))
  | returns (li : DwarfLineInfo)

section Steps

variable (msb : Bool) (addrSize : Nat) (pc : Word) (r : LineRegisters) (li : DwarfLineInfo)

def appendAndClear (p : List (BitVec 8)) : LineStep :=
  match li.appendRow pc r with
  | none => .returns li
  | some li => .goesOn { r with basicBlock := false, prologueEnd := false, epilogueBegin := false } li p

/-- `switch (*p)` of an extended opcode. -/
def extendedSwitch (opsize : Word) : List (BitVec 8) → Option LineStep
  | [] => none
  | opcode :: operands =>
    match opcode.toNat with
    | 1 => some (.goesOn li.resetRegisters li operands)
    | 2 => do
      let (address, p) ← dwarfDecode msb addrSize operands
      return .goesOn { r with address := address } li p
    | 3 => do
      let p ← dwarfLinenoAddFile operands
      return .goesOn r li p
    -- an unknown opcode is skipped, but not out of memory
    | _ =>
      if operands.length + 1 < opsize.toNat then none
      else some (.goesOn r li ((opcode :: operands).drop opsize.toNat))

def extendedOpcode (p : List (BitVec 8)) : Option LineStep := do
  let (opsize, p) ← dwarfDecodeUleb128 p
  extendedSwitch msb addrSize r li opsize p

def standardOpcode (opcode : BitVec 8) (p : List (BitVec 8)) : Option LineStep :=
  match opcode.toNat with
  | 1 => some (appendAndClear pc r li p)
  | 2 => do
    let (delta, p) ← dwarfDecodeUleb128 p
    return .goesOn { r with address := r.address + delta * li.liMinlen.setWidth 64 } li p
  | 3 => do
    let (delta, p) ← dwarfDecodeSleb128 p
    return .goesOn { r with line := r.line + delta } li p
  | 4 => do
    let (file, p) ← dwarfDecodeUleb128 p
    return .goesOn { r with file := file } li p
  | 5 => do
    let (column, p) ← dwarfDecodeUleb128 p
    return .goesOn { r with column := column } li p
  | 6 => some (.goesOn { r with isStmt := if r.isStmt = 0 then 1 else 0 } li p)
  | 7 => some (.goesOn { r with basicBlock := true } li p)
  | 8 => do
    let delta ← li.addressOf 255
    return .goesOn { r with address := r.address + BitVec.ofInt 64 delta } li p
  | 9 => do
    let (delta, p) ← dwarfDecode msb 2 p
    return .goesOn { r with address := r.address + delta } li p
  | 10 => some (.goesOn { r with prologueEnd := true } li p)
  | 11 => some (.goesOn { r with epilogueBegin := true } li p)
  | 12 => do
    let (_, p) ← dwarfDecodeUleb128 p
    return .goesOn r li p
  | _ => some (.goesOn r li p)

def specialOpcode (opcode : BitVec 8) (p : List (BitVec 8)) : Option LineStep := do
  let line ← li.lineOf opcode
  let address ← li.addressOf opcode
  let r := { r with line := r.line + BitVec.ofInt 64 line, address := r.address + BitVec.ofInt 64 address }
  return appendAndClear pc r li p

def lineStep : List (BitVec 8) → Option LineStep
  | [] => none
  | opcode :: p =>
    if opcode = 0 then extendedOpcode msb addrSize r li p
    else if opcode < li.liOpbase then standardOpcode msb pc r li opcode p
    else specialOpcode pc r li opcode p

end Steps

-- Every step reads at least one byte

theorem lebLoop_length {ret value : Word} {shift shift' : Nat} {last : BitVec 8} {src rest : List (BitVec 8)}
    (read : lebLoop ret shift src = some (value, shift', last, rest)) : rest.length < src.length := by
  induction src generalizing ret shift with
  | nil => cases read
  | cons b src ih =>
    rw [lebLoop] at read
    split_ifs at read
    · exact (ih read).trans (Nat.lt_succ_self _)
    · cases read
      exact Nat.lt_succ_self _

section Lengths

variable {src rest : List (BitVec 8)} {value : Word}

theorem dwarfDecodeUleb128_length (read : dwarfDecodeUleb128 src = some (value, rest)) :
    rest.length < src.length := by
  obtain ⟨⟨_, _, _, _⟩, loop, parts⟩ := Option.map_eq_some_iff.mp read
  cases parts
  exact lebLoop_length loop

theorem dwarfDecodeSleb128_length (read : dwarfDecodeSleb128 src = some (value, rest)) :
    rest.length < src.length := by
  obtain ⟨⟨_, _, _, _⟩, loop, parts⟩ := Option.map_eq_some_iff.mp read
  cases parts
  exact lebLoop_length loop

theorem dwarfDecode_length {msb : Bool} {size : Nat} (read : dwarfDecode msb size src = some (value, rest)) :
    rest.length ≤ src.length := by
  unfold dwarfDecode at read
  split at read
  · split at read
    · cases read
    · cases read
      rw [List.length_drop]
      omega
  · cases read
    exact Nat.le_refl _

theorem skipString_length (skipped : skipString src = some rest) : rest.length < src.length := by
  induction src with
  | nil => cases skipped
  | cons byte src ih =>
    rw [skipString] at skipped
    split_ifs at skipped
    · cases skipped
      exact Nat.lt_succ_self _
    · exact (ih skipped).trans (Nat.lt_succ_self _)

theorem dwarfLinenoAddFile_length (added : dwarfLinenoAddFile src = some rest) : rest.length < src.length := by
  obtain ⟨src₁, name, added⟩ := Option.bind_eq_some_iff.mp added
  obtain ⟨⟨_, src₂⟩, directory, added⟩ := Option.bind_eq_some_iff.mp added
  obtain ⟨⟨_, src₃⟩, time, added⟩ := Option.bind_eq_some_iff.mp added
  obtain ⟨⟨_, src₄⟩, size, added⟩ := Option.bind_eq_some_iff.mp added
  cases added
  have first := skipString_length name
  have second := dwarfDecodeUleb128_length directory
  have third := dwarfDecodeUleb128_length time
  have fourth := dwarfDecodeUleb128_length size
  omega

end Lengths

/-- The program goes on with at most `n` bytes of memory left. -/
def LineStep.Within (n : Nat) : LineStep → Prop
  | .goesOn _ _ p => p.length ≤ n
  | .returns _ => True

section Within

variable {msb : Bool} {addrSize n : Nat} {pc : Word} {r : LineRegisters} {li : DwarfLineInfo} {opcode : BitVec 8}
  {p : List (BitVec 8)}

theorem within_bind {read : Option (Word × List (BitVec 8))}
    (shorter : ∀ value rest, read = some (value, rest) → rest.length ≤ n) (next : Word → LineRegisters) :
    ∀ step ∈ read.bind (fun x => some (LineStep.goesOn (next x.1) li x.2)), step.Within n := by
  intro step made
  obtain ⟨⟨value, rest⟩, found, result⟩ := Option.bind_eq_some_iff.mp made
  cases result
  exact shorter value rest found

theorem appendAndClear_within : (appendAndClear pc r li p).Within p.length := by
  rw [appendAndClear]
  split
  · trivial
  · exact Nat.le_refl _

theorem uleb_within (next : Word → LineRegisters) :
    ∀ step ∈ (dwarfDecodeUleb128 p).bind (fun x => some (LineStep.goesOn (next x.1) li x.2)), step.Within p.length :=
  within_bind (fun _ _ read => (dwarfDecodeUleb128_length read).le) next

theorem standardOpcode_within : ∀ step ∈ standardOpcode msb pc r li opcode p, step.Within p.length := by
  have same : ∀ r', ∀ step ∈ some (LineStep.goesOn r' li p), step.Within p.length := by
    rintro r' step ⟨⟩
    exact Nat.le_refl _
  unfold standardOpcode
  split
  · rintro step ⟨⟩
    exact appendAndClear_within
  · exact uleb_within fun delta => { r with address := r.address + delta * li.liMinlen.setWidth 64 }
  · exact within_bind (fun _ _ read => (dwarfDecodeSleb128_length read).le) fun delta =>
      { r with line := r.line + delta }
  · exact uleb_within fun file => { r with file := file }
  · exact uleb_within fun column => { r with column := column }
  · exact same _
  · exact same _
  · intro step made
    obtain ⟨delta, -, made⟩ := Option.bind_eq_some_iff.mp made
    exact same _ step made
  · exact within_bind (fun _ _ read => dwarfDecode_length read) fun delta => { r with address := r.address + delta }
  · exact same _
  · exact same _
  · exact uleb_within fun _ => r
  · exact same _

theorem extendedSwitch_within {opsize : Word} :
    ∀ step ∈ extendedSwitch msb addrSize r li opsize p, step.Within p.length := by
  intro step made
  cases p with
  | nil => cases made
  | cons opcode operands =>
    rw [List.length_cons]
    rw [extendedSwitch] at made
    split at made
    · cases made
      exact Nat.le_succ _
    · refine within_bind (fun value rest read => ?_) (fun address => { r with address := address }) step made
      have length := dwarfDecode_length read
      omega
    · obtain ⟨rest, added, made⟩ := Option.bind_eq_some_iff.mp made
      cases made
      exact Nat.le_succ_of_le (dwarfLinenoAddFile_length added).le
    · split at made
      · cases made
      · cases made
        change (List.drop opsize.toNat (opcode :: operands)).length ≤ operands.length + 1
        rw [List.length_drop, List.length_cons]
        omega

theorem extendedOpcode_within : ∀ step ∈ extendedOpcode msb addrSize r li p, step.Within p.length := by
  intro step made
  obtain ⟨⟨opsize, rest⟩, read, made⟩ := Option.bind_eq_some_iff.mp made
  have within := extendedSwitch_within step made
  have shorter := dwarfDecodeUleb128_length read
  cases step with
  | goesOn r li p' => exact le_trans within shorter.le
  | returns li => trivial

theorem lineStep_shrinks {r' : LineRegisters} {li' : DwarfLineInfo} {p' : List (BitVec 8)}
    (made : lineStep msb addrSize pc r li p = some (.goesOn r' li' p')) : p'.length < p.length := by
  cases p with
  | nil => cases made
  | cons opcode p =>
    rw [lineStep] at made
    refine Nat.lt_succ_of_le ?_
    split_ifs at made
    · exact extendedOpcode_within _ made
    · exact standardOpcode_within _ made
    · obtain ⟨line, -, made⟩ := Option.bind_eq_some_iff.mp made
      obtain ⟨address, -, made⟩ := Option.bind_eq_some_iff.mp made
      have within := @appendAndClear_within pc { r with
        line := r.line + BitVec.ofInt 64 line, address := r.address + BitVec.ofInt 64 address } li p
      rwa [Option.some.inj made] at within

end Within

/-- `_dwarf_lineno_run_program`, which returns where `stop` bytes of memory are left. -/
def dwarfLinenoRunProgram (msb : Bool) (addrSize : Nat) (pc : Word) (stop : Nat) (r : LineRegisters) (li : DwarfLineInfo)
    (p : List (BitVec 8)) : Option DwarfLineInfo :=
  if p.length ≤ stop then some li
  else
    match _made : lineStep msb addrSize pc r li p with
    | none => none
    | some (.returns li) => some li
    | some (.goesOn r li p') => dwarfLinenoRunProgram msb addrSize pc stop r li p'
termination_by p.length
decreasing_by exact lineStep_shrinks _made

end Jos
