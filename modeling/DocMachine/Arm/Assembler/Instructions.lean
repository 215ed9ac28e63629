import DocMachine.Arm.Word
import DocMachine.Arm.Assembler.SymbolTable

/-!
# Assembling one instruction

Model of `assembler_defs.c` (`get_Register` 8-11, `get_Mnemonic` 13-86, `write_to_file` 88-93),
`assembler/data_processing/data_processing.c` (`int_to_operand2` 10-29, `get_shift` 31-45,
`get_Operand2` 48-83, `write_instruction` 86-91, `assemble_data_processing` 112-126),
`assembler/multiply/multiply.c` (12-28), `assembler/branch/branch.c` (`get_cond` 30-69,
`compute_offset` 75-94, `assemble_branch` 113-137) and `assembler/special/special.c` (7-9).

* Each `assemble` returns the four bytes that the source writes to the file, and `none` where the
  source exits, fails an assertion or follows a null pointer.
* A string is the list of its characters. Buffers are taken to be as large as what is copied into
  them; an `int` is an integer.
* A `char **` of operand fields is a list, and an index past its end a null pointer.
* `get_Operand2` searches the fields for operand 2 by their first characters. That is
  `findOperand2`, which follows the source's loop; where it stops too early or too late is the
  subject of `Operands.lean`.
* `int_to_operand2` is `rotate`, with the 16 iterations of the source as its fuel.
-/

namespace DocMachine.Arm.Assembler

open DocMachine.Lib

/-- `instruction_t`. A field past the end of the list is a null pointer. -/
structure Instruction where
  mnemonic : CString
  operandFields : List CString

/-- `enum mnemonic`. -/
inductive Mnemonic where
  | and | eor | sub | rsb | add | tst | teq | cmp | orr | mov | mul | mla | ldr | str
  | beq | bne | bge | blt | bgt | ble | b | lsl | andeq
deriving DecidableEq

/-- The strings that `get_Mnemonic` compares with. -/
def mnemonics : List (CString × Mnemonic) :=
  [(['a', 'd', 'd'], .add), (['s', 'u', 'b'], .sub), (['r', 's', 'b'], .rsb),
    (['a', 'n', 'd'], .and), (['e', 'o', 'r'], .eor), (['o', 'r', 'r'], .orr),
    (['m', 'o', 'v'], .mov), (['t', 's', 't'], .tst), (['t', 'e', 'q'], .teq),
    (['c', 'm', 'p'], .cmp), (['m', 'u', 'l'], .mul), (['m', 'l', 'a'], .mla),
    (['l', 'd', 'r'], .ldr), (['s', 't', 'r'], .str), (['b', 'e', 'q'], .beq),
    (['b', 'n', 'e'], .bne), (['b', 'g', 'e'], .bge), (['b', 'g', 't'], .bgt),
    (['b', 'l', 'e'], .ble), (['b', 'l', 't'], .blt), (['b'], .b), (['l', 's', 'l'], .lsl),
    (['a', 'n', 'd', 'e', 'q'], .andeq)]

/-- `get_Mnemonic`. -/
def getMnemonic (m : CString) : Option Mnemonic :=
  (mnemonics.find? fun entry => entry.1 = m).map Prod.snd

/-- The value of a data processing mnemonic in the enumeration: its opcode. -/
def Mnemonic.opCode : Mnemonic → Byte
  | and => 0x0
  | eor => 0x1
  | sub => 0x2
  | rsb => 0x3
  | add => 0x4
  | tst => 0x8
  | teq => 0x9
  | cmp => 0xa
  | orr => 0xc
  | mov => 0xd
  | _ => 0xe

/-- `get_Register`. -/
def getRegister : CString → Option Byte
  | 'r' :: s => some (BitVec.ofInt 8 (CString.strtol 10 s))
  | _ => none

/-! ## data_processing.c -/

namespace DataProcessing

/-- The loop of `int_to_operand2`, at iteration `i` with `fuel` iterations to go. -/
def rotate : ℕ → ℕ → Word → Word → Option Word
  | 0, _, _, _ => none
  | fuel + 1, i, curr, immediate =>
    if immediate >>> 8 ≠ 0 then some (-1)
    else if curr = 0 then some (immediate ||| BitVec.ofNat 32 (i <<< 8))
    else rotate fuel (i + 1) (curr <<< 2) ((immediate <<< 2) ||| (curr >>> 30))

/-- `int_to_operand2`. -/
def intToOperand2 (val : Word) : Option Word := rotate 16 0 (val &&& ~~~0xff#32) (val &&& 0xff#32)

/-- `get_shift`. -/
def getShift (op2 : CString) : Byte :=
  if op2 = ['l', 's', 'l'] then 1
  else if op2 = ['l', 's', 'r'] then 2
  else if op2 = ['a', 's', 'r'] then 3
  else if op2 = ['r', 'o', 'r'] then 4
  else 0

/-- The loop over the operand fields: the field that holds operand 2 and, for a shift, the register
before it. After four fields the source reads the pointer past them before it looks at the index;
what it reads makes no difference. -/
def findOperand2 : CString → List CString → Option (CString × Byte)
  | op2, [] => some (op2, 0)
  | previous, field :: fields =>
    if field.head? ≠ some 'r' ∧ field.head? ≠ some '#' then
      (getRegister previous).map fun Rm => (field, Rm)
    else findOperand2 field fields

/-- `get_Operand2`: 12 bits, and the I bit above them. -/
def getOperand2 (instruction : Instruction) : Option Word := do
  let field ← instruction.operandFields[0]?
  let (op2, Rm) ← findOperand2 field ((instruction.operandFields.drop 1).take 3)
  let tokens := CString.strtok [' '] op2
  let op2 ← tokens[0]?
  let shiftType := getShift op2
  if op2.head? = some '#' then
    (intToOperand2 (BitVec.ofInt 32 (CString.strtol 0 op2.tail))).map ((1#32 <<< 12) ||| ·)
  else if shiftType ≠ 0 then do
    let shift ← tokens[1]?
    let shiftBits : Word := ((shiftType - 1).setWidth 32 <<< 5) ||| Rm.setWidth 32
    if shift.head? = some 'r' then
      let Rs ← getRegister shift
      some ((Rs.setWidth 32 <<< 8) ||| (1#32 <<< 4) ||| shiftBits)
    else some ((BitVec.ofInt 32 (CString.strtol 0 shift.tail) <<< 7) ||| shiftBits)
  else (getRegister op2).map (·.setWidth 32)

/-- `write_instruction`, whose `I` is `operand2 >> 12` in every call. -/
def writeInstruction (opCode S Rn Rd : Byte) (operand2 : Word) : Encoding where
  first := (0xe#8 <<< 4) ||| ((operand2 >>> 12).setWidth 8 <<< 1) ||| (opCode >>> 3)
  second := (opCode <<< 5) ||| (S <<< 4) ||| Rn
  third := (Rd <<< 4) ||| ((operand2 >>> 8) &&& 0xf).setWidth 8
  fourth := operand2.setWidth 8

/-- `mov_instruction`. -/
def movInstruction (instruction : Instruction) (opCode : Byte) : Option Encoding := do
  let Rd ← getRegister (← instruction.operandFields[0]?)
  let operand2 ← getOperand2 instruction
  some (writeInstruction opCode 0 0 Rd operand2)

/-- `compute_instruction`. -/
def computeInstruction (instruction : Instruction) (opCode : Byte) : Option Encoding := do
  let Rd ← getRegister (← instruction.operandFields[0]?)
  let Rn ← getRegister (← instruction.operandFields[1]?)
  let operand2 ← getOperand2 instruction
  some (writeInstruction opCode 0 Rn Rd operand2)

/-- `cpsr_instruction`: a comparison, with the S bit and without `Rd`. -/
def cpsrInstruction (instruction : Instruction) (opCode : Byte) : Option Encoding := do
  let Rn ← getRegister (← instruction.operandFields[0]?)
  let operand2 ← getOperand2 instruction
  some (writeInstruction opCode 1 Rn 0 operand2)

/-- `assemble_data_processing`. -/
def assemble (instruction : Instruction) : Option Encoding := do
  let m ← getMnemonic instruction.mnemonic
  match m with
  | .mov => movInstruction instruction m.opCode
  | .tst | .teq | .cmp => cpsrInstruction instruction m.opCode
  | _ => computeInstruction instruction m.opCode

end DataProcessing

/-- `assemble_multiply`. -/
def assembleMultiply (instruction : Instruction) : Option Encoding := do
  let Rd ← getRegister (← instruction.operandFields[0]?)
  let Rm ← getRegister (← instruction.operandFields[1]?)
  let Rs ← getRegister (← instruction.operandFields[2]?)
  let word : Encoding := ⟨0xe#8 <<< 4, Rd, Rs, (0x9#8 <<< 4) ||| Rm⟩
  if instruction.mnemonic = ['m', 'l', 'a'] then do
    let Rn ← getRegister (← instruction.operandFields[3]?)
    some { word with second := word.second ||| (0x2#8 <<< 4), third := word.third ||| (Rn <<< 4) }
  else some word

/-- `assemble_andeq`. -/
def assembleAndeq : Encoding := ⟨0x0, 0x0, 0x0, 0x0⟩

/-! ## branch.c -/

namespace Branch

/-- `get_branch_instruction_template`. -/
def getBranchInstructionTemplate : Word := 0x5#32 <<< 25

/-- `get_cond`. -/
def getCond : CString → Option Nibble
  | ['b'] => some 14
  | 'b' :: 'e' :: _ => some 0
  | 'b' :: 'n' :: _ => some 1
  | 'b' :: 'g' :: s => if s.head? = some 'e' then some 10 else some 12
  | 'b' :: 'l' :: s => if s.head? = some 'e' then some 13 else some 11
  | 'b' :: _ => some 14
  | _ => none

/-- `compute_offset`: the offset as a 24-bit number of words, a negative one in two's
complement. -/
def computeOffset (offset : ℤ) : Word :=
  if 0 ≤ offset then BitVec.ofInt 32 (offset / 4)
  else ((1#32 <<< 25) ||| BitVec.ofInt 32 (offset + 2 ^ 25)) >>> 2

/-- The word `assemble_branch` builds. -/
def encode (cond : Nibble) (offset : ℤ) : Word :=
  getBranchInstructionTemplate ||| (cond.setWidth 32 <<< 28) ||| computeOffset offset

/-- `assemble_branch`, with what stands behind the copies in the table when it looks the label
up. -/
def assemble (behind : ℕ → CString) (instruction : Instruction) (table : SymbolTable)
    (currentAddress : ℤ) : Option Encoding := do
  let label ← instruction.operandFields[0]?
  let cond ← getCond instruction.mnemonic
  let destinationAddress ← table.getAddress behind label
  some (Encoding.ofWord (encode cond (destinationAddress - currentAddress - 8)))

end Branch

end DocMachine.Arm.Assembler
