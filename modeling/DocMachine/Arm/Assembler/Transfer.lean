import DocMachine.Arm.Assembler.Instructions

/-!
# Assembling a load or store

Model of `assembler/single_data_transfer/single_data_transfer.c` (the setters 15-59,
`is_pre_indexing_address` 61-63, `is_zero_offset` 65-71, `parse_base_register_number` 77-97,
`parse_offset_by_expression` 110-132, `parse_argument` 134-143, `get_address` 145-158,
`write_to_appended_memory` 173-178, `assemble_single_data_transfer` 180-259).

* A load of a constant that does not fit a `mov` is assembled as a load relative to the program
  counter, and the constant goes to the appended memory. `Pool` is that memory with the count of
  constants that `main` keeps next to it (`num_appended`).
* `appended_memory` is passed by value and its caller never moves it, so that every constant is
  written to the start of the memory.
* A constant that fits is assembled as a `mov` (`asMov`). The copy of its address (207-208) has no
  zero behind it; the address has fewer characters than the 24 that the smallest block of `malloc`
  holds, and the block is taken to be fresh.
* The setters take the sign of an offset away (`abs` in `set_offset`, 42), and the U bit is set by
  the caller.
-/

namespace DocMachine.Arm.Assembler

open DocMachine.Lib

/-- `#define MAX_NUM_INSTRUCTIONS (65536 / 4)`. -/
def maxNumInstructions : ℕ := 65536 / 4

/-- `appended_memory` and `num_appended`. -/
structure Pool where
  appendedMemory : Fin (maxNumInstructions * 4) → Byte
  numAppended : ℤ

namespace SingleDataTransfer

/-- `get_sdt_instruction_template`: bit 26. -/
def getSdtInstructionTemplate : Word := 1#32 <<< 26

/-- `is_ldr_instruction`. -/
def isLdrInstruction (mnemonic : CString) : Bool := mnemonic = ['l', 'd', 'r']

/-- `set_Nth_bit`. -/
def setNthBit (word : Word) (n : ℕ) : Word := word ||| (1#32 <<< n)

/-- `set_cond`: the condition is always `al`. -/
def setCond (word : Word) : Word := word ||| (14#32 <<< 28)

/-- `set_Rd`. -/
def setRd (word : Word) (Rd : ℤ) : Word := word ||| (BitVec.ofInt 32 Rd <<< 12)

/-- `set_Rn`. -/
def setRn (word : Word) (Rn : ℤ) : Word := word ||| (BitVec.ofInt 32 Rn <<< 16)

/-- `set_offset`: the absolute value, over all bits that it has. -/
def setOffset (word : Word) (offset : ℤ) : Word := word ||| BitVec.ofNat 32 offset.natAbs

/-- `set_I_bit`. -/
def setI (word : Word) : Word := setNthBit word 25

/-- `set_P_bit`. -/
def setP (word : Word) : Word := setNthBit word 24

/-- `set_U_bit`. -/
def setU (word : Word) : Word := setNthBit word 23

/-- `set_L_bit`. -/
def setL (word : Word) : Word := setNthBit word 20

/-- `is_pre_indexing_address`: the address is all between brackets. -/
def isPreIndexingAddress (address : CString) : Bool :=
  address.head? = some '[' && address.getLast? = some ']'

/-- `is_zero_offset`: `[rn]` with a register of one or two digits. -/
def isZeroOffset (address : CString) : Bool := address.length = 4 || address.length = 5

/-- `is_digit`. -/
def isDigit (ch : Char) : Bool := '0' ≤ ch && ch ≤ '9'

/-- `parse_base_register_number`: one digit after the first `r`, or two. -/
def parseBaseRegisterNumber (address : CString) : Option ℤ :=
  match address.dropWhile (· ≠ 'r') with
  | _ :: s => some (CString.atoi (if s[1]?.any isDigit then s.take 2 else s.take 1))
  | [] => none

/-- `is_offset_by_expression`. -/
def isOffsetByExpression (address : CString) : Bool := address.contains '#'

/-- `parse_offset_by_expression`. -/
def parseOffsetByExpression (address : CString) : ℤ :=
  CString.atoi ((address.dropWhile (· ≠ '#')).tail.takeWhile fun c => isDigit c || c = '-')

/-- `parse_argument`. -/
def parseArgument (address : CString) : Word :=
  if address[2]? = some 'x' then BitVec.ofNat 32 (CString.strtoul 16 address.tail)
  else BitVec.ofInt 32 (CString.atoi address.tail)

/-- `get_address`: the operand fields after the first, without what separated them. -/
def getAddress (operandFields : List CString) : CString := ((operandFields.drop 1).take 3).flatten

/-- The constant that the instruction has to put after the program. -/
def literal (instruction : Instruction) : Option Word :=
  let address := getAddress instruction.operandFields
  if isLdrInstruction instruction.mnemonic && address.head? = some '=' &&
      0xff < parseArgument address then some (parseArgument address)
  else none

/-- The instruction as a `mov`, when its constant fits one. -/
def asMov (instruction : Instruction) : Instruction where
  mnemonic := ['m', 'o', 'v']
  operandFields := instruction.operandFields.set 1
    ('#' :: (getAddress instruction.operandFields).tail)

/-- The load of a constant from the word at `endAddress + 4`. -/
def encodeLiteralLoad (Rd : Byte) (offset : ℤ) : Word :=
  setOffset (setRn (setU (setP (setL (setRd (setCond getSdtInstructionTemplate) Rd.toNat)))) 15)
    offset

/-- The word of a load or store with a base register. -/
def encode (instruction : Instruction) (Rd : Byte) (address : CString) : Option Word :=
  let result := setRd (setCond getSdtInstructionTemplate) Rd.toNat
  let result := if isLdrInstruction instruction.mnemonic then setL result else result
  (parseBaseRegisterNumber address).map fun Rn =>
    let result := setRn result Rn
    let result := if isPreIndexingAddress address then setP result else result
    if isZeroOffset address then setU result
    else if isOffsetByExpression address then
      let offset := parseOffsetByExpression address
      setOffset (if 0 < offset then setU result else result) offset
    else setI result

/-- `write_to_appended_memory` and the increment of the count. -/
def writeToAppendedMemory (pool : Pool) (word : Word) : Option Pool :=
  (writeWord pool.appendedMemory 0 word).map fun memory => ⟨memory, pool.numAppended + 1⟩

/-- `assemble_single_data_transfer`. -/
def assemble (instruction : Instruction) (currentAddress endAddress : ℤ) (pool : Pool) :
    Option (Encoding × Pool) := do
  let Rd ← getRegister (← instruction.operandFields[0]?)
  let address := getAddress instruction.operandFields
  if isLdrInstruction instruction.mnemonic && address.head? = some '=' then
    let argument := parseArgument address
    if argument ≤ 0xff then
      (DataProcessing.assemble (asMov instruction)).map fun word => (word, pool)
    else
      (writeToAppendedMemory pool argument).map fun pool =>
        (Encoding.ofWord (encodeLiteralLoad Rd (endAddress - currentAddress - 4)), pool)
  else (encode instruction Rd address).map fun word => (Encoding.ofWord word, pool)

end SingleDataTransfer

end DocMachine.Arm.Assembler
