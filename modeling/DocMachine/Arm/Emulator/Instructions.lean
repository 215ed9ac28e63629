import DocMachine.Arm.Word

/-!
# Register instructions of the emulator

Model of what reads and writes registers only: `emulator/common_functions/common.c`
(`get_First_Nibble` 7-9, `get_Second_Nibble` 11-13, `shifter` 15-35), `emulator/cond/cond.c`
(18-56), `emulator/data_processing/data_processing.c` (`get_Operand2` 42-76, `set_CPSR` 78-93,
`execute_data_processing` 96-168), `emulator/multiply/multiply.c` (`set_CPSR` 33-40,
`execute_multiply` 42-60) and `emulator/branch/branch.c` (12-39).

* The register file has 17 entries; `pc` is entry 15 and `cpsr` entry 16. An instruction names a
  register by a nibble, so that no instruction can index past the file.
* A `word_t *carry` argument is an argument and a second result.
* A shift by 32 or more is undefined in C and has no result.
* The bits of the word are taken out of its four bytes with the masks of the source, function by
  function. The results on what they mean are in `Shifter.lean`, `Flags.lean`, `Operands.lean` and
  `Offset.lean`.
-/

namespace DocMachine.Arm.Emulator

/-- `word_t registers[17]`. -/
abbrev Registers := Fin 17 → Word

/-- `#define PC 15`. -/
def pc : Fin 17 := 15

/-- `#define CPSR 16`. -/
def cpsr : Fin 17 := 16

/-- The entry of the register file that a nibble names. -/
def reg (n : Nibble) : Fin 17 := ⟨n.toNat, by omega⟩

/-- An assignment to `registers[i]`. -/
def Registers.set (registers : Registers) (i : Fin 17) (word : Word) : Registers :=
  Function.update registers i word

@[simp] theorem Registers.set_self (registers : Registers) (i : Fin 17) (word : Word) :
    registers.set i word i = word := Function.update_self ..

@[simp] theorem Registers.set_of_ne {registers : Registers} {i j : Fin 17} (h : j ≠ i)
    (word : Word) : registers.set i word j = registers j := Function.update_of_ne h ..

@[simp] theorem Registers.set_set (registers : Registers) (i : Fin 17) (v w : Word) :
    (registers.set i v).set i w = registers.set i w := Function.update_idem ..

/-! ## common.c -/

/-- `get_First_Nibble`. -/
def getFirstNibble (byte : Byte) : Nibble := (byte >>> 4).setWidth 4

/-- `get_Second_Nibble`. -/
def getSecondNibble (byte : Byte) : Nibble := (byte &&& 0xf).setWidth 4

/-- `shifter`. An amount of 32 or more shifts a word by its width. The arithmetic shift divides an
unsigned word. -/
def shifter (shiftType shiftAmount : Byte) (word : Word) (carry : Byte) : Option (Word × Byte) :=
  let amount := shiftAmount.toNat
  let carryRight : Byte := ((word >>> (amount - 1)) &&& 1).setWidth 8
  if amount = 0 then some (word, carry)
  else if 32 ≤ amount then none
  else match shiftType.toNat with
    | 0 => some (word <<< amount, (((word <<< (amount - 1)) >>> 31) &&& 1).setWidth 8)
    | 1 => some (word >>> amount, carryRight)
    | 2 => some (word / (1#32 <<< amount), carryRight)
    | 3 => some ((word >>> amount) ||| (word <<< (32 - amount)), carryRight)
    | _ => some (-1, carry)

/-! ## cond.c -/

/-- `getCond`: the first four bits. -/
def getCond (c : Byte) : Byte := c >>> 4

/-- `get_NZCV`. -/
def getNZCV (CPSR : Word) : Byte := (CPSR >>> 28).setWidth 8

/-- `z_set`. -/
def zSet (NZCV : Byte) : Bool := NZCV &&& (1#8 <<< 2) ≠ 0

/-- `n_equal_v`. -/
def nEqualV (NZCV : Byte) : Bool := NZCV &&& 1 = (NZCV >>> 3) &&& 1

/-- `checkCond`. A condition that is not listed fails. -/
def checkCond (byte : Byte) (CPSR : Word) : Bool :=
  let NZCV := getNZCV CPSR
  match (getCond byte).toNat with
  | 14 => true
  | 0 => zSet NZCV
  | 1 => !zSet NZCV
  | 10 => nEqualV NZCV
  | 11 => !nEqualV NZCV
  | 12 => !zSet NZCV && nEqualV NZCV
  | 13 => zSet NZCV || !nEqualV NZCV
  | _ => false

/-! ## data_processing.c -/

namespace DataProcessing

/-- `get_immediate_operand`. -/
def getImmediateOperand (firstByte : Byte) : Byte := (firstByte &&& 2) >>> 1

/-- `get_OpCode`. -/
def getOpCode (firstByte secondByte : Byte) : Byte :=
  ((firstByte &&& 1) <<< 3) ||| (secondByte >>> 5)

/-- `get_Rn`. -/
def getRn (secondByte : Byte) : Nibble := getSecondNibble secondByte

/-- `get_Rd`. -/
def getRd (thirdByte : Byte) : Nibble := getFirstNibble thirdByte

/-- `get_S`. -/
def getS (secondByte : Byte) : Bool := getFirstNibble secondByte &&& 1 ≠ 0

/-- The shift of a register operand: bits 11 to 4 of the instruction. -/
def getShift (thirdByte fourthByte : Byte) : Byte :=
  ((thirdByte &&& 0xf) <<< 4) ||| (fourthByte >>> 4)

/-- `Rm` with its shift, by a constant or by the low byte of a register. -/
def getShiftedRegister (thirdByte fourthByte : Byte) (registers : Registers) (carry : Byte) :
    Option (Word × Byte) :=
  let wordToShift := registers (reg (getSecondNibble fourthByte))
  let shift := getShift thirdByte fourthByte
  let shiftType := (shift &&& 6) >>> 1
  if shift &&& 1 = 0 then
    shifter shiftType (shift >>> 3) wordToShift carry
  else
    shifter shiftType ((registers (reg (getSecondNibble thirdByte))).setWidth 8) wordToShift carry

/-- An 8-bit immediate rotated by twice the low nibble of the third byte. -/
def getRotatedImmediate (thirdByte fourthByte : Byte) (carry : Byte) : Option (Word × Byte) :=
  shifter 3 ((thirdByte &&& 0xf) <<< 1) (fourthByte.setWidth 32) carry

/-- `get_Operand2`, with the carry the shifter leaves. -/
def getOperand2 (thirdByte fourthByte immediateOperand : Byte) (registers : Registers)
    (carry : Byte) : Option (Word × Byte) :=
  if immediateOperand ≠ 0 then getRotatedImmediate thirdByte fourthByte carry
  else getShiftedRegister thirdByte fourthByte registers carry

/-- `set_CPSR`. The N flag is bit 30 of the result. -/
def setCPSR (result CPSR : Word) (carry : Byte) : Word :=
  let CPSR := (CPSR &&& 0x7fffffff#32) ||| (((result >>> 30) &&& 1) <<< 31)
  let CPSR := if result = 0 then CPSR ||| 0x40000000#32 else CPSR &&& 0xbfffffff#32
  (CPSR &&& 0xdfffffff#32) ||| (carry.setWidth 32 <<< 29)

/-- The `switch` of `execute_data_processing`: the registers, the result and the carry. The carry
of a subtraction is computed after `Rd` was written. -/
def compute (opCode : Byte) (Rn Rd : Fin 17) (operand2 : Word) (carry : Byte)
    (registers : Registers) : Registers × Word × Byte :=
  let write (word : Word) (carry : Registers → Byte) : Registers × Word × Byte :=
    let registers := registers.set Rd word
    (registers, registers Rd, carry registers)
  let borrow (registers : Registers) : Byte := if registers Rn < operand2 then 0 else 1
  match opCode.toNat with
  | 0 => write (registers Rn &&& operand2) fun _ => carry
  | 1 => write (registers Rn ^^^ operand2) fun _ => carry
  | 2 => write (registers Rn - operand2) borrow
  | 3 => write (operand2 - registers Rn) borrow
  | 4 => write (registers Rn + operand2) fun registers =>
      if (registers Rn + operand2) >>> 31 ≠ 0 then 1 else 0
  | 8 => (registers, registers Rn &&& operand2, carry)
  | 9 => (registers, registers Rn ^^^ operand2, carry)
  | 10 => (registers, registers Rn - operand2, borrow registers)
  | 12 => write (registers Rn ||| operand2) fun _ => carry
  | 13 => write operand2 fun _ => carry
  | _ => (registers, 0, carry)

/-- `execute_data_processing`. -/
def execute (word : Encoding) (registers : Registers) : Option Registers :=
  (getOperand2 word.third word.fourth (getImmediateOperand word.first) registers 0).map
    fun (operand2, carry) =>
      let (registers, result, carry) := compute (getOpCode word.first word.second)
        (reg (getRn word.second)) (reg (getRd word.third)) operand2 carry registers
      if getS word.second then registers.set cpsr (setCPSR result (registers cpsr) carry)
      else registers

end DataProcessing

/-! ## multiply.c -/

namespace Multiply

/-- `get_Rn_multiply`. -/
def getRn (thirdByte : Byte) : Nibble := getFirstNibble thirdByte

/-- `get_Rd_multiply`. -/
def getRd (secondByte : Byte) : Nibble := getSecondNibble secondByte

/-- `get_Rs`. -/
def getRs (thirdByte : Byte) : Nibble := getSecondNibble thirdByte

/-- `get_Rm`. -/
def getRm (fourthByte : Byte) : Nibble := getSecondNibble fourthByte

/-- `get_A`. -/
def getA (secondByte : Byte) : Bool := getFirstNibble secondByte >>> 1 ≠ 0

/-- `get_S`. -/
def getS (secondByte : Byte) : Bool := getFirstNibble secondByte &&& 1 ≠ 0

/-- `set_CPSR` of the multiply module: the Z flag is never cleared. -/
def setCPSR (result CPSR : Word) : Word :=
  let CPSR := (CPSR &&& 0x7fffffff#32) ||| ((result >>> 31) <<< 31)
  if result = 0 then CPSR ||| 0x40000000#32 else CPSR

/-- `execute_multiply`. -/
def execute (word : Encoding) (registers : Registers) : Registers :=
  let Rd := reg (getRd word.second)
  let product := registers (reg (getRm word.fourth)) * registers (reg (getRs word.third))
  let registers := registers.set Rd <|
    if getA word.second then product + registers (reg (getRn word.third)) else product
  if getS word.second then registers.set cpsr (setCPSR (registers Rd) (registers cpsr))
  else registers

end Multiply

/-! ## branch.c -/

namespace Branch

/-- `get_offset`: the last three bytes. -/
def getOffset (word : Encoding) : Word :=
  ((word.second.setWidth 32 <<< 16) ||| (word.third.setWidth 32 <<< 8)) |||
    word.fourth.setWidth 32

/-- `get_sign_extended_offset`. -/
def getSignExtendedOffset (offset : Word) : Word :=
  if offset >>> 25 = 1 then 0xfc000000#32 ||| offset else offset

/-- `execute_branch`. -/
def execute (word : Encoding) (registers : Registers) : Registers :=
  registers.set pc (registers pc + getSignExtendedOffset (getOffset word <<< 2))

end Branch

end DocMachine.Arm.Emulator
