import Mathlib.Data.Int.Notation
import DocMachine.Arm.Emulator.Instructions

/-!
# Memory and GPIO

Model of `emulator/gpio/gpio.c` (`is_GPIO_address` 11-13, `from_binary_to_pin_function` 37-47,
`write_to_GPIO_memory_at` 50-59, `initialise_GPIO_pins` 70-83, `get_pin_function` 86-121,
`set_pin_function` 123-128, `get_pin_number` 130-137, `clear_pin` 139-146, `set_pin` 148-155) and
`emulator/single_data_transfer/single_data_transfer.c` (75-266).

* The state of the machine is the register file, the memory array of 65536 bytes and the 44 bytes
  that stand for the GPIO region. Messages on the standard output are left out.
* `load` refuses an address above 65536 and leaves the machine as it is; `store` refuses none. An
  index outside the array has no result.
* A GPIO address is loaded as itself. A store to one adds its bits to the function-select word; a
  store to the clearing or setting word asserts that the pin is an output.
* `get_pin_number` shifts a word until it is zero, which takes 32 turns at most: that is its fuel.
* Pre-indexed and post-indexed transfers differ in when the offset is applied (`executePreIndexing`,
  `executePostIndexing`).
-/

namespace DocMachine.Arm.Emulator

/-- `memorySize`: the bytes of the memory. -/
def memorySize : ℕ := 65536

/-- `GPIO_memory_size`. -/
def gpioMemorySize : ℕ := 44

/-- The array `memory`. -/
abbrev Memory := Fin memorySize → Byte

/-- The array `GPIO_memory`. -/
abbrev GpioMemory := Fin gpioMemorySize → Byte

/-- What the instructions act on. -/
structure Machine where
  registers : Registers
  memory : Memory
  gpio : GpioMemory

namespace Machine

/-- A store to a register. -/
def setRegister (m : Machine) (i : Fin 17) (word : Word) : Machine :=
  { m with registers := m.registers.set i word }

@[simp] theorem setRegister_registers (m : Machine) (i : Fin 17) (word : Word) :
    (m.setRegister i word).registers = m.registers.set i word := rfl

@[simp] theorem setRegister_memory (m : Machine) (i : Fin 17) (word : Word) :
    (m.setRegister i word).memory = m.memory := rfl

@[simp] theorem setRegister_gpio (m : Machine) (i : Fin 17) (word : Word) :
    (m.setRegister i word).gpio = m.gpio := rfl

end Machine

/-! ## gpio.c -/

namespace Gpio

/-- `GPIO_00_09`: the function-select word of the first ten pins. -/
def address00_09 : Word := 0x20200000

/-- `GPIO_10_19`. -/
def address10_19 : Word := 0x20200004

/-- `GPIO_20_29`. -/
def address20_29 : Word := 0x20200008

/-- `GPIO_clearing`. -/
def clearing : Word := 0x20200028

/-- `GPIO_setting`. -/
def setting : Word := 0x2020001c

/-- `GPIO_clearing_shifted` and `GPIO_setting_shifted`. -/
def clearingShifted : ℕ := 0x28

/-- `GPIO_setting_shifted`. -/
def settingShifted : ℕ := 0x1c

/-- `is_GPIO_address`. -/
def isAddress (Rn : Word) : Bool := Rn = address00_09 || Rn = address10_19 || Rn = address20_29

/-- `initialise_GPIO_pins`: each function-select word holds its own address. -/
def initialisePins (gpio : GpioMemory) : Option GpioMemory := do
  let gpio ← writeWord gpio 0x0 address00_09
  let gpio ← writeWord gpio 0x4 address10_19
  writeWord gpio 0x8 address20_29

/-- The two functions that `from_binary_to_pin_function` knows. -/
inductive PinFunction where
  | input
  | output
deriving DecidableEq

/-- `from_binary_to_pin_function`; `none` is the `-1` of the other codes. -/
def fromBinaryToPinFunction (code : Byte) : Option PinFunction :=
  match code.toNat with
  | 0 => some .input
  | 1 => some .output
  | _ => none

/-- The word that holds the three bits of a pin. There is none outside pins 0 to 29, where the
source reads an address it has not set. -/
def pinAddress (pinNumber : ℤ) : Option ℕ :=
  if 0 ≤ pinNumber ∧ pinNumber ≤ 9 then some 0x0
  else if 10 ≤ pinNumber ∧ pinNumber ≤ 19 then some 0x4
  else if 20 ≤ pinNumber ∧ pinNumber ≤ 29 then some 0x8
  else none

/-- `get_pin_function`. -/
def getPinFunction (pinNumber : ℤ) (gpio : GpioMemory) : Option (Option PinFunction) := do
  let pinOffset := 3 * (pinNumber % 10).toNat
  let mask := 7#32 <<< pinOffset
  let pinRange ← readWord gpio (← pinAddress pinNumber)
  some (fromBinaryToPinFunction (((pinRange &&& mask) >>> pinOffset).setWidth 8))

/-- `set_pin_function`: the new value is added to the old one. -/
def setPinFunction (location value : Word) (gpio : GpioMemory) : Option GpioMemory := do
  let location := (location - 0x20200000).toNat
  let pastValue ← readWord gpio location
  writeWord gpio location (pastValue ||| value)

/-- The loop of `get_pin_number`. A word is zero after 32 shifts. -/
def countShifts : ℕ → Word → ℤ → ℤ
  | 0, _, counter => counter
  | fuel + 1, shiftedPin, counter =>
    if shiftedPin = 0 then counter else countShifts fuel (shiftedPin >>> 1) (counter + 1)

/-- `get_pin_number`. -/
def getPinNumber (shiftedPin : Word) : ℤ := countShifts 32 shiftedPin (-1)

/-- `clear_pin` and `set_pin`: the assertion, then the store to the clearing or setting word. -/
def drivePin (address : ℕ) (shiftedPin : Word) (gpio : GpioMemory) : Option GpioMemory := do
  let function ← getPinFunction (getPinNumber shiftedPin) gpio
  if function = some .output then writeWord gpio address shiftedPin else none

/-- `clear_pin`. -/
def clearPin (shiftedPin : Word) (gpio : GpioMemory) : Option GpioMemory :=
  drivePin clearingShifted shiftedPin gpio

/-- `set_pin`. -/
def setPin (shiftedPin : Word) (gpio : GpioMemory) : Option GpioMemory :=
  drivePin settingShifted shiftedPin gpio

end Gpio

/-! ## single_data_transfer.c -/

namespace SingleDataTransfer

/-- `immediate_operand`. -/
def immediateOperand (firstByte : Byte) : Byte := (firstByte &&& 2) >>> 1

/-- `get_pre_post_indexing_bit`. -/
def getPrePostIndexingBit (firstByte : Byte) : Byte := firstByte &&& 1

/-- `get_up_bit`. -/
def getUpBit (secondByte : Byte) : Byte := secondByte &&& 0x80

/-- `get_load_store_bit`. -/
def getLoadStoreBit (secondByte : Byte) : Byte := secondByte &&& 0x10

/-- `get_Rn`. -/
def getRn (secondByte : Byte) : Nibble := getSecondNibble secondByte

/-- `get_Rd`. -/
def getRd (thirdByte : Byte) : Nibble := getFirstNibble thirdByte

/-- `get_offset`: an immediate offset is rotated as an operand 2 of a data processing instruction
is. -/
def getOffset (thirdByte fourthByte immediateOffset : Byte) (registers : Registers) : Option Word :=
  (if immediateOffset = 0 then DataProcessing.getRotatedImmediate thirdByte fourthByte 0
    else DataProcessing.getShiftedRegister thirdByte fourthByte registers 0).map Prod.fst

/-- `apply_offset`. -/
def applyOffset (Rn : Fin 17) (word : Encoding) (registers : Registers) : Option Word :=
  (getOffset word.third word.fourth (immediateOperand word.first) registers).map fun offset =>
    if getUpBit word.second ≠ 0 then registers Rn + offset else registers Rn - offset

/-- `load`. Address 65536 passes the check. -/
def load (Rn : Word) (Rd : Fin 17) (m : Machine) : Option Machine :=
  if Gpio.isAddress Rn then some (m.setRegister Rd Rn)
  else if 65536 < Rn then some m
  else (readWord m.memory Rn.toNat).map (m.setRegister Rd)

/-- `store`. Nothing checks that the address is inside the memory. -/
def store (Rn : Word) (Rd : Fin 17) (m : Machine) : Option Machine :=
  if Gpio.isAddress Rn then
    (Gpio.setPinFunction Rn (m.registers Rd) m.gpio).map fun gpio => { m with gpio := gpio }
  else if Rn = Gpio.clearing then
    (Gpio.clearPin (m.registers Rd) m.gpio).map fun gpio => { m with gpio := gpio }
  else if Rn = Gpio.setting then
    (Gpio.setPin (m.registers Rd) m.gpio).map fun gpio => { m with gpio := gpio }
  else
    (writeWord m.memory Rn.toNat (m.registers Rd)).map fun memory => { m with memory := memory }

/-- The transfer of `execute_pre_indexing` and `execute_post_indexing`. -/
def transfer (Rn : Word) (word : Encoding) (m : Machine) : Option Machine :=
  if getLoadStoreBit word.second ≠ 0 then load Rn (reg (getRd word.third)) m
  else store Rn (reg (getRd word.third)) m

/-- `execute_pre_indexing`: the base register keeps its value. -/
def executePreIndexing (word : Encoding) (m : Machine) : Option Machine := do
  let Rn ← applyOffset (reg (getRn word.second)) word m.registers
  transfer Rn word m

/-- `execute_post_indexing`: the offset is applied to the base register as the transfer left it. -/
def executePostIndexing (word : Encoding) (m : Machine) : Option Machine := do
  let m ← transfer (m.registers (reg (getRn word.second))) word m
  let Rn ← applyOffset (reg (getRn word.second)) word m.registers
  some (m.setRegister (reg (getRn word.second)) Rn)

/-- `execute_single_data_transfer`. -/
def execute (word : Encoding) (m : Machine) : Option Machine :=
  if getPrePostIndexingBit word.first ≠ 0 then executePreIndexing word m
  else executePostIndexing word m

end SingleDataTransfer

end DocMachine.Arm.Emulator
