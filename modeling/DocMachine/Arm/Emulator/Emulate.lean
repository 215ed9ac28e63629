import DocMachine.Arm.Emulator.Transfer

/-!
# The main loop of the emulator

Model of `emulate.c` (`parse_file` 15-33, `decode` 35-54, `execute` 56-73, `reverse_instruction`
75-79, `main` 81-157).

* The loop keeps a decoded instruction, copied out of the memory, and a pointer to the fetched one,
  which is copied when it is decoded: a `Pipeline` is the machine with these two.
* `isBranch` is a local variable of the loop body that is assigned only when the condition of the
  instruction holds (122-129). What an iteration reads when it was not assigned is an argument of
  `iterate`, and `emulate` takes one such value for every iteration.
* The loop ends when the decoded word is zero; from then on `loop` keeps the state. So a run of any
  number of turns is defined for a program that has ended too.
* Nothing is said of the output (158-181).
-/

namespace DocMachine.Arm.Emulator

/-- `enum instruction`. -/
inductive Instruction where
  | dataProcessing
  | multiply
  | singleDataTransfer
  | branch
deriving DecidableEq

/-- `decode`. -/
def decode (word : Encoding) : Instruction :=
  match ((word.first >>> 2) &&& 3).toNat with
  | 1 => .singleDataTransfer
  | 2 => .branch
  | _ =>
    if word.first &&& 3 = 0 ∧ word.second >>> 6 = 0 ∧ word.fourth >>> 4 = 9 then .multiply
    else .dataProcessing

/-- `execute`. -/
def execute (word : Encoding) (m : Machine) : Option Machine :=
  match decode word with
  | .dataProcessing => (DataProcessing.execute word m.registers).map fun registers =>
      { m with registers := registers }
  | .multiply => some { m with registers := Multiply.execute word m.registers }
  | .singleDataTransfer => SingleDataTransfer.execute word m
  | .branch => some { m with registers := Branch.execute word m.registers }

/-- `parse_file`: the file at the start of the array, the rest as it was. -/
def parseFile (file : List Byte) (fileArray : Memory) : Option Memory :=
  if file.length ≤ memorySize then some fun i => file.getD i (fileArray i) else none

/-- The loop test of `main`. -/
def isZero (word : Encoding) : Bool :=
  word.first = 0 && word.second = 0 && word.third = 0 && word.fourth = 0

/-- The variables of the main loop. -/
structure Pipeline where
  machine : Machine
  decoded : Encoding
  fetched : Word

/-- `reverse_instruction`, reading the instruction in memory that a fetched pointer points to. -/
def reverseInstruction (m : Machine) (fetched : Word) : Option Encoding :=
  readEncoding m.memory fetched.toNat

/-- `registers[PC] += 4`. -/
def Machine.advance (m : Machine) : Machine := m.setRegister pc (m.registers pc + 4)

namespace Pipeline

/-- Fetch at the program counter, decode, and fetch the next instruction: what `main` does before
the loop and after a branch. -/
def fill (m : Machine) : Option Pipeline :=
  (reverseInstruction m (m.registers pc)).map fun decoded =>
    { machine := m.advance.advance, decoded := decoded, fetched := m.advance.registers pc }

/-- Decode the fetched instruction and fetch the next one. -/
def shift (m : Machine) (fetched : Word) : Option Pipeline :=
  (reverseInstruction m fetched).map fun decoded =>
    { machine := m.advance, decoded := decoded, fetched := m.registers pc }

/-- The body of the loop. `slot` is the value of `isBranch` if it is not assigned. -/
def iterate (slot : Bool) (p : Pipeline) : Option Pipeline :=
  if checkCond p.decoded.first (p.machine.registers cpsr) then
    (execute p.decoded p.machine).bind fun m =>
      if decode p.decoded = .branch then fill m else shift m p.fetched
  else if slot then fill p.machine
  else shift p.machine p.fetched

/-- One turn of `while`. -/
def loop (slot : Bool) (p : Pipeline) : Option Pipeline :=
  if isZero p.decoded then some p else p.iterate slot

end Pipeline

/-- What `main` does before the loop. `memory` and `gpio` are what `malloc` returned. -/
def start (file : List Byte) (memory : Memory) (gpio : GpioMemory) : Option Pipeline := do
  let memory ← parseFile file memory
  let gpio ← Gpio.initialisePins gpio
  Pipeline.fill { registers := fun _ => 0, memory := memory, gpio := gpio }

end DocMachine.Arm.Emulator
