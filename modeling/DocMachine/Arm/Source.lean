import DocMachine.Arm.Flags
import DocMachine.Arm.Immediate
import DocMachine.Arm.Labels
import DocMachine.Arm.Emulator.Pipeline

/-!
# Assembly programs and what they mean

A meaning for the source text of a program that has no words, no addresses of instructions and no
pipeline. It is stated here, not translated: the assembler and the emulator of `arm11_48/src` are
compared with it.

* A `Statement` is a line that is no label, cut into its parts, and `SourceLine.Reads` says that a
  text is a layout of it. A `SourceProgram` is a list of such lines that the line buffer holds.
* `SourceProgram.step` executes the statement that is next with the operands that its line names,
  and goes on at the next statement or at the one after a label (`target`). The arithmetic and the
  flags are those of the emulator; the program counter reads as the place of the statement plus 8.
* `halt` is the instruction `andeq r0,r0,r0`. It stays where it is.
* `Statement.Fits` says which statements the two tools get right: the operands, constants, offsets
  and branches that the results on single lines leave over. A branch has to go to the first label of
  the program, and its label must not be the name of a shift, which the first pass would take for
  one.
-/

namespace DocMachine.Arm.Assembler

open DocMachine.Lib
open Emulator (Machine Registers Condition pc cpsr reg)

/-! ## Statements -/

/-- The condition of a branch, `none` for `b`. -/
def branchMnemonic : Option Condition → Mnemonic
  | none => .b
  | some .eq => .beq
  | some .ne => .bne
  | some .ge => .bge
  | some .lt => .blt
  | some .gt => .bgt
  | some .le => .ble

/-- What a line that is not a label says. The amount of a `lsl` is a constant or a register. -/
inductive Statement where
  | register (source : RegisterInstruction)
  | immediate (line : ImmediateLine) (constant : CString)
  | lsl (Rd : Nibble) (amount : Bool × BitVec 5 ⊕ Nibble)
  | transfer (t : TransferInstruction)
  | branch (condition : Option Condition) (label : CString)
  | halt

/-- The `mov` that `lsl` stands for. -/
def lslOperand (Rd : Nibble) : Bool × BitVec 5 ⊕ Nibble → Operand2
  | .inl (hexadecimal, amount) => .byConstant Rd .lsl hexadecimal amount
  | .inr Rs => .byRegister Rd .lsl Rs

/-- The amount of a `lsl` as the line has it. -/
def amountText : Bool × BitVec 5 ⊕ Nibble → CString
  | .inl (hexadecimal, amount) => constantText hexadecimal amount.toNat
  | .inr Rs => registerName Rs

namespace Statement

/-- The line of the statement, cut into tokens. -/
def tokens : Statement → List CString
  | register source => source.tokens
  | immediate line constant =>
    (line.instruction constant).mnemonic :: (line.instruction constant).operandFields
  | lsl Rd amount => [Mnemonic.lsl.text, registerName Rd, amountText amount]
  | transfer t => t.tokens
  | branch condition label => [(branchMnemonic condition).text, label]
  | halt => Mnemonic.andeq.text :: List.replicate 3 (registerName 0)

end Statement

/-! ## What a statement does -/

/-- A data processing instruction with a constant, whose top bit is the carry. -/
def ImmediateLine.run (line : ImmediateLine) (value : Word) (registers : Registers) : Registers :=
  let process (m : Mnemonic) (Rn Rd : Nibble) := Emulator.DataProcessing.compute m.opCode
    (reg Rn) (reg Rd) value (Emulator.carryByte value.msb) registers
  match line with
  | mov Rd => (process .mov 0 Rd).1
  | compute m Rd Rn => (process m.1 Rn Rd).1
  | compare m Rn =>
    let (registers, result, carry) := process m.1 Rn 0
    registers.set cpsr (Emulator.DataProcessing.setCPSR result (registers cpsr) carry)

/-- The instruction with the operands that the line names. -/
def RegisterInstruction.run (source : RegisterInstruction) (m : Machine) : Option Machine :=
  let process (o : Emulator.DataProcessing.Operands) : Option Machine :=
    (o.execute m.registers).map fun registers => { m with registers := registers }
  let multiply (f : Emulator.Multiply.Factors) : Option Machine :=
    some { m with registers := f.execute m.registers }
  match source with
  | mov Rd operand2 => process (operands .mov false Rd 0 operand2)
  | compare op Rn operand2 => process (operands op.1 true 0 Rn operand2)
  | compute op Rd Rn operand2 => process (operands op.1 false Rd Rn operand2)
  | mul Rd Rm Rs => multiply ⟨Rd, Rm, Rs, none, false⟩
  | mla Rd Rm Rs Rn => multiply ⟨Rd, Rm, Rs, some Rn, false⟩

/-- The value of a constant. -/
def constantValue (constant : CString) : Word := BitVec.ofInt 32 (CString.strtol 0 constant)

/-- What a statement does to the machine. A branch and `halt` do nothing to it. -/
def Statement.run (m : Machine) : Statement → Option Machine
  | register source => source.run m
  | immediate line constant =>
    some { m with registers := line.run (constantValue constant) m.registers }
  | lsl Rd amount => (RegisterInstruction.mov Rd (lslOperand Rd amount)).run m
  | transfer t => t.run m
  | branch _ _ | halt => some m

/-- The condition holds for the flags. -/
def taken (condition : Option Condition) (CPSR : Word) : Bool :=
  condition.all fun c => c.reads (CPSR.getLsbD 31) (CPSR.getLsbD 30) (CPSR.getLsbD 28)

/-! ## Programs -/

/-- A line of the source file: a label, or a text with the statement that it is a layout of. -/
inductive SourceLine where
  | label (name : CString)
  | statement (text : CString) (statement : Statement)

namespace SourceLine

/-- The line as the first pass sees it. -/
def line : SourceLine → Line
  | label name => .label name
  | statement text _ => .instruction text

/-- The label of a line. -/
def name? : SourceLine → Option CString
  | label name => some name
  | statement _ _ => none

/-- The statement of a line. -/
def statement? : SourceLine → Option Statement
  | label _ => none
  | statement _ s => some s

/-- The text is the statement in any layout. -/
def Reads : SourceLine → Prop
  | label _ => True
  | statement text s => CString.strtok [' ', ',', '\n'] (text ++ ['\n']) = s.tokens

instance : DecidablePred Reads := fun line => by
  unfold Reads
  cases line <;> infer_instance

end SourceLine

/-- The statement after a label, counted from the first one. -/
def target (label : CString) : List SourceLine → Option ℕ
  | [] => none
  | .label name :: lines => if name = label then some 0 else target label lines
  | .statement _ _ :: lines => (target label lines).map (· + 1)

/-- Lines that fit the line buffer, each a layout of its statement. -/
structure SourceProgram where
  lines : List SourceLine
  wellFormed : ∀ line ∈ lines, line.line.WellFormed
  reads : ∀ line ∈ lines, line.Reads

namespace SourceProgram

/-- The statements in order. -/
def statements (program : SourceProgram) : List Statement :=
  program.lines.filterMap SourceLine.statement?

/-- The labels in order. -/
def labels (program : SourceProgram) : List CString := program.lines.filterMap SourceLine.name?

/-- The source file. -/
def program (program : SourceProgram) : Program where
  lines := program.lines.map SourceLine.line
  wellFormed := by
    intro line hline
    obtain ⟨source, hsource, rfl⟩ := List.mem_map.mp hline
    exact program.wellFormed source hsource

/-- The characters of the source file. -/
def text (program : SourceProgram) : List Char := program.program.text

end SourceProgram

/-- The next statement and the machine. The program counter of the machine says nothing. -/
structure SourceState where
  next : ℕ
  machine : Machine

/-- The machine as a statement sees it. -/
def SourceState.reading (s : SourceState) : Machine :=
  s.machine.goTo (BitVec.ofNat 32 (4 * s.next + 8))

/-- **One statement.** There is no step past the last one. -/
def SourceProgram.step (program : SourceProgram) (s : SourceState) : Option SourceState :=
  match program.statements[s.next]? with
  | none => none
  | some .halt => some s
  | some (.branch condition label) =>
    if taken condition (s.machine.registers cpsr) then
      (target label program.lines).map fun i => ⟨i, s.machine⟩
    else some ⟨s.next + 1, s.machine⟩
  | some statement => (statement.run s.reading).map fun m => ⟨s.next + 1, m⟩

/-! ## What the tools get right -/

/-- The register that is written, if any. -/
def RegisterInstruction.destination : RegisterInstruction → Option Nibble
  | mov Rd _ | compute _ Rd _ _ | mul Rd _ _ | mla Rd _ _ _ => some Rd
  | compare _ _ _ => none

/-- The register that is written, if any. -/
def ImmediateLine.destination : ImmediateLine → Option Nibble
  | mov Rd | compute _ Rd _ => some Rd
  | compare _ _ => none

/-- A statement that is assembled as it should be, and leaves the program counter to branches.
Only the first label has the address of what follows it, and no label can be named as a shift. -/
def Statement.Fits (labels : List CString) : Statement → Prop
  | register source => source.Fits ∧ source.destination ≠ some 15
  | immediate line constant => line.destination ≠ some 15 ∧ ∃ (immediate : Byte) (r : Nibble),
      r.toNat ≤ 12 ∧ (immediate.setWidth 32).rotateRight (2 * r.toNat) = constantValue constant
  | lsl Rd _ => Rd ≠ 15
  | transfer t => t.Fits ∧ (t.load = true → t.Rd ≠ 15) ∧ (t.preIndexed = false → t.Rn ≠ 15)
  | branch _ label => labels.head? = some label ∧ DataProcessing.getShift label = 0
  | halt => True

/-- Every statement fits, and the program fits the arrays of the assembler. -/
structure SourceProgram.Fits (program : SourceProgram) : Prop where
  statements : ∀ s ∈ program.statements, s.Fits program.labels
  room : program.statements.length ≤ maxNumInstructions

end DocMachine.Arm.Assembler
