import DocMachine.Arm.Assembler.Transfer

/-!
# The two passes of the assembler

Model of `assemble.c` (`parse_first` 14-72, `get_end_address` 96-98, `main` 100-202).

* The first pass reads the file line by line. A line with a colon adds its label to the symbol
  table, any other line is an instruction, and the address grows by 4 with every line, whichever it
  is (`parseLine`).
* `FirstPass` holds the variables of `parse_first`, and with them the `Heap`: what stands in memory
  behind the labels that the table has copied.
* The second pass assembles the instructions one after the other, its own address growing by 4 with
  every instruction (`assembleLine`), and then copies the appended memory to the file, word by word,
  until it meets a word whose first byte is zero (`copyAppended`).
* `num_appended` is not initialised by `main`; its first value is an argument.
* `none` stands for a run that does not get to its end: a line of more than four fields, more than
  `MAX_NUM_INSTRUCTIONS` instructions, or an instruction that has no word.

Results:
* `secondPass_induction`: an invariant of the second pass, from one turn of its loop.
* `secondPass_address`: every instruction is one word, and the address of the loop is the place in
  the file.
-/

namespace DocMachine.Arm.Assembler

open DocMachine.Lib

/-! ## The first pass -/

/-- `MAX_LINE_LENGTH`. -/
def maxLineLength : ℕ := 512

/-- The variables of `parse_first`, and the memory behind the labels that it copies. -/
structure FirstPass where
  heap : Heap
  table : SymbolTable
  instructions : List Instruction
  address : ℤ

/-- The operand fields: a shift is one field with its amount. -/
def operandFields : List CString → Option (List CString)
  | [] => some []
  | [token] => if DataProcessing.getShift token ≠ 0 then none else some [token]
  | token :: amount :: tokens =>
    if DataProcessing.getShift token ≠ 0 then
      (operandFields tokens).map ((token ++ ' ' :: amount) :: ·)
    else (operandFields (amount :: tokens)).map (token :: ·)

/-- A line without a colon. There is room for four operand fields. -/
def parseInstruction (line : CString) : Option Instruction :=
  match CString.strtok [' ', ',', '\n'] line with
  | [] => none
  | mnemonic :: tokens =>
    (operandFields tokens).bind fun fields =>
      if fields.length ≤ 4 then some ⟨mnemonic, fields⟩ else none

/-- One turn of the loop. There is room for `MAX_NUM_INSTRUCTIONS` instructions. -/
def parseLine (pass : FirstPass) (line : CString) : Option FirstPass :=
  if line.contains ':' then
    (CString.strtok [':'] line)[0]?.map fun label =>
      { pass with
        table := (SymbolTable.addEntry (pass.heap pass.table.copies) pass.table label
          pass.address).2
        address := pass.address + 4 }
  else
    (parseInstruction line).bind fun instruction =>
      if pass.instructions.length < maxNumInstructions then
        some { pass with
          instructions := pass.instructions ++ [instruction]
          address := pass.address + 4 }
      else none

/-- The variables before the loop. -/
def FirstPass.start (heap : Heap) : FirstPass := ⟨heap, SymbolTable.init, [], 0⟩

/-- `parse_first`. -/
def parseFirst (heap : Heap) (file : List Char) : Option FirstPass :=
  (CString.fgets maxLineLength [] file).foldlM parseLine (FirstPass.start heap)

/-! ## The second pass -/

/-- `get_end_address`. -/
def getEndAddress (numInstructions numAppended : ℤ) : ℤ := 4 * (numInstructions + numAppended - 1)

/-- The `mov` that `lsl Rd, x` stands for. -/
def lslAsMov (instruction : Instruction) : Option Instruction := do
  let Rd ← instruction.operandFields[0]?
  let amount ← instruction.operandFields[1]?
  some ⟨['m', 'o', 'v'], [Rd, Rd, ['l', 's', 'l', ' '] ++ amount]⟩

/-- The `switch` of `main`. A label is looked up after all calls of `add_entry`, at a time of its
own for every instruction. -/
def assembleInstruction (pass : FirstPass) (instruction : Instruction) (address : ℤ)
    (pool : Pool) : Option (Encoding × Pool) := do
  let m ← getMnemonic instruction.mnemonic
  match m with
  | .add | .sub | .rsb | .and | .eor | .orr | .mov | .tst | .teq | .cmp =>
    (DataProcessing.assemble instruction).map fun word => (word, pool)
  | .mul | .mla => (assembleMultiply instruction).map fun word => (word, pool)
  | .ldr | .str =>
    let endAddress := getEndAddress pass.instructions.length pool.numAppended
    SingleDataTransfer.assemble instruction address endAddress pool
  | .beq | .bne | .bge | .bgt | .ble | .blt | .b =>
    let behind := pass.heap (pass.table.copies + address.toNat)
    (Branch.assemble behind instruction pass.table address).map fun word => (word, pool)
  | .lsl => (lslAsMov instruction).bind fun mov =>
    (DataProcessing.assemble mov).map fun word => (word, pool)
  | .andeq => some (assembleAndeq, pool)

/-- The variables of the loop of `main`, with what it has written to the file. -/
structure SecondPass where
  file : List Byte
  address : ℤ
  pool : Pool

/-- The variables before the loop. The appended memory is fresh. -/
def SecondPass.start (numAppended : ℤ) : SecondPass := ⟨[], 0, ⟨fun _ => 0, numAppended⟩⟩

/-- One turn of the loop. -/
def assembleLine (pass : FirstPass) (st : SecondPass) (instruction : Instruction) :
    Option SecondPass :=
  (assembleInstruction pass instruction st.address st.pool).map fun (word, pool) =>
    ⟨st.file ++ word.littleEndian, st.address + 4, pool⟩

/-- The loop that copies the appended memory from index `i` on. The array has fewer words than
there is fuel for. -/
def copyAppended (appendedMemory : Fin (maxNumInstructions * 4) → Byte) :
    ℕ → ℕ → Option (List Byte)
  | 0, _ => none
  | fuel + 1, i => do
    let word ← readEncoding appendedMemory i
    if word.fourth = 0 then some []
    else (copyAppended appendedMemory fuel (i + 4)).map (word.littleEndian ++ ·)

/-- The loop of `main` before turn `i`. -/
def secondPass (pass : FirstPass) (numAppended : ℤ) (i : ℕ) : Option SecondPass :=
  (pass.instructions.take i).foldlM (assembleLine pass) (SecondPass.start numAppended)

/-- `main`: the bytes of the output file. -/
def assemble (heap : Heap) (numAppended : ℤ) (file : List Char) : Option (List Byte) := do
  let pass ← parseFirst heap file
  let st ← secondPass pass numAppended pass.instructions.length
  let appended ← copyAppended st.pool.appendedMemory (maxNumInstructions + 1) 0
  some (st.file ++ appended)

/-! ## Runs of the second pass -/

variable {pass : FirstPass} {numAppended : ℤ} {i : ℕ} {st st' : SecondPass}
  {instruction : Instruction}

theorem secondPass_succ (hi : pass.instructions[i]? = some instruction) :
    secondPass pass numAppended (i + 1) =
      (secondPass pass numAppended i).bind fun st => assembleLine pass st instruction := by
  unfold secondPass
  rw [List.take_add_one, hi, Option.toList_some, List.foldlM_append]
  simp

/-- **An induction rule for the second pass.** -/
theorem secondPass_induction {P : ℕ → SecondPass → Prop}
    (hstart : P 0 (SecondPass.start numAppended))
    (hturn : ∀ i st instruction word pool, P i st → pass.instructions[i]? = some instruction →
      assembleInstruction pass instruction st.address st.pool = some (word, pool) →
      P (i + 1) ⟨st.file ++ word.littleEndian, st.address + 4, pool⟩)
    (hi : i ≤ pass.instructions.length) (h : secondPass pass numAppended i = some st) : P i st := by
  induction i generalizing st with
  | zero =>
    cases h
    exact hstart
  | succ i ih =>
    obtain ⟨instruction, hget⟩ : ∃ x, pass.instructions[i]? = some x :=
      ⟨_, List.getElem?_eq_getElem (by omega)⟩
    rw [secondPass_succ hget] at h
    obtain ⟨u, hu, hline⟩ := Option.bind_eq_some_iff.mp h
    obtain ⟨⟨word, pool⟩, hword, rfl⟩ := Option.map_eq_some_iff.mp hline
    exact hturn i u instruction word pool (ih (by omega) hu) hget hword

/-- Every instruction is one word, and the address of the loop is the place in the file. -/
theorem secondPass_address (hi : i ≤ pass.instructions.length)
    (h : secondPass pass numAppended i = some st) :
    st.address = 4 * i ∧ st.file.length = 4 * i := by
  refine secondPass_induction (P := fun i st => st.address = 4 * i ∧ st.file.length = 4 * i)
    (by simp [SecondPass.start]) ?_ hi h
  intro i st _ word _ hP _ _
  simp only [List.length_append, Encoding.length_littleEndian]
  omega

end DocMachine.Arm.Assembler
