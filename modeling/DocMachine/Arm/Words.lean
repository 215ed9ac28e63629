import DocMachine.Arm.Source

/-!
# The words of a program

Each statement of `Source.lean` that fits has one word, that the assembler writes for its line
(`assemble.c` 131-186) and that the emulator executes as the statement (`emulate.c` 56-73).

* `Statement.word` is that word. It depends on the address for a branch only.
* A word other than that of a branch is unconditional, and the word of `halt` is the only one that
  is zero.
* The words of register instructions, constants and transfers are those of `Operands.lean`,
  `Immediate.lean` and `Addressing.lean`, whose results are put together here for every statement.

Results:
* `parseInstruction_statement`: the first pass reads a statement that fits.
* `getAddress_target`: the first label has the address of what follows it, if a zero stands behind
  its copy.
* `assembleInstruction_statement`: the second pass writes the word of a statement that fits.
* `agrees_word`: the emulator executes the word of a statement that fits as the statement.
* `decode_branch`: it takes the word of a branch for a branch, and its condition holds iff the flags
  say so.
* `Statement.run_pc`: a statement that fits leaves the program counter to branches.
-/

namespace DocMachine.Arm.Assembler

open DocMachine.Lib
open Emulator (Machine Registers Condition pc cpsr reg)

/-! ## The condition field -/

/-- The condition field is `al`. -/
def Unconditional (word : Encoding) : Prop := Emulator.getCond word.first = 14

theorem Unconditional.checkCond {word : Encoding} (h : Unconditional word) (CPSR : Word) :
    Emulator.checkCond word.first CPSR = true := by
  unfold Emulator.checkCond
  rw [h]
  rfl

theorem Unconditional.isZero {word : Encoding} (h : Unconditional word) :
    Emulator.isZero word = false := by
  have hfirst : word.first ≠ 0 := by
    intro hzero
    unfold Unconditional at h
    rw [hzero] at h
    exact absurd h (by decide)
  unfold Emulator.isZero
  rw [decide_eq_false hfirst]
  rfl

theorem unconditional_emitted (m : Mnemonic) (setsFlags : Bool) (Rd Rn : Nibble) (o : Operand2) :
    Unconditional (emitted m setsFlags Rd Rn o) := by
  unfold Unconditional
  rw [emitted_first]
  cases m <;> decide

theorem unconditional_register (source : RegisterInstruction) : Unconditional source.word := by
  cases source with
  | mov Rd o => exact unconditional_emitted ..
  | compare m Rn o => exact unconditional_emitted ..
  | compute m Rd Rn o => exact unconditional_emitted ..
  | mul Rd Rm Rs => exact (by decide : Emulator.getCond (0xe#8 <<< 4) = 14)
  | mla Rd Rm Rs Rn => exact (by decide : Emulator.getCond (0xe#8 <<< 4) = 14)

theorem unconditional_transfer (t : TransferInstruction) :
    Unconditional (Encoding.ofWord t.word) := by
  have hfirst : ∀ preIndexed : Bool,
      Emulator.getCond (0xe4 ||| if preIndexed then 1 else 0) = 14 := by decide
  unfold Unconditional
  rw [TransferInstruction.ofWord_word]
  exact hfirst t.preIndexed

/-! ## Constants -/

section Constants

variable (immediate : Byte) (r : Nibble)

/-- The last bit that a rotation to the right moves is the top one. -/
theorem msb_rotateRight (w : Word) {amount : ℕ} (h : 0 < amount) (h32 : amount < 32) :
    (w.rotateRight amount).msb = w.getLsbD (amount - 1) := by
  have hhigh : ¬ 31 < 32 - amount := by omega
  have hindex : 31 - (32 - amount) = amount - 1 := by omega
  rw [BitVec.msb_eq_getLsbD_last, BitVec.getLsbD_rotateRight_of_lt h32]
  simp [hhigh, hindex]

theorem rotation_amount (Rd r : Nibble) :
    ((Rd.setWidth 8 <<< 4 ||| r.setWidth 8 : Byte) &&& 0xf) <<< 1 = r.setWidth 8 <<< 1 ∧
      (r.setWidth 8 <<< 1 : Byte).toNat = 2 * r.toNat := by
  decide +revert

theorem msb_setWidth (immediate : Byte) : (immediate.setWidth 32 : Word).msb = false := by
  decide +revert

/-- The rotated constant with its carry. -/
theorem getRotatedImmediate_eq (Rd : Nibble) :
    Emulator.DataProcessing.getRotatedImmediate (Rd.setWidth 8 <<< 4 ||| r.setWidth 8) immediate 0 =
      some ((immediate.setWidth 32).rotateRight (2 * r.toNat),
        Emulator.carryByte ((immediate.setWidth 32).rotateRight (2 * r.toNat)).msb) := by
  obtain ⟨hamount, hnat⟩ := rotation_amount Rd r
  have hlt : 2 * r.toNat < 32 := by omega
  unfold Emulator.DataProcessing.getRotatedImmediate
  rw [hamount]
  by_cases hzero : r.toNat = 0
  · have hsame : (immediate.setWidth 32 : Word).rotateRight (2 * 0) = immediate.setWidth 32 := by
      ext i hi
      simp
      omega
    rw [Emulator.shifter, hnat, hzero, hsame, msb_setWidth]
    rfl
  · have hpos : 0 < (r.setWidth 8 <<< 1 : Byte).toNat := by omega
    have hror := Emulator.shifter_code .ror hpos (by omega) (immediate.setWidth 32) 0
    rw [hnat] at hror
    rw [msb_rotateRight _ (by omega) hlt]
    exact hror

/-- The opcode, the S flag and `Rn` come back. -/
theorem fields_bytes (code Rn : Nibble) (setsFlags : Bool) :
    Emulator.DataProcessing.getOpCode
        ((0xe#8 <<< 4) ||| ((1 : Byte) <<< 1) ||| (code.setWidth 8 >>> 3))
        ((code.setWidth 8 <<< 5) ||| ((if setsFlags then 1 else 0 : Byte) <<< 4) |||
          Rn.setWidth 8) = code.setWidth 8 ∧
      Emulator.DataProcessing.getS ((code.setWidth 8 <<< 5) |||
        ((if setsFlags then 1 else 0 : Byte) <<< 4) ||| Rn.setWidth 8) = setsFlags ∧
      Emulator.DataProcessing.getRn ((code.setWidth 8 <<< 5) |||
        ((if setsFlags then 1 else 0 : Byte) <<< 4) ||| Rn.setWidth 8) = Rn := by
  cases setsFlags <;> decide +kernel +revert

/-- The first two bytes of a data processing instruction with a constant. -/
theorem fields_writeInstruction (m : Mnemonic) (setsFlags : Bool) (Rn Rd : Nibble)
    {word : Encoding} (hword : word = DataProcessing.writeInstruction m.opCode
      (if setsFlags then 1 else 0) (Rn.setWidth 8) (Rd.setWidth 8)
      ((1#32 <<< 12) ||| encoding immediate r)) :
    Unconditional word ∧ Emulator.decode word = .dataProcessing ∧
      Emulator.DataProcessing.getImmediateOperand word.first = 1 ∧
      Emulator.DataProcessing.getOpCode word.first word.second = m.opCode ∧
      Emulator.DataProcessing.getS word.second = setsFlags ∧
      Emulator.DataProcessing.getRn word.second = Rn ∧
      Emulator.DataProcessing.getRd word.third = Rd := by
  have hfirst : word.first = (0xe#8 <<< 4) ||| ((1 : Byte) <<< 1) ||| (m.opCode >>> 3) := by
    rw [hword, DataProcessing.writeInstruction, immediate_bit]
  have hsecond : word.second =
      (m.opCode <<< 5) ||| ((if setsFlags then 1 else 0 : Byte) <<< 4) ||| Rn.setWidth 8 := by
    rw [hword, DataProcessing.writeInstruction]
  have hthird : word.third = Rd.setWidth 8 <<< 4 ||| r.setWidth 8 := by
    rw [hword, DataProcessing.writeInstruction, rotation_field]
  obtain ⟨code, hcode⟩ : ∃ code : Nibble, m.opCode = code.setWidth 8 :=
    ⟨m.opCode.setWidth 4, by cases m <;> decide⟩
  have hRd : ∀ Rd r : Nibble, Emulator.DataProcessing.getRd
      (Rd.setWidth 8 <<< 4 ||| r.setWidth 8) = Rd := by decide
  have hcond : Emulator.getCond ((0xe#8 <<< 4) ||| ((1 : Byte) <<< 1) ||| (m.opCode >>> 3)) = 14 ∧
      Emulator.DataProcessing.getImmediateOperand
        ((0xe#8 <<< 4) ||| ((1 : Byte) <<< 1) ||| (m.opCode >>> 3)) = 1 ∧
      ((((0xe#8 <<< 4) ||| ((1 : Byte) <<< 1) ||| (m.opCode >>> 3)) >>> 2) &&& 3).toNat = 0 ∧
      ((0xe#8 <<< 4) ||| ((1 : Byte) <<< 1) ||| (m.opCode >>> 3)) &&& 3 ≠ 0 := by
    cases m <;> decide
  have hbytes := fields_bytes code Rn setsFlags
  obtain ⟨hal, himmediate, hclass, hnotmultiply⟩ := hcond
  rw [← hcode] at hbytes
  rw [← hfirst] at hal himmediate hclass hnotmultiply
  rw [← hfirst, ← hsecond] at hbytes
  refine ⟨hal, ?_, himmediate, hbytes.1, hbytes.2.1, hbytes.2.2, by rw [hthird, hRd]⟩
  unfold Emulator.decode
  rw [hclass]
  exact if_neg fun h => hnotmultiply h.1

/-- The emulator on a data processing instruction with a constant. -/
theorem execute_writeInstruction (m : Mnemonic) (setsFlags : Bool) (Rn Rd : Nibble)
    {word : Encoding} (hword : word = DataProcessing.writeInstruction m.opCode
      (if setsFlags then 1 else 0) (Rn.setWidth 8) (Rd.setWidth 8)
      ((1#32 <<< 12) ||| encoding immediate r)) (machine : Machine) :
    Emulator.execute word machine =
      let value := (immediate.setWidth 32 : Word).rotateRight (2 * r.toNat)
      let (registers, result, carry) := Emulator.DataProcessing.compute m.opCode (reg Rn) (reg Rd)
        value (Emulator.carryByte value.msb) machine.registers
      let registers := if setsFlags then registers.set cpsr
        (Emulator.DataProcessing.setCPSR result (registers cpsr) carry) else registers
      some { machine with registers := registers } := by
  obtain ⟨-, hdecode, himmediate, hopCode, hS, hRn, hRd⟩ :=
    fields_writeInstruction immediate r m setsFlags Rn Rd hword
  have hthird : word.third = Rd.setWidth 8 <<< 4 ||| r.setWidth 8 := by
    rw [hword, DataProcessing.writeInstruction, rotation_field]
  have hfourth : word.fourth = immediate := by
    rw [hword, DataProcessing.writeInstruction, immediate_field]
  have hoperand := getRotatedImmediate_eq immediate r Rd
  rw [← hthird] at hoperand
  unfold Emulator.execute
  rw [hdecode]
  simp only [Emulator.DataProcessing.execute, Emulator.DataProcessing.getOperand2, himmediate,
    hopCode, hS, hRn, hRd, hfourth]
  rw [if_pos (by decide), hoperand]
  rfl

end Constants

theorem immediate_word (line : ImmediateLine) (immediate : Byte) (r : Nibble) :
    Unconditional (line.word (encoding immediate r)) ∧
      Emulator.decode (line.word (encoding immediate r)) = .dataProcessing := by
  cases line with
  | mov Rd =>
    have hfields := fields_writeInstruction immediate r .mov false 0 Rd rfl
    exact ⟨hfields.1, hfields.2.1⟩
  | compare m Rn =>
    have hfields := fields_writeInstruction immediate r m.1 true Rn 0 rfl
    exact ⟨hfields.1, hfields.2.1⟩
  | compute m Rd Rn =>
    have hfields := fields_writeInstruction immediate r m.1 false Rn Rd rfl
    exact ⟨hfields.1, hfields.2.1⟩

theorem execute_immediate (line : ImmediateLine) (immediate : Byte) (r : Nibble)
    (machine : Machine) : Emulator.execute (line.word (encoding immediate r)) machine =
      some { machine with
        registers := line.run ((immediate.setWidth 32).rotateRight (2 * r.toNat))
          machine.registers } := by
  cases line with
  | mov Rd => exact execute_writeInstruction immediate r .mov false 0 Rd rfl machine
  | compare m Rn => exact execute_writeInstruction immediate r m.1 true Rn 0 rfl machine
  | compute m Rd Rn => exact execute_writeInstruction immediate r m.1 false Rn Rd rfl machine

/-- The twelve bits of a constant that fits. -/
theorem intToOperand2_fits {v : Word} {immediate : Byte} {r : Nibble} (hr : r.toNat ≤ 12)
    (hv : (immediate.setWidth 32).rotateRight (2 * r.toNat) = v) :
    ∃ (immediate' : Byte) (r' : Nibble),
      DataProcessing.intToOperand2 v = some (encoding immediate' r') ∧
        (immediate'.setWidth 32).rotateRight (2 * r'.toNat) = v := by
  rcases intToOperand2_eq v with ⟨turns, hturns, hfits, hresult⟩ | ⟨hmisfit, -⟩
  · refine ⟨_, _, hresult, ?_⟩
    rw [BitVec.toNat_ofNat, Nat.mod_eq_of_lt (by omega : turns < 2 ^ 4),
      rotateRight_eq_iff _ hturns,
      BitVec.toNat_ofNat, Nat.mod_eq_of_lt hfits.2]
    exact (Nat.div_mul_cancel (Nat.dvd_of_mod_eq_zero hfits.1)).symm
  · exact absurd ((fitsAt_iff hr).mpr ⟨immediate, hv⟩) (hmisfit _ hr)

/-! ## Lines -/

/-- The fields of a branch condition. -/
def condField : Option Condition → Nibble
  | none => 14
  | some condition => condition.code.setWidth 4

namespace Statement

/-- The statement as the first pass keeps it. -/
def instruction : Statement → Instruction
  | register source => ⟨source.mnemonic.text, source.fields⟩
  | immediate line constant => line.instruction constant
  | lsl Rd amount => ⟨Mnemonic.lsl.text, [registerName Rd, amountText amount]⟩
  | transfer t => ⟨t.mnemonic.text, t.fields⟩
  | branch condition label => ⟨(branchMnemonic condition).text, [label]⟩
  | halt => ⟨Mnemonic.andeq.text, List.replicate 3 (registerName 0)⟩

end Statement

theorem operandFields_plain {token : CString} (h : DataProcessing.getShift token = 0) :
    operandFields [token] = some [token] := by
  unfold operandFields
  rw [if_neg (not_not.mpr h)]

theorem operandFields_immediate (line : ImmediateLine) (constant : CString) :
    operandFields (line.instruction constant).operandFields =
      some (line.instruction constant).operandFields := by
  have hplain : DataProcessing.getShift ('#' :: constant) = 0 := by simp [DataProcessing.getShift]
  have hlast := operandFields_plain hplain
  cases line with
  | mov Rd => exact operandFields_registerName Rd hlast
  | compare m Rn => exact operandFields_registerName Rn hlast
  | compute m Rd Rn => exact operandFields_registerName Rd (operandFields_registerName Rn hlast)

theorem length_immediate (line : ImmediateLine) (constant : CString) :
    (line.instruction constant).operandFields.length ≤ 4 := by
  cases line <;> simp [ImmediateLine.instruction]

theorem getShift_amountText (amount : Bool × BitVec 5 ⊕ Nibble) :
    DataProcessing.getShift (amountText amount) = 0 := by
  cases amount with
  | inl amount =>
    obtain ⟨hexadecimal, n⟩ := amount
    unfold amountText constantText
    cases hexadecimal <;> simp [DataProcessing.getShift]
  | inr Rs => exact getShift_registerName Rs

/-- **The first pass reads a statement that fits.** -/
theorem parseInstruction_statement {s : Statement} {line : CString} {labels : List CString}
    (hfits : s.Fits labels) (hline : CString.strtok [' ', ',', '\n'] line = s.tokens) :
    parseInstruction line = some s.instruction := by
  cases s with
  | register source => exact source.parseInstruction_line hline
  | immediate l constant =>
    exact parseInstruction_tokens hline (operandFields_immediate l constant)
      (length_immediate l constant)
  | lsl Rd amount =>
    exact parseInstruction_tokens hline
      (operandFields_registerName Rd (operandFields_plain (getShift_amountText amount)))
      (by decide : 2 ≤ 4)
  | transfer t => exact t.parseInstruction_line hline
  | branch condition label =>
    exact parseInstruction_tokens hline (operandFields_plain hfits.2) (by decide : 1 ≤ 4)
  | halt => exact parseInstruction_tokens hline (by decide) (by decide : 3 ≤ 4)

/-! ## The words -/

/-- The word of the statement with this number. -/
def SourceProgram.word (program : SourceProgram) (i : ℕ) : Statement → Encoding
  | .register source => source.word
  | .immediate line constant =>
    line.word ((DataProcessing.intToOperand2 (constantValue constant)).getD 0)
  | .lsl Rd amount => (RegisterInstruction.mov Rd (lslOperand Rd amount)).word
  | .transfer t => Encoding.ofWord t.word
  | .branch condition label => Encoding.ofWord
      (Branch.encode (condField condition) (4 * (target label program.lines).getD 0 - 4 * i - 8))
  | .halt => assembleAndeq

/-- The constant of a line has no space in it. -/
theorem space_notMem {line constant : CString} {l : ImmediateLine}
    (hline : CString.strtok [' ', ',', '\n'] line = (Statement.immediate l constant).tokens) :
    ' ' ∉ constant := by
  have hmem : '#' :: constant ∈ CString.strtok [' ', ',', '\n'] line := by
    rw [hline]
    cases l <;> simp [Statement.tokens, ImmediateLine.instruction]
  have hnone := CString.notMem_of_mem_tokensFrom (fun _ hc => absurd hc List.not_mem_nil) hmem
  exact fun hspace => hnone ' ' (List.mem_cons_of_mem _ hspace) (by decide)

theorem assembleInstruction_immediate (l : ImmediateLine) {constant : CString} {word : Encoding}
    (hword : DataProcessing.assemble (l.instruction constant) = some word) (pass : FirstPass)
    (address : ℤ) (pool : Pool) :
    assembleInstruction pass (l.instruction constant) address pool = some (word, pool) := by
  cases l with
  | mov Rd =>
    exact RegisterInstruction.assembleInstruction_dataProcessing List.mem_cons_self hword pass
      address pool
  | compare m Rn =>
    exact RegisterInstruction.assembleInstruction_dataProcessing
      (List.mem_cons_of_mem _ (List.mem_append_left _ m.2)) hword pass address pool
  | compute m Rd Rn =>
    exact RegisterInstruction.assembleInstruction_dataProcessing
      (List.mem_cons_of_mem _ (List.mem_append_right _ m.2)) hword pass address pool

/-- `lsl` becomes the `mov` with the shift. -/
theorem lslAsMov_instruction (Rd : Nibble) (amount : Bool × BitVec 5 ⊕ Nibble) :
    lslAsMov (Statement.lsl Rd amount).instruction =
      some ⟨Mnemonic.mov.text, registerName Rd :: (lslOperand Rd amount).fields⟩ := by
  cases amount <;> rfl

theorem getCond_branchMnemonic (condition : Option Condition) :
    Branch.getCond (branchMnemonic condition).text = some (condField condition) := by
  rcases condition with - | condition
  · decide
  · cases condition <;> decide

theorem assembleInstruction_branchMnemonic (condition : Option Condition) (label : CString)
    {pass : FirstPass} {destination address : ℤ}
    (hlabel : pass.table.getAddress (pass.heap (pass.table.copies + address.toNat)) label =
      some destination) (pool : Pool) :
    assembleInstruction pass (Statement.branch condition label).instruction address pool =
      some (Encoding.ofWord (Branch.encode (condField condition) (destination - address - 8)),
        pool) := by
  have hword : Branch.assemble (pass.heap (pass.table.copies + address.toNat))
      (Statement.branch condition label).instruction pass.table address =
        some (Encoding.ofWord
          (Branch.encode (condField condition) (destination - address - 8))) := by
    unfold Branch.assemble Statement.instruction
    simp [getCond_branchMnemonic, hlabel]
  unfold assembleInstruction
  simp only [hword]
  rw [Statement.instruction, getMnemonic_text]
  rcases condition with - | condition
  · rfl
  · cases condition <;> rfl

/-! ## The first label -/

/-- What follows the first label is as many statements from the start as the label is lines. -/
theorem exists_head {lines : List SourceLine} {label : CString}
    (h : (lines.filterMap SourceLine.name?).head? = some label) :
    ∃ p, target label lines = some p ∧ p ≤ (lines.filterMap SourceLine.statement?).length ∧
      (lines.map SourceLine.line)[p]? = some (.label label) ∧
      ((lines.map SourceLine.line).take p).countP Line.isLabel = 0 := by
  induction lines with
  | nil => cases h
  | cons line lines ih =>
    cases line with
    | label name =>
      cases h
      exact ⟨0, if_pos rfl, Nat.zero_le _, rfl, rfl⟩
    | statement text s =>
      obtain ⟨p, htarget, hle, hline, hbefore⟩ := ih h
      refine ⟨p + 1, ?_, Nat.succ_le_succ hle, hline, hbefore⟩
      rw [target, htarget]
      rfl

variable {heap : Heap} {program : SourceProgram} {pass : FirstPass} {label : CString}

/-- The first label has the address of what follows it. -/
theorem getAddress_target (hparse : parseFirst heap program.text = some pass)
    (hlabel : program.labels.head? = some label) {t : ℕ} (hzero : heap t 0 = []) :
    ∃ d, target label program.lines = some d ∧
      pass.table.getAddress (pass.heap t) label = some (4 * (d : ℤ)) := by
  obtain ⟨p, htarget, -, hline, hbefore⟩ := exists_head hlabel
  have hfirst : program.program.labelsBefore p = 0 := hbefore
  refine ⟨p, htarget, ?_⟩
  rw [(parseFirst_text hparse).1]
  exact (getAddress_iff_foundAt hparse).mpr ⟨p, foundAt_first hline hfirst hzero, rfl⟩

/-- **The second pass writes the word of a statement that fits.** -/
theorem assembleInstruction_statement (hparse : parseFirst heap program.text = some pass)
    (hzero : ∀ t, heap t 0 = []) {s : Statement} (hfits : s.Fits program.labels) {line : CString}
    (hline : CString.strtok [' ', ',', '\n'] line = s.tokens) (i : ℕ) (pool : Pool) :
    assembleInstruction pass s.instruction (4 * i) pool = some (program.word i s, pool) := by
  cases s with
  | register source => exact source.assembleInstruction_fields pass (4 * i) pool
  | immediate l constant =>
    obtain ⟨-, immediate, r, hr, hvalue⟩ := hfits
    obtain ⟨immediate', r', hoperand2, -⟩ := intToOperand2_fits hr hvalue
    refine assembleInstruction_immediate l ?_ pass (4 * i) pool
    have hassemble := l.assemble_instruction (space_notMem hline)
    rw [← constantValue, hoperand2] at hassemble
    rw [hassemble, SourceProgram.word, hoperand2]
    rfl
  | lsl Rd amount =>
    have hmov := RegisterInstruction.assemble_mov Rd (lslOperand Rd amount)
    unfold assembleInstruction
    rw [Statement.instruction, getMnemonic_text]
    simp only [Option.bind_eq_bind, Option.bind_some]
    rw [← Statement.instruction, lslAsMov_instruction, Option.bind_some, hmov]
    rfl
  | transfer t => exact t.assembleInstruction_fields pass (4 * i) pool
  | branch condition label =>
    obtain ⟨d, htarget, hlabel⟩ := getAddress_target hparse hfits.1 (hzero _)
    rw [assembleInstruction_branchMnemonic condition label hlabel, SourceProgram.word, htarget]
    rfl
  | halt => rfl

/-! ## The words in the emulator -/

/-- A statement after which the next one is executed. -/
def Statement.proceeds : Statement → Bool
  | branch _ _ | halt => false
  | _ => true

/-- The emulator executes the word as the statement. -/
structure Statement.Agrees (s : Statement) (word : Encoding) : Prop where
  unconditional : Unconditional word
  decoded : Emulator.decode word ≠ .branch
  executes : ∀ m, Emulator.execute word m = s.run m

theorem RegisterInstruction.execute_eq {source : RegisterInstruction} {word : Encoding}
    (h : source.Agrees word) :
    Emulator.decode word ≠ .branch ∧ ∀ m, Emulator.execute word m = source.run m := by
  cases source with
  | mov Rd o | compare m Rn o | compute m Rd Rn o =>
    exact ⟨by rw [h.decoded]; decide, h.executes⟩
  | mul Rd Rm Rs | mla Rd Rm Rs Rn => exact ⟨by rw [h.decoded]; decide, h.executes⟩

theorem agrees_register {source : RegisterInstruction} (hfits : source.Fits) :
    (Statement.register source).Agrees source.word := by
  obtain ⟨hdecode, hexecute⟩ := RegisterInstruction.execute_eq (source.agrees_word.mpr hfits)
  exact ⟨unconditional_register source, hdecode, hexecute⟩

theorem lslOperand_fits (Rd : Nibble) (amount : Bool × BitVec 5 ⊕ Nibble) :
    (lslOperand Rd amount).Fits := by
  intro hror
  cases amount <;> cases hror

/-- **The emulator executes the word of a statement that fits.** -/
theorem agrees_word (program : SourceProgram) {s : Statement} {labels : List CString}
    (hfits : s.Fits labels) (hproceeds : s.proceeds = true) (i : ℕ) :
    s.Agrees (program.word i s) := by
  cases s with
  | register source => exact agrees_register hfits.1
  | immediate l constant =>
    obtain ⟨-, immediate, r, hr, hvalue⟩ := hfits
    obtain ⟨immediate', r', hoperand2, hvalue'⟩ := intToOperand2_fits hr hvalue
    rw [SourceProgram.word, hoperand2, Option.getD_some]
    obtain ⟨hal, hdecode⟩ := immediate_word l immediate' r'
    refine ⟨hal, by rw [hdecode]; decide, fun m => ?_⟩
    rw [execute_immediate, hvalue']
    rfl
  | lsl Rd amount =>
    have hfits : (RegisterInstruction.mov Rd (lslOperand Rd amount)).Fits :=
      lslOperand_fits Rd amount
    have hmov := agrees_register hfits
    exact ⟨hmov.unconditional, hmov.decoded, hmov.executes⟩
  | transfer t =>
    refine ⟨unconditional_transfer t, ?_, fun m => ?_⟩
    · rw [SourceProgram.word, t.decode_word]
      decide
    · unfold Emulator.execute
      rw [SourceProgram.word, t.decode_word]
      exact (t.agrees_of_fits hfits.1).executes m
  | branch condition label => cases hproceeds
  | halt => cases hproceeds

/-! ## The word of a branch -/

section Branches

variable (condition : Option Condition) {offset : ℤ} (hlow : -2 ^ 25 ≤ offset)
  (hhigh : offset < 2 ^ 25)

include hlow hhigh

theorem first_branch : (Encoding.ofWord (Branch.encode (condField condition) offset)).first =
    (condField condition).setWidth 8 <<< 4 ||| 0xa#8 := by
  have hhighByte : ∀ cond : Nibble, ((cond.setWidth 32 <<< 4) ||| 0xa#32 : Word).setWidth 8 =
      cond.setWidth 8 <<< 4 ||| 0xa#8 := by
    decide
  have hencode := encode_high (condField condition) hlow hhigh
  rw [← hhighByte, ← hencode]
  rfl

/-- The emulator takes it for a branch, and its condition holds iff the flags say so. -/
theorem decode_branch :
    Emulator.isZero (Encoding.ofWord (Branch.encode (condField condition) offset)) = false ∧
      Emulator.decode (Encoding.ofWord (Branch.encode (condField condition) offset)) = .branch ∧
      ∀ CPSR, Emulator.checkCond
        (Encoding.ofWord (Branch.encode (condField condition) offset)).first CPSR =
          taken condition CPSR := by
  have hfirst := first_branch condition hlow hhigh
  refine ⟨?_, ?_, fun CPSR => ?_⟩
  · have hne : (condField condition).setWidth 8 <<< 4 ||| 0xa#8 ≠ 0 := by
      generalize condField condition = cond
      decide +revert
    unfold Emulator.isZero
    rw [hfirst, decide_eq_false hne]
    rfl
  · have hclass : ((((condField condition).setWidth 8 <<< 4 ||| 0xa#8 : Byte) >>> 2) &&&
        3).toNat = 2 := by
      generalize condField condition = cond
      decide +revert
    unfold Emulator.decode
    rw [hfirst, hclass]
    rfl
  · rw [hfirst]
    rcases condition with - | condition
    · rfl
    · refine Emulator.checkCond_code condition ?_ CPSR
      cases condition <;> decide

end Branches

/-! ## The program counter -/

theorem compute_registers {Rd i : Fin 17} (hi : i ≠ Rd) (opCode : Byte) (Rn : Fin 17)
    (operand2 : Word) (carry : Byte) (registers : Registers) :
    (Emulator.DataProcessing.compute opCode Rn Rd operand2 carry registers).1 i = registers i := by
  unfold Emulator.DataProcessing.compute
  split <;> simp [hi]

theorem pc_ne_reg {n : Nibble} (h : n ≠ 15) : pc ≠ reg n := by
  intro heq
  refine h (BitVec.eq_of_toNat_eq ?_)
  exact (congrArg Fin.val heq).symm

theorem execute_pc {o : Emulator.DataProcessing.Operands} (hRd : o.Rd ≠ 15)
    {registers registers' : Registers} (h : o.execute registers = some registers') :
    registers' pc = registers pc := by
  obtain ⟨⟨operand2, carry⟩, -, rfl⟩ := Option.map_eq_some_iff.mp h
  have hpc : pc ≠ cpsr := by decide
  have hcompute := compute_registers (pc_ne_reg hRd) o.opCode (reg o.Rn) operand2 carry registers
  by_cases hflags : o.setsFlags
  · simp only [if_pos hflags]
    rw [Emulator.Registers.set_of_ne hpc]
    exact hcompute
  · simp only [if_neg hflags]
    exact hcompute

theorem RegisterInstruction.run_pc {source : RegisterInstruction} {m m' : Machine}
    (hdestination : source.destination ≠ some 15) (h : source.run m = some m') :
    m'.registers pc = m.registers pc := by
  have hprocess : ∀ o : Emulator.DataProcessing.Operands, o.Rd ≠ 15 →
      ((o.execute m.registers).map fun registers => { m with registers := registers }) = some m' →
      m'.registers pc = m.registers pc := by
    intro o hRd ho
    obtain ⟨registers, hregisters, rfl⟩ := Option.map_eq_some_iff.mp ho
    exact execute_pc hRd hregisters
  have hmultiply : ∀ f : Emulator.Multiply.Factors, f.Rd ≠ 15 → f.setsFlags = false →
      some { m with registers := f.execute m.registers } = some m' →
      m'.registers pc = m.registers pc := by
    intro f hRd hflags hf
    cases hf
    unfold Emulator.Multiply.Factors.execute
    rw [hflags]
    exact Emulator.Registers.set_of_ne (pc_ne_reg hRd) _
  have hRd : ∀ Rd : Nibble, some Rd ≠ some 15 → Rd ≠ 15 := fun Rd h heq => h (congrArg some heq)
  cases source with
  | mov Rd o => exact hprocess _ (hRd Rd hdestination) h
  | compare m Rn o => exact hprocess _ (by decide : (0 : Nibble) ≠ 15) h
  | compute m Rd Rn o => exact hprocess _ (hRd Rd hdestination) h
  | mul Rd Rm Rs => exact hmultiply _ (hRd Rd hdestination) rfl h
  | mla Rd Rm Rs Rn => exact hmultiply _ (hRd Rd hdestination) rfl h

theorem ImmediateLine.run_pc {l : ImmediateLine} (hdestination : l.destination ≠ some 15)
    (value : Word) (registers : Registers) : l.run value registers pc = registers pc := by
  have hRd : ∀ Rd : Nibble, some Rd ≠ some 15 → Rd ≠ 15 := fun Rd h heq => h (congrArg some heq)
  have hpc : pc ≠ cpsr := by decide
  cases l with
  | mov Rd => exact compute_registers (pc_ne_reg (hRd Rd hdestination)) ..
  | compare m Rn =>
    refine (Emulator.Registers.set_of_ne hpc _).trans ?_
    exact compute_registers (pc_ne_reg (by decide)) ..
  | compute m Rd Rn => exact compute_registers (pc_ne_reg (hRd Rd hdestination)) ..

theorem TransferInstruction.run_pc {t : TransferInstruction} {m m' : Machine}
    (hload : t.load = true → t.Rd ≠ 15) (hpost : t.preIndexed = false → t.Rn ≠ 15)
    (h : t.run m = some m') : m'.registers pc = m.registers pc := by
  have hRd : t.load = true → pc ≠ reg t.Rd := fun hl => pc_ne_reg (hload hl)
  unfold TransferInstruction.run at h
  cases hpre : t.preIndexed with
  | true =>
    simp only [hpre, if_true] at h
    exact t.access_registers h hRd
  | false =>
    simp only [hpre, Bool.false_eq_true, if_false] at h
    obtain ⟨m₁, hm₁, rfl⟩ := Option.map_eq_some_iff.mp h
    rw [Emulator.Machine.setRegister_registers,
      Emulator.Registers.set_of_ne (pc_ne_reg (hpost hpre))]
    exact t.access_registers hm₁ hRd

/-- A statement that fits leaves the program counter alone. -/
theorem Statement.run_pc {s : Statement} {labels : List CString} {m m' : Machine}
    (hfits : s.Fits labels) (h : s.run m = some m') : m'.registers pc = m.registers pc := by
  cases s with
  | register source => exact RegisterInstruction.run_pc hfits.2 h
  | immediate l constant =>
    cases h
    exact ImmediateLine.run_pc hfits.1 _ m.registers
  | lsl Rd amount =>
    have hmov : (RegisterInstruction.mov Rd (lslOperand Rd amount)).run m = some m' := h
    have hdestination : (RegisterInstruction.mov Rd (lslOperand Rd amount)).destination ≠ some 15 :=
      fun hRd => hfits (Option.some.inj hRd)
    exact RegisterInstruction.run_pc hdestination hmov
  | transfer t => exact TransferInstruction.run_pc hfits.2.1 hfits.2.2 h
  | branch condition label | halt =>
    cases h
    rfl

end DocMachine.Arm.Assembler
