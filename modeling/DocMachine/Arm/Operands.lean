import DocMachine.Arm.Assembler.Assemble
import DocMachine.Arm.Emulator.Emulate

/-!
# Register operands in the two programs

The register instructions of the assembly language, as `get_Operand2`
(`assembler/data_processing/data_processing.c` 48-83) and `assemble_multiply`
(`assembler/multiply/multiply.c` 12-28) read them from a line, and what `execute_data_processing`
and `execute_multiply` of the emulator read out of the word that the line becomes.

* `RegisterInstruction` is an instruction of the language and `tokens` its line. The layout of the
  line is left open: what counts is how `strtok` cuts it.
* `operands` is all that the emulator takes from the word of a data processing instruction whose
  operand 2 is a register, `factors` all it takes from the word of a `mul` or `mla`.
* `RegisterInstruction.Agrees` compares them with the operands that the line names.
* The loop of `get_Operand2` takes a field that starts with `r` for a register. So it does not stop
  at `ror`, and `Rm` keeps its initial value 0 (`findOperand2_shift`).

Results:
* `execute_operands` and `execute_factors`: the emulator works with nothing else of the word.
* `parseInstruction_tokens`: the first pass cuts the line into its mnemonic and its fields, a shift
  with its amount in one.
* `getOperand2_fields`: what `get_Operand2` returns for them.
* `operands_emitted`: what the emulator reads out of the word.
* `operands_iff`: the emulator gets exactly the operands that the line names iff the line does not
  rotate a register other than `r0`; `operands_rotatedMov` is a line that does.
-/

namespace DocMachine.Arm.Emulator

/-! ## What the emulator reads out of a word -/

namespace DataProcessing

/-- The parts of a data processing instruction whose operand 2 is a register. The amount of a shift
is a constant or the register that holds it. -/
structure Operands where
  opCode : Byte
  setsFlags : Bool
  Rn : Nibble
  Rd : Nibble
  Rm : Nibble
  shiftType : Byte
  amount : Byte ⊕ Nibble

/-- What `execute_data_processing` reads out of the word. -/
def operands (word : Encoding) : Operands where
  opCode := getOpCode word.first word.second
  setsFlags := getS word.second
  Rn := getRn word.second
  Rd := getRd word.third
  Rm := getSecondNibble word.fourth
  shiftType := (getShift word.third word.fourth &&& 6) >>> 1
  amount :=
    if getShift word.third word.fourth &&& 1 = 0 then
      Sum.inl (getShift word.third word.fourth >>> 3)
    else Sum.inr (getSecondNibble word.third)

/-- The amount of the shift, the low byte of a register. -/
def Operands.shiftAmount (o : Operands) (registers : Registers) : Byte :=
  match o.amount with
  | Sum.inl amount => amount
  | Sum.inr Rs => (registers (reg Rs)).setWidth 8

/-- The instruction with these operands. -/
def Operands.execute (o : Operands) (registers : Registers) : Option Registers :=
  (shifter o.shiftType (o.shiftAmount registers) (registers (reg o.Rm)) 0).map
    fun (operand2, carry) =>
      let (registers, result, carry) :=
        compute o.opCode (reg o.Rn) (reg o.Rd) operand2 carry registers
      if o.setsFlags then registers.set cpsr (setCPSR result (registers cpsr) carry) else registers

theorem execute_operands {word : Encoding} (h : getImmediateOperand word.first = 0)
    (registers : Registers) : execute word registers = (operands word).execute registers := by
  unfold execute Operands.execute getOperand2 getShiftedRegister Operands.shiftAmount
  rw [if_neg (by simp [h])]
  simp only [operands]
  by_cases hconstant : getShift word.third word.fourth &&& 1 = 0
  · rw [if_pos hconstant, if_pos hconstant]
    rfl
  · rw [if_neg hconstant, if_neg hconstant]
    rfl

end DataProcessing

namespace Multiply

/-- The parts of a `mul` or `mla` instruction. -/
structure Factors where
  Rd : Nibble
  Rm : Nibble
  Rs : Nibble
  Rn : Option Nibble
  setsFlags : Bool

/-- What `execute_multiply` reads out of the word. -/
def factors (word : Encoding) : Factors where
  Rd := getRd word.second
  Rm := getRm word.fourth
  Rs := getRs word.third
  Rn := if getA word.second then some (getRn word.third) else none
  setsFlags := getS word.second

/-- The product, with the register to accumulate if there is one. -/
def Factors.value (f : Factors) (registers : Registers) : Word :=
  let product := registers (reg f.Rm) * registers (reg f.Rs)
  match f.Rn with
  | none => product
  | some Rn => product + registers (reg Rn)

/-- The instruction with these operands. -/
def Factors.execute (f : Factors) (registers : Registers) : Registers :=
  let registers := registers.set (reg f.Rd) (f.value registers)
  if f.setsFlags then registers.set cpsr (setCPSR (registers (reg f.Rd)) (registers cpsr))
  else registers

theorem execute_factors (word : Encoding) (registers : Registers) :
    execute word registers = (factors word).execute registers := by
  unfold execute Factors.execute Factors.value
  simp only [factors]
  cases getA word.second <;> rfl

end Multiply

end DocMachine.Arm.Emulator

namespace DocMachine.Arm.Assembler

open DocMachine.Lib

/-! ## The register instructions of the language -/

/-- The name of a register. -/
def registerName (n : Nibble) : CString := 'r' :: CString.decimal n.toNat

/-- The name of a mnemonic. -/
def Mnemonic.text (m : Mnemonic) : CString :=
  ((mnemonics.find? fun entry => entry.2 = m).map Prod.fst).getD []

/-- The shifts of the language. -/
inductive Shift where
  | lsl
  | lsr
  | asr
  | ror
deriving DecidableEq

/-- The name of a shift. -/
def Shift.text : Shift → CString
  | lsl => ['l', 's', 'l']
  | lsr => ['l', 's', 'r']
  | asr => ['a', 's', 'r']
  | ror => ['r', 'o', 'r']

/-- The shift type of the architecture. -/
def Shift.code : Shift → BitVec 2
  | lsl => 0
  | lsr => 1
  | asr => 2
  | ror => 3

/-- A constant is written in decimal or in hexadecimal. -/
def constantText (hexadecimal : Bool) (n : ℕ) : CString :=
  if hexadecimal then '#' :: '0' :: 'x' :: Nat.toDigits 16 n else '#' :: CString.decimal n

/-- An operand 2 that is a register, as it is or shifted by a constant between 0 and 31 or by a
register. -/
inductive Operand2 where
  | register (Rm : Nibble)
  | byConstant (Rm : Nibble) (shift : Shift) (hexadecimal : Bool) (amount : BitVec 5)
  | byRegister (Rm : Nibble) (shift : Shift) (Rs : Nibble)

namespace Operand2

/-- The text of the operand, cut into tokens. -/
def tokens : Operand2 → List CString
  | register Rm => [registerName Rm]
  | byConstant Rm shift hexadecimal amount =>
    [registerName Rm, shift.text, constantText hexadecimal amount.toNat]
  | byRegister Rm shift Rs => [registerName Rm, shift.text, registerName Rs]

/-- The register that is shifted. -/
def Rm : Operand2 → Nibble
  | register Rm | byConstant Rm _ _ _ | byRegister Rm _ _ => Rm

/-- A register as it is is one shifted left by 0. -/
def shift : Operand2 → Shift
  | register _ => .lsl
  | byConstant _ shift _ _ | byRegister _ shift _ => shift

/-- What the register is shifted by: a constant or the low byte of a register. -/
def amount : Operand2 → Byte ⊕ Nibble
  | register _ => Sum.inl 0
  | byConstant _ _ _ amount => Sum.inl (amount.setWidth 8)
  | byRegister _ _ Rs => Sum.inr Rs

/-- No rotation of a register other than `r0`. -/
def Fits (o : Operand2) : Prop := o.shift = .ror → o.Rm = 0

end Operand2

/-- The mnemonics that write no register. -/
def comparisons : List Mnemonic := [.tst, .teq, .cmp]

/-- The mnemonics with three operands. -/
def computations : List Mnemonic := [.and, .eor, .sub, .rsb, .add, .orr]

/-- A line whose operands are registers, one of them perhaps shifted. -/
inductive RegisterInstruction where
  | mov (Rd : Nibble) (operand2 : Operand2)
  | compare (m : { m // m ∈ comparisons }) (Rn : Nibble) (operand2 : Operand2)
  | compute (m : { m // m ∈ computations }) (Rd Rn : Nibble) (operand2 : Operand2)
  | mul (Rd Rm Rs : Nibble)
  | mla (Rd Rm Rs Rn : Nibble)

namespace RegisterInstruction

/-- The line of the instruction, cut into tokens. -/
def tokens : RegisterInstruction → List CString
  | mov Rd operand2 => Mnemonic.mov.text :: registerName Rd :: operand2.tokens
  | compare m Rn operand2 => m.1.text :: registerName Rn :: operand2.tokens
  | compute m Rd Rn operand2 => m.1.text :: registerName Rd :: registerName Rn :: operand2.tokens
  | mul Rd Rm Rs => Mnemonic.mul.text :: [Rd, Rm, Rs].map registerName
  | mla Rd Rm Rs Rn => Mnemonic.mla.text :: [Rd, Rm, Rs, Rn].map registerName

/-- The operands that the line names. A register that it does not name is 0. -/
def operands (m : Mnemonic) (setsFlags : Bool) (Rd Rn : Nibble) (operand2 : Operand2) :
    Emulator.DataProcessing.Operands where
  opCode := m.opCode
  setsFlags := setsFlags
  Rn := Rn
  Rd := Rd
  Rm := operand2.Rm
  shiftType := operand2.shift.code.setWidth 8
  amount := operand2.amount

/-- The emulator takes the word for a data processing instruction, reads these operands out of it
and executes it with them. -/
structure Processes (word : Encoding) (o : Emulator.DataProcessing.Operands) : Prop where
  decoded : Emulator.decode word = .dataProcessing
  operands : Emulator.DataProcessing.operands word = o
  executes : ∀ m : Emulator.Machine, Emulator.execute word m =
    (o.execute m.registers).map fun registers => { m with registers := registers }

/-- The emulator takes the word for a multiplication, reads these operands out of it and executes
it with them. -/
structure Multiplies (word : Encoding) (f : Emulator.Multiply.Factors) : Prop where
  decoded : Emulator.decode word = .multiply
  factors : Emulator.Multiply.factors word = f
  executes : ∀ m : Emulator.Machine,
    Emulator.execute word m = some { m with registers := f.execute m.registers }

/-- **The emulator executes the word with what the line names.** -/
def Agrees (word : Encoding) : RegisterInstruction → Prop
  | mov Rd operand2 => Processes word (operands .mov false Rd 0 operand2)
  | compare m Rn operand2 => Processes word (operands m.1 true 0 Rn operand2)
  | compute m Rd Rn operand2 => Processes word (operands m.1 false Rd Rn operand2)
  | mul Rd Rm Rs => Multiplies word ⟨Rd, Rm, Rs, none, false⟩
  | mla Rd Rm Rs Rn => Multiplies word ⟨Rd, Rm, Rs, some Rn, false⟩

/-- No rotation of a register other than `r0`. -/
def Fits : RegisterInstruction → Prop
  | mov _ operand2 | compare _ _ operand2 | compute _ _ _ operand2 => operand2.Fits
  | mul .. | mla .. => True

end RegisterInstruction

/-! ## Tokens -/

theorem getMnemonic_text (m : Mnemonic) : getMnemonic m.text = some m := by
  cases m <;> decide

theorem getRegister_registerName (n : Nibble) :
    getRegister (registerName n) = some (n.setWidth 8) := by
  decide +revert

theorem getShift_registerName (n : Nibble) : DataProcessing.getShift (registerName n) = 0 := by
  decide +revert

theorem getShift_text (shift : Shift) :
    DataProcessing.getShift shift.text = shift.code.setWidth 8 + 1 := by
  cases shift <;> decide

theorem strtok_registerName (n : Nibble) :
    CString.strtok [' '] (registerName n) = [registerName n] := by
  decide +revert

theorem strtol_constantText (hexadecimal : Bool) (n : BitVec 5) :
    CString.strtol 0 (constantText hexadecimal n.toNat).tail = n.toNat := by
  decide +revert

theorem strtok_byConstant (shift : Shift) (hexadecimal : Bool) (n : BitVec 5) :
    CString.strtok [' '] (shift.text ++ ' ' :: constantText hexadecimal n.toNat) =
      [shift.text, constantText hexadecimal n.toNat] := by
  cases shift <;> decide +revert

theorem strtok_byRegister (shift : Shift) (Rs : Nibble) :
    CString.strtok [' '] (shift.text ++ ' ' :: registerName Rs) =
      [shift.text, registerName Rs] := by
  cases shift <;> decide +revert

/-- The text of the operand, cut into operand fields. -/
def Operand2.fields : Operand2 → List CString
  | register Rm => [registerName Rm]
  | byConstant Rm shift hexadecimal amount =>
    [registerName Rm, shift.text ++ ' ' :: constantText hexadecimal amount.toNat]
  | byRegister Rm shift Rs => [registerName Rm, shift.text ++ ' ' :: registerName Rs]

theorem operandFields_registerName (n : Nibble) {tokens fields : List CString}
    (h : operandFields tokens = some fields) :
    operandFields (registerName n :: tokens) = some (registerName n :: fields) := by
  cases tokens with
  | nil =>
    rw [operandFields, if_neg (by simp [getShift_registerName])]
    simpa [operandFields] using h
  | cons token tokens =>
    rw [operandFields, if_neg (by simp [getShift_registerName]), h]
    rfl

theorem operandFields_shift (shift : Shift) (amount : CString) :
    operandFields [shift.text, amount] = some [shift.text ++ ' ' :: amount] := by
  have hshift : DataProcessing.getShift shift.text ≠ 0 := by
    cases shift <;> decide
  rw [operandFields, if_pos hshift]
  rfl

/-- A shift and its amount become one field. -/
theorem operandFields_tokens (o : Operand2) : operandFields o.tokens = some o.fields := by
  cases o with
  | register Rm => exact operandFields_registerName Rm rfl
  | byConstant Rm shift hexadecimal amount =>
    exact operandFields_registerName Rm (operandFields_shift shift _)
  | byRegister Rm shift Rs => exact operandFields_registerName Rm (operandFields_shift shift _)

theorem length_fields (o : Operand2) : o.fields.length ≤ 2 := by
  cases o <;> simp [Operand2.fields]

/-- A line is cut into its mnemonic and its operand fields. -/
theorem parseInstruction_tokens {line mnemonic : CString} {tokens fields : List CString}
    (hline : CString.strtok [' ', ',', '\n'] line = mnemonic :: tokens)
    (h : operandFields tokens = some fields) (hroom : fields.length ≤ 4) :
    parseInstruction line = some ⟨mnemonic, fields⟩ := by
  unfold parseInstruction
  simp [hline, h, hroom]

/-! ## Operand 2 in the assembler -/

/-- The register that `get_Operand2` finds before a shift. -/
def Operand2.foundRm (o : Operand2) : Nibble := if o.shift = .ror then 0 else o.Rm

/-- Bits 11 to 4 of the word. -/
def Operand2.shiftByte (o : Operand2) : Byte :=
  match o.amount with
  | Sum.inl amount => amount <<< 3 ||| (o.shift.code.setWidth 8 <<< 1)
  | Sum.inr Rs => Rs.setWidth 8 <<< 4 ||| (o.shift.code.setWidth 8 <<< 1) ||| 1

theorem findOperand2_registerName (previous : CString) (n : Nibble) (fields : List CString) :
    DataProcessing.findOperand2 previous (registerName n :: fields) =
      DataProcessing.findOperand2 (registerName n) fields := by
  simp [DataProcessing.findOperand2, registerName]

/-- The loop stops at a shift unless its name starts with `r`. -/
theorem findOperand2_shift (Rm : Nibble) (shift : Shift) (amount : CString) :
    DataProcessing.findOperand2 (registerName Rm) [shift.text ++ amount] =
      some (shift.text ++ amount, if shift = .ror then 0 else Rm.setWidth 8) := by
  cases shift <;>
    simp [DataProcessing.findOperand2, Shift.text, getRegister_registerName]

/-- What the assembler writes for the operand. -/
def Operand2.word (o : Operand2) : Word := (o.shiftByte.setWidth 32 <<< 4) ||| o.foundRm.setWidth 32

theorem setWidth_foundRm (Rm : Nibble) (shift : Shift) :
    (if shift = .ror then 0 else Rm : Nibble).setWidth 32 =
      (if shift = .ror then 0 else Rm.setWidth 8 : Byte).setWidth 32 := by
  split <;> decide +revert

theorem word_byConstant (Rm : Nibble) (shift : Shift) (hexadecimal : Bool) (amount : BitVec 5) :
    (Operand2.byConstant Rm shift hexadecimal amount).word =
      (BitVec.ofInt 32 amount.toNat <<< 7) |||
        (((shift.code.setWidth 8 + 1 - 1 : Byte).setWidth 32 <<< 5) |||
        (if shift = .ror then 0 else Rm.setWidth 8 : Byte).setWidth 32) := by
  have hbits :
      (amount.setWidth 8 <<< 3 ||| (shift.code.setWidth 8 <<< 1) : Byte).setWidth 32 <<< 4 =
      (BitVec.ofInt 32 amount.toNat <<< 7) |||
        ((shift.code.setWidth 8 + 1 - 1 : Byte).setWidth 32 <<< 5) := by
    cases shift <;> decide +revert
  rw [← BitVec.or_assoc, ← hbits, ← setWidth_foundRm]
  rfl

theorem word_byRegister (Rm : Nibble) (shift : Shift) (Rs : Nibble) :
    (Operand2.byRegister Rm shift Rs).word =
      ((Rs.setWidth 8).setWidth 32 <<< 8) ||| (1#32 <<< 4) |||
        (((shift.code.setWidth 8 + 1 - 1 : Byte).setWidth 32 <<< 5) |||
          (if shift = .ror then 0 else Rm.setWidth 8 : Byte).setWidth 32) := by
  have hbits :
      (Rs.setWidth 8 <<< 4 ||| (shift.code.setWidth 8 <<< 1) ||| 1 : Byte).setWidth 32 <<< 4 =
      ((Rs.setWidth 8).setWidth 32 <<< 8) ||| (1#32 <<< 4) |||
        ((shift.code.setWidth 8 + 1 - 1 : Byte).setWidth 32 <<< 5) := by
    cases shift <;> decide +revert
  rw [← BitVec.or_assoc, ← hbits, ← setWidth_foundRm]
  rfl

/-- **What `get_Operand2` returns**, for fields that hold the operand after at least one
register. -/
theorem getOperand2_fields (o : Operand2) (mnemonic : CString) (n : Nibble) (fields : List CString)
    (hroom : fields.length ≤ 3)
    (hfind : ∀ previous, DataProcessing.findOperand2 previous fields =
      DataProcessing.findOperand2 previous o.fields) :
    DataProcessing.getOperand2 ⟨mnemonic, registerName n :: fields⟩ = some o.word := by
  unfold DataProcessing.getOperand2
  simp only [List.getElem?_cons_zero, Option.bind_eq_bind, Option.bind_some, List.drop_succ_cons,
    List.drop_zero, List.take_of_length_le hroom, hfind]
  cases o with
  | register Rm =>
    simp only [Operand2.fields, findOperand2_registerName, DataProcessing.findOperand2,
      Option.bind_some, strtok_registerName, List.getElem?_cons_zero, getShift_registerName,
      getRegister_registerName]
    simp [registerName, Operand2.word, Operand2.shiftByte, Operand2.foundRm, Operand2.amount,
      Operand2.shift, Operand2.Rm, Shift.code]
  | byConstant Rm shift hexadecimal amount =>
    have hshift : shift.code.setWidth 8 + 1 ≠ (0 : Byte) := by
      cases shift <;> decide
    have hname : shift.text.head? ≠ some '#' := by
      cases shift <;> decide
    have hconstant : (constantText hexadecimal amount.toNat).head? ≠ some 'r' := by
      cases hexadecimal <;> simp [constantText]
    simp only [Operand2.fields, findOperand2_registerName, findOperand2_shift, Option.bind_some,
      strtok_byConstant, List.getElem?_cons_zero, List.getElem?_cons_succ, if_neg hname,
      if_pos hshift, if_neg hconstant, getShift_text, strtol_constantText, word_byConstant]
  | byRegister Rm shift Rs =>
    have hshift : shift.code.setWidth 8 + 1 ≠ (0 : Byte) := by
      cases shift <;> decide
    have hname : shift.text.head? ≠ some '#' := by
      cases shift <;> decide
    have hregister : (registerName Rs).head? = some 'r' := rfl
    simp only [Operand2.fields, findOperand2_registerName, findOperand2_shift, Option.bind_some,
      strtok_byRegister, List.getElem?_cons_zero, List.getElem?_cons_succ, if_neg hname,
      if_pos hshift, if_pos hregister, getShift_text, getRegister_registerName, word_byRegister]

/-! ## The bytes of the word -/

section Bytes

variable (b : Byte) (high low : Nibble)

theorem nibbleMask : (0xf : Byte) = (BitVec.allOnes 4).setWidth 8 := by decide

theorem getFirstNibble_or :
    Emulator.getFirstNibble (high.setWidth 8 <<< 4 ||| b >>> 4) = high := by
  unfold Emulator.getFirstNibble
  ext i hi
  simp only [BitVec.getElem_setWidth, BitVec.getLsbD_or, BitVec.getLsbD_ushiftRight,
    BitVec.getLsbD_shiftLeft, BitVec.getLsbD_setWidth]
  grind

theorem getSecondNibble_or :
    Emulator.getSecondNibble (b <<< 4 ||| low.setWidth 8) = low := by
  unfold Emulator.getSecondNibble
  rw [nibbleMask]
  ext i hi
  simp only [BitVec.getElem_setWidth, BitVec.getLsbD_or, BitVec.getLsbD_and,
    BitVec.getLsbD_shiftLeft, BitVec.getLsbD_setWidth, BitVec.getLsbD_allOnes]
  grind

/-- The emulator reads the shift across two bytes. -/
theorem getShift_or :
    Emulator.DataProcessing.getShift (high.setWidth 8 <<< 4 ||| b >>> 4)
      (b <<< 4 ||| low.setWidth 8) =
      b := by
  unfold Emulator.DataProcessing.getShift
  rw [nibbleMask]
  ext i hi
  simp only [BitVec.getElem_setWidth, BitVec.getElem_or, BitVec.getLsbD_or, BitVec.getElem_and,
    BitVec.getElem_ushiftRight, BitVec.getLsbD_shiftLeft, BitVec.getElem_shiftLeft,
    BitVec.getLsbD_setWidth, BitVec.getLsbD_allOnes]
  grind

end Bytes

/-- The shift byte in the third byte of the word. -/
theorem word_third (o : Operand2) : ((o.word >>> 8) &&& 0xf).setWidth 8 = o.shiftByte >>> 4 := by
  have hmask : (0xf : Word) = (BitVec.allOnes 4).setWidth 32 := by decide
  unfold Operand2.word
  rw [hmask]
  ext i hi
  simp only [BitVec.getElem_setWidth, BitVec.getLsbD_or, BitVec.getLsbD_and,
    BitVec.getLsbD_ushiftRight, BitVec.getElem_ushiftRight, BitVec.getLsbD_shiftLeft,
    BitVec.getLsbD_setWidth, BitVec.getLsbD_allOnes]
  grind

theorem word_fourth (o : Operand2) :
    o.word.setWidth 8 = o.shiftByte <<< 4 ||| o.foundRm.setWidth 8 := by
  unfold Operand2.word
  ext i hi
  simp only [BitVec.getElem_setWidth, BitVec.getLsbD_or, BitVec.getElem_or,
    BitVec.getLsbD_shiftLeft, BitVec.getElem_shiftLeft, BitVec.getLsbD_setWidth]
  grind

theorem word_immediate (o : Operand2) : (o.word >>> 12).setWidth 8 = (0 : Byte) := by
  unfold Operand2.word
  ext i hi
  simp only [BitVec.getElem_setWidth, BitVec.getLsbD_or, BitVec.getLsbD_ushiftRight,
    BitVec.getLsbD_shiftLeft, BitVec.getLsbD_setWidth]
  grind

/-! ## The word in the emulator -/

/-- The word that the assembler writes for a data processing instruction. -/
def emitted (m : Mnemonic) (setsFlags : Bool) (Rd Rn : Nibble) (o : Operand2) : Encoding :=
  DataProcessing.writeInstruction m.opCode (if setsFlags then 1 else 0) (Rn.setWidth 8)
    (Rd.setWidth 8) o.word

section Emitted

variable (m : Mnemonic) (setsFlags : Bool) (Rd Rn : Nibble) (o : Operand2)

theorem emitted_first :
    (emitted m setsFlags Rd Rn o).first = (0xe#8 <<< 4) ||| (m.opCode >>> 3) := by
  simp only [emitted, DataProcessing.writeInstruction, word_immediate]
  simp

theorem emitted_third :
    (emitted m setsFlags Rd Rn o).third = Rd.setWidth 8 <<< 4 ||| o.shiftByte >>> 4 := by
  simp only [emitted, DataProcessing.writeInstruction, word_third]

theorem emitted_fourth :
    (emitted m setsFlags Rd Rn o).fourth = o.shiftByte <<< 4 ||| o.foundRm.setWidth 8 := by
  simp only [emitted, DataProcessing.writeInstruction, word_fourth]

/-- The opcode, the S flag and `Rn` come back. -/
theorem emitted_second : Emulator.DataProcessing.getOpCode (emitted m setsFlags Rd Rn o).first
      (emitted m setsFlags Rd Rn o).second = m.opCode ∧
    Emulator.DataProcessing.getS (emitted m setsFlags Rd Rn o).second = setsFlags ∧
    Emulator.DataProcessing.getRn (emitted m setsFlags Rd Rn o).second = Rn := by
  obtain ⟨code, hcode⟩ : ∃ code : Nibble, m.opCode = code.setWidth 8 :=
    ⟨m.opCode.setWidth 4, by cases m <;> decide⟩
  rw [emitted_first, hcode]
  simp only [emitted, DataProcessing.writeInstruction, hcode]
  clear hcode
  cases setsFlags <;> decide +kernel +revert

theorem shiftByte_register (Rm : Nibble) : (Operand2.register Rm).shiftByte = 0 := by
  decide +revert

theorem shiftByte_byConstant (Rm : Nibble) (shift : Shift) (hexadecimal : Bool)
    (amount : BitVec 5) :
    (Operand2.byConstant Rm shift hexadecimal amount).shiftByte =
      amount.setWidth 8 <<< 3 ||| (shift.code.setWidth 8 <<< 1) := rfl

theorem shiftByte_byRegister (Rm : Nibble) (shift : Shift) (Rs : Nibble) :
    (Operand2.byRegister Rm shift Rs).shiftByte =
      Rs.setWidth 8 <<< 4 ||| (shift.code.setWidth 8 <<< 1) ||| 1 := rfl

theorem shiftByte_low : o.shiftByte &&& 0xf ≠ 9 := by
  cases o with
  | register Rm =>
    rw [shiftByte_register]
    decide
  | byConstant Rm shift hexadecimal amount =>
    rw [shiftByte_byConstant]
    cases shift <;> decide +revert
  | byRegister Rm shift Rs =>
    rw [shiftByte_byRegister]
    cases shift <;> decide +revert

/-- Bits 7 to 4 are 9 in a multiplication only. -/
theorem decode_emitted : Emulator.decode (emitted m setsFlags Rd Rn o) = .dataProcessing := by
  have hclass : (((0xe#8 <<< 4) ||| (m.opCode >>> 3)) >>> 2 &&& 3).toNat = 0 := by
    cases m <;> decide
  have hbits : ((o.shiftByte <<< 4) ||| o.foundRm.setWidth 8) >>> 4 = o.shiftByte &&& 0xf := by
    rw [nibbleMask]
    ext i hi
    simp only [BitVec.getElem_ushiftRight, BitVec.getLsbD_or, BitVec.getLsbD_shiftLeft,
      BitVec.getLsbD_setWidth, BitVec.getElem_and, BitVec.getElem_setWidth, BitVec.getLsbD_allOnes]
    grind
  unfold Emulator.decode
  rw [emitted_first, emitted_fourth, hclass, hbits]
  exact if_neg fun h => shiftByte_low o h.2.2

/-- What the emulator reads out of the shift byte. -/
theorem shiftByte_fields (high : Nibble) :
    (o.shiftByte &&& 6) >>> 1 = o.shift.code.setWidth 8 ∧
      (if o.shiftByte &&& 1 = 0 then Sum.inl (o.shiftByte >>> 3)
        else Sum.inr (Emulator.getSecondNibble (high.setWidth 8 <<< 4 ||| o.shiftByte >>> 4))) =
      o.amount := by
  cases o with
  | register Rm =>
    rw [shiftByte_register]
    exact ⟨rfl, rfl⟩
  | byConstant Rm shift hexadecimal amount =>
    rw [shiftByte_byConstant]
    have hlow : (amount.setWidth 8 <<< 3 ||| (shift.code.setWidth 8 <<< 1) : Byte) &&& 1 = 0 := by
      cases shift <;> decide +revert
    have hhigh : (amount.setWidth 8 <<< 3 ||| (shift.code.setWidth 8 <<< 1) : Byte) >>> 3 =
        amount.setWidth 8 := by
      cases shift <;> decide +revert
    rw [if_pos hlow, hhigh]
    refine ⟨?_, rfl⟩
    clear hlow hhigh
    cases shift <;> decide +revert
  | byRegister Rm shift Rs =>
    rw [shiftByte_byRegister]
    have hlow : (Rs.setWidth 8 <<< 4 ||| (shift.code.setWidth 8 <<< 1) ||| 1 : Byte) &&& 1 ≠ 0 := by
      cases shift <;> decide +revert
    have hhigh : (Rs.setWidth 8 <<< 4 ||| (shift.code.setWidth 8 <<< 1) ||| 1 : Byte) >>> 4 =
        Rs.setWidth 8 := by
      cases shift <;> decide +revert
    rw [if_neg hlow, hhigh, getSecondNibble_or]
    refine ⟨?_, rfl⟩
    clear hlow hhigh
    cases shift <;> decide +revert

/-- **The word of a data processing instruction in the emulator.** -/
theorem operands_emitted : Emulator.DataProcessing.operands (emitted m setsFlags Rd Rn o) =
    { RegisterInstruction.operands m setsFlags Rd Rn o with Rm := o.foundRm } := by
  obtain ⟨hopCode, hS, hRn⟩ := emitted_second m setsFlags Rd Rn o
  obtain ⟨htype, hamount⟩ := shiftByte_fields o Rd
  simp only [Emulator.DataProcessing.operands, hopCode, hS, hRn, RegisterInstruction.operands,
    emitted_third, emitted_fourth, getShift_or, getSecondNibble_or, Emulator.DataProcessing.getRd,
    getFirstNibble_or, htype, hamount]

theorem getImmediateOperand_emitted :
    Emulator.DataProcessing.getImmediateOperand (emitted m setsFlags Rd Rn o).first = 0 := by
  rw [emitted_first]
  cases m <;> decide

/-- The emulator gets the operands right iff the assembler found `Rm`. -/
theorem processes_emitted : RegisterInstruction.Processes (emitted m setsFlags Rd Rn o)
    (RegisterInstruction.operands m setsFlags Rd Rn o) ↔ o.Fits := by
  constructor
  · intro h hror
    have hoperands := h.operands
    rw [operands_emitted] at hoperands
    have hRm : o.foundRm = o.Rm := congrArg Emulator.DataProcessing.Operands.Rm hoperands
    rw [Operand2.foundRm, if_pos hror] at hRm
    exact hRm.symm
  · intro hfits
    have hRm : o.foundRm = o.Rm := by
      unfold Operand2.foundRm
      split
      · rename_i hror
        exact (hfits hror).symm
      · rfl
    have hoperands := operands_emitted m setsFlags Rd Rn o
    rw [hRm] at hoperands
    refine ⟨decode_emitted m setsFlags Rd Rn o, hoperands, fun machine => ?_⟩
    unfold Emulator.execute
    rw [decode_emitted]
    simp only [Emulator.DataProcessing.execute_operands
      (getImmediateOperand_emitted m setsFlags Rd Rn o),
      hoperands]
    rfl

end Emitted

/-! ## Multiplications -/

/-- The word that the assembler writes for a multiplication. -/
def multiplication (Rd Rm Rs : Nibble) (Rn : Option Nibble) : Encoding where
  first := 0xe#8 <<< 4
  second := match Rn with
    | none => Rd.setWidth 8
    | some _ => Rd.setWidth 8 ||| (0x2#8 <<< 4)
  third := match Rn with
    | none => Rs.setWidth 8
    | some Rn => Rs.setWidth 8 ||| (Rn.setWidth 8 <<< 4)
  fourth := (0x9#8 <<< 4) ||| Rm.setWidth 8

section Multiplication

variable (Rd Rm Rs : Nibble)

theorem multiplication_fourth : ((0x9#8 <<< 4) ||| Rm.setWidth 8) >>> 4 = 9 ∧
    Emulator.Multiply.getRm ((0x9#8 <<< 4) ||| Rm.setWidth 8) = Rm := by
  decide +revert

/-- The second byte of a `mul`. -/
theorem mul_second : Rd.setWidth 8 >>> 6 = (0 : Byte) ∧
    Emulator.Multiply.getRd (Rd.setWidth 8) = Rd ∧
    Emulator.Multiply.getA (Rd.setWidth 8) = false ∧
    Emulator.Multiply.getS (Rd.setWidth 8) = false := by
  decide +revert

theorem mul_third : Emulator.Multiply.getRs (Rs.setWidth 8) = Rs := by
  decide +revert

/-- The second byte of a `mla`. -/
theorem mla_second : (Rd.setWidth 8 ||| (0x2#8 <<< 4)) >>> 6 = 0 ∧
    Emulator.Multiply.getRd (Rd.setWidth 8 ||| (0x2#8 <<< 4)) = Rd ∧
    Emulator.Multiply.getA (Rd.setWidth 8 ||| (0x2#8 <<< 4)) = true ∧
    Emulator.Multiply.getS (Rd.setWidth 8 ||| (0x2#8 <<< 4)) = false := by
  decide +revert

theorem mla_third (Rn : Nibble) :
    Emulator.Multiply.getRs (Rs.setWidth 8 ||| (Rn.setWidth 8 <<< 4)) = Rs ∧
      Emulator.Multiply.getRn (Rs.setWidth 8 ||| (Rn.setWidth 8 <<< 4)) = Rn := by
  decide +revert

theorem decode_multiplication (Rn : Option Nibble) :
    Emulator.decode (multiplication Rd Rm Rs Rn) = .multiply := by
  have hsecond : (multiplication Rd Rm Rs Rn).second >>> 6 = 0 := by
    cases Rn with
    | none => exact (mul_second Rd).1
    | some Rn => exact (mla_second Rd).1
  unfold Emulator.decode
  rw [hsecond]
  simp only [multiplication, multiplication_fourth]
  rfl

theorem factors_multiplication (Rn : Option Nibble) :
    Emulator.Multiply.factors (multiplication Rd Rm Rs Rn) = ⟨Rd, Rm, Rs, Rn, false⟩ := by
  cases Rn with
  | none =>
    simp only [Emulator.Multiply.factors, multiplication, multiplication_fourth, mul_second,
      mul_third]
    rfl
  | some Rn =>
    simp only [Emulator.Multiply.factors, multiplication, multiplication_fourth, mla_second,
      mla_third, if_true]

theorem multiplies_multiplication (Rn : Option Nibble) :
    RegisterInstruction.Multiplies (multiplication Rd Rm Rs Rn) ⟨Rd, Rm, Rs, Rn, false⟩ := by
  refine ⟨decode_multiplication Rd Rm Rs Rn, factors_multiplication Rd Rm Rs Rn, fun machine => ?_⟩
  unfold Emulator.execute
  rw [decode_multiplication, ← factors_multiplication, ← Emulator.Multiply.execute_factors]

end Multiplication

/-! ## From the line to the word -/

namespace RegisterInstruction

/-- The word that the assembler writes. -/
def word : RegisterInstruction → Encoding
  | mov Rd operand2 => emitted .mov false Rd 0 operand2
  | compare m Rn operand2 => emitted m.1 true 0 Rn operand2
  | compute m Rd Rn operand2 => emitted m.1 false Rd Rn operand2
  | mul Rd Rm Rs => multiplication Rd Rm Rs none
  | mla Rd Rm Rs Rn => multiplication Rd Rm Rs (some Rn)

/-- The operand fields of the instruction. -/
def fields : RegisterInstruction → List CString
  | mov Rd operand2 => registerName Rd :: operand2.fields
  | compare _ Rn operand2 => registerName Rn :: operand2.fields
  | compute _ Rd Rn operand2 => registerName Rd :: registerName Rn :: operand2.fields
  | mul Rd Rm Rs => [Rd, Rm, Rs].map registerName
  | mla Rd Rm Rs Rn => [Rd, Rm, Rs, Rn].map registerName

/-- The mnemonic of the line. -/
def mnemonic : RegisterInstruction → Mnemonic
  | mov _ _ => .mov
  | compare m _ _ | compute m _ _ _ => m.1
  | mul _ _ _ => .mul
  | mla _ _ _ _ => .mla

variable {line : CString} (source : RegisterInstruction)

theorem parseInstruction_line (hline : CString.strtok [' ', ',', '\n'] line = source.tokens) :
    parseInstruction line = some ⟨source.mnemonic.text, source.fields⟩ := by
  cases source with
  | mov Rd o =>
    have hfields := operandFields_registerName Rd (operandFields_tokens o)
    have hroom : (registerName Rd :: o.fields).length ≤ 3 := Nat.succ_le_succ (length_fields o)
    exact parseInstruction_tokens hline hfields (Nat.le_succ_of_le hroom)
  | compare m Rn o =>
    have hfields := operandFields_registerName Rn (operandFields_tokens o)
    have hroom : (registerName Rn :: o.fields).length ≤ 3 := Nat.succ_le_succ (length_fields o)
    exact parseInstruction_tokens hline hfields (Nat.le_succ_of_le hroom)
  | compute m Rd Rn o =>
    have hfields :=
      operandFields_registerName Rd (operandFields_registerName Rn (operandFields_tokens o))
    have hroom : (registerName Rd :: registerName Rn :: o.fields).length ≤ 4 :=
      Nat.succ_le_succ (Nat.succ_le_succ (length_fields o))
    exact parseInstruction_tokens hline hfields hroom
  | mul Rd Rm Rs =>
    have hnil : operandFields [] = some [] := rfl
    have hfields := operandFields_registerName Rd (operandFields_registerName Rm
      (operandFields_registerName Rs hnil))
    exact parseInstruction_tokens hline hfields (Nat.le_succ 3)
  | mla Rd Rm Rs Rn =>
    have hnil : operandFields [] = some [] := rfl
    have hfields := operandFields_registerName Rd (operandFields_registerName Rm
      (operandFields_registerName Rs (operandFields_registerName Rn hnil)))
    exact parseInstruction_tokens hline hfields (Nat.le_refl 4)

theorem assemble_mov (Rd : Nibble) (o : Operand2) :
    DataProcessing.assemble ⟨Mnemonic.mov.text, registerName Rd :: o.fields⟩ =
      some (emitted .mov false Rd 0 o) := by
  have hoperand2 := getOperand2_fields o Mnemonic.mov.text Rd o.fields
    (Nat.le_succ_of_le (length_fields o)) fun _ => rfl
  unfold DataProcessing.assemble
  simp only [getMnemonic_text, Option.bind_eq_bind, Option.bind_some, DataProcessing.movInstruction,
    List.getElem?_cons_zero, getRegister_registerName, hoperand2]
  rfl

theorem assemble_compare {m : Mnemonic} (hm : m ∈ comparisons) (Rn : Nibble) (o : Operand2) :
    DataProcessing.assemble ⟨m.text, registerName Rn :: o.fields⟩ =
      some (emitted m true 0 Rn o) := by
  have hoperand2 := getOperand2_fields o m.text Rn o.fields
    (Nat.le_succ_of_le (length_fields o)) fun _ => rfl
  simp only [comparisons, List.mem_cons, List.not_mem_nil, or_false] at hm
  unfold DataProcessing.assemble
  obtain rfl | rfl | rfl := hm <;>
    simp only [getMnemonic_text, Option.bind_eq_bind, Option.bind_some,
      DataProcessing.cpsrInstruction, List.getElem?_cons_zero, getRegister_registerName,
      hoperand2] <;> rfl

theorem assemble_compute {m : Mnemonic} (hm : m ∈ computations) (Rd Rn : Nibble) (o : Operand2) :
    DataProcessing.assemble ⟨m.text, registerName Rd :: registerName Rn :: o.fields⟩ =
      some (emitted m false Rd Rn o) := by
  have hoperand2 := getOperand2_fields o m.text Rd (registerName Rn :: o.fields)
    (Nat.succ_le_succ (length_fields o)) fun previous => by
      rw [findOperand2_registerName]
      cases o <;> rw [Operand2.fields, findOperand2_registerName, findOperand2_registerName]
  simp only [computations, List.mem_cons, List.not_mem_nil, or_false] at hm
  unfold DataProcessing.assemble
  obtain rfl | rfl | rfl | rfl | rfl | rfl := hm <;>
    simp only [getMnemonic_text, Option.bind_eq_bind, Option.bind_some,
      DataProcessing.computeInstruction, List.getElem?_cons_zero, List.getElem?_cons_succ,
      getRegister_registerName, hoperand2] <;> rfl

/-- The mnemonics that go to `assemble_data_processing`. -/
theorem assembleInstruction_dataProcessing {m : Mnemonic} {fields : List CString}
    {word : Encoding} (hm : m ∈ .mov :: (comparisons ++ computations))
    (hword : DataProcessing.assemble ⟨m.text, fields⟩ = some word) (pass : FirstPass) (address : ℤ)
    (pool : Pool) : assembleInstruction pass ⟨m.text, fields⟩ address pool = some (word, pool) := by
  unfold assembleInstruction
  rw [getMnemonic_text, hword]
  simp only [comparisons, computations, List.cons_append, List.nil_append, List.mem_cons,
    List.not_mem_nil, or_false] at hm
  obtain rfl | rfl | rfl | rfl | rfl | rfl | rfl | rfl | rfl | rfl := hm <;> rfl

theorem assembleInstruction_fields (pass : FirstPass) (address : ℤ) (pool : Pool) :
    assembleInstruction pass ⟨source.mnemonic.text, source.fields⟩ address pool =
      some (source.word, pool) := by
  cases source with
  | mov Rd o =>
    exact assembleInstruction_dataProcessing List.mem_cons_self (assemble_mov Rd o) pass address
      pool
  | compare m Rn o =>
    exact assembleInstruction_dataProcessing
      (List.mem_cons_of_mem _ (List.mem_append_left _ m.2)) (assemble_compare m.2 Rn o) pass address
      pool
  | compute m Rd Rn o =>
    exact assembleInstruction_dataProcessing
      (List.mem_cons_of_mem _ (List.mem_append_right _ m.2)) (assemble_compute m.2 Rd Rn o) pass
      address pool
  | mul Rd Rm Rs =>
    unfold assembleInstruction assembleMultiply
    simp only [mnemonic, fields, getMnemonic_text, List.map_cons, List.map_nil,
      List.getElem?_cons_zero, List.getElem?_cons_succ, Option.bind_eq_bind, Option.bind_some,
      getRegister_registerName]
    rfl
  | mla Rd Rm Rs Rn =>
    unfold assembleInstruction assembleMultiply
    simp only [mnemonic, fields, getMnemonic_text, List.map_cons, List.map_nil,
      List.getElem?_cons_zero, List.getElem?_cons_succ, Option.bind_eq_bind, Option.bind_some,
      getRegister_registerName]
    rfl

theorem agrees_word : source.Agrees source.word ↔ source.Fits := by
  cases source with
  | mov Rd o => exact processes_emitted .mov false Rd 0 o
  | compare m Rn o => exact processes_emitted m.1 true 0 Rn o
  | compute m Rd Rn o => exact processes_emitted m.1 false Rd Rn o
  | mul Rd Rm Rs => exact iff_true_intro (multiplies_multiplication Rd Rm Rs none)
  | mla Rd Rm Rs Rn => exact iff_true_intro (multiplies_multiplication Rd Rm Rs (some Rn))

/-- **Register operands.** -/
theorem operands_iff (hline : CString.strtok [' ', ',', '\n'] line = source.tokens)
    (pass : FirstPass) (address : ℤ) (pool : Pool) :
    (∃ instruction word, parseInstruction line = some instruction ∧
      assembleInstruction pass instruction address pool = some (word, pool) ∧
      source.Agrees word) ↔ source.Fits := by
  rw [← agrees_word]
  constructor
  · rintro ⟨instruction, word, hparse, hassemble, hagrees⟩
    rw [parseInstruction_line source hline] at hparse
    cases hparse
    rw [assembleInstruction_fields] at hassemble
    cases hassemble
    exact hagrees
  · intro hagrees
    exact ⟨_, _, parseInstruction_line source hline,
      assembleInstruction_fields source pass address pool, hagrees⟩

/-! ## Two lines -/

/-- `add r1,r2,r3,lsl #2`. -/
def shiftedAdd : RegisterInstruction :=
  .compute ⟨.add, by decide⟩ 1 2 (.byConstant 3 .lsl false 2)

/-- `mov r1,r2,ror #3`. -/
def rotatedMov : RegisterInstruction := .mov 1 (.byConstant 2 .ror false 3)

theorem operands_shiftedAdd : ∃ instruction word,
    parseInstruction "add r1,r2,r3,lsl #2\n".toList = some instruction ∧
      assembleInstruction (FirstPass.start Heap.zeroed) instruction 0 ⟨fun _ => 0, 0⟩ =
        some (word, ⟨fun _ => 0, 0⟩) ∧ shiftedAdd.Agrees word :=
  (operands_iff shiftedAdd (by decide +kernel) (FirstPass.start Heap.zeroed) 0
    ⟨fun _ => 0, 0⟩).mpr
    fun hror => nomatch hror

/-- The word names `r0` in place of `r2`. -/
theorem operands_rotatedMov :
    CString.strtok [' ', ',', '\n'] "mov r1,r2,ror #3\n".toList = rotatedMov.tokens ∧
      ¬ ∃ instruction word, parseInstruction "mov r1,r2,ror #3\n".toList = some instruction ∧
        assembleInstruction (FirstPass.start Heap.zeroed) instruction 0 ⟨fun _ => 0, 0⟩ =
          some (word, ⟨fun _ => 0, 0⟩) ∧ rotatedMov.Agrees word := by
  have hline : CString.strtok [' ', ',', '\n'] "mov r1,r2,ror #3\n".toList = rotatedMov.tokens := by
    decide +kernel
  refine ⟨hline, ?_⟩
  rintro ⟨instruction, word, hparse, hassemble, hagrees⟩
  rw [parseInstruction_line rotatedMov hline] at hparse
  cases hparse
  rw [assembleInstruction_fields] at hassemble
  cases hassemble
  have hRm : (2 : Nibble) = 0 := (agrees_word rotatedMov).mp hagrees rfl
  exact absurd hRm (by decide)

end RegisterInstruction

end DocMachine.Arm.Assembler
