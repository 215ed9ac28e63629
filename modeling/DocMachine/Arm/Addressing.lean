import DocMachine.Arm.Offset
import DocMachine.Arm.Operands

/-!
# Loads and stores in the two programs

A load or store with a base register and an immediate offset, pre-indexed or post-indexed, as
`assemble_single_data_transfer` (`assembler/single_data_transfer/single_data_transfer.c` 180-259)
reads it from a line and `execute_single_data_transfer`
(`emulator/single_data_transfer/single_data_transfer.c` 75-125, 183-204, 235-266) executes its word.

* `TransferInstruction` is the instruction of the language, with an offset that 12 bits can hold,
  and `TransferInstruction.run` what it should do: access the base register plus the offset, or
  access the base register and then add the offset to what it held.
* The access itself, with the end of the memory and the GPIO, is the emulator's own `load` and
  `store` on both sides; the statement is about the address and the base register.
* The assembler stores 12 bits of offset, but the emulator takes them for an 8-bit constant with a
  rotation, as in operand 2 of a data processing instruction (`rotate_eq_iff`).
* After a post-indexed load the emulator adds the offset to what the base register holds by then,
  which is the loaded word if `Rd` is the base register.

Results:
* `parseBaseRegisterNumber_address`, `isPreIndexingAddress_address` and
  `parseOffsetByExpression_address`: the assembler reads the three parts of the address.
* `execute_word`: what the emulator does with the word.
* `offsets_iff`: the emulator does what the instruction should do, on every machine, iff the offset
  is at most 255 in absolute value and the instruction is not a post-indexed load of its own base
  register.
* `load_probe` and `store_probe`: machines on which two addresses, one of them 0, are told apart.
  The converse of `offsets_iff` rests on them.
-/

namespace DocMachine.Arm.Assembler

open DocMachine.Lib

/-! ## The instructions -/

/-- A load or store of `Rd` with the base register `Rn` and an offset of at most 12 bits. -/
structure TransferInstruction where
  load : Bool
  preIndexed : Bool
  Rd : Nibble
  Rn : Nibble
  offset : ℤ
  inRange : offset.natAbs ≤ 4095

namespace TransferInstruction

/-- `ldr` or `str`. -/
def mnemonic (t : TransferInstruction) : Mnemonic := if t.load then .ldr else .str

/-- The operand fields: the address is `[Rn, #offset]` or `[Rn], #offset`. -/
def fields (t : TransferInstruction) : List CString :=
  if t.preIndexed then
    [registerName t.Rd, '[' :: registerName t.Rn, '#' :: CString.signedDecimal t.offset ++ [']']]
  else [registerName t.Rd, '[' :: registerName t.Rn ++ [']'], '#' :: CString.signedDecimal t.offset]

/-- The line of the instruction, cut into tokens. -/
def tokens (t : TransferInstruction) : List CString := t.mnemonic.text :: t.fields

/-- The access to the memory. -/
def access (t : TransferInstruction) (address : Word) (m : Emulator.Machine) :
    Option Emulator.Machine :=
  if t.load then Emulator.SingleDataTransfer.load address (Emulator.reg t.Rd) m
  else Emulator.SingleDataTransfer.store address (Emulator.reg t.Rd) m

/-- **What the instruction should do**: access the base register plus the offset, or access the
base register and then set it to its old value plus the offset. -/
def run (t : TransferInstruction) (m : Emulator.Machine) : Option Emulator.Machine :=
  let base := m.registers (Emulator.reg t.Rn)
  let moved := base + BitVec.ofInt 32 t.offset
  if t.preIndexed then t.access moved m
  else (t.access base m).map fun m => m.setRegister (Emulator.reg t.Rn) moved

/-- The emulator takes the word for a load or store and does what it should do. -/
structure Agrees (t : TransferInstruction) (word : Encoding) : Prop where
  decoded : Emulator.decode word = .singleDataTransfer
  executes : ∀ m, Emulator.SingleDataTransfer.execute word m = t.run m

/-- A small offset, and no post-indexed load of the base register. -/
def Fits (t : TransferInstruction) : Prop :=
  t.offset.natAbs ≤ 255 ∧ ¬ (t.load = true ∧ t.preIndexed = false ∧ t.Rd = t.Rn)

end TransferInstruction

/-! ## The address in the assembler -/

theorem registerName_cases (n : Nibble) :
    ((CString.decimal n.toNat).length = 1 ∨
      (CString.decimal n.toNat).length = 2 ∧
        (CString.decimal n.toNat)[1]?.any SingleDataTransfer.isDigit = true) ∧
      CString.atoi (CString.decimal n.toNat) = n.toNat := by
  decide +revert

/-- The base register is read up to the first character that is no digit. -/
theorem parseBaseRegisterNumber_registerName (n : Nibble) {c : Char} {s : CString}
    (hc : SingleDataTransfer.isDigit c = false) :
    SingleDataTransfer.parseBaseRegisterNumber ('[' :: registerName n ++ c :: s) =
      some (n.toNat : ℤ) := by
  obtain ⟨hlength, hvalue⟩ := registerName_cases n
  have hdrop : ('[' :: registerName n ++ c :: s).dropWhile (· ≠ 'r') =
      registerName n ++ c :: s := rfl
  unfold SingleDataTransfer.parseBaseRegisterNumber
  rw [hdrop]
  simp only [registerName, List.cons_append]
  generalize CString.decimal n.toNat = digits at *
  obtain hone | ⟨htwo, hdigit⟩ := hlength
  · obtain ⟨a, rfl⟩ := List.length_eq_one_iff.mp hone
    simp [hc, hvalue]
  · obtain ⟨a, b, rfl⟩ := List.length_eq_two.mp htwo
    simp only [List.getElem?_cons_succ, List.getElem?_cons_zero, Option.any_some] at hdigit
    simp [hdigit, hvalue]

/-- The characters of an offset, and none that ends it. -/
theorem offset_char {z : ℤ} {c : Char} (h : c ∈ CString.signedDecimal z) :
    (SingleDataTransfer.isDigit c || c = '-') = true ∧ c ≠ ']' := by
  obtain hdigit | rfl := CString.mem_signedDecimal h
  · have hdigit' : SingleDataTransfer.isDigit c = true := by
      simpa [Char.isDigit, SingleDataTransfer.isDigit, Char.le_def] using hdigit
    refine ⟨by simp [hdigit'], ?_⟩
    rintro rfl
    exact absurd hdigit (by decide)
  · decide

namespace TransferInstruction

variable (t : TransferInstruction)

/-- The address without what separated its fields: what is between the name of the register and
the offset, and what is after the offset. -/
def middle : CString := if t.preIndexed then [] else [']']

/-- The character that ends the address of a pre-indexed line. -/
def last : CString := if t.preIndexed then [']'] else []

theorem getAddress_fields : SingleDataTransfer.getAddress t.fields =
    '[' :: registerName t.Rn ++ (t.middle ++ '#' ::
      (CString.signedDecimal t.offset ++ t.last)) := by
  unfold SingleDataTransfer.getAddress fields middle last
  cases t.preIndexed <;> simp

/-- The base register. -/
theorem parseBaseRegisterNumber_address :
    SingleDataTransfer.parseBaseRegisterNumber (SingleDataTransfer.getAddress t.fields) =
      some (t.Rn.toNat : ℤ) := by
  rw [getAddress_fields]
  cases hpre : t.preIndexed
  · rw [middle, if_neg (by simp [hpre])]
    exact parseBaseRegisterNumber_registerName t.Rn (by decide)
  · rw [middle, if_pos hpre]
    exact parseBaseRegisterNumber_registerName t.Rn (by decide)

/-- The address ends with a bracket iff it is pre-indexed. -/
theorem isPreIndexingAddress_address :
    SingleDataTransfer.isPreIndexingAddress (SingleDataTransfer.getAddress t.fields) =
      t.preIndexed := by
  have hlast : (SingleDataTransfer.getAddress t.fields).getLast? =
      (CString.signedDecimal t.offset ++ t.last).getLast? := by
    have hne : CString.signedDecimal t.offset ++ t.last ≠ [] := by
      simp [CString.signedDecimal_ne_nil]
    rw [getAddress_fields, List.getLast?_append_of_ne_nil _ (by simp),
      List.getLast?_append_of_ne_nil _ (by simp), ← List.singleton_append,
      List.getLast?_append_of_ne_nil _ hne]
  have hhead : (SingleDataTransfer.getAddress t.fields).head? = some '[' := by
    rw [getAddress_fields]
    rfl
  unfold SingleDataTransfer.isPreIndexingAddress
  rw [hlast, hhead]
  cases hpre : t.preIndexed
  · rw [last, if_neg (by simp [hpre]), List.append_nil,
      List.getLast?_eq_some_getLast CString.signedDecimal_ne_nil]
    have hchar := (offset_char (List.getLast_mem (l := CString.signedDecimal t.offset)
      CString.signedDecimal_ne_nil)).2
    simp [hchar]
  · rw [last, if_pos hpre]
    simp

theorem isZeroOffset_address :
    SingleDataTransfer.isZeroOffset (SingleDataTransfer.getAddress t.fields) = false := by
  have hregister : 2 ≤ (registerName t.Rn).length := by
    generalize t.Rn = n
    decide +revert
  have hoffset : 1 ≤ (CString.signedDecimal t.offset).length :=
    List.length_pos_iff.mpr CString.signedDecimal_ne_nil
  have hbracket : t.middle.length + t.last.length = 1 := by
    unfold middle last
    cases t.preIndexed <;> rfl
  have hlength : 6 ≤ (SingleDataTransfer.getAddress t.fields).length := by
    rw [getAddress_fields]
    simp only [List.length_append, List.length_cons]
    omega
  simp only [SingleDataTransfer.isZeroOffset, Bool.or_eq_false_iff, decide_eq_false_iff_not]
  omega

theorem isOffsetByExpression_address :
    SingleDataTransfer.isOffsetByExpression (SingleDataTransfer.getAddress t.fields) = true := by
  rw [getAddress_fields]
  simp [SingleDataTransfer.isOffsetByExpression]

/-- The offset. -/
theorem parseOffsetByExpression_address :
    SingleDataTransfer.parseOffsetByExpression (SingleDataTransfer.getAddress t.fields) =
      t.offset := by
  have hregister : ('[' :: registerName t.Rn).all (· ≠ '#') = true := by
    generalize t.Rn = n
    decide +revert
  have hmiddle : t.middle.all (· ≠ '#') = true := by
    unfold middle
    split <;> decide
  rw [List.all_eq_true] at hregister hmiddle
  have hoffset : ∀ c ∈ CString.signedDecimal t.offset,
      (SingleDataTransfer.isDigit c || decide (c = '-')) = true := fun c hc => (offset_char hc).1
  have htake : (CString.signedDecimal t.offset ++ t.last).takeWhile
      (fun c => SingleDataTransfer.isDigit c || decide (c = '-')) =
        CString.signedDecimal t.offset := by
    rw [List.takeWhile_append_of_pos hoffset]
    unfold last
    split <;> simp [SingleDataTransfer.isDigit]
  have hrange := t.inRange
  unfold SingleDataTransfer.parseOffsetByExpression
  rw [getAddress_fields, List.dropWhile_append_of_pos hregister,
    List.dropWhile_append_of_pos hmiddle, List.dropWhile_cons, if_neg (by simp), List.tail_cons,
    htake]
  exact CString.atoi_signedDecimal (by omega) (by omega)

/-! ## The word -/

/-- The word that the assembler writes. -/
def word : Word :=
  let result := SingleDataTransfer.setRd
    (SingleDataTransfer.setCond SingleDataTransfer.getSdtInstructionTemplate)
      (t.Rd.setWidth 8).toNat
  let result := if t.load then SingleDataTransfer.setL result else result
  let result := SingleDataTransfer.setRn result t.Rn.toNat
  let result := if t.preIndexed then SingleDataTransfer.setP result else result
  SingleDataTransfer.setOffset (if 0 < t.offset then SingleDataTransfer.setU result else result)
    t.offset

theorem isLdrInstruction_mnemonic :
    SingleDataTransfer.isLdrInstruction t.mnemonic.text = t.load := by
  unfold mnemonic
  cases t.load <;> decide

theorem encode_fields :
    SingleDataTransfer.encode ⟨t.mnemonic.text, t.fields⟩ (t.Rd.setWidth 8)
      (SingleDataTransfer.getAddress t.fields) = some t.word := by
  unfold SingleDataTransfer.encode
  rw [parseBaseRegisterNumber_address, isPreIndexingAddress_address, isZeroOffset_address,
    isOffsetByExpression_address, parseOffsetByExpression_address, isLdrInstruction_mnemonic]
  rfl

theorem getNthByte_or (n : ℕ) (v w : Word) :
    getNthByte n (v ||| w) = getNthByte n v ||| getNthByte n w := by
  simp [getNthByte, BitVec.ushiftRight_or_distrib, BitVec.setWidth_or]

/-- The high four bits of the offset and the low eight. -/
def offsetHigh : Nibble := BitVec.ofNat 4 (t.offset.natAbs / 256)

/-- The low byte of the offset, which is all of it that is used if it fits. -/
def offsetLow : Byte := BitVec.ofNat 8 t.offset.natAbs

theorem Rd_bytes (n : Nibble) :
    getNthByte 1 (BitVec.ofInt 32 ((n.setWidth 8).toNat : ℤ) <<< 12) = 0#8 ∧
      getNthByte 2 (BitVec.ofInt 32 ((n.setWidth 8).toNat : ℤ) <<< 12) = 0#8 ∧
      getNthByte 3 (BitVec.ofInt 32 ((n.setWidth 8).toNat : ℤ) <<< 12) = n.setWidth 8 <<< 4 ∧
      getNthByte 4 (BitVec.ofInt 32 ((n.setWidth 8).toNat : ℤ) <<< 12) = 0#8 := by
  decide +revert

theorem Rn_bytes (n : Nibble) :
    getNthByte 1 (BitVec.ofInt 32 (n.toNat : ℤ) <<< 16) = 0#8 ∧
      getNthByte 2 (BitVec.ofInt 32 (n.toNat : ℤ) <<< 16) = n.setWidth 8 ∧
      getNthByte 3 (BitVec.ofInt 32 (n.toNat : ℤ) <<< 16) = 0#8 ∧
      getNthByte 4 (BitVec.ofInt 32 (n.toNat : ℤ) <<< 16) = 0#8 := by
  decide +revert

theorem offset_bytes :
    getNthByte 1 (BitVec.ofNat 32 t.offset.natAbs) = 0#8 ∧
      getNthByte 2 (BitVec.ofNat 32 t.offset.natAbs) = 0#8 ∧
      getNthByte 3 (BitVec.ofNat 32 t.offset.natAbs) = t.offsetHigh.setWidth 8 ∧
      getNthByte 4 (BitVec.ofNat 32 t.offset.natAbs) = t.offsetLow := by
  have hrange := t.inRange
  have hsmall : t.offset.natAbs % 2 ^ 32 = t.offset.natAbs := Nat.mod_eq_of_lt (by omega)
  unfold offsetHigh offsetLow getNthByte
  refine ⟨?_, ?_, ?_, ?_⟩ <;>
    apply BitVec.eq_of_toNat_eq <;>
    simp only [BitVec.toNat_setWidth, BitVec.toNat_ushiftRight, BitVec.toNat_ofNat, hsmall,
      Nat.shiftRight_eq_div_pow] <;>
    omega

/-- The bits of the word that are no register and no offset. -/
def flags (up load preIndexed : Bool) : Word :=
  0xe4000000#32 ||| (if up then 1#32 <<< 23 else 0#32) |||
    (if load then 1#32 <<< 20 else 0#32) ||| if preIndexed then 1#32 <<< 24 else 0#32

theorem flags_bytes (up load preIndexed : Bool) : Encoding.ofWord (flags up load preIndexed) =
    { first := 0xe4 ||| if preIndexed then 1 else 0
      second := (if up then 0x80 else 0) ||| if load then 0x10 else 0
      third := 0#8
      fourth := 0#8 } := by
  decide +revert

theorem word_eq : t.word = flags (decide (0 < t.offset)) t.load t.preIndexed |||
    BitVec.ofInt 32 ((t.Rd.setWidth 8).toNat : ℤ) <<< 12 |||
      BitVec.ofInt 32 (t.Rn.toNat : ℤ) <<< 16 |||
      BitVec.ofNat 32 t.offset.natAbs := by
  have htemplate : SingleDataTransfer.setCond SingleDataTransfer.getSdtInstructionTemplate =
      0xe4000000#32 := by decide
  simp only [word, SingleDataTransfer.setRd, SingleDataTransfer.setRn, SingleDataTransfer.setOffset,
    SingleDataTransfer.setL, SingleDataTransfer.setP, SingleDataTransfer.setU,
    SingleDataTransfer.setNthBit, flags, htemplate]
  generalize BitVec.ofInt 32 ((t.Rd.setWidth 8).toNat : ℤ) <<< 12 = Rd
  generalize BitVec.ofInt 32 (t.Rn.toNat : ℤ) <<< 16 = Rn
  generalize BitVec.ofNat 32 t.offset.natAbs = offset
  generalize (1#32 <<< 23 : Word) = U
  generalize (1#32 <<< 20 : Word) = L
  generalize (1#32 <<< 24 : Word) = P
  cases t.load <;> cases t.preIndexed <;> by_cases hU : 0 < t.offset <;>
    simp only [hU, decide_true, decide_false, if_true, if_false, BitVec.or_zero,
      Bool.false_eq_true] <;>
    ac_rfl

/-- The four bytes of the word. -/
theorem ofWord_word : Encoding.ofWord t.word =
    { first := 0xe4 ||| if t.preIndexed then 1 else 0
      second := ((if 0 < t.offset then 0x80 else 0) ||| if t.load then 0x10 else 0) |||
        t.Rn.setWidth 8
      third := t.Rd.setWidth 8 <<< 4 ||| t.offsetHigh.setWidth 8
      fourth := t.offsetLow } := by
  obtain ⟨hRd1, hRd2, hRd3, hRd4⟩ := Rd_bytes t.Rd
  obtain ⟨hRn1, hRn2, hRn3, hRn4⟩ := Rn_bytes t.Rn
  obtain ⟨ho1, ho2, ho3, ho4⟩ := t.offset_bytes
  have hflags := flags_bytes (decide (0 < t.offset)) t.load t.preIndexed
  rw [Encoding.ofWord, Encoding.mk.injEq] at hflags
  obtain ⟨hf1, hf2, hf3, hf4⟩ := hflags
  rw [word_eq]
  simp only [Encoding.ofWord, getNthByte_or, hf1, hf2, hf3, hf4, hRd1, hRd2, hRd3, hRd4, hRn1, hRn2,
    hRn3, hRn4, ho1, ho2, ho3, ho4, BitVec.or_zero, BitVec.zero_or, decide_eq_true_eq]

/-! ## The word in the emulator -/

/-- The 12 bits of the offset as the emulator takes them: eight bits and a rotation. -/
def rotate (high : Nibble) (low : Byte) : Word :=
  low.setWidth 32 >>> (2 * high.toNat) ||| low.setWidth 32 <<< (32 - 2 * high.toNat)

theorem getRotatedImmediate_or (Rd high : Nibble) (low : Byte) :
    (Emulator.DataProcessing.getRotatedImmediate (Rd.setWidth 8 <<< 4 ||| high.setWidth 8)
      low 0).map Prod.fst = some (rotate high low) := by
  have hamount : ((Rd.setWidth 8 <<< 4 ||| high.setWidth 8 : Byte) &&& 0xf) <<< 1 =
      high.setWidth 8 <<< 1 := by
    clear low
    decide +revert
  have hnat : (high.setWidth 8 <<< 1 : Byte).toNat = 2 * high.toNat := by
    clear low hamount
    decide +revert
  have hlt : ¬ 32 ≤ 2 * high.toNat := by omega
  unfold Emulator.DataProcessing.getRotatedImmediate Emulator.shifter
  rw [hamount]
  simp only [hnat]
  by_cases hzero : 2 * high.toNat = 0
  · rw [if_pos hzero, rotate, hzero]
    simp
  · rw [if_neg hzero, if_neg hlt]
    rfl

/-- The rotation changes every offset that does not fit eight bits. -/
theorem rotate_eq_iff (high : Nibble) (low : Byte) :
    rotate high low = high.setWidth 32 <<< 8 ||| low.setWidth 32 ↔ high = 0 := by
  decide +kernel +revert

/-- The offset as the emulator takes it. -/
def rotated : Word := rotate t.offsetHigh t.offsetLow

/-- The offset applied to a word, by the emulator. -/
def shifted (w : Word) : Word := if 0 < t.offset then w + t.rotated else w - t.rotated

theorem rotated_eq_iff :
    t.rotated = BitVec.ofNat 32 t.offset.natAbs ↔ t.offset.natAbs ≤ 255 := by
  have hrange := t.inRange
  have hsplit : BitVec.ofNat 32 t.offset.natAbs =
      t.offsetHigh.setWidth 32 <<< 8 ||| t.offsetLow.setWidth 32 := by
    apply BitVec.eq_of_toNat_eq
    have hlow : t.offset.natAbs % 2 ^ 8 < 2 ^ 8 := Nat.mod_lt _ (by decide)
    have hor := two_pow_mul_or (a := t.offset.natAbs / 256) hlow
    simp only [offsetHigh, offsetLow, BitVec.toNat_or, BitVec.toNat_shiftLeft,
      BitVec.toNat_setWidth, BitVec.toNat_ofNat, Nat.shiftLeft_eq]
    rw [show t.offset.natAbs / 256 % 2 ^ 4 % 2 ^ 32 * 2 ^ 8 % 2 ^ 32 =
        2 ^ 8 * (t.offset.natAbs / 256) by omega,
      show t.offset.natAbs % 2 ^ 8 % 2 ^ 32 = t.offset.natAbs % 2 ^ 8 by omega, hor]
    omega
  have hzero : t.offsetHigh = 0 ↔ t.offset.natAbs ≤ 255 := by
    rw [← BitVec.toNat_inj]
    simp only [offsetHigh, BitVec.toNat_ofNat, BitVec.ofNat_eq_ofNat]
    omega
  rw [hsplit, ← hzero]
  exact rotate_eq_iff t.offsetHigh t.offsetLow

/-- The offset applied to a word, by the language. -/
theorem add_offset (w : Word) : w + BitVec.ofInt 32 t.offset =
    if 0 < t.offset then w + BitVec.ofNat 32 t.offset.natAbs
    else w - BitVec.ofNat 32 t.offset.natAbs := by
  split
  · rw [← BitVec.ofInt_natCast, Int.natAbs_of_nonneg (by omega)]
  · rw [BitVec.sub_eq_add_neg, ← BitVec.ofInt_natCast, ← BitVec.ofInt_neg]
    congr 2
    omega

theorem shifted_eq_iff (w : Word) :
    t.shifted w = w + BitVec.ofInt 32 t.offset ↔ t.offset.natAbs ≤ 255 := by
  rw [add_offset, shifted, ← rotated_eq_iff]
  split
  · exact BitVec.add_right_inj w
  · exact BitVec.sub_right_inj w

theorem decode_word : Emulator.decode (Encoding.ofWord t.word) = .singleDataTransfer := by
  have hclass : (((0xe4 ||| if t.preIndexed then 1 else 0 : Byte) >>> 2) &&& 3).toNat = 1 := by
    cases t.preIndexed <;> decide
  rw [ofWord_word]
  unfold Emulator.decode
  rw [hclass]
  rfl

/-- The first byte of the word. -/
theorem first_word :
    (Emulator.SingleDataTransfer.getPrePostIndexingBit (Encoding.ofWord t.word).first ≠ 0 ↔
      t.preIndexed = true) ∧
    Emulator.SingleDataTransfer.immediateOperand (Encoding.ofWord t.word).first = 0 := by
  have hfirst : ∀ preIndexed : Bool,
      (Emulator.SingleDataTransfer.getPrePostIndexingBit
        (0xe4 ||| if preIndexed then 1 else 0) ≠ 0 ↔
        preIndexed = true) ∧
      Emulator.SingleDataTransfer.immediateOperand (0xe4 ||| if preIndexed then 1 else 0) = 0 := by
    decide
  rw [ofWord_word]
  exact hfirst t.preIndexed

/-- The second byte of the word. -/
theorem second_word :
    (Emulator.SingleDataTransfer.getUpBit (Encoding.ofWord t.word).second ≠ 0 ↔ 0 < t.offset) ∧
    (Emulator.SingleDataTransfer.getLoadStoreBit (Encoding.ofWord t.word).second ≠ 0 ↔
      t.load = true) ∧
    Emulator.SingleDataTransfer.getRn (Encoding.ofWord t.word).second = t.Rn := by
  have hsecond : ∀ (up load : Bool) (n : Nibble),
      (Emulator.SingleDataTransfer.getUpBit
        (((if up then 0x80 else 0) ||| if load then 0x10 else 0) ||| n.setWidth 8) ≠ 0
          ↔ up = true) ∧
      (Emulator.SingleDataTransfer.getLoadStoreBit
        (((if up then 0x80 else 0) ||| if load then 0x10 else 0) ||| n.setWidth 8) ≠ 0
          ↔ load = true) ∧
      Emulator.SingleDataTransfer.getRn
        (((if up then 0x80 else 0) ||| if load then 0x10 else 0) ||| n.setWidth 8) = n := by
    decide
  rw [ofWord_word]
  simpa using hsecond (decide (0 < t.offset)) t.load t.Rn

/-- The third byte of the word. -/
theorem third_word : Emulator.SingleDataTransfer.getRd (Encoding.ofWord t.word).third = t.Rd := by
  have hthird : ∀ high low : Nibble,
      Emulator.SingleDataTransfer.getRd (high.setWidth 8 <<< 4 ||| low.setWidth 8) = high := by
    decide
  rw [ofWord_word]
  exact hthird t.Rd t.offsetHigh

/-- The base register with the offset. -/
theorem applyOffset_word (registers : Emulator.Registers) :
    Emulator.SingleDataTransfer.applyOffset (Emulator.reg t.Rn) (Encoding.ofWord t.word) registers =
      some (t.shifted (registers (Emulator.reg t.Rn))) := by
  have hrotated := getRotatedImmediate_or t.Rd t.offsetHigh t.offsetLow
  obtain ⟨-, himmediate⟩ := t.first_word
  obtain ⟨hup, -, -⟩ := t.second_word
  unfold Emulator.SingleDataTransfer.applyOffset Emulator.SingleDataTransfer.getOffset
  rw [himmediate, if_pos rfl]
  have hthird : (Encoding.ofWord t.word).third =
      t.Rd.setWidth 8 <<< 4 ||| t.offsetHigh.setWidth 8 := by
    rw [ofWord_word]
  have hfourth : (Encoding.ofWord t.word).fourth = t.offsetLow := by
    rw [ofWord_word]
  rw [hthird, hfourth, hrotated, Option.map_some]
  simp only [hup]
  rfl

theorem transfer_word (address : Word) (m : Emulator.Machine) :
    Emulator.SingleDataTransfer.transfer address (Encoding.ofWord t.word) m =
      t.access address m := by
  obtain ⟨-, hload, -⟩ := t.second_word
  unfold Emulator.SingleDataTransfer.transfer access
  simp only [hload, third_word]

/-- **The word of a load or store in the emulator.** -/
theorem execute_word (m : Emulator.Machine) :
    Emulator.SingleDataTransfer.execute (Encoding.ofWord t.word) m =
      if t.preIndexed then t.access (t.shifted (m.registers (Emulator.reg t.Rn))) m
      else (t.access (m.registers (Emulator.reg t.Rn)) m).map fun m =>
        m.setRegister (Emulator.reg t.Rn) (t.shifted (m.registers (Emulator.reg t.Rn))) := by
  obtain ⟨hpre, -⟩ := t.first_word
  obtain ⟨-, -, hRn⟩ := t.second_word
  unfold Emulator.SingleDataTransfer.execute Emulator.SingleDataTransfer.executePreIndexing
    Emulator.SingleDataTransfer.executePostIndexing
  simp only [hpre, hRn, applyOffset_word, transfer_word, Option.bind_eq_bind, Option.bind_some]
  split
  · rfl
  · rw [Option.map_eq_bind]
    rfl

/-! ## Where the two agree -/

/-- An access leaves every register but `Rd` alone, a store that one too. -/
theorem access_registers {address : Word} {m m' : Emulator.Machine} {i : Fin 17}
    (h : t.access address m = some m') (hi : t.load = true → i ≠ Emulator.reg t.Rd) :
    m'.registers i = m.registers i := by
  unfold access at h
  split at h
  · rename_i hload
    have hne := hi hload
    unfold Emulator.SingleDataTransfer.load at h
    split at h
    · cases h
      exact Emulator.Registers.set_of_ne hne _
    · split at h
      · cases h
        rfl
      · obtain ⟨w, -, rfl⟩ := Option.map_eq_some_iff.mp h
        exact Emulator.Registers.set_of_ne hne _
  · unfold Emulator.SingleDataTransfer.store at h
    split at h
    · obtain ⟨gpio, -, rfl⟩ := Option.map_eq_some_iff.mp h
      rfl
    · split at h
      · obtain ⟨gpio, -, rfl⟩ := Option.map_eq_some_iff.mp h
        rfl
      · split at h
        · obtain ⟨gpio, -, rfl⟩ := Option.map_eq_some_iff.mp h
          rfl
        · obtain ⟨memory, -, rfl⟩ := Option.map_eq_some_iff.mp h
          rfl

theorem reg_injective {a b : Nibble} (h : Emulator.reg a = Emulator.reg b) : a = b := by
  apply BitVec.eq_of_toNat_eq
  simpa [Emulator.reg] using h

theorem agrees_of_fits (hfits : t.Fits) : t.Agrees (Encoding.ofWord t.word) := by
  obtain ⟨hsmall, hother⟩ := hfits
  refine ⟨t.decode_word, fun m => ?_⟩
  rw [execute_word, run]
  cases hpre : t.preIndexed
  · simp only [Bool.false_eq_true, if_false]
    refine Option.map_congr fun m' hm' => ?_
    have hbase : m'.registers (Emulator.reg t.Rn) = m.registers (Emulator.reg t.Rn) :=
      t.access_registers (Option.mem_def.mp hm') fun hload heq =>
        hother ⟨hload, hpre, (reg_injective heq).symm⟩
    rw [hbase, (t.shifted_eq_iff _).mpr hsmall]
  · simp only [if_true]
    rw [(t.shifted_eq_iff _).mpr hsmall]

/-! ## Where the two differ -/

/-- A machine with the same word in every register and a byte at address 0. -/
def probe (word : Word) (byte : Byte) : Emulator.Machine where
  registers := fun _ => word
  memory := fun i => if i.val = 0 then byte else 0
  gpio := fun _ => 0

variable {word : Word} {byte : Byte} {address : Word}

theorem readWord_probe_zero : readWord (probe word byte).memory 0 = some (byte.setWidth 32) := by
  have hbyte : ∀ b : Byte, (0#8 ++ 0#8 ++ 0#8 ++ b : Word) = b.setWidth 32 := by decide
  have hlt : 0 + 3 < Emulator.memorySize := by decide
  unfold readWord readEncoding
  rw [dif_pos hlt, ← hbyte byte]
  rfl

theorem readWord_probe (h : address ≠ 0) :
    ∀ w ∈ readWord (probe word byte).memory address.toNat, w = 0 := by
  have hpos : address.toNat ≠ 0 := fun hzero => h (BitVec.eq_of_toNat_eq hzero)
  intro w hw
  unfold readWord readEncoding at hw
  split at hw
  · have hmemory : ∀ i : Fin Emulator.memorySize, i.val ≠ 0 → (probe word byte).memory i = 0 :=
      fun i hi => if_neg hi
    rw [hmemory _ (by simp), hmemory _ (by simp), hmemory _ (by simp), hmemory _ hpos] at hw
    exact (Option.some.inj hw).symm
  · cases hw

theorem load_probe_zero (Rd : Fin 17) : Emulator.SingleDataTransfer.load 0 Rd (probe word byte) =
    some ((probe word byte).setRegister Rd (byte.setWidth 32)) := by
  have hread : readWord (probe word byte).memory 0 = _ := readWord_probe_zero
  unfold Emulator.SingleDataTransfer.load
  rw [if_neg (by decide), if_neg (by decide)]
  exact congrArg (Option.map _) hread

theorem setRegister_inj {m : Emulator.Machine} {i : Fin 17} {w w' : Word}
    (h : m.setRegister i w = m.setRegister i w') : w = w' := by
  have hi := congrArg (fun m : Emulator.Machine => m.registers i) h
  simpa only [Emulator.Machine.setRegister_registers, Emulator.Registers.set_self] using hi

/-- A load from another address leaves something else in `Rd`. -/
theorem load_probe (h : address ≠ 0) (hbyte : byte ≠ 0) (hword : word ≠ byte.setWidth 32)
    (hgpio : Emulator.Gpio.isAddress (byte.setWidth 32) = false) (Rd : Fin 17) :
    Emulator.SingleDataTransfer.load address Rd (probe word byte) ≠
      Emulator.SingleDataTransfer.load 0 Rd (probe word byte) := by
  rw [load_probe_zero]
  intro heq
  unfold Emulator.SingleDataTransfer.load at heq
  split at heq
  · rename_i hgpio'
    rw [setRegister_inj (Option.some.inj heq), hgpio] at hgpio'
    cases hgpio'
  · split at heq
    · -- a refused load leaves the machine as it is, with `word` in `Rd`
      have hRd := congrArg (fun m : Emulator.Machine => m.registers Rd) (Option.some.inj heq)
      rw [Emulator.Machine.setRegister_registers, Emulator.Registers.set_self] at hRd
      exact hword hRd
    · obtain ⟨w, hw, heq⟩ := Option.map_eq_some_iff.mp heq
      have hRd := setRegister_inj heq
      rw [readWord_probe h w hw] at hRd
      have hnat := congrArg BitVec.toNat hRd
      simp only [BitVec.toNat_setWidth, BitVec.toNat_ofNat, BitVec.ofNat_eq_ofNat] at hnat
      exact hbyte (BitVec.eq_of_toNat_eq
        (by simp only [BitVec.toNat_ofNat, BitVec.ofNat_eq_ofNat]; omega))

theorem store_probe_zero (Rd : Fin 17) : ∃ memory,
    Emulator.SingleDataTransfer.store 0 Rd (probe word byte) =
        some { probe word byte with memory := memory } ∧
      memory ⟨0, by decide⟩ = word.setWidth 8 := by
  have hlt : (0 : Word).toNat + 3 < Emulator.memorySize := by decide
  unfold Emulator.SingleDataTransfer.store writeWord
  rw [if_neg (by decide), if_neg (by decide), if_neg (by decide), if_pos hlt]
  exact ⟨_, rfl, rfl⟩

/-- A store to another address leaves the byte at address 0 as it is. -/
theorem store_probe (h : address ≠ 0) (hword : word.setWidth 8 ≠ byte) (Rd : Fin 17) :
    Emulator.SingleDataTransfer.store address Rd (probe word byte) ≠
      Emulator.SingleDataTransfer.store 0 Rd (probe word byte) := by
  have hpos : address.toNat ≠ 0 := fun hzero => h (BitVec.eq_of_toNat_eq hzero)
  obtain ⟨memory, hstore, hmemory⟩ := @store_probe_zero word byte Rd
  rw [hstore]
  suffices hsame : ∀ m ∈ Emulator.SingleDataTransfer.store address Rd (probe word byte),
      m.memory ⟨0, by decide⟩ = byte by
    intro heq
    have hbyte := hsame _ heq
    exact hword (hmemory.symm.trans hbyte)
  intro m hm
  unfold Emulator.SingleDataTransfer.store at hm
  split at hm
  · obtain ⟨gpio, -, rfl⟩ := Option.map_eq_some_iff.mp hm
    rfl
  · split at hm
    · obtain ⟨gpio, -, rfl⟩ := Option.map_eq_some_iff.mp hm
      rfl
    · split at hm
      · obtain ⟨gpio, -, rfl⟩ := Option.map_eq_some_iff.mp hm
        rfl
      · obtain ⟨memory', hwrite, rfl⟩ := Option.map_eq_some_iff.mp hm
        unfold writeWord at hwrite
        split at hwrite
        · cases hwrite
          have hzero : ∀ k, (0 : ℕ) ≠ address.toNat + k := by omega
          exact (if_neg (hzero 0)).trans ((if_neg (hzero 1)).trans
            ((if_neg (hzero 2)).trans ((if_neg (hzero 3)).trans rfl)))
        · cases hwrite

/-- Two addresses, one of them 0, are told apart by a machine whose registers hold a word of at
least 256. -/
theorem access_probe (h : address ≠ 0) (hword : 256 ≤ word.toNat) :
    ∃ byte, t.access address (probe word byte) ≠ t.access 0 (probe word byte) := by
  have hsmall : ∀ b : Byte, word ≠ b.setWidth 32 := by
    rintro b rfl
    have := b.isLt
    simp only [BitVec.toNat_setWidth] at hword
    omega
  unfold access
  cases t.load
  · by_cases hone : word.setWidth 8 = (1 : Byte)
    · refine ⟨2, ?_⟩
      simpa using store_probe h (by rw [hone]; decide) (Emulator.reg t.Rd)
    · refine ⟨1, ?_⟩
      simpa using store_probe h hone (Emulator.reg t.Rd)
  · refine ⟨1, ?_⟩
    simpa using load_probe h (by decide) (hsmall 1) (by decide) (Emulator.reg t.Rd)

/-- An access to address 0 with all registers zero. -/
theorem access_zero (byte : Byte) : ∃ m, t.access 0 (probe 0 byte) = some m ∧
    m.registers (Emulator.reg t.Rn) =
      if t.load = true ∧ t.Rd = t.Rn then byte.setWidth 32 else 0 := by
  unfold access
  cases hload : t.load
  · obtain ⟨memory, hstore, -⟩ := @store_probe_zero 0 byte (Emulator.reg t.Rd)
    refine ⟨_, by simpa using hstore, ?_⟩
    simp [probe]
  · have hload : Emulator.SingleDataTransfer.load 0 _ (probe 0 byte) = _ :=
      load_probe_zero (Emulator.reg t.Rd)
    refine ⟨_, by simpa using hload, ?_⟩
    by_cases hsame : t.Rd = t.Rn
    · simp [hsame]
    · have hne : Emulator.reg t.Rn ≠ Emulator.reg t.Rd := fun heq => hsame (reg_injective heq).symm
      rw [Emulator.Machine.setRegister_registers, Emulator.Registers.set_of_ne hne]
      simp [hsame, probe]

theorem fits_of_agrees (h : t.Agrees (Encoding.ofWord t.word)) : t.Fits := by
  have hrange := t.inRange
  have hrun : ∀ m, _ = t.run m := fun m => (t.execute_word m).symm.trans (h.executes m)
  unfold run at hrun
  cases hpre : t.preIndexed
  · simp only [hpre, Bool.false_eq_true, if_false] at hrun
    -- the base register after an access to address 0
    have hbase : ∀ byte m, t.access 0 (probe 0 byte) = some m →
        t.shifted (m.registers (Emulator.reg t.Rn)) = 0 + BitVec.ofInt 32 t.offset := by
      intro byte m hm
      have heq := hrun (probe 0 byte)
      change (t.access 0 (probe 0 byte)).map _ = (t.access 0 (probe 0 byte)).map _ at heq
      rw [hm] at heq
      exact setRegister_inj (Option.some.inj heq)
    have hsmall : t.offset.natAbs ≤ 255 := by
      obtain ⟨m, hm, hzero⟩ := t.access_zero 0
      have hzero' : m.registers (Emulator.reg t.Rn) = 0 := by
        rw [hzero]
        split <;> rfl
      have hshifted := hbase 0 m hm
      rw [hzero'] at hshifted
      exact (t.shifted_eq_iff 0).mp hshifted
    refine ⟨hsmall, ?_⟩
    rintro ⟨hload, -, hsame⟩
    obtain ⟨m, hm, hone⟩ := t.access_zero 1
    rw [if_pos ⟨hload, hsame⟩] at hone
    have hshifted := hbase 1 m hm
    rw [hone, (t.shifted_eq_iff _).mpr hsmall, BitVec.add_left_inj] at hshifted
    exact absurd hshifted (by decide)
  · simp only [hpre, if_true] at hrun
    refine ⟨?_, fun hother => by simp [hpre] at hother⟩
    by_contra hlarge
    -- a base register with which the right address is 0
    have hzero : -BitVec.ofInt 32 t.offset + BitVec.ofInt 32 t.offset = 0 := BitVec.add_left_neg _
    have hshifted : t.shifted (-BitVec.ofInt 32 t.offset) ≠ 0 := by
      rw [← hzero]
      exact fun heq => hlarge ((t.shifted_eq_iff _).mp heq)
    have hword : 256 ≤ (-BitVec.ofInt 32 t.offset).toNat := by
      rw [← BitVec.ofInt_neg, BitVec.toNat_ofInt]
      omega
    obtain ⟨byte, hne⟩ := t.access_probe hshifted hword
    apply hne
    have heq := hrun (probe (-BitVec.ofInt 32 t.offset) byte)
    change t.access (t.shifted (-BitVec.ofInt 32 t.offset)) _ =
      t.access (-BitVec.ofInt 32 t.offset + BitVec.ofInt 32 t.offset) _ at heq
    rw [hzero] at heq
    exact heq

/-! ## From the line to the word -/

theorem parseInstruction_line {line : CString}
    (hline : CString.strtok [' ', ',', '\n'] line = t.tokens) :
    parseInstruction line = some ⟨t.mnemonic.text, t.fields⟩ := by
  have hplain : ∀ c s, c ∈ ['[', '#'] → DataProcessing.getShift (c :: s) = 0 := by
    intro c s hc
    simp only [List.mem_cons, List.not_mem_nil, or_false] at hc
    obtain rfl | rfl := hc <;> simp [DataProcessing.getShift]
  have hfields : operandFields t.fields = some t.fields := by
    unfold fields
    split
    · refine operandFields_registerName t.Rd ?_
      simp [operandFields, hplain]
    · refine operandFields_registerName t.Rd ?_
      simp [operandFields, hplain]
  have hroom : t.fields.length ≤ 4 := by
    unfold fields
    split <;> simp
  exact parseInstruction_tokens hline hfields hroom

theorem assembleInstruction_fields (pass : FirstPass) (address : ℤ) (pool : Pool) :
    assembleInstruction pass ⟨t.mnemonic.text, t.fields⟩ address pool =
      some (Encoding.ofWord t.word, pool) := by
  have hRd : t.fields[0]? = some (registerName t.Rd) := by
    unfold fields
    split <;> rfl
  have hliteral : (SingleDataTransfer.getAddress t.fields).head? ≠ some '=' := by
    rw [getAddress_fields]
    simp
  have hassemble : ∀ endAddress,
      SingleDataTransfer.assemble ⟨t.mnemonic.text, t.fields⟩ address endAddress pool =
        some (Encoding.ofWord t.word, pool) := by
    intro endAddress
    unfold SingleDataTransfer.assemble
    simp only [hRd, Option.bind_eq_bind, Option.bind_some, getRegister_registerName, hliteral,
      decide_false, Bool.and_false, Bool.false_eq_true, if_false, encode_fields, Option.map_some]
  have hmnemonic : t.mnemonic = .ldr ∨ t.mnemonic = .str := by
    unfold mnemonic
    cases t.load <;> simp
  unfold assembleInstruction
  rw [getMnemonic_text]
  obtain h | h := hmnemonic <;> simp only [h, Option.bind_eq_bind, Option.bind_some] <;>
    exact h ▸ hassemble _

/-- **Loads and stores.** -/
theorem offsets_iff {line : CString} (hline : CString.strtok [' ', ',', '\n'] line = t.tokens)
    (pass : FirstPass) (address : ℤ) (pool : Pool) :
    (∃ instruction word, parseInstruction line = some instruction ∧
      assembleInstruction pass instruction address pool = some (word, pool) ∧ t.Agrees word) ↔
      t.Fits := by
  constructor
  · rintro ⟨instruction, word, hparse, hassemble, hagrees⟩
    rw [t.parseInstruction_line hline] at hparse
    cases hparse
    rw [assembleInstruction_fields] at hassemble
    cases hassemble
    exact t.fits_of_agrees hagrees
  · intro hfits
    exact ⟨_, _, t.parseInstruction_line hline, t.assembleInstruction_fields pass address pool,
      t.agrees_of_fits hfits⟩

/-! ## Two lines -/

/-- `ldr r1,[r2,#-4]`. -/
def smallLoad : TransferInstruction := ⟨true, true, 1, 2, -4, by decide⟩

/-- `str r1,[r2],#256`. -/
def largeStore : TransferInstruction := ⟨false, false, 1, 2, 256, by decide⟩

theorem offsets_smallLoad : ∃ instruction word,
    parseInstruction "ldr r1,[r2,#-4]\n".toList = some instruction ∧
      assembleInstruction (FirstPass.start Heap.zeroed) instruction 0 ⟨fun _ => 0, 0⟩ =
        some (word, ⟨fun _ => 0, 0⟩) ∧ smallLoad.Agrees word :=
  (offsets_iff smallLoad (by decide +kernel) (FirstPass.start Heap.zeroed) 0
    ⟨fun _ => 0, 0⟩).mpr
    ⟨by decide, by decide⟩

/-- The base register does not grow: as a constant with a rotation, 256 is 0 rotated by 2. -/
theorem offsets_largeStore :
    CString.strtok [' ', ',', '\n'] "str r1,[r2],#256\n".toList = largeStore.tokens ∧
      ¬ ∃ instruction word, parseInstruction "str r1,[r2],#256\n".toList = some instruction ∧
        assembleInstruction (FirstPass.start Heap.zeroed) instruction 0 ⟨fun _ => 0, 0⟩ =
          some (word, ⟨fun _ => 0, 0⟩) ∧ largeStore.Agrees word := by
  have hline : CString.strtok [' ', ',', '\n'] "str r1,[r2],#256\n".toList = largeStore.tokens := by
    decide +kernel
  refine ⟨hline, ?_⟩
  rintro ⟨instruction, word, hparse, hassemble, hagrees⟩
  rw [largeStore.parseInstruction_line hline] at hparse
  cases hparse
  rw [assembleInstruction_fields] at hassemble
  cases hassemble
  exact absurd (largeStore.fits_of_agrees hagrees).1 (by decide)

end TransferInstruction

end DocMachine.Arm.Assembler
