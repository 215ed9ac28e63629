import DocMachine.Arm.Addressing
import DocMachine.Arm.Shifter
import Mathlib.Tactic.Ring

/-!
# Immediate operands

A constant operand is eight bits and the half of the amount by which they are rotated to the right.
`int_to_operand2` of `assembler/data_processing/data_processing.c` (10-29) looks for the two by
rotating the constant to the left, two bits at a time; `get_Operand2` of the emulator
(`emulator/data_processing/data_processing.c` 42-76) rotates back.

* `ImmediateLine` is a line with a constant, in decimal or hexadecimal, and `constantValue` the
  number that `strtol` reads.
* `Handled` is what should happen: a constant that is a rotated byte gets a word from which the
  emulator reads the constant back, any other gets no word.
* The loop gives up as soon as the low byte overflows, before it has seen whether the rest of the
  word runs empty later. It then returns -1, which the assembler writes into the word, and not the
  error at its end, which is never reached.

Results:
* `turn` and `rotate_spec`: what one turn of the loop does to its two words, and hence where it
  stops.
* `split_eq_iff` and `rotateRight_eq_iff`: the rotations that the loop can undo, as an equation on
  the number it starts with.
* `handled_iff`: a constant is treated as it should be iff it is a byte rotated by at most 24 bits;
  `handled_fails` has one of either kind that is not.
-/

namespace DocMachine.Arm.Assembler

open DocMachine.Lib

/-! ## Lines with an immediate operand -/

/-- The data processing instructions, the second operand apart. -/
inductive ImmediateLine where
  | mov (Rd : Nibble)
  | compare (m : { m // m ∈ comparisons }) (Rn : Nibble)
  | compute (m : { m // m ∈ computations }) (Rd Rn : Nibble)

namespace ImmediateLine

/-- The instruction whose second operand is the constant `text`. -/
def instruction (line : ImmediateLine) (text : CString) : Instruction :=
  match line with
  | mov Rd => ⟨Mnemonic.mov.text, [registerName Rd, '#' :: text]⟩
  | compare m Rn => ⟨m.1.text, [registerName Rn, '#' :: text]⟩
  | compute m Rd Rn => ⟨m.1.text, [registerName Rd, registerName Rn, '#' :: text]⟩

/-- The word of the instruction with these twelve bits of operand 2. -/
def word (line : ImmediateLine) (operand2 : Word) : Encoding :=
  match line with
  | mov Rd =>
    DataProcessing.writeInstruction Mnemonic.mov.opCode 0 0 (Rd.setWidth 8)
      ((1#32 <<< 12) ||| operand2)
  | compare m Rn =>
    DataProcessing.writeInstruction m.1.opCode 1 (Rn.setWidth 8) 0 ((1#32 <<< 12) ||| operand2)
  | compute m Rd Rn =>
    DataProcessing.writeInstruction m.1.opCode 0 (Rn.setWidth 8) (Rd.setWidth 8)
      ((1#32 <<< 12) ||| operand2)

variable (line : ImmediateLine)

theorem strtok_field {text : CString} (hspace : ' ' ∉ text) :
    CString.strtok [' '] ('#' :: text) = ['#' :: text] := by
  have htoken : ∀ c ∈ '#' :: text, c ∉ [' '] := by
    intro c hc hd
    obtain rfl := List.mem_singleton.1 hd
    simp [hspace] at hc
  have htokens := CString.tokensFrom_append htoken [] []
  rw [List.append_nil] at htokens
  rw [CString.strtok, htokens]
  rfl

/-- `get_Operand2` finds the constant behind the registers. -/
theorem getOperand2_field (mnemonic : CString) (n : Nibble) {text : CString} (hspace : ' ' ∉ text)
    {fields : List CString} (hfields : fields.length ≤ 3)
    (hfind : ∀ previous, DataProcessing.findOperand2 previous fields = some ('#' :: text, 0)) :
    DataProcessing.getOperand2 ⟨mnemonic, registerName n :: fields⟩ =
      (DataProcessing.intToOperand2 (BitVec.ofInt 32 (CString.strtol 0 text))).map
        ((1#32 <<< 12) ||| ·) := by
  unfold DataProcessing.getOperand2
  simp only [List.getElem?_cons_zero, Option.bind_eq_bind, Option.bind_some, List.drop_succ_cons,
    List.drop_zero, List.take_of_length_le hfields, hfind, strtok_field hspace]
  rfl

theorem assemble_instruction {text : CString} (hspace : ' ' ∉ text) :
    DataProcessing.assemble (line.instruction text) =
      (DataProcessing.intToOperand2 (BitVec.ofInt 32 (CString.strtol 0 text))).map line.word := by
  have hconstant : ∀ previous, DataProcessing.findOperand2 previous ['#' :: text] =
      some ('#' :: text, 0) := fun _ => rfl
  unfold DataProcessing.assemble
  cases line with
  | mov Rd =>
    have hoperand2 := getOperand2_field Mnemonic.mov.text Rd hspace (by simp) hconstant
    simp only [instruction, getMnemonic_text, Option.bind_eq_bind, Option.bind_some,
      DataProcessing.movInstruction, List.getElem?_cons_zero, getRegister_registerName, hoperand2]
    cases DataProcessing.intToOperand2 (BitVec.ofInt 32 (CString.strtol 0 text)) <;> rfl
  | compare m Rn =>
    have hoperand2 := getOperand2_field m.1.text Rn hspace (by simp) hconstant
    obtain ⟨m, hm⟩ := m
    simp only [comparisons, List.mem_cons, List.not_mem_nil, or_false] at hm
    obtain rfl | rfl | rfl := hm <;>
      simp only [instruction, getMnemonic_text, Option.bind_eq_bind, Option.bind_some,
        DataProcessing.cpsrInstruction, List.getElem?_cons_zero, getRegister_registerName,
        hoperand2] <;>
      cases DataProcessing.intToOperand2 (BitVec.ofInt 32 (CString.strtol 0 text)) <;> rfl
  | compute m Rd Rn =>
    have hregister : ∀ previous, DataProcessing.findOperand2 previous
        [registerName Rn, '#' :: text] = some ('#' :: text, 0) := by
      intro previous
      rw [findOperand2_registerName, hconstant]
    have hoperand2 := getOperand2_field m.1.text Rd hspace (by simp) hregister
    obtain ⟨m, hm⟩ := m
    simp only [computations, List.mem_cons, List.not_mem_nil, or_false] at hm
    obtain rfl | rfl | rfl | rfl | rfl | rfl := hm <;>
      simp only [instruction, getMnemonic_text, Option.bind_eq_bind, Option.bind_some,
        DataProcessing.computeInstruction, List.getElem?_cons_zero, List.getElem?_cons_succ,
        getRegister_registerName, hoperand2] <;>
      cases DataProcessing.intToOperand2 (BitVec.ofInt 32 (CString.strtol 0 text)) <;> rfl

end ImmediateLine

/-! ## The twelve bits -/

/-- Eight bits and a rotation, as they stand in operand 2. -/
def encoding (immediate : Byte) (r : Nibble) : Word :=
  immediate.setWidth 32 ||| (r.setWidth 32 <<< 8)

theorem toNat_encoding (immediate : Byte) (r : Nibble) :
    (encoding immediate r).toNat = 2 ^ 8 * r.toNat + immediate.toNat := by
  have himmediate := immediate.isLt
  have hr := r.isLt
  unfold encoding
  rw [BitVec.or_comm, BitVec.toNat_or, BitVec.toNat_shiftLeft, BitVec.toNat_setWidth,
    BitVec.toNat_setWidth, Nat.mod_eq_of_lt (by omega), Nat.mod_eq_of_lt (by omega),
    Nat.shiftLeft_eq, Nat.mod_eq_of_lt (by omega), Nat.mul_comm, two_pow_mul_or himmediate]

section Fields

variable (immediate : Byte) (r : Nibble)

theorem immediate_bit :
    (((1#32 <<< 12) ||| encoding immediate r) >>> 12).setWidth 8 = (1 : Byte) := by
  unfold encoding
  ext i hi
  simp only [BitVec.getElem_setWidth, BitVec.getLsbD_or, BitVec.getLsbD_ushiftRight,
    BitVec.getLsbD_shiftLeft, BitVec.getLsbD_setWidth]
  grind

theorem rotation_field :
    ((((1#32 <<< 12) ||| encoding immediate r) >>> 8) &&& 0xf).setWidth 8 =
      (r.setWidth 8 : Byte) := by
  have hmask : (0xf : Word) = (BitVec.allOnes 4).setWidth 32 := by decide
  unfold encoding
  rw [hmask]
  ext i hi
  simp only [BitVec.getElem_setWidth, BitVec.getLsbD_or, BitVec.getLsbD_and,
    BitVec.getLsbD_ushiftRight, BitVec.getLsbD_shiftLeft, BitVec.getLsbD_setWidth,
    BitVec.getLsbD_allOnes]
  grind

theorem immediate_field : ((1#32 <<< 12) ||| encoding immediate r).setWidth 8 = immediate := by
  unfold encoding
  ext i hi
  simp only [BitVec.getElem_setWidth, BitVec.getLsbD_or, BitVec.getLsbD_shiftLeft,
    BitVec.getLsbD_setWidth]
  grind

/-- What the emulator makes of the bytes that `write_instruction` writes. -/
theorem getOperand2_writeInstruction (m : Mnemonic) (S Rn : Byte) (Rd : Nibble)
    (registers : Emulator.Registers) {word : Encoding}
    (hword : word = DataProcessing.writeInstruction m.opCode S Rn (Rd.setWidth 8)
      ((1#32 <<< 12) ||| encoding immediate r)) :
    (Emulator.DataProcessing.getOperand2 word.third word.fourth
      (Emulator.DataProcessing.getImmediateOperand word.first) registers 0).map Prod.fst =
        some ((immediate.setWidth 32).rotateRight (2 * r.toNat)) := by
  have hbit : Emulator.DataProcessing.getImmediateOperand
      ((0xe#8 <<< 4) ||| ((1 : Byte) <<< 1) ||| (m.opCode >>> 3)) ≠ 0 := by
    cases m <;> decide
  have hI : Emulator.DataProcessing.getImmediateOperand word.first ≠ 0 := by
    rwa [hword, DataProcessing.writeInstruction, immediate_bit]
  have hr : 2 * r.toNat < 32 := by omega
  have hrotate : TransferInstruction.rotate r immediate =
      (immediate.setWidth 32).rotateRight (2 * r.toNat) :=
    Emulator.or_shiftLeft_eq_rotateRight _ hr
  have hthird : word.third = Rd.setWidth 8 <<< 4 ||| r.setWidth 8 := by
    rw [hword, DataProcessing.writeInstruction, rotation_field]
  have hfourth : word.fourth = immediate := by
    rw [hword, DataProcessing.writeInstruction, immediate_field]
  rw [Emulator.DataProcessing.getOperand2, if_pos hI, hthird, hfourth,
    TransferInstruction.getRotatedImmediate_or, hrotate]

theorem getOperand2_word (line : ImmediateLine) (registers : Emulator.Registers) :
    (Emulator.DataProcessing.getOperand2 (line.word (encoding immediate r)).third
      (line.word (encoding immediate r)).fourth
      (Emulator.DataProcessing.getImmediateOperand (line.word (encoding immediate r)).first)
      registers 0).map Prod.fst = some ((immediate.setWidth 32).rotateRight (2 * r.toNat)) := by
  cases line with
  | mov Rd => exact getOperand2_writeInstruction immediate r .mov 0 0 Rd registers rfl
  | compare m Rn =>
    exact getOperand2_writeInstruction immediate r m.1 1 (Rn.setWidth 8) 0 registers rfl
  | compute m Rd Rn =>
    exact getOperand2_writeInstruction immediate r m.1 0 (Rn.setWidth 8) Rd registers rfl

end Fields

/-! ## The loop -/

/-- A constant as the loop starts with it, as one number of 64 bits: the low byte above the rest
of the word. -/
def spread (v : Word) : ℕ := v.toNat % 2 ^ 8 * 2 ^ 32 + v.toNat / 2 ^ 8 * 2 ^ 8

/-- After `r` turns, `curr` is empty and `immediate` has eight bits. -/
def FitsAt (v : Word) (r : ℕ) : Prop :=
  4 ^ r * spread v % 2 ^ 32 = 0 ∧ 4 ^ r * spread v / 2 ^ 32 < 2 ^ 8

/-- `immediate` only grows. -/
theorem FitsAt.small {v : Word} {r i : ℕ} (h : FitsAt v r) (hi : i ≤ r) :
    4 ^ i * spread v / 2 ^ 32 < 2 ^ 8 := by
  have hpow : 4 ^ i * spread v ≤ 4 ^ r * spread v :=
    Nat.mul_le_mul_right _ (Nat.pow_le_pow_right (by decide) hi)
  exact Nat.lt_of_le_of_lt (Nat.div_le_div_right hpow) h.2

/-- Twelve turns empty `curr`. -/
theorem curr_twelve (v : Word) : 4 ^ 12 * spread v % 2 ^ 32 = 0 := by
  unfold spread
  omega

/-- What the loop does with the two words in one turn. -/
theorem turn {N : ℕ} {curr immediate : Word} (hcurr : curr.toNat = N % 2 ^ 32)
    (himmediate : immediate.toNat = N / 2 ^ 32) (hsmall : immediate.toNat < 2 ^ 8) :
    (curr <<< 2).toNat = 4 * N % 2 ^ 32 ∧
      ((immediate <<< 2) ||| (curr >>> 30)).toNat = 4 * N / 2 ^ 32 := by
  have hlow : curr.toNat / 2 ^ 30 < 2 ^ 2 := by
    have := curr.isLt
    omega
  rw [BitVec.toNat_or, BitVec.toNat_shiftLeft, BitVec.toNat_shiftLeft, BitVec.toNat_ushiftRight,
    Nat.shiftLeft_eq, Nat.shiftLeft_eq, Nat.shiftRight_eq_div_pow,
    Nat.mod_eq_of_lt (by omega : immediate.toNat * 2 ^ 2 < 2 ^ 32), Nat.mul_comm immediate.toNat,
    two_pow_mul_or hlow]
  omega

/-- The test of the loop. -/
theorem shiftRight_eight_iff (immediate : Word) :
    immediate >>> 8 = 0 ↔ immediate.toNat < 2 ^ 8 := by
  rw [← BitVec.toNat_inj, BitVec.toNat_ushiftRight, Nat.shiftRight_eq_div_pow]
  simp [Nat.div_eq_zero_iff]

/-- What the loop returns once `curr` is empty. -/
theorem encoding_eq {immediate : Word} (hsmall : immediate.toNat < 2 ^ 8) {i : ℕ} (hi : i ≤ 12) :
    immediate ||| BitVec.ofNat 32 (i <<< 8) =
      encoding (BitVec.ofNat 8 immediate.toNat) (BitVec.ofNat 4 i) := by
  have himmediate : (BitVec.ofNat 8 immediate.toNat).setWidth 32 = immediate := by
    apply BitVec.eq_of_toNat_eq
    rw [BitVec.toNat_setWidth, BitVec.toNat_ofNat, Nat.mod_eq_of_lt hsmall,
      Nat.mod_eq_of_lt (by omega)]
  have hr : (BitVec.ofNat 4 i).setWidth 32 <<< 8 = BitVec.ofNat 32 (i <<< 8) := by
    apply BitVec.eq_of_toNat_eq
    simp only [BitVec.toNat_shiftLeft, BitVec.toNat_setWidth, BitVec.toNat_ofNat, Nat.shiftLeft_eq]
    omega
  rw [encoding, himmediate, hr]

/-- **The loop** stops at the first number of turns that fits, and returns -1 if there is none. -/
theorem rotate_spec (v : Word) {fuel i : ℕ} (hfuel : i + fuel = 16) (hi : i ≤ 12)
    {curr immediate : Word} (hcurr : curr.toNat = 4 ^ i * spread v % 2 ^ 32)
    (himmediate : immediate.toNat = 4 ^ i * spread v / 2 ^ 32) :
    (∃ r, r ≤ 12 ∧ FitsAt v r ∧ DataProcessing.rotate fuel i curr immediate =
      some (encoding (BitVec.ofNat 8 (4 ^ r * spread v / 2 ^ 32)) (BitVec.ofNat 4 r))) ∨
    (∀ r, i ≤ r → r ≤ 12 → ¬ FitsAt v r) ∧
      DataProcessing.rotate fuel i curr immediate = some (-1) := by
  induction fuel generalizing i curr immediate with
  | zero => omega
  | succ fuel ih =>
    have hshift := shiftRight_eight_iff immediate
    by_cases hsmall : immediate.toNat < 2 ^ 8
    · by_cases hempty : curr = 0
      · left
        refine ⟨i, hi, ⟨?_, ?_⟩, ?_⟩
        · rw [← hcurr, hempty]
          rfl
        · rwa [← himmediate]
        · rw [DataProcessing.rotate, if_neg (not_not.2 (hshift.2 hsmall)), if_pos hempty,
            encoding_eq hsmall hi, himmediate]
      · have hfull : ¬ 4 ^ i * spread v % 2 ^ 32 = 0 := by
          rw [← hcurr]
          exact fun h => hempty (BitVec.eq_of_toNat_eq h)
        have hnext : i + 1 ≤ 12 := by
          by_contra hlast
          obtain rfl : i = 12 := by omega
          exact hfull (curr_twelve v)
        have hpow : 4 ^ (i + 1) * spread v = 4 * (4 ^ i * spread v) := by
          rw [Nat.pow_succ']
          exact Nat.mul_assoc ..
        obtain ⟨hcurr', himmediate'⟩ := turn hcurr himmediate hsmall
        rw [← hpow] at hcurr' himmediate'
        rw [DataProcessing.rotate, if_neg (not_not.2 (hshift.2 hsmall)), if_neg hempty]
        refine (ih (by omega) hnext hcurr' himmediate').imp_right ?_
        rintro ⟨hnone, hresult⟩
        refine ⟨fun r hr => ?_, hresult⟩
        obtain rfl | hr := Nat.eq_or_lt_of_le hr
        · exact fun _ hfits => hfull hfits.1
        · exact hnone r hr
    · right
      refine ⟨fun r hr _ hfits => hsmall ?_, ?_⟩
      · rw [himmediate]
        exact hfits.small hr
      · rw [DataProcessing.rotate, if_pos (mt hshift.1 hsmall)]

theorem intToOperand2_eq (v : Word) :
    (∃ r, r ≤ 12 ∧ FitsAt v r ∧ DataProcessing.intToOperand2 v =
      some (encoding (BitVec.ofNat 8 (4 ^ r * spread v / 2 ^ 32)) (BitVec.ofNat 4 r))) ∨
    (∀ r, r ≤ 12 → ¬ FitsAt v r) ∧ DataProcessing.intToOperand2 v = some (-1) := by
  have hv := v.isLt
  have himmediate : (v &&& 0xff#32).toNat = v.toNat % 2 ^ 8 := by
    rw [BitVec.toNat_and]
    exact Nat.and_two_pow_sub_one_eq_mod v.toNat 8
  have hcurr : (v &&& ~~~0xff#32).toNat = v.toNat / 2 ^ 8 * 2 ^ 8 := by
    have hbits : v &&& ~~~0xff#32 = (v >>> 8) <<< 8 := by
      rw [show (0xff#32 : Word) = (BitVec.allOnes 8).setWidth 32 by decide]
      ext i hi
      simp only [BitVec.getElem_and, BitVec.getElem_not, BitVec.getElem_setWidth,
        BitVec.getLsbD_allOnes, BitVec.getElem_shiftLeft]
      grind
    rw [hbits, BitVec.toNat_shiftLeft, BitVec.toNat_ushiftRight, Nat.shiftRight_eq_div_pow,
      Nat.shiftLeft_eq]
    omega
  have hstart : (v &&& ~~~0xff#32).toNat = 4 ^ 0 * spread v % 2 ^ 32 := by
    rw [hcurr, spread]
    omega
  have hstart' : (v &&& 0xff#32).toNat = 4 ^ 0 * spread v / 2 ^ 32 := by
    rw [himmediate, spread]
    omega
  refine (rotate_spec v (show 0 + 16 = 16 from rfl) (Nat.zero_le 12) hstart hstart').imp_right ?_
  rintro ⟨hnone, hresult⟩
  exact ⟨fun r => hnone r (Nat.zero_le r), hresult⟩

/-! ## Rotations as numbers -/

/-- A byte is rotated by moving its low digits in base `q` up. -/
theorem split_eq_iff {q p : ℕ} (hq : 0 < q) {immediate low high : ℕ} (hhigh : high < q * p) :
    q * (low * (q * p) + high) = immediate * (q * p) ↔
      low = immediate / q ∧ high = immediate % q * p := by
  constructor
  · intro h
    have hcancel : low * q * p + high = immediate * p := by
      apply Nat.eq_of_mul_eq_mul_left hq
      calc q * (low * q * p + high) = q * (low * (q * p) + high) := by rw [Nat.mul_assoc]
        _ = immediate * (q * p) := h
        _ = q * (immediate * p) := Nat.mul_left_comm ..
    have hp : 0 < p := Nat.pos_of_ne_zero fun h0 => by simp [h0] at hhigh
    have hle : low * q ≤ immediate := by
      apply Nat.le_of_mul_le_mul_right _ hp
      omega
    obtain ⟨rest, rfl⟩ := Nat.exists_eq_add_of_le hle
    have hrest : high = rest * p := by
      rw [Nat.add_mul] at hcancel
      omega
    have hsmall : rest < q := by
      rw [hrest] at hhigh
      exact Nat.lt_of_mul_lt_mul_right hhigh
    rw [Nat.add_comm, Nat.add_mul_div_right _ _ hq, Nat.add_mul_mod_self_right,
      Nat.div_eq_of_lt hsmall, Nat.mod_eq_of_lt hsmall, Nat.zero_add]
    exact ⟨rfl, hrest⟩
  · rintro ⟨rfl, rfl⟩
    have hdiv := Nat.div_add_mod immediate q
    calc q * (immediate / q * (q * p) + immediate % q * p)
        = (q * (immediate / q) + immediate % q) * (q * p) := by ring
      _ = immediate * (q * p) := by rw [hdiv]

theorem four_pow_mul {r : ℕ} (hr : r ≤ 12) :
    4 ^ r * (2 ^ 8 * 2 ^ (24 - 2 * r)) = 2 ^ 32 := by
  rw [show 4 = 2 ^ 2 from rfl, ← Nat.pow_mul, ← Nat.pow_add, ← Nat.pow_add]
  congr 1
  omega

/-- A rotated byte. -/
theorem toNat_rotateRight (immediate : Byte) {r : ℕ} (hr : r ≤ 12) :
    ((immediate.setWidth 32).rotateRight (2 * r)).toNat =
      2 ^ 8 * 2 ^ (24 - 2 * r) * (immediate.toNat % 4 ^ r) + immediate.toNat / 4 ^ r := by
  have hpow := four_pow_mul hr
  have himmediate := immediate.isLt
  have hup : 2 ^ (32 - 2 * r) = 2 ^ 8 * 2 ^ (24 - 2 * r) := by
    rw [← Nat.pow_add]
    congr 1
    omega
  have hlow : immediate.toNat / 4 ^ r < 2 ^ (32 - 2 * r) := by
    rw [hup]
    have hdiv := Nat.div_le_self immediate.toNat (4 ^ r)
    have hone := Nat.one_le_two_pow (n := 24 - 2 * r)
    omega
  have hhigh : immediate.toNat * 2 ^ (32 - 2 * r) % 2 ^ 32 =
      2 ^ (32 - 2 * r) * (immediate.toNat % 4 ^ r) := by
    rw [hup, Nat.mul_comm immediate.toNat, ← hpow, Nat.mul_comm (4 ^ r), Nat.mul_mod_mul_left]
  rw [BitVec.rotateRight_def, BitVec.toNat_or, BitVec.toNat_shiftLeft, BitVec.toNat_ushiftRight,
    Nat.mod_eq_of_lt (by omega : 2 * r < 32), BitVec.toNat_setWidth,
    Nat.mod_eq_of_lt (by omega : immediate.toNat < 2 ^ 32), Nat.shiftLeft_eq,
    Nat.shiftRight_eq_div_pow, Nat.pow_mul, Nat.or_comm, hhigh, ← hup]
  exact two_pow_mul_or hlow

/-- The rotations that the loop can undo, as an equation on the number it starts with. -/
theorem rotateRight_eq_iff (immediate : Byte) {r : ℕ} (hr : r ≤ 12) (v : Word) :
    (immediate.setWidth 32).rotateRight (2 * r) = v ↔
      4 ^ r * spread v = immediate.toNat * 2 ^ 32 := by
  have hv := v.isLt
  have himmediate := immediate.isLt
  have hlow : immediate.toNat / 4 ^ r ≤ immediate.toNat := Nat.div_le_self ..
  have hhigh : v.toNat / 2 ^ 8 * 2 ^ 8 < 4 ^ r * (2 ^ 8 * 2 ^ (24 - 2 * r)) := by
    rw [four_pow_mul hr]
    omega
  have hsplit : 4 ^ r * (v.toNat % 2 ^ 8 * (4 ^ r * (2 ^ 8 * 2 ^ (24 - 2 * r))) +
      v.toNat / 2 ^ 8 * 2 ^ 8) = immediate.toNat * (4 ^ r * (2 ^ 8 * 2 ^ (24 - 2 * r))) ↔ _ :=
    split_eq_iff (Nat.pow_pos (by decide)) hhigh
  rw [four_pow_mul hr] at hsplit
  rw [spread, hsplit, ← BitVec.toNat_inj, toNat_rotateRight immediate hr,
    Nat.mul_comm (immediate.toNat % 4 ^ r), Nat.mul_assoc]
  generalize 2 ^ (24 - 2 * r) * (immediate.toNat % 4 ^ r) = rest
  generalize immediate.toNat / 4 ^ r = low at hlow ⊢
  omega

theorem fitsAt_iff {v : Word} {r : ℕ} (hr : r ≤ 12) :
    FitsAt v r ↔
      ∃ immediate : Byte, (immediate.setWidth 32).rotateRight (2 * r) = v := by
  simp only [rotateRight_eq_iff _ hr]
  constructor
  · rintro ⟨hempty, hsmall⟩
    refine ⟨BitVec.ofNat 8 (4 ^ r * spread v / 2 ^ 32), ?_⟩
    rw [BitVec.toNat_ofNat, Nat.mod_eq_of_lt hsmall]
    exact (Nat.div_mul_cancel (Nat.dvd_of_mod_eq_zero hempty)).symm
  · rintro ⟨immediate, h⟩
    rw [FitsAt, h]
    refine ⟨Nat.mul_mod_left .., ?_⟩
    rw [Nat.mul_div_cancel _ (by decide)]
    exact immediate.isLt

/-! ## The constants that come out right -/

/-- The constants of the architecture: eight bits, rotated to the right by an even amount. -/
def Encodable (v : Word) : Prop :=
  ∃ (immediate : Byte) (r : Nibble), (immediate.setWidth 32).rotateRight (2 * r.toNat) = v

/-- What is asked of the assembler: twelve bits that the emulator turns back into the constant if
there are such bits, and no word otherwise. -/
structure Handled (v : Word) : Prop where
  encodes : Encodable v → ∃ operand2, DataProcessing.intToOperand2 v = some operand2 ∧
    operand2.toNat < 2 ^ 12 ∧ ∀ (line : ImmediateLine) (registers : Emulator.Registers),
      (Emulator.DataProcessing.getOperand2 (line.word operand2).third (line.word operand2).fourth
        (Emulator.DataProcessing.getImmediateOperand (line.word operand2).first) registers 0).map
          Prod.fst = some v
  stops : ¬ Encodable v → ∀ (line : ImmediateLine) (text : CString), ' ' ∉ text →
    BitVec.ofInt 32 (CString.strtol 0 text) = v →
    DataProcessing.assemble (line.instruction text) = none

/-- Every constant but 0 can be written in a line. -/
theorem value_decimal {v : Word} (hv : v ≠ 0) :
    ' ' ∉ CString.decimal v.toNat ∧
      BitVec.ofInt 32 (CString.strtol 0 (CString.decimal v.toNat)) = v := by
  have hpos : 0 < v.toNat := Nat.pos_of_ne_zero fun h => hv (BitVec.eq_of_toNat_eq h)
  constructor
  · intro hspace
    exact absurd (CString.isDigit_of_mem_decimal hspace) (by decide)
  · rw [CString.strtol_decimal hpos (by omega), BitVec.ofInt_natCast, BitVec.ofNat_toNat,
      BitVec.setWidth_eq]

/-- **Immediate operands** are treated as they should be iff the constant is a byte rotated by at
most 24 bits. -/
theorem handled_iff (v : Word) :
    Handled v ↔ ∃ (immediate : Byte) (r : Nibble), r.toNat ≤ 12 ∧
      (immediate.setWidth 32).rotateRight (2 * r.toNat) = v := by
  constructor
  · intro h
    by_contra hnone
    have hmisfit : ∀ r, r ≤ 12 → ¬ FitsAt v r := by
      intro r hr hfits
      obtain ⟨immediate, himmediate⟩ := (fitsAt_iff hr).1 hfits
      refine hnone ⟨immediate, BitVec.ofNat 4 r, ?_⟩
      rw [BitVec.toNat_ofNat, Nat.mod_eq_of_lt (by omega)]
      exact ⟨hr, himmediate⟩
    obtain ⟨r, hr, hfits, -⟩ | ⟨-, hresult⟩ := intToOperand2_eq v
    · exact hmisfit r hr hfits
    · by_cases hencodable : Encodable v
      · obtain ⟨operand2, hoperand2, hbits, -⟩ := h.encodes hencodable
        rw [hresult, Option.some.injEq] at hoperand2
        subst hoperand2
        exact absurd hbits (by decide)
      · have hv : v ≠ 0 := by
          rintro rfl
          exact hencodable ⟨0, 0, by decide⟩
        obtain ⟨hspace, hvalue⟩ := value_decimal hv
        have hstops := h.stops hencodable (.mov 0) _ hspace hvalue
        rw [ImmediateLine.assemble_instruction _ hspace, hvalue, hresult] at hstops
        cases hstops
  · rintro ⟨immediate, r, hr, himmediate⟩
    have hfits : FitsAt v r.toNat := (fitsAt_iff hr).2 ⟨immediate, himmediate⟩
    obtain ⟨turns, hturns, hfits', hresult⟩ | ⟨hmisfit, -⟩ := intToOperand2_eq v
    · refine ⟨fun _ => ⟨_, hresult, ?_, fun line registers => ?_⟩, fun hnot => ?_⟩
      · rw [toNat_encoding]
        omega
      · have hrotate := (rotateRight_eq_iff (BitVec.ofNat 8 (4 ^ turns * spread v / 2 ^ 32))
          hturns v).2 ?_
        · rw [getOperand2_word, BitVec.toNat_ofNat, Nat.mod_eq_of_lt (by omega), hrotate]
        · rw [BitVec.toNat_ofNat, Nat.mod_eq_of_lt hfits'.2]
          exact (Nat.div_mul_cancel (Nat.dvd_of_mod_eq_zero hfits'.1)).symm
      · exact absurd ⟨immediate, r, himmediate⟩ hnot
    · exact absurd hfits (hmisfit _ hr)

/-- 0xff0 is 0xff rotated by 28 bits, and `mov r0, #0x101` gets a word. -/
theorem handled_fails :
    (Encodable 0xff0 ∧ ¬ Handled 0xff0) ∧ ¬ Encodable 0x101 ∧
      DataProcessing.assemble
        ((ImmediateLine.mov 0).instruction ['0', 'x', '1', '0', '1']) ≠ none := by
  have hresult : DataProcessing.intToOperand2 0xff0 = some (-1) := by decide
  refine ⟨⟨⟨0xff, 14, by decide⟩, fun h => ?_⟩, ?_, by decide⟩
  · obtain ⟨operand2, hoperand2, hbits, -⟩ := h.encodes ⟨0xff, 14, by decide⟩
    rw [hresult, Option.some.injEq] at hoperand2
    subst hoperand2
    exact absurd hbits (by decide)
  · unfold Encodable
    decide +kernel

end DocMachine.Arm.Assembler
