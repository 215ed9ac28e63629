import DocMachine.Arm.Shifter

/-!
# The condition flags

What a comparison, an addition, a subtraction and a multiplication leave in the flags, over all
values of the operands: `execute_data_processing` and `set_CPSR` of
`emulator/data_processing/data_processing.c` (78-168), `execute_multiply` and `set_CPSR` of
`emulator/multiply/multiply.c` (33-60), and `checkCond` of `emulator/cond/cond.c` (34-56), which
reads them.

* `set_CPSR` takes N from bit 30 of the result (`reads_iff`), and keeps the V flag that was there.
* The carry is computed after the destination was written, so that an operand that is the
  destination is read again; the one of `rsb` is for the opposite subtraction, and the one of `add`
  is bit 31 of the sum (`borrow_eq`, `topBit_eq`). A comment says that a borrow sets the carry; the
  code clears it.
* A multiplication sets Z for a zero result and never clears it.

Results:
* `execute_compare`: a comparison is read back as it should be, by all six conditions, iff the
  difference of the two numbers has 31 bits; `execute_compare_ge` is one that is not.
* `flags_iff`: for which operands the flags of the arithmetic instructions come out right all the
  same, with `flags_sub_overwritten` for operands where they do not.
-/

namespace DocMachine.Arm.Emulator

/-! ## The flags in the word -/

theorem zSet_getNZCV (CPSR : Word) : zSet (getNZCV CPSR) = CPSR.getLsbD 30 := by
  have hbit : ∀ NZCV : Byte, zSet NZCV = NZCV.getLsbD 2 := by decide
  simp [hbit, getNZCV]

theorem nEqualV_getNZCV (CPSR : Word) :
    nEqualV (getNZCV CPSR) = (CPSR.getLsbD 28 == CPSR.getLsbD 31) := by
  have hbit : ∀ NZCV : Byte, nEqualV NZCV = (NZCV.getLsbD 0 == NZCV.getLsbD 3) := by decide
  simp [hbit, getNZCV]

section SetCPSR

variable (result CPSR : Word) (bit : Bool)

theorem setCPSR_N :
    (DataProcessing.setCPSR result CPSR (carryByte bit)).getLsbD 31 = result.getLsbD 30 := by
  unfold DataProcessing.setCPSR
  by_cases h : result = 0
  · simp [h, carryByte]
  · simp only [if_neg h]
    simp [carryByte]

theorem setCPSR_Z :
    (DataProcessing.setCPSR result CPSR (carryByte bit)).getLsbD 30 = decide (result = 0) := by
  unfold DataProcessing.setCPSR
  by_cases h : result = 0
  · simp [h, carryByte]
  · simp only [if_neg h]
    simpa [carryByte] using h

theorem setCPSR_C :
    (DataProcessing.setCPSR result CPSR (carryByte bit)).getLsbD 29 = bit := by
  unfold DataProcessing.setCPSR
  by_cases h : result = 0
  · simp [h, carryByte]
  · simp only [if_neg h]
    simp [carryByte]

theorem setCPSR_V :
    (DataProcessing.setCPSR result CPSR (carryByte bit)).getLsbD 28 = CPSR.getLsbD 28 := by
  unfold DataProcessing.setCPSR
  by_cases h : result = 0
  · simp [h, carryByte]
  · simp only [if_neg h]
    simp [carryByte]

end SetCPSR

/-! ## Instructions that set the flags -/

/-- A data processing instruction with this opcode and the S bit set, on the numbers `a` (in `Rn`)
and `b` (operand 2). -/
structure SetsFlags (opCode : Byte) (word : Encoding) (registers : Registers) (a b : Word) :
    Prop where
  opCode : DataProcessing.getOpCode word.first word.second = opCode
  S : DataProcessing.getS word.second = true
  Rn : registers (reg (DataProcessing.getRn word.second)) = a
  operand2 : ∃ carry, DataProcessing.getOperand2 word.third word.fourth
    (DataProcessing.getImmediateOperand word.first) registers 0 = some (b, carry)

/-- What is left of the instruction once `compute` is known not to use the carry of the shift. -/
theorem SetsFlags.execute_eq {opCode : Byte} {word : Encoding} {registers registers' : Registers}
    {a b result : Word} {bit : Bool} (h : SetsFlags opCode word registers a b)
    (hcompute : ∀ carry, DataProcessing.compute opCode (reg (DataProcessing.getRn word.second))
      (reg (DataProcessing.getRd word.third)) b carry registers =
        (registers', result, carryByte bit)) :
    DataProcessing.execute word registers =
      some (registers'.set cpsr
        (DataProcessing.setCPSR result (registers' cpsr) (carryByte bit))) := by
  obtain ⟨carry, hoperand2⟩ := h.operand2
  unfold DataProcessing.execute
  rw [hoperand2, h.opCode]
  simp only [Option.map_some, hcompute, h.S, if_pos]

/-- The carry of a subtraction. -/
theorem borrow_eq (m n : Word) :
    (if m < n then 0 else 1 : Byte) = carryByte (decide (n ≤ m)) := by
  by_cases h : m < n
  · rw [if_pos h, decide_eq_false (BitVec.not_le.2 h)]
    rfl
  · rw [if_neg h, decide_eq_true (BitVec.not_lt.1 h)]
    rfl

/-- The carry of an addition. -/
theorem topBit_eq (word : Word) :
    (if word >>> 31 ≠ 0 then 1 else 0 : Byte) = carryByte word.msb := by
  have hshift : word >>> 31 = 0 ↔ word.msb = false := by
    rw [BitVec.msb_eq_decide, decide_eq_false_iff_not, ← BitVec.toNat_inj,
      BitVec.toNat_ushiftRight, Nat.shiftRight_eq_div_pow]
    simp
  cases hmsb : word.msb
  · rw [if_neg (not_not.2 (hshift.2 hmsb))]
    rfl
  · rw [if_pos (mt hshift.1 (by simp [hmsb]))]
    rfl

theorem compute_cmp (Rn Rd : Fin 17) (operand2 : Word) (carry : Byte) (registers : Registers) :
    DataProcessing.compute 10 Rn Rd operand2 carry registers =
      (registers, registers Rn - operand2, carryByte (decide (operand2 ≤ registers Rn))) := by
  rw [← borrow_eq]
  rfl

/-! ## Compare and branch -/

/-- The conditions of the conditional branches. -/
inductive Condition where
  | eq | ne | ge | lt | gt | le
deriving DecidableEq

namespace Condition

/-- The four bits of the condition. -/
def code : Condition → Byte
  | eq => 0
  | ne => 1
  | ge => 10
  | lt => 11
  | gt => 12
  | le => 13

/-- What a condition says about the two numbers that were compared. -/
def Holds (condition : Condition) (m n : ℤ) : Prop :=
  match condition with
  | eq => m = n
  | ne => m ≠ n
  | ge => m ≥ n
  | lt => m < n
  | gt => m > n
  | le => m ≤ n

/-- What it reads in the flags. -/
def reads (condition : Condition) (N Z V : Bool) : Bool :=
  match condition with
  | eq => Z
  | ne => !Z
  | ge => V == N
  | lt => !(V == N)
  | gt => !Z && V == N
  | le => Z || !(V == N)

end Condition

theorem checkCond_code (condition : Condition) {byte : Byte} (h : getCond byte = condition.code)
    (CPSR : Word) :
    checkCond byte CPSR =
      condition.reads (CPSR.getLsbD 31) (CPSR.getLsbD 30) (CPSR.getLsbD 28) := by
  unfold checkCond
  cases condition <;>
    simp [h, Condition.code, Condition.reads, zSet_getNZCV, nEqualV_getNZCV]

/-- The conditions are right if Z tells equality and N the order, V being clear. -/
theorem reads_iff {m n : ℤ} {N Z : Bool} (hZ : Z = true ↔ m = n) (hN : N = true ↔ m < n)
    (condition : Condition) : condition.reads N Z false = true ↔ condition.Holds m n := by
  cases condition with
  | eq => exact hZ
  | ne => simpa [Condition.reads, Condition.Holds] using not_congr hZ
  | ge => simpa [Condition.reads, Condition.Holds] using not_congr hN
  | lt => simpa [Condition.reads, Condition.Holds] using hN
  | gt =>
    have hgt : m > n ↔ ¬ m = n ∧ ¬ m < n := by omega
    simpa [Condition.reads, Condition.Holds, hgt] using and_congr (not_congr hZ) (not_congr hN)
  | le =>
    have hle : m ≤ n ↔ m = n ∨ m < n := by omega
    simpa [Condition.reads, Condition.Holds, hle] using or_congr hZ hN

/-- Bit 30 of a number in two's complement. -/
theorem getLsbD_thirty_iff (word : Word) :
    word.getLsbD 30 = true ↔
      2 ^ 30 ≤ word.toInt ∨ (-2 ^ 30 ≤ word.toInt ∧ word.toInt < 0) := by
  rw [BitVec.getLsbD, Nat.testBit_eq_decide_div_mod_eq, decide_eq_true_iff,
    BitVec.toInt_eq_toNat_cond]
  have := word.isLt
  split <;> omega

/-- A difference that fits into a word is not reduced. -/
theorem toInt_sub_of_fits {a b : Word} (hlow : -2 ^ 31 ≤ a.toInt - b.toInt)
    (hhigh : a.toInt - b.toInt < 2 ^ 31) : (a - b).toInt = a.toInt - b.toInt := by
  rw [BitVec.toInt_sub]
  exact Int.bmod_eq_of_le (by omega) (by omega)

/-- **A comparison is read back as it should be**, by all six conditions, iff the difference of the
two numbers has 31 bits. -/
theorem execute_compare {word : Encoding} {registers : Registers} {a b : Word}
    (h : SetsFlags 10 word registers a b) (hV : (registers cpsr).getLsbD 28 = false)
    (hlow : -2 ^ 31 ≤ a.toInt - b.toInt) (hhigh : a.toInt - b.toInt < 2 ^ 31) :
    ∃ registers', DataProcessing.execute word registers = some registers' ∧
      ((∀ (condition : Condition) (byte : Byte), getCond byte = condition.code →
          (checkCond byte (registers' cpsr) = true ↔ condition.Holds a.toInt b.toInt)) ↔
        -2 ^ 30 ≤ a.toInt - b.toInt ∧ a.toInt - b.toInt < 2 ^ 30) := by
  refine ⟨_, h.execute_eq fun carry => compute_cmp _ _ b carry registers, ?_⟩
  rw [h.Rn]
  have hsub := toInt_sub_of_fits hlow hhigh
  have hZ : decide (a - b = 0) = true ↔ a.toInt = b.toInt := by
    rw [decide_eq_true_iff, BitVec.sub_eq_iff_eq_add, BitVec.ofNat_eq_ofNat,
      BitVec.zero_add, BitVec.toInt_inj]
  have hN : (a - b).getLsbD 30 = true ↔
      2 ^ 30 ≤ a.toInt - b.toInt ∨ (-2 ^ 30 ≤ a.toInt - b.toInt ∧ a.toInt - b.toInt < 0) := by
    rw [getLsbD_thirty_iff, hsub]
  constructor
  · intro hconditions
    -- `lt` reads N
    have hlt := hconditions .lt (Condition.lt.code <<< 4) (by decide)
    rw [checkCond_code .lt (by decide), Registers.set_self, setCPSR_N, setCPSR_V, hV] at hlt
    have hless : (a - b).getLsbD 30 = true ↔ a.toInt < b.toInt := by
      simpa [Condition.reads, Condition.Holds] using hlt
    rw [hN] at hless
    omega
  · intro hfits condition byte hbyte
    rw [checkCond_code condition hbyte, Registers.set_self, setCPSR_N, setCPSR_Z, setCPSR_V, hV]
    exact reads_iff hZ (by rw [hN]; omega) condition

/-- Register file in which `r1` holds `a`, `r2` holds `b` and the flags are `flags`. -/
def twoRegisters (a b flags : Word) : Registers := fun i =>
  if i = reg 1 then a else if i = reg 2 then b else if i = cpsr then flags else 0

/-- `cmp r1, r2` with 5 and 7, under all flags but V. -/
theorem execute_compare_five :
    ∃ registers', DataProcessing.execute ⟨0xe1, 0x51, 0x00, 0x02⟩
        (twoRegisters 5 7 0xe0000000) = some registers' ∧
      ((∀ (condition : Condition) (byte : Byte), getCond byte = condition.code →
          (checkCond byte (registers' cpsr) = true ↔
            condition.Holds (5#32).toInt (7#32).toInt)) ↔
        -2 ^ 30 ≤ (5#32).toInt - (7#32).toInt ∧ (5#32).toInt - (7#32).toInt < 2 ^ 30) :=
  execute_compare ⟨by decide, by decide, by decide, 0, by decide⟩ (by decide) (by decide)
    (by decide)

/-- `cmp r1, r2` with 2^30 and 0: `ge` fails. -/
theorem execute_compare_ge :
    (DataProcessing.execute ⟨0xe1, 0x51, 0x00, 0x02⟩ (twoRegisters 0x40000000 0 0)).map
        (fun registers => checkCond 0xa0 (registers cpsr)) = some false ∧
      Condition.ge.Holds (0x40000000#32).toInt (0#32).toInt :=
  ⟨by decide, by simp [Condition.Holds]⟩

/-! ## Flags of the arithmetic instructions -/

/-- The data processing instructions that write a sum or a difference. -/
inductive Arithmetic where
  | sub | rsb | add
deriving DecidableEq

namespace Arithmetic

/-- The opcode. -/
def opCode : Arithmetic → Byte
  | sub => 2
  | rsb => 3
  | add => 4

/-- The result of the operation. -/
def value (op : Arithmetic) (a b : Word) : Word :=
  match op with
  | sub => a - b
  | rsb => b - a
  | add => a + b

/-- The carry of the operation: no borrow in the subtraction, the bit above the sum. -/
def carryOut (op : Arithmetic) (a b : Word) : Bool :=
  match op with
  | sub => decide (b ≤ a)
  | rsb => decide (a ≤ b)
  | add => decide (2 ^ 32 ≤ a.toNat + b.toNat)

/-- The carry that the emulator computes from operand 2 and what is in `Rn` by then. -/
def carryAfter (op : Arithmetic) (Rn b : Word) : Bool :=
  match op with
  | sub | rsb => decide (b ≤ Rn)
  | add => (Rn + b).msb

/-- The operands for which this is the carry, if `Rn` still holds `a`. -/
def Carries (op : Arithmetic) (a b : ℕ) : Prop :=
  match op with
  | sub => True
  | rsb => a = b
  | add => a + b < 2 ^ 31 ∨ 3 * 2 ^ 31 ≤ a + b

/-- The operands for which this is the carry, if `Rn` was overwritten by the result. -/
def CarriesOverwritten (op : Arithmetic) (a b : ℕ) : Prop :=
  match op with
  | sub => 2 * b ≤ a ∨ 2 ^ 32 + a < 2 * b
  | rsb => a = 0
  | add =>
    if a + b < 2 ^ 32 then (a + 2 * b) % 2 ^ 32 < 2 ^ 31 else 2 ^ 31 ≤ (a + 2 * b) % 2 ^ 32

end Arithmetic

theorem compute_arithmetic (op : Arithmetic) (Rn Rd : Fin 17) (b : Word) (carry : Byte)
    (registers : Registers) :
    DataProcessing.compute op.opCode Rn Rd b carry registers =
      (registers.set Rd (op.value (registers Rn) b), op.value (registers Rn) b,
        carryByte (op.carryAfter (registers.set Rd (op.value (registers Rn) b) Rn) b)) := by
  cases op with
  | sub =>
    rw [Arithmetic.carryAfter, ← borrow_eq]
    exact Prod.ext rfl (Prod.ext (Registers.set_self ..) rfl)
  | rsb =>
    rw [Arithmetic.carryAfter, ← borrow_eq]
    exact Prod.ext rfl (Prod.ext (Registers.set_self ..) rfl)
  | add =>
    rw [Arithmetic.carryAfter, ← topBit_eq]
    exact Prod.ext rfl (Prod.ext (Registers.set_self ..) rfl)

theorem carryAfter_iff (op : Arithmetic) (a b : Word) :
    op.carryAfter a b = op.carryOut a b ↔ op.Carries a.toNat b.toNat := by
  have ha := a.isLt
  have hb := b.isLt
  cases op with
  | sub => simp [Arithmetic.carryAfter, Arithmetic.carryOut, Arithmetic.Carries]
  | rsb =>
    simp only [Arithmetic.carryAfter, Arithmetic.carryOut, Arithmetic.Carries, decide_eq_decide,
      BitVec.le_def]
    omega
  | add =>
    simp only [Arithmetic.carryAfter, Arithmetic.carryOut, Arithmetic.Carries, decide_eq_decide,
      BitVec.msb_eq_decide, BitVec.toNat_add]
    omega

theorem carryAfter_value_iff (op : Arithmetic) (a b : Word) :
    op.carryAfter (op.value a b) b = op.carryOut a b ↔
      op.CarriesOverwritten a.toNat b.toNat := by
  have ha := a.isLt
  have hb := b.isLt
  cases op with
  | sub =>
    simp only [Arithmetic.carryAfter, Arithmetic.value, Arithmetic.carryOut,
      Arithmetic.CarriesOverwritten, decide_eq_decide, BitVec.le_def, BitVec.toNat_sub]
    omega
  | rsb =>
    simp only [Arithmetic.carryAfter, Arithmetic.value, Arithmetic.carryOut,
      Arithmetic.CarriesOverwritten, decide_eq_decide, BitVec.le_def, BitVec.toNat_sub]
    omega
  | add =>
    simp only [Arithmetic.carryAfter, Arithmetic.value, Arithmetic.carryOut,
      Arithmetic.CarriesOverwritten, decide_eq_decide, BitVec.msb_eq_decide, BitVec.toNat_add]
    by_cases hwrap : a.toNat + b.toNat < 2 ^ 32
    · rw [if_pos hwrap]
      omega
    · rw [if_neg hwrap]
      omega

theorem reg_inj {m n : Nibble} : reg m = reg n ↔ m = n := by
  rw [reg, reg, Fin.mk.injEq, BitVec.toNat_inj]

theorem reg_ne_cpsr (n : Nibble) : cpsr ≠ reg n := by
  have hn := n.isLt
  rw [Ne, Fin.ext_iff]
  exact Nat.ne_of_gt hn

/-- The sum before it is reduced: the product, with the register to accumulate if there is one. -/
def Multiply.Factors.total (f : Multiply.Factors) (registers : Registers) : ℕ :=
  (registers (reg f.Rm)).toNat * (registers (reg f.Rs)).toNat +
    f.Rn.elim 0 fun Rn => (registers (reg Rn)).toNat

theorem value_eq_zero_iff (f : Multiply.Factors) (registers : Registers) :
    f.value registers = 0 ↔ 2 ^ 32 ∣ f.total registers := by
  rw [Nat.dvd_iff_mod_eq_zero, ← BitVec.toNat_inj]
  unfold Multiply.Factors.value Multiply.Factors.total
  cases f.Rn <;> simp

/-- A multiplication sets Z and leaves it as it was otherwise. -/
theorem setCPSR_multiply_Z (result CPSR : Word) :
    (Multiply.setCPSR result CPSR).getLsbD 30 = (decide (result = 0) || CPSR.getLsbD 30) := by
  unfold Multiply.setCPSR
  by_cases h : result = 0
  · simp [h]
  · rw [if_neg h, decide_eq_false h, Bool.false_or]
    simp

/-- **The flags of the arithmetic instructions** are those of the operation on the operands as they
were before: Z always, for a data processing instruction, and the carry on the operands that
`Arithmetic.Carries` lists; Z, for a multiplication, iff the result is zero or Z was clear. -/
theorem flags_iff (registers : Registers) :
    (∀ (op : Arithmetic) (word : Encoding) (a b : Word),
      SetsFlags op.opCode word registers a b →
        ∃ registers', DataProcessing.execute word registers = some registers' ∧
          ((((registers' cpsr).getLsbD 30 = true ↔ op.value a b = 0) ∧
              (registers' cpsr).getLsbD 29 = op.carryOut a b) ↔
            if DataProcessing.getRd word.third = DataProcessing.getRn word.second then
              op.CarriesOverwritten a.toNat b.toNat
            else op.Carries a.toNat b.toNat)) ∧
    ∀ word : Encoding, Multiply.getS word.second = true →
      (((Multiply.execute word registers cpsr).getLsbD 30 = true ↔
          (Multiply.factors word).value registers = 0) ↔
        2 ^ 32 ∣ (Multiply.factors word).total registers ∨
          (registers cpsr).getLsbD 30 = false) := by
  constructor
  · intro op word a b h
    refine ⟨_, h.execute_eq fun carry => compute_arithmetic op _ _ b carry registers, ?_⟩
    rw [Registers.set_self, setCPSR_Z, setCPSR_C, h.Rn, decide_eq_true_iff]
    simp only [true_and]
    by_cases hsame : DataProcessing.getRd word.third = DataProcessing.getRn word.second
    · rw [if_pos hsame, hsame, Registers.set_self]
      exact carryAfter_value_iff op a b
    · rw [if_neg hsame, Registers.set_of_ne (mt reg_inj.1 (Ne.symm hsame)), h.Rn]
      exact carryAfter_iff op a b
  · intro word hS
    have hflags : (Multiply.factors word).setsFlags = true := hS
    rw [Multiply.execute_factors, Multiply.Factors.execute, if_pos hflags, Registers.set_self,
      setCPSR_multiply_Z, Registers.set_self, Registers.set_of_ne (reg_ne_cpsr _),
      Bool.or_eq_true, decide_eq_true_iff, ← value_eq_zero_iff]
    by_cases hzero : (Multiply.factors word).value registers = 0
    · simp only [hzero, true_or]
    · simp only [hzero, false_or, iff_false, Bool.not_eq_true]

/-- `sub r1, r1, r2` with 9 and 4: the destination is read again, but no borrow appears. -/
theorem flags_iff_sub :
    ∃ registers', DataProcessing.execute ⟨0xe0, 0x51, 0x10, 0x02⟩ (twoRegisters 9 4 0) =
        some registers' ∧
      ((((registers' cpsr).getLsbD 30 = true ↔ Arithmetic.sub.value 9 4 = 0) ∧
          (registers' cpsr).getLsbD 29 = Arithmetic.sub.carryOut 9 4) ↔
        Arithmetic.sub.CarriesOverwritten 9 4) :=
  (flags_iff (twoRegisters 9 4 0)).1 .sub ⟨0xe0, 0x51, 0x10, 0x02⟩ 9 4
    ⟨by decide, by decide, by decide, 0, by decide⟩

/-- `sub r1, r1, r2` with 5 and 4 borrows nothing and clears C. -/
theorem flags_sub_overwritten :
    (DataProcessing.execute ⟨0xe0, 0x51, 0x10, 0x02⟩ (twoRegisters 5 4 0)).map
        (fun registers => (registers cpsr).getLsbD 29) = some false ∧
      Arithmetic.sub.carryOut 5 4 = true := by
  decide

end DocMachine.Arm.Emulator
