import DocMachine.Arm.Operands

/-!
# The barrel shifter

What the four shift types of the architecture do to a word, and what `shifter` of
`emulator/common_functions/common.c` (15-35) makes of them, for the amounts from 1 to 31 that an
instruction can name without the shift being undefined in C.

* `shifted` is the value and `lastOut` the carry of each type: the last bit that leaves the word.
* Three of the four come out right for every word. The arithmetic shift is a division of an unsigned
  word and fills with zeros, so that it is right exactly for the words whose top bit is clear. The
  carry is right in all four.

Results:
* `getLsbD_shiftLeft_last`: the bit that the next place of a left shift would drop.
* `shifter_iff`: the result and the carry are those of the architecture iff the shift is not an
  arithmetic one of a word whose top bit is set.
-/

namespace DocMachine.Arm

open Assembler (Shift)

namespace Assembler.Shift

/-- The word after a shift. -/
def shifted (shift : Shift) (word : Word) (amount : ℕ) : Word :=
  match shift with
  | lsl => word <<< amount
  | lsr => word >>> amount
  | asr => word.sshiftRight amount
  | ror => word.rotateRight amount

/-- The last bit that leaves the word: at the top for a left shift, at the bottom for the
others. -/
def lastOut (shift : Shift) (word : Word) (amount : ℕ) : Bool :=
  match shift with
  | lsl => word.getLsbD (32 - amount)
  | lsr | asr | ror => word.getLsbD (amount - 1)

end Assembler.Shift

namespace Emulator

/-! ## The carry -/

/-- A bit as the byte of the carry. -/
def carryByte (bit : Bool) : Byte := (BitVec.ofBool bit).setWidth 8

theorem carryByte_getLsbD (word : Word) (i : ℕ) :
    ((word >>> i) &&& 1).setWidth 8 = carryByte (word.getLsbD i) := by
  ext j hj
  by_cases h0 : j = 0
  · subst h0
    simp [carryByte]
  · simp [carryByte, BitVec.getElem_one, h0]

/-- The bit that the next place of a left shift would drop. -/
theorem getLsbD_shiftLeft_last (word : Word) {amount : ℕ} (h : 0 < amount) (h32 : amount < 32) :
    (word <<< (amount - 1)).getLsbD 31 = word.getLsbD (32 - amount) := by
  have hlow : ¬ 31 < amount - 1 := by omega
  have hindex : 31 - (amount - 1) = 32 - amount := by omega
  rw [BitVec.getLsbD_shiftLeft, hindex]
  simp [hlow]

/-! ## The words -/

/-- An unsigned division by a power of two is a logical shift. -/
theorem div_shiftLeft_one (word : Word) {amount : ℕ} (h32 : amount < 32) :
    word / (1#32 <<< amount) = word >>> amount := by
  apply BitVec.eq_of_toNat_eq
  have hpow : 1 <<< amount < 2 ^ 32 := by
    rw [Nat.one_shiftLeft]
    exact Nat.pow_lt_pow_right (by decide) h32
  rw [BitVec.toNat_udiv, BitVec.toNat_ushiftRight, BitVec.toNat_shiftLeft,
    BitVec.toNat_ofNat, Nat.mod_eq_of_lt (by decide : 1 < 2 ^ 32), Nat.mod_eq_of_lt hpow,
    Nat.one_shiftLeft, Nat.shiftRight_eq_div_pow]

theorem or_shiftLeft_eq_rotateRight (word : Word) {amount : ℕ} (h32 : amount < 32) :
    (word >>> amount) ||| (word <<< (32 - amount)) = word.rotateRight amount := by
  rw [BitVec.rotateRight_def, Nat.mod_eq_of_lt h32]

/-- The logical and the arithmetic shift to the right agree on the words whose top bit is clear,
and on no others. -/
theorem ushiftRight_eq_sshiftRight_iff (word : Word) {amount : ℕ} (h : 0 < amount) :
    word >>> amount = word.sshiftRight amount ↔ word.msb = false := by
  constructor
  · intro heq
    have hmsb := congrArg BitVec.msb heq
    have hzero : (word >>> amount).msb = false := by
      rw [BitVec.msb_ushiftRight, decide_eq_true h, Bool.not_true, Bool.false_and]
    rwa [hzero, BitVec.msb_sshiftRight, eq_comm] at hmsb
  · intro hmsb
    exact (BitVec.sshiftRight_eq_of_msb_false hmsb).symm

/-! ## The shifter -/

/-- What `shifter` returns for the four types. -/
theorem shifter_code (shift : Shift) {amount : Byte} (h : 0 < amount.toNat)
    (h32 : amount.toNat < 32) (word : Word) (carry : Byte) :
    shifter (shift.code.setWidth 8) amount word carry =
      some (if shift = .asr then word >>> amount.toNat else shift.shifted word amount.toNat,
        carryByte (shift.lastOut word amount.toNat)) := by
  have h0 : amount.toNat ≠ 0 := Nat.ne_of_gt h
  unfold shifter
  simp only [if_neg h0, if_neg (Nat.not_le.2 h32), carryByte_getLsbD,
    getLsbD_shiftLeft_last word h h32]
  cases shift with
  | lsl => simp [Shift.code, Shift.shifted, Shift.lastOut]
  | lsr => simp [Shift.code, Shift.shifted, Shift.lastOut]
  | asr => simp [Shift.code, Shift.lastOut, div_shiftLeft_one word h32]
  | ror => simp [Shift.code, Shift.shifted, Shift.lastOut, or_shiftLeft_eq_rotateRight word h32]

/-- **The barrel shifter** returns what the architecture defines, with the last bit shifted out,
iff it is not to fill with the sign of a negative word. -/
theorem shifter_iff (shift : Shift) (amount : Byte) (h : 1 ≤ amount.toNat)
    (h31 : amount.toNat ≤ 31) (word : Word) (carry : Byte) :
    shifter (shift.code.setWidth 8) amount word carry =
        some (shift.shifted word amount.toNat, carryByte (shift.lastOut word amount.toNat)) ↔
      (shift = .asr → word.msb = false) := by
  rw [shifter_code shift h (Nat.lt_succ_of_le h31)]
  by_cases hasr : shift = .asr
  · subst hasr
    rw [if_pos rfl, ← ushiftRight_eq_sshiftRight_iff word h]
    simp [Shift.shifted]
  · simp [hasr]

theorem shifter_iff_lsr : shifter 1 4 0x80000008 0 = some (0x08000000, 1) :=
  (shifter_iff .lsr 4 (by decide) (by decide) 0x80000008 0).2 (by simp)

/-- An arithmetic shift by 1 of the least word loses its sign. -/
theorem shifter_asr_negative :
    shifter (Shift.asr.code.setWidth 8) 1 0x80000000 0 = some (0x40000000, 0) ∧
      shifter (Shift.asr.code.setWidth 8) 1 0x80000000 0 ≠
        some (Shift.asr.shifted 0x80000000 1, carryByte (Shift.asr.lastOut 0x80000000 1)) := by
  decide

end Emulator

end DocMachine.Arm
