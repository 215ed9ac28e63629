import DocMachine.Arm.Assembler.Instructions
import DocMachine.Arm.Emulator.Instructions

/-!
# The offset of a branch in the two programs

The assembler turns a byte offset into 24 bits of a word (`compute_offset`, `set_offset`,
`assembler/branch/branch.c` 75-98) and the emulator turns these back into an offset (`get_offset`,
`get_sign_extended_offset`, `execute_branch`, `emulator/branch/branch.c` 12-39).

* An offset is an integer on the side of the assembler, a word on the side of the emulator. Both are
  compared modulo `2 ^ 26` (`wrap26`).
* `computeOffset_low` is the lower end: 24 bits are the number of words in two's complement, for
  either sign.

Results:
* `execute_encode`: for a multiple of 4 that is at least `-2 ^ 25`, executing the encoded word adds
  the number between `-2 ^ 25` and `2 ^ 25` that is congruent to the offset modulo `2 ^ 26`.
* `arrives_iff`: between two places of a program of at most `2 ^ 14` words the program counter
  arrives where it should iff the offset is right modulo `2 ^ 26`.
* `execute_encode_eq`: in the interval of 24 signed bits, the round trip adds the offset itself, and
  the word has the condition and the type that were put into it.
-/

namespace DocMachine.Arm

open DocMachine.Lib

/-- Where `offset` lands when only 26 bits of it survive. -/
def wrap26 (offset : ℤ) : ℤ := Int.bmod offset (2 ^ 26)

theorem toNat_and_low (w : Word) : (w &&& 0xffffff#32).toNat = w.toNat % 2 ^ 24 := by
  rw [BitVec.toNat_and]
  exact Nat.and_two_pow_sub_one_eq_mod w.toNat 24

/-- The emulator reads the low 24 bits. -/
theorem getOffset_ofWord (w : Word) :
    Emulator.Branch.getOffset (Encoding.ofWord w) = w &&& 0xffffff#32 := by
  have hmask : 0xffffff#32 = (BitVec.allOnes 24).setWidth 32 := by decide
  simp only [Emulator.Branch.getOffset, Encoding.ofWord, getNthByte]
  rw [hmask]
  ext i hi
  simp only [BitVec.getElem_or, BitVec.getElem_and, BitVec.getElem_shiftLeft,
    BitVec.getLsbD_setWidth, BitVec.getElem_setWidth, BitVec.getLsbD_ushiftRight,
    BitVec.getLsbD_allOnes]
  grind

/-- The template and the condition leave the low 24 bits alone. -/
theorem encode_low (cond : Nibble) (offset : ℤ) :
    Assembler.Branch.encode cond offset &&& 0xffffff#32 =
      Assembler.Branch.computeOffset offset &&& 0xffffff#32 := by
  have hcond : 0xffffff#32 &&& (cond.setWidth 32 <<< 28) = 0 := by decide +revert
  have htemplate : 0xffffff#32 &&& Assembler.Branch.getBranchInstructionTemplate = 0 := by decide
  unfold Assembler.Branch.encode
  rw [BitVec.and_comm, BitVec.and_or_distrib_left, BitVec.and_or_distrib_left, hcond, htemplate]
  simp [BitVec.and_comm]

/-- A number below `2 ^ i` under a multiple of `2 ^ i`. -/
theorem two_pow_mul_or {i a b : ℕ} (h : b < 2 ^ i) : 2 ^ i * a ||| b = 2 ^ i * a + b :=
  (Nat.two_pow_add_eq_or_of_lt h a).symm

/-- The low 24 bits are the number of words, in two's complement. -/
theorem computeOffset_low {offset : ℤ} (hlow : -2 ^ 25 ≤ offset) :
    ((Assembler.Branch.computeOffset offset).toNat % 2 ^ 24 : ℤ) = offset / 4 % 2 ^ 24 := by
  unfold Assembler.Branch.computeOffset
  by_cases hpos : 0 ≤ offset
  · rw [if_pos hpos, BitVec.toNat_ofInt]
    omega
  · rw [if_neg hpos]
    obtain ⟨n, hn⟩ := Int.eq_ofNat_of_zero_le (show 0 ≤ offset + 2 ^ 25 by omega)
    have hsmall : n < 2 ^ 25 := by omega
    have hword : (1#32 <<< 25 ||| BitVec.ofInt 32 (offset + 2 ^ 25)).toNat = 2 ^ 25 + n := by
      rw [hn, BitVec.ofInt_natCast, BitVec.toNat_or, BitVec.toNat_ofNat,
        Nat.mod_eq_of_lt (by omega)]
      exact two_pow_mul_or (a := 1) hsmall
    rw [BitVec.toNat_ushiftRight, hword, Nat.shiftRight_eq_div_pow]
    omega

/-- Sign extension of a 26-bit offset. -/
theorem getSignExtendedOffset_eq {w : Word} (hw : w.toNat < 2 ^ 26) :
    Emulator.Branch.getSignExtendedOffset w = BitVec.ofInt 32 (wrap26 w.toNat) := by
  unfold Emulator.Branch.getSignExtendedOffset wrap26
  have htop : (w >>> 25).toNat = w.toNat / 2 ^ 25 := by
    rw [BitVec.toNat_ushiftRight, Nat.shiftRight_eq_div_pow]
  apply BitVec.eq_of_toNat_eq
  rw [BitVec.toNat_ofInt, Int.bmod_def]
  by_cases hneg : w >>> 25 = 1
  · have hor : (0xfc000000#32).toNat ||| w.toNat = 2 ^ 26 * 63 + w.toNat :=
      two_pow_mul_or (a := 63) hw
    rw [if_pos hneg, BitVec.toNat_or, hor]
    have hone : (1 : Word).toNat = 1 := rfl
    rw [hneg, hone] at htop
    omega
  · have hsmall : w.toNat < 2 ^ 25 := by
      by_contra hn
      exact hneg (BitVec.eq_of_toNat_eq (by rw [htop]; simp; omega))
    rw [if_neg hneg]
    omega

/-- Only the low 26 bits of an offset matter. -/
theorem wrap26_congr {a b : ℤ} (h : a % 2 ^ 26 = b % 2 ^ 26) : wrap26 a = wrap26 b := by
  unfold wrap26
  rw [Int.bmod_def, Int.bmod_def]
  omega

/-- **From the assembler to the emulator.** -/
theorem execute_encode (cond : Nibble) {offset : ℤ} (hlow : -2 ^ 25 ≤ offset) (hword : 4 ∣ offset)
    (registers : Emulator.Registers) :
    Emulator.Branch.execute (Encoding.ofWord (Assembler.Branch.encode cond offset)) registers
        Emulator.pc = registers Emulator.pc + BitVec.ofInt 32 (wrap26 offset) := by
  have hbytes : ((Assembler.Branch.computeOffset offset &&& 0xffffff#32) <<< 2).toNat =
      (Assembler.Branch.computeOffset offset).toNat % 2 ^ 24 * 4 := by
    rw [BitVec.toNat_shiftLeft, toNat_and_low, Nat.shiftLeft_eq]
    omega
  have hlow' := computeOffset_low hlow
  simp only [Emulator.Branch.execute, Emulator.Registers.set_self, getOffset_ofWord, encode_low]
  rw [getSignExtendedOffset_eq (by rw [hbytes]; omega), hbytes]
  generalize (Assembler.Branch.computeOffset offset).toNat = n at hlow'
  rw [wrap26_congr (a := (n % 2 ^ 24 * 4 : ℕ)) (b := offset) (by omega)]

/-- Between two places of a program of at most `2 ^ 14` words the program counter arrives where it
should iff the offset is right modulo `2 ^ 26`. -/
theorem arrives_iff {i d : ℕ} (offset : ℤ) (hi : i < 2 ^ 14) (hd : d ≤ 2 ^ 14) :
    BitVec.ofNat 32 (4 * i + 8) + BitVec.ofInt 32 (wrap26 offset) = BitVec.ofNat 32 (4 * d) ↔
      (2 ^ 26 : ℤ) ∣ offset - (4 * d - (4 * i + 8)) := by
  unfold wrap26
  rw [← BitVec.toNat_inj, BitVec.toNat_add, BitVec.toNat_ofInt, BitVec.toNat_ofNat,
    BitVec.toNat_ofNat, Int.bmod_def]
  omega

/-! ## Inside the range -/

theorem wrap26_eq {offset : ℤ} (hlow : -2 ^ 25 ≤ offset) (hhigh : offset < 2 ^ 25) :
    wrap26 offset = offset :=
  Int.bmod_eq_of_le (by omega) (by omega)

/-- An encoded offset has 24 bits, whatever its sign. -/
theorem computeOffset_lt {offset : ℤ} (hlow : -2 ^ 25 ≤ offset) (hhigh : offset < 2 ^ 25) :
    (Assembler.Branch.computeOffset offset).toNat < 2 ^ 24 := by
  unfold Assembler.Branch.computeOffset
  by_cases hpos : 0 ≤ offset
  · rw [if_pos hpos, BitVec.toNat_ofInt]
    omega
  · obtain ⟨n, hn⟩ := Int.eq_ofNat_of_zero_le (show 0 ≤ offset + 2 ^ 25 by omega)
    have hor : (1#32 <<< 25 ||| BitVec.ofInt 32 (offset + 2 ^ 25)).toNat < 2 ^ 26 := by
      rw [hn, BitVec.ofInt_natCast, BitVec.toNat_or, BitVec.toNat_ofNat]
      exact Nat.or_lt_two_pow (by decide) (by omega)
    rw [if_neg hpos, BitVec.toNat_ushiftRight, Nat.shiftRight_eq_div_pow]
    omega

/-- The high byte of a branch: the condition and the bits of the instruction type. -/
theorem encode_high (cond : Nibble) {offset : ℤ} (hlow : -2 ^ 25 ≤ offset)
    (hhigh : offset < 2 ^ 25) : Assembler.Branch.encode cond offset >>> 24 =
      (cond.setWidth 32 <<< 4) ||| 0xa#32 := by
  have hlt := computeOffset_lt hlow hhigh
  have hzero : Assembler.Branch.computeOffset offset >>> 24 = 0#32 := by
    apply BitVec.eq_of_toNat_eq
    rw [BitVec.toNat_ushiftRight, Nat.shiftRight_eq_div_pow, Nat.div_eq_of_lt hlt]
    rfl
  have hfields : (Assembler.Branch.getBranchInstructionTemplate ||| (cond.setWidth 32 <<< 28)) >>>
      24 = (cond.setWidth 32 <<< 4) ||| 0xa#32 := by
    decide +revert
  unfold Assembler.Branch.encode
  rw [BitVec.ushiftRight_or_distrib, hfields, hzero, BitVec.or_zero]

/-- **Round trip.** Executing an encoded offset adds it to the program counter, and the word has the
condition and the type that were put into it. -/
theorem execute_encode_eq (cond : Nibble) {offset : ℤ} (hlow : -2 ^ 25 ≤ offset)
    (hhigh : offset < 2 ^ 25) (hword : 4 ∣ offset) (registers : Emulator.Registers) :
    Emulator.Branch.execute (Encoding.ofWord (Assembler.Branch.encode cond offset)) registers =
        registers.set Emulator.pc (registers Emulator.pc + BitVec.ofInt 32 offset) ∧
      (Assembler.Branch.encode cond offset).extractLsb' 28 4 = cond ∧
      (Assembler.Branch.encode cond offset).extractLsb' 24 4 = 0b1010#4 := by
  have hcond : ∀ c : Nibble, ((c.setWidth 32 <<< 4) ||| 0xa#32).extractLsb' 4 4 = c := by decide
  have htype : ∀ c : Nibble, ((c.setWidth 32 <<< 4) ||| 0xa#32).extractLsb' 0 4 = 0xa#4 := by
    decide
  have hpc := execute_encode cond hlow hword registers
  rw [wrap26_eq hlow hhigh] at hpc
  have hfields : ∀ (word : Word) (i : ℕ),
      word.extractLsb' (24 + i) 4 = (word >>> 24).extractLsb' i 4 := by
    intro word i
    ext j hj
    simp [Nat.add_assoc]
  refine ⟨?_, ?_, ?_⟩
  · rw [← hpc]
    unfold Emulator.Branch.execute
    rw [Emulator.Registers.set_self]
  · rw [hfields _ 4, encode_high cond hlow hhigh, hcond cond]
  · rw [hfields _ 0, encode_high cond hlow hhigh, htype cond]

/-- A branch back to itself, taken if the flags say so: two words before the pipelined counter. -/
theorem execute_encode_eq_back :
    Emulator.Branch.execute (Encoding.ofWord (Assembler.Branch.encode 1 (-8))) (fun _ => 16) =
        Emulator.Registers.set (fun _ => 16) Emulator.pc (16 + BitVec.ofInt 32 (-8)) ∧
      (Assembler.Branch.encode 1 (-8)).extractLsb' 28 4 = 1 ∧
      (Assembler.Branch.encode 1 (-8)).extractLsb' 24 4 = 0b1010#4 :=
  execute_encode_eq 1 (by decide) (by decide) (by decide) (fun _ => 16)

end DocMachine.Arm
