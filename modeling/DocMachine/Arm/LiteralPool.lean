import Mathlib.Data.List.Basic
import DocMachine.Arm.Assembler.Assemble

/-!
# The literal pool

A load of a constant that does not fit a `mov` refers to a word after the program
(`assembler/single_data_transfer/single_data_transfer.c` 214-228, `assemble.c` 96-98, 149-159,
188-195).

* `constants` lists what should be in the pool, in program order, and `PoolCorrect` what should hold
  of the output: it ends with these words, and every load refers to its own.
* The address in the encoding of a load is computed from the number of instructions and the number
  of constants appended so far (`encodeLiteralLoad`, `getEndAddress`).
* The constants themselves are all written to the first word of the appended memory, so that only
  the last one is left (`Holds`), and the copy to the file takes a word with a zero first byte for
  the end.
* A load that comes last is 4 bytes behind the pool; the offset is stored as its absolute value with
  the U bit set.
* Only outputs that exist are spoken of, so that the labels and the `Heap` make no difference.

Results:
* `PoolInv.turn` and `poolInv_secondPass`: what the second pass keeps, turn by turn.
* `appended_iff`: what is appended is the pool iff there is no constant, or one whose low byte is
  not zero.
* `PoolInv.loads_iff`: with one constant, the loads refer to its place iff the last instruction is
  none of them.
* `pool_iff`: the pool of an assembled program is right iff the program has no such constant, or has
  one whose low byte is not zero and which is not loaded by the last instruction;
  `pool_twoConstants` has two.
-/

namespace DocMachine.Arm.Assembler

open DocMachine.Lib

/-! ## What has to hold -/

/-- The constants that go to the pool, in program order. -/
def constants (instructions : List Instruction) : List Word :=
  instructions.filterMap SingleDataTransfer.literal

/-- The number of constants before instruction `i`. -/
def constantsBefore (instructions : List Instruction) (i : ℕ) : ℕ :=
  (constants (instructions.take i)).length

/-- The offset in the encoding of a load: 12 bits, added if the U bit is set. -/
def pcOffset (word : Word) : ℤ :=
  if word.getLsbD 23 then (word &&& 0xfff#32).toNat else -(word &&& 0xfff#32).toNat

/-- The output ends with the constants, and every load of one refers to its place. -/
structure PoolCorrect (instructions : List Instruction) (output : List Byte) : Prop where
  pool : output.drop (4 * instructions.length) =
    (constants instructions).flatMap fun c => (Encoding.ofWord c).littleEndian
  load : ∀ i instruction c, instructions[i]? = some instruction →
    SingleDataTransfer.literal instruction = some c →
    ∃ word : Encoding, (output.drop (4 * i)).take 4 = word.littleEndian ∧
      4 * i + 8 + pcOffset word.toWord =
        4 * (instructions.length + constantsBefore instructions i)

/-- The pool lies within 4095 bytes of every load of a constant. -/
def WithinReach (instructions : List Instruction) : Prop :=
  ∀ i instruction c, instructions[i]? = some instruction →
    SingleDataTransfer.literal instruction = some c →
    4 * (instructions.length + constantsBefore instructions i) ≤ 4 * i + 8 + 4095

/-! ## The encoding of a load -/

theorem encodeLiteralLoad_low (Rd : Byte) :
    SingleDataTransfer.encodeLiteralLoad Rd 0 &&& 0xfff#32 = 0 ∧
      (SingleDataTransfer.encodeLiteralLoad Rd 0).getLsbD 23 = true := by
  decide +revert +kernel

theorem pcOffset_encodeLiteralLoad (Rd : Byte) {offset : ℤ} (h : offset.natAbs ≤ 4095) :
    pcOffset (SingleDataTransfer.encodeLiteralLoad Rd offset) = offset.natAbs := by
  obtain ⟨hlow, hU⟩ := encodeLiteralLoad_low Rd
  have hsplit : SingleDataTransfer.encodeLiteralLoad Rd offset =
      SingleDataTransfer.encodeLiteralLoad Rd 0 ||| BitVec.ofNat 32 offset.natAbs := by
    simp [SingleDataTransfer.encodeLiteralLoad, SingleDataTransfer.setOffset]
  have hbits : SingleDataTransfer.encodeLiteralLoad Rd offset &&& 0xfff#32 =
      BitVec.ofNat 32 offset.natAbs &&& 0xfff#32 := by
    rw [hsplit, BitVec.and_comm, BitVec.and_or_distrib_left, BitVec.and_comm, hlow]
    simp [BitVec.and_comm]
  have hnat : (BitVec.ofNat 32 offset.natAbs &&& 0xfff#32).toNat = offset.natAbs := by
    have hmask : offset.natAbs &&& 4095 = offset.natAbs % 4096 :=
      Nat.and_two_pow_sub_one_eq_mod offset.natAbs 12
    rw [BitVec.toNat_and, BitVec.toNat_ofNat, Nat.mod_eq_of_lt (by omega)]
    change offset.natAbs &&& 4095 = offset.natAbs
    omega
  unfold pcOffset
  rw [hbits, hnat, hsplit, BitVec.getLsbD_or, hU]
  simp

/-! ## The appended memory -/

/-- The memory holds one word, at its start. -/
structure Holds (memory : Fin (maxNumInstructions * 4) → Byte) (word : Word) : Prop where
  first : readEncoding memory 0 = some (Encoding.ofWord word)
  rest : ∀ p, 4 ≤ p.val → memory p = 0

theorem holds_zero : Holds (fun _ => 0) 0 := ⟨by decide +kernel, fun _ _ => rfl⟩

/-- A constant replaces the one before it. -/
theorem Holds.write {memory memory' : Fin (maxNumInstructions * 4) → Byte} {word word' : Word}
    (h : Holds memory word) (hwrite : writeWord memory 0 word' = some memory') :
    Holds memory' word' := by
  unfold writeWord at hwrite
  split at hwrite
  · cases hwrite
    refine ⟨?_, fun p hp => ?_⟩
    · simp [readEncoding, maxNumInstructions, Encoding.ofWord]
    · have hrest := h.rest p hp
      grind
  · cases hwrite

/-- The words that are copied to the file. -/
theorem Holds.copy {memory : Fin (maxNumInstructions * 4) → Byte} {word : Word}
    (h : Holds memory word) (fuel : ℕ) : copyAppended memory (fuel + 2) 0 =
      some (if getNthByte 4 word = 0 then [] else (Encoding.ofWord word).littleEndian) := by
  have hsecond : readEncoding memory 4 = some ⟨0, 0, 0, 0⟩ := by
    have hlt : 4 + 3 < maxNumInstructions * 4 := by decide
    rw [readEncoding, dif_pos hlt, h.rest _ (by simp), h.rest _ (by simp), h.rest _ (by simp),
      h.rest _ (by simp)]
  have hend : copyAppended memory (fuel + 1) 4 = some [] := by
    simp [copyAppended, hsecond]
  have hfourth : (Encoding.ofWord word).fourth = getNthByte 4 word := rfl
  rw [copyAppended, h.first]
  simp only [Option.bind_eq_bind, Option.bind_some, hfourth]
  by_cases hzero : getNthByte 4 word = 0
  · rw [if_pos hzero, if_pos hzero]
  · rw [if_neg hzero, if_neg hzero, hend]
    simp

/-! ## One instruction -/

variable {pass : FirstPass} {instruction : Instruction} {address : ℤ} {pool pool' : Pool}
  {word : Encoding} {c : Word}

theorem getMnemonic_of_isLdrInstruction {m : CString}
    (h : SingleDataTransfer.isLdrInstruction m = true) : getMnemonic m = some .ldr := by
  rw [of_decide_eq_true h]
  decide

/-- A load of a constant that goes to the pool. -/
theorem assembleInstruction_literal
    (hliteral : SingleDataTransfer.literal instruction = some c)
    (h : assembleInstruction pass instruction address pool = some (word, pool')) :
    (∃ Rd, word = Encoding.ofWord (SingleDataTransfer.encodeLiteralLoad Rd
      (getEndAddress pass.instructions.length pool.numAppended - address - 4))) ∧
    pool'.numAppended = pool.numAppended + 1 ∧
    writeWord pool.appendedMemory 0 c = some pool'.appendedMemory := by
  simp only [SingleDataTransfer.literal] at hliteral
  split at hliteral
  · rename_i hcond
    simp only [Bool.and_eq_true, decide_eq_true_eq] at hcond
    obtain ⟨⟨hldr, hequals⟩, hbig⟩ := hcond
    cases hliteral
    simp only [assembleInstruction, getMnemonic_of_isLdrInstruction hldr, Option.bind_eq_bind,
      Option.bind_some, SingleDataTransfer.assemble] at h
    obtain ⟨field, -, h⟩ := Option.bind_eq_some_iff.mp h
    obtain ⟨Rd, -, h⟩ := Option.bind_eq_some_iff.mp h
    rw [if_pos (by simp [hldr, hequals]), if_neg (by simpa using hbig)] at h
    obtain ⟨pool₁, hwrite, heq⟩ := Option.map_eq_some_iff.mp h
    obtain ⟨memory, hmemory, rfl⟩ := Option.map_eq_some_iff.mp hwrite
    cases heq
    exact ⟨⟨Rd, rfl⟩, rfl, hmemory⟩
  · cases hliteral

/-- Any other instruction leaves the pool alone. -/
theorem assembleInstruction_other
    (hliteral : SingleDataTransfer.literal instruction = none)
    (h : assembleInstruction pass instruction address pool = some (word, pool')) :
    pool' = pool := by
  have hmap : ∀ {x : Option Encoding}, (x.map fun word => (word, pool)) = some (word, pool') →
      pool' = pool := by
    intro x hx
    obtain ⟨_, -, heq⟩ := Option.map_eq_some_iff.mp hx
    cases heq
    rfl
  unfold assembleInstruction at h
  obtain ⟨m, -, h⟩ := Option.bind_eq_some_iff.mp h
  cases m
  case ldr | str =>
    simp only [SingleDataTransfer.literal] at hliteral
    simp only [SingleDataTransfer.assemble] at h
    obtain ⟨field, -, h⟩ := Option.bind_eq_some_iff.mp h
    obtain ⟨Rd, -, h⟩ := Option.bind_eq_some_iff.mp h
    split at h
    · rename_i hcond
      split at h
      · obtain ⟨_, -, heq⟩ := Option.map_eq_some_iff.mp h
        cases heq
        rfl
      · rename_i hbig
        rw [if_pos (by simpa [hcond] using hbig)] at hliteral
        cases hliteral
    · obtain ⟨_, -, heq⟩ := Option.map_eq_some_iff.mp h
      cases heq
      rfl
  case lsl =>
    obtain ⟨mov, -, h⟩ := Option.bind_eq_some_iff.mp h
    exact hmap h
  case andeq =>
    cases h
    rfl
  all_goals exact hmap h

/-! ## The second pass -/

theorem constants_take_succ {instructions : List Instruction} {i : ℕ}
    (hi : instructions[i]? = some instruction) :
    constants (instructions.take (i + 1)) =
      constants (instructions.take i) ++ (SingleDataTransfer.literal instruction).toList := by
  unfold constants
  rw [List.take_add_one, hi, Option.toList_some, List.filterMap_append]
  cases h : SingleDataTransfer.literal instruction <;> simp [h]

/-- A word of the file stays where it is when more is written. -/
theorem word_append {file appended : List Byte} {j : ℕ} (h : 4 * j + 4 ≤ file.length) :
    ((file ++ appended).drop (4 * j)).take 4 = (file.drop (4 * j)).take 4 := by
  rw [List.drop_append_of_le_length (by omega), List.take_append_of_le_length (by simp; omega)]

/-- What holds before turn `i` of the second pass. -/
structure PoolInv (instructions : List Instruction) (i : ℕ) (st : SecondPass) : Prop where
  address : st.address = 4 * i
  length : st.file.length = 4 * i
  count : st.pool.numAppended = constantsBefore instructions i
  memory : Holds st.pool.appendedMemory ((constants (instructions.take i)).getLast?.getD 0)
  load : ∀ j < i, ∀ instruction c, instructions[j]? = some instruction →
    SingleDataTransfer.literal instruction = some c →
    ∃ Rd, (st.file.drop (4 * j)).take 4 = (Encoding.ofWord (SingleDataTransfer.encodeLiteralLoad Rd
      (4 * (instructions.length + constantsBefore instructions j) - (4 * j + 8)))).littleEndian

theorem poolInv_start (instructions : List Instruction) :
    PoolInv instructions 0 (SecondPass.start 0) where
  address := rfl
  length := rfl
  count := rfl
  memory := holds_zero
  load := fun j hj => absurd hj (Nat.not_lt_zero j)

/-- A turn of the second pass. -/
theorem PoolInv.turn {i : ℕ} {st : SecondPass} (h : PoolInv pass.instructions i st)
    (hi : pass.instructions[i]? = some instruction)
    (hword : assembleInstruction pass instruction st.address st.pool = some (word, pool)) :
    PoolInv pass.instructions (i + 1) ⟨st.file ++ word.littleEndian, st.address + 4, pool⟩ := by
  have htake := constants_take_succ hi
  have hold : ∀ j < i, ((st.file ++ word.littleEndian).drop (4 * j)).take 4 =
      (st.file.drop (4 * j)).take 4 := by
    intro j hj
    have hlength := h.length
    exact word_append (by omega)
  have hnew : ((st.file ++ word.littleEndian).drop (4 * i)).take 4 = word.littleEndian := by
    rw [← h.length, List.drop_left]
    rfl
  have haddress : st.address + 4 = 4 * ((i + 1 : ℕ) : ℤ) := by
    have := h.address
    omega
  have hlength : (st.file ++ word.littleEndian).length = 4 * (i + 1) := by
    rw [List.length_append, h.length, Encoding.length_littleEndian]
    omega
  cases hliteral : SingleDataTransfer.literal instruction with
  | none =>
    obtain rfl := assembleInstruction_other hliteral hword
    rw [hliteral, Option.toList_none, List.append_nil] at htake
    refine ⟨haddress, hlength, ?_, ?_, fun j hj instruction' c hj' hc => ?_⟩
    · rw [h.count, constantsBefore, constantsBefore, htake]
    · rw [htake]
      exact h.memory
    · have hji : j ≠ i := by
        rintro rfl
        rw [hi] at hj'
        cases hj'
        rw [hliteral] at hc
        cases hc
      rw [hold j (by omega)]
      exact h.load j (by omega) instruction' c hj' hc
  | some c =>
    obtain ⟨⟨Rd, hRd⟩, hcount, hwrite⟩ := assembleInstruction_literal hliteral hword
    rw [hliteral, Option.toList_some] at htake
    refine ⟨haddress, hlength, ?_, ?_, fun j hj instruction' c' hj' hc => ?_⟩
    · rw [hcount, h.count, constantsBefore, constantsBefore, htake]
      simp
    · rw [htake, List.getLast?_concat, Option.getD_some]
      exact h.memory.write hwrite
    · by_cases hji : j = i
      · subst hji
        refine ⟨Rd, ?_⟩
        rw [hnew, hRd, h.count, h.address]
        congr 3
        unfold getEndAddress
        omega
      · rw [hold j (by omega)]
        exact h.load j (by omega) instruction' c' hj' hc

/-- The invariant at the end of the second pass. -/
theorem poolInv_secondPass {st : SecondPass}
    (h : secondPass pass 0 pass.instructions.length = some st) :
    PoolInv pass.instructions pass.instructions.length st :=
  secondPass_induction (poolInv_start _)
    (fun _ _ _ _ _ hP hi hword => hP.turn hi hword) (Nat.le_refl _) h

/-! ## The output -/

/-- At most one constant, its low byte not zero, and not loaded by the last instruction. -/
def PoolFits (instructions : List Instruction) : Prop :=
  constants instructions = [] ∨ ∃ c, constants instructions = [c] ∧ getNthByte 4 c ≠ 0 ∧
    instructions.getLast?.bind SingleDataTransfer.literal = none

variable {instructions : List Instruction} {i : ℕ}

/-- A constant is one of those after the ones before it. -/
theorem constantsBefore_lt (hi : instructions[i]? = some instruction)
    (hliteral : SingleDataTransfer.literal instruction = some c) :
    constantsBefore instructions i < (constants instructions).length := by
  have htake := constants_take_succ hi
  rw [hliteral, Option.toList_some] at htake
  have hsub : (constants (instructions.take (i + 1))).length ≤ (constants instructions).length :=
    ((List.take_sublist _ _).filterMap _).length_le
  rw [htake, List.length_append, List.length_singleton] at hsub
  exact hsub

/-- What the assembler writes. -/
theorem assemble_output {heap : Heap} {file : List Char} {output : List Byte}
    (hparse : parseFirst heap file = some pass) (h : assemble heap 0 file = some output) :
    ∃ st last, PoolInv pass.instructions pass.instructions.length st ∧
      last = (constants pass.instructions).getLast?.getD 0 ∧
      output = st.file ++
          if getNthByte 4 last = 0 then [] else (Encoding.ofWord last).littleEndian := by
  unfold assemble at h
  rw [hparse, Option.bind_eq_bind, Option.bind_some] at h
  obtain ⟨st, hst, h⟩ := Option.bind_eq_some_iff.mp h
  obtain ⟨appended, happended, h⟩ := Option.bind_eq_some_iff.mp h
  cases h
  have hinv := poolInv_secondPass hst
  have hmemory := hinv.memory
  rw [List.take_length] at hmemory
  have hcopy := hmemory.copy (maxNumInstructions - 1)
  rw [show maxNumInstructions - 1 + 2 = maxNumInstructions + 1 by decide, happended] at hcopy
  refine ⟨st, _, hinv, rfl, ?_⟩
  rw [Option.some.inj hcopy]

/-- The place that a load refers to. -/
theorem PoolInv.reads {st : SecondPass} {appended : List Byte}
    (h : PoolInv instructions instructions.length st) (hreach : WithinReach instructions)
    (hi : instructions[i]? = some instruction)
    (hliteral : SingleDataTransfer.literal instruction = some c) {word : Encoding}
    (hword : ((st.file ++ appended).drop (4 * i)).take 4 = word.littleEndian) :
    pcOffset word.toWord =
      (4 * (instructions.length + constantsBefore instructions i) - (4 * i + 8) : ℤ).natAbs := by
  have hlt := (List.getElem?_eq_some_iff.mp hi).1
  have hlength := h.length
  have hrange := hreach i instruction c hi hliteral
  obtain ⟨Rd, hRd⟩ := h.load i hlt instruction c hi hliteral
  rw [word_append (by omega), hRd] at hword
  have hsame : word = Encoding.ofWord (SingleDataTransfer.encodeLiteralLoad Rd
      (4 * (instructions.length + constantsBefore instructions i) - (4 * i + 8))) := by
    simp only [Encoding.littleEndian, List.cons.injEq] at hword
    obtain ⟨h4, h3, h2, h1, -⟩ := hword
    exact Encoding.ext h1.symm h2.symm h3.symm h4.symm
  rw [hsame, Encoding.toWord_ofWord, pcOffset_encodeLiteralLoad Rd (by omega)]

/-- **What is appended** is the pool iff there is no constant, or one whose low byte is not zero. -/
theorem appended_iff (cs : List Word) :
    (if getNthByte 4 (cs.getLast?.getD 0) = 0 then []
      else (Encoding.ofWord (cs.getLast?.getD 0)).littleEndian) =
        cs.flatMap (fun c => (Encoding.ofWord c).littleEndian) ↔
      cs = [] ∨ ∃ c, cs = [c] ∧ getNthByte 4 c ≠ 0 := by
  cases cs with
  | nil => exact ⟨fun _ => Or.inl rfl, fun _ => rfl⟩
  | cons c cs =>
    cases cs with
    | nil =>
      by_cases hzero : getNthByte 4 c = 0
      · simp [hzero, Encoding.littleEndian]
      · refine iff_of_true ?_ (Or.inr ⟨c, rfl, hzero⟩)
        rw [List.getLast?_singleton, Option.getD_some, if_neg hzero, List.flatMap_singleton]
    | cons c' cs =>
      -- two constants are longer than one word
      refine iff_of_false (fun hpool => ?_) (by simp)
      have hsize := congrArg List.length hpool
      simp only [List.flatMap_cons, List.length_append, Encoding.length_littleEndian] at hsize
      split at hsize
      · rw [List.length_nil] at hsize
        omega
      · rw [Encoding.length_littleEndian] at hsize
        omega

/-- **With one constant** the loads refer to its place iff the last instruction is none of them. -/
theorem PoolInv.loads_iff {st : SecondPass} {appended : List Byte}
    (h : PoolInv instructions instructions.length st) (hreach : WithinReach instructions)
    (hone : constants instructions = [c]) :
    (∀ i instruction c, instructions[i]? = some instruction →
      SingleDataTransfer.literal instruction = some c →
      ∃ word : Encoding, ((st.file ++ appended).drop (4 * i)).take 4 = word.littleEndian ∧
        4 * i + 8 + pcOffset word.toWord =
          4 * (instructions.length + constantsBefore instructions i)) ↔
      instructions.getLast?.bind SingleDataTransfer.literal = none := by
  have hlength := h.length
  constructor
  · intro hload
    by_contra hsome
    obtain ⟨c', hc'⟩ := Option.ne_none_iff_exists'.mp hsome
    obtain ⟨instruction, hget, hliteral⟩ := Option.bind_eq_some_iff.mp hc'
    rw [List.getLast?_eq_getElem?] at hget
    have hlt := (List.getElem?_eq_some_iff.mp hget).1
    have hfirst := constantsBefore_lt hget hliteral
    rw [hone, List.length_singleton] at hfirst
    obtain ⟨word, hword, heq⟩ := hload _ instruction c' hget hliteral
    rw [h.reads hreach hget hliteral hword] at heq
    omega
  · intro hend i instruction c hget hliteral
    have hfirst := constantsBefore_lt hget hliteral
    have hlt := (List.getElem?_eq_some_iff.mp hget).1
    rw [hone, List.length_singleton] at hfirst
    have hne : i ≠ instructions.length - 1 := by
      rintro rfl
      rw [List.getLast?_eq_getElem?, hget, Option.bind_some, hliteral] at hend
      cases hend
    obtain ⟨Rd, hRd⟩ := h.load i hlt instruction c hget hliteral
    rw [← word_append (by omega)] at hRd
    refine ⟨_, hRd, ?_⟩
    rw [h.reads hreach hget hliteral hRd]
    omega

/-- **The literal pool.** -/
theorem pool_iff {heap : Heap} {file : List Char} {output : List Byte}
    (hparse : parseFirst heap file = some pass) (h : assemble heap 0 file = some output)
    (hreach : WithinReach pass.instructions) :
    PoolCorrect pass.instructions output ↔ PoolFits pass.instructions := by
  obtain ⟨st, last, hinv, rfl, rfl⟩ := assemble_output hparse h
  have hdrop : ∀ appended : List Byte,
      (st.file ++ appended).drop (4 * pass.instructions.length) = appended := by
    intro appended
    rw [← hinv.length, List.drop_left]
  constructor
  · rintro ⟨hpool, hload⟩
    rw [hdrop, appended_iff] at hpool
    obtain hnil | ⟨c, hone, hlow⟩ := hpool
    · exact Or.inl hnil
    · exact Or.inr ⟨c, hone, hlow, (hinv.loads_iff hreach hone).mp hload⟩
  · rintro (hnil | ⟨c, hone, hlow, hend⟩)
    · refine ⟨?_, fun i instruction c hget hliteral => ?_⟩
      · rw [hdrop, appended_iff]
        exact Or.inl hnil
      · have hfirst := constantsBefore_lt hget hliteral
        rw [hnil] at hfirst
        exact absurd hfirst (Nat.not_lt_zero _)
    · refine ⟨?_, (hinv.loads_iff hreach hone).mpr hend⟩
      rw [hdrop, appended_iff]
      exact Or.inr ⟨c, hone, hlow⟩

/-! ## Two programs -/

/-- One constant, and an instruction after its load. -/
def oneConstant : List Char := "ldr r0,=0x20200004\nandeq r0,r0,r0\n".toList

/-- Two constants. -/
def twoConstants : List Char := "ldr r0,=0x20200020\nldr r2,=0x20200028\nadd r2,r2,#8\n".toList

/-- The pool of a short program is within reach. -/
theorem withinReach_of_length (h : instructions.length ≤ 1024) : WithinReach instructions := by
  intro i instruction c hi hliteral
  have hbefore : constantsBefore instructions i ≤ i :=
    Nat.le_trans (List.length_filterMap_le _ _) (List.length_take_le i instructions)
  omega

theorem pool_oneConstant : ∃ pass output, parseFirst Heap.zeroed oneConstant = some pass ∧
    assemble Heap.zeroed 0 oneConstant = some output ∧ PoolCorrect pass.instructions output := by
  have hrun : (parseFirst Heap.zeroed oneConstant).any (fun pass =>
      pass.instructions.length = 2 && constants pass.instructions = [0x20200004] &&
        pass.instructions.getLast?.bind SingleDataTransfer.literal = none) = true := by
    decide +kernel
  obtain ⟨pass, hparse, hcheck⟩ := (Option.any_eq_true _ _).mp hrun
  simp only [Bool.and_eq_true, decide_eq_true_eq] at hcheck
  obtain ⟨⟨hlength, hconstants⟩, hlast⟩ := hcheck
  obtain ⟨output, houtput⟩ := Option.isSome_iff_exists.mp
    (show (assemble Heap.zeroed 0 oneConstant).isSome = true by decide +kernel)
  refine ⟨pass, output, hparse, houtput, ?_⟩
  exact (pool_iff hparse houtput (withinReach_of_length (by omega))).mpr
    (Or.inr ⟨_, hconstants, by decide, hlast⟩)

/-- Only the second constant is in the file. -/
theorem pool_twoConstants : ∃ pass output, parseFirst Heap.zeroed twoConstants = some pass ∧
    assemble Heap.zeroed 0 twoConstants = some output ∧ WithinReach pass.instructions ∧
      ¬ PoolCorrect pass.instructions output := by
  have hrun : ((parseFirst Heap.zeroed twoConstants).bind fun pass =>
      (assemble Heap.zeroed 0 twoConstants).map fun output =>
      decide (pass.instructions.length = 3 ∧ (constants pass.instructions).length = 2 ∧
        output.length = 16)) = some true := by decide +kernel
  obtain ⟨pass, hparse, h⟩ := Option.bind_eq_some_iff.mp hrun
  obtain ⟨output, houtput, hcheck⟩ := Option.map_eq_some_iff.mp h
  obtain ⟨hlength, hconstants, hsize⟩ := of_decide_eq_true hcheck
  refine ⟨pass, output, hparse, houtput, withinReach_of_length (by omega), fun hcorrect => ?_⟩
  have hpool := congrArg List.length hcorrect.pool
  simp only [List.length_drop, List.length_flatMap, Encoding.length_littleEndian, hlength, hsize,
    List.map_const', hconstants, List.sum_replicate_nat] at hpool
  omega

end DocMachine.Arm.Assembler
