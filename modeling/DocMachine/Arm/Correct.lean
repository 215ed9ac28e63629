import DocMachine.Arm.Emulator.Pipeline
import DocMachine.Arm.LiteralPool
import DocMachine.Arm.Words

/-!
# From the source text to the running program

The file that the assembler (`assemble.c`) writes for a program whose statements fit, put into the
memory of the emulator (`emulate.c`), runs as the statements of `Source.lean` do.

* `At` relates the pipeline to the next statement: the machine is the one after as many statements,
  the program counter is two words ahead, and the decoded word is that of the statement.
* What is asked of the source program are conditions on its own run, `step`: it stays inside the
  text and does not write over its own words (`Inside`), and a branch that is not taken is one of
  the turns in which `isBranch` is read as false. A `Closed` program, without stores and with a
  `halt` at its end, is always inside.
* What is asked of the memory is that a zero stands behind the copy of the first label, the only one
  that a program that fits may branch to. Without it the assembler does not find the label, and
  writes no file.

Results:
* `exists_parseFirst` and `assemble_file`: the assembler writes the words of the program.
* `loaded_parseFile`: `parse_file` puts them into the memory.
* `step_plain`: one statement is one step of the plain machine of `Pipeline.lean`.
* `loop_keeps`: one turn of the main loop is one statement.
* `loop_statements`: after any number of turns the loop is where the statements are, and it has
  ended iff the statement is a `halt`.
* `loop_closed`: the same of a closed program, without the condition that it stays inside.
-/

namespace DocMachine.Arm.Assembler

open DocMachine.Lib
open Emulator (Machine Registers Condition Pipeline Memory GpioMemory pc cpsr reg)

variable {program : SourceProgram} {heap : Heap}

namespace SourceProgram

/-- The words of the program. -/
def words (program : SourceProgram) : List Encoding := program.statements.mapIdx program.word

/-- The file of the program. -/
def file (program : SourceProgram) : List Byte := program.words.flatMap Encoding.littleEndian

theorem getElem?_words {i : ℕ} {s : Statement} (h : program.statements[i]? = some s) :
    program.words[i]? = some (program.word i s) := by
  unfold words
  rw [List.getElem?_mapIdx, h, Option.map_some]

theorem length_words : program.words.length = program.statements.length := List.length_mapIdx

theorem length_file : program.file.length = 4 * program.statements.length := by
  unfold file
  rw [List.length_flatMap, ← length_words]
  simp [Nat.mul_comm]

theorem exists_line {s : Statement} (h : s ∈ program.statements) :
    ∃ text, CString.strtok [' ', ',', '\n'] (text ++ ['\n']) = s.tokens := by
  obtain ⟨line, hline, hs⟩ := List.mem_filterMap.mp h
  have hreads := program.reads line hline
  cases line with
  | label name => cases hs
  | statement text statement =>
    cases hs
    exact ⟨text, hreads⟩

end SourceProgram

/-! ## The first pass -/

theorem instructionsOf_statements {lines : List SourceLine} {labels : List CString}
    (hreads : ∀ line ∈ lines, line.Reads)
    (hfits : ∀ s ∈ lines.filterMap SourceLine.statement?, s.Fits labels) :
    instructionsOf (lines.map SourceLine.line) =
      some ((lines.filterMap SourceLine.statement?).map Statement.instruction) := by
  induction lines with
  | nil => rfl
  | cons line lines ih =>
    have hrest : ∀ line ∈ lines, line.Reads := fun l hl => hreads l (List.mem_cons_of_mem _ hl)
    cases line with
    | label name => exact ih hrest hfits
    | statement text s =>
      have hs := hfits s List.mem_cons_self
      have hparse := parseInstruction_statement hs (hreads _ List.mem_cons_self)
      have htail := ih hrest fun s hs => hfits s (List.mem_cons_of_mem _ hs)
      rw [List.map_cons, SourceLine.line, instructionsOf, hparse, Option.bind_some, htail]
      rfl

/-- **The first pass on a program that fits.** -/
theorem exists_parseFirst (hfits : program.Fits) (heap : Heap) :
    ∃ pass, parseFirst heap program.text = some pass ∧
      pass.instructions = program.statements.map Statement.instruction := by
  have hinstructions := instructionsOf_statements program.reads hfits.statements
  have hroom : (FirstPass.start heap).instructions.length +
      (program.statements.map Statement.instruction).length ≤ maxNumInstructions := by
    rw [FirstPass.start, List.length_map, List.length_nil, Nat.zero_add]
    exact hfits.room
  obtain ⟨pass, hpass⟩ := exists_parseLines program.program.wellFormed hinstructions hroom
  have hparse : parseFirst heap program.text = some pass := by
    unfold parseFirst
    rw [SourceProgram.text, fgets_text]
    exact hpass
  have hsame := (parseFirst_text hparse).2.2
  rw [SourceProgram.program, hinstructions] at hsame
  exact ⟨pass, hparse, (Option.some.inj hsame).symm⟩

/-! ## The second pass -/

/-- The second pass writes the words and nothing to the pool. -/
theorem secondPass_words (hfits : program.Fits) (hzero : ∀ t, heap t 0 = []) {pass : FirstPass}
    (hparse : parseFirst heap program.text = some pass)
    (hinstructions : pass.instructions = program.statements.map Statement.instruction)
    (numAppended : ℤ) {i : ℕ} (hi : i ≤ program.statements.length) :
    secondPass pass numAppended i =
      some ⟨(program.words.take i).flatMap Encoding.littleEndian, 4 * i,
        ⟨fun _ => 0, numAppended⟩⟩ := by
  induction i with
  | zero => rfl
  | succ i ih =>
    obtain ⟨s, hs⟩ : ∃ s, program.statements[i]? = some s :=
      ⟨_, List.getElem?_eq_getElem (by omega)⟩
    have hmem := List.mem_of_getElem? hs
    have hget : pass.instructions[i]? = some s.instruction := by
      rw [hinstructions, List.getElem?_map, hs, Option.map_some]
    obtain ⟨text, htext⟩ := program.exists_line hmem
    have hword := assembleInstruction_statement hparse hzero (hfits.statements s hmem) htext i
      ⟨fun _ => 0, numAppended⟩
    rw [secondPass_succ hget, ih (by omega), Option.bind_some, assembleLine, hword,
      Option.map_some, List.take_add_one, SourceProgram.getElem?_words hs, Option.toList_some,
      List.flatMap_append, List.flatMap_singleton]
    congr 2

/-- **The assembler writes the words of a program that fits.** -/
theorem assemble_file (hfits : program.Fits) (hzero : ∀ t, heap t 0 = []) (numAppended : ℤ) :
    assemble heap numAppended program.text = some program.file := by
  obtain ⟨pass, hparse, hinstructions⟩ := exists_parseFirst hfits heap
  have hlength : pass.instructions.length = program.statements.length := by
    rw [hinstructions, List.length_map]
  have hsecond := secondPass_words hfits hzero hparse hinstructions numAppended (Nat.le_refl _)
  rw [List.take_of_length_le (Nat.le_of_eq SourceProgram.length_words)] at hsecond
  have hcopy : copyAppended (fun _ => 0) (maxNumInstructions + 1) 0 = some [] :=
    holds_zero.copy (maxNumInstructions - 1)
  unfold assemble
  simp only [hparse, hlength, hsecond, hcopy, Option.bind_eq_bind, Option.bind_some,
    List.append_nil]
  rfl

/-! ## The file in the memory of the emulator -/

namespace SourceProgram

/-- The words of the program are at the start of the memory. -/
def Loaded (program : SourceProgram) (memory : Memory) : Prop :=
  ∀ i word, program.words[i]? = some word → readEncoding memory (4 * i) = some word

theorem drop_words (words : List Encoding) (i : ℕ) :
    (words.flatMap Encoding.littleEndian).drop (4 * i) =
      (words.drop i).flatMap Encoding.littleEndian := by
  induction i generalizing words with
  | zero => rfl
  | succ i ih =>
    cases words with
    | nil => simp
    | cons word words =>
      rw [List.drop_succ_cons, ← ih words, List.flatMap_cons, Nat.mul_succ, Nat.add_comm,
        ← List.drop_drop]
      rfl

/-- What `parse_file` reads. -/
theorem loaded_parseFile (hroom : program.statements.length ≤ maxNumInstructions)
    (memory : Memory) : ∃ memory', Emulator.parseFile program.file memory = some memory' ∧
      program.Loaded memory' := by
  have hlength : program.file.length = 4 * program.statements.length := length_file
  have hmax : 4 * maxNumInstructions = Emulator.memorySize := by decide
  refine ⟨_, if_pos (by omega), fun i word hword => ?_⟩
  have hi : i < program.statements.length := by
    rw [← length_words]
    exact (List.getElem?_eq_some_iff.mp hword).1
  have hbound : 4 * i + 3 < Emulator.memorySize := by omega
  have hdrop : program.file.drop (4 * i) =
      word.littleEndian ++ (program.words.drop (i + 1)).flatMap Encoding.littleEndian := by
    unfold file
    rw [drop_words, List.drop_eq_getElem?_toList_append, hword]
    rfl
  have hbyte : ∀ k < 4, program.file[4 * i + k]? = word.littleEndian[k]? := by
    intro k hk
    rw [← List.getElem?_drop, hdrop, List.getElem?_append_left (by simpa using hk)]
  have hzero := hbyte 0 (by decide)
  have hone := hbyte 1 (by decide)
  have htwo := hbyte 2 (by decide)
  have hthree := hbyte 3 (by decide)
  unfold readEncoding
  rw [dif_pos hbound]
  simp only [List.getD_eq_getElem?_getD, hone, htwo, hthree]
  rw [Nat.add_zero] at hzero
  rw [hzero]
  rfl

end SourceProgram

/-! ## The plain machine -/

/-- The machine whose program counter is the address of the next statement. -/
def SourceState.plain (s : SourceState) : Machine :=
  s.machine.goTo (BitVec.ofNat 32 (4 * s.next))

/-- The next statement is one of the program, and its words are in the memory. -/
structure SourceProgram.Inside (program : SourceProgram) (s : SourceState) : Prop where
  next : s.next < program.statements.length
  loaded : program.Loaded s.machine.memory

/-- The next statement is a branch that is not taken. -/
def SourceProgram.passes (program : SourceProgram) (s : SourceState) : Bool :=
  match program.statements[s.next]? with
  | some (.branch condition _) => !taken condition (s.machine.registers cpsr)
  | _ => false

variable {s s' : SourceState} {statement : Statement}

theorem plain_reading (s : SourceState) : s.plain.reading = s.reading := by
  have haddress : BitVec.ofNat 32 (4 * s.next) + 8 = BitVec.ofNat 32 (4 * s.next + 8) := by
    rw [BitVec.ofNat_add]
    rfl
  unfold SourceState.plain SourceState.reading Machine.reading
  rw [Emulator.Machine.goTo_pc, Emulator.Machine.goTo_goTo, haddress]

/-- The address after a statement. -/
theorem plain_next (s : SourceState) :
    s.plain.registers pc + 4 = BitVec.ofNat 32 (4 * (s.next + 1)) := by
  unfold SourceState.plain
  rw [Emulator.Machine.goTo_pc, Nat.mul_succ, BitVec.ofNat_add]
  rfl

namespace SourceProgram.Inside

/-- The word that is fetched. -/
theorem fetch (h : program.Inside s) (hroom : program.statements.length ≤ maxNumInstructions)
    (hs : program.statements[s.next]? = some statement) :
    s.plain.fetch = some (program.word s.next statement) := by
  have hmax : maxNumInstructions = 16384 := by decide
  have hnext := h.next
  have haddress : (BitVec.ofNat 32 (4 * s.next)).toNat = 4 * s.next := by
    rw [BitVec.toNat_ofNat, Nat.mod_eq_of_lt (by omega)]
  unfold SourceState.plain
  rw [Emulator.Machine.fetch_goTo, haddress]
  exact h.loaded s.next _ (getElem?_words hs)

theorem exists_statement (h : program.Inside s) :
    ∃ statement, program.statements[s.next]? = some statement :=
  ⟨_, List.getElem?_eq_getElem h.next⟩

end SourceProgram.Inside

/-! ## One statement -/

theorem step_of_proceeds (hs : program.statements[s.next]? = some statement)
    (hproceeds : statement.proceeds = true) :
    program.step s = (statement.run s.reading).map fun m => ⟨s.next + 1, m⟩ := by
  unfold SourceProgram.step
  rw [hs]
  cases statement with
  | branch condition label => cases hproceeds
  | halt => cases hproceeds
  | _ => rfl

/-- What the emulator makes of the word of a branch that fits. -/
theorem branch_word (hfits : program.Fits) (hs : s.next < program.statements.length)
    {condition : Option Condition} {label : CString}
    (hbranch : (Statement.branch condition label).Fits program.labels) :
    ∃ d, target label program.lines = some d ∧
      Emulator.isZero (program.word s.next (.branch condition label)) = false ∧
      Emulator.decode (program.word s.next (.branch condition label)) = .branch ∧
      (∀ CPSR, Emulator.checkCond (program.word s.next (.branch condition label)).first CPSR =
        taken condition CPSR) ∧
      Emulator.execute (program.word s.next (.branch condition label)) s.reading =
        some (s.machine.goTo (BitVec.ofNat 32 (4 * d))) := by
  obtain ⟨d, htarget, hd, -⟩ := exists_head hbranch.1
  have hd : d ≤ program.statements.length := hd
  have htarget : target label program.lines = some d := htarget
  have hmax : maxNumInstructions = 2 ^ 14 := by decide
  have hroom := hfits.room
  have hlow : -2 ^ 25 ≤ (4 * (d : ℤ) - 4 * s.next - 8) := by omega
  have hhigh : (4 * (d : ℤ) - 4 * s.next - 8) < 2 ^ 25 := by omega
  obtain ⟨hzero, hdecode, hcond⟩ := decode_branch condition hlow hhigh
  have hword : program.word s.next (.branch condition label) = Encoding.ofWord
      (Branch.encode (condField condition) (4 * (d : ℤ) - 4 * s.next - 8)) := by
    rw [SourceProgram.word, htarget]
    rfl
  refine ⟨d, htarget, ?_⟩
  rw [hword]
  refine ⟨hzero, hdecode, hcond, ?_⟩
  have harrives := (arrives_iff (i := s.next) (d := d) (4 * (d : ℤ) - 4 * s.next - 8) (by omega)
    (by omega)).mpr ⟨0, by omega⟩
  have hpc := execute_encode (condField condition) hlow ⟨d - s.next - 2, by omega⟩
    s.reading.registers
  have hreading : s.reading.registers pc = BitVec.ofNat 32 (4 * s.next + 8) :=
    Emulator.Machine.goTo_pc ..
  rw [hreading, harrives] at hpc
  unfold Emulator.execute
  rw [hdecode]
  unfold Emulator.Branch.execute at hpc ⊢
  rw [Emulator.Registers.set_self] at hpc
  simp only [hpc]
  exact congrArg some (Emulator.Machine.goTo_goTo ..)

/-- **One statement is one step of the plain machine.** -/
theorem step_plain (hfits : program.Fits) (h : program.Inside s) :
    s.plain.step = (program.step s).map SourceState.plain := by
  obtain ⟨statement, hs⟩ := h.exists_statement
  have hstatement := hfits.statements statement (List.mem_of_getElem? hs)
  have hfetch := h.fetch hfits.room hs
  have hcpsr : s.plain.registers cpsr = s.machine.registers cpsr := Emulator.Machine.goTo_cpsr ..
  rw [Emulator.step_eq hfetch, plain_reading]
  by_cases hproceeds : statement.proceeds = true
  · have hword := agrees_word program hstatement hproceeds s.next
    rw [hword.unconditional.isZero, if_neg Bool.false_ne_true, Machine.holds,
      hword.unconditional.checkCond, if_pos rfl, hword.executes, step_of_proceeds hs hproceeds,
      Option.map_map]
    refine congrArg (fun f => Option.map f _) (funext fun m => ?_)
    rw [if_neg hword.decoded, plain_next]
    rfl
  · cases statement with
    | branch condition label =>
      obtain ⟨d, htarget, hzero, hdecode, hcond, hexecute⟩ := branch_word hfits h.next hstatement
      rw [hzero, if_neg Bool.false_ne_true, Machine.holds, hcond, hcpsr, hexecute, hdecode]
      unfold SourceProgram.step
      simp only [hs]
      by_cases htaken : taken condition (s.machine.registers cpsr)
      · rw [if_pos htaken, if_pos htaken, htarget]
        rfl
      · rw [if_neg htaken, if_neg htaken, Machine.next, plain_next]
        exact congrArg some (Emulator.Machine.goTo_goTo ..)
    | halt =>
      unfold SourceProgram.step
      rw [hs]
      rfl
    | _ => exact absurd rfl hproceeds

theorem wellBehaved_plain (hfits : program.Fits) (h : program.Inside s) :
    s.plain.wellBehaved = true := by
  obtain ⟨statement, hs⟩ := h.exists_statement
  have hstatement := hfits.statements statement (List.mem_of_getElem? hs)
  unfold Machine.wellBehaved
  rw [h.fetch hfits.room hs, Option.any_some]
  by_cases hproceeds : statement.proceeds = true
  · have hword := agrees_word program hstatement hproceeds s.next
    have hpc : s.plain.registers pc + 8 = s.reading.registers pc := by
      rw [← plain_reading]
      exact (Emulator.Machine.goTo_pc ..).symm
    rw [plain_reading, hword.executes, hpc, Bool.or_eq_true]
    right
    cases hrun : statement.run s.reading with
    | none => rfl
    | some m => exact decide_eq_true (Statement.run_pc hstatement hrun)
  · cases statement with
    | branch condition label =>
      obtain ⟨d, -, -, hdecode, -⟩ := branch_word hfits h.next hstatement
      simp [hdecode]
    | halt => rfl
    | _ => exact absurd rfl hproceeds

theorem skips_plain (hfits : program.Fits) (h : program.Inside s) :
    s.plain.skips = program.passes s := by
  obtain ⟨statement, hs⟩ := h.exists_statement
  have hstatement := hfits.statements statement (List.mem_of_getElem? hs)
  have hcpsr : s.plain.registers cpsr = s.machine.registers cpsr := Emulator.Machine.goTo_cpsr ..
  unfold Machine.skips SourceProgram.passes
  rw [h.fetch hfits.room hs, Option.any_some, hs, Machine.holds]
  by_cases hproceeds : statement.proceeds = true
  · have hword := agrees_word program hstatement hproceeds s.next
    rw [hword.unconditional.checkCond, Bool.not_true, Bool.and_false]
    cases statement with
    | branch condition label => cases hproceeds
    | _ => rfl
  · cases statement with
    | branch condition label =>
      obtain ⟨d, -, hzero, -, hcond, -⟩ := branch_word hfits h.next hstatement
      rw [hzero, hcond, hcpsr, Bool.not_false, Bool.true_and]
    | halt => rfl
    | _ => exact absurd rfl hproceeds

/-! ## Whole runs -/

/-- The source program after `k` statements. -/
def SourceProgram.after (program : SourceProgram) (s : SourceState) (k : ℕ) :
    Option SourceState :=
  Lockstep.iterate (fun _ => program.step) s k

/-- The pipeline is filled for the next statement. -/
def Follows (p : Pipeline) (s : SourceState) : Prop := Emulator.Filled p s.plain

/-- The main loop is at the next statement: on the same machine, and over iff it is a `halt`. -/
structure At (program : SourceProgram) (p : Pipeline) (s : SourceState) : Prop where
  machine : p.machine = s.reading
  ends : Emulator.isZero p.decoded = true ↔ program.statements[s.next]? = some .halt

theorem isZero_word (hfits : program.Fits) (h : program.Inside s)
    (hs : program.statements[s.next]? = some statement) :
    Emulator.isZero (program.word s.next statement) = true ↔ statement = .halt := by
  have hstatement := hfits.statements statement (List.mem_of_getElem? hs)
  by_cases hproceeds : statement.proceeds = true
  · have hword := agrees_word program hstatement hproceeds s.next
    rw [hword.unconditional.isZero]
    refine iff_of_false Bool.false_ne_true ?_
    rintro rfl
    cases hproceeds
  · cases statement with
    | branch condition label =>
      obtain ⟨d, -, hzero, -⟩ := branch_word hfits h.next hstatement
      rw [hzero]
      exact iff_of_false Bool.false_ne_true fun heq => nomatch heq
    | halt => exact iff_of_true rfl rfl
    | _ => exact absurd rfl hproceeds

/-- The main loop is then at the statement. -/
theorem Follows.at (hfits : program.Fits) (h : program.Inside s) {p : Pipeline}
    (hfollows : Follows p s) : At program p s := by
  obtain ⟨statement, hs⟩ := h.exists_statement
  have hfetch := h.fetch hfits.room hs
  rw [Emulator.Filled.decoded hfollows] at hfetch
  refine ⟨by rw [Emulator.Filled.machine hfollows, plain_reading], ?_⟩
  rw [Option.some.inj hfetch, isZero_word hfits h hs, hs, Option.some.injEq]

/-- A state in which the main loop keeps up with the statements. -/
structure Keeps (program : SourceProgram) (slot : Bool) (s : SourceState) : Prop where
  inside : program.Inside s
  next : ∀ s', program.step s = some s' → program.Inside s'
  slot : program.passes s = true → slot = false

/-- One turn of the main loop is one statement. -/
theorem loop_keeps (hfits : program.Fits) {slot : Bool} {p : Pipeline} (hfollows : Follows p s)
    (hkeeps : Keeps program slot s) :
    Option.Rel Follows (Pipeline.loop slot p) (program.step s) := by
  have hstep := step_plain hfits hkeeps.inside
  have hnext : ∀ m, s.plain.step = some m → m.wellBehaved = true := by
    intro m hm
    rw [hstep] at hm
    obtain ⟨s', hs', rfl⟩ := Option.map_eq_some_iff.mp hm
    exact wellBehaved_plain hfits (hkeeps.next s' hs')
  have hskips : s.plain.skips = true → slot = false := by
    rw [skips_plain hfits hkeeps.inside]
    exact hkeeps.slot
  have hloop := Emulator.loop_filled hfollows (wellBehaved_plain hfits hkeeps.inside) hnext hskips
  rw [hstep] at hloop
  revert hloop
  generalize Pipeline.loop slot p = a
  generalize program.step s = b
  intro hloop
  cases b with
  | none =>
    cases hloop
    exact .none
  | some s' =>
    cases hloop with
    | some hfilled' => exact .some hfilled'

/-- The main loop from a pipeline that is filled for a statement. -/
theorem loop_of_follows (hfits : program.Fits) {p : Pipeline} (hfollows : Follows p s)
    {slot : ℕ → Bool} {k : ℕ}
    (hinside : ∀ j ≤ k, ∀ s', program.after s j = some s' → program.Inside s')
    (hslot : ∀ j < k, ∀ s', program.after s j = some s' → program.passes s' = true →
      slot j = false) :
    Option.Rel (At program) (Lockstep.iterate (fun j => Pipeline.loop (slot j)) p k)
      (program.after s k) := by
  have hgood : ∀ j u v, program.after s j = some v → Follows u v → Keeps program (slot j) v →
      Option.Rel Follows (Pipeline.loop (slot j) u) (program.step v) :=
    fun j u v _ hfollows hkeeps => loop_keeps hfits hfollows hkeeps
  have hkeeps : ∀ j < k, ∀ v, program.after s j = some v → Keeps program (slot j) v := by
    intro j hj v hv
    refine ⟨hinside j (Nat.le_of_lt hj) v hv, fun s' hs' => ?_, hslot j hj v hv⟩
    refine hinside (j + 1) hj s' ?_
    rw [← hs']
    exact Lockstep.iterate_succ_of hv
  have hrel := Lockstep.rel_of_good hfollows hgood k hkeeps
  have hk := hinside k (Nat.le_refl k)
  unfold SourceProgram.after at hk ⊢
  revert hrel hk
  generalize Lockstep.iterate (fun j => Pipeline.loop (slot j)) p k = a
  generalize Lockstep.iterate (fun _ => program.step) s k = b
  intro hrel hk
  cases hrel with
  | none => exact .none
  | some hR => exact .some (hR.at hfits (hk _ rfl))

theorem exists_initialisePins (gpio : GpioMemory) :
    ∃ gpio', Emulator.Gpio.initialisePins gpio = some gpio' := by
  have hfirst : 0x0 + 3 < Emulator.gpioMemorySize := by decide
  have hsecond : 0x4 + 3 < Emulator.gpioMemorySize := by decide
  have hthird : 0x8 + 3 < Emulator.gpioMemorySize := by decide
  unfold Emulator.Gpio.initialisePins writeWord
  rw [if_pos hfirst, Option.bind_eq_bind, Option.bind_some, if_pos hsecond, Option.bind_some,
    if_pos hthird]
  exact ⟨_, rfl⟩

/-- What the emulator starts with: the file in the memory, and zero in every register. -/
structure Initial (file : List Byte) (memory : Memory) (gpio : GpioMemory) (m : Machine) :
    Prop where
  registers : m.registers = fun _ => 0
  memory : Emulator.parseFile file memory = some m.memory
  gpio : Emulator.Gpio.initialisePins gpio = some m.gpio

theorem start_initial {file : List Byte} {memory : Memory} {gpio : GpioMemory} {m : Machine}
    (h : Initial file memory gpio m) :
    ∃ p, Emulator.start file memory gpio = some p ∧ Follows p ⟨0, m⟩ := by
  have hword : (0 : ℕ) + 3 < Emulator.memorySize := by decide
  have hzero : m.goTo 0 = m := by
    unfold Machine.goTo Machine.setRegister
    rw [h.registers]
    have hset : Registers.set (fun _ => 0) pc 0 = m.registers := by
      rw [h.registers]
      funext i
      unfold Registers.set
      grind
    rw [hset]
  obtain ⟨word, hfetch⟩ : ∃ word, (m.goTo 0).fetch = some word := by
    rw [Emulator.Machine.fetch_goTo]
    exact ⟨_, dif_pos hword⟩
  rw [hzero] at hfetch
  obtain ⟨p, hp, hfilled⟩ := Emulator.fill_filled hfetch
  refine ⟨p, ?_, ?_⟩
  · unfold Emulator.start
    rw [h.memory, h.gpio, Option.bind_eq_bind, Option.bind_some, Option.bind_eq_bind,
      Option.bind_some, ← h.registers]
    exact hp
  · exact (congrArg (Emulator.Filled p) hzero).mpr hfilled

/-- **The assembled program runs as its statements do.** -/
theorem loop_statements (hfits : program.Fits) (hzero : ∀ t, heap t 0 = []) (numAppended : ℤ)
    (memory : Memory) (gpio : GpioMemory) :
    ∃ file p m, assemble heap numAppended program.text = some file ∧
      Emulator.start file memory gpio = some p ∧ Initial file memory gpio m ∧
      program.Loaded m.memory ∧
      ∀ (slot : ℕ → Bool) (k : ℕ),
        (∀ j ≤ k, ∀ s, program.after ⟨0, m⟩ j = some s → program.Inside s) →
        (∀ j < k, ∀ s, program.after ⟨0, m⟩ j = some s → program.passes s = true →
          slot j = false) →
        Option.Rel (At program) (Lockstep.iterate (fun j => Pipeline.loop (slot j)) p k)
          (program.after ⟨0, m⟩ k) := by
  obtain ⟨memory', hmemory, hloaded⟩ := SourceProgram.loaded_parseFile hfits.room memory
  obtain ⟨gpio', hgpio⟩ := exists_initialisePins gpio
  have hinitial : Initial program.file memory gpio ⟨fun _ => 0, memory', gpio'⟩ :=
    ⟨rfl, hmemory, hgpio⟩
  obtain ⟨p, hp, hfilled⟩ := start_initial hinitial
  refine ⟨program.file, p, _, assemble_file hfits hzero numAppended, hp, hinitial, hloaded, ?_⟩
  exact fun slot k => loop_of_follows hfits hfilled

/-! ## Programs without stores -/

/-- A program that leaves the memory alone and ends with a `halt`. -/
structure SourceProgram.Closed (program : SourceProgram) : Prop where
  stores : ∀ t, Statement.transfer t ∈ program.statements → t.load = true
  ends : ∃ text, program.lines.getLast? = some (.statement text .halt)

theorem RegisterInstruction.run_memory {source : RegisterInstruction} {m m' : Machine}
    (h : source.run m = some m') : m'.memory = m.memory := by
  have hprocess : ∀ registers : Option Registers,
      (registers.map fun registers => { m with registers := registers }) = some m' →
      m'.memory = m.memory := by
    intro registers h
    obtain ⟨_, -, rfl⟩ := Option.map_eq_some_iff.mp h
    rfl
  cases source with
  | mov Rd o | compare m Rn o | compute m Rd Rn o => exact hprocess _ h
  | mul Rd Rm Rs | mla Rd Rm Rs Rn =>
    cases h
    rfl

theorem access_memory {t : TransferInstruction} (hload : t.load = true) {address : Word}
    {m m' : Machine} (h : t.access address m = some m') : m'.memory = m.memory := by
  unfold TransferInstruction.access Emulator.SingleDataTransfer.load at h
  rw [if_pos hload] at h
  split at h
  · cases h
    rfl
  · split at h
    · cases h
      rfl
    · obtain ⟨word, -, rfl⟩ := Option.map_eq_some_iff.mp h
      rfl

/-- Only a store changes the memory. -/
theorem Statement.run_memory {m m' : Machine}
    (hstores : ∀ t, statement = .transfer t → t.load = true) (h : statement.run m = some m') :
    m'.memory = m.memory := by
  cases statement with
  | register source => exact RegisterInstruction.run_memory h
  | immediate l constant =>
    cases h
    rfl
  | lsl Rd amount =>
    have hmov : (RegisterInstruction.mov Rd (lslOperand Rd amount)).run m = some m' := h
    exact RegisterInstruction.run_memory hmov
  | transfer t =>
    have hload := hstores t rfl
    have hrun : t.run m = some m' := h
    unfold TransferInstruction.run at hrun
    simp only at hrun
    split at hrun
    · exact access_memory hload hrun
    · obtain ⟨m₁, hm₁, rfl⟩ := Option.map_eq_some_iff.mp hrun
      rw [Emulator.Machine.setRegister_memory]
      exact access_memory hload hm₁
  | branch condition label | halt =>
    cases h
    rfl

/-- A label that is not at the end is followed by a statement. -/
theorem target_lt {lines : List SourceLine} {text : CString} {label : CString} {d : ℕ}
    (hlast : lines.getLast? = some (.statement text statement))
    (h : target label lines = some d) :
    d < (lines.filterMap SourceLine.statement?).length := by
  induction lines generalizing d with
  | nil => cases h
  | cons line lines ih =>
    cases line with
    | label name =>
      have hne : lines ≠ [] := by
        rintro rfl
        cases hlast
      have hlast' : lines.getLast? = some (.statement text statement) := by
        rw [← hlast, List.getLast?_cons_of_ne_nil hne]
      have hsome : 0 < (lines.filterMap SourceLine.statement?).length := by
        refine List.length_pos_of_mem (a := statement) (List.mem_filterMap.mpr ?_)
        exact ⟨_, List.mem_of_getLast? hlast', rfl⟩
      unfold target at h
      split at h
      · cases h
        exact hsome
      · exact ih hlast' h
    | statement text' s =>
      obtain ⟨d', hd', rfl⟩ := Option.map_eq_some_iff.mp h
      have hne : lines ≠ [] := by
        rintro rfl
        cases hd'
      rw [List.getLast?_cons_of_ne_nil hne] at hlast
      exact Nat.succ_lt_succ (ih hlast hd')

namespace SourceProgram.Closed

/-- The last statement. -/
theorem getElem?_last (hclosed : program.Closed) (hnext : s.next < program.statements.length)
    (hs : program.statements[s.next]? ≠ some .halt) : s.next + 1 < program.statements.length := by
  obtain ⟨text, hlast⟩ := hclosed.ends
  obtain ⟨lines, hlines⟩ := List.getLast?_eq_some_iff.mp hlast
  have hstatements : program.statements = lines.filterMap SourceLine.statement? ++ [.halt] := by
    unfold SourceProgram.statements
    rw [hlines, List.filterMap_append]
    rfl
  by_contra hle
  refine hs ?_
  rw [hstatements, List.length_append, List.length_singleton] at hle hnext
  rw [hstatements, List.getElem?_append_right (by omega),
    show s.next - (lines.filterMap SourceLine.statement?).length = 0 by omega]
  rfl

/-- A closed program stays inside its text. -/
theorem inside_step (hclosed : program.Closed) (h : program.Inside s)
    (hstep : program.step s = some s') : program.Inside s' := by
  obtain ⟨statement, hs⟩ := h.exists_statement
  unfold SourceProgram.step at hstep
  rw [hs] at hstep
  by_cases hproceeds : statement.proceeds = true
  · have hrun := step_of_proceeds hs hproceeds
    unfold SourceProgram.step at hrun
    rw [hs] at hrun
    simp only [hrun] at hstep
    obtain ⟨m, hm, rfl⟩ := Option.map_eq_some_iff.mp hstep
    refine ⟨hclosed.getElem?_last h.next fun hhalt => ?_, ?_⟩
    · rw [hs] at hhalt
      cases hhalt
      cases hproceeds
    · have hmemory := Statement.run_memory
        (fun t ht => hclosed.stores t (ht ▸ List.mem_of_getElem? hs)) hm
      rw [hmemory]
      exact h.loaded
  · cases statement with
    | branch condition label =>
      simp only at hstep
      split at hstep
      · obtain ⟨d, hd, rfl⟩ := Option.map_eq_some_iff.mp hstep
        obtain ⟨text, hlast⟩ := hclosed.ends
        exact ⟨target_lt hlast hd, h.loaded⟩
      · cases hstep
        refine ⟨hclosed.getElem?_last h.next fun hhalt => ?_, h.loaded⟩
        rw [hs] at hhalt
        cases hhalt
    | halt =>
      cases hstep
      exact h
    | _ => exact absurd rfl hproceeds

theorem inside_after (hclosed : program.Closed) (h : program.Inside s) {k : ℕ}
    (hk : program.after s k = some s') : program.Inside s' := by
  induction k generalizing s' with
  | zero =>
    cases hk
    exact h
  | succ k ih =>
    obtain ⟨u, hu, hstep⟩ := Option.bind_eq_some_iff.mp hk
    exact hclosed.inside_step (ih hu) hstep

end SourceProgram.Closed

/-- **A closed program runs as its statements do**, as long as `isBranch` is read as false where a
branch is not taken. -/
theorem loop_closed (hfits : program.Fits) (hclosed : program.Closed)
    (hzero : ∀ t, heap t 0 = []) (numAppended : ℤ) (memory : Memory) (gpio : GpioMemory) :
    ∃ file p m, assemble heap numAppended program.text = some file ∧
      Emulator.start file memory gpio = some p ∧ Initial file memory gpio m ∧
      ∀ (slot : ℕ → Bool) (k : ℕ),
        (∀ j < k, ∀ s, program.after ⟨0, m⟩ j = some s → program.passes s = true →
          slot j = false) →
        Option.Rel (At program) (Lockstep.iterate (fun j => Pipeline.loop (slot j)) p k)
          (program.after ⟨0, m⟩ k) := by
  obtain ⟨memory', hmemory, hloaded⟩ := SourceProgram.loaded_parseFile hfits.room memory
  obtain ⟨gpio', hgpio⟩ := exists_initialisePins gpio
  have hinitial : Initial program.file memory gpio ⟨fun _ => 0, memory', gpio'⟩ :=
    ⟨rfl, hmemory, hgpio⟩
  obtain ⟨p, hp, hfollows⟩ := start_initial hinitial
  obtain ⟨text, hlast⟩ := hclosed.ends
  have hpos : 0 < program.statements.length := by
    refine List.length_pos_of_mem (a := Statement.halt) (List.mem_filterMap.mpr ?_)
    exact ⟨_, List.mem_of_getLast? hlast, rfl⟩
  refine ⟨program.file, p, _, assemble_file hfits hzero numAppended, hp, hinitial, ?_⟩
  intro slot k hslot
  refine loop_of_follows hfits hfollows (fun j _ s hs => ?_) hslot
  exact hclosed.inside_after ⟨hpos, hloaded⟩ hs

/-! ## A countdown -/

/-- A loop that counts `r0` down to 0. -/
def countdown : SourceProgram where
  lines := [.statement "mov r0,#3".toList (.immediate (.mov 0) ['3']),
    .label "loop".toList,
    .statement "sub r0,r0,#1".toList (.immediate (.compute ⟨.sub, by decide⟩ 0 0) ['1']),
    .statement "cmp r0,#0".toList (.immediate (.compare ⟨.cmp, by decide⟩ 0) ['0']),
    .statement "bne loop".toList (.branch (some .ne) "loop".toList),
    .statement "andeq r0,r0,r0".toList .halt]
  wellFormed := by decide +kernel
  reads := by decide +kernel

theorem fits_countdown : countdown.Fits where
  statements := by
    have hstatements : countdown.statements = [.immediate (.mov 0) ['3'],
        .immediate (.compute ⟨.sub, by decide⟩ 0 0) ['1'],
        .immediate (.compare ⟨.cmp, by decide⟩ 0) ['0'],
        .branch (some .ne) "loop".toList, .halt] := rfl
    rw [hstatements]
    simp only [List.forall_mem_cons]
    refine ⟨?_, ?_, ?_, ?_, trivial, fun s hs => absurd hs List.not_mem_nil⟩
    · exact ⟨by decide, 3, 0, by decide, by decide +kernel⟩
    · exact ⟨by decide, 1, 0, by decide, by decide +kernel⟩
    · exact ⟨by decide, 0, 0, by decide, by decide +kernel⟩
    · exact ⟨by decide +kernel, by decide +kernel⟩
  room := by decide

theorem closed_countdown : countdown.Closed where
  stores := by
    intro t ht
    simp [SourceProgram.statements, countdown, SourceLine.statement?] at ht
  ends := ⟨_, rfl⟩

theorem loop_statements_countdown : ∃ file p m,
    assemble Heap.zeroed 0 countdown.text = some file ∧
    Emulator.start file (fun _ => 0) (fun _ => 0) = some p ∧
    Initial file (fun _ => 0) (fun _ => 0) m ∧ countdown.Loaded m.memory ∧
    ∀ (slot : ℕ → Bool) (k : ℕ),
      (∀ j ≤ k, ∀ s, countdown.after ⟨0, m⟩ j = some s → countdown.Inside s) →
      (∀ j < k, ∀ s, countdown.after ⟨0, m⟩ j = some s → countdown.passes s = true →
        slot j = false) →
      Option.Rel (At countdown) (Lockstep.iterate (fun j => Pipeline.loop (slot j)) p k)
        (countdown.after ⟨0, m⟩ k) :=
  loop_statements fits_countdown (fun _ => rfl) 0 (fun _ => 0) (fun _ => 0)

theorem loop_closed_countdown : ∃ file p m,
    assemble Heap.zeroed 0 countdown.text = some file ∧
    Emulator.start file (fun _ => 0) (fun _ => 0) = some p ∧
    Initial file (fun _ => 0) (fun _ => 0) m ∧
    ∀ (slot : ℕ → Bool) (k : ℕ),
      (∀ j < k, ∀ s, countdown.after ⟨0, m⟩ j = some s → countdown.passes s = true →
        slot j = false) →
      Option.Rel (At countdown) (Lockstep.iterate (fun j => Pipeline.loop (slot j)) p k)
        (countdown.after ⟨0, m⟩ k) :=
  loop_closed fits_countdown closed_countdown (fun _ => rfl) 0 (fun _ => 0) (fun _ => 0)

end DocMachine.Arm.Assembler
