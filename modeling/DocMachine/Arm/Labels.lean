import Mathlib.Data.List.Count
import Mathlib.Data.Nat.ModEq
import DocMachine.Arm.Offset
import DocMachine.Arm.Assembler.Assemble

/-!
# Labels, from the source text to the program counter

What `parse_first` (`assemble.c` 14-72), the loop of `main` (131-186), `assemble_branch`
(`assembler/branch/branch.c` 113-137) and the emulator's `execute_branch`
(`emulator/branch/branch.c` 32-39) together make of a branch to a label.

* A `Program` is a source text by lines, each a label or an instruction, that fits the line buffer.
  Its text is what the first pass reads; nothing is assumed of the instructions.
* The first pass gives a label the address 4 times the number of *lines* before it
  (`callsFrom_getElem?`), while an instruction ends up at 4 times the number of *instructions*
  before it (`secondPass_address`); the two differ by the labels in between (`labelsBefore_add`).
* Where a branch is looked up depends on what stands in memory behind the copies of the labels:
  `Program.FoundAt` says which line a lookup finds for a given `Heap`.
* `Program.Resolves` is what a branch should do: both passes get to it, a word is written for it,
  and the emulator, with the program counter 8 past the place of the word, goes to the place in the
  file of the instruction that follows the label.

Results:
* `parseFirst_isSome`: the first pass succeeds iff every instruction line can be split into at most
  four fields and there are at most `MAX_NUM_INSTRUCTIONS` of them (`Program.Readable`).
* `getAddress_iff_foundAt`: what a lookup returns, for every heap; `foundAt_zeroed_iff`: if a zero
  stands behind every copy, the label's own line, unless an earlier label starts with it.
* `branch_iff`: when a branch resolves. With zeros behind the copies, no earlier label may start
  with the label, and the number of labels before it must be a multiple of `2 ^ 24`, which for a
  program of fewer labels means that it is the first.
* `branch_forwardProgram`: a forward branch past a second label that goes one word too far.
-/

namespace DocMachine.Arm.Assembler

open DocMachine.Lib

/-! ## Source programs -/

/-- A line of a source program. -/
inductive Line where
  | label (name : CString)
  | instruction (text : CString)
deriving DecidableEq

namespace Line

/-- The line without its newline. -/
def text : Line → CString
  | label name => name ++ [':']
  | instruction text => text

/-- The label that the line adds to the symbol table. -/
def name? : Line → Option CString
  | label name => some name
  | instruction _ => none

/-- The line is a label and no instruction. -/
def isLabel : Line → Bool
  | label _ => true
  | instruction _ => false

/-- A label is not empty, only a label line has a colon, and the line fits the buffer. -/
def WellFormed (line : Line) : Prop :=
  '\n' ∉ line.text ∧ line.text.length + 2 ≤ maxLineLength ∧
    match line with
    | label name => name ≠ [] ∧ ':' ∉ name
    | instruction text => ':' ∉ text

instance : DecidablePred WellFormed := fun line => by
  unfold WellFormed
  cases line <;> infer_instance

end Line

/-- A source program with one label or one instruction per line. -/
structure Program where
  lines : List Line
  wellFormed : ∀ line ∈ lines, line.WellFormed

namespace Program

/-- The source file. -/
def text (program : Program) : List Char := program.lines.flatMap fun line => line.text ++ ['\n']

/-- The labels in order. -/
def labels (program : Program) : List CString := program.lines.filterMap Line.name?

/-- The number of labels before line `p`. -/
def labelsBefore (program : Program) (p : ℕ) : ℕ := (program.lines.take p).countP Line.isLabel

/-- The number of instructions before line `p`: the instruction that follows, counted in words, is
there in the output. -/
def instructionsBefore (program : Program) (p : ℕ) : ℕ :=
  (program.lines.take p).countP fun line => !line.isLabel

theorem length_labels_take (program : Program) (p : ℕ) :
    ((program.lines.take p).filterMap Line.name?).length = program.labelsBefore p := by
  rw [List.length_filterMap_eq_countP]
  refine List.countP_congr fun line _ => ?_
  cases line <;> simp [Line.name?, Line.isLabel]

/-- The labels before line `p` are the first ones. -/
theorem labels_take (program : Program) (p : ℕ) :
    (program.lines.take p).filterMap Line.name? =
      program.labels.take (program.labelsBefore p) := by
  unfold labels
  conv_rhs => rw [← List.take_append_drop p program.lines]
  rw [List.filterMap_append, ← length_labels_take, List.take_left]

/-- The label of line `q` comes after those before it. -/
theorem labels_getElem? {program : Program} {q : ℕ} {name : CString}
    (hq : program.lines[q]? = some (.label name)) :
    program.labels[program.labelsBefore q]? = some name := by
  unfold labels
  conv_lhs => rw [← List.take_append_drop q program.lines]
  rw [List.filterMap_append, ← length_labels_take, List.getElem?_append_right (Nat.le_refl _),
    Nat.sub_self, List.drop_eq_getElem_cons (List.getElem?_eq_some_iff.mp hq).1,
    (List.getElem?_eq_some_iff.mp hq).2]
  rfl

theorem labelsBefore_lt {program : Program} {p q : ℕ} {name : CString}
    (hq : program.lines[q]? = some (.label name)) (hlt : q < p) :
    program.labelsBefore q < program.labelsBefore p := by
  have hsub : (program.lines.take (q + 1)).countP Line.isLabel ≤ program.labelsBefore p :=
    (List.take_sublist_take_left hlt).countP_le
  rw [List.take_add_one, hq, List.countP_append] at hsub
  exact hsub

theorem labelsBefore_add (program : Program) {p : ℕ} (hp : p ≤ program.lines.length) :
    program.labelsBefore p + program.instructionsBefore p = p := by
  unfold labelsBefore instructionsBefore
  have hsplit := List.length_eq_countP_add_countP Line.isLabel (l := program.lines.take p)
  rw [List.length_take_of_le hp] at hsplit
  simpa using hsplit.symm

end Program

/-! ## The first pass over a program -/

/-- The calls of `add_entry` for the lines, with the addresses the first pass gives them. -/
def callsFrom : ℤ → List Line → List Call
  | _, [] => []
  | address, .label name :: lines => ⟨name, address⟩ :: callsFrom (address + 4) lines
  | address, .instruction _ :: lines => callsFrom (address + 4) lines

/-- The instructions of the lines, if all of them can be split into fields. -/
def instructionsOf : List Line → Option (List Instruction)
  | [] => some []
  | .label _ :: lines => instructionsOf lines
  | .instruction text :: lines =>
    (parseInstruction (text ++ ['\n'])).bind fun instruction =>
      (instructionsOf lines).map (instruction :: ·)

theorem parseLine_label {name : CString} (h : (Line.label name).WellFormed) (pass : FirstPass) :
    parseLine pass ((Line.label name).text ++ ['\n']) =
      some { pass with
        table := (SymbolTable.addEntry (pass.heap pass.table.copies) pass.table name
          pass.address).2
        address := pass.address + 4 } := by
  obtain ⟨-, -, hne, hcolon⟩ := h
  have htoken : ∀ c ∈ name, c ∉ [':'] := by
    intro c hc hmem
    rw [List.mem_singleton.mp hmem] at hc
    exact hcolon hc
  unfold parseLine Line.text
  rw [List.append_assoc, List.singleton_append,
    CString.strtok_cons hne htoken (List.mem_singleton_self _)]
  simp

theorem parseLine_instruction {text : CString} (h : (Line.instruction text).WellFormed)
    (pass : FirstPass) : parseLine pass ((Line.instruction text).text ++ ['\n']) =
      (parseInstruction (text ++ ['\n'])).bind fun instruction =>
        if pass.instructions.length < maxNumInstructions then
          some { pass with
            instructions := pass.instructions ++ [instruction]
            address := pass.address + 4 }
        else none := by
  obtain ⟨-, -, hcolon⟩ := h
  unfold parseLine Line.text
  have hno : (text ++ ['\n']).contains ':' = false := by simp at hcolon ⊢; exact hcolon
  simp only [hno, Bool.false_eq_true, if_false]

/-- What the first pass has done after some lines. -/
theorem parseLines {lines : List Line} (hlines : ∀ line ∈ lines, line.WellFormed)
    {pass pass' : FirstPass}
    (h : (lines.map fun line => line.text ++ ['\n']).foldlM parseLine pass = some pass') :
    pass'.heap = pass.heap ∧
    pass'.table = SymbolTable.addCalls pass.heap pass.table (callsFrom pass.address lines) ∧
    ∃ instructions, instructionsOf lines = some instructions ∧
      pass'.instructions = pass.instructions ++ instructions := by
  induction lines generalizing pass with
  | nil =>
    cases h
    exact ⟨rfl, rfl, [], rfl, by simp⟩
  | cons line lines ih =>
    have hline := hlines line List.mem_cons_self
    rw [List.map_cons, List.foldlM_cons] at h
    obtain ⟨pass₁, h₁, h₂⟩ := Option.bind_eq_some_iff.mp h
    obtain ⟨hheap, htable, instructions, hinstructions, heq⟩ :=
      ih (fun l hl => hlines l (List.mem_cons_of_mem _ hl)) h₂
    cases line with
    | label name =>
      rw [parseLine_label hline] at h₁
      cases h₁
      exact ⟨hheap, htable, instructions, hinstructions, heq⟩
    | instruction text =>
      rw [parseLine_instruction hline] at h₁
      obtain ⟨instruction, hparse, hroom⟩ := Option.bind_eq_some_iff.mp h₁
      split at hroom
      · cases hroom
        refine ⟨hheap, htable, instruction :: instructions, ?_, ?_⟩
        · simp [instructionsOf, hparse, hinstructions]
        · rw [heq, List.append_assoc, List.singleton_append]
      · cases hroom

/-- The lines of the file of a program. -/
theorem fgets_text (program : Program) : CString.fgets maxLineLength [] program.text =
    program.lines.map fun line => line.text ++ ['\n'] := by
  have hfits : ∀ text ∈ program.lines.map Line.text,
      '\n' ∉ text ∧ text.length + 2 ≤ maxLineLength := by
    intro text htext
    obtain ⟨line, hline, rfl⟩ := List.mem_map.mp htext
    exact ⟨(program.wellFormed line hline).1, (program.wellFormed line hline).2.1⟩
  have hlines := CString.fgets_lines hfits
  simpa [Program.text, List.flatMap_map, Function.comp_def] using hlines

/-- The first pass over the file of a program. -/
theorem parseFirst_text {heap : Heap} {program : Program} {pass : FirstPass}
    (h : parseFirst heap program.text = some pass) :
    pass.heap = heap ∧
      pass.table = SymbolTable.addCalls heap SymbolTable.init (callsFrom 0 program.lines) ∧
      instructionsOf program.lines = some pass.instructions := by
  unfold parseFirst at h
  rw [fgets_text] at h
  obtain ⟨hheap, htable, instructions, hinstructions, heq⟩ := parseLines program.wellFormed h
  simp only [FirstPass.start, List.nil_append] at heq
  exact ⟨hheap, htable, heq ▸ hinstructions⟩

/-- The instruction of a line comes after those of the lines before it. -/
theorem instructionsOf_getElem {lines : List Line} {instructions : List Instruction} {b : ℕ}
    {text : CString} (h : instructionsOf lines = some instructions)
    (hb : lines[b]? = some (.instruction text)) :
    ∃ instruction, parseInstruction (text ++ ['\n']) = some instruction ∧
      instructions[(lines.take b).countP fun line => !line.isLabel]? = some instruction := by
  induction lines generalizing b instructions with
  | nil => simp at hb
  | cons line lines ih =>
    cases line with
    | label name =>
      cases b with
      | zero => simp at hb
      | succ b => simpa [Line.isLabel] using ih h (by simpa using hb)
    | instruction text' =>
      obtain ⟨instruction, hparse, hmap⟩ := Option.bind_eq_some_iff.mp h
      obtain ⟨rest, hrest, rfl⟩ := Option.map_eq_some_iff.mp hmap
      cases b with
      | zero =>
        simp only [List.getElem?_cons_zero, Option.some.injEq, Line.instruction.injEq] at hb
        exact ⟨instruction, hb ▸ hparse, rfl⟩
      | succ b => simpa [Line.isLabel] using ih hrest (by simpa using hb)

/-! ## Looking a label up -/

/-- The call for the label of line `q`. -/
theorem callsFrom_getElem? {lines : List Line} {address : ℤ} {k : ℕ} {call : Call} :
    (callsFrom address lines)[k]? = some call ↔ ∃ q, lines[q]? = some (.label call.label) ∧
      (lines.take q).countP Line.isLabel = k ∧ call.address = address + 4 * q := by
  induction lines generalizing address k with
  | nil => simp [callsFrom]
  | cons line lines ih =>
    cases line with
    | label name =>
      cases k with
      | zero =>
        rw [callsFrom, List.getElem?_cons_zero]
        constructor
        · intro h
          cases h
          exact ⟨0, rfl, rfl, by simp⟩
        · rintro ⟨q, hq, hcount, haddress⟩
          cases q with
          | zero =>
            obtain ⟨label, address'⟩ := call
            simp only [List.getElem?_cons_zero, Option.some.injEq, Line.label.injEq] at hq
            simp_all
          | succ q => simp [Line.isLabel] at hcount
      | succ k =>
        rw [callsFrom, List.getElem?_cons_succ, ih]
        constructor
        · rintro ⟨q, hq, hcount, haddress⟩
          refine ⟨q + 1, hq, by simpa [List.countP_cons, Line.isLabel] using hcount, ?_⟩
          push_cast
          omega
        · rintro ⟨q, hq, hcount, haddress⟩
          cases q with
          | zero => simp at hcount
          | succ q =>
            refine ⟨q, hq, by simpa [List.countP_cons, Line.isLabel] using hcount, ?_⟩
            push_cast at haddress
            omega
    | instruction text =>
      rw [callsFrom, ih]
      constructor
      · rintro ⟨q, hq, hcount, haddress⟩
        refine ⟨q + 1, hq, by simpa [Line.isLabel] using hcount, ?_⟩
        push_cast
        omega
      · rintro ⟨q, hq, hcount, haddress⟩
        cases q with
        | zero => cases hq
        | succ q =>
          refine ⟨q, hq, by simpa [Line.isLabel] using hcount, ?_⟩
          push_cast at haddress
          omega

theorem map_callsFrom (address : ℤ) (lines : List Line) :
    (callsFrom address lines).map Call.label = lines.filterMap Line.name? := by
  induction lines generalizing address with
  | nil => rfl
  | cons line lines ih =>
    cases line with
    | label name => exact congrArg (name :: ·) (ih (address + 4))
    | instruction text => exact ih (address + 4)

variable {heap : Heap} {program : Program} {pass : FirstPass} {label : CString} {p : ℕ}

/-- A lookup of `label` at time `t` finds the label of line `q`: as memory is read, the copy of that
label is in the table, reads as `label`, and is the first entry to do so. -/
def Program.FoundAt (program : Program) (heap : Heap) (t : ℕ) (label : CString) (q : ℕ) : Prop :=
  ∃ name, program.lines[q]? = some (.label name) ∧
    SymbolTable.Found heap program.labels t label (program.labelsBefore q)

/-- **What a branch finds** is the address that the first pass gave to that line. -/
theorem getAddress_iff_foundAt (hparse : parseFirst heap program.text = some pass) {t : ℕ}
    {address : ℤ} : pass.table.getAddress (heap t) label = some address ↔
      ∃ q, program.FoundAt heap t label q ∧ address = 4 * q := by
  rw [(parseFirst_text hparse).2.1, SymbolTable.getAddress_iff, map_callsFrom]
  constructor
  · rintro ⟨k, call, hcall, rfl, hfound⟩
    obtain ⟨q, hq, rfl, haddress⟩ := callsFrom_getElem?.mp hcall
    exact ⟨q, ⟨_, hq, hfound⟩, by rw [haddress, zero_add]⟩
  · rintro ⟨q, ⟨name, hq, hfound⟩, rfl⟩
    exact ⟨_, ⟨name, 4 * q⟩, callsFrom_getElem?.mpr ⟨q, hq, rfl, by rw [zero_add]⟩, rfl, hfound⟩

theorem copies_eq (hparse : parseFirst heap program.text = some pass) :
    pass.table.copies = program.labels.length := by
  have h := SymbolTable.holds_addCalls heap (callsFrom 0 program.lines) (Nat.le_refl _)
  rw [List.take_length] at h
  rw [(parseFirst_text hparse).2.1, h.copies, ← List.length_map Call.label, map_callsFrom]
  rfl

/-- The first label is found if a zero stands behind its copy. -/
theorem foundAt_first (hp : program.lines[p]? = some (.label label))
    (hfirst : program.labelsBefore p = 0) {t : ℕ} (hzero : heap t 0 = []) :
    program.FoundAt heap t label p := by
  have hget := Program.labels_getElem? hp
  rw [hfirst] at hget
  refine ⟨label, hp, hfirst ▸ ⟨(List.getElem?_eq_some_iff.mp hget).1, ?_, ?_, ?_⟩⟩
  · rw [SymbolTable.Kept]
    exact fun j hj => absurd hj (Nat.not_lt_zero j)
  · rw [SymbolTable.readAt, hzero, List.append_nil, List.getD_eq_getElem?_getD, hget,
      Option.getD_some]
  · exact fun j hj => absurd hj (Nat.not_lt_zero j)

/-- Some label before line `p` starts with `label`. -/
def Extended (program : Program) (label : CString) (p : ℕ) : Prop :=
  ∃ name, .label name ∈ program.lines.take p ∧ label <+: name

/-- If a zero stands behind every copy, a lookup finds the label itself or nothing. -/
theorem foundAt_zeroed_iff (hdistinct : program.labels.Nodup)
    (hp : program.lines[p]? = some (.label label)) {t q : ℕ} :
    program.FoundAt Heap.zeroed t label q ↔ q = p ∧ ¬ Extended program label p := by
  have hreads : ∀ t k, SymbolTable.readAt Heap.zeroed program.labels t k =
      program.labels.getD k [] := fun t k => List.append_nil _
  have hget : program.labels.getD (program.labelsBefore p) [] = label := by
    rw [List.getD_eq_getElem?_getD, Program.labels_getElem? hp, Option.getD_some]
  have hlt := (List.getElem?_eq_some_iff.mp (Program.labels_getElem? hp)).1
  have hextended : Extended program label p ↔
      ∃ j < program.labelsBefore p, label <+: program.labels.getD j [] := by
    have hmem : ∀ name, .label name ∈ program.lines.take p ↔
        name ∈ program.labels.take (program.labelsBefore p) := by
      intro name
      rw [← Program.labels_take, List.mem_filterMap]
      constructor
      · exact fun h => ⟨_, h, rfl⟩
      · rintro ⟨line, hline, hname⟩
        cases line <;> cases hname
        exact hline
    unfold Extended
    simp only [hmem, List.mem_take_iff_getElem]
    constructor
    · rintro ⟨name, ⟨j, hj, rfl⟩, hprefix⟩
      exact ⟨j, by omega, by rwa [List.getD_eq_getElem _ _ (by omega)]⟩
    · rintro ⟨j, hj, hprefix⟩
      rw [List.getD_eq_getElem _ _ (by omega)] at hprefix
      exact ⟨_, ⟨j, by omega, rfl⟩, hprefix⟩
  have hkept : SymbolTable.Kept Heap.zeroed program.labels (program.labelsBefore p) ↔
      ¬ Extended program label p := by
    rw [SymbolTable.kept_zeroed_iff, hget, hextended]
    push Not
    rfl
  constructor
  · rintro ⟨name, hq, hfound⟩
    have hname := hfound.reads
    rw [hreads, List.getD_eq_getElem?_getD, Program.labels_getElem? hq, Option.getD_some] at hname
    -- labels are distinct, so the two lines are the same
    have hsame : program.labelsBefore q = program.labelsBefore p := by
      refine (List.getElem?_inj hfound.lt hdistinct).mp ?_
      rw [Program.labels_getElem? hq, Program.labels_getElem? hp, hname]
    have hline : q = p := by
      rcases Nat.lt_trichotomy q p with hlt | heq | hlt
      · exact absurd hsame (Nat.ne_of_lt (Program.labelsBefore_lt hq hlt))
      · exact heq
      · exact absurd hsame (Nat.ne_of_gt (Program.labelsBefore_lt hp hlt))
    exact ⟨hline, hkept.mp (hsame ▸ hfound.kept)⟩
  · rintro ⟨rfl, hnot⟩
    refine ⟨label, hp, hlt, hkept.mpr hnot, (hreads _ _).trans hget, fun j hj _ heq => hnot ?_⟩
    rw [hreads] at heq
    exact hextended.mpr ⟨j, hj, heq ▸ List.prefix_rfl⟩

/-! ## What the first pass can read -/

/-- Every instruction line can be cut into at most four fields, and there is room for all of
them. -/
structure Program.Readable (program : Program) : Prop where
  lines : ∀ text, .instruction text ∈ program.lines → (parseInstruction (text ++ ['\n'])).isSome
  room : program.instructionsBefore program.lines.length ≤ maxNumInstructions

/-- The first pass over lines that it can read. -/
theorem exists_parseLines {lines : List Line} (hlines : ∀ line ∈ lines, line.WellFormed)
    {instructions : List Instruction} (hinstructions : instructionsOf lines = some instructions)
    {pass : FirstPass}
    (hroom : pass.instructions.length + instructions.length ≤ maxNumInstructions) :
    ∃ pass', (lines.map fun line => line.text ++ ['\n']).foldlM parseLine pass = some pass' := by
  induction lines generalizing pass instructions with
  | nil => exact ⟨pass, rfl⟩
  | cons line lines ih =>
    have hline := hlines line List.mem_cons_self
    have hrest : ∀ line ∈ lines, line.WellFormed :=
      fun l hl => hlines l (List.mem_cons_of_mem _ hl)
    rw [List.map_cons, List.foldlM_cons]
    cases line with
    | label name =>
      rw [parseLine_label hline, Option.bind_eq_bind, Option.bind_some]
      exact ih hrest hinstructions hroom
    | instruction text =>
      obtain ⟨instruction, hparse, hmap⟩ := Option.bind_eq_some_iff.mp hinstructions
      obtain ⟨rest, hread, rfl⟩ := Option.map_eq_some_iff.mp hmap
      rw [List.length_cons] at hroom
      rw [parseLine_instruction hline, hparse, Option.bind_some, if_pos (by omega),
        Option.bind_eq_bind, Option.bind_some]
      refine ih hrest hread ?_
      simp only [List.length_append, List.length_singleton]
      omega

/-- The first pass has room for `MAX_NUM_INSTRUCTIONS` instructions. -/
theorem parseFirst_room {file : List Char} (h : parseFirst heap file = some pass) :
    pass.instructions.length ≤ maxNumInstructions := by
  have hloop : ∀ (lines : List CString) (pass pass' : FirstPass),
      pass.instructions.length ≤ maxNumInstructions → lines.foldlM parseLine pass = some pass' →
      pass'.instructions.length ≤ maxNumInstructions := by
    intro lines
    induction lines with
    | nil =>
      intro pass pass' hle h
      cases h
      exact hle
    | cons line lines ih =>
      intro pass pass' hle h
      rw [List.foldlM_cons] at h
      obtain ⟨pass₁, h₁, h₂⟩ := Option.bind_eq_some_iff.mp h
      refine ih pass₁ pass' ?_ h₂
      unfold parseLine at h₁
      split at h₁
      · obtain ⟨name, -, rfl⟩ := Option.map_eq_some_iff.mp h₁
        exact hle
      · obtain ⟨instruction, -, hroom⟩ := Option.bind_eq_some_iff.mp h₁
        split at hroom
        · cases hroom
          simp only [List.length_append, List.length_singleton]
          omega
        · cases hroom
  exact hloop _ _ _ (by simp [FirstPass.start]) h

theorem instructionsOf_length {lines : List Line} {instructions : List Instruction}
    (h : instructionsOf lines = some instructions) :
    instructions.length = lines.countP fun line => !line.isLabel := by
  induction lines generalizing instructions with
  | nil =>
    cases h
    rfl
  | cons line lines ih =>
    cases line with
    | label name => simpa [Line.isLabel] using ih h
    | instruction text =>
      obtain ⟨instruction, -, hmap⟩ := Option.bind_eq_some_iff.mp h
      obtain ⟨rest, hrest, rfl⟩ := Option.map_eq_some_iff.mp hmap
      simp [Line.isLabel, ih hrest]

theorem instructionsOf_isSome {lines : List Line} : (instructionsOf lines).isSome ↔
    ∀ text, .instruction text ∈ lines → (parseInstruction (text ++ ['\n'])).isSome := by
  induction lines with
  | nil => simp [instructionsOf]
  | cons line lines ih =>
    cases line with
    | label name => simpa [instructionsOf] using ih
    | instruction text =>
      unfold instructionsOf
      cases hparse : parseInstruction (text ++ ['\n']) with
      | none => simp [hparse]
      | some instruction => simp [ih, hparse]

/-- **The first pass succeeds** iff the program can be read, whatever stands in memory. -/
theorem parseFirst_isSome : (parseFirst heap program.text).isSome ↔ program.Readable := by
  have hall : (program.lines.take program.lines.length) = program.lines := List.take_length
  constructor
  · intro h
    obtain ⟨pass, hparse⟩ := Option.isSome_iff_exists.mp h
    have hinstructions := (parseFirst_text hparse).2.2
    refine ⟨instructionsOf_isSome.mp (Option.isSome_of_eq_some hinstructions), ?_⟩
    unfold Program.instructionsBefore
    rw [hall, ← instructionsOf_length hinstructions]
    exact parseFirst_room hparse
  · rintro ⟨hlines, hroom⟩
    obtain ⟨instructions, hinstructions⟩ :=
      Option.isSome_iff_exists.mp (instructionsOf_isSome.mpr hlines)
    unfold Program.instructionsBefore at hroom
    rw [hall, ← instructionsOf_length hinstructions] at hroom
    have hstart : (FirstPass.start heap).instructions.length + instructions.length ≤
        maxNumInstructions := by
      simpa [FirstPass.start] using hroom
    obtain ⟨pass, hpass⟩ := exists_parseLines program.wellFormed hinstructions hstart
    unfold parseFirst
    rw [fgets_text, hpass]
    rfl

theorem instructionsBefore_le (hparse : parseFirst heap program.text = some pass) (p : ℕ) :
    program.instructionsBefore p ≤ pass.instructions.length := by
  rw [instructionsOf_length (parseFirst_text hparse).2.2]
  exact (List.take_sublist p program.lines).countP_le

/-! ## Branches -/

/-- The mnemonics that `main` hands to `assemble_branch`. -/
def Mnemonic.isBranch : Mnemonic → Bool
  | beq | bne | bge | blt | bgt | ble | b => true
  | _ => false

/-- A branch instruction to a label. -/
structure Instruction.BranchesTo (instruction : Instruction) (label : CString) : Prop where
  mnemonic : (getMnemonic instruction.mnemonic).any Mnemonic.isBranch = true
  operand : instruction.operandFields[0]? = some label

theorem getCond_of_isBranch {m : CString} (h : (getMnemonic m).any Mnemonic.isBranch = true) :
    ∃ cond, Branch.getCond m = some cond := by
  obtain ⟨mnemonic, hm, hbranch⟩ := (Option.any_eq_true _ _).mp h
  obtain ⟨entry, hentry, rfl⟩ := Option.map_eq_some_iff.mp hm
  have hall : ∀ entry ∈ mnemonics, entry.2.isBranch = true →
      (Branch.getCond entry.1).isSome = true := by decide
  have hname : entry.1 = m := by simpa using List.find?_some hentry
  rw [← hname]
  exact Option.isSome_iff_exists.mp (hall entry (List.mem_of_find?_eq_some hentry) hbranch)

/-- A branch in word `i` of the file is one word, which depends on the address of its label. -/
theorem assembleInstruction_branch {instruction : Instruction}
    (h : instruction.BranchesTo label) (pass : FirstPass) (i : ℕ) (pool : Pool) :
    ∃ cond, assembleInstruction pass instruction (4 * i) pool =
      (pass.table.getAddress (pass.heap (pass.table.copies + 4 * i)) label).map
        fun destination =>
          (Encoding.ofWord (Branch.encode cond (destination - 4 * i - 8)), pool) := by
  obtain ⟨cond, hcond⟩ := getCond_of_isBranch h.mnemonic
  obtain ⟨m, hm, hbranch⟩ := (Option.any_eq_true _ _).mp h.mnemonic
  have hassemble : ∀ behind, Branch.assemble behind instruction pass.table (4 * i) =
      (pass.table.getAddress behind label).map fun destination =>
        Encoding.ofWord (Branch.encode cond (destination - 4 * i - 8)) := by
    intro behind
    unfold Branch.assemble
    rw [h.operand, hcond, Option.map_eq_bind]
    rfl
  have htime : (4 * (i : ℤ)).toNat = 4 * i := by omega
  refine ⟨cond, ?_⟩
  unfold assembleInstruction
  simp only [hm, Option.bind_eq_bind, Option.bind_some, htime]
  cases m <;> simp_all [Mnemonic.isBranch, Function.comp_def]

/-- A line with a branch mnemonic and a label, if the first pass can read it. -/
theorem branchesTo_of_tokens {line mnemonic : CString} {instruction : Instruction}
    (htokens : CString.strtok [' ', ',', '\n'] line = [mnemonic, label])
    (hbranch : (getMnemonic mnemonic).any Mnemonic.isBranch = true)
    (h : parseInstruction line = some instruction) : instruction.BranchesTo label := by
  unfold parseInstruction at h
  rw [htokens] at h
  obtain ⟨fields, hfields, h⟩ := Option.bind_eq_some_iff.mp h
  unfold operandFields at hfields
  split at hfields
  · cases hfields
  · cases hfields
    rw [if_pos (by simp)] at h
    cases h
    exact ⟨hbranch, rfl⟩

/-- The word that the second pass writes for `instruction`, executed with the program counter 8
bytes past its place in the file, sets the program counter to the word `target` of the file. -/
def LandsOn (pass : FirstPass) (st : SecondPass) (instruction : Instruction) (target : ℕ) : Prop :=
  ∃ word pool, assembleInstruction pass instruction st.address st.pool = some (word, pool) ∧
    ∀ registers : Emulator.Registers,
      registers Emulator.pc = BitVec.ofNat 32 (st.file.length + 8) →
      Emulator.Branch.execute word registers Emulator.pc = BitVec.ofNat 32 (4 * target)

namespace Program

/-- The assembler writes a word for the instruction of line `b`, and it lands on the instruction
that follows line `p`. -/
def Resolves (program : Program) (heap : Heap) (numAppended : ℤ) (b p : ℕ) : Prop :=
  ∃ pass st instruction, parseFirst heap program.text = some pass ∧
    secondPass pass numAppended (program.instructionsBefore b) = some st ∧
    pass.instructions[program.instructionsBefore b]? = some instruction ∧
    LandsOn pass st instruction (program.instructionsBefore p)

/-- The instructions before line `b` are assembled. -/
def Reaches (program : Program) (heap : Heap) (numAppended : ℤ) (b : ℕ) : Prop :=
  ∀ pass, parseFirst heap program.text = some pass →
    (secondPass pass numAppended (program.instructionsBefore b)).isSome

/-- When the label of a branch in line `b` is looked up: after all calls of `add_entry`, at a time
of its own for every instruction. -/
def lookupTime (program : Program) (b : ℕ) : ℕ :=
  program.labels.length + 4 * program.instructionsBefore b

end Program

/-- A branch that lands anywhere has found its label. -/
theorem LandsOn.exists_getAddress {i d : ℕ} {st : SecondPass} {instruction : Instruction}
    (h : LandsOn pass st instruction d) (hbranch : instruction.BranchesTo label)
    (haddress : st.address = 4 * i) :
    ∃ destination,
      pass.table.getAddress (pass.heap (pass.table.copies + 4 * i)) label = some destination := by
  obtain ⟨word, pool, hword, -⟩ := h
  obtain ⟨cond, hassemble⟩ := assembleInstruction_branch hbranch pass i st.pool
  rw [← haddress, hword] at hassemble
  obtain ⟨destination, hfind, -⟩ := Option.map_eq_some_iff.mp hassemble.symm
  exact ⟨destination, hfind⟩

/-- The word of a branch to the address of line `q` lands on word `d`. -/
theorem landsOn_iff {i d q : ℕ} {st : SecondPass} {instruction : Instruction}
    (hbranch : instruction.BranchesTo label) (hi : i < 2 ^ 14) (hd : d ≤ 2 ^ 14)
    (haddress : st.address = 4 * i) (hlength : st.file.length = 4 * i)
    (hq : pass.table.getAddress (pass.heap (pass.table.copies + 4 * i)) label =
      some (4 * (q : ℤ))) : LandsOn pass st instruction d ↔ q ≡ d [MOD 2 ^ 24] := by
  obtain ⟨cond, hassemble⟩ := assembleInstruction_branch hbranch pass i st.pool
  rw [hq, Option.map_some] at hassemble
  have hexecute := execute_encode cond (show -2 ^ 25 ≤ (4 * q - 4 * i - 8 : ℤ) by omega)
    (show (4 : ℤ) ∣ 4 * q - 4 * i - 8 by omega)
  have harrives := arrives_iff (4 * q - 4 * i - 8) hi hd
  unfold Nat.ModEq
  constructor
  · rintro ⟨word, pool, hword, hlands⟩
    rw [haddress, hassemble] at hword
    cases hword
    have hpc := hlands (fun _ => BitVec.ofNat 32 (st.file.length + 8)) rfl
    rw [hexecute, hlength, harrives] at hpc
    omega
  · intro hmod
    refine ⟨_, _, by rw [haddress]; exact hassemble, fun registers hpc => ?_⟩
    rw [hexecute, hpc, hlength, harrives]
    omega

section

variable {b : ℕ} {text mnemonic : CString} {numAppended : ℤ}

/-- What is known of a branch once both passes have got to it. -/
structure Reached (program : Program) (heap : Heap) (b p : ℕ) (label : CString)
    (pass : FirstPass) (st : SecondPass) (instruction : Instruction) : Prop where
  branches : instruction.BranchesTo label
  instructionsBefore_lt : program.instructionsBefore b < 2 ^ 14
  instructionsBefore_le : program.instructionsBefore p ≤ 2 ^ 14
  address : st.address = 4 * program.instructionsBefore b
  length : st.file.length = 4 * program.instructionsBefore b
  memory : pass.heap (pass.table.copies + 4 * program.instructionsBefore b) =
    heap (program.lookupTime b)

theorem reached {st : SecondPass} {instruction : Instruction}
    (hb : program.lines[b]? = some (.instruction text))
    (htokens : CString.strtok [' ', ',', '\n'] (text ++ ['\n']) = [mnemonic, label])
    (hbranch : (getMnemonic mnemonic).any Mnemonic.isBranch = true)
    (hparse : parseFirst heap program.text = some pass)
    (hst : secondPass pass numAppended (program.instructionsBefore b) = some st)
    (hget : pass.instructions[program.instructionsBefore b]? = some instruction) :
    Reached program heap b p label pass st instruction := by
  obtain ⟨instruction', hparse', hget'⟩ := instructionsOf_getElem (parseFirst_text hparse).2.2 hb
  obtain rfl := Option.some.inj (hget'.symm.trans hget)
  have hlt := (List.getElem?_eq_some_iff.mp hget).1
  have hroom : pass.instructions.length ≤ 2 ^ 14 := parseFirst_room hparse
  obtain ⟨haddress, hlength⟩ := secondPass_address (Nat.le_of_lt hlt) hst
  refine ⟨branchesTo_of_tokens htokens hbranch hparse', hlt.trans_le hroom,
    (instructionsBefore_le hparse p).trans hroom, haddress, hlength, ?_⟩
  rw [(parseFirst_text hparse).1, copies_eq hparse]
  rfl

theorem resolves_iff (hb : program.lines[b]? = some (.instruction text))
    (htokens : CString.strtok [' ', ',', '\n'] (text ++ ['\n']) = [mnemonic, label])
    (hbranch : (getMnemonic mnemonic).any Mnemonic.isBranch = true) :
    program.Resolves heap numAppended b p ↔
      program.Readable ∧ program.Reaches heap numAppended b ∧
        ∃ q, program.FoundAt heap (program.lookupTime b) label q ∧
          q ≡ program.instructionsBefore p [MOD 2 ^ 24] := by
  constructor
  · rintro ⟨pass, st, instruction, hparse, hst, hget, hlands⟩
    have h : Reached program heap b p label pass st instruction :=
      reached hb htokens hbranch hparse hst hget
    refine ⟨parseFirst_isSome.mp (Option.isSome_of_eq_some hparse), fun pass' hparse' => ?_, ?_⟩
    · obtain rfl := Option.some.inj (hparse.symm.trans hparse')
      exact Option.isSome_of_eq_some hst
    · obtain ⟨destination, hfind⟩ := hlands.exists_getAddress h.branches h.address
      obtain ⟨q, hfound, rfl⟩ := (getAddress_iff_foundAt hparse).mp (h.memory ▸ hfind)
      refine ⟨q, hfound, ?_⟩
      exact (landsOn_iff h.branches h.instructionsBefore_lt h.instructionsBefore_le h.address
        h.length hfind).mp hlands
  · rintro ⟨hreadable, hreaches, q, hfound, hmod⟩
    obtain ⟨pass, hparse⟩ := Option.isSome_iff_exists.mp (parseFirst_isSome.mpr hreadable)
    obtain ⟨st, hst⟩ := Option.isSome_iff_exists.mp (hreaches pass hparse)
    obtain ⟨instruction, -, hget⟩ := instructionsOf_getElem (parseFirst_text hparse).2.2 hb
    have h : Reached program heap b p label pass st instruction :=
      reached hb htokens hbranch hparse hst hget
    have hfind := (getAddress_iff_foundAt hparse).mpr ⟨q, hfound, rfl⟩
    rw [← h.memory] at hfind
    refine ⟨pass, st, instruction, hparse, hst, hget, ?_⟩
    exact (landsOn_iff h.branches h.instructionsBefore_lt h.instructionsBefore_le h.address
      h.length hfind).mpr hmod

/-- **Label resolution.** A branch lands on the instruction that follows its label iff both passes
get as far as the branch and its lookup finds a line whose number is that of the instruction, modulo
`2 ^ 24`. If a zero stands behind every copy, the line must be that of the label: no earlier label
starts with it, and the number of labels before it is a multiple of `2 ^ 24`. -/
theorem branch_iff (hdistinct : program.labels.Nodup)
    (hp : program.lines[p]? = some (.label label))
    (hb : program.lines[b]? = some (.instruction text))
    (htokens : CString.strtok [' ', ',', '\n'] (text ++ ['\n']) = [mnemonic, label])
    (hbranch : (getMnemonic mnemonic).any Mnemonic.isBranch = true) (heap : Heap)
    (numAppended : ℤ) :
    (program.Resolves heap numAppended b p ↔
      program.Readable ∧ program.Reaches heap numAppended b ∧
        ∃ q, program.FoundAt heap (program.lookupTime b) label q ∧
          q ≡ program.instructionsBefore p [MOD 2 ^ 24]) ∧
    (program.Resolves Heap.zeroed numAppended b p ↔
      program.Readable ∧ program.Reaches Heap.zeroed numAppended b ∧
        ¬ Extended program label p ∧ 2 ^ 24 ∣ program.labelsBefore p) := by
  refine ⟨resolves_iff hb htokens hbranch, ?_⟩
  have hlines := program.labelsBefore_add (Nat.le_of_lt (List.getElem?_eq_some_iff.mp hp).1)
  have hmod : p ≡ program.instructionsBefore p [MOD 2 ^ 24] ↔
      2 ^ 24 ∣ program.labelsBefore p := by
    unfold Nat.ModEq
    omega
  rw [resolves_iff hb htokens hbranch]
  simp only [foundAt_zeroed_iff hdistinct hp, and_assoc, exists_eq_left, hmod]

end

/-! ## Two programs -/

/-- A loop with one label. -/
def loopProgram : Program where
  lines := [.instruction "mov r2,#5".toList, .label "wait".toList,
    .instruction "sub r2,r2,#1".toList, .instruction "bne wait".toList]
  wellFormed := by decide +kernel

theorem branch_loopProgram : loopProgram.Resolves Heap.zeroed 0 3 1 := by
  have hdistinct : loopProgram.labels.Nodup := by decide +kernel
  have hlabel : loopProgram.lines[1]? = some (.label "wait".toList) := by decide +kernel
  have hline : loopProgram.lines[3]? = some (.instruction "bne wait".toList) := by decide +kernel
  have htokens : CString.strtok [' ', ',', '\n'] ("bne wait".toList ++ ['\n']) =
      ["bne".toList, "wait".toList] := by decide +kernel
  have hbranch : (getMnemonic "bne".toList).any Mnemonic.isBranch = true := by decide +kernel
  have hreadable : (parseFirst Heap.zeroed loopProgram.text).isSome = true := by decide +kernel
  have hrun : ((parseFirst Heap.zeroed loopProgram.text).bind fun pass =>
      secondPass pass 0 2).isSome = true := by
    decide +kernel
  refine (branch_iff hdistinct hlabel hline htokens hbranch Heap.zeroed 0).2.mpr
    ⟨parseFirst_isSome.mp hreadable, fun pass hparse => ?_, ?_, by decide +kernel⟩
  · rw [hparse, Option.bind_some] at hrun
    exact hrun
  · rintro ⟨name, hname, -⟩
    simp [loopProgram] at hname

/-- A forward branch past a second label. -/
def forwardProgram : Program where
  lines := [.label "start".toList, .instruction "mov r1,#1".toList, .instruction "b end".toList,
    .instruction "mov r1,#2".toList, .label "end".toList, .instruction "andeq r0,r0,r0".toList]
  wellFormed := by decide +kernel

/-- The branch, the second instruction, goes to word 4 of the output; the instruction after
`end:` is word 3. -/
theorem branch_forwardProgram : forwardProgram.labels.Nodup ∧
    forwardProgram.lines[4]? = some (.label "end".toList) ∧
    forwardProgram.lines[2]? = some (.instruction "b end".toList) ∧
    CString.strtok [' ', ',', '\n'] ("b end".toList ++ ['\n']) = ["b".toList, "end".toList] ∧
    ¬ forwardProgram.Resolves Heap.zeroed 0 2 4 := by
  refine ⟨by decide +kernel, by decide +kernel, by decide +kernel, by decide +kernel, ?_⟩
  have hrun : ((parseFirst Heap.zeroed forwardProgram.text).bind fun pass =>
      (secondPass pass 0 1).bind fun st => pass.instructions[1]?.bind fun instruction =>
      (assembleInstruction pass instruction st.address st.pool).map fun emitted =>
        decide (st.file.length = 4 ∧
          Emulator.Branch.execute emitted.1 (fun _ => 12) Emulator.pc = 16)) = some true := by
    decide +kernel
  rintro ⟨pass, st, instruction, hparse, hst, hget, word, pool, hword, hlands⟩
  have hbefore : forwardProgram.instructionsBefore 2 = 1 := by decide +kernel
  rw [hbefore] at hst hget
  rw [hparse, Option.bind_some, hst, Option.bind_some, hget, Option.bind_some, hword,
    Option.map_some] at hrun
  obtain ⟨hlength, hpc⟩ := of_decide_eq_true (Option.some.inj hrun)
  have hlanded := hlands (fun _ => 12) (by rw [hlength]; rfl)
  rw [hpc] at hlanded
  exact absurd hlanded (by decide +kernel)

end DocMachine.Arm.Assembler
