import DocMachine.Lib.Lockstep
import DocMachine.Arm.Emulator.Emulate

/-!
# The pipeline refines a plain machine

The loop of `main` (`emulate.c` 115-157) against a machine without a pipeline.

* In the plain machine entry `pc` of the registers is the address of the next instruction.
  `Machine.step` fetches the word there, executes it with the program counter reading as that
  address plus 8, and goes on at the next word or at the branch target.
* The main loop agrees with it (`Refines`) when after any number of turns the instruction to execute
  next, the registers with the program counter, the memory and the GPIO words are the same.
* `Filled p m` is the relation the loop keeps: the decoded instruction is the one at the address,
  the fetched pointer is one word ahead of it and the program counter two.
* The turn that can break it is one whose instruction fails its condition: `isBranch` is then read
  without having been assigned, and if it reads as true the pipeline is flushed and the next
  instruction is skipped (`loop_skips`).
* `wellBehaved` asks of the program that only branches write the program counter and that it stays
  inside the memory.

Results:
* `start_filled`: `main` enters the loop with the pipeline filled at address 0.
* `Filled.loop_eq`: a turn of the loop on a filled pipeline, in terms of the plain machine.
* `loop_filled`: a good step keeps the pipeline filled.
* `pipeline_iff`: for a well behaved program the loop refines the plain machine iff `isBranch` reads
  as false in every turn whose instruction fails its condition.
* `pipeline_branchingProgram`: a program and values of `isBranch` with which it does not.
-/

namespace DocMachine.Arm.Emulator

open DocMachine.Lib

variable {m m' : Machine} {p : Pipeline} {slot : ℕ → Bool}

namespace Machine

/-- The instruction at the program counter. -/
def fetch (m : Machine) : Option Encoding := reverseInstruction m (m.registers pc)

/-- The program counter set to an address. -/
def goTo (m : Machine) (address : Word) : Machine := m.setRegister pc address

/-- The machine as the instruction at its program counter sees it. -/
def reading (m : Machine) : Machine := m.goTo (m.registers pc + 8)

/-- The machine at the instruction after the one at its program counter. -/
def next (m : Machine) : Machine := m.goTo (m.registers pc + 4)

/-- The condition of the word holds for the flags. -/
def holds (m : Machine) (word : Encoding) : Bool := checkCond word.first (m.registers cpsr)

/-- One step of the plain machine. It stays where the word is zero. -/
def step (m : Machine) : Option Machine :=
  m.fetch.bind fun word =>
    if isZero word then some m
    else if m.holds word then
      (execute word m.reading).map fun m' =>
        if decode word = .branch then m' else m'.goTo (m.registers pc + 4)
    else some m.next

/-- The instruction at the program counter is inside the memory, and unless it is a branch it
leaves the program counter as it is. -/
def wellBehaved (m : Machine) : Bool :=
  m.fetch.any fun word =>
    isZero word || !m.holds word || decode word = .branch ||
      (execute word m.reading).all fun m' => m'.registers pc = m.registers pc + 8

/-- The instruction at the program counter is executed and its condition fails. -/
def skips (m : Machine) : Bool :=
  m.fetch.any fun word => !isZero word && !m.holds word

@[simp] theorem goTo_pc (m : Machine) (address : Word) :
    (m.goTo address).registers pc = address := by
  simp [goTo]

@[simp] theorem goTo_memory (m : Machine) (address : Word) : (m.goTo address).memory = m.memory :=
  rfl

@[simp] theorem goTo_cpsr (m : Machine) (address : Word) :
    (m.goTo address).registers cpsr = m.registers cpsr := by
  have hne : cpsr ≠ pc := by decide
  simp [goTo, hne]

@[simp] theorem goTo_goTo (m : Machine) (a b : Word) : (m.goTo a).goTo b = m.goTo b := by
  simp [goTo, setRegister]

theorem advance_eq (m : Machine) : m.advance = m.goTo (m.registers pc + 4) := rfl

theorem fetch_goTo (m : Machine) (address : Word) :
    (m.goTo address).fetch = readEncoding m.memory address.toNat := by
  simp [fetch, reverseInstruction]

theorem fetch_of_wellBehaved (h : m.wellBehaved = true) : ∃ word, m.fetch = some word := by
  obtain ⟨word, hword, -⟩ := Option.any_eq_true .. |>.mp h
  exact ⟨word, hword⟩

end Machine

/-- The pipeline is filled for the plain machine `m`. -/
structure Filled (p : Pipeline) (m : Machine) : Prop where
  machine : p.machine = m.reading
  decoded : m.fetch = some p.decoded
  fetched : p.fetched = m.registers pc + 4

/-- What is compared: the next instruction and the machine it is executed on. -/
def Pipeline.view (p : Pipeline) : Option Encoding × Machine := (some p.decoded, p.machine)

/-- What an observer of the plain machine sees: the next word, and the machine as the word sees it.
-/
def Machine.view (m : Machine) : Option Encoding × Machine := (m.fetch, m.reading)

theorem Filled.view (h : Filled p m) : p.view = m.view := by
  simp [Pipeline.view, Machine.view, h.machine, h.decoded]

/-- Filling the pipeline at an instruction inside the memory. -/
theorem fill_filled {word : Encoding} (h : m.fetch = some word) :
    ∃ p, Pipeline.fill m = some p ∧ Filled p m := by
  refine ⟨⟨m.advance.advance, word, m.advance.registers pc⟩, ?_, ?_, h, ?_⟩
  · simp only [Machine.fetch] at h
    simp [Pipeline.fill, h]
  · simp only [Machine.advance_eq, Machine.reading, Machine.goTo_pc, Machine.goTo_goTo]
    congr 1
    grind
  · simp [Machine.advance_eq]

/-- `main` enters the loop with the pipeline filled at address 0. -/
theorem start_filled {file : List Byte} {memory : Memory} {gpio : GpioMemory}
    (h : start file memory gpio = some p) : ∃ m, m.registers pc = 0 ∧ Filled p m := by
  unfold start at h
  obtain ⟨memory', -, h⟩ := Option.bind_eq_some_iff.mp h
  obtain ⟨gpio', -, h⟩ := Option.bind_eq_some_iff.mp h
  obtain ⟨word, hword, -⟩ := Option.map_eq_some_iff.mp h
  obtain ⟨p', hp', hfilled⟩ := fill_filled hword
  rw [h] at hp'
  cases hp'
  exact ⟨_, rfl, hfilled⟩

/-- Shifting the pipeline by one instruction, with the program counter two ahead of it. -/
theorem shift_filled {word : Encoding} {address : Word} (hpc : m.registers pc = address + 8)
    (h : (m.goTo (address + 4)).fetch = some word) :
    ∃ p, Pipeline.shift m (address + 4) = some p ∧ Filled p (m.goTo (address + 4)) := by
  refine ⟨⟨m.advance, word, m.registers pc⟩, ?_, ?_, h, ?_⟩
  · rw [Machine.fetch_goTo] at h
    simp only [Pipeline.shift, reverseInstruction, h, Option.map_some]
  · simp only [Machine.advance_eq, Machine.reading, Machine.goTo_pc, Machine.goTo_goTo, hpc]
    congr 1
    grind
  · simp only [Machine.goTo_pc, hpc]
    grind

/-- A turn of the loop on a filled pipeline, in terms of the plain machine. -/
theorem Filled.loop_eq (h : Filled p m) (slot : Bool) :
    Pipeline.loop slot p =
      if isZero p.decoded then some p
      else if m.holds p.decoded then
        (execute p.decoded m.reading).bind fun m' =>
          if decode p.decoded = .branch then Pipeline.fill m'
          else Pipeline.shift m' (m.registers pc + 4)
      else if slot then Pipeline.fill m.reading
      else Pipeline.shift m.reading (m.registers pc + 4) := by
  unfold Pipeline.loop Pipeline.iterate
  simp only [h.machine, h.fetched, Machine.holds, Machine.reading, Machine.goTo_cpsr]
  rfl

theorem step_eq {word : Encoding} (h : m.fetch = some word) :
    m.step =
      if isZero word then some m
      else if m.holds word then
        (execute word m.reading).map fun m' =>
          if decode word = .branch then m' else m'.goTo (m.registers pc + 4)
      else some m.next := by
  unfold Machine.step
  rw [h, Option.bind_some]

/-- A good step keeps the pipeline filled. -/
theorem loop_filled {slot : Bool} (hfilled : Filled p m) (hwell : m.wellBehaved = true)
    (hnext : ∀ m', m.step = some m' → m'.wellBehaved = true)
    (hgood : m.skips = true → slot = false) :
    Option.Rel Filled (Pipeline.loop slot p) m.step := by
  have hfetch := hfilled.decoded
  rw [step_eq hfetch] at hnext ⊢
  rw [hfilled.loop_eq]
  by_cases hzero : isZero p.decoded
  · rw [if_pos hzero, if_pos hzero]
    exact .some hfilled
  rw [if_neg hzero] at hnext
  rw [if_neg hzero, if_neg hzero]
  by_cases hholds : m.holds p.decoded
  · rw [if_pos hholds] at hnext
    rw [if_pos hholds, if_pos hholds]
    cases hexec : execute p.decoded m.reading with
    | none => exact .none
    | some m' =>
      obtain ⟨word, hword⟩ :=
        Machine.fetch_of_wellBehaved (hnext _ (by rw [hexec, Option.map_some]))
      rw [Option.bind_some, Option.map_some]
      by_cases hbranch : decode p.decoded = .branch
      · rw [if_pos hbranch] at hword
        rw [if_pos hbranch, if_pos hbranch]
        obtain ⟨p', hp', hfilled'⟩ := fill_filled hword
        rw [hp']
        exact .some hfilled'
      · have hpc : m'.registers pc = m.registers pc + 8 := by
          simp only [Machine.wellBehaved, hfetch, Option.any_some, hzero, hholds, hbranch,
            hexec] at hwell
          simpa using hwell
        rw [if_neg hbranch] at hword
        rw [if_neg hbranch, if_neg hbranch]
        obtain ⟨p', hp', hfilled'⟩ := shift_filled hpc hword
        rw [hp']
        exact .some hfilled'
  · have hslot : slot = false := hgood (by simp [Machine.skips, hfetch, hzero, hholds])
    rw [if_neg hholds] at hnext
    rw [if_neg hholds, if_neg hholds, hslot, if_neg Bool.false_ne_true]
    obtain ⟨word, hword⟩ := Machine.fetch_of_wellBehaved (hnext _ rfl)
    have hsame : m.reading.goTo (m.registers pc + 4) = m.next := by
      simp [Machine.reading, Machine.next]
    rw [← hsame] at hword ⊢
    obtain ⟨p', hp', hfilled'⟩ := shift_filled (by simp [Machine.reading]) hword
    rw [hp']
    exact .some hfilled'

/-- A skipped instruction whose turn reads `isBranch` as true moves the program counter one word
too far. -/
theorem loop_skips {slot : Bool} (hfilled : Filled p m) (hskips : m.skips = true)
    (hslot : slot = true) : (Pipeline.loop slot p).map Pipeline.view ≠ m.step.map Machine.view := by
  have hfetch := hfilled.decoded
  simp only [Machine.skips, hfetch, Option.any_some, Bool.and_eq_true, Bool.not_eq_true'] at hskips
  obtain ⟨hzero, hfails⟩ := hskips
  rw [step_eq hfetch, hfilled.loop_eq, hslot]
  simp only [hzero, hfails, Bool.false_eq_true, if_false, if_true, Option.map_some]
  intro heq
  obtain ⟨p', hp', hview⟩ := Option.map_eq_some_iff.mp heq
  have hmachine : p'.machine = m.reading.advance.advance := by
    unfold Pipeline.fill at hp'
    obtain ⟨word, -, rfl⟩ := Option.map_eq_some_iff.mp hp'
    rfl
  have hpc := congrArg (fun v => v.2.registers pc) hview
  simp only [Pipeline.view, Machine.view, Machine.reading, Machine.next, hmachine,
    Machine.advance_eq, Machine.goTo_pc] at hpc
  grind

/-- The main loop, started on `p` and reading `slot k` in turn `k`, agrees with the plain machine
started on `m`. -/
def Refines (slot : ℕ → Bool) (p : Pipeline) (m : Machine) : Prop :=
  Lockstep.Agree (fun k => Pipeline.loop (slot k)) Machine.step Pipeline.view Machine.view p m

/-- The plain machine after `k` steps. -/
def Machine.after (m : Machine) (k : ℕ) : Option Machine :=
  Lockstep.iterate (fun _ => Machine.step) m k

/-- **The pipeline refines the plain machine** iff `isBranch` reads as false in every turn whose
instruction fails its condition. -/
theorem pipeline_iff (hfill : Pipeline.fill m = some p)
    (hwell : ∀ k m', m.after k = some m' → m'.wellBehaved = true) :
    Refines slot p m ↔ ∀ k m', m.after k = some m' → m'.skips = true → slot k = false := by
  have hinit : Filled p m := by
    obtain ⟨word, hword⟩ := Machine.fetch_of_wellBehaved (hwell 0 m rfl)
    obtain ⟨p', hp', hfilled⟩ := fill_filled hword
    rw [hfill] at hp'
    cases hp'
    exact hfilled
  refine Lockstep.agree_iff (fun _ _ => Filled.view) hinit ?_ ?_
  · intro k u v hv hR hgood
    refine loop_filled hR (hwell k v hv) (fun m' hm' => ?_) hgood
    exact hwell (k + 1) m' (by rw [Machine.after, Lockstep.iterate_succ_of hv, hm'])
  · intro k u v hv hR hbad
    rw [Classical.not_imp] at hbad
    exact loop_skips hR hbad.1 (by simpa using hbad.2)

/-! ## Two programs -/

/-- A memory that holds the given instructions from address 0 on, in a machine that is otherwise
zero. -/
def holding (program : List Encoding) : Machine where
  registers := fun _ => 0
  memory := fun i => (program.flatMap Encoding.littleEndian).getD i 0
  gpio := fun _ => 0

/-- `moveq r0, #1` with the Z flag clear, then `mov r1, #2`. -/
def skippingProgram : Machine :=
  holding [⟨0x03, 0xa0, 0x00, 0x01⟩, ⟨0xe3, 0xa0, 0x10, 0x02⟩]

/-- `b` to the third word, and there `skippingProgram`. -/
def branchingProgram : Machine :=
  holding [⟨0xea, 0x00, 0x00, 0x00⟩, ⟨0, 0, 0, 0⟩, ⟨0x03, 0xa0, 0x00, 0x01⟩,
    ⟨0xe3, 0xa0, 0x10, 0x02⟩]

theorem step_of_halted (h : m.fetch.any isZero = true) : m.step = some m := by
  obtain ⟨word, hword, hzero⟩ := (Option.any_eq_true _ _).mp h
  simp [Machine.step, hword, hzero]

/-- A program that has halted after `k` steps is well behaved if it is so until then. -/
theorem wellBehaved_of_halted {k : ℕ} (hhalt : (m.after k).any fun m' => m'.fetch.any isZero)
    (hcheck : ∀ j ≤ k, (m.after j).all Machine.wellBehaved) :
    ∀ j m', m.after j = some m' → m'.wellBehaved = true := by
  intro j m' hm'
  obtain ⟨u, hu, hzero⟩ := (Option.any_eq_true _ _).mp hhalt
  by_cases hjk : j ≤ k
  · simpa [hm'] using hcheck j hjk
  · have hlater : m.after (k + (j - k)) = some u :=
      Lockstep.iterate_fixed hu fun _ => step_of_halted hzero
    rw [show k + (j - k) = j by omega, hm'] at hlater
    cases hlater
    simpa [hu] using hcheck k (Nat.le_refl k)

theorem pipeline_skippingProgram : ∃ p, Pipeline.fill skippingProgram = some p ∧
    Refines (fun _ => false) p skippingProgram := by
  obtain ⟨p, hp⟩ := Option.isSome_iff_exists.mp
    (show (Pipeline.fill skippingProgram).isSome = true by decide +kernel)
  have hwell := wellBehaved_of_halted (m := skippingProgram) (k := 2) (by decide +kernel)
    (by decide +kernel)
  exact ⟨p, hp, (pipeline_iff hp hwell).mpr fun _ _ _ _ => rfl⟩

/-- In turn 1 `isBranch` still holds the value of turn 0, and the last instruction is not
executed. -/
theorem pipeline_branchingProgram : ∃ p, Pipeline.fill branchingProgram = some p ∧
    (∀ k m', branchingProgram.after k = some m' → m'.wellBehaved = true) ∧
    ¬ Refines (fun k => k = 1) p branchingProgram := by
  obtain ⟨p, hp⟩ := Option.isSome_iff_exists.mp
    (show (Pipeline.fill branchingProgram).isSome = true by decide +kernel)
  refine ⟨p, hp, wellBehaved_of_halted (k := 3) (by decide +kernel) (by decide +kernel), ?_⟩
  intro hagree
  have hpcs := congrArg (Option.map fun v => v.2.registers pc) (hagree 2)
  have hloop : ((Pipeline.fill branchingProgram).bind fun p =>
      ((Lockstep.iterate (fun k => Pipeline.loop (k = 1)) p 2).map Pipeline.view).map
        fun v => v.2.registers pc) = some 24 := by decide +kernel
  have hplain : ((Lockstep.iterate (fun _ => Machine.step) branchingProgram 2).map
      Machine.view).map (fun v => v.2.registers pc) = some 20 := by decide +kernel
  rw [hp, Option.bind_some] at hloop
  rw [hloop, hplain] at hpcs
  exact absurd hpcs (by decide)

end DocMachine.Arm.Emulator
