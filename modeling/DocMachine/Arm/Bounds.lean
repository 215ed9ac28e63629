import DocMachine.Arm.Emulator.Emulate

/-!
# Loads, stores and the end of the memory

Which indices of the memory array a load or store of the emulator touches: `load` and `store` of
`emulator/single_data_transfer/single_data_transfer.c` (127-180).

* `accessed` is the address that `execute_pre_indexing` or `execute_post_indexing` passes on. There
  is none where the offset is a register shifted by 32 or more, which is undefined in C.
* `touched` lists the four indices of an access, none where the address is one of the GPIO or the
  check of `load` refuses it. `store` checks nothing.
* A 32-bit index wraps around: the word at `0xffffffff` would go on at index 0.
* `InBounds` is what the bounds checks are for: every index is inside, and an access behind the
  memory leaves all but the base register as it is.

Results:
* `readWord_isSome_iff`: a word of the array has a value iff all four indices are inside.
* `store_beyond`: a store that has a result behind the array is one to the clearing or setting word
  of the GPIO.
* `bounds_iff`: an access is in bounds iff it is not a load from 65533 to 65536, nor a store from
  65533 on that is not for a GPIO register.
* `bounds_endOfMemory`: a load and a store at 65536.
-/

namespace DocMachine.Arm.Emulator.SingleDataTransfer

/-- The indices `Rn + i` of the loops over the four bytes. -/
def indices (Rn : Word) : List Word := [Rn, Rn + 1, Rn + 2, Rn + 3]

/-- What `load` reads of the memory array. -/
def loadIndices (Rn : Word) : List Word :=
  if Gpio.isAddress Rn then [] else if 65536 < Rn then [] else indices Rn

/-- What `store` writes of the memory array. -/
def storeIndices (Rn : Word) : List Word :=
  if Gpio.isAddress Rn then []
  else if Rn = Gpio.clearing then []
  else if Rn = Gpio.setting then []
  else indices Rn

/-- What `transfer` touches of the memory array. -/
def touched (word : Encoding) (Rn : Word) : List Word :=
  if getLoadStoreBit word.second ≠ 0 then loadIndices Rn else storeIndices Rn

/-- The address that `executePreIndexing` and `executePostIndexing` pass on. There is none where the
offset is a register shifted by a register whose amount is 32 or more: such a shift is undefined in
C. -/
def accessed (word : Encoding) (m : Machine) : Option Word :=
  if getPrePostIndexingBit word.first ≠ 0 then
    applyOffset (reg (getRn word.second)) word m.registers
  else some (m.registers (reg (getRn word.second)))

/-- **What the bounds checks are for.** Where no address is passed on, an undefined shift, nothing
is asked. -/
structure InBounds (word : Encoding) (m : Machine) : Prop where
  inside : ∀ Rn ∈ accessed word m, ∀ i ∈ touched word Rn, i.toNat < memorySize
  /-- Beyond the memory nothing happens but the write-back of the base register. -/
  unchanged : ∀ Rn ∈ accessed word m, memorySize ≤ Rn.toNat → Gpio.isAddress Rn = false →
    ∀ m' ∈ execute word m, m'.memory = m.memory ∧
      ∀ r, (r = reg (getRn word.second) → getPrePostIndexingBit word.first ≠ 0) →
        m'.registers r = m.registers r

/-- The addresses at which nothing outside the array is touched. -/
def Safe (word : Encoding) (Rn : Word) : Prop :=
  if getLoadStoreBit word.second ≠ 0 then Rn.toNat ≤ 65532 ∨ 65536 < Rn.toNat
  else Rn.toNat ≤ 65532 ∨ Gpio.isAddress Rn = true ∨ Rn = Gpio.clearing ∨ Rn = Gpio.setting

variable {Rn : Word} {Rd : Fin 17} {word : Encoding} {m m' : Machine}

/-! ## The indices -/

theorem indices_lt_iff : (∀ i ∈ indices Rn, i.toNat < memorySize) ↔ Rn.toNat + 3 < memorySize := by
  have hlt := Rn.isLt
  simp only [indices, List.mem_cons, List.not_mem_nil, or_false, forall_eq_or_imp, forall_eq,
    BitVec.toNat_add, BitVec.toNat_ofNat, BitVec.ofNat_eq_ofNat, memorySize]
  omega

/-- `readWord` and `writeWord` have a result iff all four indices are inside. -/
theorem readWord_isSome_iff {memory : Memory} :
    (readWord memory Rn.toNat).isSome ↔ ∀ i ∈ indices Rn, i.toNat < memorySize := by
  rw [indices_lt_iff]
  unfold readWord readEncoding
  split <;> simp_all

theorem writeWord_isSome_iff {memory : Memory} {value : Word} :
    (writeWord memory Rn.toNat value).isSome ↔ ∀ i ∈ indices Rn, i.toNat < memorySize := by
  rw [indices_lt_iff]
  unfold writeWord
  split <;> simp_all

theorem load_isSome_iff :
    (load Rn Rd m).isSome ↔ ∀ i ∈ loadIndices Rn, i.toNat < memorySize := by
  unfold load loadIndices
  split
  · simp
  · split
    · simp
    · rw [Option.isSome_map, readWord_isSome_iff]

theorem store_inside (h : m' ∈ store Rn Rd m) : ∀ i ∈ storeIndices Rn, i.toNat < memorySize := by
  unfold store at h
  unfold storeIndices
  split
  · simp
  · rename_i haddress
    rw [if_neg haddress] at h
    split
    · simp
    · rename_i hclearing
      rw [if_neg hclearing] at h
      split
      · simp
      · rename_i hsetting
        rw [if_neg hsetting] at h
        obtain ⟨memory, hwrite, -⟩ := Option.map_eq_some_iff.mp h
        exact writeWord_isSome_iff.mp (Option.isSome_of_eq_some hwrite)

theorem isAddress_toNat (h : Gpio.isAddress Rn = true) : 65536 < Rn.toNat := by
  simp only [Gpio.isAddress, Bool.or_eq_true, decide_eq_true_eq] at h
  obtain (rfl | rfl) | rfl := h <;> decide

theorem loadIndices_iff : (∀ i ∈ loadIndices Rn, i.toNat < memorySize) ↔
    Rn.toNat ≤ 65532 ∨ 65536 < Rn.toNat := by
  unfold loadIndices
  split
  · rename_i haddress
    simp [isAddress_toNat haddress]
  · split
    · rename_i habove
      have hlt : 65536 < Rn.toNat := habove
      simp [hlt]
    · rename_i hbelow
      have hle : ¬ 65536 < Rn.toNat := hbelow
      rw [indices_lt_iff, memorySize]
      omega

theorem storeIndices_iff : (∀ i ∈ storeIndices Rn, i.toNat < memorySize) ↔
    Rn.toNat ≤ 65532 ∨ Gpio.isAddress Rn = true ∨ Rn = Gpio.clearing ∨ Rn = Gpio.setting := by
  unfold storeIndices
  split
  · simp [*]
  · split
    · simp [*]
    · split
      · simp [*]
      · rename_i haddress hclearing hsetting
        rw [indices_lt_iff, memorySize]
        simp only [haddress, hclearing, hsetting, Bool.false_eq_true, or_false]
        omega

theorem touched_iff : (∀ i ∈ touched word Rn, i.toNat < memorySize) ↔ Safe word Rn := by
  unfold touched Safe
  split
  · exact loadIndices_iff
  · exact storeIndices_iff

/-! ## Beyond the memory -/

theorem load_beyond (hRn : memorySize ≤ Rn.toNat) (haddress : Gpio.isAddress Rn = false)
    (h : m' ∈ load Rn Rd m) : m' = m := by
  unfold load at h
  rw [if_neg (by rw [haddress]; decide)] at h
  split at h
  · exact (Option.some.inj h).symm
  · obtain ⟨value, hread, -⟩ := Option.map_eq_some_iff.mp h
    have hlt := indices_lt_iff.mp (readWord_isSome_iff.mp (Option.isSome_of_eq_some hread))
    omega

/-- A store that has a result there is one to the clearing or setting word of the GPIO. -/
theorem store_beyond (hRn : memorySize ≤ Rn.toNat) (haddress : Gpio.isAddress Rn = false)
    (h : m' ∈ store Rn Rd m) : m'.memory = m.memory ∧ m'.registers = m.registers := by
  unfold store at h
  rw [if_neg (by rw [haddress]; decide)] at h
  split at h
  · obtain ⟨gpio, -, rfl⟩ := Option.map_eq_some_iff.mp h
    exact ⟨rfl, rfl⟩
  · split at h
    · obtain ⟨gpio, -, rfl⟩ := Option.map_eq_some_iff.mp h
      exact ⟨rfl, rfl⟩
    · obtain ⟨memory, hwrite, -⟩ := Option.map_eq_some_iff.mp h
      have hlt := indices_lt_iff.mp (writeWord_isSome_iff.mp (Option.isSome_of_eq_some hwrite))
      omega

theorem transfer_beyond (hRn : memorySize ≤ Rn.toNat) (haddress : Gpio.isAddress Rn = false)
    (h : m' ∈ transfer Rn word m) : m'.memory = m.memory ∧ m'.registers = m.registers := by
  unfold transfer at h
  split at h
  · rw [load_beyond hRn haddress h]
    exact ⟨rfl, rfl⟩
  · exact store_beyond hRn haddress h

theorem execute_beyond (haccessed : Rn ∈ accessed word m) (hRn : memorySize ≤ Rn.toNat)
    (haddress : Gpio.isAddress Rn = false) (h : m' ∈ execute word m) :
    m'.memory = m.memory ∧
      ∀ r, (r = reg (getRn word.second) → getPrePostIndexingBit word.first ≠ 0) →
        m'.registers r = m.registers r := by
  unfold execute at h
  unfold accessed at haccessed
  split at h
  · rename_i hpre
    rw [if_pos hpre] at haccessed
    obtain ⟨address, haddress', h⟩ := Option.bind_eq_some_iff.mp h
    cases haddress'.symm.trans haccessed
    obtain ⟨hmemory, hregisters⟩ := transfer_beyond hRn haddress h
    exact ⟨hmemory, fun r _ => congrFun hregisters r⟩
  · rename_i hpost
    rw [if_neg hpost] at haccessed
    cases haccessed
    obtain ⟨mid, htransfer, h⟩ := Option.bind_eq_some_iff.mp h
    obtain ⟨back, -, h⟩ := Option.bind_eq_some_iff.mp h
    cases h
    obtain ⟨hmemory, hregisters⟩ := transfer_beyond hRn haddress htransfer
    refine ⟨hmemory, fun r hr => ?_⟩
    have hother : r ≠ reg (getRn word.second) := fun heq => hpost (hr heq)
    rw [Machine.setRegister_registers, Registers.set_of_ne hother]
    exact congrFun hregisters r

/-! ## The bounds -/

/-- **Memory bounds.** -/
theorem bounds_iff (word : Encoding) (m : Machine) :
    InBounds word m ↔ ∀ Rn ∈ accessed word m, Safe word Rn := by
  constructor
  · intro h Rn hRn
    exact touched_iff.mp (h.inside Rn hRn)
  · intro h
    refine ⟨fun Rn hRn => touched_iff.mpr (h Rn hRn), ?_⟩
    intro Rn haccessed hRn haddress m' hm'
    exact execute_beyond haccessed hRn haddress hm'

/-- `ldr r1,[r0]` and `str r1,[r0]` with 65536 in `r0`. -/
theorem bounds_endOfMemory :
    let m : Machine := ⟨fun _ => 65536, fun _ => 0, fun _ => 0⟩
    ¬ InBounds ⟨0xe5, 0x90, 0x10, 0⟩ m ∧ ¬ InBounds ⟨0xe5, 0x80, 0x10, 0⟩ m := by
  intro m
  constructor
  · intro h
    exact absurd (h.inside 65536 (by decide +kernel) 65536 (by decide +kernel)) (by decide)
  · intro h
    exact absurd (h.inside 65536 (by decide +kernel) 65536 (by decide +kernel)) (by decide)

end DocMachine.Arm.Emulator.SingleDataTransfer
