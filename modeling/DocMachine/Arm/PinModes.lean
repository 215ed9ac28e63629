import DocMachine.Arm.Emulator.Transfer
import Mathlib.Data.List.Basic

/-!
# The modes of the GPIO pins

Three function-select registers of ten 3-bit fields each say which pins are outputs, and `set_pin`
and `clear_pin` assert that the pin they drive is one (`emulator/gpio/gpio.c` 86-155).

* A store to such a register goes through `set_pin_function` (123-128), which adds the bits of the
  word to those already there.
* The registers start as their own addresses (70-83), so that the fields of some pins are not zero
  before the first store.
* What a field holds is therefore the union of its initial bits and of everything ever stored, and
  not what was stored last. `lastCode` is the latter, and `LeavesNoTrace` says that the earlier
  codes make no difference.
* A history is any sequence of stores of any words to the three registers.

Results:
* `Holds.storeAll`: after a sequence of stores a register holds the union of its first word and of
  all that was stored to it.
* `mask_eq_field`: the mask and the shift of `get_pin_function` cut out the field of the pin.
* `drivePin_isSome_iff`: `set_pin` and `clear_pin` of `1 << pin` pass the assertion iff the field of
  the pin is 1.
* `drives_iff`: after any sequence of stores they accept the pins whose last code is 1, and no
  others, iff the earlier codes leave no trace; `drives_input` is a pin that is still driven as an
  input.
-/

namespace DocMachine.Arm.Emulator

/-! ## Reading what was written -/

section Arrays

variable {n : ℕ} {array array' : Fin n → Byte} {address : ℕ} {word : Word}

theorem exists_writeWord (h : address + 3 < n) (array : Fin n → Byte) (word : Word) :
    ∃ array', writeWord array address word = some array' :=
  ⟨_, if_pos h⟩

theorem readWord_writeWord (h : writeWord array address word = some array') :
    readWord array' address = some word := by
  unfold writeWord at h
  by_cases hroom : address + 3 < n
  · rw [if_pos hroom, Option.some.injEq] at h
    subst h
    unfold readWord readEncoding
    rw [dif_pos hroom, Option.map_some, Option.some.injEq]
    refine Eq.trans ?_ (Encoding.toWord_ofWord word)
    simp [Encoding.ofWord]
  · rw [if_neg hroom] at h
    cases h

/-- A store changes no other word. -/
theorem readWord_writeWord_of_disjoint {other : ℕ}
    (hother : other + 4 ≤ address ∨ address + 4 ≤ other)
    (h : writeWord array address word = some array') :
    readWord array' other = readWord array other := by
  unfold writeWord at h
  by_cases hroom : address + 3 < n
  · rw [if_pos hroom, Option.some.injEq] at h
    subst h
    unfold readWord readEncoding
    by_cases hread : other + 3 < n
    · rw [dif_pos hread, dif_pos hread]
      simp only
      repeat rw [if_neg (by omega), if_neg (by omega), if_neg (by omega), if_neg (by omega)]
    · rw [dif_neg hread, dif_neg hread]
  · rw [if_neg hroom] at h
    cases h

end Arrays

namespace Gpio

/-! ## The function-select registers -/

/-- The three function-select registers. -/
inductive FunctionSelect where
  | pins00_09
  | pins10_19
  | pins20_29
deriving DecidableEq

namespace FunctionSelect

/-- The address of the register in the machine. -/
def location : FunctionSelect → Word
  | pins00_09 => address00_09
  | pins10_19 => address10_19
  | pins20_29 => address20_29

/-- Its place in the GPIO memory. -/
def offset : FunctionSelect → ℕ
  | pins00_09 => 0x0
  | pins10_19 => 0x4
  | pins20_29 => 0x8

theorem location_sub (r : FunctionSelect) : (r.location - 0x20200000).toNat = r.offset := by
  cases r <;> decide

theorem offset_room (r : FunctionSelect) : r.offset + 3 < gpioMemorySize := by
  cases r <;> decide

theorem offset_disjoint {r other : FunctionSelect} (h : other ≠ r) :
    other.offset + 4 ≤ r.offset ∨ r.offset + 4 ≤ other.offset := by
  cases r <;> cases other <;> first | exact absurd rfl h | decide

end FunctionSelect

/-- The words in the three registers. -/
def Holds (gpio : GpioMemory) (words : FunctionSelect → Word) : Prop :=
  ∀ r, readWord gpio r.offset = some (words r)

/-- What a store to a place of the registers does to the words. -/
theorem Holds.write {gpio gpio' : GpioMemory} {words : FunctionSelect → Word} (h : Holds gpio words)
    {r : FunctionSelect} {word : Word} (hwrite : writeWord gpio r.offset word = some gpio') :
    Holds gpio' (Function.update words r word) := by
  intro other
  by_cases hother : other = r
  · subst hother
    rw [Function.update_self]
    exact readWord_writeWord hwrite
  · rw [Function.update_of_ne hother,
      readWord_writeWord_of_disjoint (FunctionSelect.offset_disjoint hother) hwrite]
    exact h other

/-- The registers start as their own addresses. -/
theorem holds_initialisePins {gpio gpio' : GpioMemory} (h : initialisePins gpio = some gpio') :
    Holds gpio' FunctionSelect.location := by
  unfold initialisePins at h
  simp only [Option.bind_eq_bind, Option.bind_eq_some_iff] at h
  obtain ⟨first, hfirst, second, hsecond, hthird⟩ := h
  intro r
  cases r with
  | pins00_09 =>
    rw [readWord_writeWord_of_disjoint (by decide) hthird,
      readWord_writeWord_of_disjoint (by decide) hsecond]
    exact readWord_writeWord hfirst
  | pins10_19 =>
    rw [readWord_writeWord_of_disjoint (by decide) hthird]
    exact readWord_writeWord hsecond
  | pins20_29 => exact readWord_writeWord hthird

/-- **A store** adds its bits to the register. -/
theorem Holds.setPinFunction {gpio : GpioMemory} {words : FunctionSelect → Word}
    (h : Holds gpio words) (r : FunctionSelect) (value : Word) :
    ∃ gpio', setPinFunction r.location value gpio = some gpio' ∧
      Holds gpio' (Function.update words r (words r ||| value)) := by
  obtain ⟨gpio', hwrite⟩ := exists_writeWord r.offset_room gpio (words r ||| value)
  refine ⟨gpio', ?_, h.write hwrite⟩
  unfold Gpio.setPinFunction
  simp only [r.location_sub, h r, Option.bind_eq_bind, Option.bind_some, hwrite]

/-- A sequence of stores. -/
def storeAll (stores : List (FunctionSelect × Word)) (gpio : GpioMemory) : Option GpioMemory :=
  stores.foldlM (fun gpio store => setPinFunction store.1.location store.2 gpio) gpio

/-- The words stored to a register, in order. -/
def storedTo (r : FunctionSelect) (stores : List (FunctionSelect × Word)) : List Word :=
  (stores.filter fun store => store.1 = r).map Prod.snd

/-- **After a sequence of stores** a register holds the union of its first word and of all that was
stored to it. -/
theorem Holds.storeAll {gpio : GpioMemory} {words : FunctionSelect → Word} (h : Holds gpio words)
    (stores : List (FunctionSelect × Word)) :
    ∃ gpio', storeAll stores gpio = some gpio' ∧
      Holds gpio' fun r => (storedTo r stores).foldl (· ||| ·) (words r) := by
  induction stores generalizing gpio words with
  | nil => exact ⟨gpio, rfl, h⟩
  | cons store stores ih =>
    obtain ⟨gpio', hstore, h'⟩ := h.setPinFunction store.1 store.2
    obtain ⟨gpio'', hstores, h''⟩ := ih h'
    refine ⟨gpio'', ?_, fun r => ?_⟩
    · rw [Gpio.storeAll, List.foldlM_cons, hstore]
      exact hstores
    · rw [h'' r]
      by_cases hr : store.1 = r
      · subst hr
        simp [storedTo]
      · simp [storedTo, hr, Function.update_of_ne (Ne.symm hr)]

/-! ## The fields -/

/-- The register with the field of a pin. -/
def registerOf (pin : ℕ) : FunctionSelect :=
  if pin ≤ 9 then .pins00_09 else if pin ≤ 19 then .pins10_19 else .pins20_29

/-- The three bits of a pin in a word. -/
def field (pin : ℕ) (word : Word) : BitVec 3 := word.extractLsb' (3 * (pin % 10)) 3

theorem field_foldl (pin : ℕ) (words : List Word) (word : Word) :
    field pin (words.foldl (· ||| ·) word) =
      (words.map (field pin)).foldl (· ||| ·) (field pin word) := by
  induction words generalizing word with
  | nil => rfl
  | cons w words ih =>
    rw [List.foldl_cons, ih, List.map_cons, List.foldl_cons]
    congr 1
    exact BitVec.extractLsb'_or ..

theorem pinAddress_eq {pin : ℕ} (h : pin < 30) :
    pinAddress pin = some (registerOf pin).offset := by
  have hpins : ∀ pin < 30, pinAddress (pin : ℕ) = some (registerOf pin).offset := by decide
  exact hpins pin h

theorem getPinNumber_shiftLeft {pin : ℕ} (h : pin < 30) : getPinNumber (1#32 <<< pin) = pin := by
  have hpins : ∀ pin < 30, getPinNumber (1#32 <<< pin) = (pin : ℕ) := by decide
  exact hpins pin h

/-- The mask and the shift of `get_pin_function` cut out the field. -/
theorem mask_eq_field (pin : ℕ) (word : Word) :
    ((word &&& (7#32 <<< (3 * (pin % 10)))) >>> (3 * (pin % 10))).setWidth 8 =
      ((field pin word).setWidth 8 : Byte) := by
  rw [show (7#32 : Word) = (BitVec.allOnes 3).setWidth 32 by decide]
  unfold field
  ext i hi
  simp only [BitVec.getElem_setWidth, BitVec.getLsbD_ushiftRight, BitVec.getLsbD_and,
    BitVec.getLsbD_shiftLeft, BitVec.getLsbD_setWidth, BitVec.getLsbD_allOnes,
    BitVec.getLsbD_extractLsb']
  grind

/-- The assertion on a pin looks at its field. -/
theorem getPinFunction_eq {gpio : GpioMemory} {words : FunctionSelect → Word} (h : Holds gpio words)
    {pin : ℕ} (hpin : pin < 30) :
    getPinFunction pin gpio =
      some (fromBinaryToPinFunction ((field pin (words (registerOf pin))).setWidth 8)) := by
  have hoffset : 3 * ((pin : ℤ) % 10).toNat = 3 * (pin % 10) := by omega
  unfold getPinFunction
  simp only [pinAddress_eq hpin, Option.bind_eq_bind, Option.bind_some, h (registerOf pin), hoffset,
    mask_eq_field]

theorem output_iff (code : BitVec 3) :
    fromBinaryToPinFunction (code.setWidth 8) = some .output ↔ code = 1 := by
  decide +revert

/-- `set_pin` and `clear_pin` of `1 << pin` pass the assertion iff the field of the pin is 1. -/
theorem drivePin_isSome_iff {gpio : GpioMemory} {words : FunctionSelect → Word}
    (h : Holds gpio words) {pin : ℕ} (hpin : pin < 30) {address : ℕ}
    (haddress : address + 3 < gpioMemorySize) :
    (drivePin address (1#32 <<< pin) gpio).isSome ↔ field pin (words (registerOf pin)) = 1 := by
  obtain ⟨gpio', hwrite⟩ := exists_writeWord haddress gpio (1#32 <<< pin)
  unfold drivePin
  rw [getPinNumber_shiftLeft hpin, getPinFunction_eq h hpin, ← output_iff]
  by_cases houtput :
      fromBinaryToPinFunction ((field pin (words (registerOf pin))).setWidth 8) = some .output
  · simp [houtput, hwrite]
  · simp [houtput]

/-! ## Histories -/

/-- A union of codes is 1 iff all of them are 0 or 1 and one is 1. -/
theorem foldl_or_eq_one_iff (codes : List (BitVec 3)) (code : BitVec 3) :
    codes.foldl (· ||| ·) code = 1 ↔
      (∀ c ∈ code :: codes, c = 0 ∨ c = 1) ∧ 1 ∈ code :: codes := by
  have hor : ∀ c d : BitVec 3,
      ((c ||| d = 0 ∨ c ||| d = 1) ↔ (c = 0 ∨ c = 1) ∧ (d = 0 ∨ d = 1)) ∧
        ((c = 0 ∨ c = 1) → (d = 0 ∨ d = 1) → (1 = c ||| d ↔ 1 = c ∨ 1 = d)) := by
    decide
  induction codes generalizing code with
  | nil =>
    rw [List.foldl_nil, List.forall_mem_singleton, List.mem_singleton]
    exact ⟨fun h => ⟨Or.inr h, h.symm⟩, fun h => h.2.symm⟩
  | cons c codes ih =>
    obtain ⟨hbits, hone⟩ := hor code c
    have hunion := ih (code ||| c)
    rw [List.forall_mem_cons, List.mem_cons, hbits] at hunion
    rw [List.foldl_cons]
    refine hunion.trans ?_
    rw [List.forall_mem_cons, List.forall_mem_cons, List.mem_cons, List.mem_cons]
    grind

/-- The codes that the field of a pin had before the last store, the initial one first. -/
def earlierCodes (pin : ℕ) (stores : List (FunctionSelect × Word)) : List (BitVec 3) :=
  field pin (registerOf pin).location ::
    ((storedTo (registerOf pin) stores).dropLast.map (field pin))

/-- The code in the last word stored to the register of the pin. -/
def lastCode (pin : ℕ) (stores : List (FunctionSelect × Word)) : Option (BitVec 3) :=
  (storedTo (registerOf pin) stores).getLast?.map (field pin)

/-- The codes before the last do not change what the assertion finds: none of them has a further
bit if the last is 1; if the last is 0, or if there is none, they are all 0 or one of them has
a further bit. -/
def LeavesNoTrace (earlier : List (BitVec 3)) (last : Option (BitVec 3)) : Prop :=
  (last = some 1 → ∀ c ∈ earlier, c = 0 ∨ c = 1) ∧
    (last = none ∨ last = some 0 → (∀ c ∈ earlier, c = 0) ∨ ∃ c ∈ earlier, c ≠ 0 ∧ c ≠ 1)

/-- The union of codes is not 1. -/
theorem not_one_iff (codes : List (BitVec 3)) :
    ¬ ((∀ c ∈ codes, c = 0 ∨ c = 1) ∧ 1 ∈ codes) ↔
      (∀ c ∈ codes, c = 0) ∨ ∃ c ∈ codes, c ≠ 0 ∧ c ≠ 1 := by
  constructor
  · intro h
    by_cases hbits : ∀ c ∈ codes, c = 0 ∨ c = 1
    · exact Or.inl fun c hc => (hbits c hc).resolve_right fun h1 => h ⟨hbits, h1 ▸ hc⟩
    · grind
  · rintro (hzero | ⟨c, hc, h0, h1⟩) ⟨hbits, hone⟩
    · exact absurd (hzero 1 hone) (by decide)
    · exact (hbits c hc).elim h0 h1

/-- The union of all codes tells whether the last is 1 iff the others leave no trace. -/
theorem leavesNoTrace_iff (earlier : List (BitVec 3)) (last : Option (BitVec 3)) :
    (((∀ c ∈ earlier ++ last.toList, c = 0 ∨ c = 1) ∧ 1 ∈ earlier ++ last.toList) ↔
      last = some 1) ↔ LeavesNoTrace earlier last := by
  unfold LeavesNoTrace
  cases last with
  | none =>
    have hnone := not_one_iff earlier
    simpa using hnone
  | some code =>
    by_cases h1 : code = 1
    · subst h1
      simp [or_imp, forall_and]
    · have hlast : some code ≠ some 1 := fun h => h1 (Option.some.inj h)
      simp only [hlast, iff_false, false_implies, true_and, Option.toList_some]
      by_cases h0 : code = 0
      · subst h0
        have hunion := not_one_iff (earlier ++ [0])
        refine hunion.trans ?_
        simp [or_imp]
      · refine iff_of_true (fun h => (h.1 code (by simp)).elim h0 h1) fun h => ?_
        obtain h | h := h
        · cases h
        · exact absurd (Option.some.inj h) h0

/-- **Pin modes.** After any sequence of stores to the function-select registers, `set_pin` and
`clear_pin` accept the pins whose last code is 1, and no others, iff the earlier codes leave no
trace. -/
theorem drives_iff {gpio₀ gpio : GpioMemory} (hinitialise : initialisePins gpio₀ = some gpio)
    (stores : List (FunctionSelect × Word)) {pin : ℕ} (hpin : pin < 30) :
    ∃ gpio', storeAll stores gpio = some gpio' ∧
      ((((setPin (1#32 <<< pin) gpio').isSome ↔ lastCode pin stores = some 1) ∧
          ((clearPin (1#32 <<< pin) gpio').isSome ↔ lastCode pin stores = some 1)) ↔
        LeavesNoTrace (earlierCodes pin stores) (lastCode pin stores)) := by
  obtain ⟨gpio', hstores, hwords⟩ := (holds_initialisePins hinitialise).storeAll stores
  refine ⟨gpio', hstores, ?_⟩
  have hcodes : earlierCodes pin stores ++ (lastCode pin stores).toList =
      field pin (registerOf pin).location ::
        (storedTo (registerOf pin) stores).map (field pin) := by
    unfold earlierCodes lastCode
    obtain hnone | ⟨earlier, word, hstored⟩ :=
      List.eq_nil_or_concat (storedTo (registerOf pin) stores)
    · rw [hnone]
      rfl
    · rw [hstored]
      simp
  rw [setPin, clearPin, drivePin_isSome_iff hwords hpin (by decide),
    drivePin_isSome_iff hwords hpin (by decide), and_self_iff, field_foldl, foldl_or_eq_one_iff,
    ← hcodes]
  exact leavesNoTrace_iff _ _

/-- Pin 4 made an output by one store, after a store to another register. -/
theorem drives_iff_four :
    ∃ gpio', storeAll [(.pins10_19, 0xffffffff), (.pins00_09, 0x1000)]
        ((initialisePins fun _ => 0).getD fun _ => 0) = some gpio' ∧
      ((((setPin (1#32 <<< 4) gpio').isSome ↔
            lastCode 4 [(.pins10_19, 0xffffffff), (.pins00_09, 0x1000)] = some 1) ∧
          ((clearPin (1#32 <<< 4) gpio').isSome ↔
            lastCode 4 [(.pins10_19, 0xffffffff), (.pins00_09, 0x1000)] = some 1)) ↔
        LeavesNoTrace (earlierCodes 4 [(.pins10_19, 0xffffffff), (.pins00_09, 0x1000)])
          (lastCode 4 [(.pins10_19, 0xffffffff), (.pins00_09, 0x1000)])) :=
  drives_iff (show initialisePins (fun _ => 0) = some _ from rfl) _ (by decide)

/-- Pin 4 made an output and then an input again: `set_pin` still drives it. -/
theorem drives_input :
    (((initialisePins fun _ => 0).bind (storeAll [(.pins00_09, 0x1000), (.pins00_09, 0)])).bind
        (setPin (1#32 <<< 4))).isSome = true ∧
      lastCode 4 [(.pins00_09, 0x1000), (.pins00_09, 0)] = some 0 := by
  decide

end Gpio

end DocMachine.Arm.Emulator
