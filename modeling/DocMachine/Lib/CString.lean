import Mathlib.Algebra.Ring.Int.Defs
import Mathlib.Algebra.Ring.Nat
import Mathlib.Data.List.Basic

/-!
# C strings and text files

A string is a list of characters without its terminator.

* `fgets` is the loop that reads a file line by line through a buffer of a given size. A line that
  does not fit is returned in parts.
* `strtok` is the list of tokens that the calls of `strtok` return one after the other.
* `strtol`, `strtoul` and `atoi` are the number readers on a 64-bit platform: `long` saturates, and
  `atoi` keeps the low 32 bits of a `long`. Base 0 is the base that the prefix of the number names.
* `decimal` and `signedDecimal` write numbers.

Results:
* `fgets_lines`: reading a text whose lines fit the buffer gives its lines back.
* `strtok_cons`: the first token of a string that starts with one, and `notMem_of_mem_tokensFrom`: a
  token has no delimiter in it.
* `magnitude_decimal`, `strtol_decimal` and `atoi_signedDecimal`: a number that was written is read
  back.
-/

namespace DocMachine.Lib

/-- The characters before the terminator. -/
abbrev CString := List Char

namespace CString

/-! ## Lines -/

/-- What the calls of `fgets` with a buffer of `size` characters return until the end of the file:
each stops after a newline or when the buffer is full. `buffer` is what this call has read. -/
def fgets (size : ℕ) : CString → List Char → List CString
  | [], [] => []
  | c :: buffer, [] => [c :: buffer]
  | buffer, c :: file =>
    if c = '\n' ∨ buffer.length + 2 = size then (buffer ++ [c]) :: fgets size [] file
    else fgets size (buffer ++ [c]) file

theorem fgets_cons (size : ℕ) (buffer : CString) (c : Char) (file : List Char) :
    fgets size buffer (c :: file) =
      if c = '\n' ∨ buffer.length + 2 = size then (buffer ++ [c]) :: fgets size [] file
      else fgets size (buffer ++ [c]) file := by
  cases buffer <;> rfl

/-- A line that fits the buffer is read in one call. -/
theorem fgets_line {size : ℕ} {line : CString} (hline : '\n' ∉ line) (buffer : CString)
    (hsize : buffer.length + line.length + 2 ≤ size) (file : List Char) :
    fgets size buffer (line ++ '\n' :: file) =
      (buffer ++ line ++ ['\n']) :: fgets size [] file := by
  induction line generalizing buffer with
  | nil => simp [fgets_cons]
  | cons c line ih =>
    have hc : c ≠ '\n' := fun h => hline (by simp [h])
    have hfull : buffer.length + 2 ≠ size := by
      simp only [List.length_cons] at hsize
      omega
    rw [List.cons_append, fgets_cons, if_neg (by simp [hc, hfull])]
    rw [ih (fun h => hline (List.mem_cons_of_mem _ h)) _ (by simp at hsize ⊢; omega)]
    simp

/-- **Reading a text gives its lines back.** -/
theorem fgets_lines {size : ℕ} {lines : List CString}
    (h : ∀ line ∈ lines, '\n' ∉ line ∧ line.length + 2 ≤ size) :
    fgets size [] (lines.flatMap (· ++ ['\n'])) = lines.map (· ++ ['\n']) := by
  induction lines with
  | nil => rfl
  | cons line lines ih =>
    obtain ⟨hline, hsize⟩ := h line List.mem_cons_self
    have hrest := ih fun l hl => h l (List.mem_cons_of_mem _ hl)
    simp only [List.flatMap_cons, List.append_assoc, List.singleton_append, List.map_cons]
    rw [fgets_line hline [] (by simpa using hsize), hrest]
    simp

/-! ## Tokens -/

/-- The tokens of the rest of a string, `current` being the part of a token read so far. -/
def tokensFrom (delimiters : List Char) : CString → CString → List CString
  | current, [] => if current = [] then [] else [current]
  | current, c :: s =>
    if c ∈ delimiters then
      if current = [] then tokensFrom delimiters [] s else current :: tokensFrom delimiters [] s
    else tokensFrom delimiters (current ++ [c]) s

/-- The tokens that `strtok (s, delimiters)` and the `strtok (NULL, delimiters)` after it return. -/
def strtok (delimiters : List Char) (s : CString) : List CString := tokensFrom delimiters [] s

theorem tokensFrom_append {delimiters : List Char} {token : CString}
    (htoken : ∀ c ∈ token, c ∉ delimiters) (current s : CString) :
    tokensFrom delimiters current (token ++ s) = tokensFrom delimiters (current ++ token) s := by
  induction token generalizing current with
  | nil => simp
  | cons c token ih =>
    have hc : c ∉ delimiters := htoken c List.mem_cons_self
    rw [List.cons_append, tokensFrom, if_neg hc,
      ih fun d hd => htoken d (List.mem_cons_of_mem _ hd)]
    simp

/-- The first token of a string that starts with one. -/
theorem strtok_cons {delimiters : List Char} {token : CString} {d : Char} (hne : token ≠ [])
    (htoken : ∀ c ∈ token, c ∉ delimiters) (hd : d ∈ delimiters) (s : CString) :
    strtok delimiters (token ++ d :: s) = token :: strtok delimiters s := by
  unfold strtok
  rw [tokensFrom_append htoken, tokensFrom, if_pos hd, if_neg (by simpa using hne)]
  simp

/-- A token has no delimiter in it. -/
theorem notMem_of_mem_tokensFrom {delimiters : List Char} {current s token : CString}
    (hcurrent : ∀ c ∈ current, c ∉ delimiters) (h : token ∈ tokensFrom delimiters current s) :
    ∀ c ∈ token, c ∉ delimiters := by
  induction s generalizing current with
  | nil =>
    rw [tokensFrom] at h
    split at h
    · cases h
    · rwa [List.mem_singleton.mp h]
  | cons c s ih =>
    have hnil : ∀ c ∈ ([] : CString), c ∉ delimiters := fun _ hc => absurd hc List.not_mem_nil
    rw [tokensFrom] at h
    split at h
    · split at h
      · exact ih hnil h
      · rcases List.mem_cons.mp h with rfl | h
        · exact hcurrent
        · exact ih hnil h
    · rename_i hc
      refine ih (fun d hd => ?_) h
      rcases List.mem_append.mp hd with hd | hd
      · exact hcurrent d hd
      · rwa [List.mem_singleton.mp hd]

/-! ## Numbers -/

/-- `isspace`. -/
def isSpace (c : Char) : Bool :=
  c = ' ' || c = '\t' || c = '\n' || c.toNat = 11 || c.toNat = 12 || c = '\r'

/-- The value of a digit, `none` for a character that is not a digit of the base. -/
def digit (base : ℕ) (c : Char) : Option ℕ :=
  let value :=
    if '0' ≤ c ∧ c ≤ '9' then c.toNat - '0'.toNat
    else if 'a' ≤ c ∧ c ≤ 'z' then c.toNat - 'a'.toNat + 10
    else if 'A' ≤ c ∧ c ≤ 'Z' then c.toNat - 'A'.toNat + 10
    else base
  if value < base then some value else none

/-- The number that the digits at the start of the string denote. -/
def magnitude (base : ℕ) : ℕ → CString → ℕ
  | value, [] => value
  | value, c :: s =>
    match digit base c with
    | some d => magnitude base (value * base + d) s
    | none => value

/-- The digits after an optional `0x`, in the base that the prefix selects when `base` is 0. -/
def unsignedNumeral (base : ℕ) (s : CString) : ℕ :=
  match base, s with
  | 0, '0' :: x :: s => if x = 'x' ∨ x = 'X' then magnitude 16 0 s else magnitude 8 0 (x :: s)
  | 0, s => magnitude 10 0 s
  | 16, '0' :: x :: s => if x = 'x' ∨ x = 'X' then magnitude 16 0 s else magnitude 16 0 (x :: s)
  | base, s => magnitude base 0 s

/-- The sign and the digits after leading blanks. -/
def numeral (base : ℕ) (s : CString) : Bool × ℕ :=
  match s.dropWhile isSpace with
  | '-' :: s => (true, unsignedNumeral base s)
  | '+' :: s => (false, unsignedNumeral base s)
  | s => (false, unsignedNumeral base s)

/-- `strtol`: a `long` saturates. -/
def strtol (base : ℕ) (s : CString) : ℤ :=
  match numeral base s with
  | (true, n) => -(min n (2 ^ 63) : ℕ)
  | (false, n) => (min n (2 ^ 63 - 1) : ℕ)

/-- `strtoul`: a minus negates in the unsigned type. -/
def strtoul (base : ℕ) (s : CString) : ℕ :=
  match numeral base s with
  | (true, n) => if n < 2 ^ 64 then (2 ^ 64 - n) % 2 ^ 64 else 2 ^ 64 - 1
  | (false, n) => min n (2 ^ 64 - 1)

/-- `atoi`: the low 32 bits of what `strtol` reads. -/
def atoi (s : CString) : ℤ := (BitVec.ofInt 32 (strtol 10 s)).toInt

example : strtol 0 ['0', 'x', '3', 'F', ']'] = 63 := by decide

/-! ## Numbers in decimal -/

/-- The decimal digits of a number. -/
def decimal (n : ℕ) : CString := Nat.toDigits 10 n

variable {n : ℕ}

theorem isDigit_of_mem_decimal {c : Char} (h : c ∈ decimal n) : c.isDigit :=
  Nat.isDigit_of_mem_toDigits (by omega) (by omega) h

theorem decimal_ne_nil : decimal n ≠ [] := Nat.toDigits_ne_nil

/-- The characters of the decimal digits, and what the number readers take them for. -/
theorem digit_of_isDigit {c : Char} (h : c.isDigit) : digit 10 c = some (c.toNat - '0'.toNat) := by
  have hrange : '0' ≤ c ∧ c ≤ '9' := by
    simpa [Char.isDigit, Char.le_def] using h
  have hsmall : c.toNat - '0'.toNat < 10 := by
    have h9 : c.toNat ≤ '9'.toNat := hrange.2
    have : '9'.toNat = 57 := rfl
    have : '0'.toNat = 48 := rfl
    omega
  simp only [digit, if_pos hrange, if_pos hsmall]

/-- Digits up to the end of a string, or up to a character that is none. -/
theorem magnitude_digits {digits : CString} (h : ∀ c ∈ digits, c.isDigit) (value : ℕ)
    {s : CString} (hs : ∀ c ∈ s.head?, digit 10 c = none) :
    magnitude 10 value (digits ++ s) = Nat.ofDigitChars 10 digits value := by
  induction digits generalizing value with
  | nil =>
    cases s with
    | nil => simp [magnitude]
    | cons c s => simp [magnitude, hs c rfl]
  | cons c digits ih =>
    rw [List.cons_append, magnitude, digit_of_isDigit (h c List.mem_cons_self)]
    rw [Nat.ofDigitChars_cons, ← ih fun d hd => h d (List.mem_cons_of_mem _ hd)]
    simp [Nat.mul_comm]

/-- **Reading a number in decimal.** -/
theorem magnitude_decimal {s : CString} (hs : ∀ c ∈ s.head?, digit 10 c = none) :
    magnitude 10 0 (decimal n ++ s) = n := by
  rw [magnitude_digits (fun _ => isDigit_of_mem_decimal) 0 hs]
  exact Nat.ofDigitChars_ten_toDigits

/-- A digit is not a blank and not a sign. -/
theorem numeral_unsigned {digits : CString} (h : ∀ c ∈ digits, c.isDigit) (hne : digits ≠ [])
    (base : ℕ) : numeral base digits = (false, unsignedNumeral base digits) := by
  cases digits with
  | nil => exact absurd rfl hne
  | cons c digits =>
    have hdigit := h c List.mem_cons_self
    have hspace : isSpace c = false := by
      have hlow : 48 ≤ c.toNat := by
        simp only [Char.isDigit, Bool.and_eq_true, decide_eq_true_eq] at hdigit
        exact hdigit.1
      have hne : ∀ d : Char, d.toNat < 48 → c ≠ d := by
        rintro d hd rfl
        omega
      simp only [isSpace, Bool.or_eq_false_iff, decide_eq_false_iff_not]
      exact ⟨⟨⟨⟨⟨hne _ (by decide), hne _ (by decide)⟩, hne _ (by decide)⟩, by omega⟩, by omega⟩,
        hne _ (by decide)⟩
    have hminus : c ≠ '-' := by
      rintro rfl
      exact absurd hdigit (by decide)
    have hplus : c ≠ '+' := by
      rintro rfl
      exact absurd hdigit (by decide)
    unfold numeral
    rw [List.dropWhile_cons, if_neg (by simp [hspace])]
    grind

theorem numeral_digits {digits : CString} (h : ∀ c ∈ digits, c.isDigit) (hne : digits ≠ []) :
    numeral 10 digits = (false, Nat.ofDigitChars 10 digits 0) := by
  have hmagnitude :=
    magnitude_digits h 0 (show ∀ c ∈ ([] : CString).head?, digit 10 c = none by simp)
  rw [List.append_nil] at hmagnitude
  rw [numeral_unsigned h hne, ← hmagnitude]
  rfl

/-- The first digit of a positive number. -/
theorem head_decimal (hn : 0 < n) : (decimal n).head? ≠ some '0' := by
  induction n using Nat.strongRecOn with
  | ind n ih =>
    unfold decimal
    rw [Nat.toDigits_eq_if (by omega)]
    split
    · have hdigit : ∀ m < 10, 0 < m → [Nat.digitChar m].head? ≠ some '0' := by decide
      exact hdigit n (by assumption) hn
    · have hhead := ih (n / 10) (by omega) (by omega)
      rwa [List.head?_append_of_ne_nil _ Nat.toDigits_ne_nil]

/-- A decimal number is not taken for an octal one. -/
theorem strtol_decimal (hn : 0 < n) (h : n < 2 ^ 63) : strtol 0 (decimal n) = n := by
  have hunsigned : unsignedNumeral 0 (decimal n) = magnitude 10 0 (decimal n) := by
    have hhead := head_decimal hn
    unfold unsignedNumeral
    split
    · next heq => simp [heq] at hhead
    · rfl
    · next hbase _ => exact absurd hbase (by decide)
    · next hbase _ _ => exact absurd rfl hbase
  have hmagnitude := magnitude_decimal (n := n) (s := []) (by simp)
  rw [List.append_nil] at hmagnitude
  unfold strtol
  rw [numeral_unsigned (fun _ => isDigit_of_mem_decimal) decimal_ne_nil, hunsigned, hmagnitude]
  simp only
  omega

/-- A number in decimal, with a sign if it is negative. -/
def signedDecimal (z : ℤ) : CString :=
  if z < 0 then '-' :: decimal z.natAbs else decimal z.natAbs

variable {z : ℤ}

theorem signedDecimal_ne_nil : signedDecimal z ≠ [] := by
  unfold signedDecimal
  split
  · simp
  · exact decimal_ne_nil

/-- The characters of a signed number. -/
theorem mem_signedDecimal {c : Char} (h : c ∈ signedDecimal z) : c.isDigit ∨ c = '-' := by
  unfold signedDecimal at h
  split at h
  · obtain rfl | h := List.mem_cons.mp h
    · exact Or.inr rfl
    · exact Or.inl (isDigit_of_mem_decimal h)
  · exact Or.inl (isDigit_of_mem_decimal h)

theorem decimal_injective : Function.Injective decimal := by
  intro n m h
  have hread := congrArg (fun s => Nat.ofDigitChars 10 s 0) h
  simpa only [decimal, Nat.ofDigitChars_ten_toDigits] using hread

theorem signedDecimal_injective : Function.Injective signedDecimal := by
  have hsign : ∀ n m, decimal n ≠ '-' :: decimal m := by
    intro n m h
    have hdigit := isDigit_of_mem_decimal (h ▸ List.mem_cons_self : '-' ∈ decimal n)
    exact absurd hdigit (by decide)
  intro z y h
  unfold signedDecimal at h
  split_ifs at h
  · have habs := decimal_injective (List.tail_eq_of_cons_eq h)
    omega
  · exact absurd h.symm (hsign _ _)
  · exact absurd h (hsign _ _)
  · have habs := decimal_injective h
    omega

/-- **`atoi` reads a number in decimal.** -/
theorem atoi_signedDecimal (hlow : -2 ^ 31 ≤ z) (hhigh : z < 2 ^ 31) :
    atoi (signedDecimal z) = z := by
  have hdigits : numeral 10 (decimal z.natAbs) = (false, z.natAbs) := by
    rw [numeral_digits (fun _ => isDigit_of_mem_decimal) decimal_ne_nil]
    exact congrArg _ Nat.ofDigitChars_ten_toDigits
  have hstrtol : strtol 10 (signedDecimal z) = z := by
    unfold signedDecimal strtol
    by_cases hz : z < 0
    · have hneg : numeral 10 ('-' :: decimal z.natAbs) = (true, z.natAbs) := by
        have hmagnitude := magnitude_decimal (n := z.natAbs) (s := []) (by simp)
        rw [List.append_nil] at hmagnitude
        simp [numeral, isSpace, unsignedNumeral, hmagnitude]
      rw [if_pos hz, hneg]
      simp only
      omega
    · rw [if_neg hz, hdigits]
      simp only
      omega
  rw [atoi, hstrtol, BitVec.toInt_ofInt, Int.bmod_def]
  omega

end CString

end DocMachine.Lib
