import Mathlib.Algebra.Order.Ring.Int
import Mathlib.Data.Nat.Notation
import Mathlib.Data.Int.Notation
import Mathlib.Data.List.OfFn

/-!
# Symmetric encryption

Model of the symmetric half of `haskellcrypto_sk4520/Crypto.hs` (`toInt` 94-97, `toChar` 99-103,
`add` 106-110, `substract` 113-117, `cbcEncrypt` 135-141, `cbcDecrypt` 143-149).

* Letters are added and subtracted modulo 26 by their numbers. `toChar` is only called on a
  remainder, and `mod` is the one that floors.
* In `cbcEncrypt` every letter is first added to the letter encrypted before it, or to the
  initialisation vector. A position of a string comes with the proof that it is one, so that `!!` is
  always defined.
* The functions are total on all characters; what is proved is for lowercase letters (`Lowercase`).

Results:
* `toInt_toChar_fmod`: the number of a letter modulo 26 belongs to a letter.
* `cbc'_cbcEncrypt` and `cbc_cbcDecrypt`: each function undoes the other at one position. The second
  goes by induction on the position, since encryption feeds on its own output.
* `cbc_roundTrip`: the two undo each other on strings of lowercase letters, in both orders, whatever
  the key and the initialisation vector.
-/

namespace DocMachine.Haskell.Cipher

/-! ## Crypto.hs -/

/-- `toInt`. -/
def toInt (ch : Char) : ℤ := ch.toNat - 'a'.toNat

/-- Only called on a remainder modulo 26. -/
def toChar (n : ℤ) : Char := Char.ofNat ('a'.toNat + n).toNat

/-- `add`: the sum of two letters. -/
def add (a b : Char) : Char := toChar ((toInt a + toInt b).fmod 26)

/-- `substract`. -/
def substract (a b : Char) : Char := toChar ((toInt a - toInt b).fmod 26)

/-- The local `cbc` of `cbcEncrypt`. -/
def cbc (k iv : Char) (s : List Char) : (i : ℕ) → i < s.length → Char
  | 0, h => add (add s[0] iv) k
  | i + 1, h => add (add s[i + 1] (cbc k iv s i (Nat.lt_of_succ_lt h))) k

/-- `cbcEncrypt`. -/
def cbcEncrypt (k iv : Char) (s : List Char) : List Char :=
  List.ofFn fun n : Fin s.length => cbc k iv s n n.isLt

/-- The local `cbc'` of `cbcDecrypt`. -/
def cbc' (k iv : Char) (s : List Char) : (i : ℕ) → i < s.length → Char
  | 0, h => substract (substract s[0] k) iv
  | i + 1, h => substract (substract s[i + 1] k) s[i]

/-- `cbcDecrypt`. -/
def cbcDecrypt (k iv : Char) (s : List Char) : List Char :=
  List.ofFn fun n : Fin s.length => cbc' k iv s n n.isLt

/-! ## Letters -/

/-- A lowercase letter. -/
def Lowercase (c : Char) : Prop := 'a' ≤ c ∧ c ≤ 'z'

instance (c : Char) : Decidable (Lowercase c) := inferInstanceAs (Decidable (_ ∧ _))

theorem lowercase_iff (c : Char) : Lowercase c ↔ 0 ≤ toInt c ∧ toInt c < 26 := by
  have hle : ∀ a b : Char, a ≤ b ↔ a.toNat ≤ b.toNat := fun a b => Iff.rfl
  have ha : 'a'.toNat = 97 := rfl
  have hz : 'z'.toNat = 122 := rfl
  unfold Lowercase toInt
  rw [hle, hle, ha, hz]
  omega

theorem toNat_toChar {n : ℤ} (h : 0 ≤ n) (hn : n < 26) : ((toChar n).toNat : ℤ) = 97 + n := by
  have ha : ('a'.toNat : ℤ) = 97 := rfl
  have hvalid : ('a'.toNat + n).toNat.isValidChar := Or.inl (by omega)
  have hnat : (toChar n).toNat = ('a'.toNat + n).toNat := by
    unfold toChar
    rw [Char.ofNat, dif_pos hvalid]
    rfl
  omega

/-- `toInt` undoes `toChar` on the numbers of letters. -/
theorem toInt_toChar {n : ℤ} (h : 0 ≤ n) (hn : n < 26) : toInt (toChar n) = n := by
  have ha : ('a'.toNat : ℤ) = 97 := rfl
  unfold toInt
  rw [toNat_toChar h hn, ha]
  omega

theorem toChar_toInt {c : Char} (h : Lowercase c) : toChar (toInt c) = c := by
  obtain ⟨hlo, hhi⟩ := (lowercase_iff c).mp h
  apply Char.toNat_inj.mp
  have hnat := toNat_toChar hlo hhi
  have ha : ('a'.toNat : ℤ) = 97 := rfl
  unfold toInt at hnat
  unfold toInt
  omega

/-- The number of a letter modulo 26, by `toChar`, is a letter with that number. -/
theorem toInt_toChar_fmod (n : ℤ) : toInt (toChar (n.fmod 26)) = n % 26 := by
  rw [Int.fmod_eq_emod_of_nonneg n (by decide)]
  exact toInt_toChar (Int.emod_nonneg n (by decide)) (Int.emod_lt_of_pos n (by decide))

theorem toInt_add (a b : Char) : toInt (add a b) = (toInt a + toInt b) % 26 :=
  toInt_toChar_fmod _

theorem toInt_substract (a b : Char) : toInt (substract a b) = (toInt a - toInt b) % 26 :=
  toInt_toChar_fmod _

theorem lowercase_add (a b : Char) : Lowercase (add a b) := by
  rw [lowercase_iff, toInt_add]
  omega

theorem lowercase_substract (a b : Char) : Lowercase (substract a b) := by
  rw [lowercase_iff, toInt_substract]
  omega

/-- Letters with the same number are the same. -/
theorem eq_of_toInt {a b : Char} (ha : Lowercase a) (hb : Lowercase b) (h : toInt a = toInt b) :
    a = b := by
  rw [← toChar_toInt ha, ← toChar_toInt hb, h]

theorem substract_add {a : Char} (h : Lowercase a) (b : Char) : substract (add a b) b = a := by
  refine eq_of_toInt (lowercase_substract _ _) h ?_
  have hletter := (lowercase_iff a).mp h
  rw [toInt_substract, toInt_add]
  omega

theorem add_substract {a : Char} (h : Lowercase a) (b : Char) : add (substract a b) b = a := by
  refine eq_of_toInt (lowercase_add _ _) h ?_
  have hletter := (lowercase_iff a).mp h
  rw [toInt_add, toInt_substract]
  omega

/-! ## Strings -/

theorem length_cbcEncrypt (k iv : Char) (s : List Char) :
    (cbcEncrypt k iv s).length = s.length := List.length_ofFn

theorem length_cbcDecrypt (k iv : Char) (s : List Char) :
    (cbcDecrypt k iv s).length = s.length := List.length_ofFn

theorem getElem_cbcEncrypt (k iv : Char) (s : List Char) (i : ℕ)
    (h : i < (cbcEncrypt k iv s).length) :
    (cbcEncrypt k iv s)[i] = cbc k iv s i (length_cbcEncrypt k iv s ▸ h) :=
  List.getElem_ofFn h

theorem getElem_cbcDecrypt (k iv : Char) (s : List Char) (i : ℕ)
    (h : i < (cbcDecrypt k iv s).length) :
    (cbcDecrypt k iv s)[i] = cbc' k iv s i (length_cbcDecrypt k iv s ▸ h) :=
  List.getElem_ofFn h

/-- Taking the key and the letter before it out of an encrypted letter gives the letter. -/
theorem cbc'_cbcEncrypt {k iv : Char} {s : List Char} (hs : ∀ c ∈ s, Lowercase c) (i : ℕ)
    (h : i < (cbcEncrypt k iv s).length) (hi : i < s.length) :
    cbc' k iv (cbcEncrypt k iv s) i h = s[i] := by
  have hletter : Lowercase s[i] := hs _ (List.getElem_mem hi)
  cases i with
  | zero =>
    rw [cbc', getElem_cbcEncrypt, cbc, substract_add (lowercase_add _ _), substract_add hletter]
  | succ i =>
    rw [cbc', getElem_cbcEncrypt, getElem_cbcEncrypt, cbc, substract_add (lowercase_add _ _),
      substract_add hletter]

/-- Encrypting a decrypted string: the letter before is, by induction, the one subtracted. -/
theorem cbc_cbcDecrypt {k iv : Char} {s : List Char} (hs : ∀ c ∈ s, Lowercase c) (i : ℕ)
    (h : i < (cbcDecrypt k iv s).length) (hi : i < s.length) :
    cbc k iv (cbcDecrypt k iv s) i h = s[i] := by
  induction i with
  | zero =>
    rw [cbc, getElem_cbcDecrypt, cbc', add_substract (lowercase_substract _ _),
      add_substract (hs _ (List.getElem_mem hi))]
  | succ i ih =>
    rw [cbc, ih _ (Nat.lt_of_succ_lt hi), getElem_cbcDecrypt, cbc',
      add_substract (lowercase_substract _ _), add_substract (hs _ (List.getElem_mem hi))]

/-- Decryption undoes encryption. -/
theorem cbcDecrypt_cbcEncrypt {k iv : Char} {s : List Char} (hs : ∀ c ∈ s, Lowercase c) :
    cbcDecrypt k iv (cbcEncrypt k iv s) = s := by
  refine List.ext_getElem ?_ fun i h hi => ?_
  · rw [length_cbcDecrypt, length_cbcEncrypt]
  · rw [getElem_cbcDecrypt, cbc'_cbcEncrypt hs i _ hi]

/-- Encryption undoes decryption. -/
theorem cbcEncrypt_cbcDecrypt {k iv : Char} {s : List Char} (hs : ∀ c ∈ s, Lowercase c) :
    cbcEncrypt k iv (cbcDecrypt k iv s) = s := by
  refine List.ext_getElem ?_ fun i h hi => ?_
  · rw [length_cbcEncrypt, length_cbcDecrypt]
  · rw [getElem_cbcEncrypt, cbc_cbcDecrypt hs i _ hi]

/-- **The round trip** of strings of lowercase letters, in both orders. -/
theorem cbc_roundTrip (k iv : Char) (s : List Char) (hs : ∀ c ∈ s, Lowercase c) :
    cbcDecrypt k iv (cbcEncrypt k iv s) = s ∧ cbcEncrypt k iv (cbcDecrypt k iv s) = s :=
  ⟨cbcDecrypt_cbcEncrypt hs, cbcEncrypt_cbcDecrypt hs⟩

/-- The round trip of `"hello"`. -/
theorem cbc_roundTrip_hello :
    cbcDecrypt 'x' 'w' (cbcEncrypt 'x' 'w' ['h', 'e', 'l', 'l', 'o']) =
        ['h', 'e', 'l', 'l', 'o'] ∧
      cbcEncrypt 'x' 'w' (cbcDecrypt 'x' 'w' ['h', 'e', 'l', 'l', 'o']) =
        ['h', 'e', 'l', 'l', 'o'] :=
  cbc_roundTrip 'x' 'w' _ fun c hc => by
    have hall : (['h', 'e', 'l', 'l', 'o'].all fun c => decide (Lowercase c)) = true := by decide
    exact of_decide_eq_true (List.all_eq_true.mp hall c hc)

end DocMachine.Haskell.Cipher
