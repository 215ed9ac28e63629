import Mathlib.Data.List.Infix
import Mathlib.Data.List.Iterate
import Mathlib.Data.List.Nodup

/-!
# Searching a text

Model of `haskellpracticetest_sk4520/Practice.hs` (`isPrefix` 5-11, `suffixes` 20-22, `isSubstring`
24-26, `findSubstrings` 28-40, `findSubstrings'` 42-44).

* Both searches go through the suffixes of the text and look up the place of each one that begins
  with the pattern, among all suffixes, with `elemIndex`.
* `suffixes` leaves the empty suffix out, so that the empty pattern is found at every character and
  not behind the last.
* `checkSuffs` is the first search's own loop, the second one is a list comprehension.

Results:
* `elemIndex_suffix`: no two suffixes have the same length, so that each is found at its own place.
* `findSubstrings_eq_findSubstrings'`: the two searches are the same filter and map.
* `findSubstrings_spec`: they return the places of the pattern, in order.
* `isSubstring_iff`: a text that is found somewhere is found at a place.
-/

namespace DocMachine.Haskell.Practice

/-! ## Practice.hs -/

/-- `isPrefix`. -/
def isPrefix : List Char → List Char → Bool
  | [], _ => true
  | _ :: _, [] => false
  | p :: ps, s :: str => p == s && isPrefix ps str

/-- The empty suffix is not among them. -/
def suffixes {α : Type} (as : List α) : List (List α) :=
  List.iterate (List.drop 1) as as.length

/-- `isSubstring`. -/
def isSubstring (s str : List Char) : Bool :=
  (suffixes str).any (isPrefix s)

/-- `fromMaybe 0 (elemIndex suff suffs)`. -/
def elemIndex (suff : List Char) (suffs : List (List Char)) : ℕ :=
  (suffs.idxOf? suff).getD 0

/-- The local `checkSuffs` of `findSubstrings`. -/
def checkSuffs (str sub : List Char) : List (List Char) → List ℕ
  | [] => []
  | s :: suffs =>
    if isPrefix sub s then elemIndex s (suffixes str) :: checkSuffs str sub suffs
    else checkSuffs str sub suffs

/-- `findSubstrings`. -/
def findSubstrings (s str : List Char) : List ℕ :=
  checkSuffs str s (suffixes str)

/-- `findSubstrings'`. -/
def findSubstrings' (s str : List Char) : List ℕ :=
  ((suffixes str).filter (isPrefix s)).map fun suff => elemIndex suff (suffixes str)

/-! ## Suffixes -/

theorem isPrefix_iff {s str : List Char} : isPrefix s str = true ↔ s <+: str := by
  induction s generalizing str with
  | nil => simp [isPrefix]
  | cons p ps ih =>
    cases str with
    | nil => simp [isPrefix]
    | cons c str => simp [isPrefix, ih, List.cons_prefix_cons]

theorem iterate_drop {α : Type} (as : List α) (i : ℕ) : (List.drop 1)^[i] as = as.drop i := by
  induction i with
  | zero => rfl
  | succ i ih => rw [Function.iterate_succ_apply', ih, List.drop_drop]

theorem suffixes_eq {α : Type} (as : List α) :
    suffixes as = (List.range as.length).map as.drop := by
  refine List.ext_getElem ?_ fun i _ _ => ?_
  · rw [suffixes, List.length_iterate, List.length_map, List.length_range]
  · simp only [suffixes, List.getElem_iterate, List.getElem_map, List.getElem_range, iterate_drop]

variable {s str : List Char} {i : ℕ}

/-- A suffix is no other one: they have different lengths. -/
theorem elemIndex_suffix (hi : i < str.length) :
    elemIndex (str.drop i) (suffixes str) = i := by
  have hfirst : (suffixes str).idxOf? (str.drop i) = some i := by
    rw [List.idxOf?_eq_some_iff]
    refine ⟨by simpa [suffixes_eq] using hi, by simp [suffixes_eq], fun j hji heq => ?_⟩
    have hlen := congrArg List.length heq
    simp only [suffixes_eq, List.getElem_map, List.getElem_range, List.length_drop] at hlen
    omega
  rw [elemIndex, hfirst, Option.getD_some]

/-! ## The searches -/

theorem checkSuffs_eq (suffs : List (List Char)) : checkSuffs str s suffs =
    (suffs.filter (isPrefix s)).map fun suff => elemIndex suff (suffixes str) := by
  induction suffs with
  | nil => rfl
  | cons suff suffs ih =>
    rw [checkSuffs, ih, List.filter_cons]
    split
    · rfl
    · rfl

/-- The two searches are the same filter and map, the one by hand and the other as a
comprehension. -/
theorem findSubstrings_eq_findSubstrings' (s str : List Char) :
    findSubstrings s str = findSubstrings' s str := checkSuffs_eq (suffixes str)

theorem findSubstrings_eq (s str : List Char) : findSubstrings s str =
    (List.range str.length).filter fun i => isPrefix s (str.drop i) := by
  have hplace : ∀ i ∈ (List.range str.length).filter fun i => isPrefix s (str.drop i),
      elemIndex (str.drop i) (suffixes str) = i := fun i hi =>
    elemIndex_suffix (List.mem_range.mp (List.mem_of_mem_filter hi))
  rw [findSubstrings, checkSuffs_eq]
  nth_rewrite 2 [suffixes_eq]
  rw [List.filter_map, List.map_map]
  exact (List.map_congr_left hplace).trans (List.map_id' _)

/-- A text that is found somewhere is found at a place. -/
theorem isSubstring_iff : isSubstring s str = true ↔ findSubstrings s str ≠ [] := by
  rw [findSubstrings_eq, Ne, List.filter_eq_nil_iff, isSubstring, suffixes_eq, List.any_map,
    List.any_eq_true]
  simp

/-- **The places of a pattern**, in order. -/
theorem findSubstrings_spec (s str : List Char) :
    (findSubstrings s str).Pairwise (· < ·) ∧
      (∀ i, i ∈ findSubstrings s str ↔ i < str.length ∧ s <+: str.drop i) ∧
      findSubstrings s str = findSubstrings' s str := by
  refine ⟨?_, fun i => ?_, findSubstrings_eq_findSubstrings' s str⟩
  · rw [findSubstrings_eq]
    exact List.pairwise_lt_range.filter _
  · rw [findSubstrings_eq, List.mem_filter, List.mem_range, isPrefix_iff]

/-- Occurrences overlap, and the empty pattern is not found behind the last character. -/
example : findSubstrings "aa".toList "aaa".toList = [0, 1] ∧
    findSubstrings [] "aaa".toList = [0, 1, 2] := by decide

end DocMachine.Haskell.Practice
