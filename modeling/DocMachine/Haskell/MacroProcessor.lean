import Mathlib.Tactic.ByCases

/-!
# Splitting a text and combining it again

Model of `splitText` and `combine` of `haskellmacroprocessor_sk4520/MP.hs` (37-48, 51-59).

* Strings are lists of characters. A list that the source builds and that fails at some tail is a
  `Cells` that ends in `failed`: Haskell may read the cells before the failure.
* `splitText` returns the separators and the words between them, one word more than separators,
  which is in its type (`Words`).
* `combine` has no clause for an empty list of words (two such clauses are commented out), so that
  it runs out of words and fails.

Results:
* `toList_combine`: every call of `combine` fails at its end.
* `produced_combine_splitText`: what it produces before it fails is the text that was split.
* `not_combine_splitText`: so on no text does `combine` give back what `splitText` split, when all
  of it is asked for; `combine_splitText_nil` is the case of the repository's own test.
-/

namespace DocMachine.Haskell.MacroProcessor

/-- `String`. -/
abbrev Str := List Char

/-! ## MP.hs -/

/-- Words, at least one. -/
abbrev Words := {wrs : List Str // wrs ≠ []}

/-- `addf`, which has no clause for an empty list. -/
def addf : Words → Char → Words
  | ⟨w :: wrs, _⟩, x => ⟨(x :: w) :: wrs, List.cons_ne_nil _ _⟩

/-- `splitText`: the separators in order, and the words around them. -/
def splitText (sp : List Char) : Str → Str × Words
  | [] => ([], ⟨[[]], List.cons_ne_nil _ _⟩)
  | x :: xs =>
    let (sep, wrs) := splitText sp xs
    if x ∈ sp then (x :: sep, ⟨[] :: wrs.1, List.cons_ne_nil _ _⟩) else (sep, addf wrs x)

/-- A list taken cell by cell: it may fail at the end instead of being finished. -/
inductive Cells (α : Type) where
  | nil
  | cons (head : α) (tail : Cells α)
  | failed
  deriving DecidableEq, Repr

namespace Cells

variable {α : Type}

/-- The whole list, for a reader that needs all of it. -/
def toList : Cells α → Option (List α)
  | nil => some []
  | cons head tail => tail.toList.map (head :: ·)
  | failed => none

/-- What a reader gets before the list ends or fails. -/
def produced : Cells α → List α
  | nil => []
  | cons head tail => head :: tail.produced
  | failed => []

end Cells

open Cells

/-- The two clauses of the source; its clauses for no words are commented out. -/
def combine : Str → List Str → Cells Str
  | [], y :: ys => .cons y (.cons [] (combine [] ys))
  | x :: xs, y :: ys => .cons y (.cons [x] (combine xs ys))
  | _, [] => .failed

/-! ## What is produced -/

/-- Every call of `combine` ends at the missing clause. -/
theorem toList_combine (sep : Str) (ws : List Str) : (combine sep ws).toList = none := by
  induction ws generalizing sep with
  | nil => cases sep <;> rfl
  | cons y ys ih =>
    cases sep with
    | nil => rw [combine, toList, toList, ih, Option.map_none, Option.map_none]
    | cons x xs => rw [combine, toList, toList, ih, Option.map_none, Option.map_none]

/-- A character added to the first word comes first in what is produced. -/
theorem produced_combine_addf (sep : Str) (wrs : Words) (x : Char) :
    (combine sep (addf wrs x).1).produced.flatten =
      x :: (combine sep wrs.1).produced.flatten := by
  obtain ⟨_ | ⟨w, wrs⟩, hne⟩ := wrs
  · exact absurd rfl hne
  · cases sep <;> rfl

/-- **Nothing is lost**: the cells produced before the failure make up the text. -/
theorem produced_combine_splitText (separators t : Str) :
    (combine (splitText separators t).1 (splitText separators t).2.1).produced.flatten = t := by
  induction t with
  | nil => rfl
  | cons x xs ih =>
    by_cases hx : x ∈ separators
    · simp only [splitText, if_pos hx, combine, produced, List.flatten_cons, ih]
      rfl
    · simp only [splitText, if_neg hx, produced_combine_addf, ih]

/-- **On no text** does `combine` give back what `splitText` split. -/
theorem not_combine_splitText (separators t : Str) :
    ¬ ∃ r, (combine (splitText separators t).1 (splitText separators t).2.1).toList = some r ∧
      r.flatten = t := by
  rintro ⟨r, hr, -⟩
  rw [toList_combine] at hr
  cases hr

/-- The empty text is split into one empty word, which is not combined to `[""]`. -/
theorem combine_splitText_nil : splitText [' '] [] = ([], ⟨[[]], List.cons_ne_nil _ _⟩) ∧
    combine [] [[]] = .cons [] (.cons [] .failed) ∧
    ¬ ∃ r, (combine [] [[]]).toList = some r ∧ r.flatten = [] :=
  ⟨rfl, rfl, fun ⟨_, hr, _⟩ => nomatch hr⟩

end DocMachine.Haskell.MacroProcessor
