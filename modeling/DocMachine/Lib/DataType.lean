import Mathlib.Data.Nat.Notation

/-!
# Refinement of data types

The operations of a data type are run by `exec : S → O → Option (R × S)`, which gives a result and
the next state; `none` says that the operation has no result. A `Spec` says what the operations are
for, on states of its own: when one may be called, and what it may return.

`refines`: when each allowed operation gives a result that the specification accepts, and keeps an
abstraction relation, then so does every sequence of allowed operations.
-/

namespace DocMachine.Lib.DataType

variable {S A O R : Type}

/-- What the operations are for: when one may be called, and what it may return and leave behind. -/
structure Spec (A O R : Type) where
  Pre : A → O → Prop
  Post : A → O → R → A → Prop

/-- Each operation may be called, whatever the ones before it have returned. -/
def Spec.Allows (spec : Spec A O R) : A → List O → Prop
  | _, [] => True
  | a, o :: os => spec.Pre a o ∧ ∀ r a', spec.Post a o r a' → spec.Allows a' os

/-- The results of a sequence of operations, and the state after it. -/
def Spec.Serves (spec : Spec A O R) : A → List O → List R → A → Prop
  | a, [], rs, a' => rs = [] ∧ a' = a
  | a, o :: os, rs, a' => ∃ r b rs', spec.Post a o r b ∧ rs = r :: rs' ∧ spec.Serves b os rs' a'

/-- Run a sequence of operations. -/
def runs (exec : S → O → Option (R × S)) : S → List O → Option (List R × S)
  | s, [] => some ([], s)
  | s, o :: os => do
    let (r, s) ← exec s o
    let (rs, s) ← runs exec s os
    return (r :: rs, s)

variable {exec : S → O → Option (R × S)} {spec : Spec A O R} {Rel : S → A → Prop} {s : S} {a : A}

/-- **Refinement**, from one operation to all sequences of them. -/
theorem refines (hstep : ∀ s a o, Rel s a → spec.Pre a o →
      ∃ r s' a', exec s o = some (r, s') ∧ spec.Post a o r a' ∧ Rel s' a')
    (h : Rel s a) {os : List O} (hos : spec.Allows a os) :
    ∃ rs s' a', runs exec s os = some (rs, s') ∧ spec.Serves a os rs a' ∧ Rel s' a' := by
  induction os generalizing s a with
  | nil => exact ⟨[], s, a, rfl, ⟨rfl, rfl⟩, h⟩
  | cons o os ih =>
    obtain ⟨r, s₁, a₁, hexec, hpost, h₁⟩ := hstep s a o h hos.1
    obtain ⟨rs, s', a', hruns, hserves, h'⟩ := ih h₁ (hos.2 r a₁ hpost)
    refine ⟨r :: rs, s', a', ?_, ⟨r, a₁, rs, hpost, rfl, hserves⟩, h'⟩
    rw [runs, hexec]
    simp only [Option.bind_eq_bind, Option.bind_some, hruns]
    rfl

end DocMachine.Lib.DataType
