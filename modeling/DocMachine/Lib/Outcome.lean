import Mathlib.Data.Nat.Notation

/-!
# Programs with a bound on their loops

A program that may loop is run with a bound on the number of iterations: the `Outcome` says that
the bound was too small, that the program went wrong, or where it ended. Two comparisons of
outcomes and the rule of `whileLoop` for each:
* `Below`: the same outcome unless the bound was too small, for two bounds of one program;
* `Simulates R`: for two programs with the same bound, the second one follows the first, as long as
  the first does not go wrong, and ends in a state related by `R`.
-/

namespace DocMachine.Lib

/-- What becomes of a program with a bound on its loops. -/
inductive Outcome (α : Type) where
  | outOfFuel
  | wrong
  | done (a : α)

namespace Outcome

variable {α β γ δ : Type}

/-- One program after the other. -/
def bind : Outcome α → (α → Outcome β) → Outcome β
  | .outOfFuel, _ => .outOfFuel
  | .wrong, _ => .wrong
  | .done a, f => f a

/-- The result, changed. -/
def map (f : α → β) (o : Outcome α) : Outcome β := o.bind fun a => .done (f a)

/-- `while` with a bound on the iterations. A test without a value goes wrong. -/
def whileLoop (test : α → Option Bool) (body : α → Outcome α) : ℕ → α → Outcome α
  | 0, _ => .outOfFuel
  | fuel + 1, a =>
    match test a with
    | none => .wrong
    | some false => .done a
    | some true => (body a).bind (whileLoop test body fuel)

/-! ## Larger bounds -/

/-- The first outcome was reached with the smaller bound. -/
def Below (o o' : Outcome α) : Prop := o = .outOfFuel ∨ o = o'

theorem Below.refl (o : Outcome α) : Below o o := .inr rfl

theorem Below.bind {o o' : Outcome α} {f g : α → Outcome β} (ho : Below o o')
    (hf : ∀ a, Below (f a) (g a)) : Below (o.bind f) (o'.bind g) := by
  obtain rfl | rfl := ho
  · exact .inl rfl
  · cases o with
    | outOfFuel => exact .inl rfl
    | wrong => exact .inr rfl
    | done a => exact hf a

theorem Below.whileLoop {test : α → Option Bool} {body body' : α → Outcome α}
    (hbody : ∀ a, Below (body a) (body' a)) {fuel fuel' : ℕ} (hfuel : fuel ≤ fuel') (a : α) :
    Below (whileLoop test body fuel a) (whileLoop test body' fuel' a) := by
  induction fuel generalizing fuel' a with
  | zero => exact .inl rfl
  | succ fuel ih =>
    obtain ⟨fuel', rfl⟩ : ∃ k, fuel' = k + 1 := ⟨fuel' - 1, by omega⟩
    unfold Outcome.whileLoop
    split
    · exact .refl _
    · exact .refl _
    · exact (hbody a).bind fun b => ih (by omega) b

/-! ## Simulation -/

/-- The second outcome follows the first. -/
inductive Simulates (R : α → β → Prop) : Outcome α → Outcome β → Prop
  | outOfFuel : Simulates R .outOfFuel .outOfFuel
  | wrong (o : Outcome β) : Simulates R .wrong o
  | done {a : α} {b : β} (h : R a b) : Simulates R (.done a) (.done b)

theorem Simulates.bind {R : α → β → Prop} {S : γ → δ → Prop} {o : Outcome α} {o' : Outcome β}
    {f : α → Outcome γ} {g : β → Outcome δ} (ho : Simulates R o o')
    (hf : ∀ a b, R a b → Simulates S (f a) (g b)) : Simulates S (o.bind f) (o'.bind g) := by
  cases ho with
  | outOfFuel => exact .outOfFuel
  | wrong o => exact .wrong _
  | done h => exact hf _ _ h

/-- **The loop rule.** `R` relates the states at the head of the two loops, `S` those after. -/
theorem Simulates.whileLoop {R S : α → β → Prop} {test : α → Option Bool} {test' : β → Option Bool}
    {body : α → Outcome α} {body' : β → Outcome β}
    (htest : ∀ a b, R a b → ∀ t ∈ test a, t ∈ test' b) (hleave : ∀ a b, R a b → S a b)
    (hbody : ∀ a b, R a b → Simulates R (body a) (body' b)) (fuel : ℕ) {a : α} {b : β}
    (h : R a b) : Simulates S (whileLoop test body fuel a) (whileLoop test' body' fuel b) := by
  induction fuel generalizing a b with
  | zero => exact .outOfFuel
  | succ fuel ih =>
    unfold Outcome.whileLoop
    cases ht : test a with
    | none => exact .wrong _
    | some t =>
      rw [Option.mem_def.mp (htest a b h t ht)]
      cases t with
      | false => exact .done (hleave a b h)
      | true => exact (hbody a b h).bind fun _ _ => ih

/-- A program that takes the place of another one where that one does not go wrong. -/
theorem Simulates.trans_eq {R : α → β → Prop} {o : Outcome α} {o' o'' : Outcome β}
    (h : Simulates R o o') (heq : o' ≠ .wrong → o'' = o') : Simulates R o o'' := by
  cases h with
  | outOfFuel =>
    rw [heq nofun]
    exact .outOfFuel
  | wrong o => exact .wrong _
  | done h =>
    rw [heq nofun]
    exact .done h

end Outcome

end DocMachine.Lib
