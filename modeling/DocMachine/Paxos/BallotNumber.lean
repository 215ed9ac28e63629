import Mathlib.Data.Prod.Lex
import Mathlib.Order.WithBot
import Mathlib.Data.Fintype.Order

/-!
# Ballot numbers

Model of `BallotNumber` (`consensus/lib/ballot_number.ex`: `compare` 5-19, the five comparisons
21-25, `bottom` 27-29).

* A ballot is the bottom ballot or a value together with the process id of the leader that owns it.
  The struct's `is_bottom` flag becomes a constructor: the only flagged ballot the system builds is
  `bottom()`, whose `leader` field is the integer `0` and not a process (`BallotNumber.leader`
  returns `none` for it).
* `compare` is the `cond` of the source. It looks at the flags first, then at the values, then at
  the owners.
* Process ids are of any linearly ordered type, as Elixir orders all terms.

Results:
* `compare_spec`: `compare` decides the lexicographic order with bottom below everything, so that
  the five comparison functions are the relations of one linear order.
* `lt_number_succ`: one above the value of a higher ballot is higher still, whoever owns it. That is
  what a leader does when it hears of one.
-/

namespace DocMachine.Paxos

/-- `%BallotNumber{}`; `P` is the type of leader process ids. -/
inductive BallotNumber (P : Type) where
  | bottom
  | number (value : ℕ) (leader : P)
  deriving DecidableEq, Repr

namespace BallotNumber

variable {P : Type}

/-- The `leader` field; `none` is the `0` of `bottom()`. -/
def leader : BallotNumber P → Option P
  | bottom => none
  | number _ l => some l

/-- The `value` field; `bottom()` keeps the default `0`. -/
def value : BallotNumber P → ℕ
  | bottom => 0
  | number v _ => v

/-- `%BallotNumber{b | value: v}`. -/
def setValue (b : BallotNumber P) (v : ℕ) : BallotNumber P :=
  match b with
  | bottom => bottom
  | number _ l => number v l

variable [LinearOrder P]

/-- `compare`. -/
def compare : BallotNumber P → BallotNumber P → Ordering
  | bottom, bottom => .eq
  | bottom, number _ _ => .lt
  | number _ _, bottom => .gt
  | number v1 l1, number v2 l2 =>
    if v1 < v2 then .lt
    else if v1 > v2 then .gt
    else if l1 < l2 then .lt
    else if l1 > l2 then .gt
    else .eq

/-- `equal?`. -/
def equal (b1 b2 : BallotNumber P) : Bool := compare b1 b2 == .eq

/-- `less_than?`. -/
def lessThan (b1 b2 : BallotNumber P) : Bool := compare b1 b2 == .lt

/-- `greater_than?`. -/
def greaterThan (b1 b2 : BallotNumber P) : Bool := compare b1 b2 == .gt

/-- `less_or_equal?`. -/
def lessOrEqual (b1 b2 : BallotNumber P) : Bool := compare b1 b2 != .gt

/-- `greater_or_equal?`. -/
def greaterOrEqual (b1 b2 : BallotNumber P) : Bool := compare b1 b2 != .lt

/-! ## The order -/

/-- A ballot as an element of the lexicographic order with a bottom. -/
def toOrder : BallotNumber P → WithBot (ℕ ×ₗ P)
  | bottom => ⊥
  | number v l => ((toLex (v, l) : ℕ ×ₗ P) : WithBot (ℕ ×ₗ P))

omit [LinearOrder P] in
theorem toOrder_injective : Function.Injective (toOrder : BallotNumber P → _) := by
  intro b1 b2 h
  cases b1 <;> cases b2 <;> simp_all [toOrder]

instance : LinearOrder (BallotNumber P) := LinearOrder.lift' toOrder toOrder_injective

theorem lt_def {b1 b2 : BallotNumber P} : b1 < b2 ↔ toOrder b1 < toOrder b2 := Iff.rfl

@[simp] theorem bottom_lt_number (v : ℕ) (l : P) : bottom < number v l :=
  WithBot.bot_lt_coe _

@[simp] theorem not_lt_bottom (b : BallotNumber P) : ¬ b < bottom := by
  rw [lt_def]
  exact not_lt_bot

@[simp] theorem number_lt_number {v1 v2 : ℕ} {l1 l2 : P} :
    number v1 l1 < number v2 l2 ↔ v1 < v2 ∨ v1 = v2 ∧ l1 < l2 := by
  rw [lt_def, toOrder, toOrder, WithBot.coe_lt_coe, Prod.Lex.toLex_lt_toLex]

/-- **`compare` decides the linear order.** -/
theorem compare_spec (b1 b2 : BallotNumber P) :
    (compare b1 b2 = .lt ∧ b1 < b2) ∨ (compare b1 b2 = .eq ∧ b1 = b2) ∨
      (compare b1 b2 = .gt ∧ b2 < b1) := by
  cases b1 with
  | bottom => cases b2 <;> simp [compare]
  | number v1 l1 =>
    cases b2 with
    | bottom => simp [compare]
    | number v2 l2 =>
      simp only [compare, number_lt_number, number.injEq]
      split_ifs with h1 h2 h3 h4
      · exact Or.inl ⟨rfl, Or.inl h1⟩
      · exact Or.inr (Or.inr ⟨rfl, Or.inl h2⟩)
      · exact Or.inl ⟨rfl, Or.inr ⟨by omega, h3⟩⟩
      · exact Or.inr (Or.inr ⟨rfl, Or.inr ⟨by omega, h4⟩⟩)
      · exact Or.inr (Or.inl ⟨rfl, by omega, le_antisymm (not_lt.mp h4) (not_lt.mp h3)⟩)

@[simp] theorem equal_iff {b1 b2 : BallotNumber P} : equal b1 b2 = true ↔ b1 = b2 := by
  rcases compare_spec b1 b2 with ⟨h, hlt⟩ | ⟨h, heq⟩ | ⟨h, hgt⟩
  · simp [equal, h, ne_of_lt hlt]
  · subst heq; simp [equal, h]
  · simp [equal, h, ne_of_gt hgt]

@[simp] theorem equal_eq_false_iff {b1 b2 : BallotNumber P} : equal b1 b2 = false ↔ b1 ≠ b2 := by
  rw [← Bool.not_eq_true, equal_iff]

@[simp] theorem greaterThan_iff {b1 b2 : BallotNumber P} : greaterThan b1 b2 = true ↔ b2 < b1 := by
  rcases compare_spec b1 b2 with ⟨h, hlt⟩ | ⟨h, heq⟩ | ⟨h, hgt⟩
  · simp [greaterThan, h, not_lt_of_gt hlt]
  · subst heq; simp [greaterThan, h]
  · simp [greaterThan, h, hgt]

@[simp] theorem lessThan_iff {b1 b2 : BallotNumber P} : lessThan b1 b2 = true ↔ b1 < b2 := by
  rcases compare_spec b1 b2 with ⟨h, hlt⟩ | ⟨h, heq⟩ | ⟨h, hgt⟩
  · simp [lessThan, h, hlt]
  · subst heq; simp [lessThan, h]
  · simp [lessThan, h, not_lt_of_gt hgt]

@[simp] theorem lessOrEqual_iff {b1 b2 : BallotNumber P} : lessOrEqual b1 b2 = true ↔ b1 ≤ b2 := by
  rcases compare_spec b1 b2 with ⟨h, hlt⟩ | ⟨h, heq⟩ | ⟨h, hgt⟩
  · simp [lessOrEqual, h, hlt.le]
  · subst heq; simp [lessOrEqual, h]
  · simp [lessOrEqual, h, hgt]

instance [WellFoundedLT P] : WellFoundedLT (BallotNumber P) :=
  ⟨InvImage.wf toOrder (wellFounded_lt (α := WithBot (ℕ ×ₗ P)))⟩

/-- `update_ballot_number` in the leader: one above the value of a higher ballot is higher
still, whoever owns it. -/
theorem lt_number_succ {v : ℕ} {l : P} {b : BallotNumber P} (h : number v l ≤ b) (l' : P) :
    number v l < number (b.value + 1) l' := by
  rw [number_lt_number]
  cases b with
  | bottom => exact absurd h (not_le.mpr (bottom_lt_number v l))
  | number w m =>
    have hle := not_lt.mpr h
    rw [number_lt_number] at hle
    left
    show v < w + 1
    omega

end BallotNumber

end DocMachine.Paxos
