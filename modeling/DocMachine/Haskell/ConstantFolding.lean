import Mathlib.Data.List.Basic

/-!
# Constant substitution

Model of the interpreter of expressions and of the first part of the optimiser in
`Haskell_Exercises/revision1/revision1.hs` (the types 4-18, `lookUp` 24-27, `update` 38-40, `apply`
42-50, `eval` 52-60, `foldConst` 91-103, `sub` 105-118).

* `Int` is `Int64`, which wraps around.
* A failed `lookUp` and a phi instruction have no value (`none`).
* `sub` folds at every level: `sub'` calls `sub` on the operands, which folds their roots, before
  the root itself is folded. The model keeps the two functions apart.
* `foldConst` looks at the root only. Besides two constants it knows a variable plus zero, and two
  equal constants under a phi.

Results:
* `eval_foldConst`: folding the root of an application keeps its value, and fails where it fails.
* `eval_sub_eq`: both sides of the substitution have the same value or both fail, on expressions
  without a phi.
* `eval_sub`: substituting a number for a variable means the same as binding the variable to the
  number. Only the other variables have to be bound.
-/

namespace DocMachine.Haskell.ConstantFolding

/-! ## revision1.hs -/

/-- `Id`. -/
abbrev Id := String

/-- `Op`. -/
inductive Op where
  | add
  | mul
  | eq
  | gtr

/-- `Exp`: `phi` joins the values of two branches. -/
inductive Exp where
  | const (n : Int64)
  | var (v : Id)
  | apply (op : Op) (e₁ e₂ : Exp)
  | phi (e₁ e₂ : Exp)

/-- `State`. -/
abbrev State := List (Id × Int64)

/-- `lookUp`, with `none` for its error. -/
def lookUp (i : Id) (table : State) : Option Int64 := List.lookup i table

/-- `update`: the old entries of the variable are dropped. -/
def update : Id × Int64 → State → State
  | (v, n), s => (v, n) :: s.filter fun entry => entry.1 ≠ v

/-- `apply`: a comparison is 1 or 0. -/
def apply : Op → Int64 → Int64 → Int64
  | .eq, a, b => if a = b then 1 else 0
  | .gtr, a, b => if a > b then 1 else 0
  | .mul, a, b => a * b
  | .add, a, b => a + b

/-- `eval`. -/
def eval : Exp → State → Option Int64
  | .const n, _ => some n
  | .var v, s => lookUp v s
  | .apply op e₁ e₂, s => do return apply op (← eval e₁ s) (← eval e₂ s)
  | .phi _ _, _ => none

/-- `foldConst`. -/
def foldConst : Exp → Exp
  | .phi (.const c) (.const c') => if c = c' then .const c else .phi (.const c) (.const c')
  | .apply op (.const c) (.const c') => .const (apply op c c')
  | .apply .add (.var v) (.const c) => if c = 0 then .var v else .apply .add (.var v) (.const c)
  | .apply .add (.const c) (.var v) => if c = 0 then .var v else .apply .add (.const c) (.var v)
  | e => e

/-- The inner calls of `sub` are written out. -/
def sub' (v : Id) (n : Int64) : Exp → Exp
  | .var v' => if v = v' then .const n else .var v'
  | .apply op e₁ e₂ => .apply op (foldConst (sub' v n e₁)) (foldConst (sub' v n e₂))
  | .phi e₁ e₂ => .phi (foldConst (sub' v n e₁)) (foldConst (sub' v n e₂))
  | .const c => .const c

/-- `sub`: the number for the variable, and the root folded. -/
def sub (v : Id) (n : Int64) (e : Exp) : Exp := foldConst (sub' v n e)

/-! ## Substitution -/

/-- The expression has no phi. -/
def Exp.PhiFree : Exp → Prop
  | .const _ | .var _ => True
  | .apply _ e₁ e₂ => e₁.PhiFree ∧ e₂.PhiFree
  | .phi _ _ => False

/-- The variables of an expression. -/
def Exp.vars : Exp → List Id
  | .const _ => []
  | .var v => [v]
  | .apply _ e₁ e₂ | .phi e₁ e₂ => e₁.vars ++ e₂.vars

theorem lookUp_update (w v : Id) (n : Int64) (s : State) :
    lookUp w (update (v, n) s) = if w = v then some n else lookUp w s := by
  unfold lookUp update
  by_cases hwv : w = v
  · rw [if_pos hwv, hwv, List.lookup_cons_self]
  · rw [if_neg hwv, List.lookup_cons, beq_false_of_ne hwv]
    induction s with
    | nil => rfl
    | cons entry s ih =>
      by_cases hv : entry.1 = v
      · rw [List.filter_cons_of_neg (by simpa using hv), List.lookup_cons,
          beq_false_of_ne (hv ▸ hwv)]
        exact ih
      · rw [List.filter_cons_of_pos (by simpa using hv), List.lookup_cons, List.lookup_cons]
        cases w == entry.1
        · exact ih
        · rfl

/-- Folding looks at the root only, and may drop a sum with 0. -/
theorem eval_foldConst (op : Op) (e₁ e₂ : Exp) (s : State) :
    eval (foldConst (.apply op e₁ e₂)) s = eval (.apply op e₁ e₂) s := by
  generalize he : Exp.apply op e₁ e₂ = e
  fun_cases foldConst e
  case case1 => cases he
  case case2 => cases he
  case case3 op c c' => rfl
  case case4 v => simp [eval, apply]
  case case5 => rfl
  case case6 v => simp [eval, apply]
  case case7 => rfl
  case case8 => rfl

/-- The two sides also fail alike. -/
theorem eval_sub_eq {e : Exp} (h : e.PhiFree) (v : Id) (n : Int64) (s : State) :
    eval (sub v n e) s = eval e (update (v, n) s) := by
  induction e with
  | const c => rfl
  | var w =>
    rw [eval, lookUp_update]
    by_cases hwv : w = v
    · simp [sub, sub', hwv, foldConst, eval]
    · simp [sub, sub', Ne.symm hwv, hwv, foldConst, eval]
  | apply op e₁ e₂ ih₁ ih₂ =>
    obtain ⟨h₁, h₂⟩ := h
    calc eval (sub v n (.apply op e₁ e₂)) s
        = eval (.apply op (sub v n e₁) (sub v n e₂)) s := eval_foldConst op _ _ s
      _ = eval (.apply op e₁ e₂) (update (v, n) s) := by
        simp only [eval, ih₁ h₁, ih₂ h₂]
  | phi e₁ e₂ => exact h.elim

theorem exists_eval {e : Exp} (h : e.PhiFree) {s : State}
    (hbound : ∀ w ∈ e.vars, (lookUp w s).isSome) : ∃ x, eval e s = some x := by
  induction e with
  | const c => exact ⟨c, rfl⟩
  | var w => exact Option.isSome_iff_exists.mp (hbound w List.mem_cons_self)
  | apply op e₁ e₂ ih₁ ih₂ =>
    obtain ⟨x, hx⟩ := ih₁ h.1 fun w hw => hbound w (List.mem_append_left _ hw)
    obtain ⟨y, hy⟩ := ih₂ h.2 fun w hw => hbound w (List.mem_append_right _ hw)
    exact ⟨apply op x y, by simp [eval, hx, hy]⟩
  | phi e₁ e₂ => exact h.elim

/-- **Constant substitution.** Only the variables other than `v` have to be bound. -/
theorem eval_sub {e : Exp} (h : e.PhiFree) (v : Id) (n : Int64) {s : State}
    (hbound : ∀ w ∈ e.vars, w ≠ v → (lookUp w s).isSome) :
    ∃ x, eval (sub v n e) s = some x ∧ eval e (update (v, n) s) = some x := by
  have hupdate : ∀ w ∈ e.vars, (lookUp w (update (v, n) s)).isSome := by
    intro w hw
    rw [lookUp_update]
    by_cases hwv : w = v
    · rw [if_pos hwv, Option.isSome_some]
    · rw [if_neg hwv]
      exact hbound w hw hwv
  obtain ⟨x, hx⟩ := exists_eval h hupdate
  exact ⟨x, (eval_sub_eq h v n s).trans hx, hx⟩

/-- `x * (y + 0)` for `y = 7`, in a state that binds `x`. -/
theorem eval_sub_mul : ∃ x,
    eval (sub "y" 7 (.apply .mul (.var "x") (.apply .add (.var "y") (.const 0)))) [("x", 6)] =
        some x ∧
      eval (.apply .mul (.var "x") (.apply .add (.var "y") (.const 0)))
        (update ("y", 7) [("x", 6)]) = some x :=
  eval_sub (by simp [Exp.PhiFree]) "y" 7 (by simp [Exp.vars, lookUp])

end DocMachine.Haskell.ConstantFolding
