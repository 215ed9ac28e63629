import Mathlib

/-!
# Symbolic differentiation

Model of `haskellcalculus_sk4520/Calculus.hs` (the types 5-14, the instances 58-80, `lookUp`
101-104, the tables 108-116, `eval` 173-188, `diff` 230-267). The first version of `diff` (193-226)
is a comment there.

* Expressions are over any type with the operations that `Double` has in the source; the results are
  about exact real numbers, and rounding is not modelled. A failed `lookUp` has no result.
* `diff` is written with the operators of the instances, as in the source. The quotient rule is
  `u' * v + (-(u * v')) / (v * v)`, where the division binds more tightly than the sum (254-255).
* `IsDerivative` is the derivative of analysis, of the value of the expression as a function of the
  variable. `Regular` excludes zero denominators and logarithms of what is not positive.
* `slope` is the derivative by the rules of calculus, and `excess` what the quotients add to it on
  the way out of the expression: a quotient `u / v` adds `(v - 1 / v) * u'`.

Results:
* `isDerivative_slope`: the slope is the derivative.
* `eval_diff`: the result of `diff` has the value of the slope and the excess.
* `diff_iff`: the result is the derivative iff the excess is zero, as for `diff_reciprocal`, and not
  for `diff_half`.
* `excess_of_harmless`: a syntactic condition under which it is.
-/

namespace DocMachine.Haskell.Calculus

/-! ## Calculus.hs -/

/-- The functions of the class `Floating` that expressions have. -/
class Floating (K : Type) where
  sin : K → K
  cos : K → K
  log : K → K

noncomputable instance : Floating ℝ where
  sin := Real.sin
  cos := Real.cos
  log := Real.log

/-- `UnOp`. -/
inductive UnOp where
  | neg
  | sin
  | cos
  | log
deriving DecidableEq

/-- `BinOp`. -/
inductive BinOp where
  | add
  | mul
  | div
deriving DecidableEq

/-- `Exp`, over the numbers `K`. -/
inductive Exp (K : Type) where
  | val (d : K)
  | id (x : String)
  | unApp (op : UnOp) (e : Exp K)
  | binApp (op : BinOp) (e e' : Exp K)

/-- `Env`: the values of variables, of which the first counts. -/
abbrev Env (K : Type) := List (String × K)

section

variable {K : Type}

instance : Neg (Exp K) := ⟨.unApp .neg⟩
instance : Add (Exp K) := ⟨.binApp .add⟩
instance : Mul (Exp K) := ⟨.binApp .mul⟩
instance : Div (Exp K) := ⟨.binApp .div⟩

instance : Floating (Exp K) where
  sin := .unApp .sin
  cos := .unApp .cos
  log := .unApp .log

variable [Neg K] [Add K] [Mul K] [Div K] [Floating K]

/-- `unOpTable`. -/
def unOpTable : List (UnOp × (K → K)) :=
  [(.neg, (- ·)), (.sin, Floating.sin), (.cos, Floating.cos), (.log, Floating.log)]

/-- `binOpTable`. -/
def binOpTable : List (BinOp × (K → K → K)) := [(.add, (· + ·)), (.mul, (· * ·)), (.div, (· / ·))]

/-- `eval`, with `none` where a `lookUp` fails. -/
def eval : Exp K → Env K → Option K
  | .val d, _ => some d
  | .id x, env => env.lookup x
  | .unApp op e, env => do return (← unOpTable.lookup op) (← eval e env)
  | .binApp op e e', env => do return (← binOpTable.lookup op) (← eval e env) (← eval e' env)

end

open Floating in
/-- `diff`: the second clause of the quotient is as the source brackets it. -/
def diff {K : Type} [Zero K] [One K] : Exp K → String → Exp K
  | .val _, _ => .val 0
  | .id y, x => if y = x then .val 1 else .val 0
  | .unApp .neg e, x => -diff e x
  | .binApp .add e e', x => diff e x + diff e' x
  | .binApp .mul e e', x => (e * diff e' x) + (diff e x * e')
  | .binApp .div e e', x => (diff e x * e') + (-(e * diff e' x)) / (e' * e')
  | .unApp .sin e, x => cos e * diff e x
  | .unApp .cos e, x => -(sin e * diff e x)
  | .unApp .log e, x => diff e x / e

/-! ## The derivative -/

/-- The variables of an expression. -/
def Exp.ids {K : Type} : Exp K → List String
  | .val _ => []
  | .id x => [x]
  | .unApp _ e => e.ids
  | .binApp _ e e' => e.ids ++ e'.ids

/-- The environment binds the variables of the expression. -/
def Binds {K : Type} (e : Exp K) (env : Env K) : Prop := ∀ y ∈ e.ids, (env.lookup y).isSome

/-- No denominator is zero and every argument of a logarithm is positive. -/
def Regular (env : Env ℝ) : Exp ℝ → Prop
  | .val _ => True
  | .id _ => True
  | .unApp .log e => Regular env e ∧ ∀ a ∈ eval e env, 0 < a
  | .unApp _ e => Regular env e
  | .binApp .div e e' => Regular env e ∧ Regular env e' ∧ ∀ a ∈ eval e' env, a ≠ 0
  | .binApp _ e e' => Regular env e ∧ Regular env e'

/-- `d` is the derivative of `e` with respect to `x`, at the value that `x` has. -/
def IsDerivative (e : Exp ℝ) (x : String) (env : Env ℝ) (d : ℝ) : Prop :=
  HasDerivAt (fun t => (eval e ((x, t) :: env)).getD 0) d ((env.lookup x).getD 0)

/-- **What `diff` is for.** -/
def Correct (e : Exp ℝ) (x : String) (env : Env ℝ) : Prop :=
  ∃ d, eval (diff e x) env = some d ∧ IsDerivative e x env d

/-! ## Values, slopes and what quotients add -/

/-- The values of the variables, 0 for those that are not bound. -/
def valuation (env : Env ℝ) (y : String) : ℝ := (env.lookup y).getD 0

variable (x : String) (ρ : String → ℝ)

/-- The value of an expression, by the operations of the reals. -/
noncomputable def value : Exp ℝ → ℝ
  | .val d => d
  | .id y => ρ y
  | .unApp .neg e => -value e
  | .unApp .sin e => Real.sin (value e)
  | .unApp .cos e => Real.cos (value e)
  | .unApp .log e => Real.log (value e)
  | .binApp .add e e' => value e + value e'
  | .binApp .mul e e' => value e * value e'
  | .binApp .div e e' => value e / value e'

/-- The derivative, by the rules of calculus. -/
noncomputable def slope : Exp ℝ → ℝ
  | .val _ => 0
  | .id y => if y = x then 1 else 0
  | .unApp .neg e => -slope e
  | .unApp .sin e => Real.cos (value ρ e) * slope e
  | .unApp .cos e => -Real.sin (value ρ e) * slope e
  | .unApp .log e => slope e / value ρ e
  | .binApp .add e e' => slope e + slope e'
  | .binApp .mul e e' => slope e * value ρ e' + value ρ e * slope e'
  | .binApp .div e e' => (slope e * value ρ e' - value ρ e * slope e') / value ρ e' ^ 2

/-- What the quotients of an expression add to its derivative. -/
noncomputable def excess : Exp ℝ → ℝ
  | .val _ => 0
  | .id _ => 0
  | .unApp .neg e => -excess e
  | .unApp .sin e => Real.cos (value ρ e) * excess e
  | .unApp .cos e => -Real.sin (value ρ e) * excess e
  | .unApp .log e => excess e / value ρ e
  | .binApp .add e e' => excess e + excess e'
  | .binApp .mul e e' => excess e * value ρ e' + value ρ e * excess e'
  | .binApp .div e e' => (value ρ e' - 1 / value ρ e') * slope x ρ e +
      value ρ e' * excess e - value ρ e / value ρ e' ^ 2 * excess e'

/-- No denominator is zero and every argument of a logarithm is positive, by values. -/
def Defined : Exp ℝ → Prop
  | .val _ => True
  | .id _ => True
  | .unApp .log e => Defined e ∧ 0 < value ρ e
  | .unApp _ e => Defined e
  | .binApp .div e e' => Defined e ∧ Defined e' ∧ value ρ e' ≠ 0
  | .binApp _ e e' => Defined e ∧ Defined e'

section Operators

variable (e e' : Exp ℝ)

@[simp] theorem value_neg : value ρ (-e) = -value ρ e := rfl
@[simp] theorem value_add : value ρ (e + e') = value ρ e + value ρ e' := rfl
@[simp] theorem value_mul : value ρ (e * e') = value ρ e * value ρ e' := rfl
@[simp] theorem value_div : value ρ (e / e') = value ρ e / value ρ e' := rfl
@[simp] theorem value_sin : value ρ (Floating.sin e) = Real.sin (value ρ e) := rfl
@[simp] theorem value_cos : value ρ (Floating.cos e) = Real.cos (value ρ e) := rfl

@[simp] theorem ids_neg : (-e).ids = e.ids := rfl
@[simp] theorem ids_add : (e + e').ids = e.ids ++ e'.ids := rfl
@[simp] theorem ids_mul : (e * e').ids = e.ids ++ e'.ids := rfl
@[simp] theorem ids_div : (e / e').ids = e.ids ++ e'.ids := rfl
@[simp] theorem ids_sin : (Floating.sin e).ids = e.ids := rfl
@[simp] theorem ids_cos : (Floating.cos e).ids = e.ids := rfl

end Operators

variable {x ρ} {env : Env ℝ} {e : Exp ℝ}

/-! ## Evaluation -/

theorem eval_eq (h : Binds e env) : eval e env = some (value (valuation env) e) := by
  induction e with
  | val d => rfl
  | id y =>
    obtain ⟨d, hd⟩ := Option.isSome_iff_exists.mp (h y (by simp [Exp.ids]))
    simp [eval, value, valuation, hd]
  | unApp op e ih =>
    unfold eval
    rw [ih h]
    cases op <;> rfl
  | binApp op e e' ih ih' =>
    unfold eval
    rw [ih fun y hy => h y (by simp [Exp.ids, hy]), ih' fun y hy => h y (by simp [Exp.ids, hy])]
    cases op <;> rfl

theorem defined_of_regular (hbinds : Binds e env) (h : Regular env e) :
    Defined (valuation env) e := by
  induction e with
  | val d => trivial
  | id y => trivial
  | unApp op e ih =>
    have hvalue := eval_eq (e := e) hbinds
    cases op with
    | neg => exact ih hbinds h
    | sin => exact ih hbinds h
    | cos => exact ih hbinds h
    | log => exact ⟨ih hbinds h.1, h.2 _ hvalue⟩
  | binApp op e e' ih ih' =>
    have hleft : Binds e env := fun y hy => hbinds y (by simp [Exp.ids, hy])
    have hright : Binds e' env := fun y hy => hbinds y (by simp [Exp.ids, hy])
    cases op with
    | add => exact ⟨ih hleft h.1, ih' hright h.2⟩
    | mul => exact ⟨ih hleft h.1, ih' hright h.2⟩
    | div => exact ⟨ih hleft h.1, ih' hright h.2.1, h.2.2 _ (eval_eq hright)⟩

theorem valuation_cons (t : ℝ) :
    valuation ((x, t) :: env) = Function.update (valuation env) x t := by
  funext y
  by_cases hy : y = x
  · simp [valuation, hy]
  · simp [valuation, List.lookup_cons, beq_false_of_ne hy, Function.update_of_ne hy]

theorem binds_cons (h : Binds e env) (t : ℝ) : Binds e ((x, t) :: env) := by
  intro y hy
  by_cases hyx : y = x
  · simp [hyx]
  · simpa [List.lookup_cons, beq_false_of_ne hyx] using h y hy

/-- The derivative has no variables of its own. -/
theorem binds_diff (h : Binds e env) : Binds (diff e x) env := by
  have hsub : ∀ y ∈ (diff e x).ids, y ∈ e.ids := by
    intro y
    induction e with
    | val d => simp [diff, Exp.ids]
    | id z =>
      unfold diff
      split <;> simp [Exp.ids]
    | unApp op e ih =>
      have hinner := ih fun z hz => h z hz
      cases op <;> simp [diff, Exp.ids] <;> tauto
    | binApp op e e' ih ih' =>
      have hleft := ih fun z hz => h z (by simp [Exp.ids, hz])
      have hright := ih' fun z hz => h z (by simp [Exp.ids, hz])
      cases op <;> simp [diff, Exp.ids] <;> tauto
  exact fun y hy => h y (hsub y hy)

/-! ## The two derivatives -/

theorem hasDerivAt_value (h : Defined ρ e) :
    HasDerivAt (fun t => value (Function.update ρ x t) e) (slope x ρ e) (ρ x) := by
  have hself : Function.update ρ x (ρ x) = ρ := Function.update_eq_self x ρ
  induction e with
  | val d => exact hasDerivAt_const _ _
  | id y =>
    by_cases hy : y = x
    · subst hy
      simp only [value, slope, Function.update_self, if_true]
      exact hasDerivAt_id (ρ y)
    · simpa [value, slope, hy] using hasDerivAt_const (ρ x) (ρ y)
  | unApp op e ih =>
    cases op with
    | neg => exact (ih h).neg
    | sin => simpa only [value, slope, hself] using (ih h).sin
    | cos => simpa only [value, slope, hself] using (ih h).cos
    | log =>
      have hpos : value (Function.update ρ x (ρ x)) e ≠ 0 := by
        rw [hself]
        exact h.2.ne'
      simpa only [value, slope, hself] using (ih h.1).log hpos
  | binApp op e e' ih ih' =>
    cases op with
    | add => exact (ih h.1).add (ih' h.2)
    | mul =>
      have hmul := (ih h.1).mul (ih' h.2)
      rw [hself] at hmul
      exact hmul
    | div =>
      have hne : value (Function.update ρ x (ρ x)) e' ≠ 0 := by
        rw [hself]
        exact h.2.2
      have hdiv := (ih h.1).div (ih' h.2.1) hne
      rw [hself] at hdiv
      exact hdiv

theorem value_diff (h : Defined ρ e) : value ρ (diff e x) = slope x ρ e + excess x ρ e := by
  induction e with
  | val d => simp [diff, value, slope, excess]
  | id y =>
    unfold diff
    split <;> simp_all [value, slope, excess]
  | unApp op e ih =>
    cases op with
    | neg =>
      simp only [diff, slope, excess, value_neg, ih h]
      ring
    | sin =>
      simp only [diff, slope, excess, value_mul, value_cos, ih h]
      ring
    | cos =>
      simp only [diff, slope, excess, value_neg, value_mul, value_sin, ih h]
      ring
    | log =>
      simp only [diff, slope, excess, value_div, ih h.1]
      ring
  | binApp op e e' ih ih' =>
    cases op with
    | add =>
      simp only [diff, slope, excess, value_add, ih h.1, ih' h.2]
      ring
    | mul =>
      simp only [diff, slope, excess, value_add, value_mul, ih h.1, ih' h.2]
      ring
    | div =>
      have hne : value ρ e' ≠ 0 := h.2.2
      simp only [diff, slope, excess, value_add, value_mul, value_neg, value_div, ih h.1, ih' h.2.1]
      field_simp
      ring

/-! ## The derivative and the result of `diff` -/

/-- The derivative that `eval` has is the slope. -/
theorem isDerivative_slope (hbinds : Binds e env) (hregular : Regular env e) :
    IsDerivative e x env (slope x (valuation env) e) := by
  have heval : (fun t => (eval e ((x, t) :: env)).getD 0) =
      fun t => value (Function.update (valuation env) x t) e := by
    funext t
    rw [eval_eq (binds_cons hbinds t), valuation_cons]
    rfl
  unfold IsDerivative
  rw [heval]
  exact hasDerivAt_value (defined_of_regular hbinds hregular)

theorem eval_diff (hbinds : Binds e env) (hregular : Regular env e) :
    eval (diff e x) env = some (slope x (valuation env) e + excess x (valuation env) e) := by
  rw [eval_eq (binds_diff hbinds), value_diff (defined_of_regular hbinds hregular)]

theorem excess_of_correct (hbinds : Binds e env) (hregular : Regular env e)
    (h : Correct e x env) : excess x (valuation env) e = 0 := by
  obtain ⟨d, hd, hderivative⟩ := h
  rw [eval_diff hbinds hregular] at hd
  have hunique := hderivative.unique (isDerivative_slope hbinds hregular)
  rw [← Option.some.inj hd] at hunique
  linarith

/-- **Differentiation.** -/
theorem diff_iff (hbinds : Binds e env) (hregular : Regular env e) :
    Correct e x env ↔ excess x (valuation env) e = 0 := by
  constructor
  · exact excess_of_correct hbinds hregular
  · intro hexcess
    refine ⟨_, eval_diff hbinds hregular, ?_⟩
    rw [hexcess, add_zero]
    exact isDerivative_slope hbinds hregular

/-- `1 / x` at 2. -/
theorem diff_reciprocal :
    Correct (.binApp .div (.val 1) (.id "x")) "x" [("x", 2)] := by
  refine (diff_iff ?_ ?_).mpr ?_
  · simp [Binds, Exp.ids]
  · simp [Regular, eval]
  · simp [excess, slope]

/-- `x / 2` at any point: the result is 2. -/
theorem diff_half : ¬ Correct (.binApp .div (.id "x") (.val 2)) "x" [("x", 1)] := by
  intro h
  have hexcess := excess_of_correct (by simp [Binds, Exp.ids]) (by simp [Regular, eval]) h
  norm_num [excess, slope, value] at hexcess

/-! ## Expressions without an excess -/

/-- Every quotient has a numerator that does not change, or a denominator of 1 or -1. -/
def Harmless (x : String) (ρ : String → ℝ) : Exp ℝ → Prop
  | .val _ => True
  | .id _ => True
  | .unApp _ e => Harmless x ρ e
  | .binApp .div e e' => Harmless x ρ e ∧ Harmless x ρ e' ∧
      (slope x ρ e = 0 ∨ value ρ e' = 1 ∨ value ρ e' = -1)
  | .binApp _ e e' => Harmless x ρ e ∧ Harmless x ρ e'

theorem excess_of_harmless (h : Harmless x ρ e) : excess x ρ e = 0 := by
  induction e with
  | val d => rfl
  | id y => rfl
  | unApp op e ih =>
    have he := ih h
    cases op <;> simp [excess, he]
  | binApp op e e' ih ih' =>
    cases op with
    | add => simp [excess, ih h.1, ih' h.2]
    | mul => simp [excess, ih h.1, ih' h.2]
    | div =>
      obtain ⟨hleft, hright, hslope | hone | hone⟩ := h <;>
        simp [excess, ih hleft, ih' hright, *]

end DocMachine.Haskell.Calculus
