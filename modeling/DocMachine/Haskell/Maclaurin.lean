import DocMachine.Haskell.Calculus

/-!
# Maclaurin series

Model of `maclaurin` of `haskellcalculus_sk4520/Calculus.hs` (276-283), over a field.

* The infinite lists of the source are cut to the `n` elements that are taken; a negative `n` takes
  none.
* `diff` is that of `Calculus.lean`, applied again and again. On sums, products and negations of the
  variable and of numbers it is the formal derivative, so that an expression without quotients and
  functions (`IsPolynomial`) stands for a polynomial.

Results:
* `diff_polynomial`: `diff` is the formal derivative of the polynomial.
* `scanl_factorial`: the running products are the factorials.
* `maclaurin_eq_eval`: on polynomials of degree less than `n` the series is the value.
-/

namespace DocMachine.Haskell.Calculus

open Polynomial (C X derivative)

/-! ## Calculus.hs -/

section

variable {K : Type} [Field K]

/-- `maclaurin`: the sum of `d * p / f` over derivatives at 0, powers and factorials. -/
def maclaurin [Floating K] (exp : Exp K) (x : K) (n : ℤ) : Option K := do
  let diffs := List.iterate (diff · "x") exp n.toNat
  let pows := List.iterate (· * x) 1 n.toNat
  let facts := (((List.range' 1 n.toNat).map Nat.cast).scanl (· * ·) 1).take n.toNat
  let vals ← diffs.mapM (eval · [("x", 0)])
  return (List.zipWith3 (fun d p f => d * p / f) vals pows facts).sum

/-! ## Polynomials -/

/-- Made of numbers and `x` by the operations of a ring. -/
def IsPolynomial : Exp K → Prop
  | .val _ => True
  | .id y => y = "x"
  | .unApp .neg e => IsPolynomial e
  | .binApp .add e e' => IsPolynomial e ∧ IsPolynomial e'
  | .binApp .mul e e' => IsPolynomial e ∧ IsPolynomial e'
  | _ => False

/-- The polynomial in `x` that an expression stands for. -/
noncomputable def toPoly : Exp K → Polynomial K
  | .val d => C d
  | .id _ => X
  | .unApp .neg e => -toPoly e
  | .binApp .add e e' => toPoly e + toPoly e'
  | .binApp .mul e e' => toPoly e * toPoly e'
  | _ => 0

variable {e : Exp K}

theorem eval_polynomial [Floating K] (h : IsPolynomial e) (v : K) :
    eval e [("x", v)] = some ((toPoly e).eval v) := by
  induction e with
  | val d => simp [eval, toPoly]
  | id y =>
    obtain rfl : y = "x" := h
    simp [eval, toPoly]
  | unApp op e ih =>
    cases op with
    | neg =>
      have he : IsPolynomial e := h
      simp [eval, ih he, unOpTable, toPoly]
    | sin => exact h.elim
    | cos => exact h.elim
    | log => exact h.elim
  | binApp op e e' ih ih' =>
    cases op with
    | add => simp [eval, ih h.1, ih' h.2, binOpTable, toPoly]
    | mul =>
      unfold eval
      rw [ih h.1, ih' h.2, toPoly, Polynomial.eval_mul]
      rfl
    | div => exact h.elim

/-- `diff` is the formal derivative. -/
theorem diff_polynomial (h : IsPolynomial e) :
    IsPolynomial (diff e "x") ∧ toPoly (diff e "x") = derivative (toPoly e) := by
  induction e with
  | val d => exact ⟨trivial, by simp [diff, toPoly]⟩
  | id y =>
    obtain rfl : y = "x" := h
    exact ⟨trivial, by simp [diff, toPoly]⟩
  | unApp op e ih =>
    cases op with
    | neg =>
      obtain ⟨hpoly, heq⟩ := ih h
      refine ⟨hpoly, ?_⟩
      change -toPoly (diff e "x") = derivative (-toPoly e)
      rw [heq, Polynomial.derivative_neg]
    | sin => exact h.elim
    | cos => exact h.elim
    | log => exact h.elim
  | binApp op e e' ih ih' =>
    cases op with
    | add =>
      obtain ⟨⟨hpoly, heq⟩, hpoly', heq'⟩ := And.intro (ih h.1) (ih' h.2)
      refine ⟨⟨hpoly, hpoly'⟩, ?_⟩
      change toPoly (diff e "x") + toPoly (diff e' "x") = derivative (toPoly e + toPoly e')
      rw [heq, heq', Polynomial.derivative_add]
    | mul =>
      obtain ⟨⟨hpoly, heq⟩, hpoly', heq'⟩ := And.intro (ih h.1) (ih' h.2)
      refine ⟨⟨⟨h.1, hpoly'⟩, hpoly, h.2⟩, ?_⟩
      change toPoly e * toPoly (diff e' "x") + toPoly (diff e "x") * toPoly e' =
        derivative (toPoly e * toPoly e')
      rw [heq, heq', Polynomial.derivative_mul, add_comm]
    | div => exact h.elim

theorem iterate_diff_polynomial (h : IsPolynomial e) (k : ℕ) :
    IsPolynomial ((diff · "x")^[k] e) ∧
      toPoly ((diff · "x")^[k] e) = derivative^[k] (toPoly e) := by
  induction k with
  | zero => exact ⟨h, rfl⟩
  | succ k ih =>
    obtain ⟨hpoly, heq⟩ := diff_polynomial ih.1
    rw [Function.iterate_succ_apply', Function.iterate_succ_apply', ← ih.2]
    exact ⟨hpoly, heq⟩

/-! ## The lists -/

theorem zipWith3_map {α β γ δ : Type} (is : List ℕ) (f : ℕ → α) (g : ℕ → β) (h : ℕ → γ)
    (t : α → β → γ → δ) : List.zipWith3 t (is.map f) (is.map g) (is.map h) =
      is.map fun i => t (f i) (g i) (h i) := by
  induction is with
  | nil => rfl
  | cons i is ih =>
    rw [List.map_cons, List.map_cons, List.map_cons, List.zipWith3, ih, List.map_cons]

theorem mapM_eq_map {α β : Type} {f : α → Option β} {g : α → β} {l : List α}
    (h : ∀ a ∈ l, f a = some (g a)) : l.mapM f = some (l.map g) := by
  induction l with
  | nil => rfl
  | cons a l ih =>
    rw [List.mapM_cons, h a List.mem_cons_self, ih fun b hb => h b (List.mem_cons_of_mem _ hb)]
    rfl

/-- The running products from a factorial on. -/
theorem scanl_factorial (m n : ℕ) :
    ((List.range' (m + 1) n).map Nat.cast).scanl (· * ·) (m.factorial : K) =
      (List.range' m (n + 1)).map fun k => (k.factorial : K) := by
  induction n generalizing m with
  | zero => simp
  | succ n ih =>
    have hnext : (m.factorial : K) * ((m + 1 : ℕ) : K) = ((m + 1).factorial : K) := by
      rw [Nat.factorial_succ, Nat.cast_mul, mul_comm]
    rw [List.range'_succ, List.map_cons, List.scanl_cons, hnext, ih]
    rfl

theorem facts_eq (n : ℕ) :
    (((List.range' 1 n).map Nat.cast).scanl (· * ·) (1 : K)).take n =
      (List.range n).map fun k => (k.factorial : K) := by
  have hscan := scanl_factorial (K := K) 0 n
  rw [Nat.factorial_zero, Nat.cast_one] at hscan
  rw [hscan, ← List.map_take, List.take_range'_of_length_ge (Nat.le_succ n), List.range_eq_range']

theorem pows_eq (x : K) (n : ℕ) :
    List.iterate (· * x) 1 n = (List.range n).map fun k => x ^ k := by
  rw [← List.range_map_iterate]
  refine List.map_congr_left fun k _ => ?_
  rw [mul_right_iterate_apply_one]

/-! ## Taylor's theorem for polynomials -/

theorem sum_derivatives [CharZero K] {p : Polynomial K} {n : ℕ} (h : p.degree < n) (v : K) :
    ((List.range n).map fun k => (derivative^[k] p).eval 0 * v ^ k / k.factorial).sum =
      p.eval v := by
  have hterm : ∀ k, (derivative^[k] p).eval 0 * v ^ k / k.factorial = p.coeff k * v ^ k := by
    intro k
    have hfactorial : (k.factorial : K) ≠ 0 := Nat.cast_ne_zero.mpr k.factorial_ne_zero
    rw [← Polynomial.coeff_zero_eq_eval_zero, Polynomial.coeff_iterate_derivative, zero_add,
      Nat.descFactorial_self, nsmul_eq_mul]
    field_simp
  simp only [hterm]
  by_cases hp : p = 0
  · simp [hp]
  · rw [Polynomial.eval_eq_sum_range' ((Polynomial.natDegree_lt_iff_degree_lt hp).mpr h)]
    rfl

/-- **Maclaurin series of polynomials** are exact. -/
theorem maclaurin_eq_eval [CharZero K] [Floating K] (h : IsPolynomial e) {n : ℤ}
    (hn : (toPoly e).degree < n.toNat) (v : K) : maclaurin e v n = eval e [("x", v)] := by
  have hvals : (List.iterate (diff · "x") e n.toNat).mapM (fun d : Exp K => eval d [("x", 0)]) =
      some ((List.range n.toNat).map fun k => (derivative^[k] (toPoly e)).eval 0) := by
    rw [← List.range_map_iterate, List.mapM_map]
    refine mapM_eq_map fun k _ => ?_
    obtain ⟨hpoly, heq⟩ := iterate_diff_polynomial h k
    rw [Function.comp_apply, eval_polynomial hpoly, heq]
  rw [eval_polynomial h, ← sum_derivatives hn, maclaurin, hvals, pows_eq, facts_eq,
    Option.bind_eq_bind, Option.bind_some, zipWith3_map]
  rfl

end

/-- `x * x - 3`. -/
def square : Exp ℝ := .id "x" * .id "x" + -.val 3

theorem square_polynomial : IsPolynomial square := And.intro (And.intro rfl rfl) trivial

theorem degree_square : (toPoly square).degree < (Int.toNat 3 : ℕ) := by
  have hpoly : toPoly square = X * X + -C 3 := rfl
  have hdegree : (X * X + -C 3 : Polynomial ℝ).degree ≤ 2 := by compute_degree
  rw [hpoly]
  exact lt_of_le_of_lt hdegree (by norm_num)

theorem maclaurin_square : maclaurin square 2 3 = eval square [("x", 2)] :=
  maclaurin_eq_eval square_polynomial (n := 3) degree_square 2

end DocMachine.Haskell.Calculus
