import Mathlib.Algebra.Order.Ring.Int
import Mathlib.Data.Int.GCD
import Mathlib.Data.Int.ModEq
import Mathlib.FieldTheory.Finite.Basic
import Mathlib.Tactic.Linarith
import Mathlib.Tactic.NormNum.Prime
import Mathlib.Tactic.Ring

/-!
# RSA

Model of the asymmetric half of `haskellcrypto_sk4520/Crypto.hs`: `gcd` (21-24), `computeCoeffs`
(32-38), `inverse` (42-46), `modPow` (50-57), `smallestCoPrimeOf` (61-68), `genKeys` (72-79),
`rsaEncrypt` and `rsaDecrypt` (82-88).

* `none` is a division by zero, an overflow that raises, or a recursion that never returns; pairs
  are evaluated in full.
* `computeCoeffs` and `modPow` take the reduction `w` of their sums and products as a parameter:
  `int64` for the `Int` of the source, the identity for integers that never wrap. They are exact for
  every `w` that leaves alone the numbers they meet.
* `quotRem` truncates and `mod` floors, so the remainders of `computeCoeffs` have the signs of the
  numbers they come from, and those of `gcd` do not.

Results:
* `computeCoeffs_bezout`: of numbers that are not negative, the coefficients of their greatest
  common divisor, each at most the other number, so that nothing wraps.
* `computeCoeffs_sum`: in general, the greatest common divisor or its negation, by the sign of the
  argument that ends up as the last remainder.
* `euclid_iff`: when coefficients and inverse are right. A negative number has the right inverse iff
  the modulus is 1 or 2 or Euclid's algorithm makes an odd number of divisions.
* `modPow_int64`: the power, with no product that wraps.
* `genKeys_roundTrip`: with primes whose product is small enough for `modPow` not to wrap, each key
  undoes the other on every message, also on the multiples of a prime.
-/

namespace DocMachine.Haskell.Crypto

/-! ## Exponents that fix every residue -/

/-- Modulo a prime `p`, a power whose exponent is one modulo `p - 1` is its own base. -/
theorem pow_modEq_self {p k : ℕ} (hp : p.Prime) (hk : k ≡ 1 [MOD p - 1]) (hpos : 0 < k) (a : ℤ) :
    a ^ k ≡ a [ZMOD p] := by
  have : Fact p.Prime := ⟨hp⟩
  rw [← ZMod.intCast_eq_intCast_iff, Int.cast_pow]
  by_cases ha : (a : ZMod p) = 0
  · rw [ha, zero_pow hpos.ne']
  · -- the exponent is one more than a multiple of `p - 1`, so Fermat leaves one factor
    obtain ⟨j, hj⟩ := (Nat.modEq_iff_dvd' hpos).mp hk.symm
    have hk' : k = (p - 1) * j + 1 := by omega
    rw [hk', pow_succ, pow_mul, ZMod.pow_card_sub_one_eq_one ha, one_pow, one_mul]

/-- The same modulo the product of two primes, whether or not the base is prime to it. -/
theorem pow_modEq_self_of_mul {p q k : ℕ} (hp : p.Prime) (hq : q.Prime) (hne : p ≠ q)
    (hk : k ≡ 1 [MOD (p - 1) * (q - 1)]) (hpos : 0 < k) (a : ℤ) :
    a ^ k ≡ a [ZMOD p * q] := by
  have hcop : (p : ℤ).natAbs.Coprime (q : ℤ).natAbs := (Nat.coprime_primes hp hq).mpr hne
  exact (Int.modEq_and_modEq_iff_modEq_mul hcop).mp
    ⟨pow_modEq_self hp (hk.of_mul_right _) hpos a, pow_modEq_self hq (hk.of_mul_left _) hpos a⟩

/-! ## Crypto.hs -/

/-- Sums and products of `Int` are taken modulo 2 ^ 64. -/
def int64 (z : ℤ) : ℤ :=
  z.bmod (2 ^ 64)

/-- `mod`. -/
def mod (x y : ℤ) : Option ℤ :=
  if y = 0 then none else some (x.fmod y)

/-- The first half of `quotRem`; the one quotient that does not fit raises. -/
def quot (w : ℤ → ℤ) (x y : ℤ) : Option ℤ :=
  if y = 0 ∨ w (x.tdiv y) ≠ x.tdiv y then none else some (x.tdiv y)

theorem natAbs_fmod_lt (m : ℤ) {n : ℤ} (hn : n ≠ 0) : (m.fmod n).natAbs < n.natAbs := by
  rcases lt_or_gt_of_ne hn with h | h
  · have hlt := Int.fmod_lt_of_pos (-m) (b := -n) (by omega)
    have hge := Int.fmod_nonneg_of_pos (-m) (b := -n) (by omega)
    rw [Int.neg_fmod_neg] at hlt hge
    omega
  · have hlt := Int.fmod_lt_of_pos m h
    have hge := Int.fmod_nonneg_of_pos m h
    omega

/-- `gcd`, whose remainders have the sign of the divisor. -/
def gcd (m n : ℤ) : ℤ :=
  if n = 0 then m else gcd n (m.fmod n)
termination_by n.natAbs
decreasing_by exact natAbs_fmod_lt m ‹_›

/-- `computeCoeffs`, whose remainders have the sign of the dividend. -/
def computeCoeffs (w : ℤ → ℤ) (a b : ℤ) : Option (ℤ × ℤ) :=
  if b = 0 then some (1, 0)
  else do
    let q ← quot w a b
    let (u', v') ← computeCoeffs w b (a.tmod b)
    some (v', w (u' - w (q * v')))
termination_by b.natAbs
decreasing_by
  rw [Int.natAbs_tmod]
  exact Nat.mod_lt _ (by omega)

/-- `inverse`. -/
def inverse (w : ℤ → ℤ) (a m : ℤ) : Option ℤ := do
  let (u, _) ← computeCoeffs w a m
  mod u m

/-- `modPow`. Halving a negative exponent stops at -1, which is odd and is halved to itself. -/
def modPow (w : ℤ → ℤ) (a k m : ℤ) : Option ℤ :=
  if k < 0 then none
  else if k = 0 then mod 1 m
  else if k = 1 then mod a m
  else do
    let d ← mod (w (a * a)) m
    if k % 2 = 0 then modPow w d (k / 2) m
    else do
      let r ← modPow w d ((k - 1) / 2) m
      mod (w (a * r)) m
termination_by k.toNat

/-- `smallestCoPrime'`: the search from `b` on, for at most so many candidates. -/
def smallestCoPrime' (a : ℤ) : ℕ → ℤ → Option ℤ
  | 0, _ => none
  | candidates + 1, b =>
    if gcd a b = 1 then some b else smallestCoPrime' a candidates (int64 (b + 1))

/-- `smallestCoPrimeOf`. After 2 ^ 64 candidates the search is back at the first one. -/
def smallestCoPrimeOf (a : ℤ) : Option ℤ :=
  smallestCoPrime' a (2 ^ 64) 2

/-- `genKeys`. -/
def genKeys (p q : ℤ) : Option ((ℤ × ℤ) × (ℤ × ℤ)) := do
  let n := int64 (p * q)
  let n' := int64 (int64 (p - 1) * int64 (q - 1))
  let e ← smallestCoPrimeOf n'
  let d ← inverse int64 e n'
  some ((e, n), (d, n))

/-- `rsaEncrypt`. -/
def rsaEncrypt (x : ℤ) (pub : ℤ × ℤ) : Option ℤ :=
  modPow int64 x pub.1 pub.2

/-- `rsaDecrypt`. -/
def rsaDecrypt (x : ℤ) (priv : ℤ × ℤ) : Option ℤ :=
  modPow int64 x priv.1 priv.2

/-! ## Numbers that do not wrap -/

theorem int64_eq {z : ℤ} (hz : |z| ≤ 2 ^ 63 - 1) : int64 z = z := by
  obtain ⟨hlow, hhigh⟩ := abs_le.mp hz
  exact Int.bmod_eq_of_le_mul_two (by push_cast; omega) (by push_cast; omega)

theorem int64_of_nonneg {z b : ℤ} (hz : 0 ≤ z) (hle : z ≤ b) (hb : b ≤ 2 ^ 63 - 1) :
    int64 z = z :=
  int64_eq (by rw [abs_of_nonneg hz]; exact hle.trans hb)

theorem mod_of_pos (x : ℤ) {y : ℤ} (hy : 0 < y) : mod x y = some (x % y) := by
  rw [mod, if_neg hy.ne', Int.fmod_eq_emod_of_nonneg _ hy.le]

theorem quot_of_pos {w : ℤ → ℤ} {x y : ℤ} (hx : 0 ≤ x) (hy : 0 < y) (hw : w (x / y) = x / y) :
    quot w x y = some (x / y) := by
  rw [quot, Int.tdiv_eq_ediv_of_nonneg hx, hw]
  simp [hy.ne']

/-! ## The extended algorithm of Euclid -/

theorem gcd_eq (m n : ℤ) (hm : 0 ≤ m) (hn : 0 ≤ n) : gcd m n = Int.gcd m n := by
  induction m, n using gcd.induct with
  | case1 m =>
    rw [gcd, if_pos rfl, Int.gcd_zero_right, Int.natAbs_of_nonneg hm]
  | case2 m n hne ih =>
    rw [Int.fmod_eq_emod_of_nonneg _ hn] at ih
    rw [gcd, if_neg hne, Int.fmod_eq_emod_of_nonneg _ hn, ih hn (Int.emod_nonneg m hne),
      Int.gcd_comm, Int.gcd_emod]

/-- Coefficients of the greatest common divisor, each at most the other number. -/
structure Bezout (a b u v : ℤ) : Prop where
  sum : a * u + b * v = Int.gcd a b
  left : |u| ≤ max 1 b
  right : |v| ≤ max 1 a

theorem Bezout.of_dvd {a b : ℤ} (hb : 0 < b) (h : b ∣ a) : Bezout a b 0 1 where
  sum := by rw [Int.gcd_eq_right hb.le h, mul_zero, mul_one, zero_add]
  left := by simp
  right := by simp

/-- One division takes the coefficients of `b` and the remainder to those of `a` and `b`. -/
theorem Bezout.step {a b u v : ℤ} (ha : 0 ≤ a) (hb : 0 < b) (hr : 0 < a % b)
    (h : Bezout b (a % b) u v) : Bezout a b v (u - a / b * v) where
  sum := by
    have hgcd : (Int.gcd b (a % b) : ℤ) = Int.gcd a b := by rw [Int.gcd_comm, Int.gcd_emod]
    rw [← hgcd, ← h.sum]
    linear_combination v * -(Int.emod_add_mul_ediv a b)
  left := h.right
  right := by
    have hu : |u| ≤ a % b := h.left.trans (max_eq_right (by omega)).le
    have hv : |v| ≤ b := h.right.trans (max_eq_right (by omega)).le
    calc |u - a / b * v| ≤ |u| + |a / b * v| := abs_sub _ _
      _ = |u| + a / b * |v| := by rw [abs_mul, abs_of_nonneg (Int.ediv_nonneg ha hb.le)]
      _ ≤ a % b + a / b * b := add_le_add hu (by gcongr)
      _ = a := Int.emod_add_ediv_mul a b
      _ ≤ max 1 a := le_max_right _ _

theorem computeCoeffs_bezout {w : ℤ → ℤ} {a b : ℤ} (ha : 0 ≤ a) (hb : 0 ≤ b)
    (hw : ∀ z, |z| ≤ max a b → w z = z) :
    ∃ u v, computeCoeffs w a b = some (u, v) ∧ Bezout a b u v := by
  induction a, b using computeCoeffs.induct with
  | case1 a =>
    refine ⟨1, 0, by rw [computeCoeffs, if_pos rfl], ?_, by simp, by simp⟩
    rw [Int.gcd_zero_right, Int.natAbs_of_nonneg ha, mul_one, mul_zero, add_zero]
  | case2 a b hne ih =>
    have hbpos : 0 < b := by omega
    have hq : 0 ≤ a / b := Int.ediv_nonneg ha hb
    have hquot : quot w a b = some (a / b) := by
      refine quot_of_pos ha hbpos (hw _ (le_max_of_le_left ?_))
      rw [abs_of_nonneg hq]
      exact Int.ediv_le_self b ha
    have hrem : a.tmod b = a % b := Int.tmod_eq_emod_of_nonneg ha
    have hlt : a % b < b := Int.emod_lt_of_pos a hbpos
    rw [computeCoeffs, if_neg hne, hquot, hrem]
    rcases (Int.emod_nonneg a hne).eq_or_lt with hr | hr
    · -- the division is exact: the recursion stops at once, with coefficients 1 and 0
      have h1 : w 1 = 1 := hw 1 (by rw [abs_one]; exact le_max_of_le_right hbpos)
      have h0 : w 0 = 0 := hw 0 (by rw [abs_zero]; exact le_max_of_le_left ha)
      refine ⟨0, 1, ?_, .of_dvd hbpos (Int.dvd_of_emod_eq_zero hr.symm)⟩
      simp [← hr, computeCoeffs, h0, h1]
    · rw [hrem] at ih
      obtain ⟨u, v, huv, hbez⟩ := ih hb hr.le fun z hz => hw z (hz.trans (by omega))
      have hstep := hbez.step ha hbpos hr
      have hv : |v| ≤ b := hstep.left.trans (max_eq_right (by omega)).le
      have hqv : w (a / b * v) = a / b * v := by
        refine hw _ (le_max_of_le_left ?_)
        calc |a / b * v| = a / b * |v| := by rw [abs_mul, abs_of_nonneg hq]
          _ ≤ a / b * b := by gcongr
          _ ≤ a := Int.ediv_mul_le a hne
      have hsub : w (u - a / b * v) = u - a / b * v := hw _ (hstep.right.trans (by omega))
      exact ⟨v, u - a / b * v, by simp [huv, hqv, hsub], hstep⟩

theorem inverse_spec {w : ℤ → ℤ} {a m : ℤ} (ha : 0 ≤ a) (hm : 0 < m)
    (hw : ∀ z, |z| ≤ max a m → w z = z) (hcop : Int.gcd a m = 1) :
    ∃ d, inverse w a m = some d ∧ 0 ≤ d ∧ d < m ∧ a * d ≡ 1 [ZMOD m] := by
  obtain ⟨u, v, huv, hbez⟩ := computeCoeffs_bezout ha hm.le hw
  refine ⟨u % m, ?_, Int.emod_nonneg u hm.ne', Int.emod_lt_of_pos u hm, ?_⟩
  · simp [inverse, huv, mod_of_pos u hm]
  · have hsum : a * u + m * v = 1 := by rw [hbez.sum, hcop, Nat.cast_one]
    calc a * (u % m) ≡ a * u [ZMOD m] := (Int.mod_modEq u m).mul_left a
      _ ≡ a * u + m * v [ZMOD m] := (Int.ModEq.refl _).trans (by simp [Int.ModEq])
      _ = 1 := hsum

/-- How many divisions Euclid's algorithm makes. -/
def divisions (a b : ℕ) : ℕ :=
  if b = 0 then 0 else divisions b (a % b) + 1
termination_by b
decreasing_by exact Nat.mod_lt _ (by omega)

/-- **The sum that the coefficients give.** The remainders take the signs of the two numbers in
turn, so the last one has the sign of `a` after an even number of divisions, and that of `b` after
an odd one. -/
theorem computeCoeffs_sum (a b : ℤ) : ∃ u v, computeCoeffs id a b = some (u, v) ∧
    a * u + b * v = (if Even (divisions a.natAbs b.natAbs) then a.sign else b.sign) *
      Int.gcd a b := by
  induction a, b using computeCoeffs.induct with
  | case1 a =>
    refine ⟨1, 0, by rw [computeCoeffs, if_pos rfl], ?_⟩
    have hnone : divisions a.natAbs (0 : ℤ).natAbs = 0 := by
      rw [divisions]
      rfl
    rw [hnone, if_pos Even.zero, Int.gcd_zero_right, Int.sign_mul_natAbs, mul_one, mul_zero,
      add_zero]
  | case2 a b hne ih =>
    obtain ⟨u, v, huv, hsum⟩ := ih
    have hquot : quot id a b = some (a.tdiv b) := by simp [quot, hne]
    have hgcd : Int.gcd b (a.tmod b) = Int.gcd a b := by
      rw [Int.gcd_comm, Int.tmod_def, Int.gcd_sub_mul_left_left]
    have hdivisions : divisions a.natAbs b.natAbs =
        divisions b.natAbs (a.tmod b).natAbs + 1 := by
      rw [divisions, if_neg (by omega), Int.natAbs_tmod]
    refine ⟨v, u - a.tdiv b * v, ?_, ?_⟩
    · rw [computeCoeffs, if_neg hne, hquot]
      simp [huv]
    · have hstep : a * v + b * (u - a.tdiv b * v) = b * u + a.tmod b * v := by
        rw [Int.tmod_def]
        ring
      rw [hstep, hsum, hgcd, hdivisions]
      by_cases heven : Even (divisions b.natAbs (a.tmod b).natAbs)
      · rw [if_pos heven, if_neg (by simpa [Nat.even_add_one] using heven)]
      · -- there is a division left to make, so the remainder is not zero
        have hdvd : ¬ b ∣ a := by
          intro hdvd
          rw [Int.tmod_eq_zero_of_dvd hdvd, divisions] at heven
          exact heven Even.zero
        rw [if_neg heven, if_pos (Nat.even_add_one.mpr heven), Int.sign_tmod, if_neg hdvd]

theorem gcd_of_pos (m : ℤ) {n : ℤ} (hn : 0 < n) : gcd m n = Int.gcd m n := by
  have hmod : 0 ≤ m.fmod n := Int.fmod_nonneg_of_pos m hn
  rw [gcd, if_neg hn.ne', gcd_eq _ _ hn.le hmod, Int.fmod_eq_emod_of_nonneg _ hn.le,
    Int.gcd_comm, Int.gcd_emod]

/-- **Coefficients and inverses** of unbounded integers, as they should be. -/
structure Euclid (a m : ℤ) : Prop where
  coefficients : 0 ≤ a → 0 ≤ m →
    ∃ u v, computeCoeffs id a m = some (u, v) ∧ a * u + m * v = gcd a m
  inverts : 0 < m → gcd a m = 1 →
    ∃ d, inverse id a m = some d ∧ 0 ≤ d ∧ d < m ∧ a * d ≡ 1 [ZMOD m]

theorem euclid_of_nonneg {a : ℤ} (ha : 0 ≤ a) (m : ℤ) : Euclid a m where
  coefficients _ hm := by
    obtain ⟨u, v, huv, hbez⟩ := computeCoeffs_bezout (w := id) ha hm fun _ _ => rfl
    exact ⟨u, v, huv, by rw [hbez.sum, gcd_eq a m ha hm]⟩
  inverts hm hcop := by
    rw [gcd_of_pos a hm] at hcop
    exact inverse_spec ha hm (fun _ _ => rfl) (by exact_mod_cast hcop)

/-- The inverse of a negative number is right or has the wrong sign. -/
theorem inverse_of_neg {a m : ℤ} (ha : a < 0) (hm : 0 < m) (hcop : Int.gcd a m = 1) :
    ∃ d, inverse id a m = some d ∧ 0 ≤ d ∧ d < m ∧
      a * d ≡ (if Even (divisions a.natAbs m.natAbs) then -1 else 1) [ZMOD m] := by
  obtain ⟨u, v, huv, hsum⟩ := computeCoeffs_sum a m
  rw [hcop, Int.sign_eq_neg_one_of_neg ha, Int.sign_eq_one_of_pos hm, Nat.cast_one,
    mul_one] at hsum
  refine ⟨u % m, ?_, Int.emod_nonneg u hm.ne', Int.emod_lt_of_pos u hm, ?_⟩
  · simp [inverse, huv, mod_of_pos u hm]
  · rw [← hsum]
    exact ((Int.mod_modEq u m).mul_left a).trans (by simp [Int.ModEq])

/-- `-1` and `1` are the same modulo 1 and 2 only. -/
theorem sign_modEq_one_iff {m : ℤ} (hm : 0 < m) {k : ℕ} :
    (if Even k then -1 else 1) ≡ 1 [ZMOD m] ↔ m ≤ 2 ∨ Odd k := by
  rw [← Nat.not_even_iff_odd]
  by_cases heven : Even k
  · simp only [heven, if_true, not_true_eq_false, or_false]
    constructor
    · intro hone
      exact Int.le_of_dvd (by decide) (by simpa using hone.dvd)
    · intro hsmall
      refine Int.modEq_iff_dvd.mpr ?_
      obtain rfl | rfl : m = 1 ∨ m = 2 := by omega
      all_goals decide
  · simp only [heven, if_false, not_false_eq_true, or_true, iff_true]
    exact Int.ModEq.refl 1

/-- **When they are right.** -/
theorem euclid_iff (a m : ℤ) :
    Euclid a m ↔ 0 ≤ a ∨ m ≤ 2 ∨ gcd a m ≠ 1 ∨ Odd (divisions a.natAbs m.natAbs) := by
  by_cases ha : 0 ≤ a
  · simp only [ha, true_or, iff_true]
    exact euclid_of_nonneg ha m
  simp only [ha, false_or]
  push Not at ha
  by_cases hm : 0 < m
  swap
  · have hsmall : m ≤ 2 := by omega
    simp only [hsmall, true_or, iff_true]
    exact ⟨fun hnonneg => absurd hnonneg (by omega), fun hpos => absurd hpos hm⟩
  by_cases hcop : gcd a m = 1
  swap
  · simp only [hcop, ne_eq, not_false_eq_true, true_or, or_true, iff_true]
    exact ⟨fun hnonneg => absurd hnonneg (by omega), fun _ h => absurd h hcop⟩
  have hgcd : Int.gcd a m = 1 := by
    rw [gcd_of_pos a hm] at hcop
    exact_mod_cast hcop
  obtain ⟨d, hd, hlow, hhigh, hmod⟩ := inverse_of_neg ha hm hgcd
  simp only [hcop, ne_eq, not_true_eq_false, false_or]
  have hright : Euclid a m ↔ a * d ≡ 1 [ZMOD m] := by
    refine ⟨fun h => ?_, fun h => ⟨fun hnonneg => absurd hnonneg (by omega), fun _ _ => ?_⟩⟩
    · obtain ⟨d', hd', -, -, hmod'⟩ := h.inverts hm hcop
      cases hd.symm.trans hd'
      exact hmod'
    · exact ⟨d, hd, hlow, hhigh, h⟩
  rw [hright, ← sign_modEq_one_iff hm]
  exact ⟨hmod.symm.trans, hmod.trans⟩

/-- Two divisions: `-8` is 6 modulo 7, and its inverse is not 1. -/
theorem not_euclid_negative :
    gcd (-8) 7 = 1 ∧ inverse id (-8) 7 = some 1 ∧ ¬ Euclid (-8) 7 := by
  have hgcd : gcd (-8) 7 = 1 := by
    simp [gcd]
  have hinverse : inverse id (-8) 7 = some 1 := by
    simp [inverse, computeCoeffs, quot, mod]
  refine ⟨hgcd, hinverse, fun h => ?_⟩
  obtain ⟨d, hd, -, -, hmod⟩ := h.inverts (by decide) hgcd
  cases hinverse.symm.trans hd
  exact absurd hmod (by decide)

/-! ## Fast exponentiation -/

theorem emod_sq_pow (a m : ℤ) (j : ℕ) : (a * a % m) ^ j % m = a ^ (2 * j) % m := by
  rw [pow_mul, pow_two]
  exact (Int.mod_modEq (a * a) m).pow j

theorem modPow_eq {w : ℤ → ℤ} {m : ℤ} (hw : ∀ z, 0 ≤ z → z ≤ (m - 1) ^ 2 → w z = z) (k : ℕ)
    {a : ℤ} (ha : 0 ≤ a) (ham : a < m) : modPow w a k m = some (a ^ k % m) := by
  have hm : 0 < m := by omega
  have hmul {x y : ℤ} (hx : 0 ≤ x) (hxm : x < m) (hy : 0 ≤ y) (hym : y < m) :
      w (x * y) = x * y := hw _ (by positivity) (by nlinarith)
  induction k using Nat.strong_induction_on generalizing a with
  | h k ih =>
    rw [modPow, if_neg (by omega)]
    have hsq : mod (w (a * a)) m = some (a * a % m) := by
      rw [hmul ha ham ha ham, mod_of_pos _ hm]
    split_ifs with h0 h1 heven
    · obtain rfl : k = 0 := by omega
      rw [mod_of_pos _ hm, pow_zero]
    · obtain rfl : k = 1 := by omega
      rw [mod_of_pos _ hm, pow_one]
    · have hhalf : (k : ℤ) / 2 = (k / 2 : ℕ) := by omega
      have hk : 2 * (k / 2) = k := by omega
      rw [hsq, Option.bind_eq_bind, Option.bind_some, hhalf,
        ih (k / 2) (by omega) (Int.emod_nonneg _ hm.ne') (Int.emod_lt_of_pos _ hm),
        emod_sq_pow, hk]
    · have hhalf : ((k : ℤ) - 1) / 2 = (k / 2 : ℕ) := by omega
      have hk : k = 2 * (k / 2) + 1 := by omega
      rw [hsq, Option.bind_eq_bind, Option.bind_some, hhalf,
        ih (k / 2) (by omega) (Int.emod_nonneg _ hm.ne') (Int.emod_lt_of_pos _ hm),
        emod_sq_pow, Option.bind_some,
        hmul ha ham (Int.emod_nonneg _ hm.ne') (Int.emod_lt_of_pos _ hm), mod_of_pos _ hm]
      nth_rewrite 2 [hk]
      rw [pow_succ']
      exact congrArg some ((Int.mod_modEq (a ^ (2 * (k / 2))) m).mul_left a)

/-- The products that `modPow` forms, before they wrap. -/
def products (w : ℤ → ℤ) (a k m : ℤ) : List ℤ :=
  if k ≤ 1 then []
  else
    a * a :: (mod (w (a * a)) m).toList.flatMap fun d =>
      if k % 2 = 0 then products w d (k / 2) m
      else
        products w d ((k - 1) / 2) m ++ (modPow w d ((k - 1) / 2) m).toList.map fun r => a * r
termination_by k.toNat

theorem modPow_of_one_lt {w : ℤ → ℤ} {a k m : ℤ} (hk : 1 < k) :
    modPow w a k m = (mod (w (a * a)) m).bind fun d =>
      if k % 2 = 0 then modPow w d (k / 2) m
      else (modPow w d ((k - 1) / 2) m).bind fun r => mod (w (a * r)) m := by
  rw [modPow, if_neg (by omega), if_neg (by omega), if_neg (by omega)]
  rfl

/-- If no product wraps, the result is the one of unbounded integers. -/
theorem modPow_of_products {w : ℤ → ℤ} {a k m : ℤ} (h : ∀ z ∈ products w a k m, w z = z) :
    modPow w a k m = modPow id a k m := by
  induction hsize : k.toNat using Nat.strong_induction_on generalizing a k with
  | _ size ih =>
    by_cases hk : 1 < k
    · rw [products, if_neg (by omega)] at h
      have hsq : w (a * a) = a * a := h _ List.mem_cons_self
      rw [modPow_of_one_lt hk, modPow_of_one_lt hk, hsq, id_eq]
      cases hd : mod (a * a) m with
      | none => rfl
      | some d =>
        have hrest := fun z hz => h z (List.mem_cons_of_mem _ hz)
        rw [hsq, hd] at hrest
        by_cases heven : k % 2 = 0
        · simp only [Option.bind_some, if_pos heven]
          exact ih (k / 2).toNat (by omega) (by simpa [heven] using hrest) rfl
        · have hhalf : ∀ z ∈ products w d ((k - 1) / 2) m, w z = z := by
            intro z hz
            exact hrest z (by simp [heven, hz])
          have hr := ih ((k - 1) / 2).toNat (by omega) hhalf rfl
          simp only [Option.bind_some, if_neg heven, ← hr]
          cases hpow : modPow w d ((k - 1) / 2) m with
          | none => rfl
          | some r =>
            have hodd : w (a * r) = a * r := hrest _ (by simp [heven, hpow])
            rw [Option.bind_some, Option.bind_some, hodd, id_eq]
    · rw [modPow, modPow]
      split_ifs <;> first | rfl | omega

/-- Every factor is reduced, so no product is greater than the square of `m - 1`. -/
theorem products_le {w : ℤ → ℤ} {m : ℤ} (hw : ∀ z, 0 ≤ z → z ≤ (m - 1) ^ 2 → w z = z) (k : ℕ)
    {a : ℤ} (ha : 0 ≤ a) (ham : a < m) : ∀ z ∈ products w a k m, 0 ≤ z ∧ z ≤ (m - 1) ^ 2 := by
  have hm : 0 < m := by omega
  have hmul {x y : ℤ} (hx : 0 ≤ x) (hxm : x < m) (hy : 0 ≤ y) (hym : y < m) :
      0 ≤ x * y ∧ x * y ≤ (m - 1) ^ 2 := ⟨by positivity, by nlinarith⟩
  induction k using Nat.strong_induction_on generalizing a with
  | _ k ih =>
    intro z hz
    rw [products] at hz
    by_cases hk : (k : ℤ) ≤ 1
    · rw [if_pos hk] at hz
      cases hz
    · have hsq := hmul ha ham ha ham
      have hd := Int.emod_nonneg (a * a) hm.ne'
      have hdm := Int.emod_lt_of_pos (a * a) hm
      have hhalf := ih (k / 2) (by omega) hd hdm
      rw [if_neg hk, hw _ hsq.1 hsq.2, mod_of_pos _ hm] at hz
      obtain rfl | hz := List.mem_cons.mp hz
      · exact hsq
      · by_cases heven : (k : ℤ) % 2 = 0
        · have hk2 : (k : ℤ) / 2 = (k / 2 : ℕ) := by omega
          simp only [Option.toList_some, List.flatMap_cons, List.flatMap_nil, List.append_nil,
            if_pos heven, hk2] at hz
          exact hhalf z hz
        · have hk2 : ((k : ℤ) - 1) / 2 = (k / 2 : ℕ) := by omega
          simp only [Option.toList_some, List.flatMap_cons, List.flatMap_nil, List.append_nil,
            if_neg heven, hk2, modPow_eq hw _ hd hdm, List.map_cons, List.map_nil,
            List.mem_append, List.mem_singleton] at hz
          obtain hz | rfl := hz
          · exact hhalf z hz
          · exact hmul ha ham (Int.emod_nonneg _ hm.ne') (Int.emod_lt_of_pos _ hm)

/-- **Modular exponentiation** of 64-bit integers. -/
theorem modPow_int64 {a k m : ℤ} (ha : 0 ≤ a) (ham : a < m) (hm : (m - 1) ^ 2 ≤ 2 ^ 63 - 1)
    (hk : 0 ≤ k) : (∀ z ∈ products int64 a k m, -2 ^ 63 ≤ z ∧ z ≤ 2 ^ 63 - 1) ∧
      modPow int64 a k m = some (a ^ k.toNat % m) := by
  obtain ⟨k, rfl⟩ := Int.eq_ofNat_of_zero_le hk
  have hfit : ∀ z, 0 ≤ z → z ≤ (m - 1) ^ 2 → int64 z = z :=
    fun z hz hle => int64_of_nonneg hz hle hm
  have hle := products_le hfit k ha ham
  refine ⟨fun z hz => ?_, ?_⟩
  · obtain ⟨hnonneg, hsq⟩ := hle z hz
    exact ⟨by omega, hsq.trans hm⟩
  · rw [modPow_of_products fun z hz => hfit z (hle z hz).1 (hle z hz).2,
      modPow_eq (w := id) (fun _ _ _ => rfl) k ha ham, Int.toNat_natCast]

/-- The greatest modulus: its square of `m - 1` is the last that fits. -/
theorem modPow_int64_greatest :
    (∀ z ∈ products int64 3037000499 5 3037000500, -2 ^ 63 ≤ z ∧ z ≤ 2 ^ 63 - 1) ∧
      modPow int64 3037000499 5 3037000500 = some (3037000499 ^ 5 % 3037000500) :=
  modPow_int64 (by decide) (by decide) (by decide) (by decide)

/-! ## Key generation -/

theorem smallestCoPrime'_spec {a : ℤ} (ha : 0 ≤ a) {candidates : ℕ} {b c : ℤ} (hb : 0 ≤ b)
    (hbc : b ≤ c) (hc : c ≤ 2 ^ 63 - 1) (hcand : c - b < candidates) (hcop : Int.gcd a c = 1) :
    ∃ e, smallestCoPrime' a candidates b = some e ∧ b ≤ e ∧ e ≤ c ∧ Int.gcd a e = 1 := by
  induction candidates generalizing b with
  | zero => omega
  | succ candidates ih =>
    rw [smallestCoPrime', gcd_eq a b ha hb]
    split_ifs with h
    · exact ⟨b, rfl, le_refl b, hbc, by exact_mod_cast h⟩
    · -- `b` is not the coprime number `c`, so the search may go one further
      have hne : b ≠ c := by
        rintro rfl
        exact h (by exact_mod_cast hcop)
      have hnext : int64 (b + 1) = b + 1 := int64_of_nonneg (by omega) (by omega) hc
      obtain ⟨e, he, hbe, hec, hgcd⟩ := ih (b := b + 1) (by omega) (by omega) (by omega)
      exact ⟨e, by rw [hnext, he], by omega, hec, hgcd⟩

/-- Consecutive numbers are coprime, so the search ends by the number after `a`. -/
theorem smallestCoPrimeOf_spec {a : ℤ} (ha : 0 < a) (hmax : a < 2 ^ 63 - 1) :
    ∃ e, smallestCoPrimeOf a = some e ∧ 2 ≤ e ∧ e ≤ a + 1 ∧ Int.gcd a e = 1 := by
  refine smallestCoPrime'_spec ha.le (by omega) (by omega) (by omega) ?_ ?_
  · push_cast
    omega
  · simp

theorem genKeys_spec {p q : ℕ} (hp : p.Prime) (hq : q.Prime) (hne : p ≠ q)
    (hmax : ((p : ℤ) * q - 1) ^ 2 ≤ 2 ^ 63 - 1) :
    ∃ e d : ℕ, genKeys p q = some (((e : ℤ), (p : ℤ) * q), ((d : ℤ), (p : ℤ) * q)) ∧ 0 < e ∧ 0 < d ∧
      e * d ≡ 1 [MOD (p - 1) * (q - 1)] := by
  have hp2 : (2 : ℤ) ≤ p := by exact_mod_cast hp.two_le
  have hq2 : (2 : ℤ) ≤ q := by exact_mod_cast hq.two_le
  obtain ⟨φ, hφ⟩ : ∃ φ : ℕ, φ = (p - 1) * (q - 1) := ⟨_, rfl⟩
  have hφ' : ((p : ℤ) - 1) * (q - 1) = φ := by
    rw [hφ, Nat.cast_mul, Nat.cast_sub hp.one_le, Nat.cast_sub hq.one_le, Nat.cast_one]
  -- the two primes are distinct, so one of them is at least 3
  have hφ2 : (2 : ℤ) ≤ φ := by
    rcases Nat.lt_or_gt_of_ne hne with h | h
    · nlinarith
    · nlinarith
  have hn : (p : ℤ) * q ≤ 2 ^ 63 - 1 := by nlinarith
  have hφn : (φ : ℤ) + 1 < p * q := by linarith
  have hfit : ∀ z : ℤ, 0 ≤ z → z ≤ p * q → int64 z = z := fun z hz hle =>
    int64_eq (by rw [abs_of_nonneg hz]; exact hle.trans hn)
  obtain ⟨e, he, he2, heφ, hgcd⟩ := smallestCoPrimeOf_spec (a := φ) (by omega) (by omega)
  obtain ⟨d, hd, hd0, -, hed⟩ := inverse_spec (w := int64) (a := e) (m := φ) (by omega) (by omega)
    (fun z hz => int64_eq (hz.trans (by omega))) (by rw [Int.gcd_comm, hgcd])
  lift e to ℕ using by omega
  lift d to ℕ using hd0
  have hdpos : 0 < d := by
    refine Nat.pos_of_ne_zero ?_
    rintro rfl
    rw [Nat.cast_zero, mul_zero, Int.ModEq, Int.zero_emod, Int.emod_eq_of_lt (by omega) hφ2] at hed
    omega
  refine ⟨e, d, ?_, by omega, hdpos, ?_⟩
  · have hpq : int64 (p * q) = p * q := hfit _ (by positivity) le_rfl
    have hp1 : int64 ((p : ℤ) - 1) = p - 1 := hfit _ (by omega) (by nlinarith only [hp2, hq2])
    have hq1 : int64 ((q : ℤ) - 1) = q - 1 := hfit _ (by omega) (by nlinarith only [hp2, hq2])
    have hphi : int64 φ = φ := hfit _ (by omega) (by linarith only [hφn])
    simp only [genKeys, hpq, hp1, hq1, hφ', hphi, he, hd, Option.bind_eq_bind, Option.bind_some]
  · rw [← hφ]
    exact_mod_cast hed

/-! ## The keys undo each other -/

/-- Two exponents whose product is one modulo `(p - 1) * (q - 1)`, one after the other. -/
theorem modPow_modPow {p q e d : ℕ} (hp : p.Prime) (hq : q.Prime) (hne : p ≠ q)
    (hmax : ((p : ℤ) * q - 1) ^ 2 ≤ 2 ^ 63 - 1) (hpos : 0 < e * d)
    (hed : e * d ≡ 1 [MOD (p - 1) * (q - 1)]) {x : ℤ} (hx : 0 ≤ x) (hxn : x < p * q) :
    (modPow int64 x e (p * q)).bind (modPow int64 · d (p * q)) = some x := by
  have hfit : ∀ z, 0 ≤ z → z ≤ ((p : ℤ) * q - 1) ^ 2 → int64 z = z :=
    fun z hz hle => int64_of_nonneg hz hle hmax
  have hn : (0 : ℤ) < p * q := by omega
  rw [modPow_eq hfit e hx hxn, Option.bind_some,
    modPow_eq hfit d (Int.emod_nonneg _ hn.ne') (Int.emod_lt_of_pos _ hn)]
  refine congrArg some ?_
  calc (x ^ e % (p * q)) ^ d % (p * q) = (x ^ e) ^ d % (p * q) := (Int.mod_modEq _ _).pow d
    _ = x ^ (e * d) % (p * q) := by rw [pow_mul]
    _ = x % (p * q) := pow_modEq_self_of_mul hp hq hne hed hpos x
    _ = x := Int.emod_eq_of_lt hx hxn

theorem genKeys_roundTrip {p q : ℕ} (hp : p.Prime) (hq : q.Prime) (hne : p ≠ q)
    (hmax : ((p : ℤ) * q - 1) ^ 2 ≤ 2 ^ 63 - 1) :
    ∃ pub priv, genKeys p q = some (pub, priv) ∧ ∀ x : ℤ, 0 ≤ x → x < p * q →
      (rsaEncrypt x pub).bind (rsaDecrypt · priv) = some x ∧
      (rsaDecrypt x priv).bind (rsaEncrypt · pub) = some x := by
  obtain ⟨e, d, hkeys, he, hd, hed⟩ := genKeys_spec hp hq hne hmax
  refine ⟨_, _, hkeys, fun x hx hxn => ⟨?_, ?_⟩⟩
  · exact modPow_modPow hp hq hne hmax (Nat.mul_pos he hd) hed hx hxn
  · exact modPow_modPow hp hq hne hmax (Nat.mul_pos hd he) (mul_comm e d ▸ hed) hx hxn

theorem genKeys_roundTrip_seventeen : ∃ pub priv, genKeys 17 23 = some (pub, priv) ∧
    ∀ x : ℤ, 0 ≤ x → x < 17 * 23 →
      (rsaEncrypt x pub).bind (rsaDecrypt · priv) = some x ∧
      (rsaDecrypt x priv).bind (rsaEncrypt · pub) = some x :=
  genKeys_roundTrip (p := 17) (q := 23) (by norm_num) (by norm_num) (by norm_num) (by norm_num)

example : genKeys 17 23 = some ((3, 391), (235, 391)) := by decide +kernel

end DocMachine.Haskell.Crypto
