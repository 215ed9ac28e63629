import Mathlib.Data.Nat.Notation
import Mathlib.Data.Option.Basic

/-!
# Two machines in lockstep

`iterate f s k` is the state of a partial machine after `k` steps; step `k` may depend on `k`, for
a machine that reads something from outside at every step. `none` is a machine that got stuck.

Two machines agree when after any number of steps both are stuck or an observer sees the same in
both. `agree_iff`: given a relation that a pair of good steps keeps and a pair of other steps makes
visible at once, they agree iff every step is good. What makes a step good is a condition on the
second machine, the reference, and the proof may use whatever holds of its reachable states.
-/

namespace DocMachine.Lib.Lockstep

variable {S T V : Type} {f : ℕ → S → Option S} {g : T → Option T} {s : S} {t : T}
  {viewS : S → V} {viewT : T → V} {R : S → T → Prop} {Good : ℕ → T → Prop}

/-- The state after `k` steps. -/
def iterate (f : ℕ → S → Option S) (s : S) : ℕ → Option S
  | 0 => some s
  | k + 1 => (iterate f s k).bind (f k)

theorem iterate_succ (k : ℕ) : iterate f s (k + 1) = (iterate f s k).bind (f k) := rfl

theorem iterate_succ_of {k : ℕ} {u : S} (h : iterate f s k = some u) :
    iterate f s (k + 1) = f k u := by
  rw [iterate_succ, h, Option.bind_some]

/-- A state that a machine does not leave is its state from then on. -/
theorem iterate_fixed {k j : ℕ} {u : S} (hu : iterate f s k = some u) (hfix : ∀ i, f i u = some u) :
    iterate f s (k + j) = some u := by
  induction j with
  | zero => exact hu
  | succ j ih => rw [← Nat.add_assoc, iterate_succ_of ih, hfix]

/-- An observer sees the same in both machines after every number of steps. -/
def Agree (f : ℕ → S → Option S) (g : T → Option T) (viewS : S → V) (viewT : T → V) (s : S)
    (t : T) : Prop :=
  ∀ k, (iterate f s k).map viewS = (iterate (fun _ => g) t k).map viewT

theorem map_eq_of_rel (hview : ∀ s t, R s t → viewS s = viewT t) {a : Option S} {b : Option T}
    (h : Option.Rel R a b) : a.map viewS = b.map viewT := by
  cases h with
  | none => rfl
  | some hR => simp [hview _ _ hR]

/-- While the steps are good, the two machines stay related. -/
theorem rel_of_good (hinit : R s t)
    (hgood : ∀ k u v, iterate (fun _ => g) t k = some v → R u v → Good k v →
      Option.Rel R (f k u) (g v)) :
    ∀ k, (∀ j < k, ∀ v, iterate (fun _ => g) t j = some v → Good j v) →
      Option.Rel R (iterate f s k) (iterate (fun _ => g) t k) := by
  intro k
  induction k with
  | zero => exact fun _ => .some hinit
  | succ k ih =>
    intro hall
    have hrel := ih fun j hj => hall j (by omega)
    simp only [iterate_succ]
    revert hrel
    generalize iterate f s k = a
    cases hb : iterate (fun _ => g) t k with
    | none => intro hrel; cases hrel; exact .none
    | some v =>
      intro hrel
      cases hrel with
      | some hR => exact hgood k _ v hb hR (hall k (by omega) v hb)

/-- **Exactness.** -/
theorem agree_iff (hview : ∀ s t, R s t → viewS s = viewT t) (hinit : R s t)
    (hgood : ∀ k u v, iterate (fun _ => g) t k = some v → R u v → Good k v →
      Option.Rel R (f k u) (g v))
    (hbad : ∀ k u v, iterate (fun _ => g) t k = some v → R u v → ¬ Good k v →
      (f k u).map viewS ≠ (g v).map viewT) :
    Agree f g viewS viewT s t ↔ ∀ k v, iterate (fun _ => g) t k = some v → Good k v := by
  constructor
  · intro hagree k
    induction k using Nat.strongRecOn with
    | ind k ih =>
      intro v hv
      -- up to step `k` the machines are related, so a bad step `k` would show
      have hrel := rel_of_good hinit hgood k ih
      rw [hv] at hrel
      generalize hu : iterate f s k = a at hrel
      cases hrel with
      | some hR =>
        by_contra hn
        have hnext := hagree (k + 1)
        rw [iterate_succ_of hu, iterate_succ_of (f := fun _ => g) hv] at hnext
        exact hbad k _ v hv hR hn hnext
  · intro hall k
    exact map_eq_of_rel hview (rel_of_good hinit hgood k fun j _ => hall j)

end DocMachine.Lib.Lockstep
