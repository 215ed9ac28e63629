import Mathlib.Data.Nat.Notation
import Mathlib.Tactic.ByContra

/-!
# Runs of a partial step function

A system is a state type, an action type and a step function `S → A → Option S`, where `none`
says that the action is not enabled. `run` plays a list of actions. Three ways to speak about a
run:
* `Always step P s as`: `P` holds in every state the run goes through;
* `Along step G s as`: every step taken meets `G`, a condition on the state before the step and
  the action;
* `run step s as = some t`: the run can be played and ends in `t`.

The rules: `invariant` (a property every step preserves holds at the end of every run;
`invariant_of_forall` asks it of the actions of the run only),
`run_measure` (a run is as long as what its steps use up),
`always_of_along` (the same when only the steps meeting `G` preserve it),
`Along.mono_of_invariant` (what such states know of such steps holds of every step) and
`always_iff_along` (when a step that fails `G` breaks the property at once, the runs that keep
the property are exactly the runs whose steps all meet `G`).
-/

namespace DocMachine.Lib.Run

variable {S A : Type} (step : S → A → Option S)

/-- Play a list of actions. -/
def run : S → List A → Option S
  | s, [] => some s
  | s, a :: as => (step s a).bind fun t => run t as

/-- `P` holds in every state the run goes through, the first one included. -/
def Always (P : S → Prop) : S → List A → Prop
  | s, [] => P s
  | s, a :: as => P s ∧ ∀ t, step s a = some t → Always P t as

/-- Every step the run takes meets `G`. -/
def Along (G : S → A → Prop) : S → List A → Prop
  | _, [] => True
  | s, a :: as => ∀ t, step s a = some t → G s a ∧ Along G t as

variable {step}

/-- A decidable condition can be checked along a run by playing it. -/
instance decidableAlong {G : S → A → Prop} [∀ s a, Decidable (G s a)] :
    ∀ s as, Decidable (Along step G s as)
  | _, [] => isTrue trivial
  | s, a :: as =>
    match hs : step s a with
    | none => isTrue fun t ht => by rw [hs] at ht; cases ht
    | some t =>
      haveI : Decidable (Along step G t as) := decidableAlong t as
      decidable_of_iff (G s a ∧ Along step G t as)
        ⟨fun h u hu => by rw [hs] at hu; cases hu; exact h, fun h => h t hs⟩

theorem run_append (s : S) (as bs : List A) :
    run step s (as ++ bs) = (run step s as).bind fun t => run step t bs := by
  induction as generalizing s with
  | nil => rfl
  | cons a as ih =>
    simp only [List.cons_append, run]
    cases step s a with
    | none => rfl
    | some t => exact ih t

/-- The last step of a run. -/
theorem run_snoc {s t : S} {as : List A} {a : A} :
    run step s (as ++ [a]) = some t ↔ ∃ u, run step s as = some u ∧ step u a = some t := by
  rw [run_append, Option.bind_eq_some_iff]
  simp [run]

/-- **A property kept by every step holds at the end of every run.** -/
theorem invariant {P : S → Prop} (hstep : ∀ s a t, P s → step s a = some t → P t)
    {as : List A} {s t : S} (hs : P s) (h : run step s as = some t) : P t := by
  induction as generalizing s with
  | nil =>
    cases h
    exact hs
  | cons a as ih =>
    obtain ⟨u, hu, ht⟩ := Option.bind_eq_some_iff.mp h
    exact ih (hstep s a u hs hu) ht

/-- The same when only the actions that meet `Q` keep it, for a run of such actions. -/
theorem invariant_of_forall {P : S → Prop} {Q : A → Prop}
    (hstep : ∀ s a t, P s → Q a → step s a = some t → P t) {as : List A} {s t : S}
    (hall : ∀ a ∈ as, Q a) (hs : P s) (h : run step s as = some t) : P t := by
  induction as generalizing s with
  | nil =>
    cases h
    exact hs
  | cons a as ih =>
    obtain ⟨u, hu, ht⟩ := Option.bind_eq_some_iff.mp h
    refine ih (fun b hb => hall b (List.mem_cons_of_mem _ hb)) ?_ ht
    exact hstep s a u hs (hall a List.mem_cons_self) hu

/-- When each step uses up one unit of `μ`, a run uses up as many as it has steps. -/
theorem run_measure {μ : S → ℕ} (hstep : ∀ s a t, step s a = some t → μ t + 1 = μ s)
    {as : List A} {s t : S} (h : run step s as = some t) : μ t + as.length = μ s := by
  induction as generalizing s with
  | nil =>
    cases h
    rfl
  | cons a as ih =>
    obtain ⟨u, hu, ht⟩ := Option.bind_eq_some_iff.mp h
    have hfirst := hstep s a u hu
    have hrest := ih ht
    simp only [List.length_cons]
    omega

/-- The end of a run is one of the states it goes through. -/
theorem Always.last {P : S → Prop} {as : List A} {s t : S} (hP : Always step P s as)
    (h : run step s as = some t) : P t := by
  induction as generalizing s with
  | nil =>
    cases h
    exact hP
  | cons a as ih =>
    obtain ⟨u, hu, ht⟩ := Option.bind_eq_some_iff.mp h
    exact ih (hP.2 u hu) ht

theorem Always.head {P : S → Prop} {s : S} {as : List A} (h : Always step P s as) : P s := by
  cases as with
  | nil => exact h
  | cons a as => exact h.1

theorem Always.mono {P Q : S → Prop} (hPQ : ∀ s, P s → Q s) {as : List A} {s : S}
    (h : Always step P s as) : Always step Q s as := by
  induction as generalizing s with
  | nil => exact hPQ s h
  | cons a as ih => exact ⟨hPQ s h.1, fun t ht => ih (h.2 t ht)⟩

/-- **A property kept by the steps that meet `G`** holds throughout a run that only takes such
steps. -/
theorem always_of_along {P : S → Prop} {G : S → A → Prop}
    (hstep : ∀ s a t, P s → G s a → step s a = some t → P t) {as : List A} {s : S} (hs : P s)
    (hG : Along step G s as) : Always step P s as := by
  induction as generalizing s with
  | nil => exact hs
  | cons a as ih =>
    refine ⟨hs, fun t ht => ?_⟩
    obtain ⟨hg, hrest⟩ := hG t ht
    exact ih (hstep s a t hs hg ht) hrest

/-- What the states with a kept property know of the steps that meet `G` holds of every step. -/
theorem Along.mono_of_invariant {P : S → Prop} {G H : S → A → Prop} {as : List A} {s : S}
    (hG : Along step G s as) (hstep : ∀ s a t, P s → G s a → step s a = some t → P t) (hs : P s)
    (hH : ∀ s a, P s → G s a → H s a) : Along step H s as := by
  induction as generalizing s with
  | nil => trivial
  | cons a as ih =>
    intro t ht
    obtain ⟨hg, hrest⟩ := hG t ht
    exact ⟨hH s a hs hg, ih hrest (hstep s a t hs hg ht)⟩

/-- **Exactness.** Let `J` imply `P` and be kept by the steps that meet `G`, and let a step that
fails `G` lead out of `P`. Then `P` holds throughout a run iff every step of it meets `G`. -/
theorem always_iff_along {J P : S → Prop} {G : S → A → Prop} (hJP : ∀ s, J s → P s)
    (hgood : ∀ s a t, J s → G s a → step s a = some t → J t)
    (hbad : ∀ s a t, J s → ¬ G s a → step s a = some t → ¬ P t) {as : List A} {s : S}
    (hs : J s) : Always step P s as ↔ Along step G s as := by
  induction as generalizing s with
  | nil => exact ⟨fun _ => trivial, fun _ => hJP s hs⟩
  | cons a as ih =>
    constructor
    · rintro ⟨-, hrest⟩ t ht
      have hG : G s a := by
        by_contra hn
        exact hbad s a t hs hn ht (hrest t ht).head
      exact ⟨hG, (ih (hgood s a t hs hG ht)).mp (hrest t ht)⟩
    · intro hG
      refine ⟨hJP s hs, fun t ht => ?_⟩
      obtain ⟨hg, hrest⟩ := hG t ht
      exact (ih (hgood s a t hs hg ht)).mpr hrest

end DocMachine.Lib.Run
