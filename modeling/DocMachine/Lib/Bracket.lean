import Mathlib.Data.List.Infix
import Mathlib.Data.Nat.Notation

/-!
# Depth of bracketed text

Texts over any alphabet with an opening and a closing bracket.

* `Closes d` of a text: it closes at most the `d` brackets open before it, and only those it has
  opened itself besides. It is stated with the counts of prefixes.
* A text is `Balanced` if it closes what it opens and nothing else.

Results:
* `closes_cons`: what a first character makes of `d`. With it a proof by induction on the text needs
  no counts.
* `Balanced.flatMap`: substituting balanced texts for the characters of a balanced text, and
  brackets for themselves, gives a balanced text.
-/

namespace DocMachine.Lib.Bracket

variable {α : Type} [DecidableEq α] {opening closing : α} {d : ℕ} {c : α} {l : List α}

/-- No prefix closes more than `d` brackets beyond those that it opens. -/
def Closes (opening closing : α) (d : ℕ) (l : List α) : Prop :=
  ∀ pre, pre <+: l → pre.count closing ≤ pre.count opening + d

instance : Decidable (Closes opening closing d l) :=
  decidable_of_iff (∀ pre ∈ l.inits, pre.count closing ≤ pre.count opening + d)
    (by simp only [Closes, List.mem_inits])

theorem closes_nil : Closes opening closing d [] := by
  intro pre hpre
  rw [List.prefix_nil.mp hpre]
  simp

/-- A text whose first character is `c`: the empty prefix says nothing. -/
theorem closes_cons : Closes opening closing d (c :: l) ↔
    ∀ pre, pre <+: l → (c :: pre).count closing ≤ (c :: pre).count opening + d := by
  constructor
  · intro h pre hpre
    exact h _ (List.cons_prefix_cons.mpr ⟨rfl, hpre⟩)
  · intro h pre hpre
    rcases List.prefix_cons_iff.mp hpre with rfl | ⟨t, rfl, ht⟩
    · simp
    · exact h t ht

theorem closes_opening (hne : opening ≠ closing) :
    Closes opening closing d (opening :: l) ↔ Closes opening closing (d + 1) l := by
  rw [closes_cons]
  refine forall₂_congr fun pre _ => ?_
  rw [List.count_cons_of_ne hne, List.count_cons_self]
  omega

theorem closes_closing (hne : opening ≠ closing) :
    Closes opening closing (d + 1) (closing :: l) ↔ Closes opening closing d l := by
  rw [closes_cons]
  refine forall₂_congr fun pre _ => ?_
  rw [List.count_cons_of_ne hne.symm, List.count_cons_self]
  omega

theorem not_closes_closing (hne : opening ≠ closing) :
    ¬ Closes opening closing 0 (closing :: l) := by
  intro h
  have := closes_cons.mp h [] (List.nil_prefix)
  simp [hne.symm] at this

theorem closes_other (ho : c ≠ opening) (hc : c ≠ closing) :
    Closes opening closing d (c :: l) ↔ Closes opening closing d l := by
  rw [closes_cons]
  refine forall₂_congr fun pre _ => ?_
  rw [List.count_cons_of_ne ho, List.count_cons_of_ne hc]

/-! ## Balanced texts -/

/-- What is opened is closed, and nothing else is. -/
structure Balanced (opening closing : α) (l : List α) : Prop where
  closes : Closes opening closing 0 l
  count : l.count closing = l.count opening

instance : Decidable (Balanced opening closing l) :=
  decidable_of_iff (Closes opening closing 0 l ∧ l.count closing = l.count opening)
    ⟨fun h => ⟨h.1, h.2⟩, fun h => ⟨h.1, h.2⟩⟩

theorem Balanced.closes_append {b : List α} (hb : Balanced opening closing b)
    (h : Closes opening closing d l) : Closes opening closing d (b ++ l) := by
  rintro pre ⟨s, hs⟩
  obtain ⟨as, hinside, -⟩ | ⟨t, hbeyond, hl⟩ := List.append_eq_append_iff.mp hs
  · have := hb.closes pre ⟨as, hinside.symm⟩
    omega
  · have hcount := hb.count
    have := h t ⟨s, hl.symm⟩
    rw [hbeyond, List.count_append, List.count_append]
    omega

/-- What may stand for the characters: brackets stand for themselves. -/
structure Substitution (opening closing : α) (σ : α → List α) : Prop where
  left : σ opening = [opening]
  right : σ closing = [closing]
  other : ∀ c, c ≠ opening → c ≠ closing → Balanced opening closing (σ c)

variable {σ : α → List α}

theorem Substitution.closes (hσ : Substitution opening closing σ) (hne : opening ≠ closing)
    (h : Closes opening closing d l) : Closes opening closing d (l.flatMap σ) := by
  induction l generalizing d with
  | nil => exact closes_nil
  | cons c l ih =>
    rw [List.flatMap_cons]
    by_cases ho : c = opening
    · subst ho
      rw [hσ.left]
      exact (closes_opening hne).mpr (ih ((closes_opening hne).mp h))
    by_cases hc : c = closing
    · subst hc
      rw [hσ.right]
      cases d with
      | zero => exact absurd h (not_closes_closing hne)
      | succ d => exact (closes_closing hne).mpr (ih ((closes_closing hne).mp h))
    · exact (hσ.other c ho hc).closes_append (ih ((closes_other ho hc).mp h))

theorem Substitution.count (hσ : Substitution opening closing σ) (hne : opening ≠ closing)
    (l : List α) : (l.flatMap σ).count closing + l.count opening =
      (l.flatMap σ).count opening + l.count closing := by
  induction l with
  | nil => rfl
  | cons c l ih =>
    rw [List.flatMap_cons, List.count_append, List.count_append]
    by_cases ho : c = opening
    · subst ho
      rw [hσ.left, List.count_cons_self, List.count_cons_of_ne hne, List.count_cons_self,
        List.count_cons_of_ne hne, List.count_nil, List.count_nil]
      omega
    by_cases hc : c = closing
    · subst hc
      rw [hσ.right, List.count_cons_self, List.count_cons_of_ne hne.symm, List.count_cons_self,
        List.count_cons_of_ne hne.symm, List.count_nil, List.count_nil]
      omega
    · have hother := (hσ.other c ho hc).count
      rw [List.count_cons_of_ne ho, List.count_cons_of_ne hc]
      omega

/-- Substitution keeps a text balanced. -/
theorem Balanced.flatMap (hσ : Substitution opening closing σ) (hne : opening ≠ closing)
    (h : Balanced opening closing l) : Balanced opening closing (l.flatMap σ) where
  closes := hσ.closes hne h.closes
  count := by
    have hcount := hσ.count hne l
    have := h.count
    omega

end DocMachine.Lib.Bracket
