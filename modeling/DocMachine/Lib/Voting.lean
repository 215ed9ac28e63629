import Mathlib.Data.Fintype.Card
import Mathlib.Order.WellFounded

/-!
# Ballots, votes and majorities

The abstract core of a ballot-based agreement protocol, over any finite set `A` of voters, any
well-ordered type `B` of ballots, any type `S` of slots and any type `C` of values. A voter may
vote for a value in a slot at a ballot; a value is chosen in a slot at a ballot when a majority
voted for it there. Nothing is said about messages or about the order of events: the three
hypotheses of `chosen_unique` are what a protocol has to establish.
* one value per ballot and slot is proposed;
* only proposed values are voted for;
* a proposal at `b` comes with a majority such that every vote of one of its members below `b`,
  in the same slot, is dominated by an earlier proposal of the same value (`Safe`).
-/

namespace DocMachine.Lib.Voting

variable {A B S C : Type} [Fintype A]

/-- More than half of all voters. -/
def IsMajority (Q : Finset A) : Prop := Fintype.card A < 2 * Q.card

/-- **Two majorities share a voter.** -/
theorem IsMajority.inter [DecidableEq A] {Q R : Finset A} (hQ : IsMajority Q)
    (hR : IsMajority R) : ∃ a, a ∈ Q ∧ a ∈ R := by
  have hcard : (Finset.univ : Finset A).card < Q.card + R.card := by
    unfold IsMajority at hQ hR
    rw [Finset.card_univ]
    omega
  obtain ⟨a, ha⟩ := Finset.inter_nonempty_of_card_lt_card_add_card
    (Finset.subset_univ Q) (Finset.subset_univ R) hcard
  exact ⟨a, Finset.mem_inter.mp ha⟩

theorem IsMajority.mono {Q R : Finset A} (h : Q ⊆ R) (hQ : IsMajority Q) : IsMajority R :=
  lt_of_lt_of_le hQ (Nat.mul_le_mul_left 2 (Finset.card_le_card h))

section Agreement

variable (voted : A → B → S → C → Prop) (proposed : B → S → C → Prop)

/-- A majority voted for `c` in slot `s` at ballot `b`. -/
def Chosen (b : B) (s : S) (c : C) : Prop :=
  ∃ Q : Finset A, IsMajority Q ∧ ∀ a ∈ Q, voted a b s c

variable [LinearOrder B]

/-- Some majority has no vote below `b` in slot `s` that an earlier proposal of `c` does not
dominate. -/
def Safe (b : B) (s : S) (c : C) : Prop :=
  ∃ Q : Finset A, IsMajority Q ∧ ∀ a ∈ Q, ∀ b' c', b' < b → voted a b' s c' →
    ∃ b'', b' ≤ b'' ∧ b'' < b ∧ proposed b'' s c

variable {voted proposed} [DecidableEq A] [WellFoundedLT B]
  (huniq : ∀ b s c c', proposed b s c → proposed b s c' → c = c')
  (hvote : ∀ a b s c, voted a b s c → proposed b s c)
  (hsafe : ∀ b s c, proposed b s c → Safe voted proposed b s c)

include huniq hvote hsafe in
/-- **A chosen value is the only one proposed from its ballot on.** -/
theorem proposed_eq_of_chosen {b₀ : B} {s : S} {c₀ : C} (hc : Chosen voted b₀ s c₀) :
    ∀ b c, b₀ ≤ b → proposed b s c → c = c₀ := by
  obtain ⟨Q₀, hQ₀, hall⟩ := hc
  intro b
  induction b using WellFoundedLT.induction with
  | ind b ih =>
    intro c hle hp
    obtain ⟨Q, hQ, hdom⟩ := hsafe b s c hp
    obtain ⟨a, ha₀, ha⟩ := hQ₀.inter hQ
    rcases lt_or_eq_of_le hle with hlt | rfl
    · obtain ⟨b'', hle'', hlt'', hp''⟩ := hdom a ha b₀ c₀ hlt (hall a ha₀)
      exact ih b'' hlt'' c hle'' hp''
    · exact huniq b₀ s c c₀ hp (hvote a b₀ s c₀ (hall a ha₀))

include huniq hvote hsafe in
/-- **Agreement.** At most one value is ever chosen in a slot. -/
theorem chosen_unique {b b' : B} {s : S} {c c' : C} (h : Chosen voted b s c)
    (h' : Chosen voted b' s c') : c = c' := by
  have proposed_of_chosen : ∀ {b c}, Chosen voted b s c → proposed b s c := by
    rintro b c ⟨Q, hQ, hall⟩
    obtain ⟨a, ha, -⟩ := hQ.inter hQ
    exact hvote a b s c (hall a ha)
  rcases le_total b b' with hle | hle
  · exact (proposed_eq_of_chosen huniq hvote hsafe h b' c' hle (proposed_of_chosen h')).symm
  · exact proposed_eq_of_chosen huniq hvote hsafe h' b c hle (proposed_of_chosen h)

end Agreement

end DocMachine.Lib.Voting
