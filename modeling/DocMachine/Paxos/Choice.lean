import DocMachine.Paxos.Leader

/-!
# The choice on adoption

The `:ADOPTED` branch of a leader (`consensus/lib/leader.ex` 103-229, with `update_proposals`
236-244 and `pmax` 251-259): what it makes of the leader's proposals, for any set of pvalues and any
proposals.

Results:
* `adopted_choice`: a slot that the acceptors have pvalues for gets the command of the highest
  ballot among them, and the others keep what the leader had.
-/

namespace DocMachine.Paxos

open DocMachine.Lib

variable {P : Type} [LinearOrder P]

theorem BallotNumber.compare_ne_gt_iff {b1 b2 : BallotNumber P} :
    b1.compare b2 ≠ .gt ↔ b1 ≤ b2 := by
  rw [← BallotNumber.lessOrEqual_iff, BallotNumber.lessOrEqual, bne_iff_ne]

/-- What the choice from `pvalues` makes of a set of proposals. -/
structure Chooses (pvalues : MapSet (Pvalue P)) (proposals proposals' : MapSet (ℕ × Command P)) :
    Prop where
  onePerSlot : OnePerSlot proposals'
  /-- A slot with pvalues gets the command of the highest ballot. -/
  highest : ∀ s, (∃ pv ∈ pvalues, pv.slotNum = s) → ∃ pv ∈ pvalues, pv.slotNum = s ∧
    (∀ pv1 ∈ pvalues, pv1.slotNum = s → pv1.ballotNum.compare pv.ballotNum ≠ .gt) ∧
    ∀ c, (s, c) ∈ proposals' ↔ c = pv.command
  kept : ∀ s, (∀ pv ∈ pvalues, pv.slotNum ≠ s) → ∀ c, (s, c) ∈ proposals' ↔ (s, c) ∈ proposals

/-- **The choice of pvalues.** -/
theorem adopted_choice (cfg : Config P) {self : Leader P} {pvalues : MapSet (Pvalue P)}
    (hpvalues : OnePerBallot pvalues) (hproposals : OnePerSlot self.proposals) :
    ∃ self' effects, self.next cfg (.adopted self.ballotNum pvalues) = some (self', effects) ∧
      Chooses pvalues self.proposals self'.proposals := by
  have hequal : ¬ (!self.ballotNum.equal self.ballotNum) = true := by simp
  have hone : OnePerSlot (self.updateProposals (pmax pvalues)).proposals :=
    hproposals.updateProposals hpvalues.pmax
  refine ⟨_, _, congrArg some (if_neg hequal), hone, fun s hs => ?_, fun s hs c => ?_⟩
  · obtain ⟨pv₀, hpv₀, rfl⟩ := hs
    obtain ⟨c₀, hc₀⟩ := exists_mem_pmax hpv₀
    obtain ⟨pv, hpv, heq, hmax⟩ := mem_pmax.mp hc₀
    obtain ⟨hslot, rfl⟩ := Prod.mk.inj heq
    have hmem : (pv₀.slotNum, pv.command) ∈ (self.updateProposals (pmax pvalues)).proposals :=
      Leader.mem_updateProposals.mpr (Or.inl hc₀)
    refine ⟨pv, hpv, hslot, fun pv1 hpv1 hs1 => ?_, fun c => ⟨fun hc => ?_, ?_⟩⟩
    · exact BallotNumber.compare_ne_gt_iff.mpr (hmax pv1 hpv1 (hs1.trans hslot.symm))
    · exact hone _ _ _ hc hmem
    · rintro rfl
      exact hmem
  · have hnone : ∀ c, (s, c) ∉ pmax pvalues := by
      intro c hc
      obtain ⟨pv, hpv, heq, -⟩ := mem_pmax.mp hc
      exact hs pv hpv (Prod.mk.inj heq).1
    refine Leader.mem_updateProposals.trans ⟨fun hc => ?_, fun hc => Or.inr ⟨hc, hnone⟩⟩
    exact (hc.resolve_left (hnone c)).1

/-- Two pvalues for slot 1. -/
def twoPvalues : MapSet (Pvalue (Fin 2)) :=
  ⟨[⟨.number 1 serverA, 1, transfer 1⟩, ⟨.number 1 serverB, 1, transfer 2⟩], by decide⟩

theorem adopted_choice_two : ∃ self' effects,
    (Leader.start (sample 2 .noLiveness) serverA).next (sample 2 .noLiveness)
        (.adopted (Leader.start (sample 2 .noLiveness) serverA).ballotNum twoPvalues) =
      some (self', effects) ∧
    Chooses twoPvalues (Leader.start (sample 2 .noLiveness) serverA).proposals self'.proposals := by
  refine adopted_choice (sample 2 .noLiveness) ?_ fun s c c' hc => ?_
  · have hballots : ∀ pv ∈ twoPvalues.elems, ∀ pv' ∈ twoPvalues.elems,
        pv.ballotNum = pv'.ballotNum → pv.slotNum = pv'.slotNum → pv.command = pv'.command := by
      decide
    exact hballots
  · exact absurd hc (MapSet.not_mem_empty _)

end DocMachine.Paxos
