import Mathlib.Data.Fintype.Order
import DocMachine.Lib.Voting
import DocMachine.Paxos.Preservation
import DocMachine.Paxos.Effects

/-!
# Agreement

No two `:DECISION` messages for one slot carry different commands, in the runs of the system of
`consensus/lib`.

* A state that meets the Synod invariant is an instance of the voting library: acceptors vote by
  accepting, commanders propose, and a scout's majority makes a proposal safe.
* In the modes without a failure detector no `:PREEMPT` is ever sent, so that every run agrees.
* In the modes with one, every run agrees in which no `:PREEMPT` moves an active leader to another
  ballot. `raisingRun` in `Adoption.lean` is a run that has such a step.

Results:
* `isMajority_of_waitfor`: when the majority test of the source succeeds, the servers that are not
  waited for are a majority.
* `Inv.safe`: only pvalues that a scout of the same ballot found compatible with all lower ones are
  proposed, and `Inv.chosen`: a decision was voted for by a majority.
* `agreement_without_detector`: no run decides two commands for a slot in the modes `:no_liveness`
  and `:partial_liveness`.
* `agreement_with_detector`: nor does any run without raising steps in the other two.
-/

namespace DocMachine.Paxos

open DocMachine.Lib

variable {P : Type} [LinearOrder P] {cfg : Config P} {st : State P}

/-- No two decisions for one slot differ. -/
def Agreement (st : State P) : Prop :=
  ∀ e ∈ st.sent, ∀ e' ∈ st.sent, ∀ s c c',
    e.msg = .decision s c → e'.msg = .decision s c' → c = c'

/-! ## The invariant as an instance of voting -/

/-- The servers that are not waited for any more are a majority when the majority test of the
source succeeds. -/
theorem isMajority_of_waitfor (cfg : Config P) [Fintype P] {waitfor : List P} (hnd : waitfor.Nodup)
    (hlt : waitfor.length < (cfg.servers.length + 1) / 2) :
    Voting.IsMajority (Finset.univ.filter fun a => a ∉ waitfor) := by
  have hcard : cfg.servers.length = Fintype.card P := by
    rw [← List.toFinset_card_of_nodup cfg.nodup, ← Finset.card_univ]
    congr 1
    ext p
    simp [cfg.complete p]
  have hsplit : (Finset.univ.filter fun a => a ∈ waitfor).card +
      (Finset.univ.filter fun a => a ∉ waitfor).card = (Finset.univ : Finset P).card :=
    Finset.card_filter_add_card_filter_not _
  have hwait : (Finset.univ.filter fun a => a ∈ waitfor).card = waitfor.length := by
    rw [← List.toFinset_card_of_nodup hnd]
    congr 1
    ext p
    simp
  rw [hwait, Finset.card_univ] at hsplit
  unfold Voting.IsMajority
  omega

/-- Acceptor `a` has accepted the pvalue. -/
def Voted (st : State P) (a : P) (b : BallotNumber P) (s : ℕ) (c : Command P) : Prop :=
  (⟨b, s, c⟩ : Pvalue P) ∈ (st.acceptors a).accepted

/-- Some commander works for the pvalue. -/
def ProposedAt (st : State P) (b : BallotNumber P) (s : ℕ) (c : Command P) : Prop :=
  Proposed st.synod ⟨b, s, c⟩

/-- Only pvalues that a scout of the same ballot found compatible with all lower ones are
proposed. -/
theorem Inv.safe [Fintype P] (h : Inv cfg st) {b : BallotNumber P} {s : ℕ} {c : Command P}
    (hp : ProposedAt st b s c) : Voting.Safe (Voted st) (ProposedAt st) b s c := by
  obtain ⟨cmd, hcmd, hpv⟩ := hp
  obtain ⟨rfl, rfl, rfl⟩ := Pvalue.mk.inj hpv
  obtain ⟨sc, hsc, -, hmaj, hb, hpm⟩ := (h.commanders cmd hcmd).adopted
  have hok := h.scouts sc hsc
  refine ⟨Finset.univ.filter fun a => a ∉ sc.waitfor, isMajority_of_waitfor cfg hok.waitfor ?_,
    fun a ha b' c' hlt hvote => ?_⟩
  · simpa only [Scout.majorityResponded, hok.acceptors, decide_eq_true_eq] using hmaj
  · obtain ⟨-, hknown⟩ := hok.heard a (Finset.mem_filter.mp ha).2
    have hin : (⟨b', cmd.pvalue.slotNum, c'⟩ : Pvalue P) ∈ sc.pvalues :=
      hknown _ hvote (by rw [hb]; exact hlt)
    obtain ⟨pv, hpvs, heq, hmax⟩ := mem_pmax.mp (hpm ⟨_, hin, rfl⟩)
    obtain ⟨hprop, hlt'⟩ := hok.pvalues pv hpvs
    obtain ⟨hs, hc⟩ := Prod.mk.inj heq
    refine ⟨pv.ballotNum, hmax _ hin hs.symm, hb ▸ hlt', ?_⟩
    rw [← hs, ← hc]
    exact hprop

/-- A decision was voted for by a majority. -/
theorem Inv.chosen [Fintype P] (h : Inv cfg st) {e : Envelope P} (he : e ∈ st.sent) {s : ℕ}
    {c : Command P} (hmsg : e.msg = .decision s c) : ∃ b, Voting.Chosen (Voted st) b s c := by
  have hok := h.messages e he
  rw [MsgOk, hmsg] at hok
  obtain ⟨k, cmd, hk, hpv, hmaj⟩ := hok
  have hcmd := h.commanders cmd (List.mem_of_getElem? hk)
  obtain ⟨rfl, rfl⟩ := Prod.mk.inj hpv
  refine ⟨cmd.pvalue.ballotNum, Finset.univ.filter fun a => a ∉ cmd.waitfor,
    isMajority_of_waitfor cfg hcmd.waitfor ?_, fun a ha => hcmd.heard a (Finset.mem_filter.mp ha).2⟩
  simpa only [Commander.majorityAccepted, hcmd.acceptors, decide_eq_true_eq] using hmaj

/-- **The Synod invariant implies agreement.** -/
theorem Inv.agreement (h : Inv cfg st) : Agreement st := by
  intro e he e' he' s c c' hmsg hmsg'
  let _ : Fintype P := ⟨cfg.servers.toFinset, fun p => List.mem_toFinset.mpr (cfg.complete p)⟩
  obtain ⟨b, hb⟩ := h.chosen he hmsg
  obtain ⟨b', hb'⟩ := h.chosen he' hmsg'
  have huniq : ∀ b s c c', ProposedAt st b s c → ProposedAt st b s c' → c = c' := by
    rintro b s c c' ⟨d, hd, hpv⟩ ⟨d', hd', hpv'⟩
    have heq := h.unique d hd d' hd' (by rw [hpv, hpv']) (by rw [hpv, hpv'])
    rwa [hpv, hpv'] at heq
  have hvote : ∀ a b s c, Voted st a b s c → ProposedAt st b s c :=
    fun a _ _ _ hvote => (h.acceptors a _ hvote).1
  exact Voting.chosen_unique huniq hvote (fun _ _ _ => h.safe) hb hb'

/-! ## Runs -/

/-- The invariant holds throughout a run without raising steps. -/
theorem inv_run {as : List (Action P)}
    (h : Run.Along (step cfg) (fun st a => ¬ raisesActive st a) (init cfg) as) :
    Run.Always (step cfg) (Inv cfg) (init cfg) as :=
  Run.always_of_along (fun _ _ _ hinv hguard hstep => inv_step hinv hguard hstep) inv_init h

/-- No detector watches anyone and no leader was asked to take over. -/
structure Undisturbed (st : State P) : Prop where
  detectors : ∀ p, (st.detectors p).phase = .next
  sent : ∀ e ∈ st.sent, ∀ b, e.msg ≠ .preempt b

theorem Undisturbed.step (hmode : cfg.operationMode.hasDetector = false) (h : Undisturbed st)
    {a : Action P} {st' : State P} (hstep : Step cfg st a st') : Undisturbed st' where
  detectors p := by
    cases hstep with
    | detector _ _ _ hd =>
      rw [(detectorNext_sends hd).1] at hmode
      cases hmode
    | @timeout q _ _ hd =>
      unfold FailureDetector.timedOut at hd
      rw [h.detectors q] at hd
      cases hd
    | leader => rw [State.effects_detectors]; exact h.detectors p
    | acceptor | replica | scout | commander | request | crash => exact h.detectors p
  sent e he b hb := by
    rcases hstep.sent_steering he (by rw [hb]; rfl) with hold |
      ⟨_, _, _, sc, r, _, _, _, _, _, hr, _, hm⟩ | ⟨_, _, _, c, r, _, _, _, _, _, hr, _, hm⟩ |
        ⟨p, hp, -⟩
    · exact h.sent e hold b hb
    · rcases Scout.next_sends hr hm with ⟨b', heq⟩ | ⟨b', pvs, heq⟩ <;> cases hb.symm.trans heq
    · rcases Commander.next_sends hr hm with ⟨b', heq⟩ | ⟨s, d, heq⟩ | heq <;>
        cases hb.symm.trans heq
    · rw [h.detectors p] at hp
      cases hp

omit [LinearOrder P] in
theorem undisturbed_init : Undisturbed (init cfg) := by
  refine init_induction ⟨fun _ => rfl, fun e he => absurd he List.not_mem_nil⟩
    fun st p h => ⟨h.detectors, fun e he b hb => ?_⟩
  rcases List.mem_append.mp he with he | he
  · exact h.sent e he b hb
  · obtain ⟨m, hm, rfl⟩ := List.mem_map.mp he
    obtain ⟨a, -, rfl⟩ := List.mem_map.mp hm
    cases hb

/-- **Agreement without a failure detector.** In the modes `:no_liveness` and
`:partial_liveness` no run decides two commands for a slot. -/
theorem agreement_without_detector
    (hmode : cfg.operationMode = .noLiveness ∨ cfg.operationMode = .partialLiveness)
    {as : List (Action P)} (h : Reaches cfg as st) : Agreement st := by
  have hnone : cfg.operationMode.hasDetector = false := by
    rcases hmode with hmode | hmode <;> rw [hmode] <;> rfl
  have hkeep : ∀ st a st', Inv cfg st ∧ Undisturbed st → step cfg st a = some st' →
      Inv cfg st' ∧ Undisturbed st' := by
    rintro st a st' ⟨hinv, hund⟩ hstep
    refine ⟨inv_step hinv ?_ hstep, hund.step hnone (Step.of_step hstep)⟩
    intro hraise
    obtain ⟨i, e, p, b, -, hi, -, hb, -⟩ := raisesActive_iff.mp hraise
    exact hund.sent e (hinv.net e (List.mem_of_getElem? hi)) b hb
  exact (Run.invariant hkeep ⟨inv_init, undisturbed_init⟩ h).1.agreement

/-- Whether a decision was sent. -/
def decides (st : State P) (s : ℕ) (c : Command P) : Bool :=
  st.sent.any fun e => e.msg = .decision s c

theorem exists_of_decides {s : ℕ} {c : Command P} (h : decides st s c = true) :
    ∃ e ∈ st.sent, e.msg = .decision s c := by
  simpa [decides] using h

/-- Leader 0 gets its ballot adopted and its first proposal decided. -/
def decidingRun : List (Action (Fin 2)) :=
  .request serverA (transfer 1) :: [4, 0, 0, 4, 4, 2, 3, 3, 3, 3, 3].map .deliver

theorem agreement_decidingRun : ∃ st, Reaches (sample 2 .noLiveness) decidingRun st ∧
    decides st 1 (transfer 1) = true ∧ Agreement st := by
  have hrun : (Run.run (step (sample 2 .noLiveness)) (init (sample 2 .noLiveness)) decidingRun).any
      (fun st => decides st 1 (transfer 1)) = true := by decide +kernel
  obtain ⟨st, hst, hdec⟩ := (Option.any_eq_true _ _).mp hrun
  exact ⟨st, hst, hdec, agreement_without_detector (Or.inl rfl) hst⟩

/-- **Agreement with a failure detector.** A run in which no active leader is moved to another
ballot never decides two commands for a slot. -/
theorem agreement_with_detector {as : List (Action P)}
    (h : Run.Along (step cfg) (fun st a => ¬ raisesActive st a) (init cfg) as) :
    Run.Always (step cfg) Agreement (init cfg) as :=
  (inv_run h).mono fun _ hinv => hinv.agreement

theorem agreement_decidingRun_with_detector : Run.Always (step (sample 2 .fullLiveness)) Agreement
    (init (sample 2 .fullLiveness)) decidingRun :=
  agreement_with_detector (by decide +kernel)

/-- Leader 0 is preempted twice, by two commanders of its first ballot. The failure detector's
first `:PREEMPT` moves it to ballot `(1, 0)`; the scout's `:ADOPTED` for that ballot and the
second `:PREEMPT`, for ballot `(2, 1)` of leader 1, arrive in this order. Leader 0 ends up active
at ballot `(3, 0)`, which no acceptor has heard of. -/
def raisingRun : List (Action (Fin 2)) :=
  ([1, 2, 3].map fun n => .request serverA (transfer n)) ++
  ([4, 5, 6].map fun n => .request serverB (transfer n)) ++
  ([4, 4, 4, 4, 4, 4, 0, 0, 14, 14, 2, 3, 12, 0, 11, 15, 15, 15].map .deliver ++
    [.timeout serverA]) ++
  ([16, 17, 16, 16, 16, 0, 16, 16, 16].map .deliver ++ [.timeout serverB]) ++
  ([17, 17, 17, 17, 17, 5, 6, 7, 14, 8, 19, 19, 19, 11].map .deliver ++ [.timeout serverA]) ++
  [.deliver 23]

/-- Then leader 1 has slot 3 decided at `(2, 1)`, and leader 0, once the acceptors have promised
`(3, 0)`, has it decided again without having heard of it. -/
def disagreeingRun : List (Action (Fin 2)) :=
  raisingRun ++ [12, 12, 23, 23, 2, 20, 20, 22, 22, 24, 24].map .deliver

theorem disagreement_with_detector :
    ∃ st, Reaches (sample 2 .simplifiedLiveness) disagreeingRun st ∧ ¬ Agreement st := by
  have hrun : (Run.run (step (sample 2 .simplifiedLiveness)) (init (sample 2 .simplifiedLiveness))
      disagreeingRun).any (fun st => decides st 3 (transfer 6) && decides st 3 (transfer 3)) =
        true := by decide +kernel
  obtain ⟨st, hst, hdec⟩ := (Option.any_eq_true _ _).mp hrun
  obtain ⟨h6, h3⟩ := Bool.and_eq_true_iff.mp hdec
  obtain ⟨e, he, hmsg⟩ := exists_of_decides h6
  obtain ⟨e', he', hmsg'⟩ := exists_of_decides h3
  exact ⟨st, hst, fun hagree => absurd (hagree e he e' he' _ _ _ hmsg hmsg') (by decide)⟩

end DocMachine.Paxos
