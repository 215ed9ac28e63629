import DocMachine.Paxos.Agreement

/-!
# Adoption before phase 2

A commander works for a ballot, and an active leader holds one, that a majority of the acceptors has
promised to a scout of the same leader (`AdoptionBeforePhase2`): `leader.ex` (103-229), `scout.ex`
(33-64) and `acceptor.ex` (26-46) of `consensus/lib`.

* The scouts keep count faithfully in every run (`Heard`): an acceptor that is not waited for has
  replied with the scout's ballot.
* What can fail is the link between the leader's ballot and its scout. `:PREEMPT` raises the ballot
  of a leader without deactivating it, as `:PREEMPTED` does in the modes without a failure detector.

Results:
* `AdoptedBy.majority`: a scout that found a majority has the replies of a majority.
* `Inv.not_adoption_of_raises`: a raising step leaves an active leader at a ballot that nobody has
  promised.
* `adoption_iff`: the property holds throughout a run iff no step of it moves an active leader to
  another ballot; `adoption_fails` is a run with such a step.
-/

namespace DocMachine.Paxos

open DocMachine.Lib

variable {P : Type} [LinearOrder P] {cfg : Config P} {st st' : State P} {a : Action P}

/-- Scout `k` has received a reply with ballot `b` from acceptor `q`. -/
def Replied (st : State P) (k : ℕ) (q : P) (b : BallotNumber P) : Prop :=
  ∃ e ∈ st.received, e.dst = .scout k ∧ ∃ r, e.msg = .p1b q b r

/-- A scout of leader `p` for ballot `b` has received replies with that ballot from a majority. -/
def AdoptedByMajority (cfg : Config P) (st : State P) (p : P) (b : BallotNumber P) : Prop :=
  ∃ (k : ℕ) (sc : Scout P), st.scouts[k]? = some sc ∧ sc.leader = p ∧ sc.ballotNumber = b ∧
    ∃ Q : List P, Q.Nodup ∧ cfg.servers.length < 2 * Q.length ∧ ∀ q ∈ Q, Replied st k q b

/-- Every commander and every active leader has its ballot from a majority. -/
structure AdoptionBeforePhase2 (cfg : Config P) (st : State P) : Prop where
  commanders : ∀ c ∈ st.commanders, AdoptedByMajority cfg st c.leader c.pvalue.ballotNum
  active : ∀ p, (st.leaders p).active = true → AdoptedByMajority cfg st p (st.leaders p).ballotNum

/-! ## Scouts count replies -/

/-- An acceptor that a scout does not wait for has replied with the scout's ballot. -/
def Heard (st : State P) : Prop :=
  ∀ (k : ℕ) sc, st.scouts[k]? = some sc → ∀ q, q ∉ sc.waitfor → Replied st k q sc.ballotNumber

theorem Replied.mono (h : Step cfg st a st') {k : ℕ} {q : P} {b : BallotNumber P}
    (hr : Replied st k q b) : Replied st' k q b := by
  obtain ⟨e, he, hrest⟩ := hr
  exact ⟨e, h.received.1 e he, hrest⟩

theorem Heard.step (h : Heard st) (hstep : Step cfg st a st') : Heard st' := by
  have hold : ∀ (k : ℕ) sc, st.scouts[k]? = some sc →
      ∀ q, q ∉ sc.waitfor → Replied st' k q sc.ballotNumber :=
    fun k sc hk q hq => (h k sc hk q hq).mono hstep
  intro k sc hk q hq
  cases hstep with
  | leader =>
    rcases State.effects_scouts hk with hk | ⟨-, b, -, rfl⟩
    · exact hold k sc hk q hq
    · exact absurd (cfg.complete q) hq
  | @scout i j e s s' sends hi hlive hdst hj hrun hs =>
    by_cases hjk : j = k
    · subst hjk
      have hlen := (List.getElem?_eq_some_iff.mp hj).1
      obtain rfl : s' = sc := Option.some.inj ((List.getElem?_set_self hlen).symm.trans hk)
      have hb : s'.ballotNumber = s.ballotNumber := (Scout.next_ballotNumber hs).1
      obtain ⟨x, b, rs, hmsg, hcase⟩ := Scout.next_cases hs
      by_cases hqs : q ∈ s.waitfor
      · -- the acceptor was crossed off in this very step
        have hx : b = s.ballotNumber ∧ q = x := by
          have herase : q ∉ s.waitfor.erase x → q = x := fun hne => by
            by_contra hqx
            exact hne ((List.mem_erase_of_ne hqx).mpr hqs)
          rcases hcase with ⟨-, heq⟩ | ⟨hown, heq⟩ | ⟨hown, -, heq⟩ <;>
            obtain ⟨rfl, -⟩ := Prod.mk.inj heq
          · exact absurd hqs hq
          · exact ⟨hown, herase hq⟩
          · exact ⟨hown, herase hq⟩
        refine ⟨e, List.mem_append_right _ List.mem_cons_self, hdst, rs, ?_⟩
        rw [hmsg, hb, hx.1, hx.2]
      · rw [hb]
        exact hold j s hj q hqs
    · exact hold k sc ((List.getElem?_set_ne hjk).symm.trans hk) q hq
  | acceptor | replica | detector | commander | timeout | request | crash => exact hold k sc hk q hq

omit [LinearOrder P] in
theorem heard_init : Heard (init cfg) := by
  refine init_induction (fun k sc hk => by cases hk) fun st p h k sc hk q hq => ?_
  have hk' : (st.effects cfg p [.spawnScout (st.leaders p).ballotNum]).scouts[k]? = some sc := hk
  rcases State.effects_scouts hk' with hk | ⟨-, b, -, rfl⟩
  · exact h k sc hk q hq
  · exact absurd (cfg.complete q) hq

/-! ## The property and the invariant -/

/-- A scout that found a majority has the replies of a majority. -/
theorem AdoptedBy.majority (h : Inv cfg st) (hheard : Heard st) {p : P} {v : ℕ} {b : BallotNumber P}
    {Φ : MapSet (Pvalue P) → Prop} (hb : b = .number v p) (had : AdoptedBy st.synod b Φ) :
    AdoptedByMajority cfg st p b := by
  obtain ⟨sc, hsc, -, hmaj, hscb, -⟩ := had
  obtain ⟨k, hk⟩ := List.mem_iff_getElem?.mp hsc
  have hok := h.scouts sc hsc
  obtain ⟨w, hw⟩ := hok.own
  refine ⟨k, sc, hk, (BallotNumber.number.inj (hw.symm.trans (hscb.trans hb))).2, hscb,
    cfg.servers.filter fun q => q ∉ sc.waitfor, cfg.nodup.filter _, ?_, fun q hq => ?_⟩
  · have hsub : (cfg.servers.filter fun q => q ∈ sc.waitfor).length ≤ sc.waitfor.length :=
      ((cfg.nodup.filter _).subperm fun q hq => by simpa using (List.mem_filter.mp hq).2).length_le
    have hsplit := cfg.servers.length_eq_length_filter_add fun q => decide (q ∈ sc.waitfor)
    simp only [Scout.majorityResponded, hok.acceptors, decide_eq_true_eq] at hmaj
    simp only [decide_not]
    omega
  · rw [← hscb]
    exact hheard k sc hk q (by simpa using (List.mem_filter.mp hq).2)

theorem Inv.adoption (h : Inv cfg st) (hheard : Heard st) : AdoptionBeforePhase2 cfg st where
  commanders c hc := by
    have hok := h.commanders c hc
    obtain ⟨v, hv⟩ := hok.own
    exact hok.adopted.majority h hheard hv
  active p hact := by
    have hok := h.leaders p
    obtain ⟨v, hv⟩ := hok.own
    exact (hok.adopted hact).majority h hheard hv

/-- A raising step leaves an active leader at a ballot that nobody has promised. -/
theorem Inv.not_adoption_of_raises (h : Inv cfg st) (hrec : ∀ e ∈ st.received, e ∈ st.sent)
    (hraise : raisesActive st a = true) (hstep : step cfg st a = some st') :
    ¬ AdoptionBeforePhase2 cfg st' := by
  obtain ⟨i, e, p, b, rfl, hi, hdst, hmsg, hact, hlt⟩ := raisesActive_iff.mp hraise
  obtain ⟨v, hv⟩ := (h.leaders p).own
  obtain ⟨l, hnext, hlb, hlt', hact', -⟩ := Leader.next_preempt cfg hv hlt
  obtain ⟨rfl, -⟩ := step_leader hi hdst (hmsg ▸ hnext) hstep
  intro hprop
  have hl : (((st.take i e).setLeader p l).effects cfg p
    [.spawnScout l.ballotNum]).leaders p = l := by
    rw [State.effects_leaders]
    exact Function.update_self _ _ _
  obtain ⟨k, sc, hk, -, hscb, Q, -, hcard, hQ⟩ := hprop.active p (by rw [hl, hact', hact])
  rw [hl] at hscb hQ
  rcases State.effects_scouts hk with hold | ⟨hlen, -⟩
  · -- every scout the leader had was for a lower ballot
    have hle := (h.leaders p).scouts sc (List.mem_of_getElem? hold) _ (hscb.trans hlb)
    exact absurd hlt' (not_lt.mpr (hscb ▸ hle))
  · -- the new scout has heard of nobody
    have hne : Q ≠ [] := fun hnil => by simp [hnil] at hcard
    obtain ⟨q, hq⟩ := List.exists_mem_of_ne_nil Q hne
    obtain ⟨x, hx, hxdst, r, hxmsg⟩ := hQ q hq
    have hsent : x ∈ st.sent := by
      rw [State.effects_received] at hx
      rcases List.mem_append.mp hx with hx | hx
      · exact hrec x hx
      · obtain rfl := List.mem_singleton.mp hx
        rw [hdst] at hxdst
        cases hxdst
    have hok := h.messages x hsent
    rw [MsgOk, hxmsg] at hok
    obtain ⟨⟨k', sc', hd, hk', -⟩, -⟩ := hok
    obtain rfl := Pid.scout.inj (hxdst.symm.trans hd)
    exact absurd (List.getElem?_eq_some_iff.mp hk').1 (not_lt.mpr hlen)

/-! ## Runs -/

/-- **Adoption before phase 2, exactly.** The property holds throughout a run iff no step of it
moves an active leader to another ballot. -/
theorem adoption_iff {as : List (Action P)} :
    Run.Always (step cfg) (AdoptionBeforePhase2 cfg) (init cfg) as ↔
      Run.Along (step cfg) (fun st a => ¬ raisesActive st a) (init cfg) as := by
  let J : State P → Prop := fun st => Inv cfg st ∧ Heard st ∧ ∀ e ∈ st.received, e ∈ st.sent
  have hgood : ∀ st a st', J st → ¬ raisesActive st a → step cfg st a = some st' → J st' := by
    rintro st a st' ⟨hinv, hheard, hrec⟩ hguard hstep
    have hst := Step.of_step hstep
    refine ⟨inv_step hinv hguard hstep, hheard.step hst, fun e he => hst.sent_mono e ?_⟩
    rcases hst.received.2 e he with he | he
    · exact hrec e he
    · exact hinv.net e he
  have hbad : ∀ st a st', J st → ¬ ¬ raisesActive st a → step cfg st a = some st' →
      ¬ AdoptionBeforePhase2 cfg st' := by
    rintro st a st' ⟨hinv, -, hrec⟩ hraise hstep
    exact hinv.not_adoption_of_raises hrec (not_not.mp hraise) hstep
  have hinit : J (init cfg) := by
    refine ⟨inv_init, heard_init, fun e he => ?_⟩
    let Q : State P → Prop := fun st => st.received = []
    have hnone : Q (init cfg) := init_induction rfl fun _ _ h => h
    rw [hnone] at he
    cases he
  exact Run.always_iff_along (fun _ h => h.1.adoption h.2.1) hgood hbad hinit

/-- A reply to a scout of ballot `b`. -/
def Message.isReplyFor (b : BallotNumber P) : Message P → Bool
  | .p1b _ b' _ => b' = b
  | _ => false

/-- At the end of `raisingRun` leader 0 is active at a ballot that no scout got a reply for. -/
theorem adoption_fails : ∃ st, Reaches (sample 2 .simplifiedLiveness) raisingRun st ∧
    ¬ AdoptionBeforePhase2 (sample 2 .simplifiedLiveness) st := by
  have hrun : (Run.run (step (sample 2 .simplifiedLiveness)) (init (sample 2 .simplifiedLiveness))
      raisingRun).any (fun st => (st.leaders 0).active && st.received.all fun e =>
        !e.msg.isReplyFor (st.leaders 0).ballotNum) = true := by decide +kernel
  obtain ⟨st, hst, hcheck⟩ := (Option.any_eq_true _ _).mp hrun
  obtain ⟨hact, hnone⟩ := Bool.and_eq_true_iff.mp hcheck
  refine ⟨st, hst, fun hprop => ?_⟩
  obtain ⟨k, sc, -, -, -, Q, -, hcard, hQ⟩ := hprop.active 0 hact
  have hne : Q ≠ [] := fun hnil => by simp [hnil] at hcard
  obtain ⟨q, hq⟩ := List.exists_mem_of_ne_nil Q hne
  obtain ⟨e, he, -, r, hmsg⟩ := hQ q hq
  have hno := List.all_eq_true.mp hnone e he
  rw [hmsg] at hno
  simp [Message.isReplyFor] at hno

end DocMachine.Paxos
