import DocMachine.Paxos.System

/-!
# The Synod invariant

What holds of the acceptors, scouts, commanders, leaders and messages in every state a run can
reach, as long as no active leader is moved to another ballot (`raisesActive`, the `:PREEMPT`
branch of the leader).

The facts about one process are predicates of the process and of the Synod part of the state
(`LeaderOk`, `ScoutOk`, `CommanderOk`, `AcceptorOk`, `MsgOk`); `Inv` asks them of every process and
of every message sent. They speak of other processes only through facts that stay true once they
hold, and `Grows` says what "stay" rests on: ballots of acceptors rise, accepted pvalues stay, a
pvalue is accepted at the acceptor's current ballot only, and a scout that has exited is left alone.

Each operation on the state (`post`, `setAcceptor`, `setScout`, `setCommander`, `setLeader`,
`spawnScout`, `spawnCommander`) has one lemma saying when it keeps `Inv`; `inv_step` puts a step
together from them.
-/

namespace DocMachine.Paxos

open DocMachine.Lib

variable {P : Type} [LinearOrder P]

/-! ## The facts -/

/-- The part of the state that the facts read. -/
structure Synod (P : Type) where
  acceptors : P → Acceptor P
  scouts : List (Scout P)
  commanders : List (Commander P)

/-- The acceptors, scouts and commanders of a state. -/
def State.synod (st : State P) : Synod P := ⟨st.acceptors, st.scouts, st.commanders⟩

/-- A commander was spawned for the pvalue. -/
def Proposed (sy : Synod P) (pv : Pvalue P) : Prop := ∃ c ∈ sy.commanders, c.pvalue = pv

/-- A scout for ballot `b` ended with a majority of replies, and `Φ` holds of its pvalues. -/
def AdoptedBy (sy : Synod P) (b : BallotNumber P) (Φ : MapSet (Pvalue P) → Prop) : Prop :=
  ∃ sc ∈ sy.scouts, sc.exited = true ∧ sc.majorityResponded = true ∧ sc.ballotNumber = b ∧
    Φ sc.pvalues

/-- A leader is in order: it owns its ballot, has one proposal for a slot, and if it is active its
ballot was adopted. -/
structure LeaderOk (sy : Synod P) (p : P) (l : Leader P) : Prop where
  own : ∃ v, l.ballotNum = .number v p
  functional : ∀ s c c', (s, c) ∈ l.proposals → (s, c') ∈ l.proposals → c = c'
  adopted : l.active = true → AdoptedBy sy l.ballotNum fun pvs => ∀ x ∈ pmax pvs, x ∈ l.proposals
  scouts : ∀ sc ∈ sy.scouts, ∀ v, sc.ballotNumber = .number v p → sc.ballotNumber ≤ l.ballotNum
  current : ∀ c ∈ sy.commanders, c.pvalue.ballotNum = l.ballotNum →
    c.pvalue.proposal ∈ l.proposals

/-- A scout is in order: what it has counted was promised, and its pvalues were proposed. -/
structure ScoutOk (cfg : Config P) (sy : Synod P) (sc : Scout P) : Prop where
  acceptors : sc.acceptors = cfg.servers
  waitfor : sc.waitfor.Nodup
  own : ∃ v, sc.ballotNumber = .number v sc.leader
  pvalues : ∀ pv ∈ sc.pvalues, Proposed sy pv ∧ pv.ballotNum < sc.ballotNumber
  /-- An acceptor that replied has promised the ballot, and what it accepted below the ballot is
  known to the scout. -/
  heard : ∀ a, a ∉ sc.waitfor → sc.ballotNumber ≤ (sy.acceptors a).ballotNum ∧
    ∀ pv ∈ (sy.acceptors a).accepted, pv.ballotNum < sc.ballotNumber → pv ∈ sc.pvalues

/-- A commander is in order: its ballot was adopted, and what it has counted was accepted. -/
structure CommanderOk (cfg : Config P) (sy : Synod P) (c : Commander P) : Prop where
  acceptors : c.acceptors = cfg.servers
  waitfor : c.waitfor.Nodup
  own : ∃ v, c.pvalue.ballotNum = .number v c.leader
  /-- The ballot was adopted, and the command is the one `pmax` picks if it picks any. -/
  adopted : AdoptedBy sy c.pvalue.ballotNum fun pvs =>
    (∃ pv ∈ pvs, pv.slotNum = c.pvalue.slotNum) → c.pvalue.proposal ∈ pmax pvs
  heard : ∀ a, a ∉ c.waitfor → c.pvalue ∈ (sy.acceptors a).accepted

/-- What an acceptor has accepted was proposed, at ballots up to its own. -/
def AcceptorOk (sy : Synod P) (a : Acceptor P) : Prop :=
  ∀ pv ∈ a.accepted, Proposed sy pv ∧ pv.ballotNum ≤ a.ballotNum

/-- What a message sent by the Synod processes says about the state. -/
def MsgOk (sy : Synod P) (e : Envelope P) : Prop :=
  match e.msg with
  | .p1a l b => ∃ (k : ℕ) (sc : Scout P),
      l = .scout k ∧ sy.scouts[k]? = some sc ∧ sc.ballotNumber = b
  | .p1b a b r =>
    (∃ (k : ℕ) (sc : Scout P), e.dst = .scout k ∧ sy.scouts[k]? = some sc ∧ sc.ballotNumber ≤ b) ∧
      b ≤ (sy.acceptors a).ballotNum ∧
      (∀ pv ∈ (sy.acceptors a).accepted, pv.ballotNum < b → pv ∈ r) ∧
      ∀ pv ∈ r, Proposed sy pv ∧ pv.ballotNum ≤ b
  | .p2a l pv => ∃ (k : ℕ) (c : Commander P),
      l = .commander k ∧ sy.commanders[k]? = some c ∧ c.pvalue = pv
  | .p2b a b => ∃ (k : ℕ) (c : Commander P), e.dst = .commander k ∧ sy.commanders[k]? = some c ∧
      (b = c.pvalue.ballotNum → c.pvalue ∈ (sy.acceptors a).accepted)
  | .adopted b pvs => AdoptedBy sy b (· = pvs)
  | .decision s c => ∃ (k : ℕ) (cmd : Commander P), sy.commanders[k]? = some cmd ∧
      cmd.pvalue.proposal = (s, c) ∧ cmd.majorityAccepted = true
  | _ => True

/-- The Synod invariant. -/
structure Inv (cfg : Config P) (st : State P) : Prop where
  leaders : ∀ p, LeaderOk st.synod p (st.leaders p)
  scouts : ∀ sc ∈ st.scouts, ScoutOk cfg st.synod sc
  scoutBallots : (st.scouts.map Scout.ballotNumber).Nodup
  commanders : ∀ c ∈ st.commanders, CommanderOk cfg st.synod c
  unique : ∀ c ∈ st.commanders, ∀ c' ∈ st.commanders,
    c.pvalue.ballotNum = c'.pvalue.ballotNum → c.pvalue.slotNum = c'.pvalue.slotNum →
      c.pvalue.command = c'.pvalue.command
  acceptors : ∀ a, AcceptorOk st.synod (st.acceptors a)
  messages : ∀ e ∈ st.sent, MsgOk st.synod e
  net : ∀ e ∈ st.net, e ∈ st.sent

/-! ## What stays true -/

/-- How the Synod part of the state may change. -/
structure Grows (sy sy' : Synod P) : Prop where
  ballots : ∀ a, (sy.acceptors a).ballotNum ≤ (sy'.acceptors a).ballotNum
  accepted : ∀ a, ∀ pv ∈ (sy.acceptors a).accepted, pv ∈ (sy'.acceptors a).accepted
  fresh : ∀ a, ∀ pv ∈ (sy'.acceptors a).accepted,
    pv ∈ (sy.acceptors a).accepted ∨ (sy.acceptors a).ballotNum ≤ pv.ballotNum
  scouts : ∀ (k : ℕ) sc, sy.scouts[k]? = some sc → ∃ sc', sy'.scouts[k]? = some sc' ∧
    sc'.ballotNumber = sc.ballotNumber ∧ (sc.exited = true → sc' = sc)
  commanders : ∀ (k : ℕ) c, sy.commanders[k]? = some c → ∃ c', sy'.commanders[k]? = some c' ∧
    c'.pvalue = c.pvalue ∧ (c.majorityAccepted = true → c'.majorityAccepted = true)

namespace Grows

variable {sy sy' : Synod P} {cfg : Config P}

/-- Nothing but the acceptors changed, and they grew. -/
theorem of_acceptors (hs : sy'.scouts = sy.scouts) (hc : sy'.commanders = sy.commanders)
    (hb : ∀ a, (sy.acceptors a).ballotNum ≤ (sy'.acceptors a).ballotNum)
    (ha : ∀ a, ∀ pv ∈ (sy.acceptors a).accepted, pv ∈ (sy'.acceptors a).accepted)
    (hf : ∀ a, ∀ pv ∈ (sy'.acceptors a).accepted,
      pv ∈ (sy.acceptors a).accepted ∨ (sy.acceptors a).ballotNum ≤ pv.ballotNum) :
    Grows sy sy' :=
  ⟨hb, ha, hf, fun _ sc h => ⟨sc, hs ▸ h, rfl, fun _ => rfl⟩,
    fun _ c h => ⟨c, hc ▸ h, rfl, id⟩⟩

/-- The acceptors did not change. -/
theorem of_workers (ha : sy'.acceptors = sy.acceptors)
    (hs : ∀ (k : ℕ) sc, sy.scouts[k]? = some sc → ∃ sc', sy'.scouts[k]? = some sc' ∧
      sc'.ballotNumber = sc.ballotNumber ∧ (sc.exited = true → sc' = sc))
    (hc : ∀ (k : ℕ) c, sy.commanders[k]? = some c → ∃ c', sy'.commanders[k]? = some c' ∧
      c'.pvalue = c.pvalue ∧ (c.majorityAccepted = true → c'.majorityAccepted = true)) :
    Grows sy sy' :=
  ⟨fun a => by rw [ha], fun a pv h => by rw [ha]; exact h, fun a pv h => by
    rw [ha] at h; exact Or.inl h, hs, hc⟩

theorem proposed (g : Grows sy sy') {pv : Pvalue P} (h : Proposed sy pv) : Proposed sy' pv := by
  obtain ⟨c, hc, rfl⟩ := h
  obtain ⟨k, hk⟩ := List.mem_iff_getElem?.mp hc
  obtain ⟨c', hk', hpv, -⟩ := g.commanders k c hk
  exact ⟨c', List.mem_of_getElem? hk', hpv⟩

theorem adoptedBy (g : Grows sy sy') {b : BallotNumber P} {Φ Ψ : MapSet (Pvalue P) → Prop}
    (hΦ : ∀ pvs, Φ pvs → Ψ pvs) (h : AdoptedBy sy b Φ) : AdoptedBy sy' b Ψ := by
  obtain ⟨sc, hsc, hex, hmaj, hb, hpv⟩ := h
  obtain ⟨k, hk⟩ := List.mem_iff_getElem?.mp hsc
  obtain ⟨sc', hk', -, heq⟩ := g.scouts k sc hk
  obtain rfl := heq hex
  exact ⟨sc', List.mem_of_getElem? hk', hex, hmaj, hb, hΦ _ hpv⟩

theorem scoutOk (g : Grows sy sy') {sc : Scout P} (h : ScoutOk cfg sy sc) :
    ScoutOk cfg sy' sc where
  acceptors := h.acceptors
  waitfor := h.waitfor
  own := h.own
  pvalues pv hpv := ⟨g.proposed (h.pvalues pv hpv).1, (h.pvalues pv hpv).2⟩
  heard a ha := by
    obtain ⟨hle, hknown⟩ := h.heard a ha
    refine ⟨hle.trans (g.ballots a), fun pv hpv hlt => ?_⟩
    rcases g.fresh a pv hpv with hold | hnew
    · exact hknown pv hold hlt
    · exact absurd (hle.trans hnew) (not_le.mpr hlt)

theorem commanderOk (g : Grows sy sy') {c : Commander P} (h : CommanderOk cfg sy c) :
    CommanderOk cfg sy' c where
  acceptors := h.acceptors
  waitfor := h.waitfor
  own := h.own
  adopted := g.adoptedBy (fun _ hp => hp) h.adopted
  heard a ha := g.accepted a _ (h.heard a ha)

theorem acceptorOk (g : Grows sy sy') {a : Acceptor P} (h : AcceptorOk sy a) : AcceptorOk sy' a :=
  fun pv hpv => ⟨g.proposed (h pv hpv).1, (h pv hpv).2⟩

theorem msgOk (g : Grows sy sy') {e : Envelope P} (h : MsgOk sy e) : MsgOk sy' e := by
  obtain ⟨src, dst, msg⟩ := e
  cases msg with
  | p1a l b =>
    obtain ⟨k, sc, hl, hk, hb⟩ := h
    obtain ⟨sc', hk', hb', -⟩ := g.scouts k sc hk
    exact ⟨k, sc', hl, hk', hb'.trans hb⟩
  | p1b a b r =>
    obtain ⟨⟨k, sc, hd, hk, hb⟩, hle, hknown, hr⟩ := h
    obtain ⟨sc', hk', hb', -⟩ := g.scouts k sc hk
    refine ⟨⟨k, sc', hd, hk', hb' ▸ hb⟩, hle.trans (g.ballots a), fun pv hpv hlt => ?_,
      fun pv hpv => ⟨g.proposed (hr pv hpv).1, (hr pv hpv).2⟩⟩
    rcases g.fresh a pv hpv with hold | hnew
    · exact hknown pv hold hlt
    · exact absurd (hle.trans hnew) (not_le.mpr hlt)
  | p2a l pv =>
    obtain ⟨k, c, hl, hk, hpv⟩ := h
    obtain ⟨c', hk', hpv', -⟩ := g.commanders k c hk
    exact ⟨k, c', hl, hk', hpv'.trans hpv⟩
  | p2b a b =>
    obtain ⟨k, c, hd, hk, himp⟩ := h
    obtain ⟨c', hk', hpv', -⟩ := g.commanders k c hk
    refine ⟨k, c', hd, hk', fun hb => ?_⟩
    rw [hpv'] at hb ⊢
    exact g.accepted a _ (himp hb)
  | adopted b pvs =>
    have h' : AdoptedBy sy b (· = pvs) := h
    exact g.adoptedBy (fun _ hp => hp) h'
  | decision s c =>
    obtain ⟨k, cmd, hk, hpv, hmaj⟩ := h
    obtain ⟨c', hk', hpv', hmaj'⟩ := g.commanders k cmd hk
    exact ⟨k, c', hk', by rw [hpv']; exact hpv, hmaj' hmaj⟩
  | _ => exact True.intro

theorem refl (sy : Synod P) : Grows sy sy :=
  of_acceptors rfl rfl (fun _ => le_rfl) (fun _ _ h => h) (fun _ _ h => Or.inl h)

theorem trans {sy'' : Synod P} (g : Grows sy sy') (g' : Grows sy' sy'') : Grows sy sy'' where
  ballots a := (g.ballots a).trans (g'.ballots a)
  accepted a pv h := g'.accepted a pv (g.accepted a pv h)
  fresh a pv h := by
    rcases g'.fresh a pv h with h | h
    · exact g.fresh a pv h
    · exact Or.inr ((g.ballots a).trans h)
  scouts k sc h := by
    obtain ⟨sc', h', hb, heq⟩ := g.scouts k sc h
    obtain ⟨sc'', h'', hb', heq'⟩ := g'.scouts k sc' h'
    refine ⟨sc'', h'', hb'.trans hb, fun hex => ?_⟩
    obtain rfl := heq hex
    exact heq' hex
  commanders k c h := by
    obtain ⟨c', h', hb, himp⟩ := g.commanders k c h
    obtain ⟨c'', h'', hb', himp'⟩ := g'.commanders k c' h'
    exact ⟨c'', h'', hb'.trans hb, fun hm => himp' (himp hm)⟩

/-! ### The operations -/

variable {st : State P}

theorem setAcceptor {p : P} {a : Acceptor P} (hb : (st.acceptors p).ballotNum ≤ a.ballotNum)
    (ha : ∀ pv ∈ (st.acceptors p).accepted, pv ∈ a.accepted)
    (hf : ∀ pv ∈ a.accepted,
      pv ∈ (st.acceptors p).accepted ∨ (st.acceptors p).ballotNum ≤ pv.ballotNum) :
    Grows st.synod (st.setAcceptor p a).synod := by
  have hupd : ∀ q, (st.setAcceptor p a).synod.acceptors q = if q = p then a else st.acceptors q :=
    fun q => Function.update_apply _ _ _ _
  refine of_acceptors rfl rfl (fun q => ?_) (fun q pv hpv => ?_) (fun q pv hpv => ?_)
  · rw [hupd]
    split_ifs with hq
    · subst hq; exact hb
    · exact le_rfl
  · rw [hupd]
    split_ifs with hq
    · subst hq; exact ha pv hpv
    · exact hpv
  · rw [hupd] at hpv
    split_ifs at hpv with hq
    · subst hq; exact hf pv hpv
    · exact Or.inl hpv

theorem setScout {k : ℕ} {old new : Scout P} (hk : st.scouts[k]? = some old)
    (hrun : old.exited = false) (hb : new.ballotNumber = old.ballotNumber) :
    Grows st.synod (st.setScout k new).synod := by
  refine of_workers rfl (fun j sc hj => ?_) (fun _ c hc => ⟨c, hc, rfl, id⟩)
  by_cases hjk : k = j
  · subst hjk
    obtain rfl : old = sc := Option.some.inj (hk.symm.trans hj)
    exact ⟨new, List.getElem?_set_self (List.getElem?_eq_some_iff.mp hk).1, hb,
      fun hex => absurd hex (by simp [hrun])⟩
  · exact ⟨sc, (List.getElem?_set_ne hjk).trans hj, rfl, fun _ => rfl⟩

theorem setCommander {k : ℕ} {old new : Commander P} (hk : st.commanders[k]? = some old)
    (hpv : new.pvalue = old.pvalue)
    (hmaj : old.majorityAccepted = true → new.majorityAccepted = true) :
    Grows st.synod (st.setCommander k new).synod := by
  refine of_workers rfl (fun _ sc hsc => ⟨sc, hsc, rfl, fun _ => rfl⟩) (fun j c hj => ?_)
  by_cases hjk : k = j
  · subst hjk
    obtain rfl : old = c := Option.some.inj (hk.symm.trans hj)
    exact ⟨new, List.getElem?_set_self (List.getElem?_eq_some_iff.mp hk).1, hpv, hmaj⟩
  · exact ⟨c, (List.getElem?_set_ne hjk).trans hj, rfl, id⟩

theorem spawnScout (st : State P) (p : P) (b : BallotNumber P) :
    Grows st.synod (st.spawnScout cfg p b).synod :=
  of_workers rfl
    (fun _ sc hk => ⟨sc, List.getElem?_append_left (List.getElem?_eq_some_iff.mp hk).1 ▸ hk, rfl,
      fun _ => rfl⟩)
    (fun _ c hc => ⟨c, hc, rfl, id⟩)

theorem spawnCommander (st : State P) (p : P) (pv : Pvalue P) :
    Grows st.synod (st.spawnCommander cfg p pv).synod :=
  of_workers rfl (fun _ sc hsc => ⟨sc, hsc, rfl, fun _ => rfl⟩)
    (fun _ c hk => ⟨c, List.getElem?_append_left (List.getElem?_eq_some_iff.mp hk).1 ▸ hk, rfl, id⟩)

theorem effects (p : P) (es : List (Effect P)) (st : State P) :
    Grows st.synod (st.effects cfg p es).synod := by
  induction es generalizing st with
  | nil => exact refl st.synod
  | cons e es ih =>
    cases e with
    | send dst msg => exact ih (st.post (.leader p) [(dst, msg)])
    | spawnScout b => exact (spawnScout st p b).trans (ih _)
    | spawnCommander pv => exact (spawnCommander st p pv).trans (ih _)

end Grows

end DocMachine.Paxos
