import DocMachine.Paxos.Agreement

/-!
# Nothing out of nothing

Every command that a process of `consensus/lib` proposes, accepts, passes on, decides or executes
was asked for by a client, and every slot is one that a replica counts, from 1 on. That holds in all
four modes, also where two commands are decided for a slot.

* `Genuine` says it of a slot with its command, for any set `Asked` of commands, and of every
  message and process that carries some.
* A client asks for a command in the action `request`; the set grows along a run, and what was
  genuine stays so.

Results:
* `Leader.next_proposals`: where the proposals of a leader come from, and what it spawns commanders
  for. There is a lemma like it for each process.
* `Step.genuine`: a step passes on what was asked for.
* `decided_asked`: what follows for the runs of the system: a decision is for a slot from 1 on and
  decides a command that a client asked for, and a database is sent the operation of such a command.
-/

namespace DocMachine.Paxos

open DocMachine.Lib

variable {P : Type} {cfg : Config P} {Asked : Command P → Prop}

/-! ## The facts -/

/-- A slot, and a command that was asked for. -/
def Genuine (Asked : Command P → Prop) (s : ℕ) (c : Command P) : Prop := 1 ≤ s ∧ Asked c

/-- The pvalue is for a slot from 1 on and has a command that was asked for. -/
def Pvalue.Genuine (Asked : Command P → Prop) (pv : Pvalue P) : Prop :=
  Paxos.Genuine Asked pv.slotNum pv.command

/-- What a message carries. -/
def Message.Genuine (Asked : Command P → Prop) : Message P → Prop
  | .clientRequest c | .clientResponse _ c => Asked c
  | .execute op => ∃ c, Asked c ∧ c.op = op
  | .decision s c | .propose s c => Paxos.Genuine Asked s c
  | .p1b _ _ r => ∀ pv ∈ r, pv.Genuine Asked
  | .p2a _ pv => pv.Genuine Asked
  | .adopted _ pvs => ∀ pv ∈ pvs, pv.Genuine Asked
  | _ => True

/-- All that a replica holds was asked for. -/
structure Replica.Genuine (Asked : Command P → Prop) (r : Replica P) : Prop where
  slotIn : 1 ≤ r.slotIn
  requests : ∀ c ∈ r.requests, Asked c
  proposals : ∀ s c, (s, c) ∈ r.proposals → Paxos.Genuine Asked s c
  decisions : ∀ s c, (s, c) ∈ r.decisions → Paxos.Genuine Asked s c

/-- All that the processes hold and all that was sent was asked for. -/
structure State.Genuine (Asked : Command P → Prop) (st : State P) : Prop where
  acceptors : ∀ a, ∀ pv ∈ (st.acceptors a).accepted, pv.Genuine Asked
  leaders : ∀ p s c, (s, c) ∈ (st.leaders p).proposals → Paxos.Genuine Asked s c
  replicas : ∀ p, (st.replicas p).Genuine Asked
  scouts : ∀ sc ∈ st.scouts, ∀ pv ∈ sc.pvalues, pv.Genuine Asked
  commanders : ∀ c ∈ st.commanders, c.pvalue.Genuine Asked
  sent : ∀ e ∈ st.sent, e.msg.Genuine Asked

/-! ## The Synod processes -/

variable [LinearOrder P]

theorem Acceptor.next_genuine {self : Acceptor P} {msg : Message P}
    (h : ∀ pv ∈ self.accepted, pv.Genuine Asked) (hmsg : msg.Genuine Asked) (me : P) :
    (∀ pv ∈ (self.next me msg).1.accepted, pv.Genuine Asked) ∧
      ∀ m ∈ (self.next me msg).2, m.2.Genuine Asked := by
  cases msg with
  | p1a l b =>
    simp only [next, adoptBallot_accepted]
    refine ⟨h, fun m hm => ?_⟩
    obtain rfl := List.mem_singleton.mp hm
    exact h
  | p2a l pv =>
    refine ⟨fun x hx => ?_, fun m hm => ?_⟩
    · rcases mem_acceptPvalue.mp hx with ⟨rfl, -⟩ | hold
      · exact hmsg
      · exact h x hold
    · obtain rfl := List.mem_singleton.mp hm
      exact trivial
  | _ => exact ⟨h, fun m hm => absurd hm List.not_mem_nil⟩

theorem Scout.next_genuine {self : Scout P} {msg : Message P} {r : Scout P × List (Send P)}
    (h : ∀ pv ∈ self.pvalues, pv.Genuine Asked) (hmsg : msg.Genuine Asked)
    (hr : self.next msg = some r) :
    (∀ pv ∈ r.1.pvalues, pv.Genuine Asked) ∧ ∀ m ∈ r.2, m.2.Genuine Asked := by
  obtain ⟨a, b, rs, rfl, hcase⟩ := next_cases hr
  have hunion : ∀ pv ∈ self.pvalues.union rs, pv.Genuine Asked := by
    intro pv hpv
    rcases MapSet.mem_union.mp hpv with hpv | hpv
    · exact h pv hpv
    · exact hmsg pv hpv
  rcases hcase with ⟨-, rfl⟩ | ⟨-, rfl⟩ | ⟨-, -, rfl⟩
  · refine ⟨h, fun m hm => ?_⟩
    obtain rfl := List.mem_singleton.mp hm
    exact trivial
  · exact ⟨hunion, fun m hm => absurd hm List.not_mem_nil⟩
  · refine ⟨hunion, fun m hm => ?_⟩
    obtain rfl := List.mem_singleton.mp hm
    exact hunion

theorem Commander.next_genuine {mode : OperationMode} {self : Commander P} {msg : Message P}
    {r : Commander P × List (Send P)} (h : self.pvalue.Genuine Asked)
    (hr : self.next mode msg = some r) :
    r.1.pvalue.Genuine Asked ∧ ∀ m ∈ r.2, m.2.Genuine Asked := by
  refine ⟨(next_pvalue hr).1 ▸ h, fun m hm => ?_⟩
  obtain ⟨a, b, -, ⟨-, rfl⟩ | ⟨-, rfl⟩ | ⟨-, -, rfl⟩⟩ := next_cases hr
  · obtain rfl := List.mem_singleton.mp hm
    exact trivial
  · exact absurd hm List.not_mem_nil
  · rcases mem_decisionSends hm with ⟨q, rfl⟩ | rfl
    · exact h
    · exact trivial

/-- What an effect of a leader sends or spawns. -/
def Effect.Genuine (Asked : Command P → Prop) : Effect P → Prop
  | .send _ msg => msg.Genuine Asked
  | .spawnScout _ => True
  | .spawnCommander pv => pv.Genuine Asked

/-- Where the proposals of a leader come from, and what it spawns commanders for. -/
theorem Leader.next_proposals {self l : Leader P} {msg : Message P} {es : List (Effect P)}
    (hl : self.next cfg msg = some (l, es)) :
    (∀ x ∈ l.proposals, x ∈ self.proposals ∨ msg = .propose x.1 x.2 ∨
      ∃ b pvs, msg = .adopted b pvs ∧ ∃ pv ∈ pvs, pv.proposal = x) ∧
    ∀ pv, .spawnCommander pv ∈ es → pv.proposal ∈ l.proposals := by
  have hkeep : ∀ {l : Leader P} {es : List (Effect P)}, l.proposals = self.proposals →
      (∀ pv, .spawnCommander pv ∉ es) →
      (∀ x ∈ l.proposals, x ∈ self.proposals ∨ msg = .propose x.1 x.2 ∨
        ∃ b pvs, msg = .adopted b pvs ∧ ∃ pv ∈ pvs, pv.proposal = x) ∧
      ∀ pv, .spawnCommander pv ∈ es → pv.proposal ∈ l.proposals :=
    fun hsame hnone => ⟨fun x hx => Or.inl (hsame ▸ hx), fun pv hpv => absurd hpv (hnone pv)⟩
  cases msg with
  | responseRequested q =>
    obtain ⟨rfl, rfl | ⟨b, t, rfl⟩⟩ := next_responseRequested hl
    · exact hkeep rfl fun pv => List.not_mem_nil
    · exact hkeep rfl fun pv hpv => by cases List.mem_singleton.mp hpv
  | propose s c =>
    simp only [next, Option.some.injEq] at hl
    have hadd : ∀ x ∈ (self.addProposal (s, c)).proposals,
        x ∈ self.proposals ∨ Message.propose s c = .propose x.1 x.2 := by
      intro x hx
      rcases MapSet.mem_put.mp hx with rfl | hx
      · exact Or.inr rfl
      · exact Or.inl hx
    split_ifs at hl with hexists hactive
    · cases hl
      exact hkeep rfl fun pv => List.not_mem_nil
    · cases hl
      exact ⟨fun x hx => (hadd x hx).imp_right Or.inl, fun pv hpv => absurd hpv List.not_mem_nil⟩
    · cases hl
      refine ⟨fun x hx => (hadd x hx).imp_right Or.inl, fun pv hpv => ?_⟩
      cases List.mem_singleton.mp hpv
      exact MapSet.mem_put.mpr (Or.inl rfl)
  | proposalChosen =>
    cases Option.some.inj hl
    obtain ⟨t, ht⟩ := decreaseTimeout_eq cfg self
    rw [ht]
    exact hkeep rfl fun pv => List.not_mem_nil
  | adopted b pvs =>
    simp only [next, Option.some.injEq] at hl
    split_ifs at hl with hballot
    · cases hl
      exact hkeep rfl fun pv => List.not_mem_nil
    · cases hl
      refine ⟨fun x hx => ?_, fun pv hpv => ?_⟩
      · rcases mem_updateProposals.mp hx with hx | ⟨hx, -⟩
        · obtain ⟨pv, hpv, heq, -⟩ := mem_pmax.mp hx
          exact Or.inr (Or.inr ⟨b, pvs, rfl, pv, hpv, heq⟩)
        · exact Or.inl hx
      · obtain ⟨x, hx, heq⟩ := List.mem_map.mp hpv
        cases heq
        exact hx
  | preempted b =>
    have hpre : self.preempted cfg b = (l, es) := Option.some.inj hl
    unfold preempted sendDetector at hpre
    split at hpre
    · split_ifs at hpre <;> cases hpre
      · exact hkeep rfl fun pv => List.not_mem_nil
      · exact hkeep rfl fun pv hpv => by cases List.mem_singleton.mp hpv
    · split_ifs at hpre <;> cases hpre
      · exact hkeep rfl fun pv => List.not_mem_nil
      · exact hkeep rfl fun pv hpv => by cases List.mem_singleton.mp hpv
    all_goals
      cases hpre
      refine hkeep rfl fun pv hpv => ?_
      split at hpv
      · cases List.mem_singleton.mp hpv
      · exact absurd hpv List.not_mem_nil
  | preempt b =>
    simp only [next, Option.some.injEq] at hl
    obtain ⟨t, ht⟩ := increaseTimeout_eq cfg self
    split_ifs at hl <;> cases hl
    · exact hkeep rfl fun pv => List.not_mem_nil
    · rw [ht]
      exact hkeep rfl fun pv hpv => by cases List.mem_singleton.mp hpv
  | _ => cases hl

theorem Leader.next_genuine {self l : Leader P} {msg : Message P} {es : List (Effect P)}
    (h : ∀ s c, (s, c) ∈ self.proposals → Genuine Asked s c) (hmsg : msg.Genuine Asked)
    (hl : self.next cfg msg = some (l, es)) :
    (∀ s c, (s, c) ∈ l.proposals → Genuine Asked s c) ∧ ∀ e ∈ es, e.Genuine Asked := by
  obtain ⟨hfrom, hspawn⟩ := next_proposals hl
  have hproposals : ∀ s c, (s, c) ∈ l.proposals → Genuine Asked s c := by
    intro s c hsc
    rcases hfrom _ hsc with hold | rfl | ⟨b, pvs, rfl, pv, hpv, heq⟩
    · exact h s c hold
    · exact hmsg
    · cases heq
      exact hmsg pv hpv
  refine ⟨hproposals, fun e he => ?_⟩
  cases e with
  | send dst m => rcases next_sends hl he with ⟨b, t, rfl⟩ | ⟨b, rfl⟩ <;> exact trivial
  | spawnScout b => exact trivial
  | spawnCommander pv => exact hproposals _ _ (hspawn pv he)

/-! ## The replica -/

namespace Replica

variable {r : Replica P}

theorem Genuine.withdraw (h : r.Genuine Asked) {c : Command P} {proposal : ℕ × Command P}
    (hproposal : proposal ∈ r.proposals) : (r.withdraw c proposal).Genuine Asked := by
  have hremove : (r.removeProposal proposal).Genuine Asked :=
    { h with proposals := fun s d hd => h.proposals s d (MapSet.mem_delete.mp hd).2 }
  unfold Replica.withdraw
  simp only
  split_ifs
  · refine { hremove with requests := fun d hd => ?_ }
    rcases MapSet.mem_put.mp hd with rfl | hd
    · exact (h.proposals _ _ hproposal).2
    · exact h.requests d hd
  · exact hremove

theorem Genuine.perform (h : r.Genuine Asked) (me : P) {c : Command P} (hc : Asked c) :
    (r.perform me c).1.Genuine Asked ∧ ∀ m ∈ (r.perform me c).2, m.2.Genuine Asked := by
  refine ⟨{ h with }, fun m hm => ?_⟩
  unfold Replica.perform at hm
  simp only at hm
  split_ifs at hm
  · simp only [List.mem_cons, List.not_mem_nil, or_false] at hm
    rcases hm with rfl | rfl
    · exact ⟨c, hc, rfl⟩
    · exact hc
  · exact absurd hm List.not_mem_nil

theorem Genuine.processPendingDecisions (me : P) : ∀ (fuel : ℕ) {r : Replica P},
    r.Genuine Asked → (r.processPendingDecisions cfg me fuel).1.Genuine Asked ∧
      ∀ m ∈ (r.processPendingDecisions cfg me fuel).2, m.2.Genuine Asked
  | 0, _, h => ⟨h, fun m hm => absurd hm List.not_mem_nil⟩
  | fuel + 1, r, h => by
    have hround : ∀ {r' : Replica P} {c : Command P}, r'.Genuine Asked → Asked c →
        ((r'.perform me c).1.processPendingDecisions cfg me fuel).1.Genuine Asked ∧
          ∀ m ∈ (r'.perform me c).2 ++
            ((r'.perform me c).1.processPendingDecisions cfg me fuel).2, m.2.Genuine Asked := by
      intro r' c h' hc
      obtain ⟨hself, hsends⟩ := h'.perform me hc
      obtain ⟨hself', hsends'⟩ := Genuine.processPendingDecisions me fuel hself
      refine ⟨hself', fun m hm => ?_⟩
      rcases List.mem_append.mp hm with hm | hm
      · exact hsends m hm
      · exact hsends' m hm
    simp only [Replica.processPendingDecisions]
    split
    · exact ⟨h, fun m hm => absurd hm List.not_mem_nil⟩
    · rename_i s c rest hpending
      have hmem : (s, c) ∈ r.getPendingDecisions :=
        (cfg.decisions.perm _).mem_iff.mp (hpending ▸ List.mem_cons_self)
      have hc : Asked c := (h.decisions s c (List.mem_of_mem_filter hmem)).2
      split
      · exact hround h hc
      · rename_i proposal hproposals
        have hmem' : proposal ∈ r.getProposalsForSlot s := hproposals ▸ List.mem_cons_self
        exact hround (h.withdraw (List.mem_of_mem_filter hmem')) hc
      · exact ⟨{ h with }, fun m hm => absurd hm List.not_mem_nil⟩

theorem Genuine.propose (cfg : Config P) : ∀ (fuel : ℕ) {r : Replica P}, r.Genuine Asked →
    (r.propose cfg fuel).1.Genuine Asked ∧ ∀ m ∈ (r.propose cfg fuel).2, m.2.Genuine Asked
  | 0, _, h => ⟨h, fun m hm => absurd hm List.not_mem_nil⟩
  | fuel + 1, r, h => by
    have hleaders : (r.tryToReconfigure cfg).Genuine Asked := by
      unfold Replica.tryToReconfigure
      split
      · exact { h with }
      · exact h
    simp only [Replica.propose]
    split_ifs
    · exact ⟨h, fun m hm => absurd hm List.not_mem_nil⟩
    · exact Genuine.propose cfg fuel { hleaders with slotIn := Nat.le_add_left 1 _ }
    · generalize r.tryToReconfigure cfg = r at hleaders
      split
      · exact ⟨hleaders, fun m hm => absurd hm List.not_mem_nil⟩
      · rename_i c rest hrequests
        have hmem : c ∈ r.requests.elems :=
          (cfg.requests.perm _).mem_iff.mp (hrequests ▸ List.mem_cons_self)
        have hnew : Paxos.Genuine Asked r.slotIn c := ⟨hleaders.slotIn, hleaders.requests c hmem⟩
        have hself : (((r.removeRequest c).addProposal (r.slotIn, c)).incrementSlotIn).Genuine
            Asked := {
          slotIn := Nat.le_add_left 1 _
          requests := fun d hd => hleaders.requests d (MapSet.mem_delete.mp hd).2
          proposals := fun s d hd => by
            rcases MapSet.mem_put.mp hd with heq | hd
            · cases heq
              exact hnew
            · exact hleaders.proposals s d hd
          decisions := hleaders.decisions }
        obtain ⟨hself', hsends'⟩ := Genuine.propose cfg fuel hself
        refine ⟨hself', fun m hm => ?_⟩
        rcases List.mem_append.mp hm with hm | hm
        · obtain ⟨l, -, rfl⟩ := List.mem_map.mp hm
          exact hnew
        · exact hsends' m hm

theorem Genuine.handle (h : r.Genuine Asked) (cfg : Config P) (me : P) {msg : Message P}
    (hmsg : msg.Genuine Asked) : (r.handle cfg me msg).1.Genuine Asked ∧
      ∀ m ∈ (r.handle cfg me msg).2, m.2.Genuine Asked := by
  cases msg with
  | clientRequest c =>
    refine ⟨{ h with requests := fun d hd => ?_ }, fun m hm => absurd hm List.not_mem_nil⟩
    rcases MapSet.mem_put.mp hd with rfl | hd
    · exact hmsg
    · exact h.requests d hd
  | decision s c =>
    refine Genuine.processPendingDecisions me _ { h with decisions := fun s' d hd => ?_ }
    rcases MapSet.mem_put.mp hd with heq | hd
    · cases heq
      exact hmsg
    · exact h.decisions s' d hd
  | _ => exact ⟨h, fun m hm => absurd hm List.not_mem_nil⟩

theorem Genuine.next (h : r.Genuine Asked) (cfg : Config P) (me : P) {msg : Message P}
    (hmsg : msg.Genuine Asked) : (r.next cfg me msg).1.Genuine Asked ∧
      ∀ m ∈ (r.next cfg me msg).2, m.2.Genuine Asked := by
  obtain ⟨hself, hsends⟩ := h.handle cfg me hmsg
  obtain ⟨hself', hsends'⟩ := Genuine.propose cfg ((r.handle cfg me msg).1.proposeFuel cfg) hself
  simp only [Replica.next]
  split_ifs
  · exact ⟨hself, hsends⟩
  · refine ⟨hself', fun m hm => ?_⟩
    rcases List.mem_append.mp hm with hm | hm
    · exact hsends m hm
    · exact hsends' m hm

end Replica

/-! ## Steps -/

namespace State.Genuine

variable {st : State P}

omit [LinearOrder P] in
theorem post (h : st.Genuine Asked) {src : Pid P} {sends : List (Send P)}
    (hsends : ∀ m ∈ sends, m.2.Genuine Asked) : (st.post src sends).Genuine Asked :=
  { h with
    sent := fun e he => by
      rcases List.mem_append.mp he with he | he
      · exact h.sent e he
      · obtain ⟨m, hm, rfl⟩ := List.mem_map.mp he
        exact hsends m hm }

theorem setAcceptor (h : st.Genuine Asked) (p : P) {a : Acceptor P}
    (ha : ∀ pv ∈ a.accepted, pv.Genuine Asked) : (st.setAcceptor p a).Genuine Asked :=
  { h with
    acceptors := fun q => by
      show ∀ pv ∈ (Function.update st.acceptors p a q).accepted, _
      rw [Function.update_apply]
      split_ifs
      · exact ha
      · exact h.acceptors q }

theorem setLeader (h : st.Genuine Asked) (p : P) {l : Leader P}
    (hl : ∀ s c, (s, c) ∈ l.proposals → Paxos.Genuine Asked s c) :
    (st.setLeader p l).Genuine Asked :=
  { h with
    leaders := fun q => by
      show ∀ s c, (s, c) ∈ (Function.update st.leaders p l q).proposals → _
      rw [Function.update_apply]
      split_ifs
      · exact hl
      · exact h.leaders q }

theorem setReplica (h : st.Genuine Asked) (p : P) {r : Replica P} (hr : r.Genuine Asked) :
    (st.setReplica p r).Genuine Asked :=
  { h with
    replicas := fun q => by
      show (Function.update st.replicas p r q).Genuine Asked
      rw [Function.update_apply]
      split_ifs
      · exact hr
      · exact h.replicas q }

theorem setDetector (h : st.Genuine Asked) (p : P) (d : FailureDetector P) :
    (st.setDetector p d).Genuine Asked :=
  { h with }

omit [LinearOrder P] in
theorem setScout (h : st.Genuine Asked) (k : ℕ) {sc : Scout P}
    (hsc : ∀ pv ∈ sc.pvalues, pv.Genuine Asked) : (st.setScout k sc).Genuine Asked :=
  { h with
    scouts := fun sc' hsc' => by
      rcases List.mem_or_eq_of_mem_set hsc' with hold | rfl
      · exact h.scouts sc' hold
      · exact hsc }

omit [LinearOrder P] in
theorem setCommander (h : st.Genuine Asked) (k : ℕ) {c : Commander P}
    (hc : c.pvalue.Genuine Asked) : (st.setCommander k c).Genuine Asked :=
  { h with
    commanders := fun c' hc' => by
      rcases List.mem_or_eq_of_mem_set hc' with hold | rfl
      · exact h.commanders c' hold
      · exact hc }

omit [LinearOrder P] in
theorem spawnScout (h : st.Genuine Asked) (p : P) (b : BallotNumber P) :
    (st.spawnScout cfg p b).Genuine Asked := by
  let mid : State P := { st with scouts := st.scouts ++ [Scout.start p cfg.servers b] }
  have hmid : mid.Genuine Asked :=
    { h with
      scouts := fun sc hsc => by
        rcases List.mem_append.mp hsc with hsc | hsc
        · exact h.scouts sc hsc
        · obtain rfl := List.mem_singleton.mp hsc
          exact fun pv hpv => absurd hpv (MapSet.not_mem_empty _) }
  refine hmid.post fun m hm => ?_
  obtain ⟨a, -, rfl⟩ := List.mem_map.mp hm
  exact trivial

omit [LinearOrder P] in
theorem spawnCommander (h : st.Genuine Asked) (p : P) {pv : Pvalue P} (hpv : pv.Genuine Asked) :
    (st.spawnCommander cfg p pv).Genuine Asked := by
  let mid : State P :=
    { st with commanders := st.commanders ++ [Commander.start p cfg.servers cfg.servers pv] }
  have hmid : mid.Genuine Asked :=
    { h with
      commanders := fun c hc => by
        rcases List.mem_append.mp hc with hc | hc
        · exact h.commanders c hc
        · obtain rfl := List.mem_singleton.mp hc
          exact hpv }
  refine hmid.post fun m hm => ?_
  obtain ⟨a, -, rfl⟩ := List.mem_map.mp hm
  exact hpv

omit [LinearOrder P] in
theorem effects (p : P) {es : List (Effect P)} (hes : ∀ e ∈ es, e.Genuine Asked)
    (h : st.Genuine Asked) : (st.effects cfg p es).Genuine Asked := by
  induction es generalizing st with
  | nil => exact h
  | cons e es ih =>
    have he := hes e List.mem_cons_self
    refine ih (fun x hx => hes x (List.mem_cons_of_mem _ hx)) ?_
    cases e with
    | send dst msg =>
      refine h.post fun m hm => ?_
      obtain rfl := List.mem_singleton.mp hm
      exact he
    | spawnScout b => exact h.spawnScout p b
    | spawnCommander pv => exact h.spawnCommander p he

end State.Genuine

/-- **A step passes on what was asked for.** -/
theorem Step.genuine {st st' : State P} {a : Action P} (h : Step cfg st a st') (hnet : NetSent st)
    (hg : st.Genuine Asked) (hasked : ∀ r c, a = .request r c → Asked c) :
    st'.Genuine Asked := by
  have hflight : ∀ {i : ℕ} {e : Envelope P}, st.net[i]? = some e → e.msg.Genuine Asked :=
    fun hi => hg.sent _ (hnet _ (List.mem_of_getElem? hi))
  have htake : ∀ {i : ℕ} {e : Envelope P}, (st.take i e).Genuine Asked :=
    fun {_ _} => { hg with }
  cases h with
  | acceptor hi =>
    obtain ⟨hself, hsends⟩ := Acceptor.next_genuine (hg.acceptors _) (hflight hi) _
    exact (htake.setAcceptor _ hself).post hsends
  | leader hi _ _ hl =>
    obtain ⟨hself, heffects⟩ := Leader.next_genuine (hg.leaders _) (hflight hi) hl
    exact (htake.setLeader _ hself).effects _ heffects
  | replica hi =>
    obtain ⟨hself, hsends⟩ := (hg.replicas _).next cfg _ (hflight hi)
    exact (htake.setReplica _ hself).post hsends
  | detector hi _ _ hd =>
    refine (htake.setDetector _ _).post fun m hm => ?_
    rw [(detectorNext_sends hd).2 m hm]
    exact trivial
  | scout hi _ _ hk _ hs =>
    obtain ⟨hself, hsends⟩ :=
      Scout.next_genuine (hg.scouts _ (List.mem_of_getElem? hk)) (hflight hi) hs
    exact (htake.setScout _ hself).post hsends
  | commander hi _ _ hk _ hc =>
    obtain ⟨hself, hsends⟩ :=
      Commander.next_genuine (hg.commanders _ (List.mem_of_getElem? hk)) hc
    exact (htake.setCommander _ hself).post hsends
  | @timeout p d sends hd =>
    refine (hg.setDetector p d).post fun m hm => ?_
    unfold FailureDetector.timedOut at hd
    split_ifs at hd
    cases hd
    obtain rfl := List.mem_singleton.mp hm
    exact trivial
  | @request r c =>
    refine hg.post fun m hm => ?_
    obtain rfl := List.mem_singleton.mp hm
    exact hasked r c rfl
  | crash => exact { hg with }

/-! ## Runs -/

omit [LinearOrder P] in
theorem genuine_init : (init cfg).Genuine Asked := by
  refine init_induction ?_ fun st p h => h.spawnScout p _
  exact {
    acceptors := fun a pv hpv => absurd hpv (MapSet.not_mem_empty _)
    leaders := fun p s c hc => absurd hc (MapSet.not_mem_empty _)
    replicas := fun p => {
      slotIn := Nat.le_refl 1
      requests := fun c hc => absurd hc (MapSet.not_mem_empty _)
      proposals := fun s c hc => absurd hc (MapSet.not_mem_empty _)
      decisions := fun s c hc => absurd hc (MapSet.not_mem_empty _) }
    scouts := fun sc hsc => absurd hsc List.not_mem_nil
    commanders := fun c hc => absurd hc List.not_mem_nil
    sent := fun e he => absurd he List.not_mem_nil }

omit [LinearOrder P] in
theorem netSent_init : NetSent (init cfg) :=
  init_induction (fun _ he => absurd he List.not_mem_nil) fun _ _ h => h.post rfl rfl

/-- A client asked for the command in the run. -/
def Requested (as : List (Action P)) (c : Command P) : Prop := ∃ r, .request r c ∈ as

theorem genuine_run {as : List (Action P)} {st : State P} (h : Reaches cfg as st) :
    NetSent st ∧ st.Genuine (Requested as) := by
  have hstep : ∀ st a st', NetSent st ∧ st.Genuine (Requested as) →
      (∀ r c, a = .request r c → Requested as c) → step cfg st a = some st' →
      NetSent st' ∧ st'.Genuine (Requested as) := by
    rintro st a st' ⟨hnet, hg⟩ hasked hstep
    have hstep := Step.of_step hstep
    exact ⟨hstep.netSent hnet, hstep.genuine hnet hg hasked⟩
  refine Run.invariant_of_forall hstep (fun a ha r c heq => ?_) ⟨netSent_init, genuine_init⟩ h
  exact ⟨r, heq ▸ ha⟩

/-- **Validity.** In every mode, whatever the interleaving: a decision is for a slot from 1 on and
decides a command that a client asked for, and a database is sent the operation of such a
command. -/
theorem decided_asked {as : List (Action P)} {st : State P} (h : Reaches cfg as st) :
    (∀ e ∈ st.sent, ∀ s c, e.msg = .decision s c → 1 ≤ s ∧ ∃ r, .request r c ∈ as) ∧
      ∀ e ∈ st.sent, ∀ op, e.msg = .execute op → ∃ r c, .request r c ∈ as ∧ c.op = op := by
  obtain ⟨-, hg⟩ := genuine_run h
  refine ⟨fun e he s c hmsg => ?_, fun e he op hmsg => ?_⟩
  · have hmsg' := hg.sent e he
    rw [hmsg] at hmsg'
    exact hmsg'
  · have hmsg' := hg.sent e he
    rw [hmsg] at hmsg'
    obtain ⟨c, ⟨r, hr⟩, hop⟩ := hmsg'
    exact ⟨r, c, hr, hop⟩

theorem decided_asked_decidingRun : ∃ st, Reaches (sample 2 .noLiveness) decidingRun st ∧
    decides st 1 (transfer 1) = true ∧
    (∀ e ∈ st.sent, ∀ s c, e.msg = .decision s c → 1 ≤ s ∧ ∃ r, .request r c ∈ decidingRun) ∧
    ∀ e ∈ st.sent, ∀ op, e.msg = .execute op →
      ∃ r c, .request r c ∈ decidingRun ∧ c.op = op := by
  have hrun : (Run.run (step (sample 2 .noLiveness)) (init (sample 2 .noLiveness)) decidingRun).any
      (fun st => decides st 1 (transfer 1)) = true := by decide +kernel
  obtain ⟨st, hst, hdec⟩ := (Option.any_eq_true _ _).mp hrun
  exact ⟨st, hst, hdec, decided_asked hst⟩

end DocMachine.Paxos
