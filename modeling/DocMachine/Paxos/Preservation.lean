import DocMachine.Paxos.Invariant

/-!
# Preservation of the Synod invariant

That a step of the system (`System.lean`) keeps the invariant of `Invariant.lean`, unless it moves
an active leader to another ballot (`consensus/lib/leader.ex`, the `:PREEMPT` branch of `next`
103-229).

* One lemma for each operation on the state says when it keeps `Inv`; a handler is a sequence of
  operations.
* One lemma for each kind of process puts the operations of its handler together, branch by branch
  of the source.
* A scout's ballot is its own: while the scout runs, no pvalue has that ballot
  (`Inv.not_proposed_of_running`). A leader may therefore spawn scouts and commanders without
  looking at the others.

Results:
* `Inv.setAcceptor`, `Inv.setScout`, `Inv.setCommander`, `Inv.setLeader`, `Inv.spawnScout`,
  `Inv.spawnCommander`, `Inv.post`: the operations.
* `Inv.acceptor`, `Inv.scout`, `Inv.commander`, `Inv.leader`: the processes.
* `inv_step`: every step but a raising one keeps the invariant.
* `inv_bind`: so does binding the leaders, one after the other, at the start.
-/

namespace DocMachine.Paxos

open DocMachine.Lib

variable {P : Type} [LinearOrder P] {cfg : Config P} {st : State P}

/-! ## Operations on the state -/

theorem set_eq_self {α : Type} {l : List α} {k : ℕ} {x : α} (hk : l[k]? = some x) :
    l.set k x = l := by
  obtain ⟨hlen, rfl⟩ := List.getElem?_eq_some_iff.mp hk
  exact List.set_getElem_self hlen

/-- Sending keeps the invariant when what is sent is justified. -/
theorem Inv.post (h : Inv cfg st) {src : Pid P} {sends : List (Send P)}
    (hs : ∀ m ∈ sends, MsgOk st.synod ⟨src, m.1, m.2⟩) : Inv cfg (st.post src sends) where
  leaders := h.leaders
  scouts := h.scouts
  scoutBallots := h.scoutBallots
  commanders := h.commanders
  unique := h.unique
  acceptors := h.acceptors
  messages e he := by
    rcases List.mem_append.mp he with he | he
    · exact h.messages e he
    · obtain ⟨m, hm, rfl⟩ := List.mem_map.mp he
      exact hs m hm
  net e he := by
    rcases List.mem_append.mp he with he | he
    · exact List.mem_append_left _ (h.net e he)
    · exact List.mem_append_right _ he

theorem Inv.take (h : Inv cfg st) (i : ℕ) (e : Envelope P) : Inv cfg (st.take i e) :=
  { h with net := fun e' he' => h.net e' (List.mem_of_mem_eraseIdx he') }

theorem Inv.setReplica (h : Inv cfg st) (p : P) (r : Replica P) : Inv cfg (st.setReplica p r) :=
  { h with }

theorem Inv.setDetector (h : Inv cfg st) (p : P) (d : FailureDetector P) :
    Inv cfg (st.setDetector p d) :=
  { h with }

/-- An acceptor may raise its ballot and accept proposed pvalues at its new ballot. -/
theorem Inv.setAcceptor (h : Inv cfg st) {p : P} {a : Acceptor P}
    (hb : (st.acceptors p).ballotNum ≤ a.ballotNum)
    (ha : ∀ pv ∈ (st.acceptors p).accepted, pv ∈ a.accepted)
    (hnew : ∀ pv ∈ a.accepted,
      pv ∈ (st.acceptors p).accepted ∨ (pv.ballotNum = a.ballotNum ∧ Proposed st.synod pv)) :
    Inv cfg (st.setAcceptor p a) := by
  have hupd : ∀ q, (st.setAcceptor p a).acceptors q = if q = p then a else st.acceptors q :=
    fun q => Function.update_apply _ _ _ _
  have g : Grows st.synod (st.setAcceptor p a).synod :=
    Grows.setAcceptor hb ha fun pv hpv => by
      rcases hnew pv hpv with hold | ⟨hpb, -⟩
      · exact Or.inl hold
      · exact Or.inr (hpb ▸ hb)
  exact {
    leaders := fun q => { h.leaders q with
      adopted := fun hact => g.adoptedBy (fun _ hp => hp) ((h.leaders q).adopted hact) }
    scouts := fun sc hsc => g.scoutOk (h.scouts sc hsc)
    scoutBallots := h.scoutBallots
    commanders := fun c hc => g.commanderOk (h.commanders c hc)
    unique := h.unique
    acceptors := fun q => by
      rw [hupd]
      split_ifs with hq
      · intro pv hpv
        rcases hnew pv hpv with hold | ⟨hpb, hprop⟩
        · obtain ⟨hp, hle⟩ := h.acceptors p pv hold
          exact ⟨hp, hle.trans hb⟩
        · exact ⟨hprop, hpb.le⟩
      · exact h.acceptors q
    messages := fun e he => g.msgOk (h.messages e he)
    net := h.net }

/-- A running scout may be replaced by a later state of itself. -/
theorem Inv.setScout (h : Inv cfg st) {k : ℕ} {old new : Scout P} (hk : st.scouts[k]? = some old)
    (hrun : old.exited = false) (hok : ScoutOk cfg st.synod new)
    (hb : new.ballotNumber = old.ballotNumber) : Inv cfg (st.setScout k new) := by
  have g : Grows st.synod (st.setScout k new).synod := Grows.setScout hk hrun hb
  have hmem : ∀ sc ∈ (st.setScout k new).scouts, sc ∈ st.scouts ∨ sc = new :=
    fun sc hsc => List.mem_or_eq_of_mem_set hsc
  exact {
    leaders := fun q => { h.leaders q with
      adopted := fun hact => g.adoptedBy (fun _ hp => hp) ((h.leaders q).adopted hact)
      scouts := fun sc hsc v hv => by
        rcases hmem sc hsc with hsc | rfl
        · exact (h.leaders q).scouts sc hsc v hv
        · rw [hb] at hv ⊢
          exact (h.leaders q).scouts old (List.mem_of_getElem? hk) v hv }
    scouts := fun sc hsc => by
      rcases hmem sc hsc with hsc | rfl
      · exact g.scoutOk (h.scouts sc hsc)
      · exact g.scoutOk hok
    scoutBallots := by
      have hsame : (st.setScout k new).scouts.map Scout.ballotNumber =
          st.scouts.map Scout.ballotNumber := by
        rw [State.setScout, List.map_set, hb]
        exact set_eq_self (by rw [List.getElem?_map, hk]; rfl)
      rw [hsame]
      exact h.scoutBallots
    commanders := fun c hc => g.commanderOk (h.commanders c hc)
    unique := h.unique
    acceptors := fun q => h.acceptors q
    messages := fun e he => g.msgOk (h.messages e he)
    net := h.net }

/-- A commander may be replaced by a later state of itself. -/
theorem Inv.setCommander (h : Inv cfg st) {k : ℕ} {old new : Commander P}
    (hk : st.commanders[k]? = some old) (hok : CommanderOk cfg st.synod new)
    (hpv : new.pvalue = old.pvalue)
    (hmaj : old.majorityAccepted = true → new.majorityAccepted = true) :
    Inv cfg (st.setCommander k new) := by
  have hold := List.mem_of_getElem? hk
  have g : Grows st.synod (st.setCommander k new).synod := Grows.setCommander hk hpv hmaj
  -- every commander has the pvalue of one that was there before
  have hmem : ∀ c ∈ (st.setCommander k new).commanders, ∃ c' ∈ st.commanders,
      c'.pvalue = c.pvalue := by
    intro c hc
    rcases List.mem_or_eq_of_mem_set hc with hc | rfl
    · exact ⟨c, hc, rfl⟩
    · exact ⟨old, hold, hpv.symm⟩
  exact {
    leaders := fun q => { h.leaders q with
      adopted := fun hact => g.adoptedBy (fun _ hp => hp) ((h.leaders q).adopted hact)
      current := fun c hc hb => by
        obtain ⟨c', hc', hpv'⟩ := hmem c hc
        rw [← hpv'] at hb ⊢
        exact (h.leaders q).current c' hc' hb }
    scouts := fun sc hsc => g.scoutOk (h.scouts sc hsc)
    scoutBallots := h.scoutBallots
    commanders := fun c hc => by
      rcases List.mem_or_eq_of_mem_set hc with hc | rfl
      · exact g.commanderOk (h.commanders c hc)
      · exact g.commanderOk hok
    unique := fun c hc c' hc' hb hs => by
      obtain ⟨d, hd, hdpv⟩ := hmem c hc
      obtain ⟨d', hd', hdpv'⟩ := hmem c' hc'
      rw [← hdpv, ← hdpv'] at hb hs ⊢
      exact h.unique d hd d' hd' hb hs
    acceptors := fun q => g.acceptorOk (h.acceptors q)
    messages := fun e he => g.msgOk (h.messages e he)
    net := h.net }

/-- A leader may be replaced by one that is in order. -/
theorem Inv.setLeader (h : Inv cfg st) {p : P} {l : Leader P} (hok : LeaderOk st.synod p l) :
    Inv cfg (st.setLeader p l) :=
  { h with
    leaders := fun q => by
      show LeaderOk st.synod q (Function.update st.leaders p l q)
      rw [Function.update_apply]
      split_ifs with hq
      · exact hq ▸ hok
      · exact h.leaders q }

/-- A leader may spawn a scout for its own ballot if no scout has that ballot yet. -/
theorem Inv.spawnScout (h : Inv cfg st) {p : P} {b : BallotNumber P}
    (hb : b = (st.leaders p).ballotNum) (hfree : ∀ sc ∈ st.scouts, sc.ballotNumber ≠ b) :
    Inv cfg (st.spawnScout cfg p b) := by
  obtain ⟨v, hv⟩ := (h.leaders p).own
  have hown : b = .number v p := hb.trans hv
  let new := Scout.start p cfg.servers b
  let mid : State P := { st with scouts := st.scouts ++ [new] }
  have g : Grows st.synod mid.synod := Grows.spawnScout st p b
  have hmem : ∀ sc ∈ mid.scouts, sc ∈ st.scouts ∨ sc = new := fun sc hsc => by
    rcases List.mem_append.mp hsc with hsc | hsc
    · exact Or.inl hsc
    · exact Or.inr (List.mem_singleton.mp hsc)
  have hmid : Inv cfg mid := {
    leaders := fun q => { h.leaders q with
      adopted := fun hact => g.adoptedBy (fun _ hp => hp) ((h.leaders q).adopted hact)
      scouts := fun sc hsc w hw => by
        rcases hmem sc hsc with hsc | rfl
        · exact (h.leaders q).scouts sc hsc w hw
        · have hqp : q = p := (BallotNumber.number.inj (hw.symm.trans hown)).2
          rw [hqp]
          exact hb.le }
    scouts := fun sc hsc => by
      rcases hmem sc hsc with hsc | rfl
      · exact g.scoutOk (h.scouts sc hsc)
      · exact ⟨rfl, cfg.nodup, ⟨v, hown⟩, fun pv hpv => absurd hpv (MapSet.not_mem_empty pv),
          fun a ha => absurd (cfg.complete a) ha⟩
    scoutBallots := by
      show ((st.scouts ++ [new]).map Scout.ballotNumber).Nodup
      rw [List.map_append, List.map_singleton, ← List.concat_eq_append]
      refine h.scoutBallots.concat fun hmem => ?_
      obtain ⟨sc, hsc, hscb⟩ := List.mem_map.mp hmem
      exact hfree sc hsc hscb
    commanders := fun c hc => g.commanderOk (h.commanders c hc)
    unique := h.unique
    acceptors := fun q => h.acceptors q
    messages := fun e he => g.msgOk (h.messages e he)
    net := h.net }
  refine hmid.post fun m hm => ?_
  obtain ⟨a, -, rfl⟩ := List.mem_map.mp hm
  exact ⟨st.scouts.length, new, rfl, List.getElem?_concat_length, rfl⟩

/-- A leader that has adopted its ballot may spawn a commander for one of its proposals. -/
theorem Inv.spawnCommander (h : Inv cfg st) {p : P} {pv : Pvalue P}
    (hb : pv.ballotNum = (st.leaders p).ballotNum)
    (hprop : pv.proposal ∈ (st.leaders p).proposals)
    (had : AdoptedBy st.synod pv.ballotNum fun pvs =>
      (∃ pv' ∈ pvs, pv'.slotNum = pv.slotNum) → pv.proposal ∈ pmax pvs) :
    Inv cfg (st.spawnCommander cfg p pv) := by
  obtain ⟨v, hv⟩ := (h.leaders p).own
  have hown : pv.ballotNum = .number v p := hb.trans hv
  let new := Commander.start p cfg.servers cfg.servers pv
  let mid : State P := { st with commanders := st.commanders ++ [new] }
  have g : Grows st.synod mid.synod := Grows.spawnCommander st p pv
  have hmem : ∀ c ∈ mid.commanders, c ∈ st.commanders ∨ c = new := fun c hc => by
    rcases List.mem_append.mp hc with hc | hc
    · exact Or.inl hc
    · exact Or.inr (List.mem_singleton.mp hc)
  -- an earlier commander of the same ballot and slot serves a proposal the leader still holds
  have hnew : ∀ c ∈ st.commanders, c.pvalue.ballotNum = pv.ballotNum →
      c.pvalue.slotNum = pv.slotNum → c.pvalue.command = pv.command := by
    intro c hc hcb hcs
    have hcur := (h.leaders p).current c hc (hcb.trans hb)
    refine (h.leaders p).functional pv.slotNum _ _ ?_ hprop
    rw [← hcs]
    exact hcur
  have hmid : Inv cfg mid := {
    leaders := fun q => { h.leaders q with
      adopted := fun hact => g.adoptedBy (fun _ hp => hp) ((h.leaders q).adopted hact)
      current := fun c hc hcb => by
        rcases hmem c hc with hc | rfl
        · exact (h.leaders q).current c hc hcb
        · obtain ⟨w, hw⟩ := (h.leaders q).own
          have hqp : q = p := by
            have hbq : (st.leaders q).ballotNum = pv.ballotNum := hcb.symm
            exact (BallotNumber.number.inj (hw.symm.trans (hbq.trans hown))).2
          rw [hqp]
          exact hprop }
    scouts := fun sc hsc => g.scoutOk (h.scouts sc hsc)
    scoutBallots := h.scoutBallots
    commanders := fun c hc => by
      rcases hmem c hc with hc | rfl
      · exact g.commanderOk (h.commanders c hc)
      · exact ⟨rfl, cfg.nodup, ⟨v, hown⟩, had, fun a ha => absurd (cfg.complete a) ha⟩
    unique := fun c hc c' hc' hcb hcs => by
      rcases hmem c hc with hc | rfl <;> rcases hmem c' hc' with hc' | rfl
      · exact h.unique c hc c' hc' hcb hcs
      · exact hnew c hc hcb hcs
      · exact (hnew c' hc' hcb.symm hcs.symm).symm
      · rfl
    acceptors := fun q => g.acceptorOk (h.acceptors q)
    messages := fun e he => g.msgOk (h.messages e he)
    net := h.net }
  refine hmid.post fun m hm => ?_
  obtain ⟨a, -, rfl⟩ := List.mem_map.mp hm
  exact ⟨st.commanders.length, new, rfl, List.getElem?_concat_length, rfl⟩

/-! ## The processes -/

/-- **An acceptor's step keeps the invariant.** -/
theorem Inv.acceptor (h : Inv cfg st) {p : P} {src : Pid P} {msg : Message P}
    (hmsg : MsgOk st.synod ⟨src, .acceptor p, msg⟩) :
    Inv cfg ((st.setAcceptor p ((st.acceptors p).next p msg).1).post (.acceptor p)
      ((st.acceptors p).next p msg).2) := by
  have hself : Inv cfg (st.setAcceptor p (st.acceptors p)) :=
    h.setAcceptor le_rfl (fun _ hpv => hpv) (fun _ hpv => Or.inl hpv)
  cases msg with
  | p1a l b =>
    obtain ⟨k, sc, rfl, hk, rfl⟩ := hmsg
    let a := (st.acceptors p).adoptBallotIfGreaterThanCurrent sc.ballotNumber
    have hset : Inv cfg (st.setAcceptor p a) :=
      h.setAcceptor (by simp [a]) (fun pv hpv => by simpa [a] using hpv)
        (fun pv hpv => Or.inl (by simpa [a] using hpv))
    have hat : (st.setAcceptor p a).acceptors p = a := Function.update_self _ _ _
    refine hset.post fun m hm => ?_
    obtain rfl := List.mem_singleton.mp hm
    have hacc := hset.acceptors p
    refine ⟨⟨k, sc, rfl, hk, by simp⟩, ?_, fun pv hpv _ => ?_, fun pv hpv => ?_⟩
    · show a.ballotNum ≤ ((st.setAcceptor p a).acceptors p).ballotNum
      rw [hat]
    · change pv ∈ ((st.setAcceptor p a).acceptors p).accepted at hpv
      rwa [hat] at hpv
    · rw [hat] at hacc
      exact hacc pv hpv
  | p2a l pv =>
    obtain ⟨k, c, rfl, hk, rfl⟩ := hmsg
    let a := (st.acceptors p).acceptPvalueIfBallotMatches c.pvalue.ballotNum c.pvalue
    have hset : Inv cfg (st.setAcceptor p a) := by
      refine h.setAcceptor (by simp [a]) (fun pv hpv => Acceptor.mem_acceptPvalue.mpr (Or.inr hpv))
        (fun pv hpv => ?_)
      rcases Acceptor.mem_acceptPvalue.mp hpv with ⟨rfl, heq⟩ | hold
      · exact Or.inr ⟨by simpa [a] using heq, c, List.mem_of_getElem? hk, rfl⟩
      · exact Or.inl hold
    have hat : (st.setAcceptor p a).acceptors p = a := Function.update_self _ _ _
    refine hset.post fun m hm => ?_
    obtain rfl := List.mem_singleton.mp hm
    refine ⟨k, c, rfl, hk, fun hb => ?_⟩
    show c.pvalue ∈ ((st.setAcceptor p a).acceptors p).accepted
    rw [hat]
    exact Acceptor.mem_acceptPvalue.mpr (Or.inl ⟨rfl, hb.symm⟩)
  | _ => exact hself.post fun m hm => absurd hm List.not_mem_nil

theorem Inv.scout_unique (h : Inv cfg st) {sc sc' : Scout P} (hsc : sc ∈ st.scouts)
    (hsc' : sc' ∈ st.scouts) (hb : sc.ballotNumber = sc'.ballotNumber) : sc = sc' :=
  List.inj_on_of_nodup_map h.scoutBallots hsc hsc' hb

/-- While the scout of a ballot runs, no pvalue has that ballot. -/
theorem Inv.not_proposed_of_running (h : Inv cfg st) {sc : Scout P} (hsc : sc ∈ st.scouts)
    (hrun : sc.exited = false) {pv : Pvalue P} (hpv : Proposed st.synod pv) :
    pv.ballotNum ≠ sc.ballotNumber := by
  rintro hb
  obtain ⟨c, hc, rfl⟩ := hpv
  obtain ⟨sc', hsc', hex, -, hb', -⟩ := (h.commanders c hc).adopted
  obtain rfl := h.scout_unique hsc hsc' (hb.symm.trans hb'.symm)
  rw [hrun] at hex
  exact Bool.false_ne_true hex

/-- **A scout's step keeps the invariant.** -/
theorem Inv.scout (h : Inv cfg st) {k : ℕ} {sc : Scout P} (hk : st.scouts[k]? = some sc)
    (hrun : sc.exited = false) {src : Pid P} {msg : Message P} {r : Scout P × List (Send P)}
    (hmsg : MsgOk st.synod ⟨src, .scout k, msg⟩) (hr : sc.next msg = some r) :
    Inv cfg ((st.setScout k r.1).post (.scout k) r.2) := by
  have hsc := List.mem_of_getElem? hk
  have hok := h.scouts sc hsc
  obtain ⟨a, b, rs, rfl, hcase⟩ := Scout.next_cases hr
  obtain ⟨-, hle, hknown, hrs⟩ := hmsg
  have hheard : b = sc.ballotNumber →
      ScoutOk cfg st.synod ((sc.removeAcceptorFromWaitfor a).addPvalues rs) := fun hb => {
    acceptors := hok.acceptors
    waitfor := hok.waitfor.erase a
    own := hok.own
    pvalues := fun pv hpv => by
      rcases MapSet.mem_union.mp hpv with hold | hnew
      · exact hok.pvalues pv hold
      · obtain ⟨hprop, hlepv⟩ := hrs pv hnew
        exact ⟨hprop, lt_of_le_of_ne (hb ▸ hlepv) (h.not_proposed_of_running hsc hrun hprop)⟩
    heard := fun x hx => by
      by_cases hxa : x = a
      · subst hxa
        exact ⟨hb ▸ hle, fun pv hpv hlt => MapSet.mem_union.mpr (Or.inr (hknown pv hpv (hb ▸ hlt)))⟩
      · have hxw : x ∉ sc.waitfor := fun hin => hx ((List.mem_erase_of_ne hxa).mpr hin)
        obtain ⟨h1, h2⟩ := hok.heard x hxw
        exact ⟨h1, fun pv hpv hlt => MapSet.mem_union.mpr (Or.inl (h2 pv hpv hlt))⟩ }
  rcases hcase with ⟨-, rfl⟩ | ⟨hb, rfl⟩ | ⟨hb, hmaj, rfl⟩
  · -- preempted by another ballot
    have hfin : ScoutOk cfg st.synod sc.scoutFinished := { hok with }
    refine (h.setScout hk hrun hfin rfl).post fun m hm => ?_
    obtain rfl := List.mem_singleton.mp hm
    exact True.intro
  · exact (h.setScout hk hrun (hheard hb) rfl).post fun m hm => absurd hm List.not_mem_nil
  · have hfin : ScoutOk cfg st.synod
        ((sc.removeAcceptorFromWaitfor a).addPvalues rs).scoutFinished := { hheard hb with }
    refine (h.setScout hk hrun hfin rfl).post fun m hm => ?_
    obtain rfl := List.mem_singleton.mp hm
    exact ⟨_, List.mem_set (List.getElem?_eq_some_iff.mp hk).1 _, rfl, hmaj, rfl, rfl⟩

/-- **A commander's step keeps the invariant.** -/
theorem Inv.commander (h : Inv cfg st) {k : ℕ} {c : Commander P} (hk : st.commanders[k]? = some c)
    {src : Pid P} {msg : Message P} {r : Commander P × List (Send P)}
    (hmsg : MsgOk st.synod ⟨src, .commander k, msg⟩)
    (hr : c.next cfg.operationMode msg = some r) :
    Inv cfg ((st.setCommander k r.1).post (.commander k) r.2) := by
  have hok := h.commanders c (List.mem_of_getElem? hk)
  obtain ⟨a, b, rfl, hcase⟩ := Commander.next_cases hr
  obtain ⟨k', c', hkk, hk', himp⟩ := hmsg
  obtain rfl := Pid.commander.inj hkk
  obtain rfl : c = c' := Option.some.inj (hk.symm.trans hk')
  have hheard : b = c.pvalue.ballotNum →
      CommanderOk cfg st.synod (c.removeAcceptorFromWaitfor a) := fun hb => {
    acceptors := hok.acceptors
    waitfor := hok.waitfor.erase a
    own := hok.own
    adopted := hok.adopted
    heard := fun x hx => by
      by_cases hxa : x = a
      · subst hxa
        exact himp hb
      · exact hok.heard x fun hin => hx ((List.mem_erase_of_ne hxa).mpr hin) }
  rcases hcase with ⟨-, rfl⟩ | ⟨hb, rfl⟩ | ⟨hb, hmaj, rfl⟩
  · -- preempted by another ballot
    have hfin : CommanderOk cfg st.synod c.commanderFinished := { hok with }
    refine (h.setCommander hk hfin rfl id).post fun m hm => ?_
    obtain rfl := List.mem_singleton.mp hm
    exact True.intro
  · exact (h.setCommander hk (hheard hb) rfl (Commander.majorityAccepted_remove a)).post
      fun m hm => absurd hm List.not_mem_nil
  · have hfin : CommanderOk cfg st.synod (c.removeAcceptorFromWaitfor a).commanderFinished :=
      { hheard hb with }
    refine (h.setCommander hk hfin rfl (Commander.majorityAccepted_remove a)).post fun m hm => ?_
    rcases Commander.mem_decisionSends hm with ⟨q, rfl⟩ | rfl
    · exact ⟨k, _, List.getElem?_set_self (List.getElem?_eq_some_iff.mp hk).1, rfl, hmaj⟩
    · exact True.intro

/-! ## The leader -/

/-- The ballot a leader's scout or commander works for is at most the leader's own. -/
theorem Inv.commander_le (h : Inv cfg st) {p : P} {c : Commander P} (hc : c ∈ st.commanders)
    {v : ℕ} (hv : c.pvalue.ballotNum = .number v p) :
    c.pvalue.ballotNum ≤ (st.leaders p).ballotNum := by
  obtain ⟨sc, hsc, -, -, hb, -⟩ := (h.commanders c hc).adopted
  rw [← hb] at hv ⊢
  exact (h.leaders p).scouts sc hsc v hv

theorem Inv.onePerBallot (h : Inv cfg st) {pvs : MapSet (Pvalue P)}
    (hpvs : ∀ pv ∈ pvs, Proposed st.synod pv) : OnePerBallot pvs := by
  intro pv hpv pv' hpv' hb hs
  obtain ⟨d, hd, rfl⟩ := hpvs pv hpv
  obtain ⟨d', hd', rfl⟩ := hpvs pv' hpv'
  exact h.unique d hd d' hd' hb hs

/-- A proposal for a free slot. -/
theorem Inv.propose (h : Inv cfg st) {p : P} {s : ℕ} {c : Command P}
    (hfree : (st.leaders p).existsProposalFor s = false) :
    Inv cfg (st.setLeader p ((st.leaders p).addProposal (s, c))) := by
  have hok := h.leaders p
  have hnone : ∀ c', (s, c') ∉ (st.leaders p).proposals := fun c' hc' => by
    rw [Leader.existsProposalFor_iff.mpr ⟨c', hc'⟩] at hfree
    exact Bool.true_eq_false_eq_False hfree
  refine h.setLeader ⟨hok.own, fun s' c₁ c₂ h₁ h₂ => ?_, fun hact => ?_, hok.scouts,
    fun d hd hdb => MapSet.mem_put.mpr (Or.inr (hok.current d hd hdb))⟩
  · rcases MapSet.mem_put.mp h₁ with h₁ | h₁ <;> rcases MapSet.mem_put.mp h₂ with h₂ | h₂
    · rw [(Prod.mk.inj h₁).2, (Prod.mk.inj h₂).2]
    · rw [(Prod.mk.inj h₁).1] at h₂
      exact absurd h₂ (hnone c₂)
    · rw [(Prod.mk.inj h₂).1] at h₁
      exact absurd h₁ (hnone c₁)
    · exact hok.functional s' c₁ c₂ h₁ h₂
  · obtain ⟨sc, hsc, hex, hmaj, hb, hpm⟩ := hok.adopted hact
    exact ⟨sc, hsc, hex, hmaj, hb, fun x hx => MapSet.mem_put.mpr (Or.inr (hpm x hx))⟩

/-- An inactive leader moves to a higher ballot of its own and spawns the scout for it. -/
theorem Inv.raise (h : Inv cfg st) {p : P} {l : Leader P}
    (hprop : l.proposals = (st.leaders p).proposals) (hact : l.active = false)
    (hlt : (st.leaders p).ballotNum < l.ballotNum) (hown : ∃ v, l.ballotNum = .number v p) :
    Inv cfg ((st.setLeader p l).effects cfg p [.spawnScout l.ballotNum]) := by
  have hok := h.leaders p
  obtain ⟨v, hv⟩ := hown
  have hset : Inv cfg (st.setLeader p l) := h.setLeader {
    own := ⟨v, hv⟩
    functional := hprop ▸ hok.functional
    adopted := fun ha => absurd ha (by rw [hact]; exact Bool.false_ne_true)
    scouts := fun sc hsc w hw => (hok.scouts sc hsc w hw).trans hlt.le
    current := fun c hc hcb =>
      absurd (h.commander_le hc (hcb.trans hv)) (not_le.mpr (hcb ▸ hlt)) }
  have hat : (st.setLeader p l).leaders p = l := Function.update_self _ _ _
  refine hset.spawnScout (congrArg Leader.ballotNum hat).symm fun sc hsc hscb => ?_
  exact absurd (hok.scouts sc hsc v (hscb.trans hv)) (not_le.mpr (hscb ▸ hlt))

/-- An active leader may spawn a commander for any of its proposals. -/
theorem Inv.command (h : Inv cfg st) {p : P} (hact : (st.leaders p).active = true)
    {x : ℕ × Command P} (hx : x ∈ (st.leaders p).proposals) :
    Inv cfg (st.spawnCommander cfg p ⟨(st.leaders p).ballotNum, x.1, x.2⟩) := by
  have hok := h.leaders p
  refine h.spawnCommander rfl hx ?_
  obtain ⟨sc, hsc, hex, hmaj, hb, hpm⟩ := hok.adopted hact
  refine ⟨sc, hsc, hex, hmaj, hb, ?_⟩
  rintro ⟨pv, hpv, hs⟩
  obtain ⟨c, hc⟩ := exists_mem_pmax hpv
  have hs' : pv.slotNum = x.1 := hs
  rw [hs'] at hc
  have hcx : c = x.2 := hok.functional x.1 c x.2 (hpm _ hc) hx
  rw [hcx] at hc
  exact hc

/-- Spawning commanders leaves the leaders alone, so an active leader may do it for a list. -/
theorem Inv.commands {p : P} {b : BallotNumber P} (xs : List (ℕ × Command P)) (st : State P)
    (h : Inv cfg st) (hact : (st.leaders p).active = true) (hb : b = (st.leaders p).ballotNum)
    (hxs : ∀ x ∈ xs, x ∈ (st.leaders p).proposals) :
    Inv cfg (st.effects cfg p (xs.map fun x => .spawnCommander ⟨b, x.1, x.2⟩)) := by
  induction xs generalizing st with
  | nil => exact h
  | cons x xs ih =>
    subst hb
    have hx := h.command hact (hxs x List.mem_cons_self)
    exact ih _ hx hact rfl fun y hy => hxs y (List.mem_cons_of_mem x hy)

/-- A leader takes over the pvalues its scout brings back and becomes active. -/
theorem Inv.adopt (h : Inv cfg st) {p : P} {pvs : MapSet (Pvalue P)}
    (had : AdoptedBy st.synod (st.leaders p).ballotNum (· = pvs)) :
    Inv cfg (st.setLeader p
      ((((st.leaders p).updateProposals (pmax pvs)).setPreemptedBy none).activate)) := by
  have hok := h.leaders p
  obtain ⟨sc, hsc, hex, hmaj, hb, rfl⟩ := had
  have hprop : ∀ pv ∈ sc.pvalues, Proposed st.synod pv := fun pv hpv =>
    ((h.scouts sc hsc).pvalues pv hpv).1
  have hone : OnePerSlot ((st.leaders p).updateProposals (pmax sc.pvalues)).proposals :=
    OnePerSlot.updateProposals hok.functional (h.onePerBallot hprop).pmax
  refine h.setLeader ⟨hok.own, hone, fun _ => ?_, hok.scouts, fun c hc hcb => ?_⟩
  · exact ⟨sc, hsc, hex, hmaj, hb, fun x hx => Leader.mem_updateProposals.mpr (Or.inl hx)⟩
  · -- a commander of this ballot was spawned after the same scout
    obtain ⟨sc', hsc', -, -, hb', hpm⟩ := (h.commanders c hc).adopted
    obtain rfl := h.scout_unique hsc hsc' (hb.trans (hcb.symm.trans hb'.symm))
    refine Leader.mem_updateProposals.mpr ?_
    by_cases hslot : ∃ d, (c.pvalue.slotNum, d) ∈ pmax sc.pvalues
    · obtain ⟨d, hd⟩ := hslot
      obtain ⟨pv, hpv, heq, -⟩ := mem_pmax.mp hd
      exact Or.inl (hpm ⟨pv, hpv, (Prod.mk.inj heq).1⟩)
    · exact Or.inr ⟨hok.current c hc hcb, fun d hd => hslot ⟨d, hd⟩⟩

/-- A leader replaced by itself, or by a state that differs in its timeout only. -/
theorem Inv.keepLeader (h : Inv cfg st) {p : P} {l : Leader P}
    (hb : l.ballotNum = (st.leaders p).ballotNum) (hp : l.proposals = (st.leaders p).proposals)
    (hact : l.active = true → (st.leaders p).active = true) : Inv cfg (st.setLeader p l) := by
  have hok := h.leaders p
  refine h.setLeader ⟨hb ▸ hok.own, hp ▸ hok.functional, fun ha => ?_, hb ▸ hok.scouts,
    hb ▸ hp ▸ hok.current⟩
  rw [hb, hp]
  exact hok.adopted (hact ha)

theorem Inv.leader_preempted (h : Inv cfg st) {p : P} (b : BallotNumber P) :
    Inv cfg ((st.setLeader p ((st.leaders p).preempted cfg b).1).effects cfg p
      ((st.leaders p).preempted cfg b).2) := by
  obtain ⟨v, hv⟩ := (h.leaders p).own
  have hraise : (st.leaders p).ballotNum < b → Inv cfg ((st.setLeader p
      ((st.leaders p).updateBallotNumber b.value).deactivate).effects cfg p
      [.spawnScout ((st.leaders p).updateBallotNumber b.value).ballotNum]) := fun hlt =>
    h.raise rfl rfl (Leader.lt_updateBallotNumber hv hlt)
      ⟨b.value + 1, Leader.updateBallotNumber_ballotNum hv _⟩
  have hwatch : Inv cfg ((st.setLeader p
    ((st.leaders p).setPreemptedBy (some b)).deactivate).effects
      cfg p ((st.leaders p).sendDetector (.ping b))) := by
    have hset : Inv cfg (st.setLeader p ((st.leaders p).setPreemptedBy (some b)).deactivate) :=
      h.keepLeader rfl rfl fun ha => absurd ha Bool.false_ne_true
    unfold Leader.sendDetector
    split
    · exact hset.post fun m hm => by
        obtain rfl := List.mem_singleton.mp hm
        exact True.intro
    · exact hset
  unfold Leader.preempted
  split
  · split_ifs with hle
    · exact h.keepLeader rfl rfl id
    · exact hraise (by simpa using hle)
  · split_ifs with hle
    · exact h.keepLeader rfl rfl id
    · exact hraise (by simpa using hle)
  · exact hwatch
  · exact hwatch

/-- **A leader's step keeps the invariant**, unless it moves an active leader to another
ballot. -/
theorem Inv.leader (h : Inv cfg st) {p : P} {src : Pid P} {msg : Message P} {l : Leader P}
    {es : List (Effect P)} (hmsg : MsgOk st.synod ⟨src, .leader p, msg⟩)
    (hguard : ∀ b, msg = .preempt b → (st.leaders p).active = true → b ≤ (st.leaders p).ballotNum)
    (hl : (st.leaders p).next cfg msg = some (l, es)) :
    Inv cfg ((st.setLeader p l).effects cfg p es) := by
  have hself : Inv cfg (st.setLeader p (st.leaders p)) := h.keepLeader rfl rfl id
  have hat : ∀ l, (st.setLeader p l).leaders p = l := fun l => Function.update_self _ _ _
  obtain ⟨v, hv⟩ := (h.leaders p).own
  cases msg with
  | responseRequested r =>
    obtain ⟨rfl, rfl | ⟨b, t, rfl⟩⟩ := Leader.next_responseRequested hl
    · exact hself
    · exact hself.post fun m hm => by
        obtain rfl := List.mem_singleton.mp hm
        exact True.intro
  | propose s c =>
    simp only [Leader.next, Option.some.injEq] at hl
    split at hl
    · cases hl
      exact hself
    · rename_i hfree
      have hset : Inv cfg (st.setLeader p ((st.leaders p).addProposal (s, c))) :=
        h.propose (Bool.not_eq_true _ ▸ hfree)
      split at hl
      · cases hl
        exact hset
      · rename_i hact
        cases hl
        exact Inv.commands [(s, c)] _ hset (by rw [hat]; simpa using hact)
          (congrArg Leader.ballotNum (hat _)).symm fun x hx => by
            obtain rfl := List.mem_singleton.mp hx
            rw [hat]
            exact MapSet.mem_put.mpr (Or.inl rfl)
  | proposalChosen =>
    simp only [Leader.next, Option.some.injEq] at hl
    cases hl
    obtain ⟨t, ht⟩ := (st.leaders p).decreaseTimeout_eq cfg
    rw [ht]
    exact h.keepLeader rfl rfl id
  | adopted b pvs =>
    simp only [Leader.next, Option.some.injEq] at hl
    split at hl
    · cases hl
      exact hself
    · rename_i hb
      cases hl
      have hb' : b = (st.leaders p).ballotNum := by simpa using hb
      have had : AdoptedBy st.synod b (· = pvs) := hmsg
      exact Inv.commands _ _ (h.adopt (hb' ▸ had)) (congrArg Leader.active (hat _))
        (by rw [hat]; exact hb') fun x hx => by
          rw [hat]
          exact hx
  | preempted b =>
    simp only [Leader.next, Option.some.injEq] at hl
    have hstep : Inv cfg ((st.setLeader p ((st.leaders p).preempted cfg b).1).effects cfg p
        ((st.leaders p).preempted cfg b).2) := h.leader_preempted b
    rw [hl] at hstep
    exact hstep
  | preempt b =>
    by_cases hlt : (st.leaders p).ballotNum < b
    · have hidle : (st.leaders p).active = false :=
        Bool.eq_false_iff.mpr fun hact => not_lt.mpr (hguard b rfl hact) hlt
      obtain ⟨l', hnext, hb, hlt', hact, hprop, -⟩ := Leader.next_preempt cfg hv hlt
      obtain ⟨rfl, rfl⟩ := Prod.mk.inj (Option.some.inj (hl.symm.trans hnext))
      exact h.raise hprop (hact.trans hidle) hlt' ⟨_, hb⟩
    · have hle : b.lessOrEqual (st.leaders p).ballotNum = true := by simpa using hlt
      simp only [Leader.next, hle, if_true, Option.some.injEq] at hl
      cases hl
      exact hself
  | _ => cases hl

/-! ## The whole step -/

/-- The step moves an active leader to another ballot: a `:PREEMPT` with a higher ballot reaches
it while it is active. -/
def raisesActive (st : State P) : Action P → Bool
  | .deliver i =>
    match st.net[i]? with
    | some ⟨_, .leader p, .preempt b⟩ =>
      (st.leaders p).active && b.greaterThan (st.leaders p).ballotNum
    | _ => false
  | _ => false

theorem raisesActive_iff {a : Action P} : raisesActive st a = true ↔
    ∃ i e p b, a = .deliver i ∧ st.net[i]? = some e ∧ e.dst = .leader p ∧ e.msg = .preempt b ∧
      (st.leaders p).active = true ∧ (st.leaders p).ballotNum < b := by
  constructor
  · intro h
    unfold raisesActive at h
    split at h
    · split at h
      · rename_i hi
        obtain ⟨hact, hlt⟩ := Bool.and_eq_true_iff.mp h
        exact ⟨_, _, _, _, rfl, hi, rfl, rfl, hact, BallotNumber.greaterThan_iff.mp hlt⟩
      · cases h
    · cases h
  · rintro ⟨i, ⟨src, dst, msg⟩, p, b, rfl, hi, rfl, rfl, hact, hlt⟩
    simp only [raisesActive, hi, hact, Bool.true_and]
    exact BallotNumber.greaterThan_iff.mpr hlt

/-- What replicas, detectors and clients send says nothing about the Synod processes. -/
theorem Inv.send_plain (h : Inv cfg st) {src : Pid P} {sends : List (Send P)}
    (hs : ∀ m ∈ sends, Replica.sendable m.2 = true ∨ (∃ r, m.2 = .responseRequested r) ∨
      (∃ b, m.2 = .preempt b) ∨ ∃ c, m.2 = .clientRequest c) : Inv cfg (st.post src sends) := by
  refine h.post fun m hm => ?_
  obtain ⟨dst, msg⟩ := m
  rcases hs _ hm with hrep | ⟨r, rfl⟩ | ⟨b, rfl⟩ | ⟨c, rfl⟩
  · cases msg <;> first | exact True.intro | cases hrep
  all_goals exact True.intro

/-- **Every step but a raising one keeps the invariant.** -/
theorem inv_step (h : Inv cfg st) {a : Action P} {st' : State P} (hguard : ¬ raisesActive st a)
    (hstep : step cfg st a = some st') : Inv cfg st' := by
  have hmsg : ∀ {i : ℕ} {e : Envelope P} {dst : Pid P}, st.net[i]? = some e → e.dst = dst →
      MsgOk st.synod ⟨e.src, dst, e.msg⟩ := fun hi hdst =>
    hdst ▸ h.messages _ (h.net _ (List.mem_of_getElem? hi))
  cases Step.of_step hstep with
  | acceptor hi _ hdst => exact (h.take _ _).acceptor (hmsg hi hdst)
  | leader hi _ hdst hl =>
    refine (h.take _ _).leader (hmsg hi hdst) (fun b hb hact => ?_) hl
    exact not_lt.mp fun hlt =>
      hguard (raisesActive_iff.mpr ⟨_, _, _, b, rfl, hi, hdst, hb, hact, hlt⟩)
  | replica =>
    exact ((h.take _ _).setReplica _ _).send_plain fun m hm => Or.inl (Replica.sendable_next m hm)
  | detector hi _ hdst hd =>
    exact ((h.take _ _).setDetector _ _).send_plain fun m hm =>
      Or.inr (Or.inl ⟨_, (detectorNext_sends hd).2 m hm⟩)
  | scout hi _ hdst hk hrun hs => exact (h.take _ _).scout hk hrun (hmsg hi hdst) hs
  | commander hi _ hdst hk _ hc => exact (h.take _ _).commander hk (hmsg hi hdst) hc
  | timeout hd =>
    refine (h.setDetector _ _).send_plain fun m hm => ?_
    unfold FailureDetector.timedOut at hd
    split_ifs at hd
    cases hd
    obtain rfl := List.mem_singleton.mp hm
    exact Or.inr (Or.inr (Or.inl ⟨_, rfl⟩))
  | request =>
    refine h.send_plain fun m hm => ?_
    obtain rfl := List.mem_singleton.mp hm
    exact Or.inr (Or.inr (Or.inr ⟨_, rfl⟩))
  | crash => exact { h with }

/-! ## The start -/

theorem inv_blank : Inv cfg (blank cfg) where
  leaders _ := {
    own := ⟨0, rfl⟩
    functional := fun _ _ _ hc => absurd hc (MapSet.not_mem_empty _)
    adopted := fun hact => absurd hact Bool.false_ne_true
    scouts := fun _ hsc => absurd hsc List.not_mem_nil
    current := fun _ hc => absurd hc List.not_mem_nil }
  scouts _ hsc := absurd hsc List.not_mem_nil
  scoutBallots := List.nodup_nil
  commanders _ hc := absurd hc List.not_mem_nil
  unique _ hc := absurd hc List.not_mem_nil
  acceptors _ _ hpv := absurd hpv (MapSet.not_mem_empty _)
  messages _ he := absurd he List.not_mem_nil
  net _ he := absurd he List.not_mem_nil

/-- The leaders are bound one after the other; each finds its first ballot free. -/
theorem inv_bind (ps : List P) (st : State P) (h : Inv cfg st) (hnd : ps.Nodup)
    (hfree : ∀ p ∈ ps, (st.leaders p).ballotNum = .number 0 p ∧
      ∀ sc ∈ st.scouts, sc.ballotNumber ≠ .number 0 p) :
    Inv cfg (ps.foldl (fun st p => st.spawnScout cfg p (st.leaders p).ballotNum) st) := by
  induction ps generalizing st with
  | nil => exact h
  | cons p ps ih =>
    obtain ⟨hp, hps⟩ := List.nodup_cons.mp hnd
    obtain ⟨hb, hsc⟩ := hfree p List.mem_cons_self
    have hbind : Inv cfg (st.spawnScout cfg p (st.leaders p).ballotNum) :=
      h.spawnScout rfl fun sc hmem => hb ▸ hsc sc hmem
    refine ih _ hbind hps fun q hq => ?_
    obtain ⟨hbq, hscq⟩ := hfree q (List.mem_cons_of_mem p hq)
    refine ⟨hbq, fun sc hmem => ?_⟩
    rcases List.mem_append.mp hmem with hold | hnew
    · exact hscq sc hold
    · obtain rfl := List.mem_singleton.mp hnew
      rintro heq
      have hqp : p = q := (BallotNumber.number.inj (hb.symm.trans heq)).2
      exact hp (hqp ▸ hq)

theorem inv_init : Inv cfg (init cfg) :=
  inv_bind _ _ inv_blank cfg.nodup fun _ _ => ⟨rfl, fun _ hsc => absurd hsc List.not_mem_nil⟩

end DocMachine.Paxos
