import DocMachine.Paxos.Agreement

/-!
# Preemption by a higher ballot

A `:PREEMPTED` should carry a ballot above the one its sender works for, promised by some acceptor
(`PreemptedByHigher`): `scout.ex` (33-64), `commander.ex` (29-61) and `acceptor.ex` (26-46) of
`consensus/lib`.

* Scouts always keep to this, since an acceptor answers a `:p1a` with at least the scout's ballot.
* A commander does not: it gives up on any reply whose ballot differs from its own, and an acceptor
  that has not seen the scout's `:p1a` answers a `:p2a` with a lower ballot, be it the bottom one.
* `AllTraced` follows each reply back to the acceptor that sent it, so that "promised" can be said
  of a ballot in a message.

Results:
* `AllTraced.step`: every step keeps the messages traced.
* `not_preemptedByHigher_of_lowReply`: a low reply makes the commander report itself preempted by
  the low ballot.
* `preemption_iff`: every `:PREEMPTED` of a run carries a ballot above its sender's iff no running
  commander of the run receives a reply with a lower ballot.
-/

namespace DocMachine.Paxos

open DocMachine.Lib

variable {P : Type}

/-- The ballot a scout or commander works for. -/
def Synod.ballotOf (sy : Synod P) : Pid P → Option (BallotNumber P)
  | .scout k => sy.scouts[k]?.map Scout.ballotNumber
  | .commander k => sy.commanders[k]?.map fun c => c.pvalue.ballotNum
  | _ => none

variable [LinearOrder P] {cfg : Config P} {st st' : State P} {a : Action P}

theorem Grows.ballotOf {sy sy' : Synod P} (g : Grows sy sy') {x : Pid P} {b : BallotNumber P}
    (h : sy.ballotOf x = some b) : sy'.ballotOf x = some b := by
  cases x with
  | scout k =>
    obtain ⟨sc, hk, rfl⟩ := Option.map_eq_some_iff.mp h
    obtain ⟨sc', hk', hb, -⟩ := g.scouts k sc hk
    exact Option.map_eq_some_iff.mpr ⟨sc', hk', hb⟩
  | commander k =>
    obtain ⟨c, hk, rfl⟩ := Option.map_eq_some_iff.mp h
    obtain ⟨c', hk', hpv, -⟩ := g.commanders k c hk
    exact Option.map_eq_some_iff.mpr ⟨c', hk', by rw [hpv]⟩
  | _ => cases h

/-- Every `:PREEMPTED` comes from a worker and carries a higher ballot than the worker's, which
some acceptor has promised. -/
def PreemptedByHigher (st : State P) : Prop :=
  ∀ e ∈ st.sent, ∀ b', e.msg = .preempted b' →
    ∃ b, st.synod.ballotOf e.src = some b ∧ b < b' ∧ ∃ q, b' ≤ (st.acceptors q).ballotNum

/-! ## Requests and replies -/

/-- Where the messages of the two phases come from and go to, and the ballots they carry. -/
def Traced (sy : Synod P) (e : Envelope P) : Prop :=
  match e.msg with
  | .p1a l b => sy.ballotOf l = some b
  | .p1b q b _ => (∃ b₀, sy.ballotOf e.dst = some b₀ ∧ b₀ ≤ b) ∧ b ≤ (sy.acceptors q).ballotNum
  | .p2b q b => b ≤ (sy.acceptors q).ballotNum
  | _ => True

theorem Grows.traced {sy sy' : Synod P} (g : Grows sy sy') {e : Envelope P} (h : Traced sy e) :
    Traced sy' e := by
  obtain ⟨src, dst, msg⟩ := e
  cases msg with
  | p1a l b =>
    have hb : sy.ballotOf l = some b := h
    exact g.ballotOf hb
  | p1b q b r =>
    obtain ⟨⟨b₀, hb₀, hle⟩, hq⟩ := h
    exact ⟨⟨b₀, g.ballotOf hb₀, hle⟩, hq.trans (g.ballots q)⟩
  | p2b q b =>
    have hq : b ≤ (sy.acceptors q).ballotNum := h
    exact hq.trans (g.ballots q)
  | _ => exact True.intro

/-- Every message sent is traced. -/
def AllTraced (st : State P) : Prop := ∀ e ∈ st.sent, Traced st.synod e

theorem AllTraced.post (h : AllTraced st) {src : Pid P} {sends : List (Send P)}
    (hs : ∀ m ∈ sends, Traced st.synod ⟨src, m.1, m.2⟩) : AllTraced (st.post src sends) := by
  intro e he
  rcases List.mem_append.mp he with he | he
  · exact h e he
  · obtain ⟨m, hm, rfl⟩ := List.mem_map.mp he
    exact hs m hm

theorem AllTraced.grow (h : AllTraced st) (g : Grows st.synod st'.synod) (hs : st'.sent = st.sent) :
    AllTraced st' := fun e he => g.traced (h e (hs ▸ he))

theorem AllTraced.spawnScout (h : AllTraced st) (p : P) (b : BallotNumber P) :
    AllTraced (st.spawnScout cfg p b) := by
  let mid : State P := { st with scouts := st.scouts ++ [Scout.start p cfg.servers b] }
  have hmid : AllTraced mid := h.grow (Grows.spawnScout st p b) rfl
  refine hmid.post fun m hm => ?_
  obtain ⟨q, -, rfl⟩ := List.mem_map.mp hm
  exact Option.map_eq_some_iff.mpr ⟨_, List.getElem?_concat_length, rfl⟩

theorem AllTraced.spawnCommander (h : AllTraced st) (p : P) (pv : Pvalue P) :
    AllTraced (st.spawnCommander cfg p pv) := by
  let mid : State P :=
    { st with commanders := st.commanders ++ [Commander.start p cfg.servers cfg.servers pv] }
  have hmid : AllTraced mid := h.grow (Grows.spawnCommander st p pv) rfl
  refine hmid.post fun m hm => ?_
  obtain ⟨q, -, rfl⟩ := List.mem_map.mp hm
  exact True.intro

theorem AllTraced.effects {p : P} (es : List (Effect P)) (st : State P) (h : AllTraced st)
    (hes : ∀ dst m, .send dst m ∈ es → (∃ b t, m = .stillAlive b t) ∨ ∃ b, m = .ping b) :
    AllTraced (st.effects cfg p es) := by
  induction es generalizing st with
  | nil => exact h
  | cons x es ih =>
    have hx : AllTraced (st.effect cfg p x) := by
      cases x with
      | send dst msg =>
        refine h.post fun m hm => ?_
        obtain rfl := List.mem_singleton.mp hm
        rcases hes dst msg List.mem_cons_self with ⟨b, t, rfl⟩ | ⟨b, rfl⟩ <;> exact True.intro
      | spawnScout b => exact h.spawnScout p b
      | spawnCommander pv => exact h.spawnCommander p pv
    exact ih _ hx fun dst m hm => hes dst m (List.mem_cons_of_mem x hm)

/-- An acceptor answers with the ballot it then has, which is at least that of a `:p1a`. -/
theorem AllTraced.acceptor (h : AllTraced st) {e : Envelope P} (he : e ∈ st.sent) (p : P) :
    AllTraced ((st.setAcceptor p ((st.acceptors p).next p e.msg).1).post (.acceptor p)
      ((st.acceptors p).next p e.msg).2) := by
  have g := Acceptor.next_grows st p e.msg
  have hmid : AllTraced (st.setAcceptor p ((st.acceptors p).next p e.msg).1) := h.grow g rfl
  refine hmid.post fun m hm => ?_
  have hat : (st.setAcceptor p ((st.acceptors p).next p e.msg).1).acceptors p =
      ((st.acceptors p).next p e.msg).1 := Function.update_self _ _ _
  obtain ⟨src, dst, msg⟩ := e
  cases msg with
  | p1a l b =>
    obtain rfl := List.mem_singleton.mp hm
    have hb : st.synod.ballotOf l = some b := h _ he
    refine ⟨⟨b, g.ballotOf hb, ?_⟩, (congrArg Acceptor.ballotNum hat).ge⟩
    rw [Acceptor.adoptBallot_ballotNum]
    exact le_max_right _ _
  | p2a l pv =>
    obtain rfl := List.mem_singleton.mp hm
    have hb : (st.acceptors p).ballotNum = ((st.acceptors p).next p (.p2a l pv)).1.ballotNum :=
      (Acceptor.acceptPvalue_ballotNum _ _ _).symm
    exact (hb.trans (congrArg Acceptor.ballotNum hat).symm).le
  | _ => exact absurd hm List.not_mem_nil

/-- **Every step keeps the messages traced.** -/
theorem AllTraced.step (h : AllTraced st) (hnet : NetSent st) (hstep : Step cfg st a st') :
    AllTraced st' := by
  have hplain : ∀ {mid : State P} {src : Pid P} {sends : List (Send P)}, AllTraced mid →
      (∀ m ∈ sends, Replica.sendable m.2 = true ∨ (∃ r, m.2 = .responseRequested r)) →
      AllTraced (mid.post src sends) := fun hmid hs => hmid.post fun m hm => by
    obtain ⟨dst, msg⟩ := m
    rcases hs _ hm with hrep | ⟨r, rfl⟩
    · cases msg <;> first | exact True.intro | cases hrep
    · exact True.intro
  cases hstep with
  | @acceptor i p e hi =>
    have htake : AllTraced (st.take i e) := h
    exact htake.acceptor (hnet e (List.mem_of_getElem? hi)) p
  | leader _ _ _ hl => exact AllTraced.effects _ _ h fun dst m hm => Leader.next_sends hl hm
  | replica => exact hplain h fun m hm => Or.inl (Replica.sendable_next m hm)
  | detector _ _ _ hd => exact hplain h fun m hm => Or.inr ⟨_, (detectorNext_sends hd).2 m hm⟩
  | @scout i k e sc sc' sends hi hlive hdst hk hrun hs =>
    have htake : AllTraced (st.take i e) := h
    have hmid := htake.grow (Grows.setScout hk hrun (Scout.next_ballotNumber hs).1) rfl
    refine hmid.post fun m hm => ?_
    rcases Scout.next_sends hs hm with ⟨b, hb⟩ | ⟨b, pvs, hb⟩ <;> rw [Traced, hb] <;>
      exact True.intro
  | @commander i k e c c' sends hi hlive hdst hk hrun hc =>
    have htake : AllTraced (st.take i e) := h
    have hmid := htake.grow
      (Grows.setCommander hk (Commander.next_pvalue hc).1 (Commander.next_pvalue hc).2) rfl
    refine hmid.post fun m hm => ?_
    rcases Commander.next_sends hc hm with ⟨b, hb⟩ | ⟨s, d, hb⟩ | hb <;> rw [Traced, hb] <;>
      exact True.intro
  | timeout hd =>
    refine AllTraced.post h fun m hm => ?_
    unfold FailureDetector.timedOut at hd
    split_ifs at hd
    cases hd
    obtain rfl := List.mem_singleton.mp hm
    exact True.intro
  | request =>
    refine h.post fun m hm => ?_
    obtain rfl := List.mem_singleton.mp hm
    exact True.intro
  | crash => exact h

/-! ## Steps that keep the property -/

/-- The step delivers to a running commander a reply with a ballot below its pvalue's. -/
def lowReply (st : State P) : Action P → Bool
  | .deliver i =>
    match st.net[i]? with
    | some ⟨_, .commander k, .p2b _ b⟩ =>
      st.commanders[k]?.any fun c => !c.exited && b.lessThan c.pvalue.ballotNum
    | _ => false
  | _ => false

theorem lowReply_iff : lowReply st a = true ↔
    ∃ i e k c q b, a = .deliver i ∧ st.net[i]? = some e ∧ e.dst = .commander k ∧
      st.commanders[k]? = some c ∧ c.exited = false ∧ e.msg = .p2b q b ∧
      b < c.pvalue.ballotNum := by
  constructor
  · intro h
    unfold lowReply at h
    split at h
    · split at h
      · rename_i hi
        obtain ⟨c, hk, hc⟩ := (Option.any_eq_true _ _).mp h
        obtain ⟨hrun, hlt⟩ := Bool.and_eq_true_iff.mp hc
        exact ⟨_, _, _, c, _, _, rfl, hi, rfl, hk, by simpa using hrun, rfl, by simpa using hlt⟩
      · cases h
    · cases h
  · rintro ⟨i, ⟨src, dst, msg⟩, k, c, q, b, rfl, hi, rfl, hk, hrun, rfl, hlt⟩
    simp only [lowReply, hi, hk, Option.any_some, hrun, Bool.not_false, Bool.true_and]
    exact BallotNumber.lessThan_iff.mpr hlt

theorem PreemptedByHigher.step (h : PreemptedByHigher st) (htr : AllTraced st) (hnet : NetSent st)
    (hguard : ¬ lowReply st a) (hstep : Step cfg st a st') : PreemptedByHigher st' := by
  have g := hstep.grows
  have htraced : ∀ {i : ℕ} {e : Envelope P}, st.net[i]? = some e → Traced st.synod e :=
    fun hi => htr _ (hnet _ (List.mem_of_getElem? hi))
  intro e he b' hmsg
  rcases hstep.sent_steering he (by rw [hmsg]; rfl) with hold |
    ⟨i, x, k, sc, r, -, hi, hdst, hk, -, hr, hsrc, hm⟩ |
    ⟨i, x, k, c, r, rfl, hi, hdst, hk, hrun, hr, hsrc, hm⟩ | ⟨p, -, hp⟩
  · obtain ⟨b, hb, hlt, q, hq⟩ := h e hold b' hmsg
    exact ⟨b, g.ballotOf hb, hlt, q, hq.trans (g.ballots q)⟩
  · -- a scout: the acceptor had at least its ballot
    obtain ⟨q, b, rs, hx, hcase⟩ := Scout.next_cases hr
    have htx := htraced hi
    rw [Traced, hx] at htx
    obtain ⟨⟨b₀, hb₀, hle⟩, hq⟩ := htx
    have hown : st.synod.ballotOf (.scout k) = some sc.ballotNumber :=
      Option.map_eq_some_iff.mpr ⟨sc, hk, rfl⟩
    rw [hdst, hown] at hb₀
    obtain rfl := Option.some.inj hb₀
    rw [hmsg] at hm
    rcases hcase with ⟨hne, rfl⟩ | ⟨-, rfl⟩ | ⟨-, -, rfl⟩
    · cases congrArg Prod.snd (List.mem_singleton.mp hm)
      rw [hsrc]
      exact ⟨_, g.ballotOf hown, lt_of_le_of_ne hle (Ne.symm hne), q, hq.trans (g.ballots q)⟩
    · exact absurd hm List.not_mem_nil
    · cases congrArg Prod.snd (List.mem_singleton.mp hm)
  · -- a commander: the step is not one with a low reply
    obtain ⟨q, b, hx, hcase⟩ := Commander.next_cases hr
    have htx := htraced hi
    rw [Traced, hx] at htx
    have hown : st.synod.ballotOf (.commander k) = some c.pvalue.ballotNum :=
      Option.map_eq_some_iff.mpr ⟨c, hk, rfl⟩
    rw [hmsg] at hm
    rcases hcase with ⟨hne, rfl⟩ | ⟨-, rfl⟩ | ⟨-, -, rfl⟩
    · cases congrArg Prod.snd (List.mem_singleton.mp hm)
      have hle : c.pvalue.ballotNum ≤ b' := not_lt.mp fun hlt =>
        hguard (lowReply_iff.mpr ⟨i, x, k, c, q, _, rfl, hi, hdst, hk, hrun, hx, hlt⟩)
      rw [hsrc]
      exact ⟨_, g.ballotOf hown, lt_of_le_of_ne hle (Ne.symm hne), q, htx.trans (g.ballots q)⟩
    · exact absurd hm List.not_mem_nil
    · rcases Commander.mem_decisionSends hm with ⟨q, heq⟩ | heq <;> cases congrArg Prod.snd heq
  · cases hmsg.symm.trans hp

/-- A low reply makes the commander report itself preempted by the low ballot. -/
theorem not_preemptedByHigher_of_lowReply (hlow : lowReply st a = true)
    (hstep : step cfg st a = some st') : ¬ PreemptedByHigher st' := by
  obtain ⟨i, e, k, c, q, b, rfl, hi, hdst, hk, hrun, hmsg, hlt⟩ := lowReply_iff.mp hlow
  have g := (Step.of_step hstep).grows
  have hown : st.synod.ballotOf (.commander k) = some c.pvalue.ballotNum :=
    Option.map_eq_some_iff.mpr ⟨c, hk, rfl⟩
  have hnext : c.next cfg.operationMode e.msg =
      some (c.commanderFinished, [(.leader c.leader, .preempted b)]) := by
    have hne : b.equal c.pvalue.ballotNum = false := BallotNumber.equal_eq_false_iff.mpr hlt.ne
    rw [hmsg]
    simp [Commander.next, hne]
  have hsent : ⟨.commander k, .leader c.leader, .preempted b⟩ ∈ st'.sent := by
    rw [step_commander hi hdst hk hrun hnext hstep]
    exact List.mem_append_right _ List.mem_cons_self
  intro hprop
  obtain ⟨b₀, hb₀, hlt', -⟩ := hprop _ hsent b rfl
  obtain rfl := Option.some.inj ((g.ballotOf hown).symm.trans hb₀)
  exact lt_asymm hlt hlt'

/-- **Preemption by a higher ballot, exactly.** Every `:PREEMPTED` of a run carries a ballot
above its sender's iff no running commander of the run receives a reply with a lower ballot. -/
theorem preemption_iff {as : List (Action P)} :
    Run.Always (step cfg) PreemptedByHigher (init cfg) as ↔
      Run.Along (step cfg) (fun st a => ¬ lowReply st a) (init cfg) as := by
  let J : State P → Prop := fun st => PreemptedByHigher st ∧ AllTraced st ∧ NetSent st
  have hgood : ∀ st a st', J st → ¬ lowReply st a → step cfg st a = some st' → J st' := by
    rintro st a st' ⟨hprop, htr, hnet⟩ hguard hstep
    have hst := Step.of_step hstep
    exact ⟨hprop.step htr hnet hguard hst, htr.step hnet hst, hst.netSent hnet⟩
  have hinit : J (init cfg) := by
    have hblank : J (blank cfg) := ⟨fun e he => absurd he List.not_mem_nil,
      fun e he => absurd he List.not_mem_nil, fun e he => absurd he List.not_mem_nil⟩
    refine init_induction hblank fun st p ⟨hprop, htr, hnet⟩ =>
      ⟨fun e he b' hb' => ?_, htr.spawnScout p _, hnet.post rfl rfl⟩
    rcases List.mem_append.mp he with he | he
    · obtain ⟨b, hb, hrest⟩ := hprop e he b' hb'
      exact ⟨b, (Grows.spawnScout st p _).ballotOf hb, hrest⟩
    · obtain ⟨m, hm, rfl⟩ := List.mem_map.mp he
      obtain ⟨q, -, rfl⟩ := List.mem_map.mp hm
      cases hb'
  exact Run.always_iff_along (fun _ h => h.1) hgood
    (fun _ _ _ _ hlow hstep => not_preemptedByHigher_of_lowReply (not_not.mp hlow) hstep) hinit

/-- Leader 0 of three servers is adopted by acceptors 0 and 1, and its commander hears from
acceptor 2 first, which has not seen the `:p1a`. -/
def lowReplyRun : List (Action (Fin 3)) :=
  .request 0 (transfer 1) :: [9, 0, 0, 10, 10, 7, 9, 11, 11].map .deliver

theorem preemption_by_bottom :
    ∃ st, Reaches (sample 3 .simplifiedLiveness) lowReplyRun st ∧ ¬ PreemptedByHigher st := by
  have hrun : (Run.run (step (sample 3 .simplifiedLiveness)) (init (sample 3 .simplifiedLiveness))
      lowReplyRun).any (fun st => st.sent.any fun e => e.msg = .preempted .bottom) = true := by
    decide +kernel
  obtain ⟨st, hst, hany⟩ := (Option.any_eq_true _ _).mp hrun
  obtain ⟨e, he, hmsg⟩ := List.any_eq_true.mp hany
  refine ⟨st, hst, fun hprop => ?_⟩
  obtain ⟨b, -, hlt, -⟩ := hprop e he .bottom (of_decide_eq_true hmsg)
  exact BallotNumber.not_lt_bottom b hlt

end DocMachine.Paxos
