import DocMachine.Paxos.Preemption

/-!
# Leaders that wait are woken

What an inactive leader waits for in the modes with a failure detector: `leader.ex` (103-229),
`failure_detector.ex` and `simple_failure_detector.ex` of `consensus/lib`.

* It waits for one of three things: its scout, a verdict on its ballot that is in flight
  (`:ADOPTED`, or a `:PREEMPTED` from a scout or commander of that ballot), or the `:PREEMPT` of its
  detector, which it only obeys when the ballot that preempted it is above its own (`Awake`). A
  leader with none of the three is stuck.
* The two modes with a detector take every `:PREEMPTED` at its word, where the modes without one
  ignore a ballot that is not above the leader's. A step `stalls` a leader when such a `:PREEMPTED`
  arrives as the last thing it waits for.

Results:
* `Leader.next_cases`: what a leader with a failure detector can do to the fields that matter here.
* `Awake.step`: every step but a stalling one keeps every leader awake.
* `not_noStuckLeader_of_stalls`: a stalling step leaves a stuck leader.
* `waking_iff`: no state of a run has a stuck leader iff no step of the run stalls; `stuck_leader`
  is one that does.
-/

namespace DocMachine.Paxos

open DocMachine.Lib

variable {P : Type} [LinearOrder P] {cfg : Config P} {st st' : State P} {a : Action P}

/-- A scout runs for ballot `b`. -/
def scouting (st : State P) (b : BallotNumber P) : Bool :=
  st.scouts.any fun sc => !sc.exited && sc.ballotNumber = b

/-- The message tells leader `p` what became of ballot `b`. -/
def verdict (sy : Synod P) (p : P) (b : BallotNumber P) (e : Envelope P) : Bool :=
  e.dst = .leader p &&
    match e.msg with
    | .adopted b' _ => b' = b
    | .preempted _ => sy.ballotOf e.src = some b
    | _ => false

/-- A live leader that is inactive, without a scout for its ballot and without a verdict on it in
flight, was preempted by a higher ballot. -/
def NoStuckLeader (st : State P) : Prop :=
  ∀ p, .leader p ∉ st.crashed → (st.leaders p).active = false →
    scouting st (st.leaders p).ballotNum = false →
    (st.net.all fun e => !verdict st.synod p (st.leaders p).ballotNum e) = true →
    ∃ b, (st.leaders p).preemptedBy = some b ∧ (st.leaders p).ballotNum < b

/-- The step delivers to a leader a `:PREEMPTED` with a ballot not above its own, while no scout
runs for the leader's ballot and no other verdict on it is in flight. -/
def stalls (st : State P) : Action P → Bool
  | .deliver i =>
    match st.net[i]? with
    | some ⟨_, .leader p, .preempted b⟩ =>
      b.lessOrEqual (st.leaders p).ballotNum && !scouting st (st.leaders p).ballotNum &&
        (st.net.eraseIdx i).all fun e => !verdict st.synod p (st.leaders p).ballotNum e
    | _ => false
  | _ => false

/-! ## What a leader waits for -/

/-- Every leader and every scout has a ballot of its own. -/
structure Owned (st : State P) : Prop where
  leaders : ∀ p, ∃ v, (st.leaders p).ballotNum = .number v p
  scouts : ∀ sc ∈ st.scouts, ∃ v, sc.ballotNumber = .number v sc.leader

/-- Leader `p` is active or waits for something that will come. -/
def Awake (st : State P) (p : P) : Prop :=
  (st.leaders p).active = true ∨ scouting st (st.leaders p).ballotNum = true ∨
    (∃ e ∈ st.net, verdict st.synod p (st.leaders p).ballotNum e = true) ∨
    ∃ b, (st.leaders p).preemptedBy = some b ∧ (st.leaders p).ballotNum < b

theorem noStuckLeader_of_awake (h : ∀ p, Awake st p) : NoStuckLeader st := by
  intro p _ hact hscout hnone
  rcases h p with hact' | hscout' | ⟨e, he, hv⟩ | hpre
  · rw [hact] at hact'
    cases hact'
  · rw [hscout] at hscout'
    cases hscout'
  · have hno := List.all_eq_true.mp hnone e he
    rw [hv] at hno
    cases hno
  · exact hpre

theorem scouting_iff {b : BallotNumber P} :
    scouting st b = true ↔ ∃ sc ∈ st.scouts, sc.exited = false ∧ sc.ballotNumber = b := by
  simp [scouting]

theorem Grows.verdict {sy sy' : Synod P} (g : Grows sy sy') {p : P} {b : BallotNumber P}
    {e : Envelope P} (h : Paxos.verdict sy p b e = true) : Paxos.verdict sy' p b e = true := by
  obtain ⟨src, dst, msg⟩ := e
  obtain ⟨hdst, hmsg⟩ := Bool.and_eq_true_iff.mp h
  refine Bool.and_eq_true_iff.mpr ⟨hdst, ?_⟩
  cases msg with
  | preempted b' =>
    have hb : sy.ballotOf src = some b := of_decide_eq_true hmsg
    exact decide_eq_true (g.ballotOf hb)
  | adopted b' pvs => exact hmsg
  | _ => cases hmsg

/-- A leader that a step leaves alone stays awake, if messages to it stay in flight and its scout
leaves a verdict when it exits. -/
theorem Awake.frame {p : P} (h : Awake st p) (g : Grows st.synod st'.synod)
    (hl : st'.leaders p = st.leaders p)
    (hnet : ∀ e ∈ st.net, e.dst = .leader p → e ∈ st'.net)
    (hscout : scouting st (st.leaders p).ballotNum = true →
      scouting st' (st.leaders p).ballotNum = true ∨
        ∃ e ∈ st'.net, verdict st'.synod p (st.leaders p).ballotNum e = true) : Awake st' p := by
  unfold Awake
  rw [hl]
  rcases h with hact | hrun | ⟨e, he, hv⟩ | hpre
  · exact Or.inl hact
  · rcases hscout hrun with hrun' | hv
    · exact Or.inr (Or.inl hrun')
    · exact Or.inr (Or.inr (Or.inl hv))
  · have hdst : e.dst = .leader p := of_decide_eq_true (Bool.and_eq_true_iff.mp hv).1
    exact Or.inr (Or.inr (Or.inl ⟨e, hnet e he hdst, g.verdict hv⟩))
  · exact Or.inr (Or.inr (Or.inr hpre))

omit [LinearOrder P] in
/-- A message in flight that is not the one received stays in flight. -/
theorem mem_take {i : ℕ} {x e : Envelope P} (hi : st.net[i]? = some x) (he : e ∈ st.net)
    (hne : e ≠ x) : e ∈ (st.take i x).net := by
  obtain ⟨j, hj⟩ := List.mem_iff_getElem?.mp he
  refine List.mem_eraseIdx_iff_getElem?.mpr ⟨j, fun hji => hne ?_, hj⟩
  rw [hji] at hj
  exact Option.some.inj (hj.symm.trans hi)

/-! ## Steps -/

theorem Leader.preempted_of_hasDetector (hmode : cfg.operationMode.hasDetector = true)
    {self : Leader P} {b : BallotNumber P} : self.preempted cfg b =
      ((self.setPreemptedBy (some b)).deactivate, self.sendDetector (.ping b)) := by
  unfold preempted
  cases hcfg : cfg.operationMode <;> rw [hcfg] at hmode <;> first | rfl | cases hmode

/-- What a leader with a failure detector can do to the fields that matter here. -/
theorem Leader.next_cases {self l : Leader P} {msg : Message P} {es : List (Effect P)} {v : ℕ}
    {p : P} (hmode : cfg.operationMode.hasDetector = true) (hv : self.ballotNum = .number v p)
    (h : self.next cfg msg = some (l, es)) :
    (l.ballotNum = self.ballotNum ∧ l.active = self.active ∧ l.preemptedBy = self.preemptedBy ∧
        (∀ b, .spawnScout b ∉ es) ∧ (∀ pvs, msg ≠ .adopted self.ballotNum pvs) ∧
        ∀ b, msg ≠ .preempted b) ∨
      (l.ballotNum = self.ballotNum ∧ l.active = true ∧ ∀ b, .spawnScout b ∉ es) ∨
      (∃ b, msg = .preempted b ∧ l.ballotNum = self.ballotNum ∧ l.active = false ∧
        l.preemptedBy = some b ∧ ∀ b, .spawnScout b ∉ es) ∨
      ((∃ w, l.ballotNum = .number w p) ∧ es = [.spawnScout l.ballotNum]) := by
  have hspawn : ∀ b b' (xs : List (ℕ × Command P)),
      .spawnScout b ∉ xs.map fun x => Effect.spawnCommander ⟨b', x.1, x.2⟩ := fun b b' xs hin => by
    obtain ⟨x, -, hx⟩ := List.mem_map.mp hin
    cases hx
  cases msg with
  | responseRequested r =>
    left
    simp only [next, Option.some.injEq] at h
    split at h
    · cases h
      simp
    · split at h <;> cases h <;> simp
  | propose s c =>
    left
    simp only [next, Option.some.injEq] at h
    split_ifs at h <;> cases h <;> simp [addProposal]
  | proposalChosen =>
    left
    obtain ⟨t, ht⟩ := decreaseTimeout_eq cfg self
    cases Option.some.inj h
    rw [ht]
    simp
  | adopted b pvs =>
    simp only [next, Option.some.injEq] at h
    split_ifs at h with hb <;> cases h
    · left
      have hne : b ≠ self.ballotNum := by simpa using hb
      refine ⟨rfl, rfl, rfl, fun _ => List.not_mem_nil, fun pvs' heq => ?_,
        fun b' heq => by cases heq⟩
      exact hne (Message.adopted.inj heq).1
    · exact Or.inr (Or.inl ⟨rfl, rfl, fun _ => hspawn _ _ _⟩)
  | preempted b =>
    right; right; left
    have hnone : ∀ b', .spawnScout b' ∉ self.sendDetector (.ping b) := fun b' hin => by
      unfold sendDetector at hin
      split at hin
      · cases List.mem_singleton.mp hin
      · cases hin
    have heq := Option.some.inj h
    rw [preempted_of_hasDetector hmode] at heq
    obtain ⟨rfl, rfl⟩ := Prod.mk.inj heq
    exact ⟨b, rfl, rfl, rfl, rfl, hnone⟩
  | preempt b =>
    by_cases hlt : self.ballotNum < b
    · obtain ⟨l', hnext, hb, -⟩ := next_preempt cfg hv hlt
      obtain ⟨rfl, rfl⟩ := Prod.mk.inj (Option.some.inj (h.symm.trans hnext))
      exact Or.inr (Or.inr (Or.inr ⟨⟨_, hb⟩, rfl⟩))
    · have hle : b.lessOrEqual self.ballotNum = true := by simpa using hlt
      simp only [next, hle, if_true, Option.some.injEq] at h
      cases h
      left
      simp
  | _ => cases h

/-- A leader's step keeps it awake unless it stalls. -/
theorem Awake.leader (hmode : cfg.operationMode.hasDetector = true) (hown : Owned st)
    {i : ℕ} {p : P} {x : Envelope P} {l : Leader P} {es : List (Effect P)} (h : Awake st p)
    (hi : st.net[i]? = some x) (hdst : x.dst = .leader p)
    (hl : (st.leaders p).next cfg x.msg = some (l, es)) (hguard : ¬ stalls st (.deliver i)) :
    Awake (((st.take i x).setLeader p l).effects cfg p es) p := by
  obtain ⟨v, hv⟩ := hown.leaders p
  have hat : (((st.take i x).setLeader p l).effects cfg p es).leaders p = l := by
    rw [State.effects_leaders]
    exact Function.update_self _ _ _
  have g : Grows st.synod (((st.take i x).setLeader p l).effects cfg p es).synod :=
    Grows.effects p es ((st.take i x).setLeader p l)
  have hrun : ∀ {b}, scouting st b = true →
      scouting (((st.take i x).setLeader p l).effects cfg p es) b = true := fun hb => by
    obtain ⟨sc, hsc, hrest⟩ := scouting_iff.mp hb
    exact scouting_iff.mpr ⟨sc, State.mem_effects_scouts (Or.inl hsc), hrest⟩
  unfold Awake
  rw [hat]
  rcases Leader.next_cases hmode hv hl with ⟨hb, hact, hpre, -, hnad, hnpre⟩ | ⟨-, hact, -⟩ |
    ⟨b, hmsg, hb, -, hpre, -⟩ | ⟨-, rfl⟩
  · -- the message changes nothing that matters, and it is no verdict on the leader's ballot
    rw [hb, hact, hpre]
    rcases h with hact | hscout | ⟨e, he, hverdict⟩ | hpre
    · exact Or.inl hact
    · exact Or.inr (Or.inl (hrun hscout))
    · have hne : e ≠ x := by
        rintro rfl
        obtain ⟨src, dst, msg⟩ := e
        have hm := (Bool.and_eq_true_iff.mp hverdict).2
        cases msg with
        | adopted b' pvs => exact hnad pvs (by rw [of_decide_eq_true hm])
        | preempted b' => exact hnpre b' rfl
        | _ => cases hm
      exact Or.inr (Or.inr (Or.inl ⟨e, State.mem_effects_net (mem_take hi he hne),
        g.verdict hverdict⟩))
    · exact Or.inr (Or.inr (Or.inr hpre))
  · exact Or.inl hact
  · -- preempted: the leader still waits for something, or the ballot is above its own
    rw [hb, hpre]
    obtain ⟨src, dst, msg⟩ := x
    obtain rfl : dst = .leader p := hdst
    obtain rfl : msg = .preempted b := hmsg
    simp only [stalls, hi, Bool.and_eq_true, not_and_or, BallotNumber.lessOrEqual_iff, not_le,
      Bool.not_eq_true', Bool.not_eq_false, List.all_eq_true, not_forall, exists_prop] at hguard
    rcases hguard with (hlt | hscout) | ⟨e, he, hverdict⟩
    · exact Or.inr (Or.inr (Or.inr ⟨b, rfl, hlt⟩))
    · exact Or.inr (Or.inl (hrun hscout))
    · exact Or.inr (Or.inr (Or.inl ⟨e, State.mem_effects_net he, g.verdict hverdict⟩))
  · exact Or.inr (Or.inl (scouting_iff.mpr ⟨_, State.mem_effects_scouts
      (Or.inr ⟨_, List.mem_cons_self, rfl⟩), rfl, rfl⟩))

/-- A scout that exits leaves a verdict on its ballot. -/
theorem scouting_setScout {k : ℕ} {sc sc' : Scout P} {msg : Message P} {sends : List (Send P)}
    {mid : State P} {p : P} {b : BallotNumber P} (hmid : mid.scouts = st.scouts)
    (hleader : sc.ballotNumber = b → sc.leader = p) (hk : st.scouts[k]? = some sc)
    (hs : sc.next msg = some (sc', sends)) (hrun : scouting st b = true) :
    scouting ((mid.setScout k sc').post (.scout k) sends) b = true ∨
      ∃ e ∈ ((mid.setScout k sc').post (.scout k) sends).net,
        verdict ((mid.setScout k sc').post (.scout k) sends).synod p b e = true := by
  have hlen := (List.getElem?_eq_some_iff.mp hk).1
  have hset : (mid.scouts.set k sc')[k]? = some sc' :=
    List.getElem?_set_self (by rw [hmid]; exact hlen)
  obtain ⟨y, hy, hyrun, hyb⟩ := scouting_iff.mp hrun
  obtain ⟨j, hj⟩ := List.mem_iff_getElem?.mp hy
  by_cases hjk : k = j
  · subst hjk
    obtain rfl : sc = y := Option.some.inj (hk.symm.trans hj)
    have hb' : sc'.ballotNumber = b := (Scout.next_ballotNumber hs).1.trans hyb
    have hown : ((mid.setScout k sc').post (.scout k) sends).synod.ballotOf (.scout k) = some b :=
      Option.map_eq_some_iff.mpr ⟨sc', hset, hb'⟩
    obtain ⟨q, b', rs, -, ⟨-, heq⟩ | ⟨-, heq⟩ | ⟨-, -, heq⟩⟩ := Scout.next_cases hs <;>
      obtain ⟨rfl, rfl⟩ := Prod.mk.inj heq
    · refine Or.inr ⟨⟨.scout k, .leader p, .preempted b'⟩, List.mem_append_right _ ?_, ?_⟩
      · rw [hleader hyb]
        exact List.mem_cons_self
      · simp [verdict, hown]
    · exact Or.inl (scouting_iff.mpr ⟨_, List.mem_of_getElem? hset, hyrun, hb'⟩)
    · refine Or.inr ⟨⟨.scout k, .leader p, .adopted sc.ballotNumber (sc.pvalues.union rs)⟩,
        List.mem_append_right _ ?_, ?_⟩
      · rw [hleader hyb]
        exact List.mem_cons_self
      · simp [verdict, hyb]
  · refine Or.inl (scouting_iff.mpr ⟨y, List.mem_of_getElem?
    (?_ : (mid.scouts.set k sc')[j]? = some y),
      hyrun, hyb⟩)
    rw [List.getElem?_set_ne hjk, hmid]
    exact hj

theorem Owned.step (hmode : cfg.operationMode.hasDetector = true) (h : Owned st)
    (hstep : Step cfg st a st') : Owned st' := by
  have hset : ∀ {k : ℕ} {sc sc' : Scout P} {msg : Message P} {sends : List (Send P)},
      st.scouts[k]? = some sc → sc.next msg = some (sc', sends) →
      ∀ y ∈ st.scouts.set k sc', ∃ v, y.ballotNumber = .number v y.leader := by
    intro k sc sc' msg sends hk hs y hy
    rcases List.mem_or_eq_of_mem_set hy with hy | rfl
    · exact h.scouts y hy
    · obtain ⟨hb, hl⟩ := Scout.next_ballotNumber hs
      rw [hb, hl]
      exact h.scouts sc (List.mem_of_getElem? hk)
  cases hstep with
  | @leader i p e l es hi hlive hdst hl =>
    obtain ⟨v, hv⟩ := h.leaders p
    have hown : ∃ w, l.ballotNum = .number w p := by
      rcases Leader.next_cases hmode hv hl with ⟨hb, -⟩ | ⟨hb, -⟩ | ⟨b, -, hb, -⟩ | ⟨hb, -⟩
      · exact ⟨v, hb.trans hv⟩
      · exact ⟨v, hb.trans hv⟩
      · exact ⟨v, hb.trans hv⟩
      · exact hb
    have hspawn : ∀ b, .spawnScout b ∈ es → b = l.ballotNum := by
      intro b hin
      rcases Leader.next_cases hmode hv hl with ⟨-, -, -, hno, -⟩ | ⟨-, -, hno⟩ |
        ⟨_, -, -, -, -, hno⟩ |
        ⟨-, rfl⟩
      · exact absurd hin (hno b)
      · exact absurd hin (hno b)
      · exact absurd hin (hno b)
      · cases List.mem_singleton.mp hin
        rfl
    refine ⟨fun q => ?_, fun sc hsc => ?_⟩
    · rw [State.effects_leaders]
      show ∃ w, (Function.update st.leaders p l q).ballotNum = .number w q
      rw [Function.update_apply]
      split_ifs with hq
      · exact hq ▸ hown
      · exact h.leaders q
    · obtain ⟨k, hk⟩ := List.mem_iff_getElem?.mp hsc
      rcases State.effects_scouts hk with hold | ⟨-, b, hb, rfl⟩
      · exact h.scouts sc (List.mem_of_getElem? hold)
      · obtain ⟨w, hw⟩ := hown
        exact ⟨w, (hspawn b hb).trans hw⟩
  | scout _ _ _ hk _ hs => exact ⟨h.leaders, hset hk hs⟩
  | acceptor | replica | detector | commander | timeout | request | crash =>
    exact ⟨h.leaders, h.scouts⟩

/-- **Every step but a stalling one keeps every leader awake.** -/
theorem Awake.step (hmode : cfg.operationMode.hasDetector = true) (hown : Owned st)
    (h : ∀ p, Awake st p) (hguard : ¬ stalls st a) (hstep : Step cfg st a st') (p : P) :
    Awake st' p := by
  have g := hstep.grows
  have hstay : ∀ {i : ℕ} {x e : Envelope P} {dst : Pid P} {out : List (Envelope P)},
      st.net[i]? = some x → x.dst = dst → dst ≠ .leader p → e ∈ st.net → e.dst = .leader p →
        e ∈ st.net.eraseIdx i ++ out := fun hi hdst hne he hep =>
    List.mem_append_left _ (mem_take hi he fun heq => hne (hdst.symm.trans (heq ▸ hep)))
  cases hstep with
  | @leader i q x l es hi hlive hdst hl =>
    by_cases hqp : q = p
    · subst hqp
      exact (h q).leader hmode hown hi hdst hl hguard
    · refine (h p).frame g ?_ (fun e he hep => State.mem_effects_net (mem_take hi he ?_))
        fun hrun => ?_
      · rw [State.effects_leaders]
        exact Function.update_of_ne (Ne.symm hqp) _ _
      · rintro rfl
        exact hqp (Pid.leader.inj (hdst.symm.trans hep))
      · obtain ⟨sc, hsc, hrest⟩ := scouting_iff.mp hrun
        exact Or.inl (scouting_iff.mpr ⟨sc, State.mem_effects_scouts (Or.inl hsc), hrest⟩)
  | @scout i k x sc sc' sends hi hlive hdst hk hrun hs =>
    refine (h p).frame g rfl (fun e he hep => hstay hi hdst nofun he hep) fun hscout => ?_
    refine scouting_setScout rfl (fun hb => ?_) hk hs hscout
    obtain ⟨v, hv⟩ := hown.leaders p
    obtain ⟨w, hw⟩ := hown.scouts sc (List.mem_of_getElem? hk)
    exact (BallotNumber.number.inj (hw.symm.trans (hb.trans hv))).2
  | acceptor hi _ hdst | replica hi _ hdst | detector hi _ hdst | commander hi _ hdst =>
    exact (h p).frame g rfl (fun e he hep => hstay hi hdst nofun he hep) fun hrun => Or.inl hrun
  | timeout | request =>
    exact (h p).frame g rfl (fun e he _ => List.mem_append_left _ he) fun hrun => Or.inl hrun
  | crash => exact (h p).frame g rfl (fun e he _ => he) fun hrun => Or.inl hrun

theorem stalls_iff : stalls st a = true ↔ ∃ i src p b, a = .deliver i ∧
    st.net[i]? = some ⟨src, .leader p, .preempted b⟩ ∧ b ≤ (st.leaders p).ballotNum ∧
    scouting st (st.leaders p).ballotNum = false ∧
    ((st.net.eraseIdx i).all fun e => !verdict st.synod p (st.leaders p).ballotNum e) = true := by
  constructor
  · intro h
    unfold stalls at h
    split at h
    · split at h
      · rename_i hi
        obtain ⟨hrest, hnone⟩ := Bool.and_eq_true_iff.mp h
        obtain ⟨hle, hscout⟩ := Bool.and_eq_true_iff.mp hrest
        exact ⟨_, _, _, _, rfl, hi, BallotNumber.lessOrEqual_iff.mp hle,
          by simpa using hscout, hnone⟩
      · cases h
    · cases h
  · rintro ⟨i, src, p, b, rfl, hi, hle, hscout, hnone⟩
    simp only [stalls, hi, hscout, hnone, BallotNumber.lessOrEqual_iff.mpr hle, Bool.not_false,
      Bool.and_self]

/-- A stalling step leaves a stuck leader. -/
theorem not_noStuckLeader_of_stalls (hmode : cfg.operationMode.hasDetector = true)
    (hstall : stalls st a = true) (hstep : step cfg st a = some st') : ¬ NoStuckLeader st' := by
  obtain ⟨i, src, p, b, rfl, hi, hle, hscout, hnone⟩ := stalls_iff.mp hstall
  have hnext : (st.leaders p).next cfg (.preempted b) =
      some (((st.leaders p).setPreemptedBy (some b)).deactivate,
        (st.leaders p).sendDetector (.ping b)) := by
    rw [Leader.next, Leader.preempted_of_hasDetector hmode]
  obtain ⟨rfl, hlive⟩ := step_leader hi rfl hnext hstep
  have hstuck : ∀ t : State P, t.leaders p = ((st.leaders p).setPreemptedBy (some b)).deactivate →
      t.synod = st.synod → t.crashed = st.crashed →
      (t.net.all fun e => !verdict st.synod p (st.leaders p).ballotNum e) = true →
      ¬ NoStuckLeader t := by
    intro t hl hsy hcr hnet hprop
    have hscouts : t.scouts = st.scouts := congrArg Synod.scouts hsy
    obtain ⟨b', hb', hlt⟩ := hprop p (hcr ▸ hlive) (by rw [hl]; rfl)
      (by rw [hl, scouting, hscouts]; exact hscout) (by rw [hl, hsy]; exact hnet)
    rw [hl] at hb' hlt
    obtain rfl := Option.some.inj hb'
    exact not_lt.mpr hle hlt
  have hat : ∀ l, ((st.take i ⟨src, .leader p, .preempted b⟩).setLeader p l).leaders p = l :=
    fun l => Function.update_self _ _ _
  -- the word to the detector is no verdict, so nothing is left to wait for
  unfold Leader.sendDetector
  split
  · refine hstuck _ (hat _) rfl rfl ?_
    exact List.all_append.trans (Bool.and_eq_true_iff.mpr ⟨hnone, by simp [verdict]⟩)
  · exact hstuck _ (hat _) rfl rfl hnone

omit [LinearOrder P] in
/-- Binding the leaders gives each of them a scout. -/
theorem bind_scouts (ps : List P) (st : State P) :
    (ps.foldl (fun st p => st.spawnScout cfg p (st.leaders p).ballotNum) st).leaders = st.leaders ∧
    (∀ sc ∈ st.scouts,
      sc ∈ (ps.foldl (fun st p => st.spawnScout cfg p (st.leaders p).ballotNum) st).scouts) ∧
    ∀ p ∈ ps, Scout.start p cfg.servers (st.leaders p).ballotNum ∈
      (ps.foldl (fun st p => st.spawnScout cfg p (st.leaders p).ballotNum) st).scouts := by
  induction ps generalizing st with
  | nil => exact ⟨rfl, fun _ h => h, fun _ h => absurd h List.not_mem_nil⟩
  | cons p ps ih =>
    obtain ⟨hl, hold, hnew⟩ := ih (st.spawnScout cfg p (st.leaders p).ballotNum)
    refine ⟨hl, fun sc hsc => hold sc (List.mem_append_left _ hsc), fun q hq => ?_⟩
    rcases List.mem_cons.mp hq with rfl | hq
    · exact hold _ (List.mem_append_right _ List.mem_cons_self)
    · exact hnew q hq

/-- **Leaders that wait are woken, exactly.** With a failure detector, no state of a run has a
stuck leader iff no step of the run stalls. -/
theorem waking_iff (hmode : cfg.operationMode.hasDetector = true) {as : List (Action P)} :
    Run.Always (step cfg) NoStuckLeader (init cfg) as ↔
      Run.Along (step cfg) (fun st a => ¬ stalls st a) (init cfg) as := by
  let J : State P → Prop := fun st => Owned st ∧ ∀ p, Awake st p
  have hgood : ∀ st a st', J st → ¬ stalls st a → step cfg st a = some st' → J st' := by
    rintro st a st' ⟨hown, hawake⟩ hguard hstep
    have hst := Step.of_step hstep
    exact ⟨hown.step hmode hst, Awake.step hmode hown hawake hguard hst⟩
  have hinit : J (init cfg) := by
    obtain ⟨hl, -, hnew⟩ := bind_scouts cfg.servers (blank cfg)
    refine ⟨⟨fun p => ⟨0, by rw [init, hl]; rfl⟩, fun sc hsc => inv_init.scouts sc hsc |>.own⟩,
      fun p => Or.inr (Or.inl ?_)⟩
    rw [init, hl]
    exact scouting_iff.mpr ⟨_, hnew p (cfg.complete p), rfl, rfl⟩
  exact Run.always_iff_along (fun _ h => noStuckLeader_of_awake h.2) hgood
    (fun _ _ _ _ hstall hstep => not_noStuckLeader_of_stalls hmode (not_not.mp hstall) hstep) hinit

theorem waking_decidingRun : Run.Always (step (sample 2 .fullLiveness)) NoStuckLeader
    (init (sample 2 .fullLiveness)) decidingRun :=
  (waking_iff rfl).mpr (by decide +kernel)

/-- The `:PREEMPTED` with the bottom ballot of `lowReplyRun` leaves leader 0 stuck. -/
theorem stuck_leader : ∃ st, Reaches (sample 3 .simplifiedLiveness)
    (lowReplyRun ++ [.deliver 11]) st ∧
    ¬ NoStuckLeader st := by
  have hrun : (Run.run (step (sample 3 .simplifiedLiveness)) (init (sample 3 .simplifiedLiveness))
      lowReplyRun).any (fun st => stalls st (.deliver 11) &&
        (step (sample 3 .simplifiedLiveness) st (.deliver 11)).isSome) = true := by
    decide +kernel
  obtain ⟨st, hst, hcheck⟩ := (Option.any_eq_true _ _).mp hrun
  obtain ⟨hstall, hsome⟩ := Bool.and_eq_true_iff.mp hcheck
  obtain ⟨st', hstep⟩ := Option.isSome_iff_exists.mp hsome
  exact ⟨st', Run.run_snoc.mpr ⟨st, hst, hstep⟩, not_noStuckLeader_of_stalls rfl hstall hstep⟩

end DocMachine.Paxos
