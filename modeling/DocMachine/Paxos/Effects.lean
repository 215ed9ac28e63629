import DocMachine.Paxos.Invariant

/-!
# What a step leaves alone and what it sends

Facts about every step of `System.lean`, whether or not the Synod invariant holds, for the handlers
of `consensus/lib`.

* The effects of a leader touch only scouts, commanders and messages (`effects_frame`).
* The Synod part of the state grows (`Step.grows`): ballots of acceptors rise, accepted pvalues and
  messages sent stay.
* The messages that steer a leader (`Message.steers`) are those that make it change its ballot, its
  activity or its proposals.

Results:
* `mem_effects_sent`, `effects_scouts` and `mem_effects_scouts`: what the effects of a leader send
  and spawn.
* `step_leader`: a message delivered to a leader does to the state what the leader's handler says.
* `Step.received`: what was received stays received, and only what was in flight is received.
* `Step.sent_steering`: a message that steers a leader is sent by a scout or a commander that
  receives a reply, or by a detector whose timeout fires.
-/

namespace DocMachine.Paxos

variable {P : Type} {cfg : Config P} {st st' : State P} {a : Action P}

/-! ## Effects -/

namespace State

/-- A part of the state that no single effect touches is not touched by a list of them. -/
theorem effects_frame {β : Type} {f : State P → β} {p : P}
    (hf : ∀ st e, f (State.effect cfg p st e) = f st) (es : List (Effect P)) (st : State P) :
    f (st.effects cfg p es) = f st := by
  induction es generalizing st with
  | nil => rfl
  | cons e es ih => exact (ih (st.effect cfg p e)).trans (hf st e)

variable (es : List (Effect P)) (p : P) (st : State P)

@[simp] theorem effects_leaders : (st.effects cfg p es).leaders = st.leaders :=
  effects_frame (fun _ e => by cases e <;> rfl) es st

@[simp] theorem effects_acceptors : (st.effects cfg p es).acceptors = st.acceptors :=
  effects_frame (fun _ e => by cases e <;> rfl) es st

@[simp] theorem effects_detectors : (st.effects cfg p es).detectors = st.detectors :=
  effects_frame (fun _ e => by cases e <;> rfl) es st

@[simp] theorem effects_crashed : (st.effects cfg p es).crashed = st.crashed :=
  effects_frame (fun _ e => by cases e <;> rfl) es st

@[simp] theorem effects_received : (st.effects cfg p es).received = st.received :=
  effects_frame (fun _ e => by cases e <;> rfl) es st

variable {es p st}

/-- What is in flight stays in flight. -/
theorem mem_effects_net {e : Envelope P} {es : List (Effect P)} {st : State P}
    (h : e ∈ st.net) : e ∈ (st.effects cfg p es).net := by
  induction es generalizing st with
  | nil => exact h
  | cons x es ih =>
    have hx : e ∈ (st.effect cfg p x).net := by
      cases x <;> exact List.mem_append_left _ h
    exact ih hx

theorem mem_effect_sent {e : Envelope P} {x : Effect P} (h : e ∈ (st.effect cfg p x).sent) :
    e ∈ st.sent ∨ (∃ k b, e.msg = .p1a k b) ∨ (∃ k pv, e.msg = .p2a k pv) ∨
      ∃ dst, x = .send dst e.msg := by
  cases x with
  | send dst msg =>
    rcases List.mem_append.mp h with h | h
    · exact Or.inl h
    · obtain rfl := List.mem_singleton.mp h
      exact Or.inr (Or.inr (Or.inr ⟨dst, rfl⟩))
  | spawnScout b =>
    rcases List.mem_append.mp h with h | h
    · exact Or.inl h
    · obtain ⟨m, hm, rfl⟩ := List.mem_map.mp h
      obtain ⟨y, -, rfl⟩ := List.mem_map.mp hm
      exact Or.inr (Or.inl ⟨_, _, rfl⟩)
  | spawnCommander pv =>
    rcases List.mem_append.mp h with h | h
    · exact Or.inl h
    · obtain ⟨m, hm, rfl⟩ := List.mem_map.mp h
      obtain ⟨y, -, rfl⟩ := List.mem_map.mp hm
      exact Or.inr (Or.inr (Or.inl ⟨_, _, rfl⟩))

theorem mem_effects_sent_of {e : Envelope P} {es : List (Effect P)} {st : State P}
    (h : e ∈ st.sent) : e ∈ (st.effects cfg p es).sent := by
  induction es generalizing st with
  | nil => exact h
  | cons x es ih =>
    have hx : e ∈ (st.effect cfg p x).sent := by
      cases x <;> exact List.mem_append_left _ h
    exact ih hx

/-- What the effects of a leader send. -/
theorem mem_effects_sent {e : Envelope P} {es : List (Effect P)} {st : State P}
    (h : e ∈ (st.effects cfg p es).sent) : e ∈ st.sent ∨ (∃ k b, e.msg = .p1a k b) ∨
      (∃ k pv, e.msg = .p2a k pv) ∨ ∃ dst, .send dst e.msg ∈ es := by
  induction es generalizing st with
  | nil => exact Or.inl h
  | cons x es ih =>
    have hrec : e ∈ ((st.effect cfg p x).effects cfg p es).sent := h
    rcases ih hrec with h | h | h | ⟨dst, h⟩
    · rcases mem_effect_sent h with h | h | h | ⟨dst, rfl⟩
      · exact Or.inl h
      · exact Or.inr (Or.inl h)
      · exact Or.inr (Or.inr (Or.inl h))
      · exact Or.inr (Or.inr (Or.inr ⟨dst, List.mem_cons_self⟩))
    · exact Or.inr (Or.inl h)
    · exact Or.inr (Or.inr (Or.inl h))
    · exact Or.inr (Or.inr (Or.inr ⟨dst, List.mem_cons_of_mem _ h⟩))

/-- The scouts after the effects are those before and the ones just spawned. -/
theorem effects_scouts {k : ℕ} {sc : Scout P} {es : List (Effect P)} {st : State P}
    (h : (st.effects cfg p es).scouts[k]? = some sc) : st.scouts[k]? = some sc ∨
      (st.scouts.length ≤ k ∧ ∃ b, .spawnScout b ∈ es ∧ sc = Scout.start p cfg.servers b) := by
  induction es generalizing st with
  | nil => exact Or.inl h
  | cons x es ih =>
    have hrec : ((st.effect cfg p x).effects cfg p es).scouts[k]? = some sc := h
    cases x with
    | send | spawnCommander =>
      rcases ih hrec with h | ⟨hk, b, hb, hsc⟩
      · exact Or.inl h
      · exact Or.inr ⟨hk, b, List.mem_cons_of_mem _ hb, hsc⟩
    | spawnScout b =>
      have hscouts : (st.effect cfg p (.spawnScout b)).scouts =
          st.scouts ++ [Scout.start p cfg.servers b] := rfl
      rcases ih hrec with h | ⟨hk, b', hb, hsc⟩
      · rw [hscouts, List.getElem?_append] at h
        split_ifs at h with hlt
        · exact Or.inl h
        · have hin := List.mem_of_getElem? h
          exact Or.inr ⟨not_lt.mp hlt, b, List.mem_cons_self, List.mem_singleton.mp hin⟩
      · rw [hscouts, List.length_append] at hk
        exact Or.inr ⟨(Nat.le_add_right _ _).trans hk, b', List.mem_cons_of_mem _ hb, hsc⟩

/-- No scout is lost, and the spawned ones are there. -/
theorem mem_effects_scouts {sc : Scout P} {es : List (Effect P)} {st : State P}
    (h : sc ∈ st.scouts ∨ ∃ b, .spawnScout b ∈ es ∧ sc = Scout.start p cfg.servers b) :
    sc ∈ (st.effects cfg p es).scouts := by
  induction es generalizing st with
  | nil =>
    rcases h with h | ⟨b, hb, -⟩
    · exact h
    · cases hb
  | cons x es ih =>
    have hx : sc ∈ (st.effect cfg p x).scouts ∨
        ∃ b, .spawnScout b ∈ es ∧ sc = Scout.start p cfg.servers b := by
      rcases h with h | ⟨b, hb, rfl⟩
      · left
        cases x with
        | spawnScout b => exact List.mem_append_left _ h
        | send | spawnCommander => exact h
      · rcases List.mem_cons.mp hb with rfl | hb
        · exact Or.inl (List.mem_append_right _ List.mem_cons_self)
        · exact Or.inr ⟨b, hb, rfl⟩
    exact ih hx

end State

/-- Every message in flight was sent. -/
def NetSent (st : State P) : Prop := ∀ e ∈ st.net, e ∈ st.sent

theorem NetSent.take (h : NetSent st) {i : ℕ} {x : Envelope P} (_ : st.net[i]? = some x) :
    NetSent (st.take i x) :=
  fun e he => h e (List.mem_of_mem_eraseIdx he)

theorem NetSent.post {mid : State P} (h : NetSent st) {src : Pid P} {sends : List (Send P)}
    (hnet : mid.net = st.net) (hsent : mid.sent = st.sent) : NetSent (mid.post src sends) := by
  intro e he
  rcases List.mem_append.mp he with he | he
  · exact List.mem_append_left _ (hsent ▸ h e (hnet ▸ he))
  · exact List.mem_append_right _ he

theorem NetSent.effects {p : P} {es : List (Effect P)} {st : State P} (h : NetSent st) :
    NetSent (st.effects cfg p es) := by
  induction es generalizing st with
  | nil => exact h
  | cons x es ih =>
    have hx : NetSent (st.effect cfg p x) := by
      cases x <;> exact h.post rfl rfl
    exact ih hx

variable [LinearOrder P]

/-- A leader sends signs of life and, to its detector, the ballot to watch. -/
theorem Leader.next_sends {self l : Leader P} {msg m : Message P} {es : List (Effect P)}
    {dst : Pid P} (h : self.next cfg msg = some (l, es)) (hm : .send dst m ∈ es) :
    (∃ b t, m = .stillAlive b t) ∨ ∃ b, m = .ping b := by
  have hspawn : ∀ b (xs : List (ℕ × Command P)),
      .send dst m ∉ xs.map fun x => Effect.spawnCommander ⟨b, x.1, x.2⟩ := fun b xs hin => by
    obtain ⟨x, -, hx⟩ := List.mem_map.mp hin
    cases hx
  cases msg with
  | responseRequested r =>
    obtain ⟨-, rfl | ⟨b, t, rfl⟩⟩ := next_responseRequested h
    · exact absurd hm List.not_mem_nil
    · cases List.mem_singleton.mp hm
      exact Or.inl ⟨b, t, rfl⟩
  | propose s c =>
    simp only [next, Option.some.injEq] at h
    split_ifs at h <;> cases h
    · exact absurd hm List.not_mem_nil
    · exact absurd hm List.not_mem_nil
    · exact absurd hm (hspawn _ [(s, c)])
  | proposalChosen =>
    cases Option.some.inj h
    exact absurd hm List.not_mem_nil
  | adopted b pvs =>
    simp only [next, Option.some.injEq] at h
    split_ifs at h <;> cases h
    · exact absurd hm List.not_mem_nil
    · exact absurd hm (hspawn _ _)
  | preempted b =>
    have hes : (self.preempted cfg b).2 = es := congrArg Prod.snd (Option.some.inj h)
    rw [← hes] at hm
    unfold preempted sendDetector at hm
    split at hm
    · split_ifs at hm
      · exact absurd hm List.not_mem_nil
      · cases List.mem_singleton.mp hm
    · split_ifs at hm
      · exact absurd hm List.not_mem_nil
      · cases List.mem_singleton.mp hm
    all_goals
      simp only at hm
      split at hm
      · cases List.mem_singleton.mp hm
        exact Or.inr ⟨b, rfl⟩
      · exact absurd hm List.not_mem_nil
  | preempt b =>
    simp only [next, Option.some.injEq] at h
    split_ifs at h <;> cases h
    · exact absurd hm List.not_mem_nil
    · cases List.mem_singleton.mp hm
  | _ => cases h

/-! ## Steps -/

theorem Scout.next_sends {sc : Scout P} {msg : Message P} {r : Scout P × List (Send P)}
    (h : sc.next msg = some r) {m : Send P} (hm : m ∈ r.2) :
    (∃ b, m.2 = .preempted b) ∨ ∃ b pvs, m.2 = .adopted b pvs := by
  obtain ⟨a, b, rs, -, ⟨-, rfl⟩ | ⟨-, rfl⟩ | ⟨-, -, rfl⟩⟩ := next_cases h
  · exact Or.inl ⟨b, congrArg Prod.snd (List.mem_singleton.mp hm)⟩
  · exact absurd hm List.not_mem_nil
  · exact Or.inr ⟨_, _, congrArg Prod.snd (List.mem_singleton.mp hm)⟩

theorem Commander.next_sends {mode : OperationMode} {c : Commander P} {msg : Message P}
    {r : Commander P × List (Send P)} (h : c.next mode msg = some r) {m : Send P} (hm : m ∈ r.2) :
    (∃ b, m.2 = .preempted b) ∨ (∃ s d, m.2 = .decision s d) ∨ m.2 = .proposalChosen := by
  obtain ⟨a, b, -, ⟨-, rfl⟩ | ⟨-, rfl⟩ | ⟨-, -, rfl⟩⟩ := next_cases h
  · exact Or.inl ⟨b, congrArg Prod.snd (List.mem_singleton.mp hm)⟩
  · exact absurd hm List.not_mem_nil
  · rcases mem_decisionSends hm with ⟨q, rfl⟩ | rfl
    · exact Or.inr (Or.inl ⟨_, _, rfl⟩)
    · exact Or.inr (Or.inr rfl)

theorem Scout.next_ballotNumber {sc : Scout P} {msg : Message P} {r : Scout P × List (Send P)}
    (h : sc.next msg = some r) :
    r.1.ballotNumber = sc.ballotNumber ∧ r.1.leader = sc.leader := by
  obtain ⟨a, b, rs, -, ⟨-, rfl⟩ | ⟨-, rfl⟩ | ⟨-, -, rfl⟩⟩ := next_cases h
  · exact ⟨rfl, rfl⟩
  · exact ⟨rfl, rfl⟩
  · exact ⟨rfl, rfl⟩

theorem Commander.next_pvalue {mode : OperationMode} {c : Commander P} {msg : Message P}
    {r : Commander P × List (Send P)} (h : c.next mode msg = some r) :
    r.1.pvalue = c.pvalue ∧ (c.majorityAccepted = true → r.1.majorityAccepted = true) := by
  obtain ⟨a, b, -, ⟨-, rfl⟩ | ⟨-, rfl⟩ | ⟨-, -, rfl⟩⟩ := next_cases h
  · exact ⟨rfl, id⟩
  · exact ⟨rfl, majorityAccepted_remove a⟩
  · exact ⟨rfl, majorityAccepted_remove a⟩

theorem Acceptor.next_grows (st : State P) (p : P) (msg : Message P) :
    Grows st.synod (st.setAcceptor p ((st.acceptors p).next p msg).1).synod := by
  cases msg with
  | p1a l b =>
    refine Grows.setAcceptor ?_ (fun pv hpv => ?_) fun pv hpv => Or.inl ?_
    · simp [next]
    · simpa [next] using hpv
    · simpa [next] using hpv
  | p2a l pv =>
    refine Grows.setAcceptor (by simp [next]) (fun x hx => mem_acceptPvalue.mpr (Or.inr hx))
      fun x hx => ?_
    rcases mem_acceptPvalue.mp hx with ⟨rfl, heq⟩ | hold
    · exact Or.inr heq.ge
    · exact Or.inl hold
  | _ => exact Grows.setAcceptor le_rfl (fun _ h => h) (fun _ h => Or.inl h)

/-- **The Synod part of the state grows in every step.** -/
theorem Step.grows (h : Step cfg st a st') : Grows st.synod st'.synod := by
  cases h with
  | acceptor => exact Acceptor.next_grows st _ _
  | leader => exact Grows.effects _ _ (State.setLeader (st.take _ _) _ _)
  | scout _ _ _ hk hrun hs => exact Grows.setScout hk hrun (Scout.next_ballotNumber hs).1
  | commander _ _ _ hk _ hc =>
    exact Grows.setCommander hk (Commander.next_pvalue hc).1 (Commander.next_pvalue hc).2
  | replica | detector | timeout | request | crash => exact Grows.refl _

/-- A message delivered to a leader does to the state what the leader's handler says. -/
theorem step_leader {i : ℕ} {e : Envelope P} {p : P} {l : Leader P} {es : List (Effect P)}
    (hi : st.net[i]? = some e) (hdst : e.dst = .leader p)
    (hl : (st.leaders p).next cfg e.msg = some (l, es))
    (h : step cfg st (.deliver i) = some st') :
    st' = ((st.take i e).setLeader p l).effects cfg p es ∧ .leader p ∉ st.crashed := by
  obtain ⟨e', hi', h⟩ := Option.bind_eq_some_iff.mp h
  obtain rfl : e = e' := Option.some.inj (hi.symm.trans hi')
  split_ifs at h with hlive
  rw [hdst] at h hlive
  obtain ⟨r, hr, rfl⟩ := Option.map_eq_some_iff.mp h
  obtain rfl := Option.some.inj (hl.symm.trans hr)
  exact ⟨rfl, hlive⟩

theorem step_commander {i k : ℕ} {e : Envelope P} {c : Commander P}
    {r : Commander P × List (Send P)}
    (hi : st.net[i]? = some e) (hdst : e.dst = .commander k) (hk : st.commanders[k]? = some c)
    (hrun : c.exited = false) (hc : c.next cfg.operationMode e.msg = some r)
    (h : step cfg st (.deliver i) = some st') :
    st' = ((st.take i e).setCommander k r.1).post (.commander k) r.2 := by
  obtain ⟨e', hi', h⟩ := Option.bind_eq_some_iff.mp h
  obtain rfl : e = e' := Option.some.inj (hi.symm.trans hi')
  split_ifs at h
  rw [hdst] at h
  obtain ⟨c', hk', h⟩ := Option.bind_eq_some_iff.mp h
  obtain rfl : c = c' := Option.some.inj (hk.symm.trans hk')
  rw [hrun] at h
  obtain ⟨r', hr', rfl⟩ := Option.map_eq_some_iff.mp h
  obtain rfl := Option.some.inj (hc.symm.trans hr')
  rfl

/-- What was received stays received, and only what was in flight is received. -/
theorem Step.received (h : Step cfg st a st') :
    (∀ e ∈ st.received, e ∈ st'.received) ∧ ∀ e ∈ st'.received, e ∈ st.received ∨ e ∈ st.net := by
  have htake : ∀ {i : ℕ} {x : Envelope P}, st.net[i]? = some x →
      (∀ e ∈ st.received, e ∈ (st.take i x).received) ∧
        ∀ e ∈ (st.take i x).received, e ∈ st.received ∨ e ∈ st.net := fun hi =>
    ⟨fun e he => List.mem_append_left _ he, fun e he => by
      rcases List.mem_append.mp he with he | he
      · exact Or.inl he
      · rw [List.mem_singleton.mp he]
        exact Or.inr (List.mem_of_getElem? hi)⟩
  cases h with
  | leader hi => rw [State.effects_received]; exact htake hi
  | acceptor hi | replica hi | detector hi | scout hi | commander hi => exact htake hi
  | timeout | request | crash => exact ⟨fun _ he => he, fun _ he => Or.inl he⟩

theorem Step.sent_mono (h : Step cfg st a st') : ∀ e ∈ st.sent, e ∈ st'.sent := by
  cases h with
  | leader => exact fun e he => State.mem_effects_sent_of he
  | crash => exact fun e he => he
  | acceptor | replica | detector | scout | commander | timeout | request =>
    exact fun e he => List.mem_append_left _ he

theorem Step.netSent (h : Step cfg st a st') (hnet : NetSent st) : NetSent st' := by
  cases h with
  | @leader i p x l es hi =>
    have hset : NetSent ((st.take i x).setLeader p l) := hnet.take hi
    exact hset.effects
  | crash => exact hnet
  | acceptor hi | replica hi | detector hi | scout hi | commander hi =>
    exact (hnet.take hi).post rfl rfl
  | timeout | request => exact hnet.post rfl rfl

/-- The messages that tell a leader what became of its ballot. -/
def Message.steers : Message P → Bool
  | .adopted .. | .preempted _ | .preempt _ => true
  | _ => false

/-- **Who steers.** A message that steers a leader is sent by a scout or a commander that
receives a reply, or by a detector whose timeout fires. -/
theorem Step.sent_steering (h : Step cfg st a st') {e : Envelope P} (he : e ∈ st'.sent)
    (hsteer : e.msg.steers = true) : e ∈ st.sent ∨
      (∃ i x k sc r, a = .deliver i ∧ st.net[i]? = some x ∧ x.dst = .scout k ∧
        st.scouts[k]? = some sc ∧ sc.exited = false ∧ sc.next x.msg = some r ∧
        e.src = .scout k ∧ (e.dst, e.msg) ∈ r.2) ∨
      (∃ i x k c r, a = .deliver i ∧ st.net[i]? = some x ∧ x.dst = .commander k ∧
        st.commanders[k]? = some c ∧ c.exited = false ∧ c.next cfg.operationMode x.msg = some r ∧
        e.src = .commander k ∧ (e.dst, e.msg) ∈ r.2) ∨
      ∃ p, (st.detectors p).phase = .ping ∧ e.msg = .preempt (st.detectors p).ballotNum := by
  cases h with
  | @acceptor i p x =>
    rcases List.mem_append.mp he with he | he
    · exact Or.inl he
    · obtain ⟨m, hm, rfl⟩ := List.mem_map.mp he
      unfold Acceptor.next at hm
      split at hm
      · cases List.mem_singleton.mp hm
        cases hsteer
      · cases List.mem_singleton.mp hm
        cases hsteer
      · exact absurd hm List.not_mem_nil
  | leader _ _ _ hl =>
    rcases State.mem_effects_sent he with he | ⟨k, b, hm⟩ | ⟨k, pv, hm⟩ | ⟨dst, hm⟩
    · exact Or.inl he
    · rw [hm] at hsteer
      cases hsteer
    · rw [hm] at hsteer
      cases hsteer
    · rcases Leader.next_sends hl hm with ⟨b, t, heq⟩ | ⟨b, heq⟩ <;> rw [heq] at hsteer <;>
        cases hsteer
  | replica =>
    rcases List.mem_append.mp he with he | he
    · exact Or.inl he
    · obtain ⟨m, hm, rfl⟩ := List.mem_map.mp he
      have hsend := Replica.sendable_next m hm
      have hnot : ∀ msg : Message P, msg.steers = true → Replica.sendable msg = false := by
        rintro (_ | _) <;> first | exact fun _ => rfl | exact fun hs => absurd hs Bool.false_ne_true
      rw [hnot m.2 hsteer] at hsend
      cases hsend
  | detector _ _ _ hd =>
    rcases List.mem_append.mp he with he | he
    · exact Or.inl he
    · obtain ⟨m, hm, rfl⟩ := List.mem_map.mp he
      rw [(detectorNext_sends hd).2 m hm] at hsteer
      cases hsteer
  | scout hi _ hdst hk hrun hs =>
    rcases List.mem_append.mp he with he | he
    · exact Or.inl he
    · obtain ⟨m, hm, rfl⟩ := List.mem_map.mp he
      exact Or.inr (Or.inl ⟨_, _, _, _, _, rfl, hi, hdst, hk, hrun, hs, rfl, hm⟩)
  | commander hi _ hdst hk hrun hc =>
    rcases List.mem_append.mp he with he | he
    · exact Or.inl he
    · obtain ⟨m, hm, rfl⟩ := List.mem_map.mp he
      exact Or.inr (Or.inr (Or.inl ⟨_, _, _, _, _, rfl, hi, hdst, hk, hrun, hc, rfl, hm⟩))
  | @timeout p _ _ hd =>
    rcases List.mem_append.mp he with he | he
    · exact Or.inl he
    · obtain ⟨m, hm, rfl⟩ := List.mem_map.mp he
      unfold FailureDetector.timedOut at hd
      split_ifs at hd with hphase
      cases hd
      obtain rfl := List.mem_singleton.mp hm
      exact Or.inr (Or.inr (Or.inr ⟨p, hphase, rfl⟩))
  | request =>
    rcases List.mem_append.mp he with he | he
    · exact Or.inl he
    · cases List.mem_singleton.mp he
      cases hsteer
  | crash => exact Or.inl he

end DocMachine.Paxos
