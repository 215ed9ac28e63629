import Mathlib.Data.Finset.Max
import DocMachine.Paxos.Message

/-!
# The leader

Model of `Leader` (`consensus/lib/leader.ex`: `start` 78-101, `next` 103-229, `update_proposals`
236-244, `pmax` 251-259, the timeouts 30-70, the spawning of processes 263-301).

* `next` handles one message. Besides sending messages a leader spawns scouts and commanders, so
  that its result lists `Effect`s in the order of the source. A `:BIND` message is not modelled: a
  leader starts bound (`System.lean`).
* `pmax` and `updateProposals` are the comprehensions of the source over `MapSet`s. Of a proposal's
  slots, those of the acceptors' pvalues win.
* The four operation modes differ in the `:PREEMPTED` branch only. The two modes without a failure
  detector ignore a ballot that is not above the leader's own and otherwise raise the leader's
  ballot and spawn a scout; the two modes with one record the ballot, hand it to the detector and
  leave the leader's ballot as it is.
* `:PREEMPT`, which the detector sends, raises the ballot and spawns a scout without touching
  `active`.
* A timeout is an integer; what multiplies it is a parameter of the configuration, which in the
  source is a product of floats.

Results:
* `exists_mem_pmax`: every slot with a pvalue has one of highest ballot.
* `updateBallotNumber_ballotNum`: raising the ballot keeps its owner and goes above the ballot that
  was heard of.
* `next_preempt`: a `:PREEMPT` with a higher ballot moves the leader to a ballot above it, active or
  not.
* `OnePerSlot.updateProposals`: the new proposals override the old ones of the same slots.
-/

namespace DocMachine.Paxos

open DocMachine.Lib

variable {P : Type}

/-- The state of `Leader`. `failureDetector` is `nil` in the modes without one. -/
structure Leader (P : Type) where
  ballotNum : BallotNumber P
  timeout : ℤ
  failureDetector : Option (Pid P)
  active : Bool
  proposals : MapSet (ℕ × Command P)
  preemptedBy : Option (BallotNumber P)

/-- What a handler of the leader does besides changing the leader's state. -/
inductive Effect (P : Type) where
  | send (dst : Pid P) (msg : Message P)
  | spawnScout (b : BallotNumber P)
  | spawnCommander (pvalue : Pvalue P)

namespace OperationMode

/-- `mode in [:full_liveness, :simplified_liveness]`: a failure detector is spawned. -/
def hasDetector : OperationMode → Bool
  | simplifiedLiveness | fullLiveness => true
  | noLiveness | partialLiveness => false

end OperationMode

variable [LinearOrder P]

/-- The pvalues of highest ballot for their slot, as `{slot, command}` pairs. -/
def pmax (pvalues : MapSet (Pvalue P)) : MapSet (ℕ × Command P) :=
  MapSet.ofList <|
    (pvalues.elems.filter fun pv =>
      (pvalues.elems.filter fun pv1 => pv1.slotNum = pv.slotNum).all fun pv1 =>
        pv1.ballotNum.lessOrEqual pv.ballotNum).map fun pv => (pv.slotNum, pv.command)

namespace Leader

/-- `start`, for the leader of server `me`. -/
def start (cfg : Config P) (me : P) : Leader P where
  ballotNum := .number 0 me
  timeout := cfg.initialLeaderTimeout
  failureDetector := if cfg.operationMode.hasDetector then some (.detector me) else none
  active := false
  proposals := MapSet.empty
  preemptedBy := none

/-- `add_proposal`. -/
def addProposal (self : Leader P) (proposal : ℕ × Command P) : Leader P :=
  { self with proposals := self.proposals.put proposal }

/-- `activate`. -/
def activate (self : Leader P) : Leader P := { self with active := true }

/-- `deactivate`. -/
def deactivate (self : Leader P) : Leader P := { self with active := false }

/-- `update_ballot_number`: one above the value that was heard of. -/
def updateBallotNumber (self : Leader P) (newValue : ℕ) : Leader P :=
  { self with ballotNum := self.ballotNum.setValue (newValue + 1) }

/-- `update_timeout`. -/
def updateTimeout (self : Leader P) (newTimeout : ℤ) : Leader P :=
  { self with timeout := newTimeout }

/-- `increase_timeout`, in the mode that adapts it. -/
def increaseTimeout (cfg : Config P) (self : Leader P) : Leader P :=
  match cfg.operationMode with
  | .fullLiveness =>
    let baseValue := max self.timeout cfg.initialLeaderTimeout
    self.updateTimeout (min cfg.maxLeaderTimeout (cfg.scaleTimeout baseValue))
  | _ => self

/-- `decrease_timeout`. -/
def decreaseTimeout (cfg : Config P) (self : Leader P) : Leader P :=
  match cfg.operationMode with
  | .fullLiveness =>
    self.updateTimeout (max cfg.minLeaderTimeout (self.timeout - cfg.leaderTimeoutDecreaseConst))
  | _ => self

/-- `set_preempted_by`. -/
def setPreemptedBy (self : Leader P) (b : Option (BallotNumber P)) : Leader P :=
  { self with preemptedBy := b }

/-- `exists_proposal_for?`. -/
def existsProposalFor (self : Leader P) (slotNumber : ℕ) : Bool :=
  self.proposals.elems.any fun p => p.1 = slotNumber

/-- `update_exists?`. -/
def updateExists (slotNumber : ℕ) (proposals : MapSet (ℕ × Command P)) : Bool :=
  proposals.elems.any fun p => p.1 = slotNumber

/-- `update_proposals`. -/
def updateProposals (self : Leader P) (maxPvals : MapSet (ℕ × Command P)) : Leader P :=
  { self with
    proposals := maxPvals.union (self.proposals.filter fun p => !updateExists p.1 maxPvals) }

/-- `send(self.failure_detector, msg)`; without a detector there is no process to send to. -/
def sendDetector (self : Leader P) (msg : Message P) : List (Effect P) :=
  match self.failureDetector with
  | some fd => [.send fd msg]
  | none => []

/-- The `:PREEMPTED` branch, per operation mode. The sleep of `:partial_liveness` only delays
what follows. -/
def preempted (cfg : Config P) (self : Leader P) (b : BallotNumber P) :
    Leader P × List (Effect P) :=
  match cfg.operationMode with
  | .noLiveness | .partialLiveness =>
    if b.lessOrEqual self.ballotNum then (self, [])
    else
      let self := self.updateBallotNumber b.value
      (self.deactivate, [.spawnScout self.ballotNum])
  | .simplifiedLiveness | .fullLiveness =>
    ((self.setPreemptedBy (some b)).deactivate, self.sendDetector (.ping b))

/-- `next`: what a leader does with a message. -/
def next (cfg : Config P) (self : Leader P) : Message P → Option (Leader P × List (Effect P))
  | .responseRequested requestor => some <|
    if self.active then (self, [.send requestor (.stillAlive self.ballotNum self.timeout)])
    else match self.preemptedBy with
      | some b => (self, [.send requestor (.stillAlive b self.timeout)])
      | none => (self, [])
  | .propose s c => some <|
    if self.existsProposalFor s then (self, [])
    else
      let self := self.addProposal (s, c)
      if !self.active then (self, [])
      else (self, [.spawnCommander ⟨self.ballotNum, s, c⟩])
  | .proposalChosen => some (self.decreaseTimeout cfg, [])
  | .adopted b pvalues => some <|
    if !b.equal self.ballotNum then (self, [])
    else
      let self := self.updateProposals (pmax pvalues)
      ((self.setPreemptedBy none).activate,
        self.proposals.elems.map fun p => .spawnCommander ⟨b, p.1, p.2⟩)
  | .preempted b => some (self.preempted cfg b)
  | .preempt b => some <|
    if b.lessOrEqual self.ballotNum then (self, [])
    else
      let self := (self.increaseTimeout cfg).updateBallotNumber b.value
      (self, [.spawnScout self.ballotNum])
  | _ => none

end Leader

/-! ## Lemmas -/

/-- A pvalue without its ballot. -/
def Pvalue.proposal (pv : Pvalue P) : ℕ × Command P := (pv.slotNum, pv.command)

theorem mem_pmax {pvalues : MapSet (Pvalue P)} {x : ℕ × Command P} :
    x ∈ pmax pvalues ↔ ∃ pv ∈ pvalues, pv.proposal = x ∧
      ∀ pv1 ∈ pvalues, pv1.slotNum = pv.slotNum → pv1.ballotNum ≤ pv.ballotNum := by
  rw [pmax, MapSet.mem_ofList]
  simp only [List.mem_map, List.mem_filter, List.all_eq_true, decide_eq_true_eq,
    BallotNumber.lessOrEqual_iff]
  constructor
  · rintro ⟨pv, ⟨hpv, hmax⟩, rfl⟩
    exact ⟨pv, hpv, rfl, fun pv1 h1 hs => hmax pv1 ⟨h1, hs⟩⟩
  · rintro ⟨pv, hpv, rfl, hmax⟩
    exact ⟨pv, ⟨hpv, fun pv1 h1 => hmax pv1 h1.1 h1.2⟩, rfl⟩

/-- Every slot with a pvalue has one of highest ballot. -/
theorem exists_mem_pmax {pvalues : MapSet (Pvalue P)} {pv : Pvalue P} (h : pv ∈ pvalues) :
    ∃ c, (pv.slotNum, c) ∈ pmax pvalues := by
  obtain ⟨m, hm, hmax⟩ := Finset.exists_max_image
    (pvalues.elems.toFinset.filter fun pv1 => pv1.slotNum = pv.slotNum) Pvalue.ballotNum
    ⟨pv, by simpa using MapSet.mem_iff.mp h⟩
  simp only [Finset.mem_filter, List.mem_toFinset] at hm hmax
  exact ⟨m.command, mem_pmax.mpr ⟨m, hm.1, by rw [← hm.2]; rfl,
    fun pv1 h1 hs => hmax pv1 ⟨h1, hs.trans hm.2⟩⟩⟩

namespace Leader

omit [LinearOrder P] in
theorem updateExists_iff {m : MapSet (ℕ × Command P)} {s : ℕ} :
    updateExists s m = true ↔ ∃ c, (s, c) ∈ m := by
  simp only [updateExists, List.any_eq_true, decide_eq_true_eq, MapSet.mem_iff]
  constructor
  · rintro ⟨⟨s', c⟩, hm, rfl⟩
    exact ⟨c, hm⟩
  · rintro ⟨c, hm⟩
    exact ⟨(s, c), hm, rfl⟩

omit [LinearOrder P] in
theorem existsProposalFor_iff {self : Leader P} {s : ℕ} :
    self.existsProposalFor s = true ↔ ∃ c, (s, c) ∈ self.proposals :=
  updateExists_iff

theorem mem_updateProposals {self : Leader P} {m : MapSet (ℕ × Command P)} {x : ℕ × Command P} :
    x ∈ (self.updateProposals m).proposals ↔
      x ∈ m ∨ (x ∈ self.proposals ∧ ∀ c, (x.1, c) ∉ m) := by
  simp only [updateProposals, MapSet.mem_union, MapSet.mem_filter, Bool.not_eq_true',
    ← Bool.not_eq_true, updateExists_iff, not_exists]

omit [LinearOrder P] in
/-- Raising the ballot keeps its owner and goes above the ballot that was heard of. -/
theorem updateBallotNumber_ballotNum {self : Leader P} {v : ℕ} {p : P}
    (h : self.ballotNum = .number v p) (w : ℕ) :
    (self.updateBallotNumber w).ballotNum = .number (w + 1) p := by
  rw [updateBallotNumber, h]
  rfl

theorem lt_updateBallotNumber {self : Leader P} {v : ℕ} {p : P} {b : BallotNumber P}
    (h : self.ballotNum = .number v p) (hlt : self.ballotNum < b) :
    self.ballotNum < (self.updateBallotNumber b.value).ballotNum := by
  rw [updateBallotNumber_ballotNum h, h]
  rw [h] at hlt
  exact BallotNumber.lt_number_succ hlt.le p

omit [LinearOrder P] in
theorem increaseTimeout_eq (cfg : Config P) (self : Leader P) :
    ∃ t, self.increaseTimeout cfg = { self with timeout := t } := by
  unfold increaseTimeout
  split <;> exact ⟨_, rfl⟩

omit [LinearOrder P] in
theorem decreaseTimeout_eq (cfg : Config P) (self : Leader P) :
    ∃ t, self.decreaseTimeout cfg = { self with timeout := t } := by
  unfold decreaseTimeout
  split <;> exact ⟨_, rfl⟩

/-- A request for a sign of life changes nothing and is answered with at most one. -/
theorem next_responseRequested {cfg : Config P} {self l : Leader P} {r : Pid P}
    {es : List (Effect P)} (h : self.next cfg (.responseRequested r) = some (l, es)) :
    l = self ∧ (es = [] ∨ ∃ b t, es = [.send r (.stillAlive b t)]) := by
  simp only [next, Option.some.injEq] at h
  split at h
  · cases h
    exact ⟨rfl, Or.inr ⟨_, _, rfl⟩⟩
  · split at h <;> cases h
    · exact ⟨rfl, Or.inr ⟨_, _, rfl⟩⟩
    · exact ⟨rfl, Or.inl rfl⟩

/-- A `:PREEMPT` with a higher ballot moves the leader to a ballot above it, active or not. -/
theorem next_preempt (cfg : Config P) {self : Leader P} {v : ℕ} {p : P} {b : BallotNumber P}
    (hv : self.ballotNum = .number v p) (hlt : self.ballotNum < b) :
    ∃ l : Leader P, self.next cfg (.preempt b) = some (l, [.spawnScout l.ballotNum]) ∧
      l.ballotNum = .number (b.value + 1) p ∧ self.ballotNum < l.ballotNum ∧
      l.active = self.active ∧ l.proposals = self.proposals ∧ l.preemptedBy = self.preemptedBy := by
  have hnle : ¬ b.lessOrEqual self.ballotNum = true := by simpa using hlt
  have hv' : (self.increaseTimeout cfg).ballotNum = .number v p := by
    obtain ⟨t, ht⟩ := increaseTimeout_eq cfg self
    rw [ht]
    exact hv
  refine ⟨(self.increaseTimeout cfg).updateBallotNumber b.value, congrArg some (if_neg hnle),
    updateBallotNumber_ballotNum hv' _, ?_, ?_⟩
  · rw [updateBallotNumber_ballotNum hv', hv]
    rw [hv] at hlt
    exact BallotNumber.lt_number_succ hlt.le p
  · obtain ⟨t, ht⟩ := increaseTimeout_eq cfg self
    rw [ht]
    exact ⟨rfl, rfl, rfl⟩

end Leader

/-! ## At most one command -/

omit [LinearOrder P] in
/-- At most one command for a slot. -/
def OnePerSlot (proposals : MapSet (ℕ × Command P)) : Prop :=
  ∀ s c c', (s, c) ∈ proposals → (s, c') ∈ proposals → c = c'

omit [LinearOrder P] in
/-- The ballot and the slot determine the command. -/
def OnePerBallot (pvalues : MapSet (Pvalue P)) : Prop :=
  ∀ pv ∈ pvalues, ∀ pv' ∈ pvalues, pv.ballotNum = pv'.ballotNum → pv.slotNum = pv'.slotNum →
    pv.command = pv'.command

theorem OnePerBallot.pmax {pvalues : MapSet (Pvalue P)} (h : OnePerBallot pvalues) :
    OnePerSlot (pmax pvalues) := by
  intro s c c' hc hc'
  obtain ⟨pv, hpv, heq, hmax⟩ := mem_pmax.mp hc
  obtain ⟨pv', hpv', heq', hmax'⟩ := mem_pmax.mp hc'
  obtain ⟨rfl, rfl⟩ := Prod.mk.inj heq
  obtain ⟨hs, rfl⟩ := Prod.mk.inj heq'
  have hb : pv.ballotNum = pv'.ballotNum :=
    le_antisymm (hmax' pv hpv hs.symm) (hmax pv' hpv' hs)
  exact h pv hpv pv' hpv' hb hs.symm

/-- The new proposals override the old ones of the same slots. -/
theorem OnePerSlot.updateProposals {self : Leader P} {m : MapSet (ℕ × Command P)}
    (hold : OnePerSlot self.proposals) (hnew : OnePerSlot m) :
    OnePerSlot (self.updateProposals m).proposals := by
  intro s c c' hc hc'
  rcases Leader.mem_updateProposals.mp hc with hm | ⟨hself, hno⟩ <;>
    rcases Leader.mem_updateProposals.mp hc' with hm' | ⟨hself', hno'⟩
  · exact hnew s c c' hm hm'
  · exact absurd hm (hno' c)
  · exact absurd hm' (hno c')
  · exact hold s c c' hself hself'

end DocMachine.Paxos
