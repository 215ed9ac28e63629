import DocMachine.Paxos.Message

/-!
# Acceptors, scouts and commanders

Model of `Acceptor` (`acceptor.ex`: `start` 15-24, `next` 26-46, the helpers 5-11 and 48-58),
`Scout` (`scout.ex`: `start` 15-31, `next` 33-64, `majority_responded?` 66-68) and `Commander`
(`commander.ex`: `start` 11-27, `next` 29-61, `majority_accepted?` 63-65) in `consensus/lib`.

* A process is its state and a handler `next` for one received message, which returns the new state
  and the messages sent, in order. `none` says that no clause of the process's `receive` matches the
  message, which then stays in its mailbox.
* A scout or commander ends by `Process.exit(self(), :normal)`; that is the flag `exited`, and a
  process that has exited receives nothing more (`System.lean`).
* `waitfor` is the list of acceptors still to answer, `accepted` and `pvalues` are `MapSet`s.
* A majority is reached when fewer than half of the acceptors, rounded up, are still waited for.
* Log lines and the counters sent to the monitor are left out.
-/

namespace DocMachine.Paxos

open DocMachine.Lib

variable {P : Type}

/-- The state of `Acceptor`. -/
structure Acceptor (P : Type) where
  ballotNum : BallotNumber P
  accepted : MapSet (Pvalue P)

/-- The state of `Scout`. -/
structure Scout (P : Type) where
  leader : P
  ballotNumber : BallotNumber P
  waitfor : List P
  acceptors : List P
  pvalues : MapSet (Pvalue P)
  exited : Bool := false

/-- The state of `Commander`. -/
structure Commander (P : Type) where
  leader : P
  waitfor : List P
  acceptors : List P
  replicas : List P
  pvalue : Pvalue P
  exited : Bool := false

variable [LinearOrder P]

namespace Acceptor

/-- `start`. -/
def start : Acceptor P := ⟨.bottom, MapSet.empty⟩

/-- `update_ballot_num`. -/
def updateBallotNum (self : Acceptor P) (ballotNum : BallotNumber P) : Acceptor P :=
  { self with ballotNum }

/-- `accept`: one pvalue more. -/
def accept (self : Acceptor P) (pvalue : Pvalue P) : Acceptor P :=
  { self with accepted := self.accepted.put pvalue }

/-- `adopt_ballot_if_greater_than_current`. -/
def adoptBallotIfGreaterThanCurrent (self : Acceptor P) (b : BallotNumber P) : Acceptor P :=
  if b.greaterThan self.ballotNum then self.updateBallotNum b else self

/-- `accept_pvalue_if_ballot_matches`. -/
def acceptPvalueIfBallotMatches (self : Acceptor P) (b : BallotNumber P) (pvalue : Pvalue P) :
    Acceptor P :=
  if b.equal self.ballotNum then self.accept pvalue else self

/-- The reply to a `:p2a` is sent before the pvalue is accepted; both carry the same ballot. -/
def next (me : P) (self : Acceptor P) : Message P → Acceptor P × List (Send P)
  | .p1a l b =>
    let self := self.adoptBallotIfGreaterThanCurrent b
    (self, [(l, .p1b me self.ballotNum self.accepted)])
  | .p2a l pvalue =>
    (self.acceptPvalueIfBallotMatches pvalue.ballotNum pvalue, [(l, .p2b me self.ballotNum)])
  | _ => (self, [])

@[simp] theorem adoptBallot_ballotNum (self : Acceptor P) (b : BallotNumber P) :
    (self.adoptBallotIfGreaterThanCurrent b).ballotNum = max self.ballotNum b := by
  unfold adoptBallotIfGreaterThanCurrent
  split_ifs with h
  · exact (max_eq_right (BallotNumber.greaterThan_iff.mp h).le).symm
  · rw [BallotNumber.greaterThan_iff, not_lt] at h
    exact (max_eq_left h).symm

@[simp] theorem adoptBallot_accepted (self : Acceptor P) (b : BallotNumber P) :
    (self.adoptBallotIfGreaterThanCurrent b).accepted = self.accepted := by
  unfold adoptBallotIfGreaterThanCurrent
  split_ifs <;> rfl

@[simp] theorem acceptPvalue_ballotNum (self : Acceptor P) (b : BallotNumber P) (pv : Pvalue P) :
    (self.acceptPvalueIfBallotMatches b pv).ballotNum = self.ballotNum := by
  unfold acceptPvalueIfBallotMatches
  split_ifs <;> rfl

theorem mem_acceptPvalue {self : Acceptor P} {b : BallotNumber P} {pv x : Pvalue P} :
    x ∈ (self.acceptPvalueIfBallotMatches b pv).accepted ↔
      (x = pv ∧ b = self.ballotNum) ∨ x ∈ self.accepted := by
  unfold acceptPvalueIfBallotMatches
  split_ifs with h
  · rw [BallotNumber.equal_iff] at h
    simp [accept, h]
  · rw [BallotNumber.equal_iff] at h
    simp [h]

end Acceptor

namespace Scout

/-- `start`; the `:p1a` messages it sends are `startSends`. -/
def start (l : P) (acceptors : List P) (b : BallotNumber P) : Scout P :=
  { leader := l, ballotNumber := b, waitfor := acceptors, acceptors, pvalues := MapSet.empty }

/-- What a scout sends in `start`: a `:p1a` for every acceptor. -/
def startSends (me : Pid P) (acceptors : List P) (b : BallotNumber P) : List (Send P) :=
  acceptors.map fun a => (.acceptor a, .p1a me b)

/-- `add_pvalues`. -/
def addPvalues (self : Scout P) (pvalues : MapSet (Pvalue P)) : Scout P :=
  { self with pvalues := self.pvalues.union pvalues }

/-- `remove_acceptor_from_waitfor`. -/
def removeAcceptorFromWaitfor (self : Scout P) (a : P) : Scout P :=
  { self with waitfor := self.waitfor.erase a }

/-- `majority_responded?`. -/
def majorityResponded (self : Scout P) : Bool :=
  self.waitfor.length < (self.acceptors.length + 1) / 2

/-- `scout_finished`. -/
def scoutFinished (self : Scout P) : Scout P := { self with exited := true }

/-- `Scout.next`. -/
def next (self : Scout P) : Message P → Option (Scout P × List (Send P))
  | .p1b a b r => some <|
    if !b.equal self.ballotNumber then
      (self.scoutFinished, [(.leader self.leader, .preempted b)])
    else
      let self := (self.removeAcceptorFromWaitfor a).addPvalues r
      if !self.majorityResponded then (self, [])
      else (self.scoutFinished, [(.leader self.leader, .adopted self.ballotNumber self.pvalues)])
  | _ => none

/-- Everything a scout can do with a message. -/
theorem next_cases {self : Scout P} {msg : Message P} {r : Scout P × List (Send P)}
    (h : self.next msg = some r) : ∃ a b rs, msg = .p1b a b rs ∧
      ((b ≠ self.ballotNumber ∧
          r = (self.scoutFinished, [(.leader self.leader, .preempted b)])) ∨
        (b = self.ballotNumber ∧
          r = ((self.removeAcceptorFromWaitfor a).addPvalues rs, [])) ∨
        (b = self.ballotNumber ∧
          ((self.removeAcceptorFromWaitfor a).addPvalues rs).majorityResponded = true ∧
          r = (((self.removeAcceptorFromWaitfor a).addPvalues rs).scoutFinished,
            [(.leader self.leader, .adopted self.ballotNumber (self.pvalues.union rs))]))) := by
  cases msg with
  | p1b a b rs =>
    refine ⟨a, b, rs, rfl, ?_⟩
    simp only [next, Option.some.injEq] at h
    split_ifs at h with hne hmaj
    · exact Or.inl ⟨by simpa using hne, h.symm⟩
    · exact Or.inr (Or.inl ⟨by simpa using hne, h.symm⟩)
    · exact Or.inr (Or.inr ⟨by simpa using hne, by simpa using hmaj, h.symm⟩)
  | _ => cases h

end Scout

namespace Commander

/-- `start`; the `:p2a` messages it sends are `startSends`. -/
def start (l : P) (acceptors replicas : List P) (pvalue : Pvalue P) : Commander P :=
  { leader := l, waitfor := acceptors, acceptors, replicas, pvalue }

/-- What a commander sends in `start`: a `:p2a` for every acceptor. -/
def startSends (me : Pid P) (acceptors : List P) (pvalue : Pvalue P) : List (Send P) :=
  acceptors.map fun a => (.acceptor a, .p2a me pvalue)

/-- `remove_acceptor_from_waitfor`. -/
def removeAcceptorFromWaitfor (self : Commander P) (a : P) : Commander P :=
  { self with waitfor := self.waitfor.erase a }

/-- `majority_accepted?`. -/
def majorityAccepted (self : Commander P) : Bool :=
  self.waitfor.length < (self.acceptors.length + 1) / 2

/-- `commander_finished`. -/
def commanderFinished (self : Commander P) : Commander P := { self with exited := true }

/-- What a commander sends when a majority has accepted. -/
def decisionSends (mode : OperationMode) (self : Commander P) : List (Send P) :=
  (self.replicas.map fun r => (.replica r, .decision self.pvalue.slotNum self.pvalue.command)) ++
    if mode = .fullLiveness then [(.leader self.leader, .proposalChosen)] else []

/-- `Commander.next`. -/
def next (mode : OperationMode) (self : Commander P) :
    Message P → Option (Commander P × List (Send P))
  | .p2b a b => some <|
    if !b.equal self.pvalue.ballotNum then
      (self.commanderFinished, [(.leader self.leader, .preempted b)])
    else
      let self := self.removeAcceptorFromWaitfor a
      if !self.majorityAccepted then (self, [])
      else (self.commanderFinished, self.decisionSends mode)
  | _ => none

/-- Everything a commander can do with a message. -/
theorem next_cases {mode : OperationMode} {self : Commander P} {msg : Message P}
    {r : Commander P × List (Send P)} (h : self.next mode msg = some r) :
    ∃ a b, msg = .p2b a b ∧
      ((b ≠ self.pvalue.ballotNum ∧
          r = (self.commanderFinished, [(.leader self.leader, .preempted b)])) ∨
        (b = self.pvalue.ballotNum ∧ r = (self.removeAcceptorFromWaitfor a, [])) ∨
        (b = self.pvalue.ballotNum ∧ (self.removeAcceptorFromWaitfor a).majorityAccepted = true ∧
          r = ((self.removeAcceptorFromWaitfor a).commanderFinished,
            (self.removeAcceptorFromWaitfor a).decisionSends mode))) := by
  cases msg with
  | p2b a b =>
    refine ⟨a, b, rfl, ?_⟩
    simp only [next, Option.some.injEq] at h
    split_ifs at h with hne hmaj
    · exact Or.inl ⟨by simpa using hne, h.symm⟩
    · exact Or.inr (Or.inl ⟨by simpa using hne, h.symm⟩)
    · exact Or.inr (Or.inr ⟨by simpa using hne, by simpa using hmaj, h.symm⟩)
  | _ => cases h

theorem majorityAccepted_remove {self : Commander P} (a : P) (h : self.majorityAccepted = true) :
    (self.removeAcceptorFromWaitfor a).majorityAccepted = true := by
  simp only [majorityAccepted, decide_eq_true_eq] at h ⊢
  exact lt_of_le_of_lt List.length_erase_le h

omit [LinearOrder P] in
/-- Decisions go to the replicas, and the word that a proposal was chosen to the leader. -/
theorem mem_decisionSends {mode : OperationMode} {self : Commander P} {m : Send P}
    (h : m ∈ self.decisionSends mode) :
    (∃ q, m = (.replica q, .decision self.pvalue.slotNum self.pvalue.command)) ∨
      m = (.leader self.leader, .proposalChosen) := by
  rcases List.mem_append.mp h with h | h
  · obtain ⟨q, -, rfl⟩ := List.mem_map.mp h
    exact Or.inl ⟨q, rfl⟩
  · split_ifs at h
    · exact Or.inr (List.mem_singleton.mp h)
    · exact absurd h List.not_mem_nil

end Commander

end DocMachine.Paxos
