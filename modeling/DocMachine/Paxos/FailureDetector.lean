import DocMachine.Paxos.Message

/-!
# The failure detectors

Model of `FailureDetector` (`consensus/lib/failure_detector.ex`: `start` 17-27, `next` 29-39, `ping`
41-70) and `SimpleFailureDetector` (`simple_failure_detector.ex`: `start` 13-22, `next` 24-34,
`ping` 36-59).

* A detector waits for a `:PING` in `next`, and in `ping` for a `:STILL_ALIVE` or for its timeout;
  `phase` says in which of the two `receive`s it stands, since a message of the other kind stays in
  the mailbox.
* `ping` sends to the `leader` field of the watched ballot. For the bottom ballot that field is the
  integer `0`, which is no process: `send` raises and the detector dies (`Phase.dead`).
* The two modules differ in one point: `FailureDetector` takes over the timeout that the pinged
  leader reports, `SimpleFailureDetector` ignores it. `receive` has that as a parameter.
* Sleeping between two pings only delays.

Results:
* `receive_sends`: a detector that receives asks the leader it watches for a sign of life, and
  nothing else.
-/

namespace DocMachine.Paxos

variable {P : Type} [LinearOrder P]

namespace FailureDetector

/-- Where a detector stands. -/
inductive Phase where
  | next
  | ping
  | dead
  deriving DecidableEq

end FailureDetector

/-- The state of `FailureDetector`; `SimpleFailureDetector` has no `timeout`. -/
structure FailureDetector (P : Type) where
  leader : P
  ballotNum : BallotNumber P
  timeout : ℤ
  phase : FailureDetector.Phase

namespace FailureDetector

/-- `start`. -/
def start (cfg : Config P) (l : P) : FailureDetector P where
  leader := l
  ballotNum := .bottom
  timeout := cfg.initialLeaderTimeout
  phase := .next

/-- `update_ballot_number_if_greater`. -/
def updateBallotNumberIfGreater (self : FailureDetector P) (ballotNum : BallotNumber P) :
    FailureDetector P :=
  if ballotNum.greaterThan self.ballotNum then { self with ballotNum } else self

/-- `update_timeout`. -/
def updateTimeout (self : FailureDetector P) (timeout : ℤ) : FailureDetector P :=
  { self with timeout }

/-- The send at the head of `ping`. -/
def ping (me : Pid P) (self : FailureDetector P) : FailureDetector P × List (Send P) :=
  match self.ballotNum.leader with
  | some preemptingLeader =>
    ({ self with phase := .ping }, [(.leader preemptingLeader, .responseRequested me)])
  | none => ({ self with phase := .dead }, [])

/-- The two `receive`s; `takeTimeout` is what becomes of a reported timeout. -/
def receive (takeTimeout : FailureDetector P → ℤ → FailureDetector P) (me : Pid P)
    (self : FailureDetector P) : Message P → Option (FailureDetector P × List (Send P))
  | .ping b =>
    if self.phase = .next then some ((self.updateBallotNumberIfGreater b).ping me) else none
  | .stillAlive currentBallot timeout =>
    if self.phase = .ping then
      some ((takeTimeout (self.updateBallotNumberIfGreater currentBallot) timeout).ping me)
    else none
  | _ => none

/-- `FailureDetector.next` and `ping`. -/
def next (me : Pid P) (self : FailureDetector P) :
    Message P → Option (FailureDetector P × List (Send P)) :=
  receive updateTimeout me self

/-- The `after` clause of `ping`: the watched leader did not answer in time. -/
def timedOut (self : FailureDetector P) : Option (FailureDetector P × List (Send P)) :=
  if self.phase = .ping then
    some ({ self with phase := .next }, [(.leader self.leader, .preempt self.ballotNum)])
  else none

/-- A detector that receives asks the leader it watches for a sign of life, and nothing else. -/
theorem receive_sends {takeTimeout : FailureDetector P → ℤ → FailureDetector P} {me : Pid P}
    {self d : FailureDetector P} {msg : Message P} {sends : List (Send P)}
    (h : self.receive takeTimeout me msg = some (d, sends)) :
    ∀ m ∈ sends, m.2 = .responseRequested me := by
  have hping : ∀ d : FailureDetector P, ∀ m ∈ (d.ping me).2, m.2 = .responseRequested me := by
    intro d m hm
    unfold ping at hm
    split at hm
    · obtain rfl := List.mem_singleton.mp hm
      rfl
    · exact absurd hm List.not_mem_nil
  cases msg with
  | ping b =>
    simp only [receive] at h
    split_ifs at h
    obtain rfl := congrArg Prod.snd (Option.some.inj h)
    exact hping _
  | stillAlive b t =>
    simp only [receive] at h
    split_ifs at h
    obtain rfl := congrArg Prod.snd (Option.some.inj h)
    exact hping _
  | _ => cases h

end FailureDetector

namespace SimpleFailureDetector

/-- `SimpleFailureDetector.next` and `ping`. -/
def next (me : Pid P) (self : FailureDetector P) :
    Message P → Option (FailureDetector P × List (Send P)) :=
  FailureDetector.receive (fun self _ => self) me self

end SimpleFailureDetector

end DocMachine.Paxos
