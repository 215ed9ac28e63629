import DocMachine.Paxos.Message

/-!
# The replica

Model of `Replica` (`consensus/lib/replica.ex`: `start` 41-60, `next` 62-84, `propose` 86-106,
`try_to_reconfigure` 129-142, `perform` 144-161, `already_processed?` 163-178,
`process_pending_decisions` 188-223). `next` adds the received request or decision, performs the
decisions that are due and then proposes requests in free slots of the window.

* Both loops of the source are recursions on the replica's state. `propose` moves `slot_in` up by
  one in each round and stops at `slot_out + window_size`, so the number of rounds left is known
  (`proposeFuel`). `process_pending_decisions` moves `slot_out` up by one in each round and needs a
  decision for that slot, so a round per decision is enough (`pending_done` in `Requests.lean`).
* Slots are natural numbers; `reconfig_slot = slot_in - window_size` is stated as
  `reconfig_slot + window_size = slot_in`, which holds of no slot when the difference is negative.
* The order in which Elixir lists a set of requests is a parameter (`Listing`): `get_next_request`
  takes the first.
* A replica that finds two proposals for one slot exits (`exited`); the requests sent until then
  stay sent.
* What a replica does over sequences of messages is in `Requests.lean`, `StateMachine.lean` and
  `Reconfiguration.lean`.
-/

namespace DocMachine.Paxos

open DocMachine.Lib

variable {P : Type}

/-- The state of `Replica`. -/
structure Replica (P : Type) where
  leaders : List P
  slotIn : ℕ
  slotOut : ℕ
  requests : MapSet (Command P)
  proposals : MapSet (ℕ × Command P)
  decisions : MapSet (ℕ × Command P)
  exited : Bool := false

namespace Op

/-- `isreconfig?`. -/
def isreconfig : Op P → Bool
  | reconfig _ => true
  | move .. => false

end Op

namespace Replica

/-- `start`. -/
def start (leaders : List P) : Replica P where
  leaders
  slotIn := 1
  slotOut := 1
  requests := MapSet.empty
  proposals := MapSet.empty
  decisions := MapSet.empty

variable [LinearOrder P]

/-- `update_leaders`. -/
def updateLeaders (self : Replica P) (leaders : List P) : Replica P := { self with leaders }

/-- `increment_slot_in`. -/
def incrementSlotIn (self : Replica P) : Replica P := { self with slotIn := self.slotIn + 1 }

/-- `increment_slot_out`. -/
def incrementSlotOut (self : Replica P) : Replica P := { self with slotOut := self.slotOut + 1 }

/-- `add_proposal`. -/
def addProposal (self : Replica P) (proposal : ℕ × Command P) : Replica P :=
  { self with proposals := self.proposals.put proposal }

/-- `remove_proposal`. -/
def removeProposal (self : Replica P) (proposal : ℕ × Command P) : Replica P :=
  { self with proposals := self.proposals.delete proposal }

/-- `add_request`. -/
def addRequest (self : Replica P) (request : Command P) : Replica P :=
  { self with requests := self.requests.put request }

/-- `remove_request`. -/
def removeRequest (self : Replica P) (request : Command P) : Replica P :=
  { self with requests := self.requests.delete request }

/-- `add_decision`. -/
def addDecision (self : Replica P) (decision : ℕ × Command P) : Replica P :=
  { self with decisions := self.decisions.put decision }

/-! ## Performing decisions -/

/-- `already_processed?`: the command is decided for a slot below `slot_out`. -/
def alreadyProcessed (self : Replica P) (command : Command P) : Bool :=
  self.decisions.elems.any fun d => d.2 = command ∧ d.1 < self.slotOut

/-- `perform`, for the replica of server `me`. -/
def perform (me : P) (self : Replica P) (command : Command P) : Replica P × List (Send P) :=
  (self.incrementSlotOut,
    if !self.alreadyProcessed command || command.op.isreconfig then
      [(.database me, .execute command.op),
        (.client command.client, .clientResponse command.cid command)]
    else [])

/-- `get_pending_decisions`: the decisions for `slot_out`. -/
def getPendingDecisions (self : Replica P) : List (ℕ × Command P) :=
  self.decisions.elems.filter fun d => d.1 = self.slotOut

/-- `get_proposals_for_slot`. -/
def getProposalsForSlot (self : Replica P) (s : ℕ) : List (ℕ × Command P) :=
  self.proposals.elems.filter fun p => p.1 = s

/-- What a round does to the replica's own proposal for the decided slot. -/
def withdraw (self : Replica P) (c : Command P) (proposal : ℕ × Command P) : Replica P :=
  let self := self.removeProposal proposal
  if c ≠ proposal.2 then self.addRequest proposal.2 else self

/-- `process_pending_decisions`, at most `fuel` rounds. -/
def processPendingDecisions (cfg : Config P) (me : P) :
    ℕ → Replica P → Replica P × List (Send P)
  | 0, self => (self, [])
  | fuel + 1, self =>
    match cfg.decisions.toList self.getPendingDecisions with
    | [] => (self, [])
    | (slotOut, c) :: _ =>
      match self.getProposalsForSlot slotOut with
      | [] =>
        let (self, sends) := self.perform me c
        let (self, sends') := processPendingDecisions cfg me fuel self
        (self, sends ++ sends')
      | [proposal] =>
        let (self, sends) := (self.withdraw c proposal).perform me c
        let (self, sends') := processPendingDecisions cfg me fuel self
        (self, sends ++ sends')
      | _ :: _ :: _ => ({ self with exited := true }, [])

/-! ## Proposing requests -/

/-- `outside_current_config_window`. -/
def outsideCurrentConfigWindow (cfg : Config P) (self : Replica P) : Bool :=
  self.slotIn ≥ self.slotOut + cfg.windowSize

/-- `slot_in_already_decided?`. -/
def slotInAlreadyDecided (self : Replica P) : Bool :=
  (self.decisions.elems.filter fun d => d.1 = self.slotIn).length = 1

/-- The leaders named by the reconfigurations decided `window_size` slots ago. -/
def reconfigDecisions (cfg : Config P) (self : Replica P) : List (List P) :=
  self.decisions.elems.filterMap fun d =>
    if d.1 + cfg.windowSize = self.slotIn then
      match d.2.op with
      | .reconfig leaders => some leaders
      | .move .. => none
    else none

/-- `try_to_reconfigure`. -/
def tryToReconfigure (cfg : Config P) (self : Replica P) : Replica P :=
  match self.reconfigDecisions cfg with
  | [leaders] => self.updateLeaders leaders
  | _ => self

/-- The rounds that are left to `propose`. -/
def proposeFuel (cfg : Config P) (self : Replica P) : ℕ :=
  self.slotOut + cfg.windowSize - self.slotIn

/-- `propose`, at most `fuel` rounds. -/
def propose (cfg : Config P) : ℕ → Replica P → Replica P × List (Send P)
  | 0, self => (self, [])
  | fuel + 1, self =>
    if self.outsideCurrentConfigWindow cfg || self.requests.size == 0 then (self, [])
    else
      let self := self.tryToReconfigure cfg
      if self.slotInAlreadyDecided then propose cfg fuel self.incrementSlotIn
      else
        match cfg.requests.toList self.requests.elems with
        | [] => (self, [])
        | c :: _ =>
          let sends := self.leaders.map fun l => (.leader l, .propose self.slotIn c)
          let (self, sends') := propose cfg fuel
            ((self.removeRequest c).addProposal (self.slotIn, c)).incrementSlotIn
          (self, sends ++ sends')

/-- The `receive` of `next`. A message of another kind is logged only. -/
def handle (cfg : Config P) (me : P) (self : Replica P) : Message P → Replica P × List (Send P)
  | .clientRequest c => (self.addRequest c, [])
  | .decision s c =>
    let self := self.addDecision (s, c)
    self.processPendingDecisions cfg me self.decisions.size
  | _ => (self, [])

/-- `next`: the `receive` and the `propose` that follows it. -/
def next (cfg : Config P) (me : P) (self : Replica P) (msg : Message P) :
    Replica P × List (Send P) :=
  let (self, sends) := self.handle cfg me msg
  if self.exited then (self, sends)
  else
    let (self, sends') := self.propose cfg (self.proposeFuel cfg)
    (self, sends ++ sends')

/-! ## What a replica sends -/

/-- The kinds of messages a replica sends. -/
def sendable : Message P → Bool
  | .execute _ | .clientResponse .. | .propose .. => true
  | _ => false

theorem sendable_perform {me : P} {self : Replica P} {c : Command P} :
    ∀ m ∈ (self.perform me c).2, sendable m.2 = true := by
  unfold perform
  split_ifs
  · simp [sendable]
  · simp

theorem sendable_processPendingDecisions {cfg : Config P} {me : P} :
    ∀ (fuel : ℕ) (self : Replica P),
    ∀ m ∈ (self.processPendingDecisions cfg me fuel).2, sendable m.2 = true
  | 0, _, m, hm => absurd hm List.not_mem_nil
  | fuel + 1, self, m, hm => by
    simp only [processPendingDecisions] at hm
    split at hm
    · exact absurd hm List.not_mem_nil
    · split at hm
      · rcases List.mem_append.mp hm with hm | hm
        · exact sendable_perform m hm
        · exact sendable_processPendingDecisions fuel _ m hm
      · rcases List.mem_append.mp hm with hm | hm
        · exact sendable_perform m hm
        · exact sendable_processPendingDecisions fuel _ m hm
      · exact absurd hm List.not_mem_nil

theorem propose_sends {cfg : Config P} : ∀ (fuel : ℕ) (self : Replica P),
    ∀ m ∈ (self.propose cfg fuel).2, ∃ l s c, m = (.leader l, .propose s c)
  | 0, _, m, hm => absurd hm List.not_mem_nil
  | fuel + 1, self, m, hm => by
    simp only [propose] at hm
    split_ifs at hm
    · exact absurd hm List.not_mem_nil
    · exact propose_sends fuel _ m hm
    · split at hm
      · exact absurd hm List.not_mem_nil
      · rcases List.mem_append.mp hm with hm | hm
        · obtain ⟨l, -, rfl⟩ := List.mem_map.mp hm
          exact ⟨l, _, _, rfl⟩
        · exact propose_sends fuel _ m hm

theorem sendable_handle {cfg : Config P} {me : P} {self : Replica P} (msg : Message P) :
    ∀ m ∈ (self.handle cfg me msg).2, sendable m.2 = true := by
  cases msg with
  | decision s c => exact sendable_processPendingDecisions _ _
  | _ => exact fun m hm => absurd hm List.not_mem_nil

theorem sendable_next {cfg : Config P} {me : P} {self : Replica P} {msg : Message P} :
    ∀ m ∈ (self.next cfg me msg).2, sendable m.2 = true := by
  intro m hm
  simp only [next] at hm
  split_ifs at hm
  · exact sendable_handle msg m hm
  · rcases List.mem_append.mp hm with hm | hm
    · exact sendable_handle msg m hm
    · obtain ⟨l, s, c, rfl⟩ := propose_sends _ _ m hm
      rfl

end Replica

end DocMachine.Paxos
