import Mathlib.Algebra.Order.Ring.Nat
import DocMachine.Flooding.ChildCounts

/-!
# Flooding that sums sensor readings

Model of the lab `lab2/summary-function/lib` (`peer.ex`: `start` 8-16, `next` 20-57, `message_peers`
59-64; `flooding.ex`: `start` 20-38, `bind` 41-44).

* A peer that is greeted when it already has a parent takes a sensor reading, waits in an inner
  `receive` for as many `:sum`s as it has counted children, and sends the total to its parent; it
  does so at every such greeting. `Flooding` receives one `:sum`.
* The inner `receive` is `Waiting`: how many sums are still to come. Other messages stay in the
  mailbox until it is over.
* The sensor reading is chosen by the action, as any number.
* The tag of a `:sum` is not part of the message: it records the sender and how many sums that peer
  had sent before. `readings` and `sums` of a peer record the sensor readings it took and the sums
  it sent. No handler reads any of them.

Results:
* `tree_receives`: a message of the lab that counts children is handled as there.
* `tree_step`: with its `:sum`s left out, a step is one of the lab that counts children, or changes
  nothing there. So what `ChildCounts` shows of parents and children holds here.
-/

namespace DocMachine.Flooding.Summary

open DocMachine.Lib.Run DocMachine.Lib.Forest

variable {P : Type}

/-- The messages of the lab that counts children, and `:sum`. -/
inductive Msg (P : Type) where
  | flood (msg : ChildCounts.Msg P)
  | sum (v : ℕ) (tag : P × ℕ)
  deriving DecidableEq, Repr

/-- A message and whom it is for. -/
abbrev Send (P : Type) := Pid P × Msg P

/-- The inner `receive`: how many sums are still to come, those received with their tags, and the
peer's own reading. -/
structure Waiting (P : Type) where
  remaining : ℕ
  received : List (ℕ × P × ℕ)
  sensorReading : ℕ
  deriving DecidableEq, Repr

/-- The arguments of `Peer.next`, and where it waits. -/
structure Peer (P : Type) where
  peers : Option (List P)
  parent : Option (Pid P)
  children : ℕ
  messagesReceived : ℕ
  waiting : Option (Waiting P)
  readings : List ℕ
  sums : List ℕ
  deriving DecidableEq, Repr

namespace Peer

/-- A peer in `start`. -/
def start : Peer P := ⟨none, none, 0, 0, none, [], []⟩

/-- `message_peers`. -/
def messagePeers (my_index : P) (peers : List P) : List (Send P) :=
  peers.map fun peer => (.peer peer, .flood (.hello (.peer my_index)))

/-- `send parent_pid, {:sum, sum}`, and back to `next`. -/
def sendSum (my_index : P) (self : Peer P) (sum : ℕ) : Peer P × List (Send P) :=
  ({ self with
      messagesReceived := self.messagesReceived + 1
      waiting := none
      sums := self.sums ++ [sum] },
    self.parent.toList.map fun parent => (parent, .sum sum (my_index, self.sums.length)))

/-- The `receive`s of `start` and `next`, the inner one included, with what is sent; `none` where
no clause matches. `sensor_reading` is what `get_random_sensor_reading` returns if it is
called. -/
def next (my_index : P) (self : Peer P) (msg : Msg P) (sensor_reading : ℕ) :
    Option (Peer P × List (Send P)) :=
  match self.waiting, msg with
  | some w, .sum v tag =>
    let received := w.received ++ [(v, tag)]
    if w.remaining = 1 then
      some (sendSum my_index self ((received.map Prod.fst).sum + w.sensorReading))
    else some ({ self with waiting := some ⟨w.remaining - 1, received, w.sensorReading⟩ }, [])
  | none, .flood msg =>
    match self.peers, msg with
    | none, .neighbours peers => some ({ self with peers := some peers }, [])
    | some peers, .hello sender =>
      let sent := messagePeers my_index peers
      if self.parent = none then
        some ({ self with
          parent := some sender, messagesReceived := self.messagesReceived + 1 },
          sent ++ [(sender, .flood .child)])
      else
        let self := { self with readings := self.readings ++ [sensor_reading] }
        if self.children = 0 then
          let (self, sums) := sendSum my_index self sensor_reading
          some (self, sent ++ sums)
        else some ({ self with waiting := some ⟨self.children, [], sensor_reading⟩ }, sent)
    | some _, .child =>
      some ({ self with
        children := self.children + 1, messagesReceived := self.messagesReceived + 1 }, [])
    | _, _ => none
  | _, _ => none

/-- **What a peer does.** -/
inductive Receives (my_index : P) (self : Peer P) (sensor_reading : ℕ) :
    Msg P → Peer P → List (Send P) → Prop
  | bind {peers : List P} : self.waiting = none → self.peers = none →
      Receives my_index self sensor_reading (.flood (.neighbours peers))
        { self with peers := some peers } []
  | child : self.waiting = none → self.peers ≠ none →
      Receives my_index self sensor_reading (.flood .child) { self with
        children := self.children + 1, messagesReceived := self.messagesReceived + 1 } []
  | adopt {peers : List P} {sender : Pid P} : self.waiting = none → self.peers = some peers →
      self.parent = none →
      Receives my_index self sensor_reading (.flood (.hello sender)) { self with
        parent := some sender, messagesReceived := self.messagesReceived + 1 }
        (messagePeers my_index peers ++ [(sender, .flood .child)])
  | leaf {peers : List P} {sender : Pid P} : self.waiting = none → self.peers = some peers →
      self.parent ≠ none → self.children = 0 →
      Receives my_index self sensor_reading (.flood (.hello sender)) { self with
        messagesReceived := self.messagesReceived + 1
        waiting := none
        readings := self.readings ++ [sensor_reading]
        sums := self.sums ++ [sensor_reading] }
        (messagePeers my_index peers ++ self.parent.toList.map fun parent =>
          (parent, .sum sensor_reading (my_index, self.sums.length)))
  | wait {peers : List P} {sender : Pid P} : self.waiting = none → self.peers = some peers →
      self.parent ≠ none → self.children ≠ 0 →
      Receives my_index self sensor_reading (.flood (.hello sender)) { self with
        waiting := some ⟨self.children, [], sensor_reading⟩
        readings := self.readings ++ [sensor_reading] } (messagePeers my_index peers)
  | take {w : Waiting P} {v : ℕ} {tag : P × ℕ} : self.waiting = some w → w.remaining ≠ 1 →
      Receives my_index self sensor_reading (.sum v tag) { self with
        waiting := some ⟨w.remaining - 1, w.received ++ [(v, tag)], w.sensorReading⟩ } []
  | finish {w : Waiting P} {v total : ℕ} {tag : P × ℕ} : self.waiting = some w →
      w.remaining = 1 → total = ((w.received ++ [(v, tag)]).map Prod.fst).sum + w.sensorReading →
      Receives my_index self sensor_reading (.sum v tag) { self with
        messagesReceived := self.messagesReceived + 1
        waiting := none
        sums := self.sums ++ [total] }
        (self.parent.toList.map fun parent => (parent, .sum total (my_index, self.sums.length)))

theorem next_receives {my_index : P} {self p : Peer P} {msg : Msg P} {sensor_reading : ℕ}
    {sent : List (Send P)} (h : self.next my_index msg sensor_reading = some (p, sent)) :
    Receives my_index self sensor_reading msg p sent := by
  unfold next at h
  split at h
  · rename_i hwaiting
    dsimp only at h
    split at h
    · cases h
      exact .finish hwaiting ‹_› rfl
    · cases h
      exact .take hwaiting ‹_›
  · rename_i hwaiting
    split at h
    · cases h
      exact .bind hwaiting ‹_›
    · rename_i peers _ hpeers
      dsimp only at h
      by_cases hparent : self.parent = none
      · rw [if_pos hparent] at h
        cases h
        exact .adopt hwaiting hpeers hparent
      · rw [if_neg hparent] at h
        by_cases hchildren : self.children = 0
        · rw [if_pos hchildren] at h
          cases h
          exact .leaf hwaiting hpeers hparent hchildren
        · rw [if_neg hchildren] at h
          cases h
          exact .wait hwaiting hpeers hparent hchildren
    · rename_i hpeers
      cases h
      exact .child hwaiting (by rw [hpeers]; exact Option.some_ne_none _)
    · cases h
  · cases h

end Peer

/-- The peers, the messages in flight and the sum that `Flooding` has received. -/
structure State (P : Type) where
  peers : P → Peer P
  network : List (Send P)
  received : Option ℕ

/-- A peer receives a message, or `Flooding` its `:sum`. -/
inductive Action (P : Type) where
  | deliver (p : P) (msg : Msg P) (sensor_reading : ℕ)
  | arrive (v : ℕ) (tag : P × ℕ)

/-- The state after `Flooding.start` has sent its messages. -/
def start (g : Flood P) : State P where
  peers := fun _ => Peer.start
  network := (g.first :: g.rest).map (fun p => (.peer p, .flood (.neighbours (g.neighbours p)))) ++
    [(.peer g.first, .flood (.hello .flooding))]
  received := none

variable [DecidableEq P] in
/-- A process receives a message in flight to it. -/
def step (s : State P) : Action P → Option (State P)
  | .deliver p msg sensor_reading =>
    if (.peer p, msg) ∈ s.network then
      ((s.peers p).next p msg sensor_reading).map fun (self, sent) =>
        { s with
          peers := Function.update s.peers p self
          network := s.network.erase (.peer p, msg) ++ sent }
    else none
  | .arrive v tag =>
    if s.received = none ∧ (.flooding, .sum v tag) ∈ s.network then
      some { s with received := some v, network := s.network.erase (.flooding, .sum v tag) }
    else none

/-! ## The lab that counts children -/

/-- What the lab that counts children keeps of a peer. A greeting counts as received when the sum
it started has been sent. -/
def Peer.tree (self : Peer P) : ChildCounts.Peer P where
  peers := self.peers
  parent := self.parent
  children := self.children
  messagesReceived := self.messagesReceived + self.waiting.toList.length

/-- The messages without the sums. -/
def floods (network : List (Send P)) : List (ChildCounts.Send P) :=
  network.filterMap fun
    | (dst, .flood msg) => some (dst, msg)
    | (_, .sum _ _) => none

/-- The state of the lab that counts children. -/
def State.tree (s : State P) : ChildCounts.State P where
  peers := fun p => (s.peers p).tree
  network := floods s.network

theorem mem_floods {network : List (Send P)} {dst : Pid P} {msg : ChildCounts.Msg P} :
    (dst, msg) ∈ floods network ↔ (dst, .flood msg) ∈ network := by
  unfold floods
  rw [List.mem_filterMap]
  constructor
  · rintro ⟨⟨dst', msg' | _⟩, hmem, heq⟩
    · cases heq
      exact hmem
    · cases heq
  · exact fun hmem => ⟨_, hmem, rfl⟩

theorem floods_append (network sent : List (Send P)) :
    floods (network ++ sent) = floods network ++ floods sent :=
  List.filterMap_append

theorem floods_messagePeers (my_index : P) (peers : List P) :
    floods (Peer.messagePeers my_index peers) = ChildCounts.Peer.messagePeers my_index peers := by
  induction peers with
  | nil => rfl
  | cons peer peers ih => exact congrArg _ ih

theorem floods_sums (x : Option (Pid P)) (v : ℕ) (tag : P × ℕ) :
    floods (x.toList.map fun parent => (parent, .sum v tag)) = [] := by
  cases x <;> rfl

/-- A message of the lab that counts children is handled as there. -/
theorem tree_receives {p : P} {self self' : Peer P} {r : ℕ} {msg : Msg P} {sent : List (Send P)}
    (h : self.Receives p r msg self' sent) :
    (∃ m, msg = .flood m ∧ self.tree.next p m = some (self'.tree, floods sent)) ∨
      ∃ v tag, msg = .sum v tag ∧ self'.tree = self.tree ∧ floods sent = [] := by
  cases h with
  | bind hw hpeers =>
    refine Or.inl ⟨_, rfl, ?_⟩
    simp only [Peer.tree, ChildCounts.Peer.next, hpeers]
    rfl
  | child hw hpeers =>
    refine Or.inl ⟨_, rfl, ?_⟩
    obtain ⟨peers, hp⟩ := Option.ne_none_iff_exists'.mp hpeers
    simp only [Peer.tree, ChildCounts.Peer.next, hp, hw]
    rfl
  | adopt hw hpeers hparent =>
    refine Or.inl ⟨_, rfl, ?_⟩
    simp only [Peer.tree, ChildCounts.Peer.next, hpeers, hw, hparent, floods_append,
      floods_messagePeers]
    rfl
  | leaf hw hpeers hparent _ =>
    refine Or.inl ⟨_, rfl, ?_⟩
    simp only [Peer.tree, ChildCounts.Peer.next, hpeers, hw, if_pos hparent, floods_append,
      floods_messagePeers, floods_sums, List.append_nil]
    rfl
  | wait hw hpeers hparent _ =>
    refine Or.inl ⟨_, rfl, ?_⟩
    simp only [Peer.tree, ChildCounts.Peer.next, hpeers, hw, if_pos hparent,
      floods_messagePeers]
    rfl
  | take hw _ =>
    refine Or.inr ⟨_, _, rfl, ?_, rfl⟩
    simp only [Peer.tree, hw]
    rfl
  | finish hw _ _ =>
    refine Or.inr ⟨_, _, rfl, ?_, floods_sums _ _ _⟩
    simp only [Peer.tree, hw]
    rfl

theorem tree_start (g : Flood P) : (start g).tree = ChildCounts.start g := by
  have hbinds : ∀ l : List P,
      floods (l.map fun p => (.peer p, .flood (.neighbours (g.neighbours p)))) =
        l.map fun p => (.peer p, .neighbours (g.neighbours p)) := by
    intro l
    induction l with
    | nil => rfl
    | cons p l ih => exact congrArg _ ih
  rw [State.tree, start, floods_append, hbinds]
  rfl

variable [DecidableEq P]

theorem floods_erase_flood (network : List (Send P)) (dst : Pid P) (msg : ChildCounts.Msg P) :
    floods (network.erase (dst, .flood msg)) = (floods network).erase (dst, msg) := by
  induction network with
  | nil => rfl
  | cons e network ih =>
    by_cases he : e = (dst, .flood msg)
    · subst he
      simp [floods]
    · rw [List.erase_cons_tail (by simpa using he)]
      obtain ⟨dst', msg' | _⟩ := e
      · have hne : (dst', msg') ≠ (dst, msg) := fun h => he (by cases h; rfl)
        have hcons : ∀ l, floods ((dst', .flood msg') :: l) = (dst', msg') :: floods l :=
          fun _ => rfl
        rw [hcons, hcons, List.erase_cons_tail (by simpa using hne), ih]
      · exact ih

theorem floods_erase_sum (network : List (Send P)) (dst : Pid P) (v : ℕ) (tag : P × ℕ) :
    floods (network.erase (dst, .sum v tag)) = floods network := by
  induction network with
  | nil => rfl
  | cons e network ih =>
    by_cases he : e = (dst, .sum v tag)
    · subst he
      rw [List.erase_cons_head]
      rfl
    · rw [List.erase_cons_tail (by simpa using he)]
      unfold floods
      rw [List.filterMap_cons, List.filterMap_cons]
      unfold floods at ih
      rw [ih]

/-! ## Steps, seen from there -/

theorem step_deliver {s t : State P} {p : P} {msg : Msg P} {r : ℕ}
    (h : step s (.deliver p msg r) = some t) :
    (.peer p, msg) ∈ s.network ∧ ∃ self sent, (s.peers p).Receives p r msg self sent ∧
      t = { s with
        peers := Function.update s.peers p self
        network := s.network.erase (.peer p, msg) ++ sent } := by
  unfold step at h
  dsimp only at h
  by_cases hmem : (.peer p, msg) ∈ s.network
  · rw [if_pos hmem] at h
    obtain ⟨⟨self, sent⟩, hnext, rfl⟩ := Option.map_eq_some_iff.mp h
    exact ⟨hmem, self, sent, Peer.next_receives hnext, rfl⟩
  · rw [if_neg hmem] at h
    cases h

theorem step_arrive {s t : State P} {v : ℕ} {tag : P × ℕ} (h : step s (.arrive v tag) = some t) :
    s.received = none ∧ (.flooding, .sum v tag) ∈ s.network ∧
      t = { s with
        received := some v, network := s.network.erase (.flooding, .sum v tag) } := by
  unfold step at h
  dsimp only at h
  by_cases hmem : s.received = none ∧ (.flooding, .sum v tag) ∈ s.network
  · rw [if_pos hmem] at h
    cases h
    exact ⟨hmem.1, hmem.2, rfl⟩
  · rw [if_neg hmem] at h
    cases h

theorem tree_update (s : State P) (p : P) (self : Peer P) :
    (fun q => (Function.update s.peers p self q).tree) =
      Function.update s.tree.peers p self.tree := by
  funext q
  by_cases hq : q = p
  · subst hq
    rw [Function.update_self, Function.update_self]
  · rw [Function.update_of_ne hq, Function.update_of_ne hq]
    rfl

/-- **With its sums left out**, a step is a step of the lab that counts children or changes
nothing. -/
theorem tree_step {s t : State P} {a : Action P} (h : step s a = some t) :
    (∃ b, ChildCounts.step s.tree b = some t.tree) ∨ t.tree = s.tree := by
  cases a with
  | arrive v tag =>
    obtain ⟨-, -, rfl⟩ := step_arrive h
    exact Or.inr (by rw [State.tree, floods_erase_sum]; rfl)
  | deliver p msg r =>
    obtain ⟨hmem, self, sent, hself, rfl⟩ := step_deliver h
    obtain ⟨m, rfl, hnext⟩ | ⟨v, tag, rfl, htree, hsent⟩ := tree_receives hself
    · refine Or.inl ⟨(p, m), ?_⟩
      have hnext' : (s.tree.peers p).next p m = some (self.tree, floods sent) := hnext
      have hfloods : (.peer p, m) ∈ s.tree.network := mem_floods.mpr hmem
      unfold ChildCounts.step
      dsimp only
      rw [if_pos hfloods, hnext', Option.map_some]
      simp only [State.tree, tree_update, floods_append, floods_erase_flood]
    · refine Or.inr ?_
      rw [State.tree, tree_update, floods_append, floods_erase_sum, hsent, List.append_nil, htree]
      have hself : Function.update s.tree.peers p (s.peers p).tree = s.tree.peers :=
        Function.update_eq_self p s.tree.peers
      rw [hself]
      rfl

end DocMachine.Flooding.Summary
