import DocMachine.Lib.Forest
import DocMachine.Lib.Run

/-!
# Flooding that counts children

Model of the lab `lab2/store-child-counts/lib` (`peer.ex`: `start` 8-16, `next` 18-36,
`message_peers` 38-43; `flooding.ex`: `start` 20-34, `bind` 37-40). `Flooding` binds every peer to
its neighbours and greets the first one; a peer passes every greeting on to its neighbours, and
takes the sender of its first one for its parent, to whom it sends `:child`.

* A process is known by its pid. The string a peer puts beside its pid in a greeting only names it,
  and a peer that keeps the string as its parent keeps the pid here.
* A `Flood` is any list of peers with any neighbours for each, not only the ring that the source
  binds.
* The handler of a message is one step. Any message in flight may be received next; one for which
  the process has no clause at that point stays in its mailbox, which is counted as in flight. The
  timeout of `next` only logs.
* The parents of the peers are a graph, of which the library on parent pointers speaks.

Results:
* `next_cases`: what a peer does with a message.
* `step_parent`: a step leaves a parent as it is, or sets one that was not set to the sender of the
  greeting.
* `count_step`: a step keeps the count. The children of a peer are the `:child`s that it has counted
  and those in flight to it.
* `spanningTree`: in every state that can be reached the parents lead to `Flooding`, no peer is its
  own ancestor, and the count of every peer plus what is in flight is the number of its children; a
  parent is never changed.
-/

namespace DocMachine.Flooding

open DocMachine.Lib.Run DocMachine.Lib.Forest

/-- Who sends and receives: `Flooding` or a peer. -/
inductive Pid (P : Type) where
  | flooding
  | peer (p : P)
  deriving DecidableEq, Repr

/-- What `Flooding.start` spawns: the peers in order, the first of which it greets, and the
neighbours it binds each of them to. -/
structure Flood (P : Type) where
  first : P
  rest : List P
  neighbours : P → List P

namespace ChildCounts

variable {P : Type}

/-- The messages of the lab. -/
inductive Msg (P : Type) where
  | neighbours (peers : List P)
  | hello (sender : Pid P)
  | child
  deriving DecidableEq, Repr

/-- A message and whom it is for. -/
abbrev Send (P : Type) := Pid P × Msg P

/-- The arguments of `Peer.next`; `peers` is `none` as long as the peer stands in `start`. -/
structure Peer (P : Type) where
  peers : Option (List P)
  parent : Option (Pid P)
  children : ℕ
  messagesReceived : ℕ
  deriving DecidableEq, Repr

namespace Peer

/-- A peer in `start`. -/
def start : Peer P := ⟨none, none, 0, 0⟩

/-- `message_peers`: a greeting for every neighbour. -/
def messagePeers (my_index : P) (peers : List P) : List (Send P) :=
  peers.map fun peer => (.peer peer, .hello (.peer my_index))

/-- The `receive` of `start` and of `next`, with what is sent; `none` where no clause matches. -/
def next (my_index : P) (self : Peer P) (msg : Msg P) : Option (Peer P × List (Send P)) :=
  match self.peers, msg with
  | none, .neighbours peers => some ({ self with peers := some peers }, [])
  | some _, .child =>
    some ({ self with
      children := self.children + 1, messagesReceived := self.messagesReceived + 1 }, [])
  | some peers, .hello sender =>
    let sent := messagePeers my_index peers
    if self.parent ≠ none then
      some ({ self with messagesReceived := self.messagesReceived + 1 }, sent)
    else
      some ({ self with
        parent := some sender, messagesReceived := self.messagesReceived + 1 },
        sent ++ [(sender, .child)])
  | _, _ => none

/-- **What a peer does**: it is bound, counts a child, passes a greeting on, or takes its
parent. -/
theorem next_cases {my_index : P} {self p : Peer P} {msg : Msg P} {sent : List (Send P)}
    (h : self.next my_index msg = some (p, sent)) :
    (∃ peers, msg = .neighbours peers ∧ self.peers = none ∧
      p = { self with peers := some peers } ∧ sent = []) ∨
    (msg = .child ∧ sent = [] ∧ self.peers ≠ none ∧ p = { self with
      children := self.children + 1, messagesReceived := self.messagesReceived + 1 }) ∨
    (∃ sender peers, msg = .hello sender ∧ self.peers = some peers ∧ self.parent ≠ none ∧
      p = { self with messagesReceived := self.messagesReceived + 1 } ∧
      sent = messagePeers my_index peers) ∨
    (∃ sender peers, msg = .hello sender ∧ self.peers = some peers ∧ self.parent = none ∧
      p = { self with parent := some sender, messagesReceived := self.messagesReceived + 1 } ∧
      sent = messagePeers my_index peers ++ [(sender, .child)]) := by
  unfold next at h
  split at h
  · cases h
    exact Or.inl ⟨_, rfl, ‹_›, rfl, rfl⟩
  · cases h
    rename_i hpeers
    exact Or.inr (Or.inl ⟨rfl, rfl, by rw [hpeers]; exact Option.some_ne_none _, rfl⟩)
  · rename_i sender hpeers
    by_cases hparent : self.parent = none
    · simp only [ne_eq, hparent, not_true_eq_false, if_false] at h
      cases h
      exact Or.inr (Or.inr (Or.inr ⟨sender, _, rfl, hpeers, hparent, rfl, rfl⟩))
    · simp only [ne_eq, hparent, not_false_eq_true, if_true] at h
      cases h
      exact Or.inr (Or.inr (Or.inl ⟨sender, _, rfl, hpeers, hparent, rfl, rfl⟩))
  · cases h

theorem mem_messagePeers {my_index : P} {peers : List P} {send : Send P} :
    send ∈ messagePeers my_index peers ↔
      ∃ peer ∈ peers, (.peer peer, .hello (.peer my_index)) = send :=
  List.mem_map

end Peer

/-- The peers, and the messages in flight. -/
structure State (P : Type) where
  peers : P → Peer P
  network : List (Send P)

/-- The state after `Flooding.start`. -/
def start (g : Flood P) : State P where
  peers := fun _ => Peer.start
  network := (g.first :: g.rest).map (fun p => (.peer p, .neighbours (g.neighbours p))) ++
    [(.peer g.first, .hello .flooding)]

section

variable [DecidableEq P]

/-- A peer receives a message in flight to it. -/
def step (s : State P) (a : P × Msg P) : Option (State P) :=
  if (.peer a.1, a.2) ∈ s.network then
    ((s.peers a.1).next a.1 a.2).map fun (self, sent) =>
      { peers := Function.update s.peers a.1 self
        network := s.network.erase (.peer a.1, a.2) ++ sent }
  else none

theorem step_spec {s t : State P} {p : P} {msg : Msg P} (h : step s (p, msg) = some t) :
    (.peer p, msg) ∈ s.network ∧ ∃ self sent, (s.peers p).next p msg = some (self, sent) ∧
      t.peers = Function.update s.peers p self ∧
      t.network = s.network.erase (.peer p, msg) ++ sent := by
  unfold step at h
  by_cases hmem : (.peer p, msg) ∈ s.network
  · rw [if_pos hmem] at h
    obtain ⟨⟨self, sent⟩, hnext, rfl⟩ := Option.map_eq_some_iff.mp h
    exact ⟨hmem, self, sent, hnext, rfl, rfl⟩
  · rw [if_neg hmem] at h
    cases h

/-! ## Parents -/

/-- The parent of a process; `Flooding` has none. -/
def parentOf (s : State P) : Pid P → Option (Pid P)
  | .flooding => none
  | .peer p => (s.peers p).parent

theorem parent_update {s t : State P} {p : P} {self : Peer P}
    (h : t.peers = Function.update s.peers p self) (q : P) :
    (t.peers q).parent = if q = p then self.parent else (s.peers q).parent := by
  by_cases hq : q = p
  · subst hq
    rw [h, Function.update_self, if_pos rfl]
  · rw [h, Function.update_of_ne hq, if_neg hq]

theorem parent_update_self {s t : State P} {p : P} {self : Peer P}
    (h : t.peers = Function.update s.peers p self) (hself : self.parent = (s.peers p).parent)
    (q : P) : (t.peers q).parent = (s.peers q).parent := by
  rw [parent_update h]
  by_cases hq : q = p
  · rw [if_pos hq, hself, hq]
  · rw [if_neg hq]

/-- What a step does to a parent: it stays, or it was not set and is now the sender of the
greeting received. -/
theorem step_parent {s t : State P} {p : P} {msg : Msg P} (h : step s (p, msg) = some t) :
    (∀ q, (t.peers q).parent = (s.peers q).parent) ∨
      ∃ sender, msg = .hello sender ∧ (s.peers p).parent = none ∧
        ∀ q, (t.peers q).parent = if q = p then some sender else (s.peers q).parent := by
  obtain ⟨-, self, sent, hnext, hpeers, -⟩ := step_spec h
  obtain ⟨_, -, -, rfl, -⟩ | ⟨-, -, -, rfl⟩ | ⟨_, _, -, -, -, rfl, -⟩ |
    ⟨sender, _, rfl, -, hnone, rfl, -⟩ := Peer.next_cases hnext
  · exact Or.inl (parent_update_self hpeers rfl)
  · exact Or.inl (parent_update_self hpeers rfl)
  · exact Or.inl (parent_update_self hpeers rfl)
  · exact Or.inr ⟨sender, rfl, hnone, parent_update hpeers⟩

/-- A parent that is set stays the same. -/
theorem step_parent_stable {s t : State P} {a : P × Msg P} (h : step s a = some t) {q : P}
    {x : Pid P} (hq : (s.peers q).parent = some x) : (t.peers q).parent = some x := by
  obtain hkeep | ⟨sender, -, hnone, hset⟩ := step_parent h
  · rw [hkeep, hq]
  · by_cases hp : q = a.1
    · rw [hp, hnone] at hq
      cases hq
    · rw [hset, if_neg hp, hq]

theorem run_parent_stable {s t : State P} {as : List (P × Msg P)} (h : run step s as = some t)
    {q : P} {x : Pid P} (hq : (s.peers q).parent = some x) : (t.peers q).parent = some x :=
  invariant (P := fun s => (s.peers q).parent = some x)
    (fun _ _ _ hs hstep => step_parent_stable hstep hs) hq h

theorem Edge.step {s t : State P} {a : P × Msg P} (h : step s a = some t) (v w : Pid P)
    (he : Edge (parentOf s) v w) : Edge (parentOf t) v w := by
  cases v with
  | flooding => cases he
  | peer q => exact step_parent_stable h he

/-! ## Counts -/

/-- The children a process has counted; `Flooding` counts none. -/
def counted (s : State P) : Pid P → ℕ
  | .flooding => 0
  | .peer p => (s.peers p).children

theorem counted_update {s t : State P} {p : P} {self : Peer P}
    (h : t.peers = Function.update s.peers p self) (x : Pid P) :
    counted t x = if x = .peer p then self.children else counted s x := by
  cases x with
  | flooding => rfl
  | peer q =>
    by_cases hq : q = p
    · subst hq
      rw [if_pos rfl, counted, h, Function.update_self]
    · rw [if_neg fun h => hq (Pid.peer.inj h), counted, h, Function.update_of_ne hq, counted]

/-- Messages sent count on top of those left in flight. -/
theorem count_sent {network : List (Send P)} (sent : List (Send P)) {e : Send P} (e' : Send P)
    (he : e ∈ network) : (network.erase e ++ sent).count e' + (if e = e' then 1 else 0) =
      network.count e' + sent.count e' := by
  rw [List.count_append, List.count_erase]
  by_cases h : e = e'
  · subst h
    have hpos := List.count_pos_iff.mpr he
    simp only [beq_self_eq_true, if_true]
    omega
  · simp only [beq_iff_eq, h, if_false]
    omega

theorem count_messagePeers (my_index : P) (peers : List P) (x : Pid P) :
    (Peer.messagePeers my_index peers).count (x, .child) = 0 := by
  refine List.count_eq_zero.mpr fun h => ?_
  obtain ⟨_, -, h⟩ := Peer.mem_messagePeers.mp h
  cases h

variable [Fintype P]

/-- The peers that have a given parent, after peer `p` took one. -/
theorem card_parent_update {s t : State P} {p : P} {sender : Pid P}
    (hnone : (s.peers p).parent = none)
    (hset : ∀ q, (t.peers q).parent = if q = p then some sender else (s.peers q).parent)
    (x : Pid P) :
    (Finset.univ.filter fun q => (t.peers q).parent = some x).card =
      (Finset.univ.filter fun q => (s.peers q).parent = some x).card +
        if sender = x then 1 else 0 := by
  by_cases hx : sender = x
  · subst hx
    have hp : p ∉ Finset.univ.filter fun q => (s.peers q).parent = some sender := by
      rw [Finset.mem_filter, hnone]
      rintro ⟨-, h⟩
      cases h
    rw [if_pos rfl, ← Finset.card_insert_of_notMem hp]
    congr 1
    ext q
    rw [Finset.mem_insert, Finset.mem_filter, Finset.mem_filter, hset]
    by_cases hq : q = p <;> simp [hq]
  · rw [if_neg hx, Nat.add_zero]
    congr 1
    ext q
    rw [Finset.mem_filter, Finset.mem_filter, hset]
    by_cases hq : q = p
    · rw [if_pos hq, hq, hnone]
      simp [hx]
    · rw [if_neg hq]

/-- **One step keeps the count**: a greeting that gives a peer its parent puts one `:child` in
flight, and a `:child` received moves from the messages in flight to the counter. -/
theorem count_step {s t : State P} {p : P} {msg : Msg P}
    (hs : ∀ x, counted s x + s.network.count (x, .child) =
      (Finset.univ.filter fun p => (s.peers p).parent = some x).card)
    (h : step s (p, msg) = some t) (x : Pid P) :
    counted t x + t.network.count (x, .child) =
      (Finset.univ.filter fun p => (t.peers p).parent = some x).card := by
  obtain ⟨hmem, self, sent, hnext, hpeers, hnetwork⟩ := step_spec h
  have hx := hs x
  have hflight := count_sent sent (x, Msg.child) hmem
  have hcounted := counted_update hpeers x
  have hparents : (∀ q, (t.peers q).parent = (s.peers q).parent) →
      (Finset.univ.filter fun p => (t.peers p).parent = some x).card =
        (Finset.univ.filter fun p => (s.peers p).parent = some x).card :=
    fun hkeep => congrArg _ (Finset.filter_congr fun q _ => by rw [hkeep])
  have hchildren : self.children = (s.peers p).children → counted t x = counted s x := by
    intro hself
    rw [hcounted]
    by_cases hxp : x = .peer p
    · subst hxp
      rw [if_pos rfl, hself]
      rfl
    · rw [if_neg hxp]
  rw [← hnetwork] at hflight
  obtain ⟨_, rfl, -, rfl, rfl⟩ | ⟨rfl, rfl, -, rfl⟩ | ⟨_, _, rfl, -, _, rfl, rfl⟩ |
    ⟨sender, _, rfl, -, hnone, rfl, rfl⟩ := Peer.next_cases hnext
  · simp only [Prod.mk.injEq, reduceCtorEq, and_false, if_false, List.count_nil] at hflight
    rw [hparents (parent_update_self hpeers rfl), hchildren rfl]
    omega
  · rw [hparents (parent_update_self hpeers rfl), hcounted]
    by_cases hxp : x = .peer p
    · subst hxp
      simp only [if_true, List.count_nil] at hflight
      have hold : counted s (.peer p) = (s.peers p).children := rfl
      rw [if_pos rfl]
      dsimp only
      omega
    · simp only [Prod.mk.injEq, Ne.symm hxp, false_and, if_false, List.count_nil] at hflight
      rw [if_neg hxp]
      omega
  · simp only [Prod.mk.injEq, reduceCtorEq, and_false, if_false, count_messagePeers] at hflight
    rw [hparents (parent_update_self hpeers rfl), hchildren rfl]
    omega
  · simp only [Prod.mk.injEq, reduceCtorEq, and_false, if_false, List.count_append,
      count_messagePeers, List.count_singleton, beq_iff_eq, and_true] at hflight
    rw [card_parent_update hnone (parent_update hpeers), hchildren rfl]
    omega

/-! ## Invariants -/

/-- Every greeting comes from a process whose parents lead to `Flooding`, so taking its sender
for a parent closes no cycle, and every peer that takes a parent has sent it a `:child`. -/
structure Inv (s : State P) : Prop where
  hello : ∀ dst x, (dst, .hello x) ∈ s.network → Rooted (parentOf s) .flooding x
  parent : ∀ p x, (s.peers p).parent = some x → Rooted (parentOf s) .flooding x
  count : ∀ x, counted s x + s.network.count (x, .child) =
    (Finset.univ.filter fun p => (s.peers p).parent = some x).card

theorem inv_start (g : Flood P) : Inv (start g) where
  hello := by
    intro dst x h
    simp only [start, List.mem_append, List.mem_map, Prod.mk.injEq, reduceCtorEq, and_false,
      exists_false, List.mem_singleton, Msg.hello.injEq, false_or] at h
    rw [h.2]
    exact .root
  parent := by
    intro p x h
    cases h
  count := by
    intro x
    have hnone : (x, Msg.child) ∉ (start g).network := by
      simp [start]
    have hcounted : counted (start g) x = 0 := by cases x <;> rfl
    rw [hcounted, List.count_eq_zero.mpr hnone, Finset.filter_false_of_mem]
    · rfl
    · intro p _ h
      cases h

theorem Inv.step {s t : State P} (hi : Inv s) {a : P × Msg P} (h : step s a = some t) :
    Inv t := by
  obtain ⟨p, msg⟩ := a
  have hgrow : ∀ {v}, Rooted (parentOf s) .flooding v → Rooted (parentOf t) .flooding v :=
    Rooted.mono (Edge.step h)
  obtain ⟨hmem, self, sent, hnext, hpeers, hnetwork⟩ := step_spec h
  -- a greeting that is sent comes from `p`, which then has a parent
  have hsent : ∀ dst x, (dst, .hello x) ∈ sent → x = .peer p ∧
      ∃ sender, msg = .hello sender ∧ self.parent ≠ none := by
    intro dst x hx
    obtain ⟨_, -, -, -, rfl⟩ | ⟨-, rfl, -, -⟩ | ⟨sender, _, rfl, -, hp, rfl, rfl⟩ |
      ⟨sender, _, rfl, -, -, rfl, rfl⟩ := Peer.next_cases hnext
    · cases hx
    · cases hx
    · obtain ⟨_, -, heq⟩ := Peer.mem_messagePeers.mp hx
      cases heq
      exact ⟨rfl, sender, rfl, hp⟩
    · rcases List.mem_append.mp hx with hx | hx
      · obtain ⟨_, -, heq⟩ := Peer.mem_messagePeers.mp hx
        cases heq
        exact ⟨rfl, sender, rfl, Option.some_ne_none _⟩
      · rw [List.mem_singleton] at hx
        cases hx
  have hparent : ∀ q x, (t.peers q).parent = some x → Rooted (parentOf t) .flooding x := by
    intro q x hq
    obtain hkeep | ⟨sender, rfl, -, hset⟩ := step_parent h
    · exact hgrow (hi.parent q x (hkeep q ▸ hq))
    · rw [hset] at hq
      by_cases hqp : q = p
      · rw [if_pos hqp] at hq
        cases hq
        exact hgrow (hi.hello _ _ hmem)
      · rw [if_neg hqp] at hq
        exact hgrow (hi.parent q x hq)
  refine ⟨fun dst x hx => ?_, hparent, fun x => ?_⟩
  · rw [hnetwork, List.mem_append] at hx
    rcases hx with hx | hx
    · exact hgrow (hi.hello dst x (List.mem_of_mem_erase hx))
    · obtain ⟨rfl, -, -, hself⟩ := hsent dst x hx
      obtain ⟨y, hy⟩ := Option.ne_none_iff_exists'.mp hself
      have hty : (t.peers p).parent = some y := by rw [hpeers, Function.update_self, hy]
      exact .child hty (hparent p y hty)
  · exact count_step hi.count h x

theorem inv_of_run {g : Flood P} {as : List (P × Msg P)} {s : State P}
    (h : run step (start g) as = some s) : Inv s :=
  invariant (fun _ _ _ hi hstep => hi.step hstep) (inv_start g) h

/-- **Flooding builds a spanning tree with correct child counts.** In every state that can be
reached the parents of a peer that has one lead to `Flooding` and no peer is its own ancestor; a
parent is never changed; and the peers that have a given process for their parent are the
children it has counted and the `:child` messages on their way to it. -/
theorem spanningTree (g : Flood P) {as : List (P × Msg P)} {s : State P}
    (h : run step (start g) as = some s) :
    (∀ p, (s.peers p).parent ≠ none →
      Relation.TransGen (Edge (parentOf s)) (.peer p) .flooding) ∧
    (∀ p, ¬ Relation.TransGen (Edge (parentOf s)) (.peer p) (.peer p)) ∧
    (∀ bs t p x, run step s bs = some t → (s.peers p).parent = some x →
      (t.peers p).parent = some x) ∧
    ∀ x, counted s x + s.network.count (x, .child) =
      (Finset.univ.filter fun p => (s.peers p).parent = some x).card := by
  have hi := inv_of_run h
  refine ⟨fun p hp => ?_, fun p hcycle => ?_, fun _ _ _ _ hrun => run_parent_stable hrun,
    hi.count⟩
  · obtain ⟨x, hx⟩ := Option.ne_none_iff_exists'.mp hp
    have hedge : Edge (parentOf s) (.peer p) x := hx
    exact Relation.TransGen.head' hedge (hi.parent p x hx).reflTransGen
  · obtain ⟨x, hx, -⟩ := Relation.TransGen.head'_iff.mp hcycle
    have hrooted : Rooted (parentOf s) .flooding (.peer p) := .child hx (hi.parent p x hx)
    exact hrooted.not_transGen rfl hcycle

/-- Two peers, each a neighbour of the other. -/
def pair : Flood (Fin 2) := ⟨0, [1], fun p => [1 - p]⟩

/-- Peer 0 takes the greeting of `Flooding`, peer 1 that of peer 0, and peer 0 counts its child. -/
def pairRun : List (Fin 2 × Msg (Fin 2)) :=
  [(0, .neighbours [1]), (1, .neighbours [0]), (0, .hello .flooding), (1, .hello (.peer 0)),
    (0, .child)]

theorem spanningTree_pair : ∃ s : State (Fin 2), run step (start pair) pairRun = some s ∧
    s.network.count (.flooding, .child) = 1 ∧ (s.peers 0).children = 1 ∧
      (s.peers 1).parent = some (.peer 0) ∧
      Relation.TransGen (Edge (parentOf s)) (.peer 1) .flooding ∧
      ∀ p, ¬ Relation.TransGen (Edge (parentOf s)) (.peer p) (.peer p) := by
  obtain ⟨s, h, hcount, hchildren, hparent⟩ : ∃ s, run step (start pair) pairRun = some s ∧
      s.network.count (.flooding, .child) = 1 ∧ (s.peers 0).children = 1 ∧
      (s.peers 1).parent = some (.peer 0) := ⟨_, rfl, rfl, rfl, rfl⟩
  obtain ⟨hreach, hacyclic, -⟩ := spanningTree pair h
  exact ⟨s, h, hcount, hchildren, hparent, hreach 1 (by rw [hparent]; exact Option.some_ne_none _),
    hacyclic⟩

end

end ChildCounts

end DocMachine.Flooding
