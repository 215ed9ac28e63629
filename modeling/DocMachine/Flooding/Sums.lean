import DocMachine.Flooding.Summary

/-!
# When the first sum is right

About the lab `lab2/summary-function/lib` (`peer.ex` 20-57, `flooding.ex` 20-38). `Flooding` prints
one received sum, which should be that of the readings of all peers. But a peer starts to sum at the
first greeting that finds it with a parent.

* It may do so before all its children have taken it for their parent, or before their `:child`s
  have come in; and as it sums again at every later greeting, a sum may be taken in place of another
  child's. `Complete` is the condition on a step that this does not happen.
* `FirstSums` says which sums a waiting peer has taken: first sums of children, each at most once.
* `Inv` is what a run of such steps keeps. Its equation `total` says that the first sum of a peer is
  its reading and the first sums of its children.
* Added up over all peers the equation leaves the first peer's sum and all readings
  (`sum_of_children` of the library).

Results:
* `mem_sent`: what a peer sends in a step, on which the cases of the invariant rest.
* `Inv.not_adopt`: no peer takes a parent that has started to sum.
* `Inv.take_first` and `Inv.total_of_last`: a collecting peer takes first sums only, and the last
  one makes its total.
* `Inv.first_sum`: when the first peer has sent a sum, its first one is the sum of all first
  readings.
* `always_summed`: a run whose steps are `Complete` brings `Flooding` the sum of one reading of
  every peer; `not_always_summed_pair` is a run that does not.
-/

namespace DocMachine.Flooding.Summary

open DocMachine.Lib.Run DocMachine.Lib.Forest

variable {P : Type}

/-! ## What one peer does -/

namespace Peer.Receives

variable {p : P} {self self' : Peer P} {r : ℕ} {msg : Msg P} {sent : List (Send P)}

theorem parent_cases (h : self.Receives p r msg self' sent) :
    self'.parent = self.parent ∨
      ∃ x, msg = .flood (.hello x) ∧ self.parent = none ∧ self'.parent = some x := by
  cases h with
  | adopt _ _ hnone => exact Or.inr ⟨_, rfl, hnone, rfl⟩
  | _ => exact Or.inl rfl

theorem peers_cases (h : self.Receives p r msg self' sent) :
    self'.peers = self.peers ∨
      ∃ peers, msg = .flood (.neighbours peers) ∧ self'.peers = some peers := by
  cases h with
  | bind => exact Or.inr ⟨_, rfl, rfl⟩
  | _ => exact Or.inl rfl

theorem readings_cases (h : self.Receives p r msg self' sent) :
    self'.readings = self.readings ∨ ∃ x, msg = .flood (.hello x) ∧ self.parent ≠ none ∧
      self'.readings = self.readings ++ [r] := by
  cases h with
  | leaf _ _ hparent _ => exact Or.inr ⟨_, rfl, hparent, rfl⟩
  | wait _ _ hparent _ => exact Or.inr ⟨_, rfl, hparent, rfl⟩
  | _ => exact Or.inl rfl

theorem sums_cases (h : self.Receives p r msg self' sent) :
    self'.sums = self.sums ∨ ∃ total, self'.sums = self.sums ++ [total] := by
  cases h with
  | leaf => exact Or.inr ⟨_, rfl⟩
  | finish => exact Or.inr ⟨_, rfl⟩
  | _ => exact Or.inl rfl

theorem mem_toList_map {x : Option (Pid P)} {f : Pid P → Send P} {e : Send P}
    (h : e ∈ x.toList.map f) : ∃ y, x = some y ∧ e = f y := by
  obtain ⟨y, hy, rfl⟩ := List.mem_map.mp h
  exact ⟨y, Option.mem_toList.mp hy, rfl⟩

/-- What a peer sends: greetings to its neighbours, a `:child` to the parent it takes, and sums to
its parent. -/
theorem mem_sent (h : self.Receives p r msg self' sent) {dst : Pid P} {m : Msg P}
    (hm : (dst, m) ∈ sent) :
    (∃ peers q, self.peers = some peers ∧ q ∈ peers ∧ dst = .peer q ∧
        m = .flood (.hello (.peer p))) ∨
    (m = .flood .child ∧ msg = .flood (.hello dst) ∧ self.parent = none) ∨
    ∃ total, m = .sum total (p, self.sums.length) ∧ self.parent = some dst ∧
      self'.sums = self.sums ++ [total] := by
  have hgreet : ∀ peers, self.peers = some peers → (dst, m) ∈ messagePeers p peers →
      ∃ peers q, self.peers = some peers ∧ q ∈ peers ∧ dst = .peer q ∧
        m = .flood (.hello (.peer p)) := by
    intro peers hpeers hmem
    obtain ⟨q, hq, heq⟩ := List.mem_map.mp hmem
    cases heq
    exact ⟨peers, q, hpeers, hq, rfl, rfl⟩
  cases h with
  | bind => cases hm
  | child => cases hm
  | take => cases hm
  | adopt _ hpeers hnone =>
    rcases List.mem_append.mp hm with hm | hm
    · exact Or.inl (hgreet _ hpeers hm)
    · rw [List.mem_singleton] at hm
      cases hm
      exact Or.inr (Or.inl ⟨rfl, rfl, hnone⟩)
  | leaf _ hpeers _ _ =>
    rcases List.mem_append.mp hm with hm | hm
    · exact Or.inl (hgreet _ hpeers hm)
    · obtain ⟨y, hy, heq⟩ := mem_toList_map hm
      cases heq
      exact Or.inr (Or.inr ⟨_, rfl, hy, rfl⟩)
  | wait _ hpeers _ _ => exact Or.inl (hgreet _ hpeers hm)
  | finish _ _ _ =>
    obtain ⟨y, hy, heq⟩ := mem_toList_map hm
    cases heq
    exact Or.inr (Or.inr ⟨_, rfl, hy, rfl⟩)

/-- A first sum is sent by a peer that had sent none. -/
theorem first_sent (h : self.Receives p r msg self' sent) {x : Pid P} {v : ℕ} {q : P}
    (hx : (x, .sum v (q, 0)) ∈ sent) : q = p ∧ self.sums = [] := by
  obtain ⟨_, _, -, -, -, hm⟩ | ⟨hm, -, -⟩ | ⟨_, hm, -, -⟩ := h.mem_sent hx
  · cases hm
  · cases hm
  · injection hm with _ htag
    injection htag with hq hlen
    exact ⟨hq, List.eq_nil_of_length_eq_zero hlen.symm⟩

/-- A sum is sent once. -/
theorem count_sum_le [DecidableEq P] (h : self.Receives p r msg self' sent) (dst : Pid P) (v : ℕ)
    (tag : P × ℕ) : sent.count (dst, .sum v tag) ≤ 1 := by
  have hgreet : ∀ peers, (messagePeers p peers).count (dst, .sum v tag) = 0 := by
    intro peers
    refine List.count_eq_zero.mpr fun hmem => ?_
    obtain ⟨_, -, heq⟩ := List.mem_map.mp hmem
    cases heq
  have hsum : ∀ (x : Option (Pid P)) (f : Pid P → Send P),
      (x.toList.map f).count (dst, .sum v tag) ≤ 1 := by
    intro x f
    refine List.count_le_length.trans ?_
    cases x <;> simp
  cases h with
  | bind => exact Nat.zero_le 1
  | child => exact Nat.zero_le 1
  | take => exact Nat.zero_le 1
  | adopt =>
    rw [List.count_append, hgreet, List.count_singleton]
    simp
  | leaf =>
    rw [List.count_append, hgreet, Nat.zero_add]
    exact hsum _ _
  | wait =>
    rw [hgreet]
    exact Nat.zero_le 1
  | finish => exact hsum _ _

end Peer.Receives

/-! ## Growing -/

/-- Parents stay, and sums and readings are only added at the end. -/
structure Grows (s t : State P) : Prop where
  parent : ∀ q x, (s.peers q).parent = some x → (t.peers q).parent = some x
  sums : ∀ q, ∃ l, (t.peers q).sums = (s.peers q).sums ++ l
  readings : ∀ q, ∃ l, (t.peers q).readings = (s.peers q).readings ++ l

variable {s t : State P}

theorem Grows.parent_ne_none (h : Grows s t) {q : P}
    (hq : (s.peers q).parent ≠ none) : (t.peers q).parent ≠ none := by
  obtain ⟨x, hx⟩ := Option.ne_none_iff_exists'.mp hq
  rw [h.parent q x hx]
  exact Option.some_ne_none x

theorem head?_append_of_some {α : Type} {l l' : List α} {v : α} (h : l.head? = some v) :
    (l ++ l').head? = some v := by
  rw [List.head?_append, h, Option.some_or]

theorem Grows.sums_head (h : Grows s t) {q : P} {v : ℕ}
    (hv : (s.peers q).sums.head? = some v) : (t.peers q).sums.head? = some v := by
  obtain ⟨l, hl⟩ := h.sums q
  rw [hl, head?_append_of_some hv]

theorem Grows.readings_head (h : Grows s t) {q : P} {v : ℕ}
    (hv : (s.peers q).readings.head? = some v) : (t.peers q).readings.head? = some v := by
  obtain ⟨l, hl⟩ := h.readings q
  rw [hl, head?_append_of_some hv]

theorem Grows.sums_getElem (h : Grows s t) {q : P} {n v : ℕ}
    (hv : (s.peers q).sums[n]? = some v) : (t.peers q).sums[n]? = some v := by
  obtain ⟨l, hl⟩ := h.sums q
  obtain ⟨hn, -⟩ := List.getElem?_eq_some_iff.mp hv
  rw [hl, List.getElem?_append_left hn, hv]

/-- What `p` has received are the first sums of different children, none of them still in
flight. -/
structure FirstSums (s : State P) (p : P) (received : List (ℕ × P × ℕ)) : Prop where
  child : ∀ e ∈ received, (s.peers e.2.1).parent = some (.peer p)
  head : ∀ e ∈ received, (s.peers e.2.1).sums.head? = some e.1
  gone : ∀ e ∈ received, ∀ x v, (x, .sum v (e.2.1, 0)) ∉ s.network
  nodup : (received.map fun e => e.2.1).Nodup

theorem FirstSums.mono {received : List (ℕ × P × ℕ)} {q : P}
    (hf : FirstSums s q received) (hgrows : Grows s t)
    (hnet : ∀ x v q', (s.peers q').sums ≠ [] → (x, .sum v (q', 0)) ∈ t.network →
      (x, .sum v (q', 0)) ∈ s.network) : FirstSums t q received where
  child := fun e he => hgrows.parent _ _ (hf.child e he)
  head := fun e he => hgrows.sums_head (hf.head e he)
  gone := by
    intro e he x v hx
    refine hf.gone e he x v (hnet x v _ (fun hnil => ?_) hx)
    have hhead := hf.head e he
    rw [hnil] at hhead
    cases hhead
  nodup := hf.nodup

theorem mem_start {g : Flood P} {x : Pid P} {m : Msg P} (h : (x, m) ∈ (start g).network) :
    (∃ p, x = .peer p ∧ m = .flood (.neighbours (g.neighbours p))) ∨
      x = .peer g.first ∧ m = .flood (.hello .flooding) := by
  rcases List.mem_append.mp h with h | h
  · obtain ⟨p, -, heq⟩ := List.mem_map.mp h
    cases heq
    exact Or.inl ⟨p, rfl, rfl⟩
  · rw [List.mem_singleton] at h
    cases h
    exact Or.inr ⟨rfl, rfl⟩

/-! ## The state after a message -/

section

variable [DecidableEq P]

/-- The state after peer `p` has handled a message. -/
def State.handled (s : State P) (p : P) (msg : Msg P) (self : Peer P) (sent : List (Send P)) :
    State P :=
  { s with
    peers := Function.update s.peers p self
    network := s.network.erase (.peer p, msg) ++ sent }

variable {p : P} {msg : Msg P} {self : Peer P} {sent : List (Send P)} {r : ℕ}

theorem peers_handled (s : State P) (p : P) (msg : Msg P) (self : Peer P) (sent : List (Send P))
    (q : P) : (s.handled p msg self sent).peers q = if q = p then self else s.peers q := by
  by_cases hq : q = p
  · subst hq
    rw [if_pos rfl]
    exact Function.update_self ..
  · rw [if_neg hq]
    exact Function.update_of_ne hq ..

theorem peers_handled_self (s : State P) (p : P) (msg : Msg P) (self : Peer P)
    (sent : List (Send P)) : (s.handled p msg self sent).peers p = self := by
  rw [peers_handled, if_pos rfl]

theorem mem_handled {dst : Pid P} {m : Msg P}
    (h : (dst, m) ∈ (s.handled p msg self sent).network) :
    (dst, m) ∈ s.network ∨ (dst, m) ∈ sent :=
  (List.mem_append.mp h).imp_left List.mem_of_mem_erase

theorem Grows.handled (h : (s.peers p).Receives p r msg self sent) :
    Grows s (s.handled p msg self sent) where
  parent := by
    intro q x hx
    rw [peers_handled]
    by_cases hq : q = p
    · subst hq
      obtain hkeep | ⟨_, -, hnone, -⟩ := h.parent_cases
      · rw [if_pos rfl, hkeep, hx]
      · rw [hnone] at hx
        cases hx
    · rw [if_neg hq, hx]
  sums := by
    intro q
    rw [peers_handled]
    by_cases hq : q = p
    · subst hq
      rw [if_pos rfl]
      obtain hkeep | ⟨total, hadd⟩ := h.sums_cases
      · exact ⟨[], by rw [hkeep, List.append_nil]⟩
      · exact ⟨[total], hadd⟩
    · exact ⟨[], by rw [if_neg hq, List.append_nil]⟩
  readings := by
    intro q
    rw [peers_handled]
    by_cases hq : q = p
    · subst hq
      rw [if_pos rfl]
      obtain hkeep | ⟨_, -, -, hadd⟩ := h.readings_cases
      · exact ⟨[], by rw [hkeep, List.append_nil]⟩
      · exact ⟨[r], hadd⟩
    · exact ⟨[], by rw [if_neg hq, List.append_nil]⟩

end

/-! ## The condition and the invariant -/

variable [DecidableEq P]

/-- A peer that starts its first sum has only neighbours that have a parent, and no `:child` is on
its way to it; a peer in its first sum, and `Flooding`, take the first sum of its sender. -/
def Complete (g : Flood P) (s : State P) : Action P → Prop
  | .deliver p (.flood (.hello _)) _ => (s.peers p).parent ≠ none → (s.peers p).readings = [] →
      (∀ q ∈ g.neighbours p, (s.peers q).parent ≠ none) ∧ (.peer p, .flood .child) ∉ s.network
  | .deliver p (.sum _ tag) _ => (s.peers p).sums = [] → tag.2 = 0
  | .arrive _ tag => tag.2 = 0
  | _ => True

instance (g : Flood P) (s : State P) : ∀ a, Decidable (Complete g s a)
  | .deliver _ (.flood (.hello _)) _ => inferInstanceAs (Decidable (_ → _ → _ ∧ _))
  | .deliver _ (.sum _ _) _ => inferInstanceAs (Decidable (_ → _))
  | .arrive _ _ => inferInstanceAs (Decidable (_ = _))
  | .deliver _ (.flood (.neighbours _)) _ => isTrue trivial
  | .deliver _ (.flood .child) _ => isTrue trivial

/-- The first sum of a peer is being collected, and as many sums are still to come as there are
children left. -/
structure Collecting (s : State P) (p : P) (w : Waiting P) : Prop where
  reading : (s.peers p).readings = [w.sensorReading]
  received : FirstSums s p w.received
  count : w.received.length + w.remaining = (s.peers p).children
  pos : 0 < w.remaining

variable [Fintype P]

/-- The peers that have `p` for their parent. -/
def childrenOf (s : State P) (p : P) : Finset P :=
  Finset.univ.filter fun q => (s.peers q).parent = some (.peer p)

/-- `v` is the first reading of `p` and the first sums of its children, which all have one. -/
def Total (s : State P) (p : P) (v : ℕ) : Prop :=
  ∃ reading, (s.peers p).readings.head? = some reading ∧
    (∀ q ∈ childrenOf s p, (s.peers q).sums ≠ []) ∧
    v = reading + ∑ q ∈ childrenOf s p, (s.peers q).sums.headD 0

/-- What holds as long as every step is `Complete`. -/
structure Inv (g : Flood P) (s : State P) : Prop where
  tree : ChildCounts.Inv s.tree
  bound : ∀ p peers, (s.peers p).peers = some peers → peers = g.neighbours p
  neighbours : ∀ p peers, (.peer p, .flood (.neighbours peers)) ∈ s.network →
    peers = g.neighbours p
  hello : ∀ p q, (.peer q, .flood (.hello (.peer p))) ∈ s.network → q ∈ g.neighbours p
  greeted : ∀ q, (.peer q, .flood (.hello .flooding)) ∈ s.network → q = g.first
  root : ∀ q, (s.peers q).parent = some .flooding → q = g.first
  /-- A peer that has started to sum gets no more children. -/
  begun : ∀ p, (s.peers p).readings ≠ [] → (s.peers p).parent ≠ none ∧
    (∀ q ∈ g.neighbours p, (s.peers q).parent ≠ none) ∧ (.peer p, .flood .child) ∉ s.network
  sent : ∀ x v q n, (x, .sum v (q, n)) ∈ s.network →
    (s.peers q).parent = some x ∧ (s.peers q).sums[n]? = some v
  once : ∀ x v q, s.network.count (x, .sum v (q, 0)) ≤ 1
  readings : ∀ p, (s.peers p).readings = [] ↔
    (s.peers p).waiting = none ∧ (s.peers p).sums = []
  collecting : ∀ p w, (s.peers p).waiting = some w → (s.peers p).sums = [] → Collecting s p w
  total : ∀ p v, (s.peers p).sums.head? = some v → Total s p v
  received : ∀ v, s.received = some v → ∃ q, (s.peers q).parent = some .flooding ∧
    (s.peers q).sums.head? = some v

/-! ## What a step keeps -/

variable {g : Flood P} {p : P} {msg : Msg P} {self : Peer P}
  {sent : List (Send P)} {r : ℕ}

theorem Inv.bound_handled (hi : Inv g s) (h : (s.peers p).Receives p r msg self sent)
    (hmem : (.peer p, msg) ∈ s.network) (q : P) (peers : List P)
    (hq : ((s.handled p msg self sent).peers q).peers = some peers) : peers = g.neighbours q := by
  rw [peers_handled] at hq
  by_cases hqp : q = p
  · subst hqp
    rw [if_pos rfl] at hq
    obtain hkeep | ⟨peers', rfl, hset⟩ := h.peers_cases
    · exact hi.bound q peers (hkeep ▸ hq)
    · rw [hset] at hq
      cases hq
      exact hi.neighbours q _ hmem
  · rw [if_neg hqp] at hq
    exact hi.bound q peers hq

theorem Inv.hello_handled (hi : Inv g s) (h : (s.peers p).Receives p r msg self sent) (p' q : P)
    (hq : (.peer q, .flood (.hello (.peer p'))) ∈ (s.handled p msg self sent).network) :
    q ∈ g.neighbours p' := by
  rcases mem_handled hq with hq | hq
  · exact hi.hello p' q hq
  · obtain ⟨peers, q', hpeers, hmem, hdst, hm⟩ | ⟨hm, -, -⟩ | ⟨_, hm, -, -⟩ := h.mem_sent hq
    · cases hdst
      cases hm
      rw [← hi.bound _ peers hpeers]
      exact hmem
    · cases hm
    · cases hm

/-- No peer takes a parent that has started to sum, and with it no `:child` is sent to one. -/
theorem Inv.not_adopt (hi : Inv g s) {q : P} (hq : (s.peers q).readings ≠ [])
    (hmem : (.peer p, .flood (.hello (.peer q))) ∈ s.network) : (s.peers p).parent ≠ none :=
  (hi.begun q hq).2.1 p (hi.hello q p hmem)

theorem Inv.begun_handled (hi : Inv g s) (h : (s.peers p).Receives p r msg self sent)
    (hmem : (.peer p, msg) ∈ s.network) (hG : Complete g s (.deliver p msg r)) (q : P)
    (hq : ((s.handled p msg self sent).peers q).readings ≠ []) :
    ((s.handled p msg self sent).peers q).parent ≠ none ∧
      (∀ q' ∈ g.neighbours q, ((s.handled p msg self sent).peers q').parent ≠ none) ∧
      (.peer q, .flood .child) ∉ (s.handled p msg self sent).network := by
  have hgrows := Grows.handled h
  have hbefore : (s.peers q).parent ≠ none ∧ (∀ q' ∈ g.neighbours q, (s.peers q').parent ≠ none) ∧
      (.peer q, .flood .child) ∉ s.network ∧ (.peer q, .flood .child) ∉ sent := by
    by_cases hold : (s.peers q).readings = []
    · -- `q` has just started, so it is the peer that was greeted
      rw [peers_handled] at hq
      by_cases hqp : q = p
      · subst hqp
        rw [if_pos rfl] at hq
        obtain hkeep | ⟨x, rfl, hparent, -⟩ := h.readings_cases
        · exact absurd (hkeep.trans hold) hq
        · obtain ⟨hneighbours, hchild⟩ := hG hparent hold
          refine ⟨hparent, hneighbours, hchild, fun hsent => ?_⟩
          obtain ⟨_, _, -, -, -, hm⟩ | ⟨-, -, hnone⟩ | ⟨_, hm, -, -⟩ := h.mem_sent hsent
          · cases hm
          · exact hparent hnone
          · cases hm
      · rw [if_neg hqp] at hq
        exact absurd hold hq
    · obtain ⟨hparent, hneighbours, hchild⟩ := hi.begun q hold
      refine ⟨hparent, hneighbours, hchild, fun hsent => ?_⟩
      obtain ⟨_, _, -, -, -, hm⟩ | ⟨-, rfl, hnone⟩ | ⟨_, hm, -, -⟩ := h.mem_sent hsent
      · cases hm
      · exact hi.not_adopt hold hmem hnone
      · cases hm
  obtain ⟨hparent, hneighbours, hchild, hsent⟩ := hbefore
  refine ⟨hgrows.parent_ne_none hparent,
    fun q' hq' => hgrows.parent_ne_none (hneighbours q' hq'), fun hnet => ?_⟩
  exact (mem_handled hnet).elim hchild hsent

theorem Inv.root_handled (hi : Inv g s) (h : (s.peers p).Receives p r msg self sent)
    (hmem : (.peer p, msg) ∈ s.network) (q : P)
    (hq : ((s.handled p msg self sent).peers q).parent = some .flooding) : q = g.first := by
  rw [peers_handled] at hq
  by_cases hqp : q = p
  · subst hqp
    rw [if_pos rfl] at hq
    obtain hkeep | ⟨x, rfl, -, hset⟩ := h.parent_cases
    · exact hi.root q (hkeep ▸ hq)
    · rw [hset] at hq
      cases hq
      exact hi.greeted q hmem
  · rw [if_neg hqp] at hq
    exact hi.root q hq

theorem Inv.sent_handled (hi : Inv g s) (h : (s.peers p).Receives p r msg self sent) (x : Pid P)
    (v : ℕ) (q : P) (n : ℕ) (hx : (x, .sum v (q, n)) ∈ (s.handled p msg self sent).network) :
    ((s.handled p msg self sent).peers q).parent = some x ∧
      ((s.handled p msg self sent).peers q).sums[n]? = some v := by
  have hgrows := Grows.handled h
  rcases mem_handled hx with hx | hx
  · obtain ⟨hparent, hsums⟩ := hi.sent x v q n hx
    exact ⟨hgrows.parent q x hparent, hgrows.sums_getElem hsums⟩
  · obtain ⟨_, _, -, -, -, hm⟩ | ⟨hm, -, -⟩ | ⟨total, hm, hparent, hsums⟩ := h.mem_sent hx
    · cases hm
    · cases hm
    · cases hm
      refine ⟨hgrows.parent _ x hparent, ?_⟩
      rw [peers_handled_self, hsums, List.getElem?_concat_length]

/-- While a peer has sent no sum, none of its sums is in flight. -/
theorem Inv.no_sum (hi : Inv g s) {q : P} (hq : (s.peers q).sums = []) (x : Pid P) (v n : ℕ) :
    (x, .sum v (q, n)) ∉ s.network := by
  intro hx
  have hsums := (hi.sent x v q n hx).2
  rw [hq] at hsums
  cases hsums

theorem Inv.once_handled (hi : Inv g s) (h : (s.peers p).Receives p r msg self sent) (x : Pid P)
    (v : ℕ) (q : P) : (s.handled p msg self sent).network.count (x, .sum v (q, 0)) ≤ 1 := by
  have hnet : (s.handled p msg self sent).network = s.network.erase (.peer p, msg) ++ sent := rfl
  have herase : (s.network.erase (.peer p, msg)).count (x, .sum v (q, 0)) ≤
      s.network.count (x, .sum v (q, 0)) := List.Sublist.count_le _ List.erase_sublist
  rw [hnet, List.count_append]
  by_cases hsent : (x, .sum v (q, 0)) ∈ sent
  · obtain ⟨rfl, hnone⟩ := h.first_sent hsent
    have hzero : s.network.count (x, .sum v (q, 0)) = 0 :=
      List.count_eq_zero.mpr (hi.no_sum hnone x v 0)
    have hone := h.count_sum_le x v (q, 0)
    omega
  · have hzero : sent.count (x, .sum v (q, 0)) = 0 := List.count_eq_zero.mpr hsent
    have hone := hi.once x v q
    omega

theorem Inv.readings_handled (hi : Inv g s) (h : (s.peers p).Receives p r msg self sent) (q : P) :
    ((s.handled p msg self sent).peers q).readings = [] ↔
      ((s.handled p msg self sent).peers q).waiting = none ∧
        ((s.handled p msg self sent).peers q).sums = [] := by
  rw [peers_handled]
  by_cases hqp : q = p
  · subst hqp
    rw [if_pos rfl]
    have hq := hi.readings q
    cases h with
    | bind => exact hq
    | child => exact hq
    | adopt => exact hq
    | leaf => simp
    | wait => simp
    | take hw => simp [hq, hw]
    | finish hw => simp [hq, hw]
  · rw [if_neg hqp]
    exact hi.readings q

/-! ## Collecting the first sums -/

/-- A first sum received comes from a child that has not been counted yet, and there is no second
copy of it. -/
theorem Inv.firstSums_snoc (hi : Inv g s) {received : List (ℕ × P × ℕ)}
    (hf : FirstSums s p received) {v : ℕ} {q : P}
    (hmem : (.peer p, .sum v (q, 0)) ∈ s.network) :
    FirstSums { s with network := s.network.erase (.peer p, .sum v (q, 0)) } p
      (received ++ [(v, q, 0)]) := by
  obtain ⟨hparent, hsums⟩ := hi.sent _ v q 0 hmem
  rw [← List.head?_eq_getElem?] at hsums
  refine ⟨fun e he => ?_, fun e he => ?_, fun e he x v' hx => ?_, ?_⟩
  · rcases List.mem_append.mp he with he | he
    · exact hf.child e he
    · rw [List.mem_singleton.mp he]
      exact hparent
  · rcases List.mem_append.mp he with he | he
    · exact hf.head e he
    · rw [List.mem_singleton.mp he]
      exact hsums
  · rcases List.mem_append.mp he with he | he
    · exact hf.gone e he x v' (List.mem_of_mem_erase hx)
    · obtain rfl := List.mem_singleton.mp he
      change (x, Msg.sum v' (q, 0)) ∈ _ at hx
      obtain ⟨hparent', hsums'⟩ := hi.sent x v' q 0 (List.mem_of_mem_erase hx)
      rw [← List.head?_eq_getElem?, hsums] at hsums'
      rw [hparent] at hparent'
      cases hsums'
      cases hparent'
      have hpos := List.count_pos_iff.mpr hx
      have hone := hi.once (.peer p) v q
      rw [List.count_erase_self] at hpos
      omega
  · rw [List.map_append, List.nodup_append]
    refine ⟨hf.nodup, List.nodup_singleton _, fun a ha b hb heq => ?_⟩
    obtain ⟨e, he, rfl⟩ := List.mem_map.mp ha
    rw [List.map_singleton, List.mem_singleton] at hb
    refine hf.gone e he (.peer p) v ?_
    rw [heq, hb]
    exact hmem

/-- Once a first sum of every child has been received, they are the first sums of all
children. -/
theorem FirstSums.sum {received : List (ℕ × P × ℕ)} (hf : FirstSums s p received)
    (hlen : received.length = (childrenOf s p).card) :
    (∀ q ∈ childrenOf s p, (s.peers q).sums ≠ []) ∧
      (received.map Prod.fst).sum = ∑ q ∈ childrenOf s p, (s.peers q).sums.headD 0 := by
  have hsub : (received.map fun e => e.2.1).toFinset ⊆ childrenOf s p := by
    intro q hq
    obtain ⟨e, he, rfl⟩ := List.mem_map.mp (List.mem_toFinset.mp hq)
    exact Finset.mem_filter.mpr ⟨Finset.mem_univ _, hf.child e he⟩
  have hcard : (received.map fun e => e.2.1).toFinset.card = (childrenOf s p).card := by
    rw [List.toFinset_card_of_nodup hf.nodup, List.length_map, hlen]
  have heq := Finset.eq_of_subset_of_card_le hsub hcard.ge
  constructor
  · intro q hq hnil
    rw [← heq] at hq
    obtain ⟨e, he, rfl⟩ := List.mem_map.mp (List.mem_toFinset.mp hq)
    have hhead := hf.head e he
    rw [hnil] at hhead
    cases hhead
  · rw [← heq, List.sum_toFinset _ hf.nodup, List.map_map]
    refine congrArg List.sum (List.map_congr_left fun e he => ?_)
    rw [Function.comp_apply, List.headD_eq_head?_getD, hf.head e he]
    rfl

theorem Total.mono {t : State P} {v : ℕ} (h : Total s p v) (hgrows : Grows s t)
    (hchildren : childrenOf t p = childrenOf s p) : Total t p v := by
  obtain ⟨reading, hreading, hall, hv⟩ := h
  have hhead : ∀ q ∈ childrenOf s p, ∃ u, (s.peers q).sums.head? = some u := by
    intro q hq
    cases hsums : (s.peers q).sums with
    | nil => exact absurd hsums (hall q hq)
    | cons u l => exact ⟨u, rfl⟩
  refine ⟨reading, hgrows.readings_head hreading, fun q hq hnil => ?_, ?_⟩
  · rw [hchildren] at hq
    obtain ⟨u, hu⟩ := hhead q hq
    have ht := hgrows.sums_head hu
    rw [hnil] at ht
    cases ht
  · rw [hv, hchildren]
    refine congrArg _ (Finset.sum_congr rfl fun q hq => ?_)
    obtain ⟨u, hu⟩ := hhead q hq
    rw [List.headD_eq_head?_getD, List.headD_eq_head?_getD, hu, hgrows.sums_head hu]

/-- A peer gets no new child, unless it is the one whose greeting is received. -/
theorem childrenOf_handled (h : (s.peers p).Receives p r msg self sent) {q : P}
    (hq : (s.peers p).parent = none → msg ≠ .flood (.hello (.peer q))) :
    childrenOf (s.handled p msg self sent) q = childrenOf s q := by
  refine Finset.filter_congr fun q' _ => ?_
  rw [peers_handled]
  by_cases hp : q' = p
  · subst hp
    rw [if_pos rfl]
    obtain hkeep | ⟨x, rfl, hnone, hset⟩ := h.parent_cases
    · rw [hkeep]
    · rw [hset, hnone]
      refine iff_of_false (fun hx => hq hnone ?_) (fun hx => by cases hx)
      rw [Option.some.inj hx]
  · rw [if_neg hp]

theorem Inv.childrenOf_begun (hi : Inv g s) (h : (s.peers p).Receives p r msg self sent)
    (hmem : (.peer p, msg) ∈ s.network) {q : P} (hq : (s.peers q).readings ≠ []) :
    childrenOf (s.handled p msg self sent) q = childrenOf s q := by
  refine childrenOf_handled h fun hnone heq => ?_
  rw [heq] at hmem
  exact hi.not_adopt hq hmem hnone

/-- With no `:child` in flight to it, a peer has counted all its children. -/
theorem Inv.card_childrenOf (hi : Inv g s) {q : P} (hchild : (.peer q, .flood .child) ∉ s.network) :
    (childrenOf s q).card = (s.peers q).children := by
  have hcount := hi.tree.count (.peer q)
  have hzero : s.tree.network.count (.peer q, .child) = 0 :=
    List.count_eq_zero.mpr fun hmem => hchild (mem_floods.mp hmem)
  rw [hzero, Nat.add_zero] at hcount
  exact hcount.symm

/-- A peer that collects takes only first sums. -/
theorem Inv.take_first (hi : Inv g s) {w : Waiting P} (hc : Collecting s p w) {v : ℕ}
    {tag : P × ℕ} (hmem : (.peer p, .sum v tag) ∈ s.network)
    (hG : Complete g s (.deliver p (.sum v tag) r)) (hnil : (s.peers p).sums = []) :
    FirstSums { s with network := s.network.erase (.peer p, .sum v tag) } p
      (w.received ++ [(v, tag)]) := by
  obtain ⟨q, n⟩ := tag
  have hn : n = 0 := hG hnil
  subst hn
  exact hi.firstSums_snoc hc.received hmem

theorem Inv.collecting_handled (hi : Inv g s) (h : (s.peers p).Receives p r msg self sent)
    (hmem : (.peer p, msg) ∈ s.network) (hG : Complete g s (.deliver p msg r)) (q : P)
    (w : Waiting P) (hw : ((s.handled p msg self sent).peers q).waiting = some w)
    (hnil : ((s.handled p msg self sent).peers q).sums = []) :
    Collecting (s.handled p msg self sent) q w := by
  have hgrows := Grows.handled h
  -- a first sum that is sent is sent by a peer without sums
  have hnet : ∀ x v q', (s.peers q').sums ≠ [] →
      (x, .sum v (q', 0)) ∈ (s.handled p msg self sent).network →
      (x, .sum v (q', 0)) ∈ s.network.erase (.peer p, msg) := by
    intro x v q' hq' hx
    refine (List.mem_append.mp hx).resolve_right fun hsent => ?_
    obtain ⟨rfl, hnone⟩ := h.first_sent hsent
    exact hq' hnone
  by_cases hqp : q = p
  · subst hqp
    have hpeer := peers_handled_self s q msg self sent
    rw [hpeer] at hw hnil
    cases h with
    | bind hnone => exact absurd (hnone.symm.trans hw) (Option.some_ne_none _).symm
    | child hnone => exact absurd (hnone.symm.trans hw) (Option.some_ne_none _).symm
    | adopt hnone => exact absurd (hnone.symm.trans hw) (Option.some_ne_none _).symm
    | leaf => cases hw
    | wait hnone _ _ hchildren =>
      cases hw
      have hreadings := (hi.readings q).mpr ⟨hnone, hnil⟩
      refine ⟨?_, ⟨?_, ?_, ?_, List.nodup_nil⟩, ?_, Nat.pos_of_ne_zero hchildren⟩
      · rw [hpeer, hreadings]
        rfl
      · exact fun e he => absurd he List.not_mem_nil
      · exact fun e he => absurd he List.not_mem_nil
      · exact fun e he => absurd he List.not_mem_nil
      · rw [hpeer]
        exact Nat.zero_add _
    | @take w' v tag hw' hremaining =>
      cases hw
      have hc := hi.collecting q w' hw' hnil
      have hfirst := hi.take_first hc hmem hG hnil
      have hcount := hc.count
      have hpos := hc.pos
      refine ⟨?_, hfirst.mono ⟨hgrows.parent, hgrows.sums, hgrows.readings⟩ hnet, ?_, ?_⟩
      · rw [hpeer]
        exact hc.reading
      · rw [hpeer, List.length_append, List.length_singleton]
        dsimp only
        omega
      · dsimp only
        omega
    | finish => cases hw
  · rw [peers_handled, if_neg hqp] at hw hnil
    have hc := hi.collecting q w hw hnil
    have hpeer : (s.handled p msg self sent).peers q = s.peers q := by
      rw [peers_handled, if_neg hqp]
    have hreceived := hc.received.mono hgrows fun x v q' hq' hx =>
      List.mem_of_mem_erase (hnet x v q' hq' hx)
    refine ⟨?_, hreceived, ?_, hc.pos⟩
    · rw [hpeer, hc.reading]
    · rw [hpeer, hc.count]

/-- The last sum that a peer takes makes its total. -/
theorem Inv.total_of_last (hi : Inv g s) {w : Waiting P} (hw : (s.peers p).waiting = some w)
    (hremaining : w.remaining = 1) (hnil : (s.peers p).sums = []) {v total : ℕ} {tag : P × ℕ}
    (htotal : total = ((w.received ++ [(v, tag)]).map Prod.fst).sum + w.sensorReading)
    (hmem : (.peer p, .sum v tag) ∈ s.network)
    (hG : Complete g s (.deliver p (.sum v tag) r)) : Total s p total := by
  have hc := hi.collecting p w hw hnil
  have hbegun : (s.peers p).readings ≠ [] := by
    rw [hc.reading]
    exact List.cons_ne_nil _ _
  have hlen : (w.received ++ [(v, tag)]).length = (childrenOf s p).card := by
    rw [hi.card_childrenOf (hi.begun p hbegun).2.2, ← hc.count, hremaining, List.length_append,
      List.length_singleton, Nat.add_comm]
  obtain ⟨hall, hsum⟩ := (hi.take_first hc hmem hG hnil).sum hlen
  refine ⟨w.sensorReading, ?_, hall, ?_⟩
  · rw [hc.reading]
    rfl
  · rw [htotal, hsum, Nat.add_comm]
    rfl

/-- A peer that starts its first sum and has counted no child has none. -/
theorem Inv.childrenOf_leaf (hi : Inv g s) {sender : Pid P}
    (hG : Complete g s (.deliver p (.flood (.hello sender)) r))
    (hparent : (s.peers p).parent ≠ none) (hreadings : (s.peers p).readings = [])
    (hchildren : (s.peers p).children = 0) : childrenOf s p = ∅ := by
  rw [← Finset.card_eq_zero, hi.card_childrenOf (hG hparent hreadings).2, hchildren]

theorem Inv.total_handled (hi : Inv g s) (h : (s.peers p).Receives p r msg self sent)
    (hmem : (.peer p, msg) ∈ s.network) (hG : Complete g s (.deliver p msg r)) (q : P) (v : ℕ)
    (hv : ((s.handled p msg self sent).peers q).sums.head? = some v) :
    Total (s.handled p msg self sent) q v := by
  have hgrows := Grows.handled h
  cases hsums : (s.peers q).sums with
  | cons u l =>
    have hu : (s.peers q).sums.head? = some u := by rw [hsums]; rfl
    have hvu := hgrows.sums_head hu
    rw [hv] at hvu
    cases hvu
    have hbegun : (s.peers q).readings ≠ [] := by
      intro hnil
      have hnone := ((hi.readings q).mp hnil).2
      rw [hsums] at hnone
      cases hnone
    exact (hi.total q v hu).mono hgrows (hi.childrenOf_begun h hmem hbegun)
  | nil =>
    -- `q` has just sent its first sum
    by_cases hqp : q = p
    · subst hqp
      have hpeer := peers_handled_self s q msg self sent
      have hsame := childrenOf_handled h (q := q)
      rw [hpeer] at hv
      cases h with
      | bind => rw [hsums] at hv; cases hv
      | child => rw [hsums] at hv; cases hv
      | adopt => rw [hsums] at hv; cases hv
      | wait => rw [hsums] at hv; cases hv
      | take => rw [hsums] at hv; cases hv
      | leaf hnone _ hparent hchildren =>
        rw [hsums] at hv
        cases hv
        have hreadings := (hi.readings q).mpr ⟨hnone, hsums⟩
        have hempty := hi.childrenOf_leaf hG hparent hreadings hchildren
        have hsame := hsame fun hp => absurd hp hparent
        refine ⟨r, ?_, ?_, ?_⟩
        · rw [hpeer, hreadings]
          rfl
        · rw [hsame, hempty]
          exact fun q' hq' => absurd hq' (Finset.notMem_empty q')
        · rw [hsame, hempty, Finset.sum_empty, Nat.add_zero]
      | @finish w u total tag hw hremaining htotal =>
        rw [hsums] at hv
        cases hv
        exact (hi.total_of_last hw hremaining hsums htotal hmem hG).mono hgrows
          (hsame fun _ hm => by cases hm)
    · rw [peers_handled, if_neg hqp, hsums] at hv
      cases hv

/-! ## Runs -/

theorem Inv.tree_step (hi : Inv g s) {t : State P} {a : Action P} (h : step s a = some t) :
    ChildCounts.Inv t.tree := by
  obtain ⟨b, hb⟩ | heq := Summary.tree_step h
  · exact hi.tree.step hb
  · rw [heq]
    exact hi.tree

theorem Inv.deliver (hi : Inv g s) {t : State P} (hG : Complete g s (.deliver p msg r))
    (hstep : step s (.deliver p msg r) = some t) : Inv g t := by
  have htree := hi.tree_step hstep
  obtain ⟨hmem, self, sent, h, rfl⟩ := step_deliver hstep
  change Inv g (s.handled p msg self sent)
  have hgrows := Grows.handled h
  refine ⟨htree, hi.bound_handled h hmem, fun q peers hq => ?_, hi.hello_handled h,
    fun q hq => ?_, hi.root_handled h hmem, hi.begun_handled h hmem hG, hi.sent_handled h,
    hi.once_handled h, hi.readings_handled h, hi.collecting_handled h hmem hG,
    hi.total_handled h hmem hG, fun v hv => ?_⟩
  · rcases mem_handled hq with hq | hq
    · exact hi.neighbours q peers hq
    · obtain ⟨_, _, -, -, -, hm⟩ | ⟨hm, -, -⟩ | ⟨_, hm, -, -⟩ := h.mem_sent hq <;> cases hm
  · rcases mem_handled hq with hq | hq
    · exact hi.greeted q hq
    · obtain ⟨_, _, -, -, -, hm⟩ | ⟨hm, -, -⟩ | ⟨_, hm, -, -⟩ := h.mem_sent hq <;> cases hm
  · obtain ⟨q, hparent, hhead⟩ := hi.received v hv
    exact ⟨q, hgrows.parent q _ hparent, hgrows.sums_head hhead⟩

theorem Inv.arrive (hi : Inv g s) {t : State P} {v : ℕ} {tag : P × ℕ}
    (hG : Complete g s (.arrive v tag)) (hstep : step s (.arrive v tag) = some t) : Inv g t := by
  have htree := hi.tree_step hstep
  obtain ⟨-, hmem, rfl⟩ := step_arrive hstep
  have hnet : ∀ {e : Send P}, e ∈ s.network.erase (.flooding, .sum v tag) → e ∈ s.network :=
    List.mem_of_mem_erase
  have hgrows : Grows s { s with
      received := some v, network := s.network.erase (.flooding, .sum v tag) } :=
    ⟨fun _ _ h => h, fun _ => ⟨[], (List.append_nil _).symm⟩,
      fun _ => ⟨[], (List.append_nil _).symm⟩⟩
  refine ⟨htree, hi.bound, fun q peers hq => hi.neighbours q peers (hnet hq),
    fun q q' hq => hi.hello q q' (hnet hq), fun q hq => hi.greeted q (hnet hq), hi.root,
    fun q hq => ?_, fun x u q n hx => hi.sent x u q n (hnet hx), fun x u q => ?_, hi.readings,
    fun q w hw hnil => ?_, hi.total, fun u hu => ?_⟩
  · obtain ⟨hparent, hneighbours, hchild⟩ := hi.begun q hq
    exact ⟨hparent, hneighbours, fun hx => hchild (hnet hx)⟩
  · exact (List.Sublist.count_le _ List.erase_sublist).trans (hi.once x u q)
  · have hc := hi.collecting q w hw hnil
    exact ⟨hc.reading, hc.received.mono hgrows fun _ _ _ _ hx => hnet hx, hc.count, hc.pos⟩
  · cases hu
    obtain ⟨q, n⟩ := tag
    have hn : n = 0 := hG
    subst hn
    obtain ⟨hparent, hsums⟩ := hi.sent _ v q 0 hmem
    rw [← List.head?_eq_getElem?] at hsums
    exact ⟨q, hparent, hsums⟩

theorem Inv.step {t : State P} (hi : Inv g s) {a : Action P} (hG : Complete g s a)
    (h : step s a = some t) : Inv g t := by
  cases a with
  | deliver p msg r => exact hi.deliver hG h
  | arrive v tag => exact hi.arrive hG h

theorem inv_start (g : Flood P) : Inv g (start g) where
  tree := by
    rw [tree_start]
    exact ChildCounts.inv_start g
  bound := fun _ _ h => by cases h
  neighbours := by
    intro p peers h
    obtain ⟨q, hx, hm⟩ | ⟨-, hm⟩ := mem_start h
    · cases hx
      cases hm
      rfl
    · cases hm
  hello := by
    intro p q h
    obtain ⟨_, -, hm⟩ | ⟨-, hm⟩ := mem_start h <;> cases hm
  greeted := by
    intro q h
    obtain ⟨_, -, hm⟩ | ⟨hx, -⟩ := mem_start h
    · cases hm
    · cases hx
      rfl
  root := fun _ h => by cases h
  begun := fun _ h => absurd rfl h
  sent := by
    intro x v q n h
    obtain ⟨_, -, hm⟩ | ⟨-, hm⟩ := mem_start h <;> cases hm
  once := by
    intro x v q
    refine (List.count_eq_zero.mpr fun h => ?_).trans_le (Nat.zero_le 1)
    obtain ⟨_, -, hm⟩ | ⟨-, hm⟩ := mem_start h <;> cases hm
  readings := fun _ => iff_of_true rfl ⟨rfl, rfl⟩
  collecting := fun _ _ h => by cases h
  total := fun _ _ h => by cases h
  received := fun _ h => by cases h

/-! ## The sum of all readings -/

/-- What `Flooding` has received is the sum of one reading of each peer. -/
def Summed (s : State P) : Prop :=
  ∀ v, s.received = some v → ∃ reading : P → ℕ,
    (∀ p, reading p ∈ (s.peers p).readings) ∧ v = ∑ p, reading p

/-- The children of a peer that has sent a sum have sent one, and so have, from the first peer
on, all peers that have a parent. -/
theorem Inv.sums_of_rooted (hi : Inv g s) (hfirst : (s.peers g.first).sums ≠ []) {x : Pid P}
    (hx : Rooted (ChildCounts.parentOf s.tree) .flooding x) {q : P} (hq : x = .peer q) :
    (s.peers q).sums ≠ [] := by
  induction hx generalizing q with
  | root => cases hq
  | @child v w he _ ih =>
    subst hq
    have hparent : (s.peers q).parent = some w := he
    cases w with
    | flooding =>
      rw [hi.root q hparent]
      exact hfirst
    | peer p =>
      cases hsums : (s.peers p).sums with
      | nil => exact absurd hsums (ih rfl)
      | cons u l =>
        obtain ⟨-, -, hall, -⟩ := hi.total p u (by rw [hsums]; rfl)
        exact hall q (Finset.mem_filter.mpr ⟨Finset.mem_univ q, hparent⟩)

/-- When the first peer has sent a sum, so has every peer. -/
theorem Inv.sums_of_first (hi : Inv g s) (hfirst : (s.peers g.first).sums ≠ [])
    (hreach : ∀ p, Relation.ReflTransGen (fun p q => q ∈ g.neighbours p) g.first p) (q : P) :
    (s.peers q).sums ≠ [] := by
  induction hreach q with
  | refl => exact hfirst
  | @tail p q _ hpq ih =>
    have hbegun : (s.peers p).readings ≠ [] := fun hnil => ih ((hi.readings p).mp hnil).2
    obtain ⟨x, hx⟩ := Option.ne_none_iff_exists'.mp ((hi.begun p hbegun).2.1 q hpq)
    have hedge : Edge (ChildCounts.parentOf s.tree) (.peer q) x := hx
    exact hi.sums_of_rooted hfirst (.child hedge (hi.tree.parent q x hx)) rfl

/-- The parent of a peer, if it is a peer. -/
def peerParent (s : State P) (q : P) : Option P :=
  match (s.peers q).parent with
  | some (.peer p) => some p
  | _ => none

omit [DecidableEq P] [Fintype P] in
theorem peerParent_eq_some {q : P} {p : P} :
    peerParent s q = some p ↔ (s.peers q).parent = some (.peer p) := by
  unfold peerParent
  split
  · rename_i hparent
    rw [hparent, Option.some_inj, Option.some_inj, Pid.peer.injEq]
  · rename_i hne
    exact iff_of_false (fun h => by cases h) (fun h => hne p h)

/-- When the first peer has sent a sum, its first one is the sum of all first readings. -/
theorem Inv.first_sum (hi : Inv g s)
    (hreach : ∀ p, Relation.ReflTransGen (fun p q => q ∈ g.neighbours p) g.first p)
    (hfirst : (s.peers g.first).sums ≠ [])
    (hroot : (s.peers g.first).parent = some .flooding) :
    (s.peers g.first).sums.headD 0 = ∑ p, (s.peers p).readings.headD 0 := by
  have hsums := hi.sums_of_first hfirst hreach
  have hcarried : ∀ p, (s.peers p).sums.headD 0 = (s.peers p).readings.headD 0 +
      ∑ q with peerParent s q = some p, (s.peers q).sums.headD 0 := by
    intro p
    obtain ⟨u, hu⟩ := Option.ne_none_iff_exists'.mp
      (fun hnone => hsums p (List.head?_eq_none_iff.mp hnone))
    obtain ⟨reading, hreading, -, hv⟩ := hi.total p u hu
    have hchildren : (Finset.univ.filter fun q => peerParent s q = some p) = childrenOf s p :=
      Finset.filter_congr fun q _ => peerParent_eq_some
    rw [hchildren, List.headD_eq_head?_getD, List.headD_eq_head?_getD, hu, hreading]
    exact hv
  have hnone : peerParent s g.first = none := by
    unfold peerParent
    rw [hroot]
  refine sum_of_children hcarried hnone fun q hq => ?_
  have hbegun : (s.peers q).readings ≠ [] := fun hnil => hsums q ((hi.readings q).mp hnil).2
  obtain ⟨x, hx⟩ := Option.ne_none_iff_exists'.mp (hi.begun q hbegun).1
  cases x with
  | flooding => exact hi.root q hx
  | peer p =>
    rw [peerParent_eq_some.mpr hx] at hq
    cases hq

theorem Inv.summed (hi : Inv g s)
    (hreach : ∀ p, Relation.ReflTransGen (fun p q => q ∈ g.neighbours p) g.first p) :
    Summed s := by
  intro v hv
  obtain ⟨q, hparent, hhead⟩ := hi.received v hv
  obtain rfl := hi.root q hparent
  have hfirst : (s.peers g.first).sums ≠ [] := by
    intro hnil
    rw [hnil] at hhead
    cases hhead
  refine ⟨fun p => (s.peers p).readings.headD 0, fun p => ?_, ?_⟩
  · have hsums := hi.sums_of_first hfirst hreach p
    cases hreadings : (s.peers p).readings with
    | nil => exact absurd ((hi.readings p).mp hreadings).2 hsums
    | cons reading l =>
      dsimp only
      rw [hreadings]
      exact List.mem_cons_self
  · rw [← hi.first_sum hreach hfirst hparent, List.headD_eq_head?_getD, hhead]
    rfl

/-- **The first sum that reaches `Flooding`** is the sum of one reading of each peer, in every run
whose steps are `Complete`, when every peer can be reached from the first one. -/
theorem always_summed (g : Flood P)
    (hreach : ∀ p, Relation.ReflTransGen (fun p q => q ∈ g.neighbours p) g.first p)
    {as : List (Action P)} (h : Along Summary.step (Complete g) (start g) as) :
    Always Summary.step Summed (start g) as :=
  (always_of_along (fun _ _ _ hi hG hstep => hi.step hG hstep) (inv_start g) h).mono
    fun _ hi => hi.summed hreach

/-- Two peers that are each other's neighbours. -/
def pair : Flood (Fin 2) := ⟨⟨0, Nat.zero_lt_two⟩, [⟨1, Nat.one_lt_two⟩], fun p => [p.rev]⟩

theorem pair_reach :
    ∀ p, Relation.ReflTransGen (fun p q => q ∈ pair.neighbours p) pair.first p
  | 0 => .refl
  | 1 => .single (by decide)

/-- The second peer is counted before its greeting starts the sum of the first. -/
theorem always_summed_pair : Always Summary.step Summed (start pair)
    [.deliver 0 (.flood (.neighbours [1])) 0, .deliver 1 (.flood (.neighbours [0])) 0,
      .deliver 0 (.flood (.hello .flooding)) 0, .deliver 1 (.flood (.hello (.peer 0))) 0,
      .deliver 0 (.flood .child) 0, .deliver 0 (.flood (.hello (.peer 1))) 30,
      .deliver 1 (.flood (.hello (.peer 0))) 12, .deliver 0 (.sum 12 (1, 0)) 0,
      .arrive 42 (0, 0)] :=
  always_summed pair pair_reach (by decide)

/-- The greeting of the second peer comes before its `:child`, and `Flooding` receives the reading
of the first peer alone. -/
theorem not_always_summed_pair :
    (∀ p, Relation.ReflTransGen (fun p q => q ∈ pair.neighbours p) pair.first p) ∧
    ¬ Always Summary.step Summed (start pair)
      [.deliver 0 (.flood (.neighbours [1])) 0, .deliver 1 (.flood (.neighbours [0])) 0,
        .deliver 0 (.flood (.hello .flooding)) 0, .deliver 1 (.flood (.hello (.peer 0))) 0,
        .deliver 0 (.flood (.hello (.peer 1))) 30, .arrive 30 (0, 0)] := by
  refine ⟨pair_reach, fun h => ?_⟩
  obtain ⟨s, hrun, hreceived, hreadings⟩ : ∃ s, run Summary.step (start pair)
      [.deliver 0 (.flood (.neighbours [1])) 0, .deliver 1 (.flood (.neighbours [0])) 0,
        .deliver 0 (.flood (.hello .flooding)) 0, .deliver 1 (.flood (.hello (.peer 0))) 0,
        .deliver 0 (.flood (.hello (.peer 1))) 30, .arrive 30 (0, 0)] = some s ∧
      s.received = some 30 ∧ (s.peers 1).readings = [] := ⟨_, rfl, rfl, rfl⟩
  obtain ⟨reading, hmem, -⟩ := h.last hrun 30 hreceived
  have hone := hmem 1
  rw [hreadings] at hone
  cases hone

end DocMachine.Flooding.Summary
