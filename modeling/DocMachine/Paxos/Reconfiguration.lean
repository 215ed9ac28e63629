import DocMachine.Paxos.StateMachine

/-!
# Reconfiguration

What a replica does with a decided reconfiguration: `try_to_reconfigure`, `propose` and `perform` of
`consensus/lib/replica.ex` (86-161).

* `chosen` is the system's decision for each slot; slots are numbered from 1. A sequence of messages
  is any that agrees with it.
* A replica examines every slot once, when `slot_in` reaches it, and by then the decision of
  `window_size` slots before is known. `leadersFor` is the latest reconfiguration that is
  `window_size` slots old or older.
* `perform` executes a reconfiguration like a transaction, and even when it was executed before: its
  guard has lost a negation. The database takes `:MOVE` transactions only.

Results:
* `tryToReconfigure_leaders`: examining `slot_in` brings the leaders up to date.
* `Directed.propose`, `Directed.pending` and `Directed.next`: what the two loops and a message keep.
* `addresses_leaders`: a proposal goes to the leaders of the latest reconfiguration that is
  `window_size` slots old or older, and to the same leaders from every replica.
* `executes_moves_iff`: a replica sends its database transactions only, and answers no
  reconfiguration, iff no reconfiguration is decided in a slot up to which all slots are decided;
  `executes_reconfiguration` has one in slot 1.
-/

namespace DocMachine.Paxos

open DocMachine.Lib

variable {P : Type}

/-! ## The leaders in force -/

/-- The leaders that a reconfiguration names. -/
def Op.leaders : Op P → Option (List P)
  | move .. => none
  | reconfig leaders => some leaders

/-- The leaders of the latest reconfiguration chosen for a slot from 1 to `s`, or the initial
leaders. -/
def latestLeaders (chosen : ℕ → Option (Command P)) (initial : List P) : ℕ → List P
  | 0 => initial
  | s + 1 => ((chosen (s + 1)).bind fun c => c.op.leaders).getD (latestLeaders chosen initial s)

/-- The leaders to which a command is to be proposed in slot `s`. -/
def leadersFor (cfg : Config P) (chosen : ℕ → Option (Command P)) (initial : List P) (s : ℕ) :
    List P :=
  latestLeaders chosen initial (s - cfg.windowSize)

/-- The leaders that get a `:PROPOSE` for slot `s`. -/
def addressees (sends : List (Send P)) (s : ℕ) : Set P :=
  { l | ∃ c, (Pid.leader l, Message.propose s c) ∈ sends }

theorem addressees_append (sends sends' : List (Send P)) (s : ℕ) :
    addressees (sends ++ sends') s = addressees sends s ∪ addressees sends' s := by
  ext l
  simp only [addressees, Set.mem_ofPred_eq, Set.mem_union, List.mem_append, exists_or]

/-- The `:PROPOSE` messages of one round. -/
theorem addressees_map (leaders : List P) (s : ℕ) (c : Command P) (t : ℕ) :
    addressees (leaders.map fun l => (.leader l, .propose s c)) t =
      { l | t = s ∧ l ∈ leaders } := by
  ext l
  simp only [addressees, Set.mem_ofPred_eq, List.mem_map, Prod.mk.injEq, Pid.leader.injEq,
    Message.propose.injEq]
  constructor
  · rintro ⟨d, l', hl', rfl, rfl, -⟩
    exact ⟨rfl, hl'⟩
  · rintro ⟨rfl, hl⟩
    exact ⟨c, l, hl, rfl, rfl, rfl⟩

/-- An examined slot at or below the window has no slot to look at. -/
theorem leadersFor_of_le {cfg : Config P} {chosen : ℕ → Option (Command P)} {initial : List P}
    {s : ℕ} (h : s ≤ cfg.windowSize) : leadersFor cfg chosen initial s = initial := by
  rw [leadersFor, Nat.sub_eq_zero_of_le h]
  rfl

/-- A later slot looks at the decision of one slot more. -/
theorem leadersFor_of_lt {cfg : Config P} {chosen : ℕ → Option (Command P)} {initial : List P}
    {s : ℕ} (h : cfg.windowSize < s) {c : Command P} (hc : chosen (s - cfg.windowSize) = some c) :
    leadersFor cfg chosen initial s =
      c.op.leaders.getD (leadersFor cfg chosen initial (s - 1)) := by
  obtain ⟨k, hk⟩ : ∃ k, s - cfg.windowSize = k + 1 := ⟨s - cfg.windowSize - 1, by omega⟩
  have hprevious : s - 1 - cfg.windowSize = k := by omega
  rw [hk] at hc
  rw [leadersFor, leadersFor, hk, hprevious, latestLeaders, hc]
  rfl

namespace Replica

variable {cfg : Config P} {chosen : ℕ → Option (Command P)} {initial : List P} {me : P}
  {r : Replica P} {sends : List (Send P)}

/-- The reconfigurations that a round of `propose` finds are those of one slot. -/
theorem reconfigDecisions_eq (cfg : Config P) (r : Replica P) :
    r.reconfigDecisions cfg =
      (r.decisions.elems.filter fun d => d.1 + cfg.windowSize = r.slotIn).filterMap
        fun d => d.2.op.leaders := by
  rw [reconfigDecisions, List.filterMap_filter]
  congr 1
  funext d
  by_cases hd : d.1 + cfg.windowSize = r.slotIn
  · rw [if_pos hd, if_pos (decide_eq_true hd)]
    cases d.2.op <;> rfl
  · rw [if_neg hd, if_neg (by simpa using hd)]

/-- **Examining `slot_in`** brings the leaders up to date: the decision of `window_size` slots
before has been performed. -/
theorem tryToReconfigure_leaders (h : Follows cfg chosen r) (hfirst : chosen 0 = none)
    (hwin : r.slotIn < r.slotOut + cfg.windowSize)
    (hleaders : r.leaders = leadersFor cfg chosen initial (r.slotIn - 1)) :
    (r.tryToReconfigure cfg).leaders = leadersFor cfg chosen initial r.slotIn := by
  rw [tryToReconfigure, reconfigDecisions_eq]
  by_cases hold : r.slotIn ≤ cfg.windowSize
  · have hnil : (r.decisions.elems.filter fun d => d.1 + cfg.windowSize = r.slotIn) = [] := by
      refine List.filter_eq_nil_iff.mpr fun d hd hslot => ?_
      obtain ⟨s, c⟩ := d
      have hslot := of_decide_eq_true hslot
      obtain rfl : s = 0 := by omega
      exact absurd ((h.decisions 0 c hd).symm.trans hfirst) (by simp)
    rw [hnil, leadersFor_of_le hold]
    exact hleaders.trans (leadersFor_of_le (Nat.le_trans (Nat.sub_le ..) hold))
  · obtain ⟨c, hc⟩ := h.below (r.slotIn - cfg.windowSize) (by omega) (by omega)
    have hkey : (r.decisions.elems.filter fun d => d.1 + cfg.windowSize = r.slotIn) =
        r.decisions.elems.filter fun d => d.1 = r.slotIn - cfg.windowSize := by
      refine List.filter_congr fun d _ => decide_eq_decide.mpr ?_
      omega
    have hfun : ∀ b b', (r.slotIn - cfg.windowSize, b) ∈ r.decisions →
        (r.slotIn - cfg.windowSize, b') ∈ r.decisions → b = b' := fun b b' hb hb' =>
      chosen_unique _ b b' (h.decisions _ b hb) (h.decisions _ b' hb')
    obtain ⟨-, hnone⟩ | ⟨b, hone, hb⟩ := MapSet.filter_key hfun
    · exact absurd hc (hnone c)
    · rw [hkey, hone, leadersFor_of_lt (by omega) (h.decisions _ b hb), List.filterMap_cons]
      cases b.op.leaders with
      | none => exact hleaders
      | some leaders => rfl

/-- The invariant: the leaders are those of the last slot that was examined, and what was sent
went to the leaders of its slot. -/
structure Directed (cfg : Config P) (chosen : ℕ → Option (Command P)) (initial : List P)
    (r : Replica P) (sends : List (Send P)) : Prop where
  leaders : r.leaders = leadersFor cfg chosen initial (r.slotIn - 1)
  past : ∀ s, (addressees sends s).Nonempty → s < r.slotIn
  sent : ∀ s, (addressees sends s).Nonempty →
    addressees sends s = { l | l ∈ leadersFor cfg chosen initial s }
  proposed : ∀ s c, (s, c) ∈ r.proposals →
    addressees sends s = { l | l ∈ leadersFor cfg chosen initial s }

theorem directed_start : Directed cfg chosen initial (Replica.start initial) [] where
  leaders := (leadersFor_of_le (Nat.zero_le _)).symm
  past _ h := absurd h (by simp [addressees])
  sent _ h := absurd h (by simp [addressees])
  proposed _ _ h := absurd h (MapSet.not_mem_empty _)

/-- A slot is skipped. -/
theorem Directed.skip (hd : Directed cfg chosen initial r sends) (h : Follows cfg chosen r)
    (hfirst : chosen 0 = none) (hwin : r.slotIn < r.slotOut + cfg.windowSize) :
    Directed cfg chosen initial (r.tryToReconfigure cfg).incrementSlotIn sends := by
  have hleaders := tryToReconfigure_leaders h hfirst hwin hd.leaders
  obtain ⟨leaders, hre⟩ := tryToReconfigure_eq cfg r
  rw [hre] at hleaders ⊢
  exact ⟨hleaders, fun s hs => Nat.lt_succ_of_lt (hd.past s hs), hd.sent, hd.proposed⟩

variable [LinearOrder P]

/-- A request is proposed. -/
theorem Directed.round (hd : Directed cfg chosen initial r sends) (h : Follows cfg chosen r)
    (hfirst : chosen 0 = none) (hwin : r.slotIn < r.slotOut + cfg.windowSize) (c : Command P) :
    Directed cfg chosen initial
      ((((r.tryToReconfigure cfg).removeRequest c).addProposal (r.slotIn, c)).incrementSlotIn)
      (sends ++ (r.tryToReconfigure cfg).leaders.map fun l =>
        (.leader l, .propose r.slotIn c)) := by
  have hleaders := tryToReconfigure_leaders h hfirst hwin hd.leaders
  have hnew : addressees (sends ++ (r.tryToReconfigure cfg).leaders.map fun l =>
      (.leader l, .propose r.slotIn c)) r.slotIn =
        { l | l ∈ leadersFor cfg chosen initial r.slotIn } := by
    have hnone : addressees sends r.slotIn = ∅ :=
      Set.not_nonempty_iff_eq_empty.mp fun hs => Nat.lt_irrefl _ (hd.past _ hs)
    rw [addressees_append, hnone, Set.empty_union, addressees_map, hleaders]
    simp
  have hold : ∀ s, s ≠ r.slotIn → addressees (sends ++ (r.tryToReconfigure cfg).leaders.map
      fun l => (.leader l, .propose r.slotIn c)) s = addressees sends s := by
    intro s hs
    rw [addressees_append, addressees_map]
    simp [hs]
  obtain ⟨leaders, hre⟩ := tryToReconfigure_eq cfg r
  rw [hre] at hleaders hnew hold ⊢
  refine ⟨hleaders, fun s hs => ?_, fun s hs => ?_, fun s d hs => ?_⟩
  · by_cases hslot : s = r.slotIn
    · exact hslot ▸ Nat.lt_succ_self _
    · rw [hold s hslot] at hs
      exact Nat.lt_succ_of_lt (hd.past s hs)
  · by_cases hslot : s = r.slotIn
    · exact hslot ▸ hnew
    · rw [hold s hslot] at hs ⊢
      exact hd.sent s hs
  · by_cases hslot : s = r.slotIn
    · exact hslot ▸ hnew
    · have hin := (MapSet.mem_put.mp hs).resolve_left fun heq => hslot (Prod.mk.inj heq).1
      exact (hold s hslot).trans (hd.proposed s d hin)

/-- **The loop of `propose`.** -/
theorem Directed.propose (hfirst : chosen 0 = none) :
    ∀ (fuel : ℕ) {r : Replica P} {sends : List (Send P)}, Directed cfg chosen initial r sends →
      Follows cfg chosen r →
      Directed cfg chosen initial (r.propose cfg fuel).1 (sends ++ (r.propose cfg fuel).2)
  | 0, _, _, hd, _ => by
    rw [Replica.propose, List.append_nil]
    exact hd
  | fuel + 1, r, sends, hd, h => by
    obtain ⟨-, heq⟩ | ⟨hwin, -, heq⟩ | ⟨hwin, hfree, c, -, heq⟩ :=
      propose_succ h chosen_unique fuel <;> rw [heq]
    · rw [List.append_nil]
      exact hd
    · exact Directed.propose hfirst fuel (hd.skip h hfirst hwin) (h.skip hwin).1
    · rw [← List.append_assoc]
      exact Directed.propose hfirst fuel (hd.round h hfirst hwin c) (h.proposed hwin hfree c).1

/-- Nothing that `perform` sends is a proposal. -/
theorem addressees_perform (me : P) (r : Replica P) (c : Command P) (s : ℕ) :
    addressees (r.perform me c).2 s = ∅ := by
  ext l
  unfold perform addressees
  split <;> simp

theorem settle_leaders (r : Replica P) (c : Command P) : (r.settle c).leaders = r.leaders := by
  unfold settle
  split
  · unfold withdraw
    split_ifs <;> rfl
  · rfl

/-- **Performing decisions** withdraws proposals and leaves the rest as it is. -/
theorem Directed.pending (me : P) :
    ∀ (fuel : ℕ) {r : Replica P} {sends : List (Send P)}, Directed cfg chosen initial r sends →
      Follows cfg chosen r →
      Directed cfg chosen initial (r.processPendingDecisions cfg me fuel).1
        (sends ++ (r.processPendingDecisions cfg me fuel).2)
  | 0, _, _, hd, _ => by
    rw [processPendingDecisions, List.append_nil]
    exact hd
  | fuel + 1, r, sends, hd, h => by
    obtain ⟨-, heq⟩ | ⟨c, hc, heq⟩ := pending_succ me h fuel <;> rw [heq]
    · rw [List.append_nil]
      exact hd
    · have hsent : ∀ s, addressees (sends ++ ((r.settle c).perform me c).2) s =
          addressees sends s := by
        intro s
        rw [addressees_append, addressees_perform, Set.union_empty]
      obtain ⟨-, hin, -, -⟩ := settle_frame r c
      have hd' : Directed cfg chosen initial ((r.settle c).perform me c).1
          (sends ++ ((r.settle c).perform me c).2) := by
        refine ⟨?_, fun s hs => ?_, fun s hs => ?_, fun s d hs => ?_⟩
        · show (r.settle c).leaders = leadersFor cfg chosen initial ((r.settle c).slotIn - 1)
          rw [settle_leaders, hin]
          exact hd.leaders
        · rw [hsent] at hs
          show s < (r.settle c).slotIn
          rw [hin]
          exact hd.past s hs
        · rw [hsent] at hs ⊢
          exact hd.sent s hs
        · rw [hsent]
          exact hd.proposed s d ((mem_settle_proposals h).mp hs).1
      rw [← List.append_assoc]
      exact Directed.pending me fuel hd' (h.perform me hc).1

/-- **A message.** -/
theorem Directed.next (me : P) (hfirst : chosen 0 = none)
    (hd : Directed cfg chosen initial r sends) (h : Follows cfg chosen r) {msg : Message P}
    (hmsg : ∀ s c, msg = .decision s c → chosen s = some c) :
    Directed cfg chosen initial (r.next cfg me msg).1 (sends ++ (r.next cfg me msg).2) := by
  have h' := (h.handle me hmsg).1
  have hd' : Directed cfg chosen initial (r.handle cfg me msg).1
      (sends ++ (r.handle cfg me msg).2) := by
    cases msg with
    | clientRequest c =>
      rw [Replica.handle, List.append_nil]
      exact ⟨hd.leaders, hd.past, hd.sent, hd.proposed⟩
    | decision s c =>
      have hadd : Directed cfg chosen initial (r.addDecision (s, c)) sends :=
        ⟨hd.leaders, hd.past, hd.sent, hd.proposed⟩
      exact hadd.pending me _ (h.addDecision (hmsg s c rfl)).1
    | _ =>
      show Directed cfg chosen initial r (sends ++ [])
      rw [List.append_nil]
      exact hd
  rw [Replica.next]
  simp only [h'.running, Bool.false_eq_true, if_false]
  rw [← List.append_assoc]
  exact hd'.propose hfirst _ h'

theorem Directed.handleAll (me : P) (hfirst : chosen 0 = none) (msgs : List (Message P))
    {r : Replica P} {sends : List (Send P)} (hd : Directed cfg chosen initial r sends)
    (h : Follows cfg chosen r) (hmsgs : ∀ s c, .decision s c ∈ msgs → chosen s = some c) :
    Directed cfg chosen initial (r.handleAll cfg me msgs).1
      (sends ++ (r.handleAll cfg me msgs).2) := by
  induction msgs generalizing r sends with
  | nil =>
    rw [Replica.handleAll, List.append_nil]
    exact hd
  | cons msg msgs ih =>
    have hmsg : ∀ s c, msg = .decision s c → chosen s = some c := fun s c heq =>
      hmsgs s c (heq ▸ List.mem_cons_self)
    rw [Replica.handleAll]
    simp only [h.running, Bool.false_eq_true, if_false]
    rw [← List.append_assoc]
    exact ih (hd.next me hfirst h hmsg) (h.next chosen_unique me hmsg).1 fun s c hin =>
      hmsgs s c (List.mem_cons_of_mem _ hin)

theorem handleAll_append (me : P) (r : Replica P) (msgs msgs' : List (Message P)) :
    r.handleAll cfg me (msgs ++ msgs') =
      let (r', sends) := r.handleAll cfg me msgs
      let (r'', sends') := r'.handleAll cfg me msgs'
      (r'', sends ++ sends') := by
  induction msgs generalizing r with
  | nil => rfl
  | cons msg msgs ih =>
    rw [List.cons_append, Replica.handleAll, Replica.handleAll]
    by_cases hexit : r.exited = true
    · simp only [if_pos hexit]
      cases msgs' with
      | nil => rfl
      | cons msg' msgs' => rw [Replica.handleAll, if_pos hexit]; rfl
    · simp only [if_neg hexit, ih, List.append_assoc]

/-- The leaders that a replica addresses for slot `s` while it handles `msgs`. -/
def addressed (cfg : Config P) (me : P) (initial : List P) (msgs : List (Message P)) (s : ℕ) :
    Set P :=
  addressees ((Replica.start initial).handleAll cfg me msgs).2 s

/-- A replica proposes in slot `s` while it handles `msgs`: it sends a `:PROPOSE` for the slot, or
notes a proposal (there may be no leader to send to). -/
def ProposesIn (cfg : Config P) (me : P) (initial : List P) (msgs : List (Message P)) (s : ℕ) :
    Prop :=
  (addressed cfg me initial msgs s).Nonempty ∨ ∃ handled, handled <+: msgs ∧
    ∃ c, (s, c) ∈ ((Replica.start initial).handleAll cfg me handled).1.proposals

theorem directed_handleAll (me : P) (hfirst : chosen 0 = none) {msgs : List (Message P)}
    (hmsgs : ∀ s c, .decision s c ∈ msgs → chosen s = some c) :
    Directed cfg chosen initial ((Replica.start initial).handleAll cfg me msgs).1
      ((Replica.start initial).handleAll cfg me msgs).2 :=
  directed_start.handleAll me hfirst msgs (ledger_start initial) hmsgs

/-- A slot in which a replica proposes has all its messages sent at once. -/
theorem addressed_eq (hfirst : chosen 0 = none) {msgs : List (Message P)}
    (hmsgs : ∀ s c, .decision s c ∈ msgs → chosen s = some c) {s : ℕ}
    (hs : ProposesIn cfg me initial msgs s) :
    addressed cfg me initial msgs s = { l | l ∈ leadersFor cfg chosen initial s } := by
  have hall : Directed cfg chosen initial _ _ := directed_handleAll me hfirst hmsgs
  by_cases hne : (addressed cfg me initial msgs s).Nonempty
  · exact hall.sent s hne
  · obtain ⟨handled, ⟨rest, rfl⟩, c, hc⟩ := hs.resolve_left hne
    have hpart : Directed cfg chosen initial _ _ := directed_handleAll me hfirst fun s c hin =>
      hmsgs s c (List.mem_append_left rest hin)
    have hsplit : addressed cfg me initial (handled ++ rest) s =
        addressed cfg me initial handled s ∪ addressees
          (((Replica.start initial).handleAll cfg me handled).1.handleAll cfg me rest).2 s := by
      rw [addressed, handleAll_append]
      exact addressees_append ..
    have hempty := Set.not_nonempty_iff_eq_empty.mp hne
    have hpart' : addressed cfg me initial handled s = ∅ :=
      (Set.union_empty_iff.mp (hsplit.symm.trans hempty)).1
    rw [hempty, ← hpart']
    exact hpart.proposed s c hc

/-- **Reconfiguration takes effect `window_size` slots later.** -/
theorem addresses_leaders (initial : List P) (hfirst : chosen 0 = none) {me me' : P}
    {msgs msgs' : List (Message P)} (hmsgs : ∀ s c, .decision s c ∈ msgs → chosen s = some c)
    (hmsgs' : ∀ s c, .decision s c ∈ msgs' → chosen s = some c) {s : ℕ}
    (hs : ProposesIn cfg me initial msgs s) :
    addressed cfg me initial msgs s = { l | l ∈ leadersFor cfg chosen initial s } ∧
      (ProposesIn cfg me' initial msgs' s →
        addressed cfg me' initial msgs' s = addressed cfg me initial msgs s) := by
  have heq := addressed_eq hfirst hmsgs hs
  refine ⟨heq, fun hs' => ?_⟩
  rw [heq]
  exact addressed_eq hfirst hmsgs' hs'

/-- Slot 1 is decided to be a reconfiguration. -/
def reconfigured : ℕ → Option (Command (Fin 2)) := fun s =>
  if s = 1 then some ⟨0, 9, .reconfig [serverB]⟩ else none

/-- Three requests fill the window, and the first loses its slot to the reconfiguration. -/
def reconfigMessages : List (Message (Fin 2)) :=
  [.clientRequest (transfer 1), .clientRequest (transfer 2), .clientRequest (transfer 3),
    .decision 1 ⟨0, 9, .reconfig [serverB]⟩]

theorem addresses_leaders_four :
    addressed (sample 2 .fullLiveness) serverA [serverA, serverB] reconfigMessages 4 =
        { l | l ∈ leadersFor (sample 2 .fullLiveness) reconfigured [serverA, serverB] 4 } ∧
      (ProposesIn (sample 2 .fullLiveness) serverB [serverA, serverB] reconfigMessages 4 →
        addressed (sample 2 .fullLiveness) serverB [serverA, serverB] reconfigMessages 4 =
          addressed (sample 2 .fullLiveness) serverA [serverA, serverB] reconfigMessages 4) := by
  have hmsgs : ∀ s c, .decision s c ∈ reconfigMessages → reconfigured s = some c := by
    intro s c hc
    simp only [reconfigMessages, List.mem_cons, Message.decision.injEq, reduceCtorEq, false_or,
      List.not_mem_nil, or_false] at hc
    obtain ⟨rfl, rfl⟩ := hc
    rfl
  refine addresses_leaders [serverA, serverB] rfl hmsgs hmsgs
    (Or.inr ⟨reconfigMessages, List.prefix_rfl, transfer 1, ?_⟩)
  rw [MapSet.mem_iff]
  decide

/-! ## Performing a reconfiguration -/

/-- A message that the database takes, if it is for the database, and that answers no
reconfiguration. -/
structure Harmless (m : Send P) : Prop where
  database : ∀ p, m.1 = .database p → ∃ op, m.2 = .execute op ∧
    ∀ d : Database, (d.next op).isSome = true
  response : ∀ cid c, m.2 = .clientResponse cid c → c.op.isreconfig = false

omit [LinearOrder P] in
theorem harmless_propose (l : P) (s : ℕ) (c : Command P) :
    Harmless (.leader l, .propose s c) :=
  ⟨fun _ h => absurd h (by simp), fun _ _ h => absurd h (by simp)⟩

omit [LinearOrder P] in
/-- Nothing is sent and no slot is performed. -/
theorem harmless_nil (n : ℕ) (decisions : MapSet (ℕ × Command P)) :
    n ≤ n ∧ ((∀ m ∈ ([] : List (Send P)), Harmless m) ↔
      ∀ s c, n ≤ s → s < n → (s, c) ∈ decisions → c.op.isreconfig = false) := by
  refine ⟨Nat.le_refl n, fun _ s c hs hlt => absurd hlt (Nat.not_lt.mpr hs), fun _ m hm => ?_⟩
  exact absurd hm List.not_mem_nil

/-- `perform` sends something for every reconfiguration. -/
theorem perform_harmless (me : P) (r : Replica P) (c : Command P) :
    (∀ m ∈ (r.perform me c).2, Harmless m) ↔ c.op.isreconfig = false := by
  unfold perform
  constructor
  · intro h
    by_contra hreconfig
    rw [Bool.not_eq_false] at hreconfig
    rw [if_pos (by simp [hreconfig])] at h
    have hresponse := (h (.client c.client, .clientResponse c.cid c) (by simp)).response _ _ rfl
    rw [hreconfig] at hresponse
    cases hresponse
  · intro hmove m hm
    have hexecute : ∀ d : Database, (d.next c.op).isSome = true := by
      intro d
      cases hop : c.op with
      | move => rfl
      | reconfig leaders => rw [hop] at hmove; cases hmove
    split at hm
    · obtain rfl | hm := List.mem_cons.mp hm
      · exact ⟨fun _ _ => ⟨c.op, rfl, hexecute⟩, fun _ _ h => absurd h (by simp)⟩
      · obtain rfl := List.mem_singleton.mp hm
        refine ⟨fun _ h => absurd h (by simp), fun cid d h => ?_⟩
        obtain ⟨-, rfl⟩ := Message.clientResponse.inj h
        exact hmove
    · exact absurd hm List.not_mem_nil

section Decided

variable {decided : ℕ → Command P → Prop}
  (huniq : ∀ s c c', decided s c → decided s c' → c = c')

include huniq

/-- **Performing decisions** is harmless iff none of the performed ones is a reconfiguration. -/
theorem pending_harmless (me : P) : ∀ (fuel : ℕ) {r : Replica P}, Ledger cfg decided r →
    r.slotOut ≤ (r.processPendingDecisions cfg me fuel).1.slotOut ∧
      ((∀ m ∈ (r.processPendingDecisions cfg me fuel).2, Harmless m) ↔
        ∀ s c, r.slotOut ≤ s → s < (r.processPendingDecisions cfg me fuel).1.slotOut →
          (s, c) ∈ r.decisions → c.op.isreconfig = false)
  | 0, _, _ => harmless_nil _ _
  | fuel + 1, r, h => by
    obtain ⟨-, heq⟩ | ⟨c, hc, heq⟩ := pending_succ me h fuel <;> rw [heq]
    · exact harmless_nil _ _
    · obtain ⟨-, -, hout, hdec⟩ := settle_frame r c
      obtain ⟨hle, hiff⟩ := pending_harmless me fuel (h.perform me hc).1
      have hout' : ((r.settle c).perform me c).1.slotOut = r.slotOut + 1 := congrArg (· + 1) hout
      have hdec' : ((r.settle c).perform me c).1.decisions = r.decisions := hdec
      rw [hout'] at hle hiff
      rw [hdec'] at hiff
      refine ⟨Nat.le_of_succ_le hle, ?_⟩
      simp only [List.forall_mem_append, perform_harmless, hiff]
      constructor
      · rintro ⟨hfirst, hrest⟩ s d hs hlt hd
        obtain rfl | hs := Nat.eq_or_lt_of_le hs
        · rwa [huniq _ d c (h.decisions _ d hd) (h.decisions _ c hc)]
        · exact hrest s d hs hlt hd
      · intro hall
        exact ⟨hall _ c (Nat.le_refl _) (by omega) hc,
          fun s d hs hlt hd => hall s d (by omega) hlt hd⟩

/-- **A message.** -/
theorem next_harmless (me : P) {r : Replica P} (h : Ledger cfg decided r) {msg : Message P}
    (hmsg : ∀ s c, msg = .decision s c → decided s c) :
    r.slotOut ≤ (r.next cfg me msg).1.slotOut ∧
      ((∀ m ∈ (r.next cfg me msg).2, Harmless m) ↔
        ∀ s c, r.slotOut ≤ s → s < (r.next cfg me msg).1.slotOut →
          (s, c) ∈ (r.next cfg me msg).1.decisions → c.op.isreconfig = false) := by
  have h' := (h.handle me hmsg).1
  obtain ⟨-, -, hout, hdec⟩ := Ledger.propose huniq ((r.handle cfg me msg).1.proposeFuel cfg) h'
  have hpropose : ∀ m ∈ ((r.handle cfg me msg).1.propose cfg
      ((r.handle cfg me msg).1.proposeFuel cfg)).2, Harmless m := by
    intro m hm
    obtain ⟨l, s, c, rfl⟩ := propose_sends _ _ m hm
    exact harmless_propose l s c
  have hhandle : r.slotOut ≤ (r.handle cfg me msg).1.slotOut ∧
      ((∀ m ∈ (r.handle cfg me msg).2, Harmless m) ↔
        ∀ s c, r.slotOut ≤ s → s < (r.handle cfg me msg).1.slotOut →
          (s, c) ∈ (r.handle cfg me msg).1.decisions → c.op.isreconfig = false) := by
    cases msg with
    | decision s c =>
      have hadd := (h.addDecision (hmsg s c rfl)).1
      obtain ⟨hle, hiff⟩ := pending_harmless huniq me (r.addDecision (s, c)).decisions.size hadd
      have hsame : (r.handle cfg me (.decision s c)).1.decisions =
          (r.addDecision (s, c)).decisions :=
        (hadd.processPendingDecisions me (r.addDecision (s, c)).decisions.size).2.2
      rw [hsame]
      exact ⟨hle, hiff⟩
    | _ => exact harmless_nil _ _
  rw [Replica.next]
  simp only [h'.running, Bool.false_eq_true, if_false, List.forall_mem_append, hout, hdec]
  exact ⟨hhandle.1, Iff.trans ⟨And.left, fun hm => ⟨hm, hpropose⟩⟩ hhandle.2⟩

/-- **A sequence of messages.** -/
theorem handleAll_harmless (me : P) (msgs : List (Message P)) {r : Replica P}
    (h : Ledger cfg decided r) (hmsgs : ∀ s c, .decision s c ∈ msgs → decided s c) :
    r.slotOut ≤ (r.handleAll cfg me msgs).1.slotOut ∧
      ((∀ m ∈ (r.handleAll cfg me msgs).2, Harmless m) ↔
        ∀ s c, r.slotOut ≤ s → s < (r.handleAll cfg me msgs).1.slotOut →
          (s, c) ∈ (r.handleAll cfg me msgs).1.decisions → c.op.isreconfig = false) := by
  induction msgs generalizing r with
  | nil => exact harmless_nil _ _
  | cons msg msgs ih =>
    have hmsg : ∀ s c, msg = .decision s c → decided s c := fun s c heq =>
      hmsgs s c (heq ▸ List.mem_cons_self)
    have hrest : ∀ s c, .decision s c ∈ msgs → decided s c := fun s c hin =>
      hmsgs s c (List.mem_cons_of_mem _ hin)
    obtain ⟨h', -, -⟩ := h.next huniq me hmsg
    obtain ⟨h'', -, hdec⟩ := Ledger.handleAll huniq me msgs h' hrest
    obtain ⟨hle, hiff⟩ := next_harmless huniq me h hmsg
    obtain ⟨hle', hiff'⟩ := ih h' hrest
    rw [Replica.handleAll]
    simp only [h.running, Bool.false_eq_true, if_false, List.forall_mem_append, hiff, hiff']
    refine ⟨Nat.le_trans hle hle', fun hboth s c hs hlt hc => ?_, fun hall => ⟨?_, ?_⟩⟩
    · obtain hearly | hlate := Nat.lt_or_ge s (r.next cfg me msg).1.slotOut
      · obtain ⟨d, hd⟩ := h'.below s (Nat.le_trans h.first hs) hearly
        obtain rfl := huniq s d c (h'.decisions s d hd) (h''.decisions s c hc)
        exact hboth.1 s d hs hearly hd
      · exact hboth.2 s c hlate hlt hc
    · intro s c hs hlt hc
      exact hall s c hs (Nat.lt_of_lt_of_le hlt hle') ((hdec s c).mpr (Or.inl hc))
    · intro s c hs hlt hc
      exact hall s c (Nat.le_trans hle hs) hlt hc

/-- The next slot to perform is not decided. -/
theorem handleAll_open (me : P) (msgs : List (Message P)) {r : Replica P}
    (h : Ledger cfg decided r) (hopen : ∀ c, (r.slotOut, c) ∉ r.decisions)
    (hmsgs : ∀ s c, .decision s c ∈ msgs → decided s c) :
    ∀ c, ((r.handleAll cfg me msgs).1.slotOut, c) ∉ (r.handleAll cfg me msgs).1.decisions := by
  induction msgs generalizing r with
  | nil => exact hopen
  | cons msg msgs ih =>
    have hmsg : ∀ s c, msg = .decision s c → decided s c := fun s c heq =>
      hmsgs s c (heq ▸ List.mem_cons_self)
    rw [Replica.handleAll]
    simp only [h.running, Bool.false_eq_true, if_false]
    exact ih (h.next huniq me hmsg).1 (h.settled_next huniq me hopen hmsg).1 fun s c hin =>
      hmsgs s c (List.mem_cons_of_mem _ hin)

end Decided

/-- The slots that are performed are those up to which all slots are decided. -/
theorem lt_slotOut_iff (leaders : List P) {msgs : List (Message P)}
    (huniq : ∀ s c c', .decision s c ∈ msgs → .decision s c' ∈ msgs → c = c') {s : ℕ} :
    s < ((Replica.start leaders).handleAll cfg me msgs).1.slotOut ↔
      ∀ t, 1 ≤ t → t ≤ s → ∃ d, .decision t d ∈ msgs := by
  have hstart : Ledger cfg (fun s c => .decision s c ∈ msgs) (Replica.start leaders) :=
    ledger_start leaders
  obtain ⟨h, -, hdec⟩ := Ledger.handleAll huniq me msgs hstart fun _ _ hin => hin
  constructor
  · intro hs t ht hts
    obtain ⟨d, hd⟩ := h.below t ht (Nat.lt_of_le_of_lt hts hs)
    exact ⟨d, h.decisions t d hd⟩
  · intro hall
    by_contra hs
    obtain ⟨d, hd⟩ := hall _ h.first (Nat.not_lt.mp hs)
    exact handleAll_open huniq me msgs hstart (fun _ => MapSet.not_mem_empty _)
      (fun _ _ hin => hin) d ((hdec _ d).mpr (Or.inr hd))

/-- **Executing reconfigurations.** A replica sends its database transactions only, and answers
no reconfiguration, iff no reconfiguration is decided in a slot up to which all slots are
decided. -/
theorem executes_moves_iff (leaders : List P) {msgs : List (Message P)}
    (huniq : ∀ s c c', .decision s c ∈ msgs → .decision s c' ∈ msgs → c = c') :
    (∀ m ∈ ((Replica.start leaders).handleAll cfg me msgs).2, Harmless m) ↔
      ∀ s c, 1 ≤ s → .decision s c ∈ msgs →
        (∀ t, 1 ≤ t → t < s → ∃ d, .decision t d ∈ msgs) → c.op.isreconfig = false := by
  have hstart : Ledger cfg (fun s c => .decision s c ∈ msgs) (Replica.start leaders) :=
    ledger_start leaders
  obtain ⟨h, -, hdec⟩ := Ledger.handleAll huniq me msgs hstart fun _ _ hin => hin
  rw [(handleAll_harmless huniq me msgs hstart fun _ _ hin => hin).2]
  simp only [lt_slotOut_iff leaders huniq, hdec]
  constructor
  · intro hall s c hs hc hbefore
    refine hall s c hs (fun t ht hts => ?_) (Or.inr hc)
    obtain rfl | hts := Nat.eq_or_lt_of_le hts
    · exact ⟨c, hc⟩
    · exact hbefore t ht hts
  · intro hall s c hs hbefore hc
    have hin : .decision s c ∈ msgs := hc.resolve_left (MapSet.not_mem_empty _)
    exact hall s c hs hin fun t ht hts => hbefore t ht (Nat.le_of_lt hts)

/-- A transaction decided in slots 1 and 2, and a reconfiguration in slot 4. -/
def scatteredMessages : List (Message (Fin 2)) :=
  [.decision 4 ⟨0, 9, .reconfig [serverB]⟩, .decision 1 (transfer 1), .decision 2 (transfer 1)]

theorem executes_moves_iff_scattered :
    (∀ m ∈ ((Replica.start [serverA, serverB]).handleAll (sample 2 .fullLiveness) serverA
        scatteredMessages).2, Harmless m) ↔
      ∀ s c, 1 ≤ s → .decision s c ∈ scatteredMessages →
        (∀ t, 1 ≤ t → t < s → ∃ d, .decision t d ∈ scatteredMessages) →
        c.op.isreconfig = false := by
  refine executes_moves_iff [serverA, serverB] fun s c c' hc hc' => ?_
  simp only [scatteredMessages, List.mem_cons, Message.decision.injEq, List.not_mem_nil, or_false]
    at hc hc'
  obtain ⟨rfl, rfl⟩ | ⟨rfl, rfl⟩ | ⟨rfl, rfl⟩ := hc <;> simp at hc' <;> exact hc'.symm

/-- A reconfiguration in slot 1 goes to the database, which takes no such message. -/
theorem executes_reconfiguration :
    (.database serverA, .execute (.reconfig [serverB])) ∈
        ((Replica.start [serverA, serverB]).handleAll (sample 2 .fullLiveness) serverA
          [.decision 1 ⟨0, 9, .reconfig [serverB]⟩]).2 ∧
      (Database.start.next (.reconfig [serverB])).isSome = false := by
  decide

end Replica

end DocMachine.Paxos
