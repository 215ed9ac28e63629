import DocMachine.Paxos.Replica

/-!
# A replica's requests

What a replica (`consensus/lib/replica.ex` 62-232) knows of the commands its clients asked for, over
every sequence of messages in which a slot is decided with one command only.

* `Ledger` is the invariant of the two loops of the replica: its proposals lie between `slot_out`
  and `slot_in`, one to a slot, every slot below `slot_out` is decided, and `slot_in` stays within
  the window.
* `Accounted` says of one command that the replica still has it as a request or a proposal, or that
  it was decided.
* One round of `process_pending_decisions` is `performNext`, and one round of `propose` is
  `proposeNext` or `skipSlot`; the loops are inductions over these.

Results:
* `Ledger.perform`: performing a decision loses no command: the replica's own proposal for the slot
  is the decided command or becomes a request again.
* `pending_done` and `propose_done`: the rounds that the model allows the loops are enough, so that
  `Ledger.settled_next`: no round is cut off.
* `Ledger.next`: a message keeps the invariant, and no command is lost.
* `replica_serves`: after any messages the replica accounts for every command it was asked for, has
  one proposal per slot and never exits, and its slots are where the decisions put them.
-/

namespace DocMachine.Paxos

open DocMachine.Lib

variable {P : Type} [LinearOrder P]

namespace Replica

/-- A replica handles messages until it exits. -/
def handleAll (cfg : Config P) (me : P) (self : Replica P) :
    List (Message P) → Replica P × List (Send P)
  | [] => (self, [])
  | msg :: msgs =>
    if self.exited then (self, [])
    else
      let (self, sends) := self.next cfg me msg
      let (self, sends') := handleAll cfg me self msgs
      (self, sends ++ sends')

/-- The replica has the command, as a request or as a proposal, or it was decided. -/
def Accounted (r : Replica P) (c : Command P) : Prop :=
  c ∈ r.requests ∨ (∃ s, r.slotOut ≤ s ∧ (s, c) ∈ r.proposals) ∨
    ∃ s, s < r.slotOut ∧ (s, c) ∈ r.decisions

/-- The invariant; `decided` relates a slot to its one command. -/
structure Ledger (cfg : Config P) (decided : ℕ → Command P → Prop) (r : Replica P) : Prop where
  running : r.exited = false
  decisions : ∀ s c, (s, c) ∈ r.decisions → decided s c
  functional : ∀ s c c', (s, c) ∈ r.proposals → (s, c') ∈ r.proposals → c = c'
  open' : ∀ s c, (s, c) ∈ r.proposals → r.slotOut ≤ s ∧ s < r.slotIn
  below : ∀ s, 1 ≤ s → s < r.slotOut → ∃ c, (s, c) ∈ r.decisions
  start : 1 ≤ r.slotIn
  first : 1 ≤ r.slotOut
  window : r.slotIn ≤ r.slotOut + cfg.windowSize

variable {cfg : Config P} {me : P} {decided : ℕ → Command P → Prop} {r : Replica P}

/-! ## Performing decisions -/

/-- What a round of `process_pending_decisions` with decision `c` does to the replica's own
proposal for the slot. -/
def settle (r : Replica P) (c : Command P) : Replica P :=
  match r.getProposalsForSlot r.slotOut with
  | [proposal] => r.withdraw c proposal
  | _ => r

theorem settle_frame (r : Replica P) (c : Command P) :
    (r.settle c).exited = r.exited ∧ (r.settle c).slotIn = r.slotIn ∧
      (r.settle c).slotOut = r.slotOut ∧ (r.settle c).decisions = r.decisions := by
  unfold settle
  split
  · unfold withdraw
    split_ifs <;> exact ⟨rfl, rfl, rfl, rfl⟩
  · exact ⟨rfl, rfl, rfl, rfl⟩

theorem mem_settle_proposals (h : Ledger cfg decided r) {c d : Command P} {s : ℕ} :
    (s, d) ∈ (r.settle c).proposals ↔ (s, d) ∈ r.proposals ∧ s ≠ r.slotOut := by
  unfold settle getProposalsForSlot
  rcases MapSet.filter_key (h.functional r.slotOut) with ⟨hnil, hno⟩ | ⟨b, hone, hb⟩
  · rw [hnil]
    exact ⟨fun hin => ⟨hin, fun hs => hno d (hs ▸ hin)⟩, And.left⟩
  · rw [hone]
    have hw : (r.withdraw c (r.slotOut, b)).proposals = r.proposals.delete (r.slotOut, b) := by
      unfold withdraw
      split_ifs <;> rfl
    simp only [hw, MapSet.mem_delete]
    constructor
    · rintro ⟨hne, hin⟩
      refine ⟨hin, fun hs => hne ?_⟩
      subst hs
      rw [h.functional _ d b hin hb]
    · rintro ⟨hin, hs⟩
      exact ⟨fun heq => hs (Prod.mk.inj heq).1, hin⟩

theorem mem_settle_requests (h : Ledger cfg decided r) {c d : Command P} :
    d ∈ (r.settle c).requests ↔ d ∈ r.requests ∨ ((r.slotOut, d) ∈ r.proposals ∧ d ≠ c) := by
  unfold settle getProposalsForSlot
  rcases MapSet.filter_key (h.functional r.slotOut) with ⟨hnil, hno⟩ | ⟨b, hone, hb⟩
  · rw [hnil]
    exact ⟨Or.inl, fun hd => hd.resolve_right fun hp => hno d hp.1⟩
  · rw [hone]
    unfold withdraw
    by_cases hcb : c = b
    · subst hcb
      simp only [ne_eq, not_true_eq_false, if_false]
      exact ⟨Or.inl, fun hd => hd.resolve_right fun hp => hp.2 (h.functional _ d c hp.1 hb)⟩
    · simp only [ne_eq, hcb, not_false_eq_true, if_true]
      show d ∈ r.requests.put b ↔ _
      rw [MapSet.mem_put]
      constructor
      · rintro (rfl | hd)
        · exact Or.inr ⟨hb, Ne.symm hcb⟩
        · exact Or.inl hd
      · rintro (hd | ⟨hd, -⟩)
        · exact Or.inr hd
        · exact Or.inl (h.functional _ d b hd hb)

/-- **A round of `process_pending_decisions`.** -/
theorem pending_succ (me : P) (h : Ledger cfg decided r) (fuel : ℕ) :
    ((∀ c, (r.slotOut, c) ∉ r.decisions) ∧
        r.processPendingDecisions cfg me (fuel + 1) = (r, [])) ∨
      ∃ c, (r.slotOut, c) ∈ r.decisions ∧ r.processPendingDecisions cfg me (fuel + 1) =
        let (r', sends) := (r.settle c).perform me c
        let (r'', sends') := r'.processPendingDecisions cfg me fuel
        (r'', sends ++ sends') := by
  have hmem : ∀ d, d ∈ cfg.decisions.toList r.getPendingDecisions ↔
      d ∈ r.decisions ∧ d.1 = r.slotOut :=
    fun d => by
      rw [(cfg.decisions.perm _).mem_iff, getPendingDecisions, List.mem_filter, decide_eq_true_eq]
      rfl
  rw [processPendingDecisions]
  split
  · rename_i hnil
    refine Or.inl ⟨fun c hc => ?_, rfl⟩
    have hin := (hmem (r.slotOut, c)).mpr ⟨hc, rfl⟩
    rw [hnil] at hin
    exact List.not_mem_nil hin
  · rename_i s c l hcons
    obtain ⟨hc, hs⟩ := (hmem (s, c)).mp (hcons ▸ List.mem_cons_self)
    obtain rfl : s = r.slotOut := hs
    refine Or.inr ⟨c, hc, ?_⟩
    unfold settle getProposalsForSlot
    rcases MapSet.filter_key (h.functional r.slotOut) with ⟨hnil, -⟩ | ⟨b, hone, -⟩
    · rw [hnil]
    · rw [hone]

/-- Performing the decision for `slot_out` keeps the invariant, and no command is lost by it: the
replica's own proposal for the slot is the decided command or becomes a request again. -/
theorem Ledger.perform (me : P) (h : Ledger cfg decided r) {c : Command P}
    (hc : (r.slotOut, c) ∈ r.decisions) : Ledger cfg decided ((r.settle c).perform me c).1 ∧
      ∀ d, r.Accounted d → ((r.settle c).perform me c).1.Accounted d := by
  obtain ⟨hexit, hin, hout, hdec⟩ := settle_frame r c
  have hout' : ((r.settle c).perform me c).1.slotOut = r.slotOut + 1 := congrArg (· + 1) hout
  constructor
  · exact {
      running := hexit.trans h.running
      decisions := fun s d hd => h.decisions s d (hdec ▸ hd)
      functional := fun s d d' hd hd' => h.functional s d d' ((mem_settle_proposals h).mp hd).1
        ((mem_settle_proposals h).mp hd').1
      open' := fun s d hd => by
        obtain ⟨hold, hne⟩ := (mem_settle_proposals h).mp hd
        obtain ⟨hlo, hhi⟩ := h.open' s d hold
        rw [hout']
        refine ⟨by omega, ?_⟩
        show s < (r.settle c).slotIn
        omega
      below := fun s hs hlt => by
        rw [hout'] at hlt
        show ∃ d, (s, d) ∈ (r.settle c).decisions
        rw [hdec]
        rcases Nat.lt_succ_iff_lt_or_eq.mp hlt with hlt | rfl
        · exact h.below s hs hlt
        · exact ⟨c, hc⟩
      start := hin ▸ h.start
      first := hout' ▸ Nat.le_add_left 1 _
      window := by
        rw [hout']
        show (r.settle c).slotIn ≤ _
        have := h.window
        omega }
  · intro d hd
    have hdec' : ∀ s, (s, d) ∈ ((r.settle c).perform me c).1.decisions ↔ (s, d) ∈ r.decisions :=
      fun s => by
        show (s, d) ∈ (r.settle c).decisions ↔ _
        rw [hdec]
    unfold Accounted
    rw [hout']
    rcases hd with hreq | ⟨s, hs, hprop⟩ | ⟨s, hs, hd⟩
    · exact Or.inl ((mem_settle_requests h).mpr (Or.inl hreq))
    · by_cases hso : s = r.slotOut
      · subst hso
        by_cases hdc : d = c
        · exact Or.inr (Or.inr ⟨r.slotOut, Nat.lt_succ_self _, (hdec' _).mpr (hdc ▸ hc)⟩)
        · exact Or.inl ((mem_settle_requests h).mpr (Or.inr ⟨hprop, hdc⟩))
      · exact Or.inr (Or.inl ⟨s, by omega, (mem_settle_proposals h).mpr ⟨hprop, hso⟩⟩)
    · exact Or.inr (Or.inr ⟨s, Nat.lt_succ_of_lt hs, (hdec' s).mpr hd⟩)

/-- **`process_pending_decisions` keeps the invariant and loses no command.** -/
theorem Ledger.processPendingDecisions (me : P) :
    ∀ (fuel : ℕ) {r : Replica P}, Ledger cfg decided r →
    Ledger cfg decided (r.processPendingDecisions cfg me fuel).1 ∧
      (∀ d, r.Accounted d → (r.processPendingDecisions cfg me fuel).1.Accounted d) ∧
      (r.processPendingDecisions cfg me fuel).1.decisions = r.decisions
  | 0, _, h => ⟨h, fun _ hd => hd, rfl⟩
  | fuel + 1, r, h => by
    rcases pending_succ me h fuel with ⟨-, heq⟩ | ⟨c, hc, heq⟩ <;> rw [heq]
    · exact ⟨h, fun _ hd => hd, rfl⟩
    · obtain ⟨h', hkeep⟩ := h.perform me hc
      obtain ⟨h'', hkeep', hdec⟩ := Ledger.processPendingDecisions me fuel h'
      exact ⟨h'', fun d hd => hkeep' d (hkeep d hd), hdec.trans (settle_frame r c).2.2.2⟩

/-- Each round uses up a decision, so a round for every decision from `slot_out` on is enough:
when the loop ends, the next slot is not decided. -/
theorem pending_done : ∀ (fuel : ℕ) {r : Replica P}, Ledger cfg decided r →
    (r.decisions.elems.filter fun d => r.slotOut ≤ d.1).length ≤ fuel →
    ∀ c, ((r.processPendingDecisions cfg me fuel).1.slotOut, c) ∉
      (r.processPendingDecisions cfg me fuel).1.decisions
  | 0, r, _, hfuel, c, hc => by
    have hnil := List.length_eq_zero_iff.mp (Nat.le_zero.mp hfuel)
    have hin : (r.slotOut, c) ∈ r.decisions.elems.filter fun d => r.slotOut ≤ d.1 :=
      List.mem_filter.mpr ⟨hc, by simp⟩
    rw [hnil] at hin
    exact List.not_mem_nil hin
  | fuel + 1, r, h, hfuel, c, hc => by
    rcases pending_succ me h fuel with ⟨hno, heq⟩ | ⟨b, hb, heq⟩ <;> rw [heq] at hc
    · exact hno c hc
    · obtain ⟨-, -, hout, hdec⟩ := settle_frame r b
      refine pending_done fuel (h.perform me hb).1 ?_ c hc
      show ((r.settle b).decisions.elems.filter fun d => (r.settle b).slotOut + 1 ≤ d.1).length
        ≤ fuel
      rw [hdec, hout]
      have hin : (r.slotOut, b) ∈ r.decisions.elems.filter fun d => r.slotOut ≤ d.1 :=
        List.mem_filter.mpr ⟨hb, by simp⟩
      have hsub : (r.decisions.elems.filter fun d => r.slotOut + 1 ≤ d.1) ⊆
          (r.decisions.elems.filter fun d => r.slotOut ≤ d.1).erase (r.slotOut, b) := by
        intro d hd
        obtain ⟨hd, hlt⟩ := List.mem_filter.mp hd
        have hlt := of_decide_eq_true hlt
        refine (List.mem_erase_of_ne ?_).mpr (List.mem_filter.mpr ⟨hd, decide_eq_true (by omega)⟩)
        rintro rfl
        exact absurd hlt (Nat.not_succ_le_self _)
      have hle := ((r.decisions.nodup.filter _).subperm hsub).length_le
      rw [List.length_erase_of_mem hin] at hle
      omega

/-! ## Proposing requests -/

omit [LinearOrder P] in
theorem tryToReconfigure_eq (cfg : Config P) (r : Replica P) :
    ∃ leaders, r.tryToReconfigure cfg = { r with leaders } := by
  unfold tryToReconfigure
  split
  · exact ⟨_, rfl⟩
  · exact ⟨r.leaders, rfl⟩

/-- **A round of `propose`**: it stops, skips a slot that is decided already, or proposes a
request. -/
theorem propose_succ (h : Ledger cfg decided r)
    (huniq : ∀ s c c', decided s c → decided s c' → c = c') (fuel : ℕ) :
    ((r.slotOut + cfg.windowSize ≤ r.slotIn ∨ ∀ c, c ∉ r.requests) ∧
        r.propose cfg (fuel + 1) = (r, [])) ∨
      (r.slotIn < r.slotOut + cfg.windowSize ∧ (∃ c, (r.slotIn, c) ∈ r.decisions) ∧
        r.propose cfg (fuel + 1) = (r.tryToReconfigure cfg).incrementSlotIn.propose cfg fuel) ∨
      (r.slotIn < r.slotOut + cfg.windowSize ∧ (∀ c, (r.slotIn, c) ∉ r.decisions) ∧
        ∃ c ∈ r.requests, r.propose cfg (fuel + 1) =
          let (r', sends) := ((((r.tryToReconfigure cfg).removeRequest c).addProposal
            (r.slotIn, c)).incrementSlotIn).propose cfg fuel
          (r', ((r.tryToReconfigure cfg).leaders.map fun l => (.leader l, .propose r.slotIn c)) ++
            sends)) := by
  obtain ⟨leaders, hre⟩ := tryToReconfigure_eq cfg r
  have hstop : (r.outsideCurrentConfigWindow cfg || r.requests.size == 0) = true ↔
      r.slotOut + cfg.windowSize ≤ r.slotIn ∨ ∀ c, c ∉ r.requests := by
    rw [Bool.or_eq_true, beq_iff_eq, MapSet.size_eq_zero, outsideCurrentConfigWindow,
      decide_eq_true_eq]
  by_cases hs : (r.outsideCurrentConfigWindow cfg || r.requests.size == 0) = true
  · exact Or.inl ⟨hstop.mp hs, by rw [propose, if_pos hs]⟩
  · have hgo := mt hstop.mpr hs
    rw [not_or, not_le, not_forall] at hgo
    obtain ⟨hwin, c₀, hc₀⟩ := hgo
    have hone : ∀ b b', (r.slotIn, b) ∈ r.decisions → (r.slotIn, b') ∈ r.decisions → b = b' :=
      fun b b' hb hb' => huniq _ b b' (h.decisions _ b hb) (h.decisions _ b' hb')
    right
    rcases MapSet.filter_key hone with ⟨hnil, hno⟩ | ⟨b, hone, hb⟩
    · right
      refine ⟨hwin, hno, ?_⟩
      have hskip : (r.tryToReconfigure cfg).slotInAlreadyDecided = false := by
        rw [hre, slotInAlreadyDecided]
        simp [hnil]
      have hreq : (r.tryToReconfigure cfg).requests = r.requests := by rw [hre]
      have hin : (r.tryToReconfigure cfg).slotIn = r.slotIn := by rw [hre]
      cases hl : cfg.requests.toList r.requests.elems with
      | nil =>
        have hc := (cfg.requests.perm r.requests.elems).mem_iff.mpr (not_not.mp hc₀)
        rw [hl] at hc
        cases hc
      | cons c l =>
        have hc : c ∈ r.requests.elems :=
          (cfg.requests.perm r.requests.elems).mem_iff.mp (hl ▸ List.mem_cons_self)
        refine ⟨c, hc, ?_⟩
        rw [propose, if_neg hs]
        simp only [hskip, hreq, hin, hl, Bool.false_eq_true, if_false]
    · left
      refine ⟨hwin, ⟨b, hb⟩, ?_⟩
      have hskip : (r.tryToReconfigure cfg).slotInAlreadyDecided = true := by
        rw [hre, slotInAlreadyDecided]
        simp [hone]
      rw [propose, if_neg hs]
      simp only [hskip, if_true]

omit [LinearOrder P] in
/-- Moving `slot_in` past a decided slot keeps the invariant. -/
theorem Ledger.skip (h : Ledger cfg decided r) (hwin : r.slotIn < r.slotOut + cfg.windowSize) :
    Ledger cfg decided (r.tryToReconfigure cfg).incrementSlotIn ∧
      ∀ d, r.Accounted d → (r.tryToReconfigure cfg).incrementSlotIn.Accounted d := by
  obtain ⟨leaders, hre⟩ := tryToReconfigure_eq cfg r
  rw [hre]
  exact ⟨{ h with
    open' := fun s d hd => ⟨(h.open' s d hd).1, Nat.lt_succ_of_lt (h.open' s d hd).2⟩
    start := Nat.le_succ_of_le h.start
    window := hwin }, fun _ hd => hd⟩

/-- A request becomes the proposal for `slot_in`, which is free and not below `slot_out`. -/
theorem Ledger.proposed (h : Ledger cfg decided r) (hwin : r.slotIn < r.slotOut + cfg.windowSize)
    (hfree : ∀ c, (r.slotIn, c) ∉ r.decisions) (c : Command P) :
    Ledger cfg decided
        (((r.tryToReconfigure cfg).removeRequest c).addProposal (r.slotIn, c)).incrementSlotIn ∧
      ∀ d, r.Accounted d → (((r.tryToReconfigure cfg).removeRequest c).addProposal
        (r.slotIn, c)).incrementSlotIn.Accounted d := by
  obtain ⟨leaders, hre⟩ := tryToReconfigure_eq cfg r
  rw [hre]
  have hge : r.slotOut ≤ r.slotIn := by
    by_contra hlt
    obtain ⟨d, hd⟩ := h.below r.slotIn h.start (not_le.mp hlt)
    exact hfree d hd
  have hnone : ∀ d, (r.slotIn, d) ∉ r.proposals := fun d hd => Nat.lt_irrefl _ (h.open' _ d hd).2
  constructor
  · exact { h with
      functional := fun s d d' hd hd' => by
        rcases MapSet.mem_put.mp hd with hd | hd <;> rcases MapSet.mem_put.mp hd' with hd' | hd'
        · rw [(Prod.mk.inj hd).2, (Prod.mk.inj hd').2]
        · rw [(Prod.mk.inj hd).1] at hd'
          exact absurd hd' (hnone d')
        · rw [(Prod.mk.inj hd').1] at hd
          exact absurd hd (hnone d)
        · exact h.functional s d d' hd hd'
      open' := fun s d hd => by
        rcases MapSet.mem_put.mp hd with hd | hd
        · obtain ⟨rfl, rfl⟩ := Prod.mk.inj hd
          exact ⟨hge, Nat.lt_succ_self _⟩
        · exact ⟨(h.open' s d hd).1, Nat.lt_succ_of_lt (h.open' s d hd).2⟩
      start := Nat.le_succ_of_le h.start
      window := hwin }
  · rintro d (hreq | ⟨s, hs, hprop⟩ | hdec)
    · by_cases hdc : d = c
      · exact Or.inr (Or.inl ⟨r.slotIn, hge, MapSet.mem_put.mpr (Or.inl (hdc ▸ rfl))⟩)
      · exact Or.inl (MapSet.mem_delete.mpr ⟨hdc, hreq⟩)
    · exact Or.inr (Or.inl ⟨s, hs, MapSet.mem_put.mpr (Or.inr hprop)⟩)
    · exact Or.inr (Or.inr hdec)

section Unique

variable (huniq : ∀ s c c', decided s c → decided s c' → c = c')

include huniq

/-- **`propose` keeps the invariant and loses no command.** -/
theorem Ledger.propose : ∀ (fuel : ℕ) {r : Replica P}, Ledger cfg decided r →
    Ledger cfg decided (r.propose cfg fuel).1 ∧
      (∀ d, r.Accounted d → (r.propose cfg fuel).1.Accounted d) ∧
      (r.propose cfg fuel).1.slotOut = r.slotOut ∧ (r.propose cfg fuel).1.decisions = r.decisions
  | 0, _, h => ⟨h, fun _ hd => hd, rfl, rfl⟩
  | fuel + 1, r, h => by
    obtain ⟨leaders, hre⟩ := tryToReconfigure_eq cfg r
    rcases propose_succ h huniq fuel with ⟨-, heq⟩ | ⟨hwin, -, heq⟩ | ⟨hwin, hfree, c, -, heq⟩ <;>
      rw [heq]
    · exact ⟨h, fun _ hd => hd, rfl, rfl⟩
    · obtain ⟨h', hkeep⟩ := h.skip hwin
      obtain ⟨h'', hkeep', hout, hdec⟩ := Ledger.propose fuel h'
      refine ⟨h'', fun d hd => hkeep' d (hkeep d hd), hout.trans ?_, hdec.trans ?_⟩ <;>
        rw [hre] <;> rfl
    · obtain ⟨h', hkeep⟩ := h.proposed hwin hfree c
      obtain ⟨h'', hkeep', hout, hdec⟩ := Ledger.propose fuel h'
      refine ⟨h'', fun d hd => hkeep' d (hkeep d hd), hout.trans ?_, hdec.trans ?_⟩ <;>
        rw [hre] <;> rfl

/-- Each round moves `slot_in` up, so a round for every slot left in the window is enough: when
the loop ends, the window is full or there is nothing to propose. -/
theorem propose_done : ∀ (fuel : ℕ) {r : Replica P}, Ledger cfg decided r →
    r.slotOut + cfg.windowSize - r.slotIn ≤ fuel →
    (r.propose cfg fuel).1.slotOut + cfg.windowSize ≤ (r.propose cfg fuel).1.slotIn ∨
      ∀ c, c ∉ (r.propose cfg fuel).1.requests
  | 0, _, _, hfuel => Or.inl (Nat.sub_eq_zero_iff_le.mp (Nat.le_zero.mp hfuel))
  | fuel + 1, r, h, hfuel => by
    obtain ⟨leaders, hre⟩ := tryToReconfigure_eq cfg r
    rcases propose_succ h huniq fuel with ⟨hstop, heq⟩ | ⟨hwin, -, heq⟩ |
      ⟨hwin, hfree, c, -, heq⟩ <;>
      rw [heq]
    · exact hstop
    · refine propose_done fuel (h.skip hwin).1 ?_
      rw [hre]
      show r.slotOut + cfg.windowSize - (r.slotIn + 1) ≤ fuel
      omega
    · refine propose_done fuel (h.proposed hwin hfree c).1 ?_
      rw [hre]
      show r.slotOut + cfg.windowSize - (r.slotIn + 1) ≤ fuel
      omega

end Unique

/-! ## Messages -/

theorem Ledger.addDecision (h : Ledger cfg decided r) {s : ℕ} {c : Command P} (hc : decided s c) :
    Ledger cfg decided (r.addDecision (s, c)) ∧
      ∀ d, r.Accounted d → (r.addDecision (s, c)).Accounted d := by
  have hsub : ∀ x, x ∈ r.decisions → x ∈ (r.addDecision (s, c)).decisions :=
    fun x hx => MapSet.mem_put.mpr (Or.inr hx)
  constructor
  · exact { h with
      decisions := fun t d hd => by
        rcases MapSet.mem_put.mp hd with hd | hd
        · obtain ⟨rfl, rfl⟩ := Prod.mk.inj hd
          exact hc
        · exact h.decisions t d hd
      below := fun t ht hlt => by
        obtain ⟨d, hd⟩ := h.below t ht hlt
        exact ⟨d, hsub _ hd⟩ }
  · rintro d (hreq | hprop | ⟨t, ht, hd⟩)
    · exact Or.inl hreq
    · exact Or.inr (Or.inl hprop)
    · exact Or.inr (Or.inr ⟨t, ht, hsub _ hd⟩)

/-- The `receive` of `next` keeps the invariant; no command is lost, and the message is taken
down. -/
theorem Ledger.handle (me : P) (h : Ledger cfg decided r) {msg : Message P}
    (hmsg : ∀ s c, msg = .decision s c → decided s c) :
    Ledger cfg decided (r.handle cfg me msg).1 ∧
      (∀ d, r.Accounted d ∨ msg = .clientRequest d → (r.handle cfg me msg).1.Accounted d) ∧
      ∀ s c, (s, c) ∈ (r.handle cfg me msg).1.decisions ↔
        (s, c) ∈ r.decisions ∨ msg = .decision s c := by
  cases msg with
  | clientRequest c =>
    refine ⟨{ h with }, ?_, fun s d => ⟨Or.inl, fun hd => hd.resolve_right nofun⟩⟩
    rintro d ((hreq | hrest) | heq)
    · exact Or.inl (MapSet.mem_put.mpr (Or.inr hreq))
    · exact Or.inr hrest
    · exact Or.inl (MapSet.mem_put.mpr (Or.inl (Message.clientRequest.inj heq).symm))
  | decision s c =>
    obtain ⟨hadd, hkeep⟩ := h.addDecision (hmsg s c rfl)
    obtain ⟨h', hkeep', hdec⟩ := hadd.processPendingDecisions me
      (r.addDecision (s, c)).decisions.size
    refine ⟨h', fun d hd => hkeep' d (hkeep d (hd.resolve_right nofun)), fun t d => ?_⟩
    have hdec' : ((r.handle cfg me (.decision s c)).1).decisions = r.decisions.put (s, c) := hdec
    rw [hdec', MapSet.mem_put, or_comm]
    exact or_congr_right ⟨fun heq => by cases heq; rfl, fun heq => by cases heq; rfl⟩
  | _ =>
    exact ⟨h, fun d hd => hd.resolve_right nofun,
      fun s d => ⟨Or.inl, fun hd => hd.resolve_right nofun⟩⟩

/-- The two loops have run to their end: the next slot is not decided, and the window is full or
nothing is left to propose. -/
def Settled (cfg : Config P) (r : Replica P) : Prop :=
  (∀ c, (r.slotOut, c) ∉ r.decisions) ∧
    (r.slotOut + cfg.windowSize ≤ r.slotIn ∨ ∀ c, c ∉ r.requests)

section Unique

variable (huniq : ∀ s c c', decided s c → decided s c' → c = c')

include huniq

/-- **A message keeps the invariant, and no command is lost.** -/
theorem Ledger.next (me : P) (h : Ledger cfg decided r) {msg : Message P}
    (hmsg : ∀ s c, msg = .decision s c → decided s c) :
    Ledger cfg decided (r.next cfg me msg).1 ∧
      (∀ d, r.Accounted d ∨ msg = .clientRequest d → (r.next cfg me msg).1.Accounted d) ∧
      ∀ s c, (s, c) ∈ (r.next cfg me msg).1.decisions ↔
        (s, c) ∈ r.decisions ∨ msg = .decision s c := by
  obtain ⟨h', hkeep, hdec⟩ := h.handle me hmsg
  obtain ⟨h'', hkeep', -, hdec'⟩ :=
    Ledger.propose huniq ((r.handle cfg me msg).1.proposeFuel cfg) h'
  have hnext : (r.next cfg me msg).1 =
      ((r.handle cfg me msg).1.propose cfg ((r.handle cfg me msg).1.proposeFuel cfg)).1 := by
    rw [Replica.next]
    simp only [h'.running, Bool.false_eq_true, if_false]
  rw [hnext]
  exact ⟨h'', fun d hd => hkeep' d (hkeep d hd), fun s c => by rw [hdec']; exact hdec s c⟩

theorem Ledger.handleAll (me : P) (msgs : List (Message P)) {r : Replica P}
    (h : Ledger cfg decided r) (hmsgs : ∀ s c, .decision s c ∈ msgs → decided s c) :
    Ledger cfg decided (r.handleAll cfg me msgs).1 ∧
      (∀ d, r.Accounted d ∨ .clientRequest d ∈ msgs → (r.handleAll cfg me msgs).1.Accounted d) ∧
      ∀ s c, (s, c) ∈ (r.handleAll cfg me msgs).1.decisions ↔
        (s, c) ∈ r.decisions ∨ .decision s c ∈ msgs := by
  induction msgs generalizing r with
  | nil =>
    exact ⟨h, fun d hd => hd.resolve_right List.not_mem_nil,
      fun s c => ⟨Or.inl, fun hd => hd.resolve_right List.not_mem_nil⟩⟩
  | cons msg msgs ih =>
    obtain ⟨h', hkeep, hdec⟩ := h.next huniq me fun s c heq =>
      hmsgs s c (heq ▸ List.mem_cons_self)
    obtain ⟨h'', hkeep', hdec'⟩ := ih h' fun s c hin =>
      hmsgs s c (List.mem_cons_of_mem _ hin)
    have hall : (r.handleAll cfg me (msg :: msgs)).1 =
        ((r.next cfg me msg).1.handleAll cfg me msgs).1 := by
      rw [Replica.handleAll]
      simp only [h.running, Bool.false_eq_true, if_false]
    rw [hall]
    refine ⟨h'', fun d hd => hkeep' d ?_, fun s c => ?_⟩
    · rw [List.mem_cons, ← or_assoc] at hd
      refine hd.imp_left fun hd => hkeep d (hd.imp_right Eq.symm)
    · rw [hdec', hdec, List.mem_cons, or_assoc, @eq_comm _ msg]

/-- **No round is cut off.** Handling messages leaves the replica settled, so the rounds allowed
to the loops are never too few. -/
theorem Ledger.settled_next (me : P) (h : Ledger cfg decided r)
    (hopen : ∀ c, (r.slotOut, c) ∉ r.decisions) {msg : Message P}
    (hmsg : ∀ s c, msg = .decision s c → decided s c) : Settled cfg (r.next cfg me msg).1 := by
  obtain ⟨h', -, -⟩ := h.handle me hmsg
  have hopen' : ∀ c, ((r.handle cfg me msg).1.slotOut, c) ∉ (r.handle cfg me msg).1.decisions := by
    cases msg with
    | decision s c =>
      refine pending_done _ (h.addDecision (hmsg s c rfl)).1 (List.length_filter_le _ _)
    | _ => exact hopen
  obtain ⟨h'', -, hout, hdec⟩ := Ledger.propose huniq ((r.handle cfg me msg).1.proposeFuel cfg) h'
  have hdone := propose_done huniq ((r.handle cfg me msg).1.proposeFuel cfg) h' le_rfl
  rw [Replica.next]
  simp only [h'.running, Bool.false_eq_true, if_false]
  exact ⟨fun c => by rw [hout, hdec]; exact hopen' c, hdone⟩

end Unique

omit [LinearOrder P] in
theorem ledger_start (leaders : List P) : Ledger cfg decided (Replica.start leaders) where
  running := rfl
  decisions _ _ hd := absurd hd (MapSet.not_mem_empty _)
  functional _ _ _ hd := absurd hd (MapSet.not_mem_empty _)
  open' _ _ hd := absurd hd (MapSet.not_mem_empty _)
  below _ hs hlt := absurd hlt (Nat.not_lt.mpr hs)
  start := le_rfl
  first := le_rfl
  window := Nat.le_add_right 1 _

/-- What a replica's state says about the messages it has handled. -/
structure Served (cfg : Config P) (msgs : List (Message P)) (r : Replica P) : Prop where
  /-- Every command a client asked for is a request, or proposed in an open slot, or decided in a
  slot that has been performed. -/
  accounted : ∀ c, .clientRequest c ∈ msgs → c ∈ r.requests ∨
    (∃ s, r.slotOut ≤ s ∧ (s, c) ∈ r.proposals) ∨
      ∃ s, s < r.slotOut ∧ (s, c) ∈ r.decisions ∧ .decision s c ∈ msgs
  functional : ∀ s c c', (s, c) ∈ r.proposals → (s, c') ∈ r.proposals → c = c'
  running : r.exited = false
  below : ∀ s, 1 ≤ s → s < r.slotOut → ∃ c, (s, c) ∈ r.decisions ∧ .decision s c ∈ msgs
  window : r.slotIn ≤ r.slotOut + cfg.windowSize

/-- **A replica never loses a request.** After any messages that decide one command per slot, the
replica accounts for every command it was asked for, has one proposal per slot and therefore
never exits, has every slot below `slot_out` decided, and keeps to its window. -/
theorem replica_serves (leaders : List P) {msgs : List (Message P)}
    (huniq : ∀ s c c', .decision s c ∈ msgs → .decision s c' ∈ msgs → c = c') :
    Served cfg msgs ((Replica.start leaders).handleAll cfg me msgs).1 := by
  have hstart : Ledger cfg (fun s c => .decision s c ∈ msgs) (Replica.start leaders) :=
    ledger_start leaders
  obtain ⟨h, hkeep, -⟩ := Ledger.handleAll huniq me msgs hstart fun _ _ hin => hin
  have hmem : ∀ s c, (s, c) ∈ ((Replica.start leaders).handleAll cfg me msgs).1.decisions →
      .decision s c ∈ msgs := h.decisions
  exact {
    accounted := fun c hc => by
      rcases hkeep c (Or.inr hc) with hreq | hprop | ⟨s, hs, hd⟩
      · exact Or.inl hreq
      · exact Or.inr (Or.inl hprop)
      · exact Or.inr (Or.inr ⟨s, hs, hd, hmem s c hd⟩)
    functional := h.functional
    running := h.running
    below := fun s hs hlt => by
      obtain ⟨c, hc⟩ := h.below s hs hlt
      exact ⟨c, hc, hmem s c hc⟩
    window := h.window }

/-- The replica's own request loses slot 1 to another command and is decided in slot 2. -/
def outbidMessages : List (Message (Fin 2)) :=
  [.clientRequest (transfer 1), .decision 1 (transfer 2), .decision 1 (transfer 2),
    .decision 2 (transfer 1)]

theorem replica_serves_outbid : Served (sample 2 .fullLiveness) outbidMessages
    ((Replica.start [0, 1]).handleAll (sample 2 .fullLiveness) 0 outbidMessages).1 := by
  refine replica_serves [0, 1] fun s c c' hc hc' => ?_
  simp only [outbidMessages, List.mem_cons, Message.decision.injEq, reduceCtorEq, false_or,
    List.not_mem_nil, or_false] at hc hc'
  rcases hc with ⟨rfl, rfl⟩ | ⟨rfl, rfl⟩ | ⟨rfl, rfl⟩ <;> simp at hc' <;> exact hc'.symm

end Replica

end DocMachine.Paxos
