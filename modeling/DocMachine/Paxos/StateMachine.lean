import DocMachine.Lib.Run
import DocMachine.Paxos.Database
import DocMachine.Paxos.Requests

/-!
# The replicated state machine

The replicas (`consensus/lib/replica.ex`) with their databases (`database.ex` 26-51) and the monitor
(`monitor.ex` 125-156), joined by first-in first-out channels (`Cluster`).

* What the Synod processes do is left open: any message may reach a replica at any time, as often as
  one likes, as long as the decisions agree with one assignment `chosen` of commands to slots. Slots
  are numbered from 1, as a replica numbers them.
* An `Event` is a message for a replica, the next transaction for a database, or the next report for
  the monitor. The processes take them in any order.
* `executed` records what a replica has sent to its database, and `ranBy` the part of it that the
  database has executed. `performed chosen n` is what the slots below `n` amount to: their commands
  in slot order, each only the first time.

Results:
* `executes_next`: what a message makes a replica execute is what the slots it completes add.
* `Replicated.receive`, `Replicated.execute` and `Replicated.report`: each event keeps the
  invariant, and both checks of the monitor pass.
* `replicated`: hence it holds at the end of every run.
* `Replicated.comparable` and `Replicated.ranBy_comparable`: any two replicas have sent, and any two
  databases have executed, the same transactions up to a point.
* `replicated_state_machine`: sequence, order and monitor together, for every run.
-/

namespace DocMachine.Paxos

open DocMachine.Lib

variable {P : Type} [LinearOrder P]

/-- The commands chosen for the slots below `n`, without repetitions. -/
def performed (chosen : ℕ → Option (Command P)) (n : ℕ) : List (Command P) :=
  ((List.range' 1 (n - 1)).filterMap chosen).eraseDups

/-- The transactions among the messages that a replica sends. -/
def executes (sends : List (Send P)) : List (Op P) :=
  sends.filterMap fun m =>
    match m.2 with
    | .execute op => some op
    | _ => none

/-! ## What a replica executes -/

section Performed

variable {chosen : ℕ → Option (Command P)}

theorem mem_performed {n : ℕ} {c : Command P} :
    c ∈ performed chosen n ↔ ∃ s, 1 ≤ s ∧ s < n ∧ chosen s = some c := by
  rw [performed, List.mem_eraseDups, List.mem_filterMap]
  constructor
  · rintro ⟨s, hs, hc⟩
    rw [List.mem_range'_1] at hs
    exact ⟨s, hs.1, by omega, hc⟩
  · rintro ⟨s, hs, hlt, hc⟩
    exact ⟨s, List.mem_range'_1.mpr ⟨hs, by omega⟩, hc⟩

/-- The next slot adds its command unless it was there before. -/
theorem performed_succ {n : ℕ} (hn : 1 ≤ n) {c : Command P} (hc : chosen n = some c) :
    performed chosen (n + 1) = performed chosen n ++
        if c ∈ performed chosen n then [] else [c] := by
  obtain ⟨m, rfl⟩ := Nat.exists_eq_add_of_le' hn
  have hrange : List.range' 1 (m + 1) = List.range' 1 m ++ [m + 1] := by
    rw [List.range'_concat]
    simp [Nat.add_comm]
  have hone : [m + 1].filterMap chosen = [c] := by simp [hc]
  simp only [performed, Nat.add_sub_cancel, hrange, List.filterMap_append, List.eraseDups_append,
    hone, List.mem_eraseDups]
  congr 1
  by_cases hin : c ∈ (List.range' 1 m).filterMap chosen
  · simp [hin, List.removeAll]
  · simp [hin, List.removeAll, List.eraseDups_cons]

/-- More slots only add at the end. -/
theorem performed_mono {n m : ℕ} (h : n ≤ m) : performed chosen n <+: performed chosen m := by
  obtain ⟨k, hk⟩ := Nat.exists_eq_add_of_le (Nat.sub_le_sub_right h 1)
  have hrange : List.range' 1 (n - 1) ++ List.range' (1 + (n - 1)) k = List.range' 1 (n - 1 + k) :=
    List.range'_append_1
  rw [← hk] at hrange
  rw [performed, performed, ← hrange, List.filterMap_append, List.eraseDups_append]
  exact List.prefix_append _ _

end Performed

namespace Replica

variable {cfg : Config P} {chosen : ℕ → Option (Command P)} {r : Replica P}

/-- The invariant of a replica whose decisions agree with `chosen`. -/
abbrev Follows (cfg : Config P) (chosen : ℕ → Option (Command P)) (r : Replica P) : Prop :=
  Ledger cfg (fun s c => chosen s = some c) r

omit [LinearOrder P] in
theorem chosen_unique (s : ℕ) (c c' : Command P) (h : chosen s = some c) (h' : chosen s = some c') :
    c = c' :=
  Option.some.inj (h.symm.trans h')

/-- A command was processed before iff it was chosen for an earlier slot. -/
theorem alreadyProcessed_iff (h : Follows cfg chosen r) (hfirst : chosen 0 = none) {c : Command P} :
    r.alreadyProcessed c = true ↔ c ∈ performed chosen r.slotOut := by
  rw [mem_performed, alreadyProcessed, List.any_eq_true]
  constructor
  · rintro ⟨⟨s, d⟩, hd, heq⟩
    obtain ⟨rfl, hlt⟩ := of_decide_eq_true heq
    have hch : chosen s = some d := h.decisions s d hd
    refine ⟨s, Nat.one_le_iff_ne_zero.mpr fun hs => ?_, hlt, hch⟩
    subst hs
    rw [hfirst] at hch
    cases hch
  · rintro ⟨s, hs, hlt, hch⟩
    obtain ⟨d, hd⟩ := h.below s hs hlt
    obtain rfl : d = c := chosen_unique s d c (h.decisions s d hd) hch
    exact ⟨(s, d), hd, decide_eq_true ⟨rfl, hlt⟩⟩

/-- Performing a decision executes its command unless that was done before. -/
theorem executes_perform (h : Follows cfg chosen r) (hfirst : chosen 0 = none) (me : P)
    {c : Command P} (hc : (r.slotOut, c) ∈ r.decisions) (hmove : c.op.isreconfig = false) :
    (performed chosen (r.slotOut + 1)).map Command.op =
      (performed chosen r.slotOut).map Command.op ++ executes ((r.settle c).perform me c).2 := by
  obtain ⟨-, -, hout, hdec⟩ := settle_frame r c
  have hproc : (r.settle c).alreadyProcessed c = r.alreadyProcessed c := by
    unfold alreadyProcessed
    rw [hout, hdec]
  rw [performed_succ h.first (h.decisions _ c hc), List.map_append, perform, hproc, hmove,
    Bool.or_false]
  congr 1
  by_cases hin : c ∈ performed chosen r.slotOut
  · rw [if_pos hin, (alreadyProcessed_iff h hfirst).mpr hin]
    rfl
  · have hnot : r.alreadyProcessed c = false :=
      Bool.eq_false_iff.mpr fun hp => hin ((alreadyProcessed_iff h hfirst).mp hp)
    rw [if_neg hin, hnot]
    rfl

omit [LinearOrder P] in
theorem executes_append (sends sends' : List (Send P)) :
    executes (sends ++ sends') = executes sends ++ executes sends' :=
  List.filterMap_append

section Moves

variable (hfirst : chosen 0 = none) (hmove : ∀ s c, chosen s = some c → c.op.isreconfig = false)

include hfirst hmove

theorem executes_pending (me : P) : ∀ (fuel : ℕ) {r : Replica P}, Follows cfg chosen r →
    (performed chosen (r.processPendingDecisions cfg me fuel).1.slotOut).map Command.op =
      (performed chosen r.slotOut).map Command.op ++
        executes (r.processPendingDecisions cfg me fuel).2
  | 0, r, _ => (List.append_nil _).symm
  | fuel + 1, r, h => by
    rcases pending_succ me h fuel with ⟨-, heq⟩ | ⟨c, hc, heq⟩ <;> rw [heq]
    · exact (List.append_nil _).symm
    · have hout : ((r.settle c).perform me c).1.slotOut = r.slotOut + 1 :=
        congrArg (· + 1) (settle_frame r c).2.2.1
      have hrec := executes_pending me fuel (h.perform me hc).1
      simp only [executes_append]
      rw [hrec, hout, executes_perform h hfirst me hc (hmove _ c (h.decisions _ c hc)),
        List.append_assoc]

/-- **What a message makes a replica execute** is what the slots it completes add. -/
theorem executes_next (me : P) (h : Follows cfg chosen r) {msg : Message P}
    (hmsg : ∀ s c, msg = .decision s c → chosen s = some c) :
    (performed chosen (r.next cfg me msg).1.slotOut).map Command.op =
      (performed chosen r.slotOut).map Command.op ++ executes (r.next cfg me msg).2 := by
  have h' := (h.handle me hmsg).1
  obtain ⟨-, -, hout, -⟩ :=
    Ledger.propose chosen_unique ((r.handle cfg me msg).1.proposeFuel cfg) h'
  have hnone : executes
      ((r.handle cfg me msg).1.propose cfg ((r.handle cfg me msg).1.proposeFuel cfg)).2 = [] := by
    refine List.filterMap_eq_nil_iff.mpr fun m hm => ?_
    obtain ⟨l, s, c, rfl⟩ := propose_sends _ _ m hm
    rfl
  rw [Replica.next]
  simp only [h'.running, Bool.false_eq_true, if_false, executes_append]
  rw [hout, hnone, List.append_nil]
  cases msg with
  | decision s c =>
    exact executes_pending hfirst hmove me _ (h.addDecision (hmsg s c rfl)).1
  | _ => exact (List.append_nil _).symm

end Moves

end Replica

/-! ## Replicas, databases and the monitor -/

/-- The replicas, their databases and the monitor, with the channels between them. `executed` is
everything a replica has sent to its database so far. -/
structure Cluster (P : Type) [DecidableEq P] where
  replicas : P → Replica P
  executed : P → List (Op P)
  transactions : P → List (Op P)
  databases : P → Database
  moves : P → List (ℕ × Op P)
  monitor : Monitor P

/-- A message reaches a replica; a database takes the next transaction of its channel; the
monitor takes the next `:DB_MOVE` of a database's channel. -/
inductive Event (P : Type) where
  | receive (p : P) (msg : Message P)
  | execute (p : P)
  | report (p : P)

namespace Cluster

variable (cfg : Config P)

/-- The replicas with nothing sent, the databases empty. -/
def start : Cluster P where
  replicas _ := Replica.start cfg.servers
  executed _ := []
  transactions _ := []
  databases _ := Database.start
  moves _ := []
  monitor := Monitor.start

/-- One event, if it is possible. -/
def step (st : Cluster P) : Event P → Option (Cluster P)
  | .receive p msg =>
    if (st.replicas p).exited then none
    else
      let (r, sends) := (st.replicas p).next cfg p msg
      some { st with
        replicas := Function.update st.replicas p r
        executed := Function.update st.executed p (st.executed p ++ executes sends)
        transactions := Function.update st.transactions p (st.transactions p ++ executes sends) }
  | .execute p =>
    match st.transactions p with
    | [] => none
    | op :: rest => ((st.databases p).next op).map fun (d, move) => { st with
        transactions := Function.update st.transactions p rest
        databases := Function.update st.databases p d
        moves := Function.update st.moves p (st.moves p ++ [move]) }
  | .report p =>
    match st.moves p with
    | [] => none
    | move :: rest => (st.monitor.next p move.1 move.2).map fun m => { st with
        moves := Function.update st.moves p rest
        monitor := m }

/-- What the database of `p` has executed: what was sent to it, as far as its `seqnum` goes. -/
def ranBy (st : Cluster P) (p : P) : List (Op P) :=
  (st.executed p).take (st.databases p).seqnum

end Cluster

/-- What holds of the channels: each is what its reader has not read yet, and the monitor's log
holds commands that some database has executed. -/
structure Channels (st : Cluster P) : Prop where
  seqnum : ∀ p, (st.databases p).seqnum ≤ (st.executed p).length
  transactions : ∀ p, st.transactions p = (st.executed p).drop (st.databases p).seqnum
  done : ∀ p, (st.moves p).length + st.monitor.doneOf p = (st.databases p).seqnum
  moves : ∀ p i move, (st.moves p)[i]? = some move →
    move.1 = st.monitor.doneOf p + i + 1 ∧ (st.executed p)[st.monitor.doneOf p + i]? = some move.2
  log : ∀ k entry, st.monitor.log.lookup (k + 1) = some entry →
    ∃ p op, (st.executed p)[k]? = some op ∧ op.entry = some entry

/-- What a run keeps: replicas follow `chosen`, channels are in order, the monitor runs. -/
structure Replicated (cfg : Config P) (chosen : ℕ → Option (Command P))
    (st : Cluster P) : Prop where
  follows : ∀ p, Replica.Follows cfg chosen (st.replicas p)
  sequence : ∀ p, st.executed p = (performed chosen (st.replicas p).slotOut).map Command.op
  channels : Channels st
  running : st.monitor.halted = false

section Run

variable {cfg : Config P} {chosen : ℕ → Option (Command P)} {st st' : Cluster P}

/-- **Any two replicas execute the same commands up to a point.** -/
theorem Replicated.comparable (h : Replicated cfg chosen st) (p q : P) :
    st.executed p <+: st.executed q ∨ st.executed q <+: st.executed p := by
  rw [h.sequence p, h.sequence q]
  rcases Nat.le_total (st.replicas p).slotOut (st.replicas q).slotOut with hle | hle
  · exact Or.inl ((performed_mono hle).map _)
  · exact Or.inr ((performed_mono hle).map _)

/-- What a replica has sent is what its database has executed and what still waits for it. -/
theorem Channels.ranBy_append (h : Channels st) (p : P) :
    st.executed p = st.ranBy p ++ st.transactions p := by
  rw [h.transactions p]
  exact (List.take_append_drop _ _).symm

/-- **Any two databases have executed the same transactions up to a point.** -/
theorem Replicated.ranBy_comparable (h : Replicated cfg chosen st) (p q : P) :
    st.ranBy p <+: st.ranBy q ∨ st.ranBy q <+: st.ranBy p := by
  have hp : st.ranBy p <+: st.executed p := List.take_prefix _ _
  have hq : st.ranBy q <+: st.executed q := List.take_prefix _ _
  rcases h.comparable p q with hle | hle
  · exact List.prefix_or_prefix_of_prefix (hp.trans hle) hq
  · exact List.prefix_or_prefix_of_prefix hp (hq.trans hle)

/-- Two replicas agree on the transaction at a place that both have reached. -/
theorem Replicated.agree (h : Replicated cfg chosen st) {p q : P} {k : ℕ} {op op' : Op P}
    (hp : (st.executed p)[k]? = some op) (hq : (st.executed q)[k]? = some op') : op = op' := by
  rcases h.comparable p q with ⟨l, hl⟩ | ⟨l, hl⟩
  · rw [← hl, List.getElem?_append_left (List.getElem?_eq_some_iff.mp hp).1] at hq
    exact Option.some.inj (hp.symm.trans hq)
  · rw [← hl, List.getElem?_append_left (List.getElem?_eq_some_iff.mp hq).1] at hp
    exact Option.some.inj (hp.symm.trans hq)

/-- A replica handles a message and its channel grows by what it executes. -/
theorem Replicated.receive (hfirst : chosen 0 = none)
    (hmove : ∀ s c, chosen s = some c → c.op.isreconfig = false) (h : Replicated cfg chosen st)
    {p : P} {msg : Message P} (hmsg : ∀ s c, msg = .decision s c → chosen s = some c)
    (hstep : Cluster.step cfg st (.receive p msg) = some st') : Replicated cfg chosen st' := by
  have hfol := h.follows p
  simp only [Cluster.step, hfol.running, Bool.false_eq_true, if_false, Option.some.injEq] at hstep
  subst hstep
  have hgrow : ∀ (q : P) (k : ℕ) op, (st.executed q)[k]? = some op → (Function.update st.executed p
      (st.executed p ++ executes ((st.replicas p).next cfg p msg).2) q)[k]? = some op := by
    intro q k op hk
    rw [Function.update_apply]
    split_ifs with hq
    · subst hq
      rw [List.getElem?_append_left (List.getElem?_eq_some_iff.mp hk).1]
      exact hk
    · exact hk
  exact {
    follows := fun q => by
      show Replica.Follows cfg chosen (Function.update st.replicas p _ q)
      rw [Function.update_apply]
      split_ifs
      · exact (hfol.next Replica.chosen_unique p hmsg).1
      · exact h.follows q
    sequence := fun q => by
      show Function.update st.executed p _ q = (performed chosen
        (Function.update st.replicas p _ q).slotOut).map _
      rw [Function.update_apply, Function.update_apply]
      split_ifs
      · rw [Replica.executes_next hfirst hmove p hfol hmsg, h.sequence p]
      · exact h.sequence q
    channels := {
      seqnum := fun q => by
        show (st.databases q).seqnum ≤ (Function.update st.executed p _ q).length
        have hle := h.channels.seqnum q
        rw [Function.update_apply]
        split_ifs with hq
        · subst hq
          rw [List.length_append]
          exact Nat.le_add_right_of_le hle
        · exact hle
      transactions := fun q => by
        show Function.update st.transactions p _ q = (Function.update st.executed p _ q).drop _
        have hq := h.channels.transactions q
        rw [Function.update_apply, Function.update_apply]
        split_ifs with hqp
        · subst hqp
          rw [List.drop_append_of_le_length (h.channels.seqnum q), hq]
        · exact hq
      done := h.channels.done
      moves := fun q i move hm => by
        obtain ⟨hk, hop⟩ := h.channels.moves q i move hm
        exact ⟨hk, hgrow q _ _ hop⟩
      log := fun k entry hk => by
        obtain ⟨q, op, hop, hentry⟩ := h.channels.log k entry hk
        exact ⟨q, op, hgrow q k op hop, hentry⟩ }
    running := h.running }

/-- A database takes its next transaction; nothing else changes. -/
theorem Replicated.execute (h : Replicated cfg chosen st) {p : P}
    (hstep : Cluster.step cfg st (.execute p) = some st') : Replicated cfg chosen st' := by
  cases htr : st.transactions p with
  | nil =>
    rw [Cluster.step, htr] at hstep
    cases hstep
  | cons op rest =>
    rw [Cluster.step, htr] at hstep
    obtain ⟨⟨d, move⟩, hnext, rfl⟩ := Option.map_eq_some_iff.mp hstep
    obtain ⟨hseq, rfl⟩ := Database.next_spec hnext
    have hdrop := (h.channels.transactions p).symm.trans htr
    have hop : (st.executed p)[(st.databases p).seqnum]? = some op := by
      rw [← Nat.add_zero (st.databases p).seqnum, ← List.getElem?_drop, hdrop]
      rfl
    have hrest : (st.executed p).drop ((st.databases p).seqnum + 1) = rest := by
      rw [← List.tail_drop, hdrop]
      rfl
    exact {
      follows := h.follows
      sequence := h.sequence
      channels := {
        seqnum := fun q => by
          show (Function.update st.databases p d q).seqnum ≤ (st.executed q).length
          rw [Function.update_apply]
          split_ifs with hq
          · subst hq
            rw [hseq]
            exact (List.getElem?_eq_some_iff.mp hop).1
          · exact h.channels.seqnum q
        transactions := fun q => by
          show Function.update st.transactions p rest q =
            (st.executed q).drop (Function.update st.databases p d q).seqnum
          rw [Function.update_apply, Function.update_apply]
          split_ifs with hq
          · subst hq
            rw [hseq, hrest]
          · exact h.channels.transactions q
        done := fun q => by
          show (Function.update st.moves p _ q).length + st.monitor.doneOf q =
            (Function.update st.databases p d q).seqnum
          have hdone := h.channels.done q
          rw [Function.update_apply, Function.update_apply]
          split_ifs with hq
          · subst hq
            rw [List.length_append, List.length_singleton, hseq]
            omega
          · exact hdone
        moves := fun q i move hm => by
          change (Function.update st.moves p _ q)[i]? = some move at hm
          rw [Function.update_apply] at hm
          split_ifs at hm with hq
          · subst hq
            rw [List.getElem?_append] at hm
            split_ifs at hm with hlt
            · exact h.channels.moves q i move hm
            · have hdone := h.channels.done q
              have hi : i = (st.moves q).length := by
                have := (List.getElem?_eq_some_iff.mp hm).1
                simp only [List.length_singleton] at this
                omega
              rw [hi, Nat.sub_self] at hm
              cases hm
              have hat : st.monitor.doneOf q + i = (st.databases q).seqnum := by omega
              rw [hat]
              exact ⟨hseq, hop⟩
          · exact h.channels.moves q i move hm
        log := h.channels.log }
      running := h.running }

/-- The monitor takes the next report of a database, and both its checks pass. -/
theorem Replicated.report (h : Replicated cfg chosen st) {p : P}
    (hstep : Cluster.step cfg st (.report p) = some st') : Replicated cfg chosen st' := by
  cases hmv : st.moves p with
  | nil =>
    rw [Cluster.step, hmv] at hstep
    cases hstep
  | cons move rest =>
    rw [Cluster.step, hmv] at hstep
    obtain ⟨m, hnext, rfl⟩ := Option.map_eq_some_iff.mp hstep
    obtain ⟨hk, hop⟩ := h.channels.moves p 0 move (by rw [hmv]; rfl)
    rw [Nat.add_zero] at hk hop
    have hlog : ∀ t, st.monitor.log.lookup move.1 = some t → move.2.entry = some t := by
      intro t ht
      rw [hk] at ht
      obtain ⟨q, op, hq, hentry⟩ := h.channels.log _ t ht
      rw [h.agree hop hq]
      exact hentry
    obtain ⟨hhalt, hdone, hlog'⟩ := Monitor.next_spec hk hlog hnext
    exact {
      follows := h.follows
      sequence := h.sequence
      channels := {
        seqnum := h.channels.seqnum
        transactions := h.channels.transactions
        done := fun q => by
          show (Function.update st.moves p rest q).length + m.doneOf q = (st.databases q).seqnum
          have hq := h.channels.done q
          rw [Function.update_apply, hdone]
          split_ifs with hqp
          · subst hqp
            rw [hmv, List.length_cons] at hq
            omega
          · exact hq
        moves := fun q i mv hm => by
          change (Function.update st.moves p rest q)[i]? = some mv at hm
          show mv.1 = m.doneOf q + i + 1 ∧ (st.executed q)[m.doneOf q + i]? = some mv.2
          rw [Function.update_apply] at hm
          rw [hdone]
          split_ifs at hm ⊢ with hqp
          · subst hqp
            have hnext := h.channels.moves q (i + 1) mv (by rw [hmv]; exact hm)
            have hshift : st.monitor.doneOf q + (i + 1) = st.monitor.doneOf q + 1 + i := by omega
            rw [hshift, ← hk] at hnext
            exact hnext
          · exact h.channels.moves q i mv hm
        log := fun k entry hlk => by
          rcases hlog' _ _ hlk with hold | ⟨hkk, hentry⟩
          · exact h.channels.log k entry hold
          · refine ⟨p, move.2, ?_, hentry⟩
            have hkd : k = st.monitor.doneOf p := by omega
            rw [hkd]
            exact hop }
      running := hhalt.trans h.running }

theorem replicated_start : Replicated cfg chosen (Cluster.start cfg) where
  follows _ := Replica.ledger_start cfg.servers
  sequence _ := rfl
  channels := {
    seqnum := fun _ => le_rfl
    transactions := fun _ => rfl
    done := fun _ => rfl
    moves := fun _ i _ hm => by cases hm
    log := fun _ _ hk => by cases hk }
  running := rfl

/-- The invariant holds at the end of every run whose decisions agree with `chosen`. -/
theorem replicated (hfirst : chosen 0 = none)
    (hmove : ∀ s c, chosen s = some c → c.op.isreconfig = false) {as : List (Event P)}
    {st st' : Cluster P} (hdec : ∀ p s c, .receive p (.decision s c) ∈ as → chosen s = some c)
    (h : Replicated cfg chosen st) (hrun : Run.run (Cluster.step cfg) st as = some st') :
    Replicated cfg chosen st' := by
  induction as generalizing st with
  | nil =>
    cases hrun
    exact h
  | cons a as ih =>
    obtain ⟨mid, hstep, hrest⟩ := Option.bind_eq_some_iff.mp hrun
    refine ih (fun p s c hin => hdec p s c (List.mem_cons_of_mem _ hin)) ?_ hrest
    cases a with
    | receive p msg =>
      exact h.receive hfirst hmove (fun s c heq => hdec p s c (heq ▸ List.mem_cons_self)) hstep
    | execute p => exact h.execute hstep
    | report p => exact h.report hstep

/-- **The replicated state machine.** Let every decision that reaches a replica agree with
`chosen`, which assigns at most one transaction to each slot from 1 on. Then in every state of
every run
* every slot below a replica's `slot_out` has its command, and the replica has sent to its
  database the transactions of these commands in slot order, each command once;
* of any two replicas one has sent a prefix of what the other has;
* neither check of the monitor has failed, and every database can take its next transaction. -/
theorem replicated_state_machine (hfirst : chosen 0 = none)
    (hmove : ∀ s c, chosen s = some c → c.op.isreconfig = false) {as : List (Event P)}
    (hdec : ∀ p s c, .receive p (.decision s c) ∈ as → chosen s = some c)
    (hrun : Run.run (Cluster.step cfg) (Cluster.start cfg) as = some st) :
    (∀ p, (∀ s, 1 ≤ s → s < (st.replicas p).slotOut → (chosen s).isSome) ∧
      st.executed p = (performed chosen (st.replicas p).slotOut).map Command.op) ∧
    (∀ p q, st.executed p <+: st.executed q ∨ st.executed q <+: st.executed p) ∧
    st.monitor.halted = false ∧
    ∀ p, st.transactions p ≠ [] → (Cluster.step cfg st (.execute p)).isSome := by
  have h := replicated hfirst hmove hdec replicated_start hrun
  refine ⟨fun p => ⟨fun s hs hlt => ?_, h.sequence p⟩, h.comparable, h.running, fun p hne => ?_⟩
  · obtain ⟨c, hc⟩ := (h.follows p).below s hs hlt
    rw [(h.follows p).decisions s c hc]
    rfl
  · obtain ⟨op, rest, htr⟩ := List.exists_cons_of_ne_nil hne
    have hop : op ∈ st.executed p := by
      refine List.mem_of_mem_drop (?_ : op ∈ (st.executed p).drop (st.databases p).seqnum)
      rw [← h.channels.transactions p, htr]
      exact List.mem_cons_self
    rw [h.sequence p] at hop
    obtain ⟨c, hc, rfl⟩ := List.mem_map.mp hop
    obtain ⟨s, -, -, hch⟩ := mem_performed.mp hc
    have hno := hmove s c hch
    rw [Cluster.step, htr]
    cases hcop : c.op with
    | move => rfl
    | reconfig =>
      rw [hcop] at hno
      cases hno

end Run

/-- Slot 1 and slot 2 both hold the first transfer, slot 3 the second. -/
def chosenSample (s : ℕ) : Option (Command (Fin 2)) :=
  [none, some (transfer 1), some (transfer 1), some (transfer 2)].getD s none

/-- The decisions reach the replicas in different orders; one database is ahead. -/
def clusterRun : List (Event (Fin 2)) :=
  [.receive serverA (.decision 3 (transfer 2)), .receive serverA (.decision 1 (transfer 1)),
    .receive serverA (.decision 2 (transfer 1)), .receive serverB (.decision 1 (transfer 1)),
    .execute serverA, .execute serverA, .report serverA, .execute serverB, .report serverB,
    .report serverA]

theorem replicated_clusterRun : ∃ st,
    Run.run (Cluster.step (sample 2 .noLiveness))
      (Cluster.start (sample 2 .noLiveness)) clusterRun =
      some st ∧ st.executed 0 = (performed chosenSample (st.replicas 0).slotOut).map Command.op ∧
      (st.replicas 0).slotOut = 4 ∧ st.monitor.halted = false := by
  have hsome : (Run.run (Cluster.step (sample 2 .noLiveness)) (Cluster.start (sample 2 .noLiveness))
      clusterRun).any (fun st => (st.replicas 0).slotOut = 4) = true := by decide +kernel
  obtain ⟨st, hst, hout⟩ := (Option.any_eq_true _ _).mp hsome
  have hmove : ∀ s c, chosenSample s = some c → c.op.isreconfig = false := by
    intro s c hc
    match s, hc with
    | 1, hc | 2, hc | 3, hc => cases hc; rfl
  have hdec : ∀ p s c, .receive p (.decision s c) ∈ clusterRun → chosenSample s = some c := by
    intro p s c hin
    simp only [clusterRun, List.mem_cons, List.not_mem_nil, or_false, Event.receive.injEq,
      Message.decision.injEq, reduceCtorEq] at hin
    rcases hin with ⟨-, rfl, rfl⟩ | ⟨-, rfl, rfl⟩ | ⟨-, rfl, rfl⟩ | ⟨-, rfl, rfl⟩ <;> rfl
  obtain ⟨hseq, -, hhalt, -⟩ := replicated_state_machine rfl hmove hdec hst
  exact ⟨st, hst, (hseq 0).2, of_decide_eq_true hout, hhalt⟩

end DocMachine.Paxos
