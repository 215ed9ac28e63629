import DocMachine.Paxos.StateMachine
import DocMachine.Paxos.Validity

/-!
# The replicated service

The Synod processes and the replicas of `consensus/lib` together. `StateMachine.lean` leaves open
where the decisions come from; here they come from the system itself, in the modes in which it
agrees.

* `chosen` of a state is what the system has decided by then for each slot: the first `:DECISION`
  sent. In a run that agrees it is the only one.
* What the system has decided by the end of a run says what every replica did on the way (`Tracks`):
  it sent its database the operations of the commands of its slots, in slot order and each command
  once.
* `executedBy` is read off the messages that were sent, so that crashes of databases make no
  difference to it.
* `Serves` collects what is asked of a run: one of the two modes without a failure detector, and
  clients that ask for transactions.

Results:
* `tracks_run`: the decisions of the whole run say what the replicas did on the way.
* `replicas_agree`: of any two replicas, one has sent a prefix of what the other has, and all of it
  was asked for.
* `monitor_agrees`: with databases and a monitor behind the replicas, of any two databases one has
  executed a prefix of what the other has, and the monitor never halts.
-/

namespace DocMachine.Paxos

open DocMachine.Lib

variable {P : Type} [LinearOrder P] {cfg : Config P} {st st' : State P} {a : Action P}

/-! ## What was decided and what was executed -/

/-- The command that was decided first for the slot. -/
def State.chosen (st : State P) (s : ℕ) : Option (Command P) :=
  st.sent.findSome? fun e =>
    match e.msg with
    | .decision s' c => if s' = s then some c else none
    | _ => none

/-- What the replica has sent to its database. -/
def State.executedBy (st : State P) (p : P) : List (Op P) :=
  executes ((st.sent.filter fun e => e.src = .replica p).map fun e => (e.dst, e.msg))

omit [LinearOrder P] in
theorem exists_of_chosen {s : ℕ} {c : Command P} (h : st.chosen s = some c) :
    ∃ e ∈ st.sent, e.msg = .decision s c := by
  obtain ⟨e, he, hsome⟩ := List.exists_of_findSome?_eq_some h
  refine ⟨e, he, ?_⟩
  split at hsome
  · rename_i s' c' hmsg
    split_ifs at hsome with hs
    cases hsome
    rw [hmsg, hs]
  · cases hsome

omit [LinearOrder P] in
/-- If the decisions agree, they are the chosen commands. -/
theorem Agreement.chosen_eq (h : Agreement st) {e : Envelope P} (he : e ∈ st.sent) {s : ℕ}
    {c : Command P} (hmsg : e.msg = .decision s c) : st.chosen s = some c := by
  have hsome : (st.chosen s).isSome = true := by
    unfold State.chosen
    rw [List.isSome_findSome?, List.any_eq_true]
    refine ⟨e, he, ?_⟩
    rw [hmsg]
    simp
  obtain ⟨d, hd⟩ := Option.isSome_iff_exists.mp hsome
  obtain ⟨e', he', hmsg'⟩ := exists_of_chosen hd
  rw [hd, h e' he' e he s d c hmsg' hmsg]

theorem executedBy_post (st : State P) (src : Pid P) (sends : List (Send P)) (p : P) :
    (st.post src sends).executedBy p =
      st.executedBy p ++ if src = .replica p then executes sends else [] := by
  unfold State.executedBy State.post
  rw [List.filter_append, List.map_append, Replica.executes_append]
  congr 1
  by_cases hsrc : src = .replica p
  · have hall : (sends.map fun m => (⟨src, m.1, m.2⟩ : Envelope P)).filter
        (fun e => e.src = .replica p) = sends.map fun m => ⟨src, m.1, m.2⟩ := by
      refine List.filter_eq_self.mpr fun e he => ?_
      obtain ⟨m, -, rfl⟩ := List.mem_map.mp he
      exact decide_eq_true hsrc
    rw [if_pos hsrc, hall, List.map_map]
    exact congrArg executes (List.map_id sends)
  · have hnone : (sends.map fun m => (⟨src, m.1, m.2⟩ : Envelope P)).filter
        (fun e => e.src = .replica p) = [] := by
      refine List.filter_eq_nil_iff.mpr fun e he => ?_
      obtain ⟨m, -, rfl⟩ := List.mem_map.mp he
      simpa using hsrc
    rw [if_neg hsrc, hnone]
    rfl

theorem executedBy_post_of_ne {src : Pid P} {sends : List (Send P)} {p : P}
    (h : src ≠ .replica p) : (st.post src sends).executedBy p = st.executedBy p := by
  rw [executedBy_post, if_neg h, List.append_nil]

/-- A leader and the processes it spawns execute nothing. -/
theorem executedBy_effects (st : State P) (l : P) (es : List (Effect P)) (p : P) :
    (st.effects cfg l es).executedBy p = st.executedBy p := by
  refine State.effects_frame (f := fun st => st.executedBy p) (fun st e => ?_) es st
  cases e with
  | send dst msg => exact executedBy_post_of_ne fun h => nomatch h
  | spawnScout b => exact executedBy_post_of_ne fun h => nomatch h
  | spawnCommander pv => exact executedBy_post_of_ne fun h => nomatch h

omit [LinearOrder P] in
theorem effects_replicas (st : State P) (l : P) (es : List (Effect P)) :
    (st.effects cfg l es).replicas = st.replicas :=
  State.effects_frame (fun _ e => by cases e <;> rfl) es st

/-! ## Replicas follow the decisions -/

/-- The replicas follow `chosen` and have executed what it says. -/
structure Tracks (cfg : Config P) (chosen : ℕ → Option (Command P)) (st : State P) : Prop where
  follows : ∀ p, Replica.Follows cfg chosen (st.replicas p)
  executed : ∀ p, st.executedBy p = (performed chosen (st.replicas p).slotOut).map Command.op

/-- The decisions that were sent agree with `chosen`. -/
def DecidesAs (chosen : ℕ → Option (Command P)) (st : State P) : Prop :=
  ∀ e ∈ st.sent, ∀ s c, e.msg = .decision s c → chosen s = some c

/-- What was sent stays sent. -/
theorem sent_run {as : List (Action P)} {fin : State P}
    (hrun : Run.run (step cfg) st as = some fin) : ∀ e ∈ st.sent, e ∈ fin.sent := by
  induction as generalizing st with
  | nil =>
    cases hrun
    exact fun e he => he
  | cons a as ih =>
    intro e he
    obtain ⟨mid, hstep, hrest⟩ := Option.bind_eq_some_iff.mp hrun
    exact ih hrest e ((Step.of_step hstep).sent_mono e he)

section Moves

variable {chosen : ℕ → Option (Command P)} (hfirst : chosen 0 = none)
  (hmove : ∀ s c, chosen s = some c → c.op.isreconfig = false)

/-- A step that leaves the replicas alone. -/
theorem Tracks.of_same (h : Tracks cfg chosen st) (hreplicas : st'.replicas = st.replicas)
    (hexecuted : ∀ p, st'.executedBy p = st.executedBy p) : Tracks cfg chosen st' where
  follows p := by
    rw [hreplicas]
    exact h.follows p
  executed p := by
    rw [hreplicas, hexecuted]
    exact h.executed p

include hfirst hmove

theorem Tracks.step (h : Tracks cfg chosen st) (hnet : NetSent st) (hdecides : DecidesAs chosen st)
    (hstep : Step cfg st a st') : Tracks cfg chosen st' := by
  cases hstep with
  | @replica i p e hi _ hdst hrun =>
    have hmsg : ∀ s c, e.msg = .decision s c → chosen s = some c :=
      hdecides e (hnet e (List.mem_of_getElem? hi))
    have hnext := (h.follows p).next Replica.chosen_unique p hmsg
    have hexecutes := Replica.executes_next hfirst hmove p (h.follows p) hmsg
    have hreplicas : ∀ q, (((st.take i e).setReplica p ((st.replicas p).next cfg p e.msg).1).post
        (.replica p) ((st.replicas p).next cfg p e.msg).2).replicas q =
          if q = p then ((st.replicas p).next cfg p e.msg).1 else st.replicas q :=
      fun q => Function.update_apply _ _ _ _
    refine ⟨fun q => ?_, fun q => ?_⟩
    · rw [hreplicas]
      split_ifs
      · exact hnext.1
      · exact h.follows q
    · rw [hreplicas, executedBy_post]
      have hold : ((st.take i e).setReplica p ((st.replicas p).next cfg p e.msg).1).executedBy q =
          st.executedBy q := rfl
      rw [hold, h.executed q]
      by_cases hq : q = p
      · subst hq
        rw [if_pos rfl, if_pos rfl, hexecutes]
      · rw [if_neg hq, if_neg fun heq => hq (Pid.replica.inj heq).symm, List.append_nil]
  | @leader i p e l es =>
    refine h.of_same (effects_replicas ..) fun q => ?_
    rw [executedBy_effects]
    rfl
  | acceptor | detector | scout | commander | timeout | request =>
    exact h.of_same rfl fun q => executedBy_post_of_ne fun heq => nomatch heq
  | crash => exact h.of_same rfl fun _ => rfl

/-- **The decisions of the whole run say what the replicas did on the way.** -/
theorem tracks_run {as : List (Action P)} {fin : State P}
    (hrun : Run.run (Paxos.step cfg) st as = some fin) (hdecides : DecidesAs chosen fin)
    (hnet : NetSent st) (h : Tracks cfg chosen st) : Tracks cfg chosen fin := by
  induction as generalizing st with
  | nil =>
    cases hrun
    exact h
  | cons a as ih =>
    have hsofar : DecidesAs chosen st := fun e he => hdecides e (sent_run hrun e he)
    obtain ⟨mid, hstep, hrest⟩ := Option.bind_eq_some_iff.mp hrun
    have hstep := Step.of_step hstep
    exact ih hrest (hstep.netSent hnet) (h.step hfirst hmove hnet hsofar hstep)

end Moves

omit [LinearOrder P] in
theorem init_replicas (cfg : Config P) :
    (init cfg).replicas = fun _ => Replica.start cfg.servers :=
  init_induction (Q := fun st => st.replicas = fun _ => Replica.start cfg.servers) rfl
    fun _ _ h => h

theorem tracks_init {chosen : ℕ → Option (Command P)} : Tracks cfg chosen (init cfg) := by
  have hexecuted : ∀ p, (init cfg).executedBy p = [] := by
    intro p
    refine init_induction (Q := fun st => st.executedBy p = []) rfl fun st q h => ?_
    have hscout : Pid.scout st.scouts.length ≠ Pid.replica p := by simp
    exact (executedBy_post_of_ne hscout).trans h
  refine ⟨fun p => ?_, fun p => ?_⟩
  · rw [init_replicas]
    exact Replica.ledger_start cfg.servers
  · rw [init_replicas, hexecuted]
    rfl

/-! ## The service -/

variable {as : List (Action P)}

/-- A mode that agrees, and clients that only ask for transfers. -/
structure Serves (cfg : Config P) (as : List (Action P)) : Prop where
  mode : cfg.operationMode = .noLiveness ∨ cfg.operationMode = .partialLiveness
  moves : ∀ r c, .request r c ∈ as → c.op.isreconfig = false

/-- The commands that a run decides. -/
structure Decides (as : List (Action P)) (st : State P) : Prop where
  agrees : DecidesAs st.chosen st
  asked : ∀ s c, st.chosen s = some c → 1 ≤ s ∧ Requested as c

/-- Without a failure detector no leader is moved to another ballot, and the invariant of the Synod
holds all the way. -/
theorem Serves.inv (hserves : Serves cfg as) (h : Reaches cfg as st) : Inv cfg st := by
  have hnone : cfg.operationMode.hasDetector = false := by
    rcases hserves.mode with hmode | hmode <;> rw [hmode] <;> rfl
  have hkeep : ∀ st a st', Inv cfg st ∧ Undisturbed st → step cfg st a = some st' →
      Inv cfg st' ∧ Undisturbed st' := by
    rintro st a st' ⟨hinv, hund⟩ hstep
    refine ⟨inv_step hinv (fun hraise => ?_) hstep, hund.step hnone (Step.of_step hstep)⟩
    obtain ⟨i, e, p, b, -, hi, -, hb, -⟩ := raisesActive_iff.mp hraise
    exact hund.sent e (hinv.net e (List.mem_of_getElem? hi)) b hb
  exact (Run.invariant hkeep ⟨inv_init, undisturbed_init⟩ h).1

theorem Serves.decides (hserves : Serves cfg as) (h : Reaches cfg as st) : Decides as st := by
  obtain ⟨-, hg⟩ := genuine_run h
  refine ⟨fun e he s c hmsg => (hserves.inv h).agreement.chosen_eq he hmsg, fun s c hc => ?_⟩
  obtain ⟨e, he, hmsg⟩ := exists_of_chosen hc
  have hmsg' := hg.sent e he
  rw [hmsg] at hmsg'
  exact hmsg'

omit [LinearOrder P] in
theorem Decides.first (h : Decides as st) : st.chosen 0 = none := by
  cases hc : st.chosen 0 with
  | none => rfl
  | some c => exact absurd (h.asked 0 c hc).1 (Nat.not_lt_zero 0)

omit [LinearOrder P] in
theorem Decides.moves (h : Decides as st) (hserves : Serves cfg as) {s : ℕ} {c : Command P}
    (hc : st.chosen s = some c) : c.op.isreconfig = false := by
  obtain ⟨-, r, hr⟩ := h.asked s c hc
  exact hserves.moves r c hr

theorem Serves.tracks (hserves : Serves cfg as) (h : Reaches cfg as st) :
    Tracks cfg st.chosen st := by
  have hdecides := hserves.decides h
  exact tracks_run hdecides.first (fun _ _ => hdecides.moves hserves) h hdecides.agrees
    netSent_init tracks_init

/-- **The replicas agree.** However the messages of the system are ordered, delayed and lost and
whatever crashes, every replica has sent to its database the operations of the commands decided
for the slots below its `slot_out`, in slot order and each command once; all of these were asked
for; and of any two replicas one has sent a prefix of what the other has. -/
theorem replicas_agree (hserves : Serves cfg as) (h : Reaches cfg as st) :
    (∀ s c, st.chosen s = some c → ∃ r, .request r c ∈ as) ∧
      (∀ p, (st.replicas p).exited = false ∧
        (∀ s, 1 ≤ s → s < (st.replicas p).slotOut → (st.chosen s).isSome = true) ∧
        st.executedBy p = (performed st.chosen (st.replicas p).slotOut).map Command.op) ∧
      ∀ p q, st.executedBy p <+: st.executedBy q ∨ st.executedBy q <+: st.executedBy p := by
  have hdecides := hserves.decides h
  have htracks := hserves.tracks h
  refine ⟨fun s c hc => (hdecides.asked s c hc).2, fun p => ⟨(htracks.follows p).running,
    fun s hs hlt => ?_, htracks.executed p⟩, fun p q => ?_⟩
  · obtain ⟨c, hc⟩ := (htracks.follows p).below s hs hlt
    rw [(htracks.follows p).decisions s c hc]
    rfl
  · rw [htracks.executed p, htracks.executed q]
    rcases Nat.le_total (st.replicas p).slotOut (st.replicas q).slotOut with hle | hle
    · exact Or.inl ((performed_mono hle).map _)
    · exact Or.inr ((performed_mono hle).map _)

/-- After `decidingRun`, both replicas are told what was decided. -/
def servingRun : List (Action (Fin 2)) := decidingRun ++ [.deliver 3, .deliver 3]

theorem serves_servingRun : Serves (sample 2 .noLiveness) servingRun where
  mode := Or.inl rfl
  moves r c hin := by
    simp only [servingRun, decidingRun, List.cons_append, List.mem_cons, List.mem_append,
      List.mem_map, reduceCtorEq, and_false, exists_false, List.not_mem_nil, or_false] at hin
    cases hin
    rfl

theorem replicas_agree_servingRun : ∃ st, Reaches (sample 2 .noLiveness) servingRun st ∧
    st.executedBy serverA = [(transfer 1).op] ∧ st.executedBy serverB = [(transfer 1).op] ∧
    (∀ s c, st.chosen s = some c → ∃ r, .request r c ∈ servingRun) ∧
    (∀ p, (st.replicas p).exited = false ∧
      (∀ s, 1 ≤ s → s < (st.replicas p).slotOut → (st.chosen s).isSome = true) ∧
      st.executedBy p = (performed st.chosen (st.replicas p).slotOut).map Command.op) ∧
    ∀ p q, st.executedBy p <+: st.executedBy q ∨ st.executedBy q <+: st.executedBy p := by
  have hrun : (Run.run (step (sample 2 .noLiveness)) (init (sample 2 .noLiveness)) servingRun).any
      (fun st => st.executedBy serverA = [(transfer 1).op] &&
        st.executedBy serverB = [(transfer 1).op]) = true := by decide +kernel
  obtain ⟨st, hst, hexecuted⟩ := (Option.any_eq_true _ _).mp hrun
  obtain ⟨ha, hb⟩ := Bool.and_eq_true_iff.mp hexecuted
  exact ⟨st, hst, of_decide_eq_true ha, of_decide_eq_true hb, replicas_agree serves_servingRun hst⟩

/-- **The monitor finds nothing.** Databases and a monitor that are fed with decisions of the
system, in any order and any number of times, never differ: of what two replicas have sent to
their databases, and of what two databases have executed of it, one is a prefix of the other. -/
theorem monitor_agrees (hserves : Serves cfg as) (h : Reaches cfg as st) {events : List (Event P)}
    {cluster : Cluster P}
    (hfed : ∀ p s c, .receive p (.decision s c) ∈ events → ∃ e ∈ st.sent, e.msg = .decision s c)
    (hrun : Run.run (Cluster.step cfg) (Cluster.start cfg) events = some cluster) :
    cluster.monitor.halted = false ∧
      (∀ p q, cluster.executed p <+: cluster.executed q ∨
        cluster.executed q <+: cluster.executed p) ∧
      (∀ p, cluster.executed p = cluster.ranBy p ++ cluster.transactions p) ∧
      ∀ p q, cluster.ranBy p <+: cluster.ranBy q ∨ cluster.ranBy q <+: cluster.ranBy p := by
  have hdecides := hserves.decides h
  have hreplicated := replicated hdecides.first (fun _ _ => hdecides.moves hserves)
    (fun p s c hin => by
      obtain ⟨e, he, hmsg⟩ := hfed p s c hin
      exact hdecides.agrees e he s c hmsg) replicated_start hrun
  exact ⟨hreplicated.running, hreplicated.comparable, hreplicated.channels.ranBy_append,
    hreplicated.ranBy_comparable⟩

/-- Both replicas hear of the first decision, and their databases report it. -/
def reports : List (Event (Fin 2)) :=
  [serverA, serverB].flatMap fun p =>
    [.receive p (.decision 1 (transfer 1)), .execute p, .report p]

theorem monitor_agrees_servingRun : ∃ st cluster,
    Reaches (sample 2 .noLiveness) servingRun st ∧
    Run.run (Cluster.step (sample 2 .noLiveness)) (Cluster.start (sample 2 .noLiveness)) reports =
      some cluster ∧ cluster.ranBy serverA = [(transfer 1).op] ∧
    cluster.ranBy serverB = [(transfer 1).op] ∧ cluster.monitor.halted = false ∧
    (∀ p q, cluster.executed p <+: cluster.executed q ∨
      cluster.executed q <+: cluster.executed p) ∧
    (∀ p, cluster.executed p = cluster.ranBy p ++ cluster.transactions p) ∧
    ∀ p q, cluster.ranBy p <+: cluster.ranBy q ∨ cluster.ranBy q <+: cluster.ranBy p := by
  have hrun : (Run.run (step (sample 2 .noLiveness)) (init (sample 2 .noLiveness)) servingRun).any
      (fun st => decides st 1 (transfer 1)) = true := by decide +kernel
  have hreports : (Run.run (Cluster.step (sample 2 .noLiveness))
      (Cluster.start (sample 2 .noLiveness)) reports).any (fun cluster =>
        cluster.ranBy serverA = [(transfer 1).op] && cluster.ranBy serverB = [(transfer 1).op]) =
      true := by decide +kernel
  obtain ⟨st, hst, hdecides⟩ := (Option.any_eq_true _ _).mp hrun
  obtain ⟨cluster, hcluster, hran⟩ := (Option.any_eq_true _ _).mp hreports
  obtain ⟨ha, hb⟩ := Bool.and_eq_true_iff.mp hran
  refine ⟨st, cluster, hst, hcluster, of_decide_eq_true ha, of_decide_eq_true hb,
    monitor_agrees serves_servingRun hst ?_ hcluster⟩
  intro p s c hin
  obtain ⟨q, -, hq⟩ := List.mem_flatMap.mp hin
  have hfirst : Message.decision s c = .decision 1 (transfer 1) := by
    simp only [List.mem_cons, List.not_mem_nil, or_false, reduceCtorEq, Event.receive.injEq] at hq
    exact hq.2
  rw [hfirst]
  exact exists_of_decides hdecides

end DocMachine.Paxos
