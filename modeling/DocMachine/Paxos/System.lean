import Mathlib.Logic.Function.Basic
import DocMachine.Lib.Run
import DocMachine.Paxos.Synod
import DocMachine.Paxos.Leader
import DocMachine.Paxos.FailureDetector
import DocMachine.Paxos.Replica

/-!
# The Multi-Paxos system

The processes of `Server.start` (`consensus/lib/server.ex` 6-25) for every server, put together with
the messages between them, as a step function over the whole state. Servers are bound
(`Multipaxos.start`, `multipaxos.ex` 13-61): every leader has spawned its first scout and, in the
modes with one, its failure detector.

An action is one of
* `deliver i`: the `i`-th message in flight is received by its addressee. Any message in flight may
  be received next, so messages are reordered and delayed at will; a message that is lost is one
  that no action ever delivers. A message leaves `net` when it is received, so it is received at
  most once, and a process that is dead, or that stands in a `receive` without a clause for the
  message, does not receive it;
* `timeout p`: the timeout of server `p`'s failure detector fires (at any time while it pings);
* `request r c`: a client sends command `c` to the replica of server `r`;
* `crash x`: a process that `Server.start` kills (a replica, leader or acceptor) dies.

The records `sent` and `received` hold every message ever sent and ever received, with the process
that sent it. They are not read by any handler.

Databases, the monitor and clients are not processes here: nothing they send reaches the processes
modelled. What is sent to them stays in flight.

Results:
* `init_induction`: what holds of the blank state and survives a leader's first scout holds at the
  start.
* `Step.of_step`: a step as one of a few cases, each with what its process does; every invariant of
  the system is proved along them.
-/

namespace DocMachine.Paxos

open DocMachine.Lib

variable {P : Type}

/-- A message on its way. -/
structure Envelope (P : Type) where
  src : Pid P
  dst : Pid P
  msg : Message P
  deriving DecidableEq

/-- The state of the whole system. -/
structure State (P : Type) where
  acceptors : P → Acceptor P
  leaders : P → Leader P
  replicas : P → Replica P
  detectors : P → FailureDetector P
  scouts : List (Scout P)
  commanders : List (Commander P)
  crashed : List (Pid P)
  net : List (Envelope P)
  sent : List (Envelope P)
  received : List (Envelope P)

/-- The actions of a run. -/
inductive Action (P : Type) where
  | deliver (i : ℕ)
  | timeout (p : P)
  | request (r : P) (c : Command P)
  | crash (x : Pid P)

variable [LinearOrder P]

namespace State

/-- `send`, for every message of a list. -/
def post (st : State P) (src : Pid P) (sends : List (Send P)) : State P :=
  let out := sends.map fun m => ⟨src, m.1, m.2⟩
  { st with net := st.net ++ out, sent := st.sent ++ out }

/-- `spawn_scout` of leader `l`. -/
def spawnScout (cfg : Config P) (st : State P) (l : P) (b : BallotNumber P) : State P :=
  let me := Pid.scout st.scouts.length
  { st with scouts := st.scouts ++ [Scout.start l cfg.servers b] }.post me
    (Scout.startSends me cfg.servers b)

/-- `spawn_commander` of leader `l`. -/
def spawnCommander (cfg : Config P) (st : State P) (l : P) (pvalue : Pvalue P) : State P :=
  let me := Pid.commander st.commanders.length
  { st with commanders := st.commanders ++ [Commander.start l cfg.servers cfg.servers pvalue] }.post
    me (Commander.startSends me cfg.servers pvalue)

/-- One effect of leader `l`. -/
def effect (cfg : Config P) (l : P) (st : State P) : Effect P → State P
  | .send dst msg => st.post (.leader l) [(dst, msg)]
  | .spawnScout b => st.spawnScout cfg l b
  | .spawnCommander pvalue => st.spawnCommander cfg l pvalue

/-- The effects of a leader, one after the other. -/
def effects (cfg : Config P) (l : P) (st : State P) (es : List (Effect P)) : State P :=
  es.foldl (effect cfg l) st

/-- An acceptor changes. -/
def setAcceptor (st : State P) (p : P) (a : Acceptor P) : State P :=
  { st with acceptors := Function.update st.acceptors p a }

/-- A leader changes. -/
def setLeader (st : State P) (p : P) (l : Leader P) : State P :=
  { st with leaders := Function.update st.leaders p l }

/-- A replica changes. -/
def setReplica (st : State P) (p : P) (r : Replica P) : State P :=
  { st with replicas := Function.update st.replicas p r }

/-- A failure detector changes. -/
def setDetector (st : State P) (p : P) (d : FailureDetector P) : State P :=
  { st with detectors := Function.update st.detectors p d }

/-- The `k`-th scout changes. -/
def setScout (st : State P) (k : ℕ) (s : Scout P) : State P :=
  { st with scouts := st.scouts.set k s }

/-- The `k`-th commander changes. -/
def setCommander (st : State P) (k : ℕ) (c : Commander P) : State P :=
  { st with commanders := st.commanders.set k c }

end State

/-- Every process in its start state, before any leader spawned a scout. -/
def blank (cfg : Config P) : State P where
  acceptors := fun _ => Acceptor.start
  leaders := Leader.start cfg
  replicas := fun _ => Replica.start cfg.servers
  detectors := FailureDetector.start cfg
  scouts := []
  commanders := []
  crashed := []
  net := []
  sent := []
  received := []

/-- The state after every leader has been bound. -/
def init (cfg : Config P) : State P :=
  cfg.servers.foldl (fun st p => st.spawnScout cfg p ((st.leaders p).ballotNum)) (blank cfg)

omit [LinearOrder P] in
/-- What holds of the blank state and survives a leader's first scout holds at the start. -/
theorem init_induction {cfg : Config P} {Q : State P → Prop} (hblank : Q (blank cfg))
    (hspawn : ∀ st p, Q st → Q (st.spawnScout cfg p (st.leaders p).ballotNum)) : Q (init cfg) :=
  List.foldlRecOn cfg.servers _ hblank fun st hst p _ => hspawn st p hst

/-- The detector module that `spawn_failure_detector` picks. -/
def detectorNext (cfg : Config P) (me : Pid P) (self : FailureDetector P) :
    Message P → Option (FailureDetector P × List (Send P)) :=
  match cfg.operationMode with
  | .fullLiveness => FailureDetector.next me self
  | .simplifiedLiveness => SimpleFailureDetector.next me self
  | .noLiveness | .partialLiveness => fun _ => none

theorem detectorNext_sends {cfg : Config P} {me : Pid P} {self d : FailureDetector P}
    {msg : Message P} {sends : List (Send P)} (h : detectorNext cfg me self msg = some (d, sends)) :
    cfg.operationMode.hasDetector = true ∧ ∀ m ∈ sends, m.2 = .responseRequested me := by
  unfold detectorNext at h
  cases hmode : cfg.operationMode with
  | fullLiveness | simplifiedLiveness =>
    rw [hmode] at h
    exact ⟨rfl, FailureDetector.receive_sends h⟩
  | noLiveness | partialLiveness =>
    rw [hmode] at h
    cases h

/-- The addressee of a message handles it. -/
def receive (cfg : Config P) (st : State P) : Pid P → Message P → Option (State P)
  | .acceptor p, msg =>
    let (a, sends) := (st.acceptors p).next p msg
    some ((st.setAcceptor p a).post (.acceptor p) sends)
  | .leader p, msg =>
    ((st.leaders p).next cfg msg).map fun (l, es) => (st.setLeader p l).effects cfg p es
  | .replica p, msg =>
    if (st.replicas p).exited then none
    else
      let (r, sends) := (st.replicas p).next cfg p msg
      some ((st.setReplica p r).post (.replica p) sends)
  | .detector p, msg =>
    (detectorNext cfg (.detector p) (st.detectors p) msg).map fun (d, sends) =>
      (st.setDetector p d).post (.detector p) sends
  | .scout k, msg =>
    st.scouts[k]?.bind fun s =>
      if s.exited then none
      else (s.next msg).map fun (s, sends) => (st.setScout k s).post (.scout k) sends
  | .commander k, msg =>
    st.commanders[k]?.bind fun c =>
      if c.exited then none
      else (c.next cfg.operationMode msg).map fun (c, sends) =>
        (st.setCommander k c).post (.commander k) sends
  | .database _, _ | .client _, _ => none

/-- Take a received message out of the network. -/
def State.take (st : State P) (i : ℕ) (e : Envelope P) : State P :=
  { st with net := st.net.eraseIdx i, received := st.received ++ [e] }

/-- Whether `Server.start` can kill the process. -/
def Pid.crashable : Pid P → Bool
  | .acceptor _ | .leader _ | .replica _ => true
  | _ => false

/-- One action, if it is possible. -/
def step (cfg : Config P) (st : State P) : Action P → Option (State P)
  | .deliver i =>
    st.net[i]?.bind fun e =>
      if e.dst ∈ st.crashed then none else receive cfg (st.take i e) e.dst e.msg
  | .timeout p =>
    (st.detectors p).timedOut.map fun (d, sends) =>
      (st.setDetector p d).post (.detector p) sends
  | .request r c => some (st.post (.client c.client) [(.replica r, .clientRequest c)])
  | .crash x => if x.crashable then some { st with crashed := x :: st.crashed } else none

/-- The actions `as` can be taken from the start and lead to `st`. -/
def Reaches (cfg : Config P) (as : List (Action P)) (st : State P) : Prop :=
  Run.run (step cfg) (init cfg) as = some st

/-! ## Everything a step can do -/

/-- The steps, one constructor per kind of process that acts. -/
inductive Step (cfg : Config P) (st : State P) : Action P → State P → Prop where
  | acceptor {i p e} (hi : st.net[i]? = some e) (hlive : e.dst ∉ st.crashed)
    (hdst : e.dst = .acceptor p) :
    Step cfg st (.deliver i) (((st.take i e).setAcceptor p ((st.acceptors p).next p e.msg).1).post
      (.acceptor p) ((st.acceptors p).next p e.msg).2)
  | leader {i p e l es} (hi : st.net[i]? = some e) (hlive : e.dst ∉ st.crashed)
    (hdst : e.dst = .leader p) (hl : (st.leaders p).next cfg e.msg = some (l, es)) :
    Step cfg st (.deliver i) (((st.take i e).setLeader p l).effects cfg p es)
  | replica {i p e} (hi : st.net[i]? = some e) (hlive : e.dst ∉ st.crashed)
    (hdst : e.dst = .replica p)
    (hrun : (st.replicas p).exited = false) :
    Step cfg st (.deliver i) (((st.take i e).setReplica p
      ((st.replicas p).next cfg p e.msg).1).post (.replica p) ((st.replicas p).next cfg p e.msg).2)
  | detector {i p e d sends} (hi : st.net[i]? = some e) (hlive : e.dst ∉ st.crashed)
    (hdst : e.dst = .detector p)
    (hd : detectorNext cfg (.detector p) (st.detectors p) e.msg = some (d, sends)) :
    Step cfg st (.deliver i) (((st.take i e).setDetector p d).post (.detector p) sends)
  | scout {i k e s s' sends} (hi : st.net[i]? = some e) (hlive : e.dst ∉ st.crashed)
    (hdst : e.dst = .scout k)
    (hk : st.scouts[k]? = some s) (hrun : s.exited = false)
    (hs : s.next e.msg = some (s', sends)) :
    Step cfg st (.deliver i) (((st.take i e).setScout k s').post (.scout k) sends)
  | commander {i k e c c' sends} (hi : st.net[i]? = some e) (hlive : e.dst ∉ st.crashed)
    (hdst : e.dst = .commander k)
    (hk : st.commanders[k]? = some c) (hrun : c.exited = false)
    (hc : c.next cfg.operationMode e.msg = some (c', sends)) :
    Step cfg st (.deliver i) (((st.take i e).setCommander k c').post (.commander k) sends)
  | timeout {p d sends} (hd : (st.detectors p).timedOut = some (d, sends)) :
    Step cfg st (.timeout p) ((st.setDetector p d).post (.detector p) sends)
  | request {r c} :
    Step cfg st (.request r c) (st.post (.client c.client) [(.replica r, .clientRequest c)])
  | crash {x} (hx : x.crashable = true) :
    Step cfg st (.crash x) { st with crashed := x :: st.crashed }

theorem Step.of_step {cfg : Config P} {st st' : State P} {a : Action P}
    (h : step cfg st a = some st') : Step cfg st a st' := by
  cases a with
  | deliver i =>
    obtain ⟨e, hi, h⟩ := Option.bind_eq_some_iff.mp h
    split_ifs at h with hlive
    generalize hdst : e.dst = dst at h
    cases dst with
    | acceptor p =>
      obtain rfl := Option.some.inj h
      exact .acceptor hi hlive hdst
    | leader p =>
      obtain ⟨⟨l, es⟩, hl, rfl⟩ := Option.map_eq_some_iff.mp h
      exact .leader hi hlive hdst hl
    | replica p =>
      simp only [receive] at h
      split_ifs at h with hrun
      obtain rfl := Option.some.inj h
      exact .replica hi hlive hdst (Bool.not_eq_true _ ▸ hrun)
    | detector p =>
      obtain ⟨⟨d, sends⟩, hd, rfl⟩ := Option.map_eq_some_iff.mp h
      exact .detector hi hlive hdst hd
    | scout k =>
      obtain ⟨s, hk, h⟩ := Option.bind_eq_some_iff.mp h
      split_ifs at h with hrun
      obtain ⟨⟨s', sends⟩, hs, rfl⟩ := Option.map_eq_some_iff.mp h
      exact .scout hi hlive hdst hk (Bool.not_eq_true _ ▸ hrun) hs
    | commander k =>
      obtain ⟨c, hk, h⟩ := Option.bind_eq_some_iff.mp h
      split_ifs at h with hrun
      obtain ⟨⟨c', sends⟩, hc, rfl⟩ := Option.map_eq_some_iff.mp h
      exact .commander hi hlive hdst hk (Bool.not_eq_true _ ▸ hrun) hc
    | database p | client n => cases h
  | timeout p =>
    obtain ⟨⟨d, sends⟩, hd, rfl⟩ := Option.map_eq_some_iff.mp h
    exact .timeout hd
  | request r c =>
    obtain rfl := Option.some.inj h
    exact .request
  | crash x =>
    simp only [step] at h
    split_ifs at h with hx
    obtain rfl := Option.some.inj h
    exact .crash hx

end DocMachine.Paxos
