import Mathlib.Data.List.FinRange
import DocMachine.Lib.MapSet
import DocMachine.Paxos.BallotNumber

/-!
# Commands, pvalues and messages

The data that the processes of `consensus/lib` exchange: the tuples that they send, the command of
`client.ex` (50-53), `%Pvalue{}` (`pvalue.ex`), and of `configuration.ex` what the modelled
processes read.

* `P` is the type of servers. The leader of server `p` is identified with `p` wherever only its
  process id matters, so the order on `P` is the order of the leaders' process ids.
* The operation of a command is a `:MOVE` transaction or a map with a `:leaders` key, the two shapes
  that the replica tells apart (`isreconfig?`). The transaction id is the string `"node_seq"`, kept
  as the pair of the two numbers.
* The order in which Elixir lists a set is a parameter of the configuration where the source depends
  on it.
* Times are left out but for the timeout of a leader, and `sample` is a small configuration.
-/

namespace DocMachine.Paxos

open DocMachine.Lib

/-- The third component of a command. -/
inductive Op (P : Type) where
  | move (amount : ℤ) (account1 account2 : ℕ) (id : ℕ × ℕ)
  | reconfig (leaders : List P)
  deriving DecidableEq, Repr

/-- `{client, cid, op}`. -/
structure Command (P : Type) where
  client : ℕ
  cid : ℕ
  op : Op P
  deriving DecidableEq, Repr

/-- `%Pvalue{}` (`pvalue.ex`). -/
structure Pvalue (P : Type) where
  ballotNum : BallotNumber P
  slotNum : ℕ
  command : Command P
  deriving DecidableEq, Repr

/-- The processes. Scouts and commanders are numbered in the order in which they are spawned. -/
inductive Pid (P : Type) where
  | acceptor (p : P)
  | leader (p : P)
  | replica (p : P)
  | database (p : P)
  | detector (p : P)
  | scout (k : ℕ)
  | commander (k : ℕ)
  | client (n : ℕ)
  deriving DecidableEq, Repr

/-- The messages, under the source's tags. -/
inductive Message (P : Type) where
  | clientRequest (c : Command P)
  | clientResponse (cid : ℕ) (c : Command P)
  | execute (op : Op P)
  | decision (s : ℕ) (c : Command P)
  | propose (s : ℕ) (c : Command P)
  | p1a (l : Pid P) (b : BallotNumber P)
  | p1b (a : P) (b : BallotNumber P) (r : MapSet (Pvalue P))
  | p2a (l : Pid P) (pvalue : Pvalue P)
  | p2b (a : P) (b : BallotNumber P)
  | adopted (b : BallotNumber P) (pvalues : MapSet (Pvalue P))
  | preempted (b : BallotNumber P)
  | proposalChosen
  | ping (b : BallotNumber P)
  | responseRequested (requestor : Pid P)
  | stillAlive (currentBallot : BallotNumber P) (timeout : ℤ)
  | preempt (b : BallotNumber P)
  deriving DecidableEq

/-- A message with its addressee, as a handler sends it. -/
abbrev Send (P : Type) := Pid P × Message P

/-- `config.operation_mode`. -/
inductive OperationMode where
  | noLiveness
  | partialLiveness
  | simplifiedLiveness
  | fullLiveness
  deriving DecidableEq, Repr

/-- The parts of the configuration that the modelled processes read. `servers` lists the
servers in the order in which they reported to `Multipaxos.start`; the acceptors, replicas and
leaders are bound in that order. `scaleTimeout` is the rounded product with
`leader_timeout_increase_factor`, and the two listings are the order in which Elixir lists a
replica's sets. -/
structure Config (P : Type) where
  servers : List P
  nodup : servers.Nodup
  complete : ∀ p, p ∈ servers
  operationMode : OperationMode
  windowSize : ℕ
  initialLeaderTimeout : ℤ
  minLeaderTimeout : ℤ
  maxLeaderTimeout : ℤ
  leaderTimeoutDecreaseConst : ℤ
  scaleTimeout : ℤ → ℤ
  requests : Listing (Command P)
  decisions : Listing (ℕ × Command P)

/-! ## A small configuration -/

/-- `n` servers, with sets listed in the order in which they are kept. -/
def sample (n : ℕ) (mode : OperationMode) : Config (Fin n) where
  servers := List.finRange n
  nodup := List.nodup_finRange n
  complete := List.mem_finRange
  operationMode := mode
  windowSize := 3
  initialLeaderTimeout := 1000
  minLeaderTimeout := 100
  maxLeaderTimeout := 5000
  leaderTimeoutDecreaseConst := 10
  scaleTimeout := fun t => 2 * t
  requests := ⟨id, List.Perm.refl⟩
  decisions := ⟨id, List.Perm.refl⟩

/-- The servers of `sample 2`. -/
def serverA : Fin 2 := ⟨0, by decide⟩

/-- The second server. -/
def serverB : Fin 2 := ⟨1, by decide⟩

/-- The `n`-th transfer of a client. -/
def transfer {P : Type} (n : ℕ) : Command P := ⟨0, n, .move 1 1 2 (0, n)⟩

end DocMachine.Paxos
