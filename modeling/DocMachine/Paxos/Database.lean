import Mathlib.Data.List.AList
import DocMachine.Paxos.Message

/-!
# The database and the monitor

Model of `Database` (`consensus/lib/database.ex`: `start` 15-24, `next` 26-51) and of the `:DB_MOVE`
branch of `Monitor` (`monitor.ex` 125-156), with its two checks.

* Elixir's maps are `AList`s; `Map.get(m, k, d)` is `(m.lookup k).getD d`.
* A database matches the transaction of an `:EXECUTE` against `{:MOVE, ..}` and crashes on any
  other; `none` is that crash. It reads both balances before it writes either.
* A failed check of the monitor calls `Helper.node_halt`, which asks the node to stop and returns,
  so the monitor still finishes the branch; it is the flag `halted`.
* The monitor's other counters only feed its printed report and are left out.

Results:
* `next_spec`: a report that comes in sequence and agrees with the log does not halt the monitor.
-/

namespace DocMachine.Paxos

variable {P : Type}

/-- The state of `Database`. -/
structure Database where
  balances : AList fun _ : ℕ => ℤ
  seqnum : ℕ

namespace Database

/-- `start`. -/
def start : Database := ⟨∅, 0⟩

/-- `balance`: the entry of one account is written. -/
def balance (self : Database) (k : ℕ) (v : ℤ) : Database :=
  { self with balances := self.balances.insert k v }

/-- `Map.get(self.balances, k, 0)`. -/
def balanceOf (self : Database) (k : ℕ) : ℤ := (self.balances.lookup k).getD 0

/-- `next` on `{:EXECUTE, transaction}`: the new state and the sequence number and transaction
of the `:DB_MOVE` sent to the monitor. Both balances are read before either is written. -/
def next (self : Database) : Op P → Option (Database × ℕ × Op P)
  | .move amount account1 account2 id =>
    let self' := { (self.balance account1 (self.balanceOf account1 + amount)).balance account2
      (self.balanceOf account2 - amount) with seqnum := self.seqnum + 1 }
    some (self', self'.seqnum, .move amount account1 account2 id)
  | .reconfig _ => none

theorem next_spec {self d : Database} {op : Op P} {move : ℕ × Op P}
    (h : self.next op = some (d, move)) :
    d.seqnum = self.seqnum + 1 ∧ move = (d.seqnum, op) := by
  cases op with
  | move =>
    cases h
    exact ⟨rfl, rfl⟩
  | reconfig => cases h

end Database

/-- An entry of the monitor's log, `%{amount: .., from: .., to: ..}`. -/
structure LogEntry where
  amount : ℤ
  source : ℕ
  target : ℕ
  deriving DecidableEq, Repr

/-- The transaction as the monitor logs it. -/
def Op.entry : Op P → Option LogEntry
  | .move amount account1 account2 _ => some ⟨amount, account1, account2⟩
  | .reconfig _ => none

/-- The state of `Monitor`; databases are known by the number of their server. -/
structure Monitor (P : Type) [DecidableEq P] where
  done : AList fun _ : P => ℕ
  log : AList fun _ : ℕ => LogEntry
  halted : Bool

namespace Monitor

variable [DecidableEq P]

/-- `start`. -/
def start : Monitor P := ⟨∅, ∅, false⟩

/-- `Map.get(self.done, db, 0)`. -/
def doneOf (self : Monitor P) (db : P) : ℕ := (self.done.lookup db).getD 0

/-- `next` on `{:DB_MOVE, db, seqnum, transaction}`. -/
def next (self : Monitor P) (db : P) (seqnum : ℕ) (transaction : Op P) : Option (Monitor P) :=
  transaction.entry.map fun entry =>
    let expecting := self.doneOf db + 1
    let self := if seqnum ≠ expecting then { self with halted := true } else self
    let self :=
      match self.log.lookup seqnum with
      | none => { self with log := self.log.insert seqnum entry }
      | some t => if entry ≠ t then { self with halted := true } else self
    { self with done := self.done.insert db seqnum }

/-- A report that comes in sequence and agrees with the log does not halt the monitor. -/
theorem next_spec {self m : Monitor P} {db : P} {seqnum : ℕ} {op : Op P}
    (hseq : seqnum = self.doneOf db + 1)
    (hlog : ∀ t, self.log.lookup seqnum = some t → op.entry = some t)
    (h : self.next db seqnum op = some m) :
    m.halted = self.halted ∧
      (∀ q, m.doneOf q = if q = db then seqnum else self.doneOf q) ∧
      ∀ k t, m.log.lookup k = some t →
        self.log.lookup k = some t ∨ (k = seqnum ∧ op.entry = some t) := by
  subst hseq
  obtain ⟨entry, hentry, rfl⟩ := Option.map_eq_some_iff.mp h
  have hdone : ∀ (l : AList fun _ : ℕ => LogEntry) b q,
      (⟨self.done.insert db (self.doneOf db + 1), l, b⟩ : Monitor P).doneOf q =
        if q = db then self.doneOf db + 1 else self.doneOf q := by
    intro l b q
    unfold doneOf
    split_ifs with hq
    · subst hq
      rw [AList.lookup_insert]
      rfl
    · rw [AList.lookup_insert_ne hq]
  cases hl : self.log.lookup (self.doneOf db + 1) with
  | none =>
    simp only [ne_eq, not_true_eq_false, if_false, hl]
    refine ⟨trivial, hdone _ _, fun k t hk => ?_⟩
    by_cases hks : k = self.doneOf db + 1
    · subst hks
      rw [AList.lookup_insert] at hk
      exact Or.inr ⟨rfl, by rw [hentry, Option.some.inj hk]⟩
    · rw [AList.lookup_insert_ne hks] at hk
      exact Or.inl hk
  | some t =>
    have heq : entry = t := Option.some.inj (hentry.symm.trans (hlog t hl))
    simp only [ne_eq, not_true_eq_false, if_false, hl, heq]
    exact ⟨trivial, hdone _ _, fun k t hk => Or.inl hk⟩

end Monitor

end DocMachine.Paxos
