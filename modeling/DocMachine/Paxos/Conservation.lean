import Mathlib.Algebra.BigOperators.Group.List.Basic
import Mathlib.Algebra.Ring.Int.Defs
import DocMachine.Lib.Run
import DocMachine.Paxos.Database

/-!
# What a database holds in total

About `Database.next` (`consensus/lib/database.ex` 26-51), which reads both balances of a `:MOVE`
before it writes either, so that a `:MOVE` from an account to itself keeps only the second write:
the account loses `amount`.

* `total` is the sum over the accounts that have an entry; an account without one holds `0`.
* A sequence of transactions is any list of them, with any amounts, negative ones included.

Results:
* `total_balance`: a write replaces what the account held.
* `total_next`: what a transaction does to the total. Nothing between two accounts, and `amount` is
  lost when they coincide.
* `always_total_iff`: the total stays `0` throughout a sequence of transactions exactly when none
  that is executed moves an amount other than `0` from an account to itself; `not_always_total_self`
  is one that does.
-/

namespace DocMachine.Paxos

open DocMachine.Lib.Run

variable {P : Type}

/-! ## Sums over a map -/

/-- What is left after a key is erased, and its value, make up the sum. -/
theorem sum_kerase (k : ℕ) (l : List (Sigma fun _ : ℕ => ℤ)) :
    ((l.kerase k).map Sigma.snd).sum + (l.dlookup k).getD 0 = (l.map Sigma.snd).sum := by
  induction l with
  | nil => rfl
  | cons s l ih =>
    by_cases h : k = s.1
    · subst h
      rw [List.kerase_cons_eq rfl, List.dlookup_cons_eq, Option.getD_some, List.map_cons,
        List.sum_cons, add_comm]
    · rw [List.kerase_cons_ne h, List.dlookup_cons_ne l s h, List.map_cons, List.sum_cons,
        List.map_cons, List.sum_cons, ← ih, add_assoc]

namespace Database

/-- The sum of all balances held. -/
def total (self : Database) : ℤ := (self.balances.entries.map Sigma.snd).sum

theorem total_start : start.total = 0 := rfl

/-- A write replaces what the account held. -/
theorem total_balance (self : Database) (k : ℕ) (v : ℤ) :
    (self.balance k v).total = self.total - self.balanceOf k + v := by
  have h := sum_kerase k self.balances.entries
  unfold total balance balanceOf
  rw [AList.entries_insert, List.map_cons, List.sum_cons, ← h, AList.lookup, add_sub_cancel_right,
    add_comm]

theorem balanceOf_balance (self : Database) (k l : ℕ) (v : ℤ) :
    (self.balance k v).balanceOf l = if l = k then v else self.balanceOf l := by
  unfold balanceOf balance
  by_cases h : l = k
  · subst h
    rw [if_pos rfl, AList.lookup_insert]
    rfl
  · rw [if_neg h, AList.lookup_insert_ne h]

/-- **What a transaction does to the total**: nothing between two accounts, and `amount` is lost
when they coincide. -/
theorem total_next {self d : Database} {move : ℕ × Op P} {amount : ℤ} {account1 account2 : ℕ}
    {id : ℕ × ℕ} (h : self.next (.move amount account1 account2 id) = some (d, move)) :
    d.total = self.total - if account1 = account2 then amount else 0 := by
  cases h
  have hwrites : ∀ self : Database, ∀ n, ({ self with seqnum := n } : Database).total =
    self.total := fun _ _ => rfl
  rw [hwrites, total_balance, total_balance, balanceOf_balance]
  by_cases hacc : account1 = account2
  · subst hacc
    rw [if_pos rfl, if_pos rfl]
    omega
  · rw [if_neg (Ne.symm hacc), if_neg hacc]
    omega

/-- One `:EXECUTE`. -/
def step (self : Database) (op : Op P) : Option Database := (self.next op).map Prod.fst

/-- Nothing is moved from an account to itself. -/
def MovesNothingToItself (op : Op P) : Prop :=
  ∀ amount account id, op = .move amount account account id → amount = 0

/-- A step keeps a total of `0` exactly when nothing is moved from an account to itself. -/
theorem total_step {self d : Database} {op : Op P} (h : self.step op = some d)
    (hself : self.total = 0) : d.total = 0 ↔ MovesNothingToItself op := by
  obtain ⟨⟨d', move⟩, hnext, rfl⟩ := Option.map_eq_some_iff.mp h
  cases op with
  | reconfig => cases hnext
  | move amount account1 account2 id =>
    have htotal := total_next hnext
    rw [hself] at htotal
    constructor
    · intro hzero amount' account id' heq
      cases heq
      rw [if_pos rfl, hzero] at htotal
      omega
    · intro hmoves
      by_cases hacc : account1 = account2
      · subst hacc
        rw [htotal, hmoves _ _ _ rfl, if_pos rfl]
        rfl
      · rw [htotal, if_neg hacc]
        rfl

/-- **The total stays `0`** throughout a sequence of transactions exactly when every one that is
executed moves nothing from an account to itself. -/
theorem always_total_iff (transactions : List (Op P)) :
    Always step (fun self => self.total = 0) start transactions ↔
      Along step (fun _ op => MovesNothingToItself op) start transactions := by
  have hJ : (fun self : Database => self.total = 0) start := total_start
  refine always_iff_along (fun _ h => h) ?_ ?_ hJ
  · intro s op t hs hG h
    exact (total_step h hs).mpr hG
  · intro s op t hs hG h ht
    exact hG ((total_step h hs).mp ht)

/-- Moving 5 from account 1 to itself leaves it with `-5`. -/
theorem not_always_total_self : ¬ Always step (fun self => self.total = 0) start
    [(.move 5 1 1 (0, 1) : Op ℕ)] := by
  intro h
  have hd : step start (.move 5 1 1 (0, 1) : Op ℕ) = some ⟨AList.singleton 1 (-5), 1⟩ := rfl
  exact absurd (h.2 _ hd).head (by decide)

end Database

end DocMachine.Paxos
