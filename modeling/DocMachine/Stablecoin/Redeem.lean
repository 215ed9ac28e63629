import Mathlib.Algebra.BigOperators.Ring.Finset
import Mathlib.Algebra.Order.BigOperators.Group.List
import DocMachine.Lib.Run
import DocMachine.Stablecoin.Transactions

/-!
# Redeeming tokens

Model of `complete_redeem` (`backend/main.py` 270-310) with `send_transaction_from_bytes`
(`solana_backend/api.py` 64-66), `initiate_transfer` (`paystack_api.py` 132-153) and
`create_redeem_transaction` (`database_api.py` 201-223).

* A `World` is the chain, the table of redeems and what Paystack has paid out. The chain executes a
  transaction when it is sent for the first time and answers every send with its signature.
* The endpoint sends the transaction, reads the amount with `get_transfer_amount_for_transaction`,
  pays it out, and only then writes a row whose signature must be new. It checks neither who sent
  the tokens nor to whom.
* What the client and Paystack answer in a request is a parameter (`Answers`). Amounts are floats on
  their way to cents.
* Other transactions may reach the chain at any time (`transact`). Requests do not overlap: no
  coroutine of the endpoint ever waits. Dates and generated row numbers are left out.
* `Proper` is what is asked of a request of which the amount is read: it is for one transfer from
  the user's own wallet to the owner of the tokens, whose record is read right, and which was not
  paid for before. Nothing in the code checks any of this.

Results:
* `floorsToCents_of_le`: up to four million tokens the roundings never reach the next cent.
* `found_of_success`: an amount is read in a record that one of the rounds found.
* `Proper.backed_pay` and `completeRedeem_backed`: a payment for such a request is covered, and only
  a request that gets through to the end pays.
* `redeem_sound`: in a run of proper requests nobody is paid more than they sent and no transaction
  is paid for twice; `redeem_replayed` sends one request twice.
-/

namespace DocMachine.Stablecoin

open DocMachine.Lib

/-! ## The world -/

/-- The columns of `User` that are read. -/
structure User where
  id : ℕ
  walletId : PublicKey
  recipientCode : String

/-- A row of the table `redeem`. -/
structure Redeem where
  userId : ℕ
  bankTransactionId : String
  blockchainTransactionId : Signature
  amount : ℚ

/-- Tokens that change hands. -/
structure Move where
  sender : PublicKey
  recipient : PublicKey
  mint : PublicKey
  amount : ℕ

/-- What a transaction does on the chain and what is recorded of it. -/
structure Execution where
  moves : List Move
  record : ConfirmedTransaction

/-- A transfer made by Paystack, with the user and the signature it was made for. -/
structure Payout where
  email : String
  recipientCode : String
  cents : ℤ
  signature : Signature

/-- The chain, the table of redeems and the payouts. -/
structure World where
  chain : List (Signature × Execution)
  redeems : List Redeem
  payouts : List Payout

/-- What the outside world answers during one request. -/
structure Answers where
  /-- What the transaction does if it is new; `none` if `send_raw_transaction` raises. -/
  execution : Option Execution
  /-- Whether a query finds the transaction. -/
  found : ℕ → Except Exception Bool
  /-- The reference of the transfer; `none` if Paystack does not make it. -/
  reference : Option String

/-- What the endpoint returns; `raised` is an exception that nothing catches. -/
inductive Reply where
  | unauthorized
  | raised
  | failure (exception : Exception)
  | refused
  | success (amount : ℚ)

namespace World

/-- A transaction reaches the chain. -/
def execute (w : World) (signature : Signature) (execution : Execution) : World :=
  if (w.chain.lookup signature).isSome then w
  else { w with chain := (signature, execution) :: w.chain }

/-- The answers to `get_transaction_details`. -/
def details (w : World) (found : ℕ → Except Exception Bool) (signature : Signature) (n : ℕ) :
    Except Exception GetTransactionResp :=
  (found n).map fun isFound =>
    if isFound then (w.chain.lookup signature).map Execution.record else none

/-- Paystack transfers the cents. -/
def pay (w : World) (payout : Payout) : World := { w with payouts := payout :: w.payouts }

/-- `create_redeem_transaction`; `none` if a unique column has the value already. -/
def createRedeemTransaction (w : World) (row : Redeem) : Option World :=
  if w.redeems.any fun other => other.bankTransactionId = row.bankTransactionId ||
      other.blockchainTransactionId = row.blockchainTransactionId then none
  else some { w with redeems := row :: w.redeems }

end World

/-- `bytes(transaction.transaction_bytes)`. -/
def toBytes (transactionBytes : List ℤ) : Option (List (BitVec 8)) :=
  if transactionBytes.all fun byte => 0 ≤ byte ∧ byte < 256 then
    some (transactionBytes.map (BitVec.ofInt 8))
  else none

/-- `int(amount * 100)` in `initiate_transfer`. -/
def inCents (amount : ℚ) : ℤ := Double.truncate (Double.round 53 (amount * 100))

section Endpoint

variable (users : String → Option User) (signatureOf : List (BitVec 8) → Signature)

/-- `complete_redeem`. -/
def completeRedeem (loggedInEmail : Option String) (transactionBytes : List ℤ) (answers : Answers)
    (w : World) : World × Reply :=
  match loggedInEmail with
  | none => (w, .unauthorized)
  | some email =>
    match toBytes transactionBytes, answers.execution with
    | some bytes, some execution =>
      let signature := signatureOf bytes
      let w := w.execute signature execution
      match getTransferAmountForTransaction (w.details answers.found signature) with
      | .error _ => (w, .raised)
      | .ok (.failure exception) => (w, .failure exception)
      | .ok (.success amount) =>
        -- without a user, `redeemer.recipient_code` raises
        match users email, answers.reference with
        | none, _ => (w, .raised)
        | some _, none => (w, .refused)
        | some redeemer, some reference =>
          let w := w.pay ⟨email, redeemer.recipientCode, inCents amount, signature⟩
          match w.createRedeemTransaction ⟨redeemer.id, reference, signature, amount⟩ with
          | none => (w, .raised)
          | some w => (w, .success amount)
    | _, _ => (w, .raised)

/-- What may happen. -/
inductive Event where
  | completeRedeem (loggedInEmail : Option String) (transactionBytes : List ℤ) (answers : Answers)
  /-- A transaction is sent by somebody else. -/
  | transact (signature : Signature) (execution : Execution)

/-- A request runs to its end, or a transaction is sent. -/
def step (w : World) : Event → Option World
  | .completeRedeem loggedInEmail transactionBytes answers =>
    some (completeRedeem users signatureOf loggedInEmail transactionBytes answers w).1
  | .transact signature execution => some (w.execute signature execution)

end Endpoint

/-! ## Paid out and sent in -/

/-- The tokens that go from a wallet to the owner of the tokens. -/
def Execution.moved (e : Execution) (mintAccount tokenOwner wallet : PublicKey) : ℕ :=
  ((e.moves.filter fun move =>
    move.sender = wallet ∧ move.recipient = tokenOwner ∧ move.mint = mintAccount).map
      Move.amount).sum

namespace World

/-- The tokens that went from a wallet to the owner of the tokens. -/
def moved (w : World) (mintAccount tokenOwner wallet : PublicKey) : ℕ :=
  (w.chain.map fun entry => entry.2.moved mintAccount tokenOwner wallet).sum

/-- The cents that were paid to a user. -/
def paidOut (w : World) (email : String) : ℤ :=
  ((w.payouts.filter fun payout => payout.email = email).map Payout.cents).sum

/-- The transactions that were paid for. -/
def paidFor (w : World) : List Signature := w.payouts.map Payout.signature

/-- **Only what was received, and once.** -/
structure Sound (users : String → Option User) (mintAccount tokenOwner : PublicKey) (w : World) :
    Prop where
  /-- In Rands and in tokens. -/
  covered : ∀ email user, users email = some user →
    (w.paidOut email : ℚ) / 100 ≤
      w.moved mintAccount tokenOwner user.walletId / 10 ^ tokenDecimals
  once : w.paidFor.Nodup

end World

/-- What happens on the chain when the transfer is made. -/
def Transfer.execution (t : Transfer) (mintAccount : PublicKey) : Execution where
  moves := [⟨t.sender, t.recipient, mintAccount, t.amount⟩]
  record := t.record mintAccount

/-- The two roundings on the way to cents do not exceed the amount. -/
def FloorsToCents (amount : ℕ) : Prop :=
  (inCents (inTokens amount) : ℚ) / 100 ≤ amount / 10 ^ tokenDecimals

/-- What the endpoint relies on: if it gets as far as a payment, which takes a user, a successful
reading of the record and an answer of Paystack, then the transaction is a transfer from the user's
own wallet to the owner of the tokens that is read right and was not paid for before. -/
def Proper (users : String → Option User) (signatureOf : List (BitVec 8) → Signature)
    (mintAccount tokenOwner : PublicKey) (w : World) : Event → Prop
  | .completeRedeem loggedInEmail transactionBytes answers =>
    ∀ email user bytes execution reference amount, loggedInEmail = some email →
      users email = some user → toBytes transactionBytes = some bytes →
      answers.execution = some execution → answers.reference = some reference →
      getTransferAmountForTransaction ((w.execute (signatureOf bytes) execution).details
        answers.found (signatureOf bytes)) = .ok (.success amount) →
        signatureOf bytes ∉ w.paidFor ∧ ∃ t : Transfer,
          (w.execute (signatureOf bytes) execution).chain.lookup (signatureOf bytes) =
            some (t.execution mintAccount) ∧
          t.sender = user.walletId ∧ t.recipient = tokenOwner ∧ t.Readable ∧
          FloorsToCents t.amount
  | .transact _ _ => True

/-! ## Cents -/

/-- Up to four million tokens the roundings never reach the next cent. -/
theorem floorsToCents_of_le {amount : ℕ} (h : amount ≤ 4 * 10 ^ 15) : FloorsToCents amount := by
  have hdecimals : tokenDecimals = 9 := rfl
  have hamount : (amount : ℚ) ≤ 4 * 10 ^ 15 := by exact_mod_cast h
  have hnonneg : (0 : ℚ) ≤ amount / 10 ^ 9 := by positivity
  have htokens : inTokens amount ≤ amount / 10 ^ 9 * (1 + 1 / 2 ^ 53) := by
    simpa [inTokens, hdecimals] using Double.round_le hnonneg 53
  have htokens' : 0 ≤ inTokens amount := by
    simpa [inTokens, hdecimals] using Double.round_nonneg hnonneg 53
  have hcents : Double.round 53 (inTokens amount * 100) ≤
      amount / 10 ^ 9 * (1 + 1 / 2 ^ 53) * 100 * (1 + 1 / 2 ^ 53) :=
    (Double.round_le (by positivity) 53).trans (by gcongr)
  -- the next cent is further away than the two roundings go
  have hnext : (amount : ℚ) + 1 ≤ ((amount / 10 ^ 7 : ℕ) + 1 : ℤ) * 10 ^ 7 := by
    have hdiv : amount + 1 ≤ (amount / 10 ^ 7 + 1) * 10 ^ 7 := by omega
    exact_mod_cast hdiv
  have hlt : inCents (inTokens amount) < (amount / 10 ^ 7 : ℕ) + 1 := by
    refine Double.truncate_lt (Double.round_nonneg (by positivity) 53) ?_
    linarith
  have hle : inCents (inTokens amount) * 10 ^ 7 ≤ amount := by omega
  have hleℚ : (inCents (inTokens amount) : ℚ) * 10 ^ 7 ≤ amount := by exact_mod_cast hle
  unfold FloorsToCents
  rw [hdecimals]
  linarith

/-! ## Payments and what backs them -/

/-- Values found under different keys add up to no more than all values. -/
theorem sum_lookup_le {K V : Type} [DecidableEq K] (f : V → ℕ) (entries : List (K × V)) :
    ∀ keys : List K, keys.Nodup →
      (keys.map fun key => ((entries.lookup key).map f).getD 0).sum ≤
        (entries.map fun entry => f entry.2).sum := by
  induction entries with
  | nil => simp
  | cons entry entries ih =>
    obtain ⟨key₀, value⟩ := entry
    intro keys hkeys
    have hother : ∀ keys : List K, key₀ ∉ keys →
        (keys.map fun key => ((((key₀, value) :: entries).lookup key).map f).getD 0) =
          keys.map fun key => ((entries.lookup key).map f).getD 0 := by
      intro keys hnot
      refine List.map_congr_left fun key hkey => ?_
      have hne : key ≠ key₀ := fun heq => hnot (heq ▸ hkey)
      rw [List.lookup_cons, beq_false_of_ne hne]
    by_cases hmem : key₀ ∈ keys
    · have herase := ih (keys.erase key₀) (hkeys.erase key₀)
      rw [((List.perm_cons_erase hmem).map _).sum_eq, List.map_cons, List.sum_cons,
        hother _ hkeys.not_mem_erase, List.lookup_cons, beq_self_eq_true]
      simpa using herase
    · rw [hother keys hmem]
      simpa using (ih keys hkeys).trans (Nat.le_add_left _ _)

namespace World

variable {users : String → Option User} {signatureOf : List (BitVec 8) → Signature}
  {mintAccount tokenOwner : PublicKey} {w : World}

@[simp] theorem execute_payouts (signature : Signature) (execution : Execution) :
    (w.execute signature execution).payouts = w.payouts := by
  unfold execute
  split <;> rfl

@[simp] theorem pay_chain (payout : Payout) : (w.pay payout).chain = w.chain := rfl

@[simp] theorem pay_payouts (payout : Payout) : (w.pay payout).payouts = payout :: w.payouts := rfl

theorem createRedeemTransaction_frame {row : Redeem} {w' : World}
    (h : w.createRedeemTransaction row = some w') :
    w'.chain = w.chain ∧ w'.payouts = w.payouts := by
  unfold createRedeemTransaction at h
  split at h
  · cases h
  · cases h
    exact ⟨rfl, rfl⟩

/-- The chain keeps what it has executed. -/
theorem lookup_execute {signature other : Signature} {execution e : Execution}
    (h : w.chain.lookup other = some e) :
    (w.execute signature execution).chain.lookup other = some e := by
  unfold execute
  by_cases hnew : (w.chain.lookup signature).isSome
  · rw [if_pos hnew]
    exact h
  · have hne : other ≠ signature := by
      rintro rfl
      exact hnew (Option.isSome_of_eq_some h)
    rw [if_neg hnew, List.lookup_cons, beq_false_of_ne hne]
    exact h

/-- Every payment was made for a transaction of the chain that moved as much, and no other payment
was made for it. -/
structure Backed (users : String → Option User) (mintAccount tokenOwner : PublicKey) (w : World) :
    Prop where
  backing : ∀ payout ∈ w.payouts, ∀ user, users payout.email = some user →
    ∃ e, w.chain.lookup payout.signature = some e ∧
      (payout.cents : ℚ) / 100 ≤ e.moved mintAccount tokenOwner user.walletId / 10 ^ tokenDecimals
  once : w.paidFor.Nodup

theorem Backed.sound (h : w.Backed users mintAccount tokenOwner) :
    w.Sound users mintAccount tokenOwner := by
  refine ⟨?_, h.once⟩
  intro email user huser
  have hdecimals : tokenDecimals = 9 := rfl
  let moved : Execution → ℕ := fun e => e.moved mintAccount tokenOwner user.walletId
  let value : Signature → ℕ := fun signature => ((w.chain.lookup signature).map moved).getD 0
  let payments := w.payouts.filter fun payout => payout.email = email
  have hpayment : ∀ payout ∈ payments, payout.cents * 10 ^ 7 ≤ value payout.signature := by
    intro payout hpayout
    obtain ⟨hmem, hemail⟩ := List.mem_filter.mp hpayout
    rw [decide_eq_true_eq] at hemail
    obtain ⟨e, he, hcents⟩ := h.backing payout hmem user (hemail ▸ huser)
    have hvalue : value payout.signature = moved e := by simp only [value, he]; rfl
    have hcents' : (payout.cents : ℚ) * 10 ^ 7 ≤ moved e := by
      rw [hdecimals] at hcents
      linarith
    rw [hvalue]
    exact_mod_cast hcents'
  have honce : (payments.map Payout.signature).Nodup :=
    h.once.sublist (List.filter_sublist.map Payout.signature)
  have hchain : ((payments.map Payout.signature).map value).sum ≤
      w.moved mintAccount tokenOwner user.walletId := sum_lookup_le moved w.chain _ honce
  have hpaid : w.paidOut email * 10 ^ 7 ≤ w.moved mintAccount tokenOwner user.walletId := by
    calc w.paidOut email * 10 ^ 7
        = (payments.map fun payout => payout.cents * 10 ^ 7).sum := by
          rw [List.sum_map_mul_right, paidOut]
      _ ≤ (payments.map fun payout => (value payout.signature : ℤ)).sum :=
          List.sum_le_sum hpayment
      _ = (((payments.map Payout.signature).map value).sum : ℕ) := by
          rw [Nat.cast_list_sum, List.map_map, List.map_map]
          rfl
      _ ≤ w.moved mintAccount tokenOwner user.walletId := by exact_mod_cast hchain
  have hpaidℚ : (w.paidOut email : ℚ) * 10 ^ 7 ≤ w.moved mintAccount tokenOwner user.walletId := by
    exact_mod_cast hpaid
  rw [hdecimals]
  linarith

theorem Backed.execute (h : w.Backed users mintAccount tokenOwner) (signature : Signature)
    (execution : Execution) :
    (w.execute signature execution).Backed users mintAccount tokenOwner := by
  refine ⟨?_, by simpa [paidFor] using h.once⟩
  intro payout hpayout user huser
  rw [execute_payouts] at hpayout
  obtain ⟨e, he, hcents⟩ := h.backing payout hpayout user huser
  exact ⟨e, lookup_execute he, hcents⟩

/-- A payment for a transaction of the chain that was not paid for before. -/
theorem Backed.pay (h : w.Backed users mintAccount tokenOwner) {payout : Payout}
    (hnew : payout.signature ∉ w.paidFor)
    (hbacking : ∀ user, users payout.email = some user →
      ∃ e, w.chain.lookup payout.signature = some e ∧ (payout.cents : ℚ) / 100 ≤
        e.moved mintAccount tokenOwner user.walletId / 10 ^ tokenDecimals) :
    (w.pay payout).Backed users mintAccount tokenOwner := by
  constructor
  · intro other hother
    rw [pay_payouts, List.mem_cons] at hother
    obtain rfl | hold := hother
    · exact hbacking
    · exact h.backing other hold
  · exact List.nodup_cons.mpr ⟨hnew, h.once⟩

theorem Backed.createRedeemTransaction (h : w.Backed users mintAccount tokenOwner) {row : Redeem}
    {w' : World} (hw' : w.createRedeemTransaction row = some w') :
    w'.Backed users mintAccount tokenOwner := by
  obtain ⟨hchain, hpayouts⟩ := createRedeemTransaction_frame hw'
  constructor
  · rw [hpayouts, hchain]
    exact h.backing
  · rw [paidFor, hpayouts]
    exact h.once

end World

theorem Transfer.moved_execution (t : Transfer) {mintAccount tokenOwner wallet : PublicKey}
    (hsender : t.sender = wallet) (hrecipient : t.recipient = tokenOwner) :
    (t.execution mintAccount).moved mintAccount tokenOwner wallet = t.amount := by
  simp [execution, Execution.moved, hsender, hrecipient]

/-! ## One request -/

theorem mem_of_poll {details : ℕ → Except Exception GetTransactionResp}
    {transaction : ConfirmedTransaction} {left counter : ℕ}
    (h : poll details left counter = .ok (some transaction)) :
    ∃ n, details n = .ok (some transaction) := by
  induction left generalizing counter with
  | zero => cases h
  | succ left ih =>
    obtain ⟨resp, hresp, h⟩ := Except.bind_eq_ok.mp h
    cases resp with
    | none => exact ih h
    | some found =>
      cases h
      exact ⟨counter, hresp⟩

/-- A successful answer of `get_transfer_amount_for_transaction` is read in a record that one of
the rounds found. -/
theorem found_of_success {details : ℕ → Except Exception GetTransactionResp} {amount : ℚ}
    (h : getTransferAmountForTransaction details = .ok (.success amount)) :
    ∃ n transaction, details n = .ok (some transaction) ∧
      poll details blockchainResponseTimeout 0 = .ok (some transaction) := by
  unfold getTransferAmountForTransaction at h
  split at h
  · cases h
  · cases h
  · cases h
  · rename_i transaction hpoll
    obtain ⟨n, hanswer⟩ := mem_of_poll hpoll
    exact ⟨n, transaction, hanswer, hpoll⟩

variable {users : String → Option User} {signatureOf : List (BitVec 8) → Signature}
  {mintAccount tokenOwner : PublicKey} {w : World}

/-- The payment for the amount in the record: the record is that of the transfer. -/
theorem Proper.backed_pay {email reference : String} {transactionBytes : List ℤ} {answers : Answers}
    {bytes : List (BitVec 8)} {execution : Execution} {amount : ℚ} {redeemer : User}
    (hproper : Proper users signatureOf mintAccount tokenOwner w
      (.completeRedeem (some email) transactionBytes answers))
    (h : w.Backed users mintAccount tokenOwner) (huser : users email = some redeemer)
    (hbytes : toBytes transactionBytes = some bytes)
    (hexecution : answers.execution = some execution)
    (hreference : answers.reference = some reference)
    (hamount : getTransferAmountForTransaction
      ((w.execute (signatureOf bytes) execution).details answers.found (signatureOf bytes)) =
        .ok (.success amount)) :
    ((w.execute (signatureOf bytes) execution).pay
      ⟨email, redeemer.recipientCode, inCents amount, signatureOf bytes⟩).Backed users mintAccount
        tokenOwner := by
  obtain ⟨n, transaction, hanswer, hpoll⟩ := found_of_success hamount
  obtain ⟨isFound, hfound, htransaction⟩ := Except.map_eq_ok.mp hanswer
  cases isFound with
  | false => cases htransaction
  | true =>
    obtain ⟨hnew, t, hchain, hsender, hrecipient, hreadable, hcents⟩ :=
      hproper email redeemer bytes execution reference amount rfl huser hbytes hexecution hreference
        hamount
    rw [if_pos rfl, hchain] at htransaction
    cases htransaction
    rw [Transfer.getTransferAmountForTransaction_record mintAccount hreadable hpoll] at hamount
    cases hamount
    refine (h.execute _ execution).pay (by simpa [World.paidFor] using hnew) fun user huser' => ?_
    cases huser.symm.trans huser'
    refine ⟨_, hchain, ?_⟩
    rw [t.moved_execution hsender hrecipient]
    exact hcents

/-- The only request that pays got through to the end. -/
theorem completeRedeem_backed {loggedInEmail : Option String} {transactionBytes : List ℤ}
    {answers : Answers} (h : w.Backed users mintAccount tokenOwner)
    (hproper : Proper users signatureOf mintAccount tokenOwner w
      (.completeRedeem loggedInEmail transactionBytes answers)) :
    (completeRedeem users signatureOf loggedInEmail transactionBytes answers w).1.Backed users
      mintAccount tokenOwner := by
  unfold completeRedeem
  split
  · exact h
  · rename_i email
    split
    · rename_i bytes execution hbytes hexecution
      have hexecuted := h.execute (signatureOf bytes) execution
      dsimp only
      split
      · exact hexecuted
      · exact hexecuted
      · rename_i amount hamount
        split
        · exact hexecuted
        · exact hexecuted
        · rename_i redeemer reference huser hreference
          have hpaid := hproper.backed_pay h huser hbytes hexecution hreference hamount
          split
          · exact hpaid
          · rename_i hrow
            exact hpaid.createRedeemTransaction hrow
    · exact h

/-! ## Runs -/

theorem step_backed {w' : World} {event : Event} (h : w.Backed users mintAccount tokenOwner)
    (hproper : Proper users signatureOf mintAccount tokenOwner w event)
    (hstep : step users signatureOf w event = some w') :
    w'.Backed users mintAccount tokenOwner := by
  cases event with
  | completeRedeem loggedInEmail transactionBytes answers =>
    cases hstep
    exact completeRedeem_backed h hproper
  | transact signature execution =>
    cases hstep
    exact h.execute signature execution

/-- **Redeeming.** From a state in which nothing was paid out, whatever is on the chain. -/
theorem redeem_sound (hw : w.payouts = []) {events : List Event}
    (hproper : Run.Along (step users signatureOf)
      (Proper users signatureOf mintAccount tokenOwner) w events) :
    Run.Always (step users signatureOf) (World.Sound users mintAccount tokenOwner) w events := by
  have hbacked : w.Backed users mintAccount tokenOwner := by
    refine ⟨?_, ?_⟩
    · simp [hw]
    · simp [World.paidFor, hw]
  have halways := Run.always_of_along (fun _ _ _ => step_backed) hbacked hproper
  exact halways.mono fun _ => World.Backed.sound

/-! ## A request, and the same request again -/

/-- One user. -/
def alice (email : String) : Option User :=
  if email = "alice" then some ⟨1001, "wallet", "RCP_alice"⟩ else none

/-- One token from the wallet to the owner of the tokens. -/
def oneToken : Transfer :=
  ⟨"wallet", "owner", 1, 2, 10 ^ 9, some 0, 10 ^ 9, by decide, by decide, by decide⟩

/-- The request of that user for one token. -/
def request : Event :=
  .completeRedeem (some "alice") [1] ⟨some (oneToken.execution "mint"),
    fun _ => .ok true, some "TRF"⟩

theorem redeem_oneToken :
    Run.Always (step alice fun _ => "signature") (World.Sound alice "mint" "owner") ⟨[], [], []⟩
      [request] := by
  refine redeem_sound rfl fun w _ => ⟨?_, trivial⟩
  intro email user bytes execution reference amount hemail huser hbytes hexecution _ _
  cases hemail
  cases huser
  cases hexecution
  exact ⟨List.not_mem_nil, oneToken, rfl, rfl, rfl, by decide, floorsToCents_of_le (by decide)⟩

/-- Paid twice for one transaction: the row that must be new is written after the payment. -/
theorem redeem_replayed :
    ¬ Run.Always (step alice fun _ => "signature") (World.Sound alice "mint" "owner") ⟨[], [], []⟩
      [request, request] := by
  intro h
  have honce : ["signature", "signature"].Nodup := ((h.2 _ rfl).2 _ rfl).once
  exact absurd honce (by decide)

end DocMachine.Stablecoin
