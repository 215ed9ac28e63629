import Mathlib.Data.List.ReduceOption
import DocMachine.Lib.Double
import DocMachine.Lib.Except

/-!
# Transfers read from the records of the chain

Model of `get_processed_transactions_for_account`, `get_transaction_details` and
`get_raw_transactions_for_account` (`backend/solana_backend/query.py` 79-163, 166-172, 175-195) and
of `get_transfer_amount_for_transaction` (`solana_backend/api.py` 279-331). Both tell from the token
balances before and after a transaction who sent how much to whom, by the position in the two lists.

* A public key or a signature is the string that `str` prints of it, and the amount of a balance the
  number that `int` reads.
* What the client answers to a query is a parameter; a Python exception is an `Except.error`, and a
  `Response` is what the functions of `api.py` return. A record may lack its parts, as the client's
  types allow.
* The loop that asks for a transaction until it is there is `poll`, over the answers of its rounds.
* A `float` is a rational rounded to 53 bits.
* `Transfer` is a transfer between two token accounts, and `Transfer.record` what the chain records
  of it: the balances of the accounts that exist, sorted by account index.

Results:
* `poll_of_answer`: the loop ends with the first answer that is not empty.
* `accounted_iff`: the transfer of a record is read right iff the recipient's account existed before
  and is listed after the sender's, or did not exist and is listed before it;
  `accounted_recipientFirst` is read backwards.
-/

namespace DocMachine.Stablecoin

open DocMachine.Lib

/-- A public key, as `str` prints it. -/
abbrev PublicKey := String

/-- A signature, as `str` prints it. -/
abbrev Signature := String

/-- `TOKEN_DECIMALS`. -/
def tokenDecimals : ℕ := 9

/-- An entry of the lists of token balances of a transaction. -/
structure TokenBalance where
  accountIndex : ℕ
  mint : PublicKey
  owner : PublicKey
  amount : ℕ
deriving DecidableEq

/-- The fields of the status metadata that are read. -/
structure StatusMeta where
  preTokenBalances : Option (List TokenBalance)
  postTokenBalances : Option (List TokenBalance)

/-- `EncodedTransactionWithStatusMeta`: a transaction on the chain and its metadata. -/
structure ConfirmedTransaction where
  statusMeta : Option StatusMeta

/-- `GetTransactionResp`: `none` while the transaction is not on the chain. -/
abbrev GetTransactionResp := Option ConfirmedTransaction

/-- The exceptions that the backend raises or catches. -/
inductive Exception where
  | blockchainQueryFailed
  | transactionTimeout
  | invalidGetTransactionResp
  | indexError
deriving DecidableEq

/-- `__str__`. -/
def Exception.message : Exception → String
  | .blockchainQueryFailed => "Query sent to the blockchain was unsuccessful."
  | .transactionTimeout => "Transaction timed out."
  | .invalidGetTransactionResp => "Malformed GetTransactionResp object."
  | .indexError => "list index out of range"

/-- `Success` and `Failure`. -/
inductive Response (α : Type) where
  | success (contents : α)
  | failure (exception : Exception)

/-- `balances[i]`. -/
def get (balances : List TokenBalance) (i : ℕ) : Except Exception TokenBalance :=
  match balances[i]? with
  | some balance => .ok balance
  | none => .error .indexError

/-! ## query.py -/

/-- An entry of `processed_transactions`. -/
structure ProcessedTransaction where
  signature : Signature
  sender : PublicKey
  recipient : PublicKey
  amount : ℤ
deriving DecidableEq

/-- Sender, recipient and amount in `get_processed_transactions_for_account`. -/
def readTransfer (signature : Signature) (preTokenBalances postTokenBalances : List TokenBalance) :
    Except Exception ProcessedTransaction := do
  if (← get preTokenBalances 0).accountIndex = (← get postTokenBalances 0).accountIndex ∧
      preTokenBalances.length = 2 then
    let sender := (← get postTokenBalances 0).owner
    let recipient := (← get postTokenBalances 1).owner
    let amount : ℤ := (← get preTokenBalances 0).amount - (← get postTokenBalances 0).amount
    return ⟨signature, sender, recipient, amount⟩
  else
    let sender := (← get preTokenBalances 0).owner
    let recipient := (← get postTokenBalances 0).owner
    let amount : ℤ := (← get preTokenBalances 0).amount - (← get postTokenBalances 1).amount
    return ⟨signature, sender, recipient, amount⟩

/-- The body of the loop over the confirmed transactions; `none` is a `continue`. -/
def processTransaction (mintAccount : PublicKey) (signature : Signature)
    (confirmedTransaction : ConfirmedTransaction) :
    Except Exception (Option ProcessedTransaction) :=
  match confirmedTransaction.statusMeta with
  | none => .ok none
  | some ⟨some preTokenBalances, some postTokenBalances⟩ =>
    if postTokenBalances.length ≠ 2 then .ok none
    else if (preTokenBalances ++ postTokenBalances).any (·.mint ≠ mintAccount) then .ok none
    else (readTransfer signature preTokenBalances postTokenBalances).map some
  | some _ => .ok none

/-- `get_processed_transactions_for_account`, from the signatures that
`get_raw_transactions_for_account` returned on. -/
def getProcessedTransactionsForAccount (mintAccount : PublicKey)
    (details : Signature → Except Exception GetTransactionResp) (signatures : List Signature) :
    Except Exception (List ProcessedTransaction) := do
  let transactions ← signatures.mapM fun signature => do return (signature, ← details signature)
  let confirmedTransactions := transactions.filterMap fun transaction =>
    transaction.2.map fun value => (transaction.1, value)
  let processedTransactions ← confirmedTransactions.mapM fun transaction =>
    processTransaction mintAccount transaction.1 transaction.2
  return processedTransactions.reduceOption

/-! ## api.py -/

/-- `BLOCKCHAIN_RESPONSE_TIMEOUT`. -/
def blockchainResponseTimeout : ℕ := 30

/-- The loop of `get_transfer_amount_for_transaction` with `left` rounds left. Round `counter` gets
the answer `details counter`. -/
def poll (details : ℕ → Except Exception GetTransactionResp) :
    ℕ → ℕ → Except Exception GetTransactionResp
  | 0, _ => .ok none
  | left + 1, counter => do
    match ← details counter with
    | none => poll details left (counter + 1)
    | some transaction => return some transaction

/-- The amount in `get_transfer_amount_for_transaction`. -/
def readAmount (preTokenBalances postTokenBalances : List TokenBalance) : Except Exception ℤ := do
  if (← get preTokenBalances 0).accountIndex = (← get postTokenBalances 0).accountIndex ∧
      preTokenBalances.length = 2 then
    return (← get preTokenBalances 0).amount - (← get postTokenBalances 0).amount
  else
    return (← get preTokenBalances 0).amount - (← get postTokenBalances 1).amount

/-- `amount / 10**TOKEN_DECIMALS`. -/
def inTokens (amount : ℤ) : ℚ := Double.round 53 (amount / 10 ^ tokenDecimals)

/-- `get_transfer_amount_for_transaction`. The mint of the balances is not looked at. -/
def getTransferAmountForTransaction (details : ℕ → Except Exception GetTransactionResp) :
    Except Exception (Response ℚ) :=
  match poll details blockchainResponseTimeout 0 with
  | .error .blockchainQueryFailed => .ok (.failure .blockchainQueryFailed)
  | .error exception => .error exception
  | .ok none => .ok (.failure .transactionTimeout)
  | .ok (some confirmedTransaction) =>
    match confirmedTransaction.statusMeta with
    | some ⟨some preTokenBalances, some postTokenBalances⟩ =>
      if postTokenBalances.length ≠ 2 then .ok (.failure .invalidGetTransactionResp)
      else (readAmount preTokenBalances postTokenBalances).map fun amount =>
        .success (inTokens amount)
    | _ => .ok (.failure .invalidGetTransactionResp)

/-! ## What a history holds -/

variable {mintAccount : PublicKey} {signature : Signature}

theorem mem_history {details : Signature → Except Exception GetTransactionResp}
    {signatures : List Signature} {history : List ProcessedTransaction}
    (h : getProcessedTransactionsForAccount mintAccount details signatures = .ok history)
    (p : ProcessedTransaction) :
    p ∈ history ↔ ∃ signature ∈ signatures, ∃ transaction,
      details signature = .ok (some transaction) ∧
        processTransaction mintAccount signature transaction = .ok (some p) := by
  obtain ⟨transactions, htransactions, h⟩ := Except.bind_eq_ok.mp h
  obtain ⟨processed, hprocessed, h⟩ := Except.bind_eq_ok.mp h
  cases h
  have hdetails : ∀ signature resp, (signature, resp) ∈ transactions ↔
      signature ∈ signatures ∧ details signature = .ok resp := by
    intro signature resp
    rw [Except.mem_of_mapM_eq_ok htransactions]
    simp [Except.bind_eq_ok, pure, Except.pure]
  simp only [List.reduceOption_mem_iff, Except.mem_of_mapM_eq_ok hprocessed, List.mem_filterMap,
    Option.map_eq_some_iff, Prod.exists, hdetails]
  constructor
  · rintro ⟨signature, transaction, ⟨_, _, ⟨hmem, hresp⟩, value, rfl, rfl, rfl⟩, hp⟩
    exact ⟨signature, hmem, transaction, hresp, hp⟩
  · rintro ⟨signature, hmem, transaction, hresp, hp⟩
    exact ⟨signature, transaction, ⟨_, _, ⟨hmem, hresp⟩, transaction, rfl, rfl⟩, hp⟩

theorem readTransfer_signature {preTokenBalances postTokenBalances : List TokenBalance}
    {p : ProcessedTransaction}
    (h : readTransfer signature preTokenBalances postTokenBalances = .ok p) :
    p.signature = signature := by
  unfold readTransfer at h
  obtain ⟨_, -, h⟩ := Except.bind_eq_ok.mp h
  obtain ⟨_, -, h⟩ := Except.bind_eq_ok.mp h
  split at h
  · obtain ⟨_, -, h⟩ := Except.bind_eq_ok.mp h
    obtain ⟨_, -, h⟩ := Except.bind_eq_ok.mp h
    obtain ⟨_, -, h⟩ := Except.bind_eq_ok.mp h
    obtain ⟨_, -, h⟩ := Except.bind_eq_ok.mp h
    cases h
    rfl
  · obtain ⟨_, -, h⟩ := Except.bind_eq_ok.mp h
    obtain ⟨_, -, h⟩ := Except.bind_eq_ok.mp h
    obtain ⟨_, -, h⟩ := Except.bind_eq_ok.mp h
    obtain ⟨_, -, h⟩ := Except.bind_eq_ok.mp h
    cases h
    rfl

theorem processTransaction_signature {transaction : ConfirmedTransaction}
    {p : ProcessedTransaction}
    (h : processTransaction mintAccount signature transaction = .ok (some p)) :
    p.signature = signature := by
  unfold processTransaction at h
  split at h
  · cases h
  · split_ifs at h
    · cases h
    · cases h
    obtain ⟨q, hq, hp⟩ := Except.map_eq_ok.mp h
    cases hp
    exact readTransfer_signature hq
  · cases h

/-- The loop ends with the first answer that is not empty. -/
theorem poll_of_answer {details : ℕ → Except Exception GetTransactionResp}
    {transaction : ConfirmedTransaction} {left counter n : ℕ} (hn : n < left)
    (hempty : ∀ k < n, details (counter + k) = .ok none)
    (hanswer : details (counter + n) = .ok (some transaction)) :
    poll details left counter = .ok (some transaction) := by
  induction left generalizing counter n with
  | zero => omega
  | succ left ih =>
    unfold poll
    cases n with
    | zero =>
      rw [Nat.add_zero] at hanswer
      rw [hanswer]
      rfl
    | succ n =>
      rw [show details counter = .ok none from hempty 0 (by omega)]
      refine ih (n := n) (by omega) (fun k hk => ?_) ?_
      · rw [Nat.add_assoc, Nat.add_comm 1]
        exact hempty (k + 1) (by omega)
      · rw [Nat.add_assoc, Nat.add_comm 1]
        exact hanswer

/-! ## Records of one transfer -/

/-- One transfer between two token accounts. `recipientPre` is what the recipient's account held
before, `none` if the transfer creates it. -/
structure Transfer where
  sender : PublicKey
  recipient : PublicKey
  senderIndex : ℕ
  recipientIndex : ℕ
  senderPre : ℕ
  recipientPre : Option ℕ
  amount : ℕ
  distinct : senderIndex ≠ recipientIndex
  positive : 0 < amount
  covered : amount ≤ senderPre

namespace Transfer

variable (t : Transfer) (mintAccount : PublicKey)

/-- The sender's account is listed before the recipient's. -/
def senderFirst : Bool := t.senderIndex < t.recipientIndex

/-- The balances of the two accounts, sorted by account index. -/
def sorted (senderAmount recipientAmount : ℕ) : List TokenBalance :=
  let sender := ⟨t.senderIndex, mintAccount, t.sender, senderAmount⟩
  let recipient := ⟨t.recipientIndex, mintAccount, t.recipient, recipientAmount⟩
  if t.senderFirst then [sender, recipient] else [recipient, sender]

/-- The balances before; an account that does not exist has none. -/
def pre : List TokenBalance :=
  match t.recipientPre with
  | none => [⟨t.senderIndex, mintAccount, t.sender, t.senderPre⟩]
  | some recipientPre => t.sorted mintAccount t.senderPre recipientPre

/-- The balances after. -/
def post : List TokenBalance :=
  t.sorted mintAccount (t.senderPre - t.amount) (t.recipientPre.getD 0 + t.amount)

/-- The record of the transfer on the chain. -/
def record : ConfirmedTransaction :=
  ⟨some ⟨some (t.pre mintAccount), some (t.post mintAccount)⟩⟩

/-- **What the two functions should read in the record.** -/
structure Accounted : Prop where
  /-- Once the record is on the chain, within the rounds of the loop. -/
  amount : ∀ details n, n < blockchainResponseTimeout → (∀ k < n, details k = .ok none) →
    details n = .ok (some (t.record mintAccount)) →
      getTransferAmountForTransaction details = .ok (.success (inTokens t.amount))
  /-- In a history of this transaction alone. -/
  alone : ∀ details signature, details signature = .ok (some (t.record mintAccount)) →
    getProcessedTransactionsForAccount mintAccount details [signature] =
      .ok [⟨signature, t.sender, t.recipient, t.amount⟩]
  /-- In every history with this transaction, as long as no other one raises. -/
  processed : ∀ details signatures signature, signature ∈ signatures →
    details signature = .ok (some (t.record mintAccount)) →
      ∀ history,
        getProcessedTransactionsForAccount mintAccount details signatures = .ok history →
          ∀ p, p ∈ history ∧ p.signature = signature ↔
            p = ⟨signature, t.sender, t.recipient, t.amount⟩

/-- The records that are read right. The third case is a coincidence: the transfer goes to a new
account of the sender that is listed after the old one, and takes half of what is there. -/
def Readable : Prop :=
  (t.recipientPre.isSome ∧ t.senderFirst) ∨ (t.recipientPre = none ∧ t.senderFirst = false) ∨
    (t.recipientPre = none ∧ t.senderFirst ∧ t.sender = t.recipient ∧ t.senderPre = 2 * t.amount)

instance : Decidable t.Readable := inferInstanceAs (Decidable (_ ∨ _ ∨ _))

/-- What is read in the record, in each of its four forms. -/
def reading (signature : Signature) : ProcessedTransaction :=
  match t.recipientPre.isSome, t.senderFirst with
  | true, true => ⟨signature, t.sender, t.recipient, t.amount⟩
  | true, false => ⟨signature, t.recipient, t.sender, -t.amount⟩
  | false, true => ⟨signature, t.sender, t.sender, t.senderPre - t.amount⟩
  | false, false => ⟨signature, t.sender, t.recipient, t.amount⟩

/-! ## What is read -/

variable {t}

theorem readTransfer_record (signature : Signature) :
    readTransfer signature (t.pre mintAccount) (t.post mintAccount) =
      .ok (t.reading signature) := by
  have hdistinct := t.distinct
  have hcovered := t.covered
  unfold pre post sorted reading
  cases t.recipientPre <;> cases t.senderFirst <;>
    simp [readTransfer, get, hdistinct, hcovered, bind, Except.bind, pure, Except.pure]

theorem readAmount_record (signature : Signature) :
    readAmount (t.pre mintAccount) (t.post mintAccount) = .ok (t.reading signature).amount := by
  have hdistinct := t.distinct
  have hcovered := t.covered
  unfold pre post sorted reading
  cases t.recipientPre <;> cases t.senderFirst <;>
    simp [readAmount, get, hdistinct, hcovered, bind, Except.bind, pure, Except.pure]

theorem mints_record : ((t.pre mintAccount ++ t.post mintAccount).any (·.mint ≠ mintAccount)) =
    false := by
  unfold pre post sorted
  cases t.recipientPre <;> cases t.senderFirst <;> simp

theorem length_post : (t.post mintAccount).length = 2 := by
  unfold post sorted
  cases t.senderFirst <;> rfl

theorem processTransaction_record (signature : Signature) :
    processTransaction mintAccount signature (t.record mintAccount) =
      .ok (some (t.reading signature)) := by
  simp only [processTransaction, record, length_post, mints_record, readTransfer_record]
  rfl

theorem reading_iff (signature : Signature) :
    t.reading signature = ⟨signature, t.sender, t.recipient, t.amount⟩ ↔ t.Readable := by
  have hpositive := t.positive
  unfold reading Readable
  cases t.recipientPre <;> cases t.senderFirst <;> simp <;> omega

/-! ## The two functions -/

theorem history_alone {details : Signature → Except Exception GetTransactionResp}
    {signature : Signature} (hdetails : details signature = .ok (some (t.record mintAccount))) :
    getProcessedTransactionsForAccount mintAccount details [signature] =
      .ok [t.reading signature] := by
  simp only [getProcessedTransactionsForAccount, List.mapM_cons, List.mapM_nil, hdetails, bind,
    Except.bind, pure, Except.pure, List.filterMap_cons, List.filterMap_nil, Option.map_some,
    processTransaction_record]
  rfl

theorem readable_of_accounted (h : t.Accounted mintAccount) : t.Readable := by
  have halone := h.alone (fun _ => .ok (some (t.record mintAccount))) "" rfl
  rw [history_alone mintAccount rfl] at halone
  simp only [Except.ok.injEq, List.cons.injEq, and_true] at halone
  exact (t.reading_iff "").mp halone

theorem getTransferAmountForTransaction_record (h : t.Readable)
    {details : ℕ → Except Exception GetTransactionResp}
    (hpoll : poll details blockchainResponseTimeout 0 = .ok (some (t.record mintAccount))) :
    getTransferAmountForTransaction details = .ok (.success (inTokens t.amount)) := by
  have hamount : (t.reading "").amount = t.amount := by
    rw [(t.reading_iff "").mpr h]
  simp only [getTransferAmountForTransaction, hpoll, record, length_post,
    t.readAmount_record mintAccount "", hamount]
  rfl

theorem accounted_of_readable (h : t.Readable) : t.Accounted mintAccount := by
  refine ⟨?_, ?_, ?_⟩
  · intro details n hn hempty hanswer
    have hpoll : poll details blockchainResponseTimeout 0 = .ok (some (t.record mintAccount)) := by
      refine poll_of_answer hn ?_ ?_ <;> simpa using by assumption
    exact getTransferAmountForTransaction_record mintAccount h hpoll
  · intro details signature hdetails
    rw [history_alone mintAccount hdetails, (t.reading_iff signature).mpr h]
  · intro details signatures signature hmem hdetails history hhistory p
    rw [mem_history hhistory]
    constructor
    · rintro ⟨⟨signature', -, transaction, hresp, hp⟩, rfl⟩
      rw [processTransaction_signature hp] at hdetails
      rw [hdetails] at hresp
      cases hresp
      rw [processTransaction_record] at hp
      cases hp
      rw [(t.reading_iff signature').mpr h]
    · rintro rfl
      refine ⟨⟨signature, hmem, _, hdetails, ?_⟩, rfl⟩
      rw [processTransaction_record, (t.reading_iff _).mpr h]

/-- **Transfer accounting.** -/
theorem accounted_iff (t : Transfer) (mintAccount : PublicKey) :
    t.Accounted mintAccount ↔ t.Readable := by
  constructor
  · exact readable_of_accounted mintAccount
  · exact accounted_of_readable mintAccount

/-- The recipient's account existed and is listed first: the transfer is read backwards. -/
theorem accounted_recipientFirst :
    ¬ Accounted ⟨"sender", "recipient", 2, 1, 5, some 0, 3, by decide, by decide, by decide⟩
      "mint" := by
  intro h
  exact absurd (readable_of_accounted "mint" h) (by decide)

end Transfer

end DocMachine.Stablecoin
