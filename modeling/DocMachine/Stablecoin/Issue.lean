import DocMachine.Stablecoin.Redeem

/-!
# Issuing tokens

Model of `issue` (`backend/main.py` 204-229) with `issue_stablecoins` (`solana_backend/api.py`
136-191), `construct_stablecoin_transfer` and `get_associated_token_account`
(`solana_backend/transaction.py` 26-121), and `create_issue_transaction` and
`complete_issue_transaction` (`database_api.py` 159-197).

* The row of a request is written before the tokens are issued, and the signature is put in
  afterwards. `issue` does not look whether the tokens were issued: it passes what the response
  contains to the database, also if that is an exception.
* An `IssueWorld` is the table `issue` with its sequence of identifiers, and the signatures that the
  chain has answered with. A column that is `unique` makes a write fail when another row has the
  value.
* What the client, the library and the driver answer is a parameter (`IssueAnswers`, `adapt`). A
  Python exception that nothing catches is `none` or `raised`; dates are left out. Requests do not
  overlap: no coroutine of the endpoint ever waits.

Results:
* `issue_consistent`: in every run of requests from the empty tables, a request of a known user with
  a new bank transaction writes one row, under an identifier that no other row has, which has a
  signature exactly if `issue_stablecoins` returned `Success` with that signature; no other row is
  touched, and any other request leaves the table as it is. This rests on the driver, which cannot
  bind an exception, and on the chain, which does not answer with an earlier signature.
* `issue_adapted`: with a driver that stores the text of an exception it fails.
* `reply_ne_failure`: a request for which `issue_stablecoins` fails ends in an error of its own, and
  never in the failure that was returned.
-/

namespace DocMachine.Stablecoin

open DocMachine.Lib

/-! ## The types -/

/-- A Python `float`. -/
inductive PyFloat where
  | finite (value : ℚ)
  | infinity (negative : Bool)
  | nan
deriving DecidableEq

namespace PyFloat

/-- `amount < 0`. -/
def isNegative : PyFloat → Bool
  | .finite value => value < 0
  | .infinity negative => negative
  | .nan => false

/-- `int(amount * (10**TOKEN_DECIMALS))`, or the text of what `int` raises. A product of `2 ^ 1024`
or more is infinite. -/
def inUnits : PyFloat → Except String ℤ
  | .finite value =>
    let units := Double.truncate (Double.round 53 (value * 10 ^ tokenDecimals))
    if 1024 ≤ units.natAbs.log2 then .error "cannot convert float infinity to integer"
    else .ok units
  | .infinity _ => .error "cannot convert float infinity to integer"
  | .nan => .error "cannot convert float NaN to integer"

end PyFloat

/-- What `construct_stablecoin_transfer` turns into a `TransactionCreationFailedException`. -/
inductive CreationCause where
  | noTokenAccount (walletAddress : PublicKey)
  | transferChecked (text : String)

/-- The exceptions that a failure of `issue_stablecoins` contains. -/
inductive IssueException where
  | invalidUserInput (message : String)
  | transactionCreationFailed (cause : CreationCause)
  | transactionTimeout

/-- `__str__`. -/
def CreationCause.message : CreationCause → String
  | .noTokenAccount walletAddress => "No token account was found for wallet " ++ walletAddress
  | .transferChecked text => text

/-- `__str__`. -/
def IssueException.message : IssueException → String
  | .invalidUserInput message => message
  | .transactionCreationFailed cause =>
    "Unable to create transaction object because of \n " ++ cause.message
  | .transactionTimeout => Exception.transactionTimeout.message

/-- A `Response` of `issue_stablecoins`. -/
inductive IssueResponse where
  | success (signature : Signature)
  | failure (exception : IssueException)

/-- The values that `contents` may have. -/
inductive Contents where
  | str (text : String)
  | exception (exception : IssueException)

/-- `resp.contents`. -/
def IssueResponse.contents : IssueResponse → Contents
  | .success signature => .str signature
  | .failure exception => .exception exception

/-- The fields of `TransferCheckedParams` that differ. -/
structure TransferChecked where
  source : PublicKey
  dest : PublicKey
  owner : PublicKey
  amount : ℤ

/-- A row of the table `issue`. -/
structure Issue where
  id : ℕ
  userId : ℕ
  bankTransactionId : String
  blockchainTransactionId : Option String
  amount : PyFloat
deriving DecidableEq

/-- The table with its sequence, and the signatures that the chain has answered with. -/
structure IssueWorld where
  issues : List Issue
  nextId : ℕ
  sent : List Signature

/-- What the outside world answers during one request; `none` where the client raises. -/
structure IssueAnswers where
  bankTransactionId : String
  tokenAccounts : Option (List PublicKey)
  /-- Whether the library makes the instruction, or the text of what it raises. -/
  transferChecked : TransferChecked → Except String Unit
  send : TransferChecked → Option Signature
  details : ℕ → Except Exception GetTransactionResp

/-- What the endpoint returns; `raised` is an exception that nothing catches. -/
inductive IssueReply where
  | unauthorized
  | raised
  | response (response : IssueResponse)

/-- A request, with what the outside world answers while it is served. -/
structure IssueRequest where
  loggedInEmail : Option String
  amountInRands : PyFloat
  answers : IssueAnswers

/-! ## transaction.py -/

section Functions

variable (isPublicKey : String → Bool) (tokenOwner reserve : PublicKey)

/-- `get_associated_token_account`; `none` is an exception that `construct_stablecoin_transfer` does
not catch. -/
def getAssociatedTokenAccount (tokenAccounts : Option (List PublicKey)) (publicKey : PublicKey) :
    Except (Option CreationCause) PublicKey :=
  if publicKey = tokenOwner then .ok reserve
  else
    match tokenAccounts with
    | none => .error none
    | some [] => .error (some (.noTokenAccount publicKey))
    | some (account :: _) => .ok account

/-- `construct_stablecoin_transfer`: the two accounts, then the amount, then the instruction. -/
def constructStablecoinTransfer (answers : IssueAnswers) (sender : PublicKey) (amount : PyFloat)
    (recipient : PublicKey) : Except (Option CreationCause) TransferChecked := do
  let source ← getAssociatedTokenAccount tokenOwner reserve answers.tokenAccounts sender
  let dest ← getAssociatedTokenAccount tokenOwner reserve answers.tokenAccounts recipient
  let units ← amount.inUnits.mapError fun text => some (.transferChecked text)
  let transfer : TransferChecked := ⟨source, dest, sender, units⟩
  (answers.transferChecked transfer).mapError fun text => some (.transferChecked text)
  return transfer

/-! ## api.py -/

/-- The loop of `issue_stablecoins` with `left` rounds left, and the query after it. Query `n` gets
the answer `details n`. -/
def awaitTransaction (details : ℕ → Except Exception GetTransactionResp) :
    ℕ → ℕ → Except Exception GetTransactionResp
  | 0, n => do
    let _ ← details n
    details (n + 1)
  | left + 1, n => do
    match ← details n with
    | none => awaitTransaction details left (n + 1)
    | some _ => details (n + 1)

/-- `issue_stablecoins`; `none` if it raises. -/
def issueStablecoins (answers : IssueAnswers) (recipientPublicKey : String) (amount : PyFloat)
    (w : IssueWorld) : IssueWorld × Option IssueResponse :=
  if isPublicKey recipientPublicKey = false then (w, none)
  else if amount.isNegative then
    (w, some (.failure (.invalidUserInput "The amount to issue has to be positive.")))
  else
    match constructStablecoinTransfer tokenOwner reserve answers tokenOwner amount
      recipientPublicKey with
    | .error none => (w, none)
    | .error (some cause) => (w, some (.failure (.transactionCreationFailed cause)))
    | .ok transaction =>
      match answers.send transaction with
      | none => (w, none)
      | some signature =>
        let w := { w with sent := signature :: w.sent }
        match awaitTransaction answers.details blockchainResponseTimeout 0 with
        | .error _ => (w, none)
        | .ok none => (w, some (.failure .transactionTimeout))
        | .ok (some _) => (w, some (.success signature))

/-! ## database_api.py -/

namespace IssueWorld

/-- `create_issue_transaction` for a user that exists; the row is `none` if the bank transaction is
not new. -/
def createIssueTransaction (w : IssueWorld) (userId : ℕ) (bankTransactionId : String)
    (amount : PyFloat) : IssueWorld × Option Issue :=
  let row : Issue := ⟨w.nextId, userId, bankTransactionId, none, amount⟩
  if w.issues.any fun other => other.bankTransactionId = bankTransactionId then
    ({ w with nextId := w.nextId + 1 }, none)
  else ({ w with issues := row :: w.issues, nextId := w.nextId + 1 }, some row)

/-- The `update`. -/
def setBlockchainTransactionId (w : IssueWorld) (issueId : ℕ) (text : String) : IssueWorld :=
  { w with issues := w.issues.map fun row =>
      if row.id = issueId then { row with blockchainTransactionId := some text } else row }

/-- `complete_issue_transaction`; `none` if the driver does not know how to bind the contents, or if
another row has the same identifier. -/
def completeIssueTransaction (adapt : Contents → Option String) (w : IssueWorld) (issueId : ℕ)
    (contents : Contents) : Option IssueWorld :=
  (adapt contents).bind fun text =>
    if w.issues.any fun other => other.id ≠ issueId ∧ other.blockchainTransactionId = some text then
      none
    else some (w.setBlockchainTransactionId issueId text)

end IssueWorld

/-! ## main.py -/

variable (adapt : Contents → Option String) (users : String → Option User)

/-- `issue`. Without a user, `user.id` raises in `create_issue_transaction`. -/
def issue (loggedInEmail : Option String) (amountInRands : PyFloat) (answers : IssueAnswers)
    (w : IssueWorld) : IssueWorld × IssueReply :=
  match loggedInEmail with
  | none => (w, .unauthorized)
  | some email =>
    match users email with
    | none => (w, .raised)
    | some buyer =>
      match w.createIssueTransaction buyer.id answers.bankTransactionId amountInRands with
      | (w, none) => (w, .raised)
      | (w, some row) =>
        match issueStablecoins isPublicKey tokenOwner reserve answers buyer.walletId amountInRands
          w with
        | (w, none) => (w, .raised)
        | (w, some resp) =>
          match w.completeIssueTransaction adapt row.id resp.contents with
          | none => (w, .raised)
          | some w => (w, .response resp)

namespace IssueWorld

/-- The state after a request. -/
def after (w : IssueWorld) (request : IssueRequest) : IssueWorld :=
  (issue isPublicKey tokenOwner reserve adapt users request.loggedInEmail request.amountInRands
    request.answers w).1

/-- One request. -/
def step (w : IssueWorld) (request : IssueRequest) : Option IssueWorld :=
  some (w.after isPublicKey tokenOwner reserve adapt users request)

/-- What `issue_stablecoins` returns for a request by `buyer`, if it is called: the row has been
written by then. -/
def issued (w : IssueWorld) (request : IssueRequest) (buyer : User) : Option IssueResponse :=
  (issueStablecoins isPublicKey tokenOwner reserve request.answers buyer.walletId
    request.amountInRands (w.createIssueTransaction buyer.id request.answers.bankTransactionId
      request.amountInRands).1).2

/-- **A request leaves the row it should.** -/
structure Recorded (w : IssueWorld) (request : IssueRequest) : Prop where
  /-- The identifier of the row is its own. -/
  identified : ∀ row ∈ w.issues, row.id ≠ w.nextId
  /-- The row has a signature exactly if the tokens were issued with it. -/
  written : ∀ buyer, request.loggedInEmail.bind users = some buyer →
    (∀ row ∈ w.issues, row.bankTransactionId ≠ request.answers.bankTransactionId) →
      ∃ signature : Option String,
        (w.after isPublicKey tokenOwner reserve adapt users request).issues =
          ⟨w.nextId, buyer.id, request.answers.bankTransactionId, signature,
            request.amountInRands⟩ :: w.issues ∧
        ∀ s, signature = some s ↔
          w.issued isPublicKey tokenOwner reserve request buyer = some (.success s)
  /-- Without a user or a new bank transaction there is no row. -/
  refused : request.loggedInEmail.bind users = none ∨
      (∃ row ∈ w.issues, row.bankTransactionId = request.answers.bankTransactionId) →
    (w.after isPublicKey tokenOwner reserve adapt users request).issues = w.issues

end IssueWorld

end Functions

namespace IssueWorld

/-- The tables when they have been made. -/
def start : IssueWorld := ⟨[], 1001, []⟩

/-- The chain does not answer with the signature of an earlier transaction. -/
def Fresh (w : IssueWorld) (request : IssueRequest) : Prop :=
  ∀ transaction s, request.answers.send transaction = some s → s ∉ w.sent

/-- What is kept between the requests: identifiers come from the sequence, and signatures from the
chain. -/
structure Good (w : IssueWorld) : Prop where
  lt_nextId : ∀ row ∈ w.issues, row.id < w.nextId
  sent : ∀ row ∈ w.issues, ∀ s, row.blockchainTransactionId = some s → s ∈ w.sent

variable {w : IssueWorld}

theorem good_start : start.Good := ⟨nofun, nofun⟩

/-- Putting the signature into a row that is above the others touches that row only. -/
theorem setBlockchainTransactionId_cons {row : Issue} {issues : List Issue} {nextId : ℕ}
    {sent : List Signature} (hlt : ∀ other ∈ issues, other.id < row.id) (text : String) :
    (IssueWorld.mk (row :: issues) nextId sent).setBlockchainTransactionId row.id text =
      ⟨{ row with blockchainTransactionId := some text } :: issues, nextId, sent⟩ := by
  have hrest : issues.map (fun other => if other.id = row.id then
      { other with blockchainTransactionId := some text } else other) = issues := by
    refine (List.map_congr_left fun other hother => ?_).trans (List.map_id issues)
    exact if_neg (hlt other hother).ne
  unfold setBlockchainTransactionId
  rw [List.map_cons, if_pos rfl, hrest]

end IssueWorld

/-! ## One request -/

section Request

variable {isPublicKey : String → Bool} {tokenOwner reserve : PublicKey} {answers : IssueAnswers}
  {recipientPublicKey : String} {amount : PyFloat} {w w' : IssueWorld}
  {adapt : Contents → Option String} {users : String → Option User}

/-- What `issue_stablecoins` changes, and where a signature that it returns comes from. -/
theorem issueStablecoins_spec {resp : Option IssueResponse}
    (h : issueStablecoins isPublicKey tokenOwner reserve answers recipientPublicKey amount w =
      (w', resp)) :
    ∃ sent, w' = { w with sent := sent } ∧ w.sent ⊆ sent ∧
      ∀ s, resp = some (.success s) →
        s ∈ sent ∧ ∃ transaction, answers.send transaction = some s := by
  have hsame : ∀ {resp' : Option IssueResponse}, (∀ s, resp' ≠ some (.success s)) →
      (w, resp') = (w', resp) → ∃ sent, w' = { w with sent := sent } ∧ w.sent ⊆ sent ∧
        ∀ s, resp = some (.success s) →
          s ∈ sent ∧ ∃ transaction, answers.send transaction = some s := by
    intro resp' hne heq
    obtain ⟨rfl, rfl⟩ := Prod.mk.inj heq
    exact ⟨w.sent, rfl, List.Subset.refl _, fun s hs => absurd hs (hne s)⟩
  unfold issueStablecoins at h
  split at h
  · exact hsame (by simp) h
  split at h
  · exact hsame (by simp) h
  split at h
  · exact hsame (by simp) h
  · exact hsame (by simp) h
  · next transaction _ =>
    split at h
    · exact hsame (by simp) h
    · next signature hsend =>
      dsimp only at h
      have hsent : w.sent ⊆ signature :: w.sent := List.subset_cons_self _ _
      split at h
      all_goals
        obtain ⟨rfl, rfl⟩ := Prod.mk.inj h
        refine ⟨_, rfl, hsent, ?_⟩
      · exact nofun
      · exact nofun
      · rintro s ⟨⟩
        exact ⟨List.mem_cons_self, transaction, hsend⟩

theorem completeIssueTransaction_exception (hexception : ∀ e, adapt (.exception e) = none)
    (issueId : ℕ) (e : IssueException) :
    w.completeIssueTransaction adapt issueId (.exception e) = none := by
  rw [IssueWorld.completeIssueTransaction, hexception, Option.bind_none]

theorem completeIssueTransaction_str (hstr : ∀ text, adapt (.str text) = some text) {issueId : ℕ}
    {text : String} (hnew : ∀ row ∈ w.issues, row.id ≠ issueId →
      row.blockchainTransactionId ≠ some text) :
    w.completeIssueTransaction adapt issueId (.str text) =
      some (w.setBlockchainTransactionId issueId text) := by
  rw [IssueWorld.completeIssueTransaction, hstr, Option.bind_some, if_neg]
  simpa using hnew

/-- What a request does to a good state: the row that it writes, and the signature in it. -/
theorem after_cases (hstr : ∀ text, adapt (.str text) = some text)
    (hexception : ∀ e, adapt (.exception e) = none) (h : w.Good) {request : IssueRequest}
    (hfresh : w.Fresh request) {buyer : User}
    (hbuyer : request.loggedInEmail.bind users = some buyer)
    (hnew : ∀ row ∈ w.issues, row.bankTransactionId ≠ request.answers.bankTransactionId) :
    ∃ signature sent, w.after isPublicKey tokenOwner reserve adapt users request =
        ⟨⟨w.nextId, buyer.id, request.answers.bankTransactionId, signature,
          request.amountInRands⟩ :: w.issues, w.nextId + 1, sent⟩ ∧
      w.sent ⊆ sent ∧ (∀ s, signature = some s → s ∈ sent) ∧
      ∀ s, signature = some s ↔
        w.issued isPublicKey tokenOwner reserve request buyer = some (.success s) := by
  obtain ⟨loggedInEmail, amountInRands, answers⟩ := request
  obtain ⟨email, rfl, huser⟩ := Option.bind_eq_some_iff.mp hbuyer
  have hany : ¬ (w.issues.any fun other =>
      other.bankTransactionId = answers.bankTransactionId) = true := by simpa using hnew
  have hcreate : w.createIssueTransaction buyer.id answers.bankTransactionId amountInRands =
      (⟨⟨w.nextId, buyer.id, answers.bankTransactionId, none, amountInRands⟩ :: w.issues,
        w.nextId + 1, w.sent⟩,
        some ⟨w.nextId, buyer.id, answers.bankTransactionId, none, amountInRands⟩) := by
    unfold IssueWorld.createIssueTransaction
    rw [if_neg hany]
  unfold IssueWorld.after IssueWorld.issued issue
  simp only [huser, hcreate]
  split
  · next w' hresp =>
    obtain ⟨sent, rfl, hsub, -⟩ := issueStablecoins_spec hresp
    exact ⟨none, sent, rfl, hsub, nofun, by simp [hresp]⟩
  · next w' resp hresp =>
    obtain ⟨sent, rfl, hsub, hsuccess⟩ := issueStablecoins_spec hresp
    rw [hresp]
    cases resp with
    | failure e =>
      rw [IssueResponse.contents, completeIssueTransaction_exception hexception]
      exact ⟨none, sent, rfl, hsub, nofun, by simp⟩
    | success s =>
      obtain ⟨hs, transaction, hsend⟩ := hsuccess s rfl
      have hunused : s ∉ w.sent := hfresh transaction s hsend
      rw [IssueResponse.contents, completeIssueTransaction_str hstr,
        IssueWorld.setBlockchainTransactionId_cons h.lt_nextId]
      · refine ⟨some s, sent, rfl, hsub, ?_, by simp⟩
        rintro s' ⟨⟩
        exact hs
      · refine List.forall_mem_cons.mpr ⟨fun hne => absurd rfl hne, ?_⟩
        exact fun row hmem _ heq => hunused (h.sent row hmem s heq)

/-- A request without a user or a new bank transaction may only use up an identifier. -/
theorem after_refused {request : IssueRequest}
    (hrefused : request.loggedInEmail.bind users = none ∨
      ∃ row ∈ w.issues, row.bankTransactionId = request.answers.bankTransactionId) :
    ∃ nextId ≥ w.nextId, w.after isPublicKey tokenOwner reserve adapt users request =
      { w with nextId := nextId } := by
  obtain ⟨loggedInEmail, amountInRands, answers⟩ := request
  unfold IssueWorld.after issue
  cases loggedInEmail with
  | none => exact ⟨w.nextId, le_rfl, rfl⟩
  | some email =>
    dsimp only
    split
    · exact ⟨w.nextId, le_rfl, rfl⟩
    · next buyer huser =>
      have hany : (w.issues.any fun other =>
          other.bankTransactionId = answers.bankTransactionId) = true := by
        simpa [huser] using hrefused
      unfold IssueWorld.createIssueTransaction
      rw [if_pos hany]
      exact ⟨w.nextId + 1, Nat.le_succ _, rfl⟩

theorem recorded_of_good (hstr : ∀ text, adapt (.str text) = some text)
    (hexception : ∀ e, adapt (.exception e) = none) (h : w.Good) {request : IssueRequest}
    (hfresh : w.Fresh request) :
    w.Recorded isPublicKey tokenOwner reserve adapt users request where
  identified row hrow := (h.lt_nextId row hrow).ne
  written buyer hbuyer hnew := by
    obtain ⟨signature, sent, hafter, -, -, hissued⟩ :=
      after_cases hstr hexception h hfresh hbuyer hnew
    exact ⟨signature, by rw [hafter], hissued⟩
  refused hrefused := by
    obtain ⟨nextId, -, hafter⟩ := after_refused hrefused
    rw [hafter]

/-- A request keeps a good state good. -/
theorem good_after (hstr : ∀ text, adapt (.str text) = some text)
    (hexception : ∀ e, adapt (.exception e) = none) (h : w.Good) {request : IssueRequest}
    (hfresh : w.Fresh request) :
    (w.after isPublicKey tokenOwner reserve adapt users request).Good := by
  by_cases hrefused : request.loggedInEmail.bind users = none ∨
      ∃ row ∈ w.issues, row.bankTransactionId = request.answers.bankTransactionId
  · obtain ⟨nextId, hnext, hafter⟩ := after_refused hrefused
    rw [hafter]
    exact ⟨fun row hrow => (h.lt_nextId row hrow).trans_le hnext, h.sent⟩
  · push Not at hrefused
    obtain ⟨hsome, hnew⟩ := hrefused
    obtain ⟨buyer, hbuyer⟩ := Option.ne_none_iff_exists'.mp hsome
    obtain ⟨signature, sent, hafter, hsub, hsent, -⟩ :=
      after_cases hstr hexception h hfresh hbuyer hnew
    rw [hafter]
    refine ⟨List.forall_mem_cons.mpr ⟨Nat.lt_succ_self _, fun row hrow => ?_⟩,
      List.forall_mem_cons.mpr ⟨hsent, fun row hrow s hs => hsub (h.sent row hrow s hs)⟩⟩
    exact (h.lt_nextId row hrow).trans (Nat.lt_succ_self _)

/-- The failure that `issue_stablecoins` returned is not what the request ends with. -/
theorem reply_ne_failure (hexception : ∀ e, adapt (.exception e) = none) (request : IssueRequest)
    (e : IssueException) :
    (issue isPublicKey tokenOwner reserve adapt users request.loggedInEmail request.amountInRands
      request.answers w).2 ≠ .response (.failure e) := by
  unfold issue
  split
  · exact nofun
  split
  · exact nofun
  split
  · exact nofun
  split
  · exact nofun
  · next resp _ =>
    split
    · exact nofun
    · next hcomplete =>
      rintro ⟨⟩
      rw [IssueResponse.contents, completeIssueTransaction_exception hexception] at hcomplete
      cases hcomplete

end Request

/-! ## Runs -/

section Runs

variable {isPublicKey : String → Bool} {tokenOwner reserve : PublicKey}
  {adapt : Contents → Option String} {users : String → Option User}

/-- **Issuing.** The driver binds strings as they are, and no exceptions. -/
theorem issue_consistent (hstr : ∀ text, adapt (.str text) = some text)
    (hexception : ∀ e, adapt (.exception e) = none) {requests : List IssueRequest}
    (hfresh : Run.Along (IssueWorld.step isPublicKey tokenOwner reserve adapt users)
      IssueWorld.Fresh IssueWorld.start requests) :
    Run.Along (IssueWorld.step isPublicKey tokenOwner reserve adapt users)
      (IssueWorld.Recorded isPublicKey tokenOwner reserve adapt users) IssueWorld.start
      requests := by
  have hstep : ∀ w request w', w.Good → w.Fresh request →
      IssueWorld.step isPublicKey tokenOwner reserve adapt users w request = some w' →
        w'.Good := by
    intro w request w' hgood hfresh hw'
    cases hw'
    exact good_after hstr hexception hgood hfresh
  exact hfresh.mono_of_invariant hstep IssueWorld.good_start fun w request hgood hfresh =>
    recorded_of_good hstr hexception hgood hfresh

end Runs

/-! ## A negative amount, and a good one -/

/-- A request by Alice that finds everything as it should be. -/
def issueRequest (bankTransactionId : String) (amountInRands : PyFloat) : IssueRequest :=
  ⟨some "alice", amountInRands, ⟨bankTransactionId, some ["account"], fun _ => .ok (),
    fun _ => some "signature", fun _ => .ok (some ⟨none⟩)⟩⟩

/-- A driver that binds strings only. -/
def stringsOnly : Contents → Option String
  | .str text => some text
  | .exception _ => none

/-- The first request leaves a row without a signature, the second one with it. -/
theorem issue_twice :
    Run.Along (IssueWorld.step (fun _ => true) "owner" "reserve" stringsOnly alice)
      (IssueWorld.Recorded (fun _ => true) "owner" "reserve" stringsOnly alice) IssueWorld.start
      [issueRequest "1" (.infinity true), issueRequest "2" (.finite 1)] ∧
    (Run.run (IssueWorld.step (fun _ => true) "owner" "reserve" stringsOnly alice)
      IssueWorld.start [issueRequest "1" (.infinity true), issueRequest "2" (.finite 1)]).map
        IssueWorld.issues =
      some [⟨1002, 1001, "2", some "signature", .finite 1⟩,
        ⟨1001, 1001, "1", none, .infinity true⟩] := by
  refine ⟨issue_consistent (fun _ => rfl) (fun _ => rfl) ?_, by decide +kernel⟩
  rintro w ⟨⟩
  refine ⟨?_, fun w _ => ⟨?_, trivial⟩⟩
  · exact fun _ _ _ => List.not_mem_nil
  · exact fun _ _ _ => List.not_mem_nil

/-- It is the driver that keeps exceptions out of the table: one that stores their text would
complete the row of a failure. -/
theorem issue_adapted :
    ¬ IssueWorld.Recorded (fun _ => true) "owner" "reserve"
      (fun | .str text => some text | .exception e => some e.message) alice IssueWorld.start
      (issueRequest "1" (.infinity true)) := by
  intro h
  obtain ⟨signature, hissues, hissued⟩ := h.written ⟨1001, "wallet", "RCP_alice"⟩ rfl nofun
  have hsignature := (List.cons.inj hissues).1
  have hsuccess := (hissued _).mp (congrArg Issue.blockchainTransactionId hsignature).symm
  cases hsuccess

end DocMachine.Stablecoin
