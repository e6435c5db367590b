import XmaxChain.Authority
import XmaxChain.Erc721Undo

/-!
# Applying a transaction

The rest of the block database and the way a transaction goes through it: the checks before it is
taken, then in one undo session who pays the gas, who authorizes it, its messages, the gas moved to
the builder and the record that makes it unique.
-/

namespace XmaxChain

structure BuilderObject where
  signingKey : PublicKey
  lastBlockTime : ℕ := 0
  totalMissed : ℕ := 0
deriving DecidableEq, Repr

structure DynamicStates where
  headBlockNumber : ℕ := 0
  headBlockId : Summary := default
  stateTime : ℕ := 0
  totalSlot : ℕ := 0
  blockBuilder : AccountName := 0
  roundSlot : ℕ := 0
deriving DecidableEq, Repr

/-- The whole block database. There is a summary for each of the 65536 low halves of a block
number, and one dynamic state and one configuration. -/
structure ChainDb extends AuthDb where
  transactions : Table Summary ℕ := .empty
  trxCounter : ℕ := 0
  blockSummary : ℕ → Summary := fun _ => default
  states : DynamicStates := {}
  currentBuilders : BuilderRule := {}
  nextBuilders : BuilderRule := {}
  builderObjects : Table AccountName BuilderObject := .empty

/-- What is fixed for a chain and its node. -/
structure ChainConfig where
  crypto : Crypto
  env : Env
  chainId : Summary
  xmaxBuildPublicKey : PublicKey
  skipTransactionDupeCheck : Bool := false
  skipTaposCheck : Bool := false
  skipConfirmation : Bool := false

/-- Microseconds since 1970; stamps are seconds since 2000. -/
@[irreducible] def timePoint (stamp : ℕ) : ℕ := 946684800000000 + 1000000 * stamp

/-- The low 32 bits of the second word of the hash: the bytes 8 to 11 of the summary. -/
def Summary.secondWord (s : Summary) : ℕ :=
  ((List.range 4).map fun j => s.rest / 256 ^ (23 - j) % 256 * 256 ^ j).sum

section Checks

variable (cfg : ChainConfig) (headTime : ℕ) (db : ChainDb) (trx : SignedTransaction)

def validateScope : Except Fault Unit := do
  fcAssert (0 < trx.scope.length + trx.readScope.length) "No scope specified by transaction"
  fcAssert (trx.scope.IsChain (· < ·)) "Scopes must be sorted and unique"
  fcAssert (trx.readScope.IsChain (· < ·)) "Scopes must be sorted and unique"
  fcAssert (trx.scope.all (· ∉ trx.readScope)) "a transaction may not redeclare scope in read_scope"

def validateExpiration : Except Fault Unit := do
  fcAssert (trx.expiration ≤ headTime + 600000000) "Transaction expiration is too far in the future"
  fcAssert (headTime ≤ trx.expiration) "Transaction is expired"

def validateTapos : Except Fault Unit :=
  if cfg.skipTaposCheck then .ok ()
  else
    let id := db.blockSummary (trx.refBlockNum % 2 ^ 16)
    fcAssert (trx.refBlockNum = id.num % 2 ^ 16 && trx.refBlockPrefix = id.secondWord)
      "Transaction's reference block did not match. Is this transaction from a different fork?"

def requireAccount (name : AccountName) : Except Fault Unit :=
  fcAssert (db.accounts.find? name).isSome "Account not found"

def validateReferencedAccounts : Except Fault Unit := do
  trx.scope.forM (requireAccount db)
  trx.messages.forM fun msg => do
    requireAccount db msg.code
    msg.authorization.forM fun auth => requireAccount db auth.account

def validateUniqueness : Except Fault Unit :=
  if cfg.skipTransactionDupeCheck then .ok ()
  else fcAssert (db.transactions.find? (trx.id cfg.crypto)).isNone "Transaction is not unique"

/-- Whatever is thrown is only logged. -/
def checkTrx : Bool :=
  Except.isOk do
    fcAssert (0 < trx.messages.length) "A transaction must have at least one message"
    validateScope trx
    validateExpiration headTime trx
    validateTapos cfg db trx
    validateReferencedAccounts db trx
    validateUniqueness cfg db trx

end Checks

/-- A transaction passes when it passes each check. -/
theorem checkTrx_eq_true {cfg : ChainConfig} {headTime : ℕ} {db : ChainDb} {trx : SignedTransaction} :
    checkTrx cfg headTime db trx = true ↔
      0 < trx.messages.length ∧ validateScope trx = .ok () ∧
        validateExpiration headTime trx = .ok () ∧ validateTapos cfg db trx = .ok () ∧
        validateReferencedAccounts db trx = .ok () ∧ validateUniqueness cfg db trx = .ok () := by
  have hok : ∀ x : Except Fault Unit, x.isOk = true ↔ x = .ok () := fun x => by
    cases x <;> simp [Except.isOk, Except.toBool]
  unfold checkTrx
  rw [hok]
  simp [bind_eq_ok, Unique.exists_iff]

section Apply

variable (cfg : ChainConfig) (headTime : ℕ) (builder : AccountName)

/-- The keys that the signatures are recovered to. -/
def getSignatureKeys (trx : SignedTransaction) : Except Fault (List PublicKey) :=
  trx.signatures.mapM fun sig =>
    match cfg.crypto.signerKey sig (trx.sigDigest cfg.crypto cfg.chainId) with
    | some key => .ok key
    | none => .error (.fc "unable to reconstruct public key from signature")

def checkGaspayer (l : Ledger) (trx : SignedTransaction) : Except Fault Unit :=
  if trx.gaslimit = 0 then .ok ()
  else do
    let token ← dbGet l.tokens trx.gasPayer
    fcAssert (trx.gaslimit ≤ token) "account must have more balance than gaslimit"

def transferGas (l : Ledger) (payer : AccountName) (gasUsed : ℕ) : Except Fault Ledger :=
  if gasUsed = 0 then .ok l
  else do
    let payerToken ← dbGet l.tokens payer
    let _ ← dbGet l.tokens builder
    fcAssert (gasUsed ≤ payerToken) "account must have more balance than gas used"
    pure { l with tokens := (l.tokens.modify payer (· - gasUsed)).modify builder (· + gasUsed) }

def checkAuth (check : Bool) (db : AuthDb) (trx : SignedTransaction) : Except Fault Unit :=
  if check then do
    let keys ← getSignatureKeys cfg trx
    checkAuthorization cfg.env.codec db keys trx.messages
  else .ok ()

/-- The body of `apply_transaction_impl`: the database it leaves and the gas it charged. -/
def applyTransactionBody (check : Bool) (trx : SignedTransaction) (db : ChainDb) :
    Except Fault (ChainDb × ℕ) := do
  checkGaspayer db.toLedger trx
  checkAuth cfg check db.toAuthDb trx
  let (auth, gasUsed) ← exec cfg.env trx headTime db.toAuthDb
  let l ← transferGas builder auth.toLedger trx.gasPayer gasUsed
  let transactions ← dbCreate db.transactions (trx.id cfg.crypto) trx.expiration
  pure ({ db with
    toAuthDb := { auth with toLedger := l }
    transactions := transactions
    trxCounter := u64 (db.trxCounter + 1) }, gasUsed)

/-- The rows of ERC721 ids where `apply_transaction_impl` throws: messages run only for a payer and
with authorizations that are good. -/
def erc721Left (check : Bool) (trx : SignedTransaction) (db : ChainDb) : Erc721Rows :=
  match checkGaspayer db.toLedger trx, checkAuth cfg check db.toAuthDb trx with
  | .ok _, .ok _ => erc721After cfg.env trx headTime db.toAuthDb
  | _, _ => db.erc721Accounts

/-- The database and the receipts of the block being built. -/
structure Pending where
  db : ChainDb
  receipts : List TransactionReceipt

/-- What is thrown undoes what was written, in the destructor of the session. An exception of `fc` is
answered with an error then; any other leaves the call. -/
def applyTransactionImpl (check : Bool) (trx : SignedTransaction) (p : Pending) :
    Except Fault Pending :=
  match applyTransactionBody cfg headTime builder check trx p.db with
  | .ok (db, _) =>
    .ok ⟨db, p.receipts ++ [⟨db.trxCounter, .applied, .package ⟨.original, trx⟩⟩]⟩
  | .error e =>
    if GivesBack p.db.erc721Accounts (erc721Left cfg headTime check trx p.db) then
      match e with
      | .fc _ => .ok p
      | e => .error e
    else .error .terminated

/-- `apply_transaction`, with authorizations checked. -/
def applyTransaction (trx : SignedTransaction) (p : Pending) : Except Fault Pending :=
  if checkTrx cfg headTime p.db trx then applyTransactionImpl cfg headTime builder true trx p
  else .ok p

end Apply

/-- What `apply_transaction_impl` went through when it succeeded. -/
theorem applyTransactionBody_ok {cfg : ChainConfig} {t : ℕ} {builder : AccountName} {check : Bool}
    {trx : SignedTransaction} {db : ChainDb} {r : ChainDb × ℕ}
    (h : applyTransactionBody cfg t builder check trx db = .ok r) :
    checkGaspayer db.toLedger trx = .ok () ∧ checkAuth cfg check db.toAuthDb trx = .ok () ∧
      ∃ auth l transactions, exec cfg.env trx t db.toAuthDb = .ok (auth, r.2) ∧
        transferGas builder auth.toLedger trx.gasPayer r.2 = .ok l ∧
        dbCreate db.transactions (trx.id cfg.crypto) trx.expiration = .ok transactions ∧
        r.1 = { db with
          toAuthDb := { auth with toLedger := l }
          transactions := transactions
          trxCounter := u64 (db.trxCounter + 1) } := by
  simp only [applyTransactionBody, bind_eq_ok] at h
  obtain ⟨⟨⟩, hpayer, ⟨⟩, hauth, ⟨auth, gas⟩, hexec, l, hl, transactions, htrx, h⟩ := h
  cases h
  exact ⟨hpayer, hauth, auth, l, transactions, hexec, hl, htrx, rfl⟩

/-- Moving the gas writes nothing but tokens. -/
theorem transferGas_ok {builder payer : AccountName} {l l' : Ledger} {gasUsed : ℕ}
    (h : transferGas builder l payer gasUsed = .ok l') : ∃ tokens, l' = { l with tokens := tokens } := by
  unfold transferGas at h
  split_ifs at h
  · cases h
    exact ⟨l.tokens, rfl⟩
  · simp only [bind_eq_ok] at h
    obtain ⟨_, -, _, -, -, -, h⟩ := h
    cases h
    exact ⟨_, rfl⟩

end XmaxChain
