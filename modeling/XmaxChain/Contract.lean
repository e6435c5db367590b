import XmaxChain.Voting

/-!
# The native contracts

The handlers of the system, ERC20 and ERC721 contracts and the table they are registered in. What
a handler throws undoes all it wrote, so a handler that fails returns no state.
-/

namespace XmaxChain

/-- What running a contract leaves: the records it stored, the instructions it executed, and whether
an exception ended it. -/
structure VmOutcome where
  records : List KeyValue
  executed : ℕ
  threw : Bool := false

/-- The script engine. A contract reads the message and the tables and writes records. -/
structure Vm where
  apply : Ledger → MessageContext → ℕ → VmOutcome
  init : Ledger → MessageContext → Option (List KeyValue)

structure Env where
  codec : Codec
  vm : Vm

/-- Reads a message that is written as the list of its fields, with the amounts last. Messages that
carry authorities or code have no such form. -/
def fieldCodec : Codec where
  transfer | [a, b, n] => some ⟨a, b, n⟩ | _ => none
  lock | [a, b, n] => some ⟨a, b, n⟩ | _ => none
  unlock | [a, n] => some ⟨a, n⟩ | _ => none
  addaccount _ := none
  addcontract _ := none
  adderc20 | [a, t, n] => some ⟨a, t, n⟩ | _ => none
  adderc721 | [a, t] => some ⟨a, t⟩ | _ => none
  setcode _ := none
  votebuilder | v :: p :: bs => some ⟨v, p, bs⟩ | _ => none
  regbuilder | [b, k] => some ⟨b, k⟩ | _ => none
  unregbuilder | [b] => some b | _ => none
  regproxy | [p] => some p | _ => none
  unregproxy | [p] => some p | _ => none
  minterc20 | [t, n] => some ⟨t, n⟩ | _ => none
  stopminterc20 | [t] => some t | _ => none
  revokeerc20 | [t] => some t | _ => none
  transferfromerc20 | [t, a, b, n] => some ⟨t, a, b, n⟩ | _ => none
  minterc721 | [t, i] => some ⟨t, i⟩ | _ => none
  stopminterc721 | [t] => some t | _ => none
  revokeerc721 | [t] => some t | _ => none
  transferfromerc721 | [t, i, a, b] => some ⟨t, i, a, b⟩ | _ => none
  updateauth | [a, p] => some (a, p) | _ => none
  deleteauth | [a] => some a | _ => none
  linkauth | [a] => some a | _ => none
  unlinkauth | [a] => some a | _ => none
  tokenAccount t := some t
  validAbi _ := true

/-- A script engine whose contracts do nothing. -/
def idleVm : Vm where
  apply l _ _ := { records := l.records, executed := 0 }
  init l _ := some l.records

def fieldEnv : Env := ⟨fieldCodec, idleVm⟩

abbrev LedgerHandler := MessageContext → HandlerState → Except Fault HandlerState

/-- The handlers that are registered write the whole database. -/
structure DbState where
  db : AuthDb
  notified : List AccountName

abbrev NativeHandler := MessageContext → DbState → Except Fault DbState

def onLedger (h : LedgerHandler) : NativeHandler := fun ctx s => do
  let s' ← h ctx ⟨s.db.toLedger, s.notified⟩
  pure ⟨{ s.db with toLedger := s'.ledger }, s'.notified⟩

section System

variable (env : Env) (ctx : MessageContext)

def xmaxNewAccount (l : Ledger) (name : AccountName) (type : AccountType) : Except Fault Ledger := do
  let accounts ← dbCreate l.accounts name { type := type, creationDate := ctx.currentTime }
  pure { l with accounts := accounts }

def addAuthority (db : AuthDb) (owner : AccountName) (name : AuthorityName) (parent : ℕ)
    (auth : Types.Authority) : Except Fault AuthDb := do
  let authorities ← dbCreate db.authorities (owner, name)
    ⟨db.nextAuthority, parent, auth, ctx.currentTime⟩
  pure { db with authorities := authorities, nextAuthority := db.nextAuthority + 1 }

/-- The part of `addaccount` before its authorities. -/
def addaccountTokens (create : Types.AddAccount) (l : Ledger) : Except Fault Ledger := do
  requireAuthorization ctx create.creator
  fcAssert (l.accounts.find? create.name).isNone "Cannot create account, that name is already taken"
  fcAssert (0 < create.deposit) "account creation deposit must > 0"
  let l ← xmaxNewAccount ctx l create.name .personal
  let creatorToken ← dbGet l.tokens create.creator
  fcAssert (create.deposit ≤ creatorToken) "Creator has insufficient funds"
  let l := { l with tokens := l.tokens.modify create.creator (· - create.deposit.toNat) }
  let tokens ← dbCreate l.tokens create.name create.deposit.toNat
  pure { l with tokens := tokens }

def xmaxSystemAddaccount (s : DbState) : Except Fault DbState := do
  let create ← unpackAs (env.codec.addaccount ctx.msg.data)
  let l ← addaccountTokens ctx create s.db.toLedger
  let db := { s.db with toLedger := l }
  let ownerId := db.nextAuthority
  let db ← addAuthority ctx db create.name xmaxOwnerName 0 create.owner
  let db ← addAuthority ctx db create.name xmaxActiveName ownerId create.active
  pure { s with db := db }

/-- Stores the code on an account and runs its `init`. -/
def installContract (l : Ledger) (name : AccountName) (code codeAbi : Bytes) : Except Fault Ledger := do
  fcAssert (env.codec.validAbi codeAbi) "invalid abi"
  let _ ← dbGet l.accounts name
  let l := { l with accounts := l.accounts.modify name fun a =>
    { a with contract := some ⟨code, codeAbi⟩ } }
  match env.vm.init l { ctx with code := name } with
  | some records => pure { l with records := records }
  | none => .error (.fc "init failed")

def xmaxSystemAddcontract (s : HandlerState) : Except Fault HandlerState := do
  let msg ← unpackAs (env.codec.addcontract ctx.msg.data)
  requireAuthorization ctx msg.creator
  let l ← xmaxNewAccount ctx s.ledger msg.name .contract
  let l ← installContract env ctx l msg.name msg.code msg.codeAbi
  pure { s with ledger := l }

def xmaxSystemAdderc20 (s : HandlerState) : Except Fault HandlerState := do
  let msg ← unpackAs (env.codec.adderc20 ctx.msg.data)
  let name ← unpackAs (env.codec.tokenAccount msg.tokenName)
  requireScope ctx msg.creator
  requireAuthorization ctx msg.creator
  let l ← xmaxNewAccount ctx s.ledger name .erc20
  fcAssert (l.erc20s.find? msg.tokenName).isNone "Erc20 token already exist"
  let erc20s ← dbCreate l.erc20s msg.tokenName
    { ownerName := msg.creator, totalSupply := msg.totalBalance }
  fcAssert (l.erc20Accounts.find? (msg.tokenName, msg.creator)).isNone
    "From account already have tokens!"
  let accounts ← dbCreate l.erc20Accounts (msg.tokenName, msg.creator) msg.totalBalance
  pure { s with ledger := { l with erc20s := erc20s, erc20Accounts := accounts } }

def xmaxSystemAdderc721 (s : HandlerState) : Except Fault HandlerState := do
  let msg ← unpackAs (env.codec.adderc721 ctx.msg.data)
  requireScope ctx msg.creator
  requireAuthorization ctx msg.creator
  let name ← unpackAs (env.codec.tokenAccount msg.tokenName)
  requireAuthorization ctx msg.creator
  let l ← xmaxNewAccount ctx s.ledger name .erc721
  fcAssert (l.erc721s.find? msg.tokenName).isNone "Erc721 token already exist"
  let erc721s ← dbCreate l.erc721s msg.tokenName { ownerName := msg.creator }
  pure { s with ledger := { l with erc721s := erc721s } }

def xmaxSystemTransfer (s : HandlerState) : Except Fault HandlerState := do
  let transfer ← unpackAs (env.codec.transfer ctx.msg.data)
  fcAssert (0 < transfer.amount) "Must transfer a positive amount"
  requireScope ctx transfer.dest
  requireScope ctx transfer.source
  let notified := requireRecipient ctx transfer.dest s.notified
  let notified := requireRecipient ctx transfer.source notified
  let source ← dbGet s.ledger.tokens transfer.source
  fcAssert (transfer.amount ≤ source) "Insufficient Funds"
  let _ ← dbGet s.ledger.tokens transfer.dest
  let tokens := s.ledger.tokens.modify transfer.source (· - transfer.amount)
  let tokens := tokens.modify transfer.dest (· + transfer.amount)
  pure ⟨{ s.ledger with tokens := tokens }, notified⟩

def xmaxSystemLock (s : HandlerState) : Except Fault HandlerState := do
  let lock ← unpackAs (env.codec.lock ctx.msg.data)
  fcAssert (0 < lock.amount) "Locked amount must be positive"
  requireScope ctx lock.dest
  requireScope ctx lock.source
  requireScope ctx xmaxContractName
  requireAuthorization ctx lock.source
  let notified := requireRecipient ctx lock.dest s.notified
  let notified := requireRecipient ctx lock.source notified
  let locker ← dbGet s.ledger.tokens lock.source
  fcAssert (lock.amount ≤ locker) "Account lacks sufficient funds to lock"
  let _ ← dbGet s.ledger.resources lock.dest
  let amount := lock.amount.toNat
  let l := { s.ledger with
    tokens := s.ledger.tokens.modify lock.source (· - amount)
    resources := s.ledger.resources.modify lock.dest fun r =>
      { r with lockedToken := r.lockedToken + amount } }
  let l ← increaseVotes ctx l lock.dest amount
  pure ⟨l, notified⟩

def xmaxSystemUnlock (s : HandlerState) : Except Fault HandlerState := do
  let unlock ← unpackAs (env.codec.unlock ctx.msg.data)
  requireAuthorization ctx unlock.account
  fcAssert (0 ≤ unlock.amount) "Unlock amount cannot be negative"
  let unlocker ← dbGet s.ledger.resources unlock.account
  fcAssert (unlock.amount ≤ unlocker.lockedToken) "Insufficient locked funds to unlock"
  let amount := unlock.amount.toNat
  let l := { s.ledger with resources := s.ledger.resources.modify unlock.account fun r =>
    { lockedToken := r.lockedToken - amount
      unlockedToken := r.unlockedToken + amount
      lastUnlockedTime := ctx.currentTime } }
  let l ← decreaseVotes ctx l unlock.account amount
  pure { s with ledger := l }

def xmaxSystemSetjscode (s : HandlerState) : Except Fault HandlerState := do
  let msg ← unpackAs (env.codec.setcode ctx.msg.data)
  requireAuthorization ctx msg.account
  fcAssert (msg.vmType = 0) "msg.vm_type == 0"
  fcAssert (msg.vmVersion = 0) "msg.vm_version == 0"
  let l ← installContract env ctx s.ledger msg.account msg.code msg.codeAbi
  pure { s with ledger := l }

end System

section Erc

variable (env : Env) (ctx : MessageContext)

def safeAdd (a b : ℤ) : Except Fault ℤ := do
  let c := i64 (a + b)
  fcAssert (a ≤ c) "Safe math operator beyond valid range."
  pure c

def safeSub (a b : ℤ) : Except Fault ℤ := do
  fcAssert (b ≤ a) "Safe math operator beyond valid range."
  pure (i64 (a - b))

def validateTokenNotRevoke (revoked : ℤ) : Except Fault Unit :=
  fcAssert (revoked = 0) "ERC token already revoked!"

def validateTokenCanmint (stopmint : ℤ) : Except Fault Unit :=
  fcAssert (stopmint = 0) "ERC token already revoked!"

def xmaxErc20Mint (s : HandlerState) : Except Fault HandlerState := do
  let mint ← unpackAs (env.codec.minterc20 ctx.msg.data)
  let token ← dbGet s.ledger.erc20s mint.tokenName
  validateTokenNotRevoke token.revoked
  validateTokenCanmint token.stopmint
  requireScope ctx token.ownerName
  requireAuthorization ctx token.ownerName
  let notified := requireRecipient ctx token.ownerName s.notified
  let owner := (mint.tokenName, token.ownerName)
  fcAssert (s.ledger.erc20Accounts.find? owner).isSome "From have no tokens!"
  let balance ← dbGet s.ledger.erc20Accounts owner
  let balance ← safeAdd balance mint.mintAmount
  let supply ← safeAdd token.totalSupply mint.mintAmount
  pure ⟨{ s.ledger with
    erc20Accounts := s.ledger.erc20Accounts.modify owner fun _ => balance
    erc20s := s.ledger.erc20s.modify mint.tokenName fun t => { t with totalSupply := supply } },
    notified⟩

def xmaxErc20Stopmint (s : HandlerState) : Except Fault HandlerState := do
  let name ← unpackAs (env.codec.stopminterc20 ctx.msg.data)
  let token ← dbGet s.ledger.erc20s name
  validateTokenNotRevoke token.revoked
  validateTokenCanmint token.stopmint
  requireScope ctx token.ownerName
  requireAuthorization ctx token.ownerName
  let notified := requireRecipient ctx token.ownerName s.notified
  pure ⟨{ s.ledger with erc20s := s.ledger.erc20s.modify name fun t => { t with stopmint := 1 } },
    notified⟩

def xmaxErc20Revoke (s : HandlerState) : Except Fault HandlerState := do
  let name ← unpackAs (env.codec.revokeerc20 ctx.msg.data)
  let token ← dbGet s.ledger.erc20s name
  validateTokenNotRevoke token.revoked
  pure { s with ledger := { s.ledger with
    erc20s := s.ledger.erc20s.modify name fun t => { t with revoked := 1 } } }

/-- The row of a receiver that has none yet. -/
def openErc20Account (l : Ledger) (row : AssetSymbol × AccountName) :
    Except Fault (Table (AssetSymbol × AccountName) ℤ) :=
  match l.erc20Accounts.find? row with
  | none => dbCreate l.erc20Accounts row 0
  | some _ => pure l.erc20Accounts

/-- The row of the receiver may be the sender's own. -/
def xmaxErc20Transferfrom (s : HandlerState) : Except Fault HandlerState := do
  let transfer ← unpackAs (env.codec.transferfromerc20 ctx.msg.data)
  requireAuthorization ctx transfer.source
  requireScope ctx transfer.source
  requireScope ctx transfer.dest
  let notified := requireRecipient ctx transfer.source s.notified
  let notified := requireRecipient ctx transfer.dest notified
  let token ← dbGet s.ledger.erc20s transfer.tokenName
  validateTokenNotRevoke token.revoked
  let source := (transfer.tokenName, transfer.source)
  let dest := (transfer.tokenName, transfer.dest)
  fcAssert (s.ledger.erc20Accounts.find? source).isSome "From have no tokens!"
  let accounts ← openErc20Account s.ledger dest
  let balance ← dbGet accounts source
  fcAssert (transfer.value < balance) "From have no enough tokens!"
  let balance ← safeSub balance transfer.value
  let accounts := accounts.modify source fun _ => balance
  let balance ← dbGet accounts dest
  let balance ← safeAdd balance transfer.value
  let accounts := accounts.modify dest fun _ => balance
  pure ⟨{ s.ledger with erc20Accounts := accounts }, notified⟩

/-- An owner holds at most one token of a name: the rows are unique by name and owner too. -/
def erc721OwnerTaken (l : Ledger) (token : AssetSymbol) (owner : AccountName) (id : TokenId) : Bool :=
  l.erc721Accounts.rows.any fun r => r.1.1 = token && r.1.2 ≠ id && r.2 = owner

def xmaxErc721Mint (s : HandlerState) : Except Fault HandlerState := do
  let mint ← unpackAs (env.codec.minterc721 ctx.msg.data)
  let token ← dbGet s.ledger.erc721s mint.tokenName
  validateTokenNotRevoke token.revoked
  validateTokenCanmint token.stopmint
  requireScope ctx token.ownerName
  requireAuthorization ctx token.ownerName
  let notified := requireRecipient ctx token.ownerName s.notified
  let row := (mint.tokenName, mint.tokenId)
  fcAssert (s.ledger.erc721Accounts.find? row).isNone "The ERC721 token has already minted"
  if erc721OwnerTaken s.ledger mint.tokenName token.ownerName mint.tokenId then
    .error (.std "could not insert object, most likely a uniqueness constraint was violated")
  else do
    let accounts ← dbCreate s.ledger.erc721Accounts row token.ownerName
    pure ⟨{ s.ledger with erc721Accounts := accounts }, notified⟩

def xmaxErc721Stopmint (s : HandlerState) : Except Fault HandlerState := do
  let name ← unpackAs (env.codec.stopminterc721 ctx.msg.data)
  let token ← dbGet s.ledger.erc721s name
  validateTokenNotRevoke token.revoked
  validateTokenCanmint token.stopmint
  requireAuthorization ctx token.ownerName
  requireScope ctx token.ownerName
  let notified := requireRecipient ctx token.ownerName s.notified
  pure ⟨{ s.ledger with erc721s := s.ledger.erc721s.modify name fun t => { t with stopmint := 1 } },
    notified⟩

def xmaxErc721Transferfrom (s : HandlerState) : Except Fault HandlerState := do
  let transfer ← unpackAs (env.codec.transferfromerc721 ctx.msg.data)
  requireAuthorization ctx transfer.source
  requireScope ctx transfer.source
  requireScope ctx transfer.dest
  let notified := requireRecipient ctx transfer.source s.notified
  let notified := requireRecipient ctx transfer.dest notified
  let token ← dbGet s.ledger.erc721s transfer.tokenName
  validateTokenNotRevoke token.revoked
  let row := (transfer.tokenName, transfer.tokenId)
  fcAssert (s.ledger.erc721Accounts.find? row).isSome "The ERC721 token has already minted"
  let owner ← dbGet s.ledger.erc721Accounts row
  fcAssert (owner = transfer.source) "The ERC721 token not belong to account"
  -- a row that cannot be modified is erased, and undoing that looks for it in vain
  if erc721OwnerTaken s.ledger transfer.tokenName transfer.dest transfer.tokenId then
    .error (.undefined "modified object not found")
  else
    pure ⟨{ s.ledger with
      erc721Accounts := s.ledger.erc721Accounts.modify row fun _ => transfer.dest }, notified⟩

def xmaxErc721Revoke (s : HandlerState) : Except Fault HandlerState := do
  let name ← unpackAs (env.codec.revokeerc721 ctx.msg.data)
  let token ← dbGet s.ledger.erc721s name
  validateTokenNotRevoke token.revoked
  pure { s with ledger := { s.ledger with
    erc721s := s.ledger.erc721s.modify name fun t => { t with revoked := 1 } } }

end Erc

section Register

/-- The handlers that write the ledger alone. -/
def ledgerHandler (env : Env) : NativeScope → FuncName → Option LedgerHandler
  | .system, .addcontract => some (xmaxSystemAddcontract env)
  | .system, .adderc20 => some (xmaxSystemAdderc20 env)
  | .system, .adderc721 => some (xmaxSystemAdderc721 env)
  | .system, .transfer => some (xmaxSystemTransfer env)
  | .system, .lock => some (xmaxSystemLock env)
  | .system, .unlock => some (xmaxSystemUnlock env)
  | .system, .votebuilder => some (voteBuilder env.codec)
  | .system, .regbuilder => some (regBuilder env.codec)
  | .system, .unregbuilder => some (unregBuilder env.codec)
  | .system, .regproxy => some (regProxy env.codec)
  | .system, .unregproxy => some (unregProxy env.codec)
  | .system, .setcode => some (xmaxSystemSetjscode env)
  | .erc20, .mint => some (xmaxErc20Mint env)
  | .erc20, .stopmint => some (xmaxErc20Stopmint env)
  | .erc20, .revoke => some (xmaxErc20Revoke env)
  | .erc20, .transferfrom => some (xmaxErc20Transferfrom env)
  | .erc721, .mint => some (xmaxErc721Mint env)
  | .erc721, .stopmint => some (xmaxErc721Stopmint env)
  | .erc721, .transferfrom => some (xmaxErc721Transferfrom env)
  | .erc721, .revoke => some (xmaxErc721Revoke env)
  | _, _ => none

/-- `register_handlers`. -/
def findNativeHandler (env : Env) (scope : NativeScope) (func : FuncName) : Option NativeHandler :=
  if scope = .system ∧ func = .addaccount then some (xmaxSystemAddaccount env)
  else (ledgerHandler env scope func).map onLedger

/-- `setcode` is registered a second time, for the script engine and with no step. -/
def getNativeHandlerGasstep : NativeScope → FuncName → ℕ
  | .system, .addaccount | .system, .setcode => 0
  | .system, .addcontract | .system, .adderc20 | .system, .adderc721 | .system, .transfer
  | .system, .lock | .system, .unlock | .system, .votebuilder | .system, .regbuilder
  | .system, .unregbuilder | .system, .regproxy | .system, .unregproxy => 5
  | .erc20, .mint | .erc20, .stopmint | .erc20, .revoke | .erc20, .transferfrom => 5
  | .erc721, .mint | .erc721, .stopmint | .erc721, .transferfrom | .erc721, .revoke => 5
  | _, _ => 0

end Register

/-! ## What a handler that succeeds did -/

section Effects

variable {env : Env} {ctx : MessageContext} {s r : HandlerState}

/-- What a successful `transfer` found and wrote. -/
theorem xmaxSystemTransfer_ok (h : xmaxSystemTransfer env ctx s = .ok r) :
    ∃ t source, env.codec.transfer ctx.msg.data = some t ∧ 0 < t.amount ∧
      s.ledger.tokens.find? t.source = some source ∧ t.amount ≤ source ∧
      (∃ dest, s.ledger.tokens.find? t.dest = some dest) ∧
      r = ⟨{ s.ledger with
          tokens := (s.ledger.tokens.modify t.source (· - t.amount)).modify t.dest (· + t.amount) },
        requireRecipient ctx t.source (requireRecipient ctx t.dest s.notified)⟩ := by
  simp only [xmaxSystemTransfer, bind_eq_ok, unpackAs_eq_ok, fcAssert_eq_ok, dbGet_eq_ok,
    decide_eq_true_eq] at h
  obtain ⟨t, ht, -, hpos, -, -, -, -, source, hsource, -, hle, dest, hdest, h⟩ := h
  cases h
  exact ⟨t, source, ht, hpos, hsource, hle, ⟨dest, hdest⟩, rfl⟩

/-- What a successful `lock` found, and what it gave to the votes. -/
theorem xmaxSystemLock_ok (h : xmaxSystemLock env ctx s = .ok r) :
    ∃ t locker, env.codec.lock ctx.msg.data = some t ∧ 0 < t.amount ∧ t.source ∈ ctx.authorized ∧
      s.ledger.tokens.find? t.source = some locker ∧ t.amount ≤ locker ∧
      (∃ resource, s.ledger.resources.find? t.dest = some resource) ∧
      increaseVotes ctx { s.ledger with
        tokens := s.ledger.tokens.modify t.source (· - t.amount.toNat)
        resources := s.ledger.resources.modify t.dest fun r =>
          { r with lockedToken := r.lockedToken + t.amount.toNat } } t.dest t.amount.toNat
        = .ok r.ledger ∧
      r.notified = requireRecipient ctx t.source (requireRecipient ctx t.dest s.notified) := by
  simp only [xmaxSystemLock, bind_eq_ok, unpackAs_eq_ok, fcAssert_eq_ok, dbGet_eq_ok,
    requireAuthorization_eq_ok, decide_eq_true_eq] at h
  obtain ⟨t, ht, -, hpos, -, -, -, -, -, -, -, hauth, locker, hlocker, -, hle, resource, hres, l, hl,
    h⟩ := h
  cases h
  exact ⟨t, locker, ht, hpos, hauth, hlocker, hle, ⟨resource, hres⟩, hl, rfl⟩

theorem xmaxNewAccount_ok {l l' : Ledger} {name : AccountName} {type : AccountType}
    (h : xmaxNewAccount ctx l name type = .ok l') : l' = { l with accounts := l'.accounts } := by
  simp only [xmaxNewAccount, bind_eq_ok] at h
  obtain ⟨accounts, -, h⟩ := h
  cases h
  rfl

/-- A new ERC20 token: its creator holds all of it. -/
theorem xmaxSystemAdderc20_ok (h : xmaxSystemAdderc20 env ctx s = .ok r) :
    ∃ t, env.codec.adderc20 ctx.msg.data = some t ∧ t.creator ∈ ctx.authorized ∧ ∃ erc20s rows,
      s.ledger.erc20s.create? t.tokenName { ownerName := t.creator, totalSupply := t.totalBalance }
        = some erc20s ∧
      s.ledger.erc20Accounts.create? (t.tokenName, t.creator) t.totalBalance = some rows ∧
      r = ⟨{ s.ledger with
        accounts := r.ledger.accounts, erc20s := erc20s, erc20Accounts := rows }, s.notified⟩ := by
  simp only [xmaxSystemAdderc20, bind_eq_ok, unpackAs_eq_ok, requireAuthorization_eq_ok,
    dbCreate_eq_ok] at h
  obtain ⟨t, ht, _, -, -, -, -, hauth, l, hl, -, -, erc20s, herc, -, -, rows, hrows, h⟩ := h
  rw [xmaxNewAccount_ok hl] at herc hrows h
  cases h
  exact ⟨t, ht, hauth, erc20s, rows, herc, hrows, rfl⟩

theorem safeAdd_eq_ok {a b c : ℤ} : safeAdd a b = .ok c ↔ a ≤ c ∧ c = i64 (a + b) := by
  simp only [safeAdd, bind_eq_ok, fcAssert_eq_ok, decide_eq_true_eq, pure, Except.pure,
    Except.ok.injEq]
  constructor
  · rintro ⟨-, hle, rfl⟩
    exact ⟨hle, rfl⟩
  · rintro ⟨hle, rfl⟩
    exact ⟨(), hle, rfl⟩

theorem safeSub_eq_ok {a b c : ℤ} : safeSub a b = .ok c ↔ b ≤ a ∧ c = i64 (a - b) := by
  simp only [safeSub, bind_eq_ok, fcAssert_eq_ok, decide_eq_true_eq, pure, Except.pure,
    Except.ok.injEq]
  constructor
  · rintro ⟨-, hle, rfl⟩
    exact ⟨hle, rfl⟩
  · rintro ⟨hle, rfl⟩
    exact ⟨(), hle, rfl⟩

theorem xmaxErc20Mint_ok (h : xmaxErc20Mint env ctx s = .ok r) :
    ∃ t token balance balance' supply', env.codec.minterc20 ctx.msg.data = some t ∧
      s.ledger.erc20s.find? t.tokenName = some token ∧
      s.ledger.erc20Accounts.find? (t.tokenName, token.ownerName) = some balance ∧
      safeAdd balance t.mintAmount = .ok balance' ∧
      safeAdd token.totalSupply t.mintAmount = .ok supply' ∧
      r = ⟨{ s.ledger with
          erc20Accounts := s.ledger.erc20Accounts.modify (t.tokenName, token.ownerName) fun _ => balance'
          erc20s := s.ledger.erc20s.modify t.tokenName fun t => { t with totalSupply := supply' } },
        requireRecipient ctx token.ownerName s.notified⟩ := by
  simp only [xmaxErc20Mint, bind_eq_ok, unpackAs_eq_ok, dbGet_eq_ok] at h
  obtain ⟨t, ht, token, htoken, -, -, -, -, -, -, -, -, -, -, balance, hbal, balance', hbal', supply',
    hsupply', h⟩ := h
  cases h
  exact ⟨t, token, balance, balance', supply', ht, htoken, hbal, hbal', hsupply', rfl⟩

theorem xmaxErc20Stopmint_ok (h : xmaxErc20Stopmint env ctx s = .ok r) :
    ∃ name N, r = ⟨{ s.ledger with
      erc20s := s.ledger.erc20s.modify name fun t => { t with stopmint := 1 } }, N⟩ := by
  simp only [xmaxErc20Stopmint, bind_eq_ok] at h
  obtain ⟨name, -, token, -, -, -, -, -, -, -, -, -, h⟩ := h
  cases h
  exact ⟨name, _, rfl⟩

theorem xmaxErc20Revoke_ok (h : xmaxErc20Revoke env ctx s = .ok r) :
    ∃ name tok, env.codec.revokeerc20 ctx.msg.data = some name ∧
      s.ledger.erc20s.find? name = some tok ∧ tok.revoked = 0 ∧
      r = ⟨{ s.ledger with erc20s := s.ledger.erc20s.modify name fun t => { t with revoked := 1 } },
        s.notified⟩ := by
  simp only [xmaxErc20Revoke, validateTokenNotRevoke, bind_eq_ok, unpackAs_eq_ok, dbGet_eq_ok,
    fcAssert_eq_ok, decide_eq_true_eq] at h
  obtain ⟨name, hname, tok, htok, -, hzero, h⟩ := h
  cases h
  exact ⟨name, tok, hname, htok, hzero, rfl⟩

theorem xmaxErc20Transferfrom_ok (h : xmaxErc20Transferfrom env ctx s = .ok r) :
    ∃ t rows b b' d d', env.codec.transferfromerc20 ctx.msg.data = some t ∧
      t.source ∈ ctx.authorized ∧ (s.ledger.erc20s.find? t.tokenName).isSome ∧
      (s.ledger.erc20Accounts.find? (t.tokenName, t.source)).isSome ∧
      openErc20Account s.ledger (t.tokenName, t.dest) = .ok rows ∧
      rows.find? (t.tokenName, t.source) = some b ∧ t.value < b ∧ safeSub b t.value = .ok b' ∧
      (rows.modify (t.tokenName, t.source) fun _ => b').find? (t.tokenName, t.dest) = some d ∧
      safeAdd d t.value = .ok d' ∧
      r = ⟨{ s.ledger with erc20Accounts :=
          (rows.modify (t.tokenName, t.source) fun _ => b').modify (t.tokenName, t.dest) fun _ => d' },
        requireRecipient ctx t.dest (requireRecipient ctx t.source s.notified)⟩ := by
  simp only [xmaxErc20Transferfrom, bind_eq_ok, unpackAs_eq_ok, requireAuthorization_eq_ok,
    dbGet_eq_ok, fcAssert_eq_ok, decide_eq_true_eq] at h
  obtain ⟨t, ht, -, hauth, -, -, -, -, token, htoken, -, -, -, hrow, rows, hrows, b, hb, -, hlt, b', hb',
    d, hd, d', hd', h⟩ := h
  cases h
  exact ⟨t, rows, b, b', d, d', ht, hauth, by simp [htoken], hrow, hrows, hb, hlt, hb', hd, hd', rfl⟩

theorem xmaxSystemAdderc721_ok (h : xmaxSystemAdderc721 env ctx s = .ok r) :
    ∃ t, env.codec.adderc721 ctx.msg.data = some t ∧ ∃ erc721s,
      s.ledger.erc721s.create? t.tokenName { ownerName := t.creator } = some erc721s ∧
      r = ⟨{ s.ledger with accounts := r.ledger.accounts, erc721s := erc721s }, s.notified⟩ := by
  simp only [xmaxSystemAdderc721, bind_eq_ok, unpackAs_eq_ok, dbCreate_eq_ok] at h
  obtain ⟨t, ht, -, -, -, -, _, -, -, -, l, hl, -, -, erc721s, herc, h⟩ := h
  rw [xmaxNewAccount_ok hl] at herc h
  cases h
  exact ⟨t, ht, erc721s, herc, rfl⟩

theorem xmaxErc721Mint_ok (h : xmaxErc721Mint env ctx s = .ok r) :
    ∃ t token rows N, env.codec.minterc721 ctx.msg.data = some t ∧
      s.ledger.erc721s.find? t.tokenName = some token ∧
      erc721OwnerTaken s.ledger t.tokenName token.ownerName t.tokenId = false ∧
      s.ledger.erc721Accounts.create? (t.tokenName, t.tokenId) token.ownerName = some rows ∧
      r = ⟨{ s.ledger with erc721Accounts := rows }, N⟩ := by
  simp only [xmaxErc721Mint, bind_eq_ok, unpackAs_eq_ok, dbGet_eq_ok] at h
  obtain ⟨t, ht, token, htoken, -, -, -, -, -, -, -, -, -, -, h⟩ := h
  split_ifs at h with htaken
  simp only [bind_eq_ok, dbCreate_eq_ok] at h
  obtain ⟨rows, hrows, h⟩ := h
  cases h
  exact ⟨t, token, rows, _, ht, htoken, by simpa using htaken, hrows, rfl⟩

theorem xmaxErc721Stopmint_ok (h : xmaxErc721Stopmint env ctx s = .ok r) :
    ∃ name N, r = ⟨{ s.ledger with
      erc721s := s.ledger.erc721s.modify name fun t => { t with stopmint := 1 } }, N⟩ := by
  simp only [xmaxErc721Stopmint, bind_eq_ok] at h
  obtain ⟨name, -, token, -, -, -, -, -, -, -, -, -, h⟩ := h
  cases h
  exact ⟨name, _, rfl⟩

theorem xmaxErc721Transferfrom_ok (h : xmaxErc721Transferfrom env ctx s = .ok r) :
    ∃ t N, env.codec.transferfromerc721 ctx.msg.data = some t ∧ t.source ∈ ctx.authorized ∧
      s.ledger.erc721Accounts.find? (t.tokenName, t.tokenId) = some t.source ∧
      erc721OwnerTaken s.ledger t.tokenName t.dest t.tokenId = false ∧
      r = ⟨{ s.ledger with
        erc721Accounts := s.ledger.erc721Accounts.modify (t.tokenName, t.tokenId) fun _ => t.dest },
        N⟩ := by
  simp only [xmaxErc721Transferfrom, bind_eq_ok, unpackAs_eq_ok, requireAuthorization_eq_ok,
    dbGet_eq_ok, fcAssert_eq_ok, decide_eq_true_eq] at h
  obtain ⟨t, ht, -, hauth, -, -, -, -, token, -, -, -, -, -, owner, howner, -, hsource, h⟩ := h
  split_ifs at h with htaken
  cases h
  exact ⟨t, _, ht, hauth, hsource ▸ howner, by simpa using htaken, rfl⟩

theorem xmaxErc721Revoke_ok (h : xmaxErc721Revoke env ctx s = .ok r) :
    ∃ name tok, env.codec.revokeerc721 ctx.msg.data = some name ∧
      s.ledger.erc721s.find? name = some tok ∧ tok.revoked = 0 ∧
      r = ⟨{ s.ledger with erc721s := s.ledger.erc721s.modify name fun t => { t with revoked := 1 } },
        s.notified⟩ := by
  simp only [xmaxErc721Revoke, validateTokenNotRevoke, bind_eq_ok, unpackAs_eq_ok, dbGet_eq_ok,
    fcAssert_eq_ok, decide_eq_true_eq] at h
  obtain ⟨name, hname, tok, htok, -, hzero, h⟩ := h
  cases h
  exact ⟨name, tok, hname, htok, hzero, rfl⟩

theorem installContract_ok {l l' : Ledger} {name : AccountName} {code codeAbi : Bytes}
    (h : installContract env ctx l name code codeAbi = .ok l') :
    l' = { l with accounts := l'.accounts, records := l'.records } := by
  simp only [installContract, bind_eq_ok] at h
  obtain ⟨-, -, _, -, h⟩ := h
  split at h
  · cases h
    rfl
  · cases h

theorem xmaxSystemAddcontract_ok (h : xmaxSystemAddcontract env ctx s = .ok r) :
    r = ⟨{ s.ledger with accounts := r.ledger.accounts, records := r.ledger.records }, s.notified⟩ := by
  simp only [xmaxSystemAddcontract, bind_eq_ok] at h
  obtain ⟨_, -, -, -, l₁, h₁, l₂, h₂, h⟩ := h
  cases h
  rw [installContract_ok h₂, xmaxNewAccount_ok h₁]

theorem xmaxSystemSetjscode_ok (h : xmaxSystemSetjscode env ctx s = .ok r) :
    r = ⟨{ s.ledger with accounts := r.ledger.accounts, records := r.ledger.records }, s.notified⟩ := by
  simp only [xmaxSystemSetjscode, bind_eq_ok] at h
  obtain ⟨_, -, -, -, -, -, -, -, l, hl, h⟩ := h
  cases h
  rw [installContract_ok hl]

theorem xmaxSystemUnlock_ok (h : xmaxSystemUnlock env ctx s = .ok r) :
    ∃ t resource, env.codec.unlock ctx.msg.data = some t ∧ t.account ∈ ctx.authorized ∧ 0 ≤ t.amount ∧
      s.ledger.resources.find? t.account = some resource ∧ t.amount ≤ resource.lockedToken ∧
      decreaseVotes ctx { s.ledger with resources := s.ledger.resources.modify t.account fun r =>
        { lockedToken := r.lockedToken - t.amount.toNat
          unlockedToken := r.unlockedToken + t.amount.toNat
          lastUnlockedTime := ctx.currentTime } } t.account t.amount.toNat = .ok r.ledger ∧
      r.notified = s.notified := by
  simp only [xmaxSystemUnlock, bind_eq_ok, unpackAs_eq_ok, fcAssert_eq_ok, dbGet_eq_ok,
    requireAuthorization_eq_ok, decide_eq_true_eq] at h
  obtain ⟨t, ht, -, hauth, -, hpos, resource, hres, -, hle, l, hl, h⟩ := h
  cases h
  exact ⟨t, resource, ht, hauth, hpos, hres, hle, hl, rfl⟩

/-- The handlers of the `erc20` contracts write the tables of these alone. -/
theorem erc20Handler_rest {type : FuncName} {f : LedgerHandler}
    (found : ledgerHandler env .erc20 type = some f) (ran : f ctx s = .ok r) :
    r.ledger = { s.ledger with
      erc20s := r.ledger.erc20s
      erc20Accounts := r.ledger.erc20Accounts } := by
  cases type <;> simp only [ledgerHandler, reduceCtorEq] at found <;> cases found
  case mint.refl =>
    obtain ⟨_, _, _, _, _, -, -, -, -, -, rfl⟩ := xmaxErc20Mint_ok ran
    rfl
  case stopmint.refl =>
    obtain ⟨_, _, rfl⟩ := xmaxErc20Stopmint_ok ran
    rfl
  case revoke.refl =>
    obtain ⟨_, _, -, -, -, rfl⟩ := xmaxErc20Revoke_ok ran
    rfl
  case transferfrom.refl =>
    obtain ⟨_, _, _, _, _, _, -, -, -, -, -, -, -, -, -, -, rfl⟩ := xmaxErc20Transferfrom_ok ran
    rfl

/-- The handlers of the `erc721` contracts write the tables of these alone. -/
theorem erc721Handler_rest {type : FuncName} {f : LedgerHandler}
    (found : ledgerHandler env .erc721 type = some f) (ran : f ctx s = .ok r) :
    r.ledger = { s.ledger with
      erc721s := r.ledger.erc721s
      erc721Accounts := r.ledger.erc721Accounts } := by
  cases type <;> simp only [ledgerHandler, reduceCtorEq] at found <;> cases found
  case mint.refl =>
    obtain ⟨_, _, _, _, -, -, -, -, rfl⟩ := xmaxErc721Mint_ok ran
    rfl
  case stopmint.refl =>
    obtain ⟨_, _, rfl⟩ := xmaxErc721Stopmint_ok ran
    rfl
  case transferfrom.refl =>
    obtain ⟨_, _, -, -, -, -, rfl⟩ := xmaxErc721Transferfrom_ok ran
    rfl
  case revoke.refl =>
    obtain ⟨_, _, -, -, -, rfl⟩ := xmaxErc721Revoke_ok ran
    rfl

/-- The tables of the token contracts stay as they are. -/
structure SameTokens (l l' : Ledger) : Prop where
  erc20s : l'.erc20s = l.erc20s
  erc20Accounts : l'.erc20Accounts = l.erc20Accounts
  erc721s : l'.erc721s = l.erc721s
  erc721Accounts : l'.erc721Accounts = l.erc721Accounts

theorem SameTokens.of_votes {l l' : Ledger} (h : VotesOnly l l') : SameTokens l l' := by
  have hrest := h.rest
  rw [hrest]
  exact ⟨rfl, rfl, rfl, rfl⟩

theorem addaccountTokens_sameTokens {create : Types.AddAccount} {l l' : Ledger}
    (h : addaccountTokens ctx create l = .ok l') : SameTokens l l' := by
  simp only [addaccountTokens, xmaxNewAccount, bind_eq_ok] at h
  obtain ⟨-, -, -, -, -, -, l₁, ⟨accounts, -, h₁⟩, b, -, -, -, tokens, -, h⟩ := h
  cases h₁
  cases h
  exact ⟨rfl, rfl, rfl, rfl⟩

/-- The system contract issues tokens but has no hand in those issued. -/
theorem systemHandler_sameTokens {type : FuncName} {h : LedgerHandler}
    (found : ledgerHandler env .system type = some h) (h20 : type ≠ .adderc20)
    (h721 : type ≠ .adderc721) (ran : h ctx s = .ok r) : SameTokens s.ledger r.ledger := by
  cases type <;> simp only [ledgerHandler, reduceCtorEq] at found <;> cases found
  case adderc20 => exact absurd rfl h20
  case adderc721 => exact absurd rfl h721
  case addcontract =>
    rw [xmaxSystemAddcontract_ok ran]
    exact ⟨rfl, rfl, rfl, rfl⟩
  case setcode =>
    rw [xmaxSystemSetjscode_ok ran]
    exact ⟨rfl, rfl, rfl, rfl⟩
  case transfer =>
    obtain ⟨_, _, -, -, -, -, -, rfl⟩ := xmaxSystemTransfer_ok ran
    exact ⟨rfl, rfl, rfl, rfl⟩
  case lock =>
    obtain ⟨_, _, -, -, -, -, -, -, hvotes, -⟩ := xmaxSystemLock_ok ran
    obtain ⟨h₁, h₂, h₃, h₄⟩ := SameTokens.of_votes (increaseVotes_ok hvotes).1
    exact ⟨h₁, h₂, h₃, h₄⟩
  case unlock =>
    obtain ⟨_, _, -, -, -, -, -, hvotes, -⟩ := xmaxSystemUnlock_ok ran
    obtain ⟨h₁, h₂, h₃, h₄⟩ := SameTokens.of_votes (decreaseVotes_ok hvotes).1
    exact ⟨h₁, h₂, h₃, h₄⟩
  case votebuilder =>
    obtain ⟨_, -, ⟨-, -, hsame⟩ | ⟨-, _, hmove⟩⟩ := voteBuilder_ok ran
    · rw [hsame]
      exact ⟨rfl, rfl, rfl, rfl⟩
    · exact .of_votes (moveVotes_ok hmove).1
  case regbuilder =>
    obtain ⟨-, -, -, hrest, -⟩ := regBuilder_ok ran
    rw [hrest]
    exact ⟨rfl, rfl, rfl, rfl⟩
  case unregbuilder =>
    obtain ⟨-, -, -, hrest, -⟩ := unregBuilder_ok ran
    rw [hrest]
    exact ⟨rfl, rfl, rfl, rfl⟩
  case regproxy =>
    obtain ⟨-, -, -, honly, -⟩ := regProxy_ok ran
    exact .of_votes honly
  case unregproxy =>
    obtain ⟨-, -, -, honly, -⟩ := unregProxy_ok ran
    exact .of_votes honly

end Effects

end XmaxChain
