import XmaxChain.BlockPack
import XmaxChain.Lib.Table

/-!
# The ledger

The tables of the block database that the native contracts read and write, and what a handler is
given: the message, the transaction it stands in and the list of accounts to notify.

Native token amounts are natural numbers: the total supply is far below the 63 bits of
`share_type` and no handler takes more from a row than it holds. ERC20 balances are signed 64-bit
and vote counts unsigned 128-bit, both with their wrap-around.
-/

namespace XmaxChain

abbrev AssetSymbol := ℕ

abbrev TokenId := ℕ

def i64 (n : ℤ) : ℤ := n.bmod (2 ^ 64)

def u64 (n : ℕ) : ℕ := n % 2 ^ 64

def u128 (n : ℕ) : ℕ := n % 2 ^ 128

/-- `a - b` on 128 bits. -/
def subU128 (a b : ℕ) : ℕ := u128 (a + (2 ^ 128 - b % 2 ^ 128))

def initialTokenSupply : ℕ := 100000000000000000

inductive AccountType
  | personal | system | contract | erc20 | erc721
deriving DecidableEq, Repr

inductive NativeScope
  | invalid | system | erc20 | erc721
deriving DecidableEq, Repr

def getNativeScope : AccountType → NativeScope
  | .personal => .system
  | .system => .system
  | .erc20 => .erc20
  | .erc721 => .erc721
  | .contract => .invalid

/-! ## What the messages carry -/

namespace Types

structure KeyWeight where
  key : PublicKey
  weight : ℕ
deriving DecidableEq, Repr

structure AccountWeight where
  permission : AccountAuth
  weight : ℕ
deriving DecidableEq, Repr

structure Authority where
  threshold : ℕ
  keys : List KeyWeight
  accounts : List AccountWeight
deriving DecidableEq, Repr

structure Transfer where
  source : AccountName
  dest : AccountName
  amount : ℕ
deriving DecidableEq, Repr

structure Lock where
  source : AccountName
  dest : AccountName
  amount : ℤ
deriving DecidableEq, Repr

structure Unlock where
  account : AccountName
  amount : ℤ
deriving DecidableEq, Repr

structure AddAccount where
  creator : AccountName
  name : AccountName
  owner : Authority
  active : Authority
  deposit : ℤ
deriving DecidableEq, Repr

structure AddContract where
  creator : AccountName
  name : AccountName
  code : Bytes
  codeAbi : Bytes
deriving DecidableEq, Repr

structure AddErc20 where
  creator : AccountName
  tokenName : AssetSymbol
  totalBalance : ℤ
deriving DecidableEq, Repr

structure AddErc721 where
  creator : AccountName
  tokenName : AssetSymbol
deriving DecidableEq, Repr

structure SetCode where
  account : AccountName
  vmType : ℕ
  vmVersion : ℕ
  code : Bytes
  codeAbi : Bytes
deriving DecidableEq, Repr

structure VoteBuilder where
  voter : AccountName
  proxy : AccountName
  builders : List AccountName
deriving DecidableEq, Repr

structure RegBuilder where
  builder : AccountName
  builderKey : PublicKey
deriving DecidableEq, Repr

structure MintErc20 where
  tokenName : AssetSymbol
  mintAmount : ℤ
deriving DecidableEq, Repr

structure TransferFromErc20 where
  tokenName : AssetSymbol
  source : AccountName
  dest : AccountName
  value : ℤ
deriving DecidableEq, Repr

structure MintErc721 where
  tokenName : AssetSymbol
  tokenId : TokenId
deriving DecidableEq, Repr

structure TransferFromErc721 where
  tokenName : AssetSymbol
  tokenId : TokenId
  source : AccountName
  dest : AccountName
deriving DecidableEq, Repr

end Types

/-- `message_xmax::as`: one unpacking function for each type, `none` where it throws. The last two
are the account name a token symbol is written as and the check of an ABI. -/
structure Codec where
  transfer : Bytes → Option Types.Transfer
  lock : Bytes → Option Types.Lock
  unlock : Bytes → Option Types.Unlock
  addaccount : Bytes → Option Types.AddAccount
  addcontract : Bytes → Option Types.AddContract
  adderc20 : Bytes → Option Types.AddErc20
  adderc721 : Bytes → Option Types.AddErc721
  setcode : Bytes → Option Types.SetCode
  votebuilder : Bytes → Option Types.VoteBuilder
  regbuilder : Bytes → Option Types.RegBuilder
  unregbuilder : Bytes → Option AccountName
  regproxy : Bytes → Option AccountName
  unregproxy : Bytes → Option AccountName
  minterc20 : Bytes → Option Types.MintErc20
  stopminterc20 : Bytes → Option AssetSymbol
  revokeerc20 : Bytes → Option AssetSymbol
  transferfromerc20 : Bytes → Option Types.TransferFromErc20
  minterc721 : Bytes → Option Types.MintErc721
  stopminterc721 : Bytes → Option AssetSymbol
  revokeerc721 : Bytes → Option AssetSymbol
  transferfromerc721 : Bytes → Option Types.TransferFromErc721
  /-- The account and the parent authority that an `updateauth` names. -/
  updateauth : Bytes → Option (AccountName × AuthorityName)
  deleteauth : Bytes → Option AccountName
  linkauth : Bytes → Option AccountName
  unlinkauth : Bytes → Option AccountName
  tokenAccount : AssetSymbol → Option AccountName
  validAbi : Bytes → Bool

/-! ## The objects -/

structure AccountContract where
  code : Bytes
  abi : Bytes
deriving DecidableEq, Repr

structure AccountObject where
  type : AccountType
  creationDate : ℕ := 0
  contract : Option AccountContract := none
deriving DecidableEq, Repr

structure ResourceToken where
  lockedToken : ℕ := 0
  unlockedToken : ℕ := 0
  lastUnlockedTime : ℕ := 2 ^ 63 - 1
deriving DecidableEq, Repr

/-- The source does not set `is_proxy` and `unstaking` in a new row; here they are zero. -/
structure VoterInfo where
  proxy : AccountName := 0
  isProxy : ℕ := 0
  proxiedVotes : ℕ := 0
  builders : List AccountName := []
  staked : ℕ := 0
  unstaking : ℕ := 0
  unstakePerWeek : ℕ := 0
  deferredTrxId : ℕ := 0
  lastUpdate : ℕ := 0
deriving DecidableEq, Repr

structure BuilderInfoObject where
  totalVotes : ℕ := 0
  builderKey : PublicKey := 0
deriving DecidableEq, Repr

def BuilderInfoObject.isActived (b : BuilderInfoObject) : Bool := b.builderKey ≠ 0

structure Erc20Token where
  ownerName : AccountName
  totalSupply : ℤ := 0
  decimal : ℤ := 2
  revoked : ℤ := 0
  stopmint : ℤ := 0
deriving DecidableEq, Repr

structure Erc721Token where
  ownerName : AccountName
  revoked : ℤ := 0
  stopmint : ℤ := 0
deriving DecidableEq, Repr

/-- A record a contract has stored. -/
structure KeyValue where
  scope : AccountName
  code : AccountName
  table : AccountName
  primaryKey : ℕ
  value : Bytes
deriving DecidableEq, Repr

structure AuthorityObject where
  id : ℕ
  parent : ℕ
  authoritys : Types.Authority
  lastUpdated : ℕ
deriving DecidableEq, Repr

/-- The tables that the handlers other than `addaccount` write. -/
structure Ledger where
  accounts : Table AccountName AccountObject := .empty
  /-- `main_token` of each owner. -/
  tokens : Table AccountName ℕ := .empty
  resources : Table AccountName ResourceToken := .empty
  voters : Table AccountName VoterInfo := .empty
  builders : Table AccountName BuilderInfoObject := .empty
  erc20s : Table AssetSymbol Erc20Token := .empty
  /-- `balance` of each token and owner. -/
  erc20Accounts : Table (AssetSymbol × AccountName) ℤ := .empty
  erc721s : Table AssetSymbol Erc721Token := .empty
  /-- `token_owner` of each minted token. -/
  erc721Accounts : Table (AssetSymbol × TokenId) AccountName := .empty
  records : List KeyValue := []
  msgCounter : ℕ := 0
deriving DecidableEq

/-- The ledger with the authorities and the permissions linked to functions. -/
structure AuthDb extends Ledger where
  authorities : Table (AccountName × AuthorityName) AuthorityObject := .empty
  nextAuthority : ℕ := 0
  links : Table (AccountName × AccountName × FuncName) AuthorityName := .empty
deriving DecidableEq

def mainToken (l : Ledger) (a : AccountName) : ℕ := (l.tokens.find? a).getD 0

def lockedToken (l : Ledger) (a : AccountName) : ℕ := ((l.resources.find? a).map (·.lockedToken)).getD 0

/-! ## Reading and writing a row -/

/-- `database::get`. -/
def dbGet {K V : Type} [DecidableEq K] (t : Table K V) (k : K) : Except Fault V :=
  match t.find? k with
  | some v => .ok v
  | none => .error (.std "unknown key")

/-- `database::create`. -/
def dbCreate {K V : Type} [DecidableEq K] (t : Table K V) (k : K) (v : V) :
    Except Fault (Table K V) :=
  match t.create? k v with
  | some t' => .ok t'
  | none => .error (.std "could not insert object, most likely a uniqueness constraint was violated")

/-- Reading through a pointer that `find` returned. -/
def dbDeref {K V : Type} [DecidableEq K] (t : Table K V) (k : K) : Except Fault V :=
  match t.find? k with
  | some v => .ok v
  | none => .error (.undefined "null object")

@[simp] theorem dbGet_eq_ok {K V : Type} [DecidableEq K] {t : Table K V} {k : K} {v : V} :
    dbGet t k = .ok v ↔ t.find? k = some v := by
  unfold dbGet; split <;> simp_all

@[simp] theorem dbDeref_eq_ok {K V : Type} [DecidableEq K] {t : Table K V} {k : K} {v : V} :
    dbDeref t k = .ok v ↔ t.find? k = some v := by
  unfold dbDeref; split <;> simp_all

@[simp] theorem dbCreate_eq_ok {K V : Type} [DecidableEq K] {t t' : Table K V} {k : K} {v : V} :
    dbCreate t k v = .ok t' ↔ t.create? k v = some t' := by
  unfold dbCreate; split <;> simp_all

/-! ## The message context -/

def Message.authorized (m : Message) : List AccountName := m.authorization.map (·.account)

/-- What a handler reads: the transaction and its message, the account it runs for, and the time
of the head block. -/
structure MessageContext where
  trx : SignedTransaction
  msg : Message
  code : AccountName
  currentTime : ℕ

abbrev MessageContext.authorized (ctx : MessageContext) : List AccountName := ctx.msg.authorized

/-- What a handler writes. -/
structure HandlerState where
  ledger : Ledger
  notified : List AccountName

def requireAuthorization (ctx : MessageContext) (account : AccountName) : Except Fault Unit :=
  fcAssert (account ∈ ctx.authorized) "Transaction is missing required authorization"

def requireScope (ctx : MessageContext) (account : AccountName) : Except Fault Unit :=
  fcAssert (account ∈ ctx.trx.scope) "missing scope"

/-- The account the message is sent to is never added, and no account twice. -/
def requireRecipient (ctx : MessageContext) (account : AccountName) (notified : List AccountName) :
    List AccountName :=
  if account = ctx.msg.code ∨ account ∈ notified then notified else notified ++ [account]

def unpackAs {α : Type} (o : Option α) : Except Fault α :=
  match o with
  | some a => .ok a
  | none => .error (.fc "read datastream failed")

@[simp] theorem unpackAs_eq_ok {α : Type} {o : Option α} {a : α} :
    unpackAs o = .ok a ↔ o = some a := by
  cases o <;> simp [unpackAs]

@[simp] theorem requireAuthorization_eq_ok {ctx : MessageContext} {account : AccountName}
    {u : Unit} : requireAuthorization ctx account = .ok u ↔ account ∈ ctx.authorized := by
  simp [requireAuthorization]

@[simp] theorem requireScope_eq_ok {ctx : MessageContext} {account : AccountName} {u : Unit} :
    requireScope ctx account = .ok u ↔ account ∈ ctx.trx.scope := by
  simp [requireScope]

/-- `FC_CAPTURE_AND_RETHROW`: what is thrown on is an exception of `fc`. -/
def captureRethrow {α : Type} (x : Except Fault α) : Except Fault α :=
  match x with
  | .error (.std msg) => .error (.fc msg)
  | r => r

@[simp] theorem captureRethrow_eq_ok {α : Type} {x : Except Fault α} {a : α} :
    captureRethrow x = .ok a ↔ x = .ok a := by
  unfold captureRethrow; split <;> simp_all

end XmaxChain
