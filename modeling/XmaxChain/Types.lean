import Mathlib.Algebra.GroupWithZero.Nat
import Mathlib.Algebra.Order.Group.Nat
import Mathlib.Data.List.Basic
import Mathlib.Logic.Encodable.Basic
import Mathlib.Logic.Equiv.List
import Mathlib.Tactic.DeriveEncodable

/-!
# Blocks, transactions and their digests

The records that are hashed, signed and sent between builders, with the digests taken of them.
`sha256` and the recovery of a key from a signature belong to the crypto library and are
parameters; what is hashed is not the packed bytes but the value packed.
-/

namespace XmaxChain

/-- Block numbers, time stamps and slots are 32-bit. The unsigned numbers of `Basetypes` are of boost and
wrap as native ones do; only where one becomes an `int` it is cut off at the greatest. -/
def u32 (n : ℕ) : ℕ := n % 2 ^ 32

theorem u32_of_lt {n : ℕ} (h : n < 2 ^ 32) : u32 n = n := Nat.mod_eq_of_lt h

theorem u32_lt (n : ℕ) : u32 n < 2 ^ 32 := Nat.mod_lt _ (by decide)

/-- A name is the 128-bit code of its letters; the empty name is zero. -/
abbrev AccountName := ℕ

abbrev AuthorityName := ℕ

/-- The code of a name whose letters have the codes `cs`: six bits each from the top, 'a' being 1
and '.' being 37. -/
def nameOfCodes (cs : List ℕ) : ℕ := (cs.zipIdx.map fun c => c.1 * 2 ^ (122 - 6 * c.2)).sum

def xmaxContractName : AccountName := nameOfCodes [24, 13, 1, 24]

def xmaxOwnerName : AuthorityName := nameOfCodes [15, 23, 14, 5, 18]

def xmaxActiveName : AuthorityName := nameOfCodes [1, 3, 20, 9, 22, 5]

def xmaxSysanyName : AuthorityName := nameOfCodes [19, 25, 19, 37, 1, 14, 25]

abbrev PublicKey := ℕ

abbrev Signature := ℕ

abbrev Bytes := List ℕ

/-- A string as `strcmp` sees it, which stops at the first zero. -/
def cString (s : Bytes) : Bytes := s.takeWhile (· ≠ 0)

theorem cString_cons {x : ℕ} {a : Bytes} :
    cString (x :: a) = if x = 0 then [] else x :: cString a := by
  by_cases hx : x = 0 <;> simp [cString, hx]

theorem cString_of_notMem {a : Bytes} (h : 0 ∉ a) : cString a = a := by
  induction a with
  | nil => rfl
  | cons x a ih =>
    rw [List.mem_cons, not_or] at h
    rw [cString_cons, if_neg (Ne.symm h.1), ih h.2]

theorem notMem_cString {a : Bytes} : 0 ∉ cString a := by
  induction a with
  | nil => simp [cString]
  | cons x a ih =>
    rw [cString_cons]
    split_ifs with hx
    · simp
    · simp [ih, Ne.symm hx]

/-- A summary is 32 bytes: the first four, big-endian, and the rest. Summaries compare as
memory does, so by the first four bytes first. -/
structure Summary where
  num : ℕ
  rest : ℕ
deriving DecidableEq, Repr, Encodable

instance : Inhabited Summary := ⟨⟨0, 0⟩⟩

/-- The id before genesis. -/
def emptyChainId : Summary := ⟨0, 0⟩

def Summary.ble (a b : Summary) : Bool :=
  a.num < b.num || (a.num == b.num && a.rest ≤ b.rest)

/-- The functions the native contracts name; any other name is only a code, and the empty name is
`other 0`. -/
inductive FuncName
  | addaccount | addcontract | adderc20 | adderc721 | transfer | lock | unlock
  | votebuilder | regbuilder | unregbuilder | regproxy | unregproxy | setcode
  | mint | stopmint | revoke | transferfrom
  | updateauth | deleteauth | linkauth | unlinkauth
  | other (code : ℕ)
deriving DecidableEq, Repr, Encodable

structure AccountAuth where
  account : AccountName
  authority : AuthorityName
deriving DecidableEq, Repr, Encodable

structure Message where
  code : AccountName
  type : FuncName
  authorization : List AccountAuth
  data : Bytes
deriving DecidableEq, Repr, Encodable

structure Transaction where
  refBlockNum : ℕ := 0
  refBlockPrefix : ℕ := 0
  expiration : ℕ := 0
  scope : List AccountName := []
  readScope : List AccountName := []
  messages : List Message := []
  gasPayer : AccountName := 0
  gas : ℕ := 0
  gaslimit : ℕ := 0
deriving DecidableEq, Repr, Encodable

structure SignedTransaction extends Transaction where
  signatures : List Signature := []
deriving DecidableEq, Repr

inductive PackageCode
  | empty | original | zlib
deriving DecidableEq, Repr, Encodable

structure TransactionPackage where
  code : PackageCode
  body : SignedTransaction
deriving DecidableEq, Repr

inductive ResultCode
  | applied | failure
deriving DecidableEq, Repr, Encodable

/-- What a receipt carries: only the id of a transaction, or the whole package. -/
inductive ReceiptTrx
  | id (id : Summary)
  | package (package : TransactionPackage)
deriving DecidableEq, Repr

structure TransactionReceipt where
  receiptIdx : ℕ
  result : ResultCode
  trx : ReceiptTrx
deriving DecidableEq, Repr

structure BuilderInfo where
  builderName : AccountName := 0
  blockSigningKey : PublicKey := 0
deriving DecidableEq, Repr, Encodable

structure BuilderRule where
  version : ℕ := 0
  builders : List BuilderInfo := []
deriving DecidableEq, Repr, Encodable

def BuilderRule.number (r : BuilderRule) : ℕ := r.builders.length

def BuilderRule.isEmpty (r : BuilderRule) : Bool := r.builders.isEmpty

/-- The key of an unknown name is the empty key. -/
def BuilderRule.getSignKey (r : BuilderRule) (name : AccountName) : PublicKey :=
  match r.builders.find? (·.builderName = name) with
  | some b => b.blockSigningKey
  | none => 0

structure BlockHeader where
  previous : Summary := emptyChainId
  timestamp : ℕ := 0
  trxsMroot : Summary := default
  builder : AccountName := 0
  nextBuilders : Option BuilderRule := none
deriving DecidableEq, Repr, Encodable

structure SignedBlockHeader extends BlockHeader where
  builderSignature : Signature := 0
deriving DecidableEq, Repr

structure SignedBlock extends SignedBlockHeader where
  receipts : List TransactionReceipt := []
deriving DecidableEq, Repr

structure BlockConfirmation where
  blockId : Summary
  verifier : AccountName
  builderSignature : Signature
deriving DecidableEq, Repr

/-- The values given to `sha256`. A receipt hashes a transaction id and the digest of a package
alike. -/
inductive Preimage
  | pair (a b : Summary)
  | header (h : BlockHeader)
  | transaction (t : Transaction)
  | signing (chainId : Summary) (t : Transaction)
  | package (code : PackageCode) (body : Summary)
  | receipt (idx : ℕ) (result : ResultCode) (trx : Summary)
  | confirmation (blockId : Summary) (verifier : AccountName)
  | message (m : Message)
deriving DecidableEq, Repr, Encodable

/-- The crypto library. `recover` is the key that signed a digest: it is `none` where the library
throws, and `canonical` tells the signatures that the enforcing constructor accepts. -/
structure Crypto where
  sha256 : Preimage → Summary
  recover : Signature → Summary → Option PublicKey
  canonical : Signature → Bool
  sign : ℕ → Summary → Signature

namespace Summary

def numFromId (id : Summary) : ℕ := id.num

/-- The block number replaces the first four bytes of the summary. -/
def blockId (summary : Summary) (num : ℕ) : Summary := ⟨num, summary.rest⟩

end Summary

section Digests

variable (c : Crypto)

def BlockHeader.digest (h : BlockHeader) : Summary := c.sha256 (.header h)

def BlockHeader.blockNum (h : BlockHeader) : ℕ := u32 (h.previous.numFromId + 1)

/-- The id takes in the header without the builder's signature. -/
def BlockHeader.id (h : BlockHeader) : Summary := (h.digest c).blockId h.blockNum

def Transaction.digest (t : Transaction) : Summary := c.sha256 (.transaction t)

def Transaction.sigDigest (chainId : Summary) (t : Transaction) : Summary :=
  c.sha256 (.signing chainId t)

def SignedTransaction.id (t : SignedTransaction) : Summary := t.toTransaction.digest c

def SignedTransaction.merkleDigest (t : SignedTransaction) : Summary := t.toTransaction.digest c

def TransactionPackage.calDigest (p : TransactionPackage) : Summary :=
  c.sha256 (.package p.code (p.body.merkleDigest c))

def TransactionReceipt.calDigest (r : TransactionReceipt) : Summary :=
  match r.trx with
  | .id id => c.sha256 (.receipt r.receiptIdx r.result id)
  | .package p => c.sha256 (.receipt r.receiptIdx r.result (p.calDigest c))

def BlockConfirmation.digest (conf : BlockConfirmation) : Summary :=
  c.sha256 (.confirmation conf.blockId conf.verifier)

/-- `public_key(sig, digest, true)`: a signature that is not canonical or recovers no key throws. -/
def Crypto.signerKey (sig : Signature) (digest : Summary) : Option PublicKey :=
  if c.canonical sig then c.recover sig digest else none

end Digests

@[simp] theorem BlockHeader.id_num (c : Crypto) (h : BlockHeader) : (h.id c).num = h.blockNum := rfl

end XmaxChain
