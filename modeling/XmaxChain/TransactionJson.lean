import XmaxChain.AbiLoad
import XmaxChain.AbiPacked
import XmaxChain.KeyTexts
import XmaxChain.LongNames
import XmaxChain.Spending

/-!
# Transactions from JSON

A client sends a transaction as an object, with the data of each message in hexadecimal or as the object
that the ABI of the contract unpacks them to. The fields of the object are taken one by one, and four
of those that a transaction has are not among them.
-/

namespace XmaxChain

open AbiSerializer

/-- `fc::to_variant` and `fc::from_variant` of a type; `none` is a throw. -/
structure Conversion (α : Type) where
  toVariant : α → Variant
  fromVariant : Variant → Option α

def Conversion.RoundTripsAt {α : Type} (c : Conversion α) (a : α) : Prop :=
  c.fromVariant (c.toVariant a) = some a

structure FieldConversions where
  uint16 : Conversion ℕ
  uint32 : Conversion ℕ
  uint64 : Conversion ℕ
  time : Conversion ℕ
  name : Conversion AccountName
  funcName : Conversion FuncName
  names : Conversion (List AccountName)
  auths : Conversion (List AccountAuth)
  signatures : Conversion (List Signature)
  toHex : Bytes → Bytes
  fromHex : Bytes → Option Bytes

namespace FieldConversions

variable (conv : FieldConversions)

structure MessageRoundTrips (m : Message) : Prop where
  code : conv.name.RoundTripsAt m.code
  type : conv.funcName.RoundTripsAt m.type
  authorization : conv.auths.RoundTripsAt m.authorization
  data : conv.fromHex (conv.toHex m.data) = some m.data

/-- The fields that are read come back from their variants. -/
structure RoundTrips (t : SignedTransaction) : Prop where
  refBlockNum : conv.uint16.RoundTripsAt t.refBlockNum
  refBlockPrefix : conv.uint32.RoundTripsAt t.refBlockPrefix
  expiration : conv.time.RoundTripsAt t.expiration
  scope : conv.names.RoundTripsAt t.scope
  signatures : conv.signatures.RoundTripsAt t.signatures
  messages : ∀ m ∈ t.messages, conv.MessageRoundTrips m

end FieldConversions

def fieldKey (name : String) : Bytes := name.toList.map Char.toNat

/-- The letters and digits of a name. -/
def codeOfName (name : String) : AccountName :=
  nameOfCodes (name.toList.map fun c => if c.isDigit then c.toNat - 21 else c.toNat - 96)

def FuncName.code : FuncName → AccountName
  | .addaccount => codeOfName "addaccount"
  | .addcontract => codeOfName "addcontract"
  | .adderc20 => codeOfName "adderc20"
  | .adderc721 => codeOfName "adderc721"
  | .transfer => codeOfName "transfer"
  | .lock => codeOfName "lock"
  | .unlock => codeOfName "unlock"
  | .votebuilder => codeOfName "votebuilder"
  | .regbuilder => codeOfName "regbuilder"
  | .unregbuilder => codeOfName "unregbuilder"
  | .regproxy => codeOfName "regproxy"
  | .unregproxy => codeOfName "unregproxy"
  | .setcode => codeOfName "setcode"
  | .mint => codeOfName "mint"
  | .stopmint => codeOfName "stopmint"
  | .revoke => codeOfName "revoke"
  | .transferfrom => codeOfName "transferfrom"
  | .updateauth => codeOfName "updateauth"
  | .deleteauth => codeOfName "deleteauth"
  | .linkauth => codeOfName "linkauth"
  | .unlinkauth => codeOfName "unlinkauth"
  | .other code => code

/-- What `chain_xmax` has for the data of messages, and the library functions that it calls. -/
structure AbiHandlers where
  db : Ledger
  abiHandlers : NativeScope → Option Abi
  unpackAbi : Bytes → Option Abi
  codecs : TypeName → BuiltInCodec
  asBytes : Variant → Option Bytes
  conv : FieldConversions

namespace AbiHandlers

variable (chain : AbiHandlers)

/-- An account that is not there throws. A contract without an ABI has no more than four bytes of
one. -/
def findAccountAbi (code : AccountName) : Option (Option Abi) := do
  let account ← chain.db.accounts.find? code
  match chain.abiHandlers (getNativeScope account.type) with
  | some sysabi => pure (some sysabi)
  | none =>
    match account.contract with
    | some contract => if contract.abi.length ≤ 4 then pure none else (chain.unpackAbi contract.abi).map some
    | none => pure none

def messageToBinary (fuel : ℕ) (code : AccountName) (type : FuncName) (obj : Variant) : Option Bytes := do
  match ← chain.findAccountAbi code with
  | some abi => do
    let abis ← AbiSerializer.setAbi chain.codecs chain.asBytes fuel abi
    abis.variantToBinary fuel ((abis.actions.find? type.code).getD .empty) obj
  | none => pure []

/-- Bytes that are left over are not looked at, and without an ABI there is no object. -/
def messageFromBinary (fuel : ℕ) (code : AccountName) (type : FuncName) (bin : Bytes) : Option Variant := do
  match ← chain.findAccountAbi code with
  | some abi => do
    let abis ← AbiSerializer.setAbi chain.codecs chain.asBytes fuel abi
    let (obj, _) ← abis.binaryToVariant fuel ((abis.actions.find? type.code).getD .empty) bin
    pure obj
  | none => pure .null

/-- The serializer of the ABI of the contract, and the type that it has for the data of the message. -/
def SerializedBy (m : Message) (s : AbiSerializer) (type : TypeName) : Prop :=
  ∃ abi, chain.findAccountAbi m.code = some (some abi) ∧
    (∃ fuel, AbiSerializer.setAbi chain.codecs chain.asBytes fuel abi = some s) ∧
    type = (s.actions.find? m.type.code).getD .empty

end AbiHandlers

section Parse

variable (chain : AbiHandlers)

/-- `GET_FIELD`: a field that is not in the object stays as it is. -/
def getField {α : Type} (vo : List (Bytes × Variant)) (field : String) (conv : Conversion α) (old : α) :
    Option α :=
  match vo.lookup (fieldKey field) with
  | some v => conv.fromVariant v
  | none => some old

def parseData (fuel : ℕ) (code : AccountName) (type : FuncName) (old : Bytes) : Option Variant → Option Bytes
  | some (.string s) => chain.conv.fromHex s
  | some (.object entries) => chain.messageToBinary fuel code type (.object entries)
  | _ => some old

def parseMessage (fuel : ℕ) (result : Message) (v : Variant) : Option Message := do
  let vo ← v.getObject
  let code ← getField vo "code" chain.conv.name result.code
  let type ← getField vo "type" chain.conv.funcName result.type
  let authorization ← getField vo "authorization" chain.conv.auths result.authorization
  let data ← parseData chain fuel code type result.data (vo.lookup (fieldKey "data"))
  pure { code, type, authorization, data }

/-- A message that was not filled in. -/
def emptyMessage : Message := { code := 0, type := .other 0, authorization := [], data := [] }

def parseMessages (fuel : ℕ) (result : List Message) (vo : List (Bytes × Variant)) :
    Option (List Message) :=
  match vo.lookup (fieldKey "messages") with
  | some v => do
    let msgs ← v.getArray
    msgs.zipIdx.mapM fun msg => parseMessage chain fuel (result.getD msg.2 emptyMessage) msg.1
  | none => some result

def parseTransaction (fuel : ℕ) (result : SignedTransaction) (v : Variant) : Option SignedTransaction := do
  let vo ← v.getObject
  let refBlockNum ← getField vo "ref_block_num" chain.conv.uint16 result.refBlockNum
  let refBlockPrefix ← getField vo "ref_block_prefix" chain.conv.uint32 result.refBlockPrefix
  let expiration ← getField vo "expiration" chain.conv.time result.expiration
  let scope ← getField vo "scope" chain.conv.names result.scope
  let signatures ← getField vo "signatures" chain.conv.signatures result.signatures
  let messages ← parseMessages chain fuel result.messages vo
  pure { result with refBlockNum, refBlockPrefix, expiration, scope, signatures, messages }

def transactionFromVariant (fuel : ℕ) (v : Variant) : Option TransactionPackage := do
  let result ← parseTransaction chain fuel {} v
  pure { code := .original, body := result }

/-- The transaction is read as this package, with as much fuel as it takes. -/
def ReadAs (v : Variant) (package : TransactionPackage) : Prop :=
  ∃ n, ∀ fuel ≥ n, transactionFromVariant chain fuel v = some package

/-! ## The JSON form -/

variable (conv : FieldConversions)

def messageToVariant (m : Message) (data : Variant) : Variant :=
  .object [(fieldKey "code", conv.name.toVariant m.code), (fieldKey "type", conv.funcName.toVariant m.type),
    (fieldKey "authorization", conv.auths.toVariant m.authorization), (fieldKey "data", data)]

/-- Every reflected field, with the data of the messages as given. -/
def transactionToVariant (t : SignedTransaction) (datas : List Variant) : Variant :=
  .object [(fieldKey "ref_block_num", conv.uint16.toVariant t.refBlockNum),
    (fieldKey "ref_block_prefix", conv.uint32.toVariant t.refBlockPrefix),
    (fieldKey "expiration", conv.time.toVariant t.expiration),
    (fieldKey "scope", conv.names.toVariant t.scope),
    (fieldKey "read_scope", conv.names.toVariant t.readScope),
    (fieldKey "messages", .array (t.messages.zipWith (messageToVariant conv) datas)),
    (fieldKey "gas_payer", conv.name.toVariant t.gasPayer), (fieldKey "gas", conv.uint64.toVariant t.gas),
    (fieldKey "gaslimit", conv.uint64.toVariant t.gaslimit),
    (fieldKey "signatures", conv.signatures.toVariant t.signatures)]

/-- The data of a message in a JSON form: in hexadecimal, or as the object that they are unpacked to. -/
def GivenAs (m : Message) (data : Variant) : Prop :=
  data = .string (chain.conv.toHex m.data) ∨
    ∃ entries, data = .object entries ∧ ∃ fuel, chain.messageFromBinary fuel m.code m.type m.data = some data

/-- A condition on a message whose data are given as an object. -/
def WhenObject (P : Message → Prop) (m : Message) (data : Variant) : Prop :=
  ∀ entries, data = .object entries → P m

/-- The structs of the ABI that the data go through are plain. -/
def PlainAbi (m : Message) : Prop := ∀ s type, chain.SerializedBy m s type → s.PlainWithin type

/-- The data are what packing gives: the ABI knows their type, every number of elements is in its shortest
form and every value of a built-in type as its library packs one, nothing follows, and a buffer of one MiB
holds them. -/
def PackedData (m : Message) : Prop :=
  ∃ s type, chain.SerializedBy m s type ∧ (∃ n, s.isType n type = some true) ∧ s.Packed type m.data ∧
    m.data.length ≤ 1024 * 1024

/-- The fields that are not read have the values of a new transaction. -/
structure UnreadFieldsEmpty (t : SignedTransaction) : Prop where
  readScope : t.readScope = []
  gasPayer : t.gasPayer = 0
  gas : t.gas = 0
  gaslimit : t.gaslimit = 0

variable {chain conv}

theorem fieldKey_inj {a b : String} : fieldKey a = fieldKey b ↔ a = b := by
  have hchar : Function.Injective Char.toNat := fun c d h => Char.toNat_inj.1 h
  rw [fieldKey, fieldKey, (List.map_injective_iff.2 hchar).eq_iff, String.toList_inj]

theorem lookup_fieldKey (a b : String) (v : Variant) (vo : List (Bytes × Variant)) :
    ((fieldKey a, v) :: vo).lookup (fieldKey b) = if b = a then some v else vo.lookup (fieldKey b) := by
  by_cases h : b = a
  · simp [h]
  · rw [List.lookup_cons, beq_false_of_ne (fieldKey_inj.not.2 h), if_neg h]

theorem getField_of_lookup {α : Type} {c : Conversion α} {a : α} (hc : c.RoundTripsAt a)
    {vo : List (Bytes × Variant)} {field : String} (h : vo.lookup (fieldKey field) = some (c.toVariant a)) (old : α) :
    getField vo field c old = some a := by
  rw [getField, h]
  exact hc

theorem parseMessage_messageToVariant {m : Message} (hconv : chain.conv.MessageRoundTrips m) (fuel : ℕ)
    (old : Message) (data : Variant) :
    parseMessage chain fuel old (messageToVariant chain.conv m data) =
      (parseData chain fuel m.code m.type old.data (some data)).map fun d => { m with data := d } := by
  rw [parseMessage, messageToVariant]
  simp only [Variant.getObject, Option.bind_eq_bind, Option.bind_some]
  rw [getField_of_lookup hconv.code (by simp), Option.bind_some,
    getField_of_lookup hconv.type (by simp [lookup_fieldKey]), Option.bind_some,
    getField_of_lookup hconv.authorization (by simp [lookup_fieldKey]), Option.bind_some]
  rw [show List.lookup (fieldKey "data") _ = some data by simp [lookup_fieldKey], Option.map_eq_bind]
  rfl

theorem AbiHandlers.SerializedBy.unique {m : Message} {s s' : AbiSerializer} {type type' : TypeName}
    (h : chain.SerializedBy m s type) (h' : chain.SerializedBy m s' type') : s' = s ∧ type' = type := by
  obtain ⟨abi, habi, ⟨i, hi⟩, rfl⟩ := h
  obtain ⟨abi', habi', ⟨j, hj⟩, rfl⟩ := h'
  obtain rfl : abi' = abi := by simpa [habi] using habi'.symm
  obtain rfl : s' = s := Option.some.inj
    ((setAbi_mono (le_max_right i j) hj).symm.trans (setAbi_mono (le_max_left i j) hi))
  exact ⟨rfl, rfl⟩

/-- The ABI of a contract that unpacks the data to an object. -/
theorem serializedBy_of_messageFromBinary {m : Message} {entries : List (Bytes × Variant)} {fuel : ℕ}
    (h : chain.messageFromBinary fuel m.code m.type m.data = some (.object entries)) :
    ∃ s type rest, chain.SerializedBy m s type ∧ s.Unpacks type m.data (.object entries) rest := by
  obtain ⟨found, hfound, h⟩ := Option.bind_eq_some_iff.1 h
  rcases found with _ | abi
  · cases h
  · obtain ⟨s, hs, h⟩ := Option.bind_eq_some_iff.1 h
    obtain ⟨⟨obj, rest⟩, hunpack, h⟩ := Option.bind_eq_some_iff.1 h
    cases h
    exact ⟨s, _, rest, ⟨abi, hfound, ⟨fuel, hs⟩, rfl⟩, fuel, hunpack⟩

theorem messageToBinary_iff {m : Message} {s : AbiSerializer} {type : TypeName}
    (h : chain.SerializedBy m s type) {obj : Variant} {data : Bytes} :
    (∃ n, ∀ fuel ≥ n, chain.messageToBinary fuel m.code m.type obj = some data) ↔
      ∃ n, ∀ fuel ≥ n, s.variantToBinary fuel type obj = some data := by
  obtain ⟨abi, habi, ⟨k, hk⟩, rfl⟩ := h
  have hstep : ∀ fuel ≥ k, chain.messageToBinary fuel m.code m.type obj =
      s.variantToBinary fuel ((s.actions.find? m.type.code).getD .empty) obj := fun fuel hfuel => by
    rw [AbiHandlers.messageToBinary, habi]
    simp only [Option.bind_eq_bind, Option.bind_some, setAbi_mono hfuel hk]
  constructor
  · rintro ⟨n, hn⟩
    refine ⟨max n k, fun fuel hfuel => ?_⟩
    rw [← hstep fuel (by omega)]
    exact hn fuel (by omega)
  · rintro ⟨n, hn⟩
    refine ⟨max n k, fun fuel hfuel => ?_⟩
    rw [hstep fuel (by omega)]
    exact hn fuel (by omega)

section Read

variable (hcodecs : LosslessCodecs chain.codecs) (hcast : ∀ entries, chain.asBytes (.object entries) = none)

include hcodecs hcast

theorem parseData_givenAs {m : Message} (hconv : chain.conv.MessageRoundTrips m) {data : Variant}
    (h : GivenAs chain m data) (hplain : WhenObject (PlainAbi chain) m data) (old : Bytes) :
    (∃ n, ∀ fuel ≥ n, parseData chain fuel m.code m.type old (some data) = some m.data) ↔
      WhenObject (PackedData chain) m data := by
  rcases h with rfl | ⟨entries, rfl, fuel, hfuel⟩
  · refine iff_of_true ⟨0, fun fuel _ => hconv.data⟩ fun entries h => ?_
    cases h
  · obtain ⟨s, type, rest, hs, hunpack⟩ := serializedBy_of_messageFromBinary hfuel
    obtain ⟨hcodec, hbytes⟩ : s.codecs = chain.codecs ∧ s.asBytes = chain.asBytes := by
      obtain ⟨abi, -, ⟨k, hk⟩, -⟩ := hs
      exact setAbi_libraries hk
    have hdata := variantToBinary_iff (hplain entries rfl s type hs) (hcodec ▸ hcodecs)
      (hbytes ▸ hcast entries) hunpack
    refine ((messageToBinary_iff hs).trans hdata).trans ⟨fun h _ _ => ⟨s, type, hs, h⟩, fun h => ?_⟩
    obtain ⟨s', type', hs', h⟩ := h entries rfl
    obtain ⟨rfl, rfl⟩ := hs.unique hs'
    exact h

/-- All messages are read as they were, when each of them is. -/
theorem parseMessages_iff {ms : List Message} (hconv : ∀ m ∈ ms, chain.conv.MessageRoundTrips m)
    {datas : List Variant} (h : List.Forall₂ (GivenAs chain) ms datas)
    (hplain : List.Forall₂ (WhenObject (PlainAbi chain)) ms datas) :
    (∃ n, ∀ fuel ≥ n, (ms.zipWith (messageToVariant chain.conv) datas).mapM
        (parseMessage chain fuel emptyMessage) = some ms) ↔
      List.Forall₂ (WhenObject (PackedData chain)) ms datas := by
  induction h with
  | nil => simp
  | @cons m data ms datas hm hms ih =>
    obtain ⟨hconvm, hconvs⟩ := List.forall_mem_cons.1 hconv
    obtain ⟨hplainm, hplains⟩ := List.forall₂_cons.1 hplain
    rw [List.forall₂_cons, ← ih hconvs hplains,
      ← parseData_givenAs hcodecs hcast hconvm hm hplainm emptyMessage.data]
    have hstep : ∀ fuel, ((m :: ms).zipWith (messageToVariant chain.conv) (data :: datas)).mapM
        (parseMessage chain fuel emptyMessage) = some (m :: ms) ↔
          parseData chain fuel m.code m.type emptyMessage.data (some data) = some m.data ∧
          (ms.zipWith (messageToVariant chain.conv) datas).mapM
            (parseMessage chain fuel emptyMessage) = some ms := fun fuel => by
      rw [List.zipWith_cons_cons, List.mapM_cons, parseMessage_messageToVariant hconvm]
      constructor
      · intro h
        obtain ⟨m', hm', h⟩ := Option.bind_eq_some_iff.1 h
        obtain ⟨ms', hms', h⟩ := Option.bind_eq_some_iff.1 h
        obtain ⟨d, hd, rfl⟩ := Option.map_eq_some_iff.1 hm'
        obtain ⟨hhead, rfl⟩ := List.cons.inj (Option.some.inj h)
        exact ⟨by rw [hd, ← hhead], hms'⟩
      · rintro ⟨hd, hrest⟩
        rw [hd, hrest]
        rfl
    simp only [hstep]
    constructor
    · rintro ⟨n, hn⟩
      exact ⟨⟨n, fun fuel hfuel => (hn fuel hfuel).1⟩, n, fun fuel hfuel => (hn fuel hfuel).2⟩
    · rintro ⟨⟨n, hn⟩, k, hk⟩
      exact ⟨max n k, fun fuel hfuel => ⟨hn fuel (by omega), hk fuel (by omega)⟩⟩

end Read

/-- The package that a JSON form is read as, when its messages are. -/
theorem transactionFromVariant_json {t : SignedTransaction} (hconv : chain.conv.RoundTrips t) (fuel : ℕ)
    (datas : List Variant) :
    transactionFromVariant chain fuel (transactionToVariant chain.conv t datas) =
      ((t.messages.zipWith (messageToVariant chain.conv) datas).mapM
        (parseMessage chain fuel emptyMessage)).map fun ms =>
        { code := .original
          body := { refBlockNum := t.refBlockNum, refBlockPrefix := t.refBlockPrefix,
                    expiration := t.expiration, scope := t.scope, messages := ms,
                    signatures := t.signatures } } := by
  have hmessages : ∀ msgs : List Variant, (msgs.zipIdx.mapM fun msg =>
      parseMessage chain fuel (([] : List Message).getD msg.2 emptyMessage) msg.1) =
        msgs.mapM (parseMessage chain fuel emptyMessage) := fun msgs => by
    conv_rhs => rw [← List.zipIdx_map_fst 0 msgs, List.mapM_map]
    rfl
  rw [transactionFromVariant, parseTransaction, transactionToVariant]
  simp only [Variant.getObject, Option.bind_eq_bind, Option.bind_some]
  rw [getField_of_lookup hconv.refBlockNum (by simp), Option.bind_some,
    getField_of_lookup hconv.refBlockPrefix (by simp [lookup_fieldKey]), Option.bind_some,
    getField_of_lookup hconv.expiration (by simp [lookup_fieldKey]), Option.bind_some,
    getField_of_lookup hconv.scope (by simp [lookup_fieldKey]), Option.bind_some,
    getField_of_lookup hconv.signatures (by simp [lookup_fieldKey]), Option.bind_some]
  rw [parseMessages, show List.lookup (fieldKey "messages") _ =
    some (.array (t.messages.zipWith (messageToVariant chain.conv) datas)) by simp [lookup_fieldKey]]
  simp only [Variant.getArray, Option.bind_eq_bind, Option.bind_some, hmessages]
  rcases (t.messages.zipWith (messageToVariant chain.conv) datas).mapM (parseMessage chain fuel emptyMessage)
    <;> rfl

end Parse

/-! ## Notes on a board -/

def nativeFuncs : List FuncName :=
  [.addaccount, .addcontract, .adderc20, .adderc721, .transfer, .lock, .unlock, .votebuilder, .regbuilder,
    .unregbuilder, .regproxy, .unregproxy, .setcode, .mint, .stopmint, .revoke, .transferfrom, .updateauth,
    .deleteauth, .linkauth, .unlinkauth]

def FuncName.ofCode (code : AccountName) : FuncName :=
  (nativeFuncs.find? fun f => f.code = code).getD (.other code)

namespace FieldConversions

/-- An unsigned number of the library is a 64-bit one as a variant. -/
def numbers : Conversion ℕ := ⟨.uint64, fun | .uint64 n => some n | _ => none⟩

def nameText : Conversion AccountName where
  toVariant n := .string ((LongName.toString true (BitVec.ofNat 128 n)).toOption.getD [])
  fromVariant
    | .string s => (LongName.toNameCode s).toOption.map BitVec.toNat
    | _ => none

def authEntries : Conversion AccountAuth where
  toVariant auth := .object [(fieldKey "account", nameText.toVariant auth.account),
    (fieldKey "authority", nameText.toVariant auth.authority)]
  fromVariant v := do
    let vo ← v.getObject
    let account ← getField vo "account" nameText 0
    let authority ← getField vo "authority" nameText 0
    pure { account, authority }

def listOf {α : Type} (c : Conversion α) : Conversion (List α) where
  toVariant as := .array (as.map c.toVariant)
  fromVariant v := do (← v.getArray).mapM c.fromVariant

/-- Of times only the first is written, and of lists of signatures the empty one. -/
def texts : FieldConversions where
  uint16 := numbers
  uint32 := numbers
  uint64 := numbers
  time := ⟨fun _ => .string (fieldKey "1970-01-01T00:00:00"), fun _ => some 0⟩
  name := nameText
  funcName := ⟨fun f => nameText.toVariant f.code, fun v => (nameText.fromVariant v).map FuncName.ofCode⟩
  names := listOf nameText
  auths := listOf authEntries
  signatures := ⟨fun _ => .array [], fun _ => some []⟩
  toHex := XmaxChain.toHex
  fromHex s := (XmaxChain.fromHex s).toOption

theorem listOf_roundTrips {α : Type} {c : Conversion α} {as : List α} (h : ∀ a ∈ as, c.RoundTripsAt a) :
    (listOf c).RoundTripsAt as := by
  change (as.map c.toVariant).mapM c.fromVariant = some as
  induction as with
  | nil => rfl
  | cons a as ih =>
    obtain ⟨ha, has⟩ := List.forall_mem_cons.1 h
    rw [List.map_cons, List.mapM_cons, show c.fromVariant (c.toVariant a) = some a from ha, ih has]
    rfl

theorem authEntries_roundTrips {auth : AccountAuth} (haccount : nameText.RoundTripsAt auth.account)
    (hauthority : nameText.RoundTripsAt auth.authority) : authEntries.RoundTripsAt auth := by
  unfold Conversion.RoundTripsAt authEntries
  simp only [Variant.getObject, Option.bind_eq_bind, Option.bind_some]
  rw [getField_of_lookup haccount (by simp), Option.bind_some,
    getField_of_lookup hauthority (by simp [lookup_fieldKey])]
  rfl

end FieldConversions

/-- Strings as the library packs them. -/
def stringCodec : BuiltInCodec where
  pack
    | .string s, false => if s.length < 2 ^ 32 then some (packString s) else none
    | _, _ => none
  unpack
    | false => do pure (.string (← unpackString))
    | true => StateT.lift none

theorem losslessCodecs_string : LosslessCodecs fun _ => stringCodec := by
  intro _ var asArray bytes hpack _
  cases var <;> cases asArray <;> simp only [stringCodec, reduceCtorEq] at hpack
  case string.false s =>
    split_ifs at hpack with hlen
    cases hpack
    exact ⟨.string s, by rw [stringCodec]; exact if_pos hlen, fun rest =>
      StreamReader.bind_run.2 ⟨s, rest, unpackString_pack hlen rest, rfl⟩⟩

def boardName : AccountName := codeOfName "board"

def noteName : AccountName := codeOfName "note"

def noteType : TypeName := TypeName.ofString "note"

def textField : Abi.Field := ⟨FieldName.ofString "text", TypeName.ofString "string"⟩

/-- The notes of a board, each a text. -/
def noteAbi : Abi where
  types := []
  structs := [⟨noteType, .empty, [textField]⟩]
  actions := [⟨noteName, noteType⟩]
  tables := []

def noteAbiBytes : Bytes := [0, 1, 2, 3, 4]

def boardChain : AbiHandlers where
  db := { accounts := .ofList [(boardName, ⟨.contract, 0, some ⟨[], noteAbiBytes⟩⟩)] }
  abiHandlers _ := none
  unpackAbi bytes := if bytes = noteAbiBytes then some noteAbi else none
  codecs _ := stringCodec
  asBytes _ := none
  conv := .texts

def noteSerializer : AbiSerializer := AbiSerializer.tablesOf (fun _ => stringCodec) (fun _ => none) noteAbi

/-- Two letters. -/
def hiNote : Message := ⟨boardName, .other noteName, [⟨boardName, xmaxActiveName⟩], [2, 104, 105]⟩

def noteTransaction : SignedTransaction where
  refBlockNum := 3
  scope := [boardName]
  messages := [hiNote, hiNote]

/-- The data of the first note in hexadecimal and of the second as an object. -/
def noteDatas : List Variant :=
  [.string (fieldKey "026869"), .object [(fieldKey "text", .string [104, 105])]]

theorem note_names : FieldConversions.nameText.RoundTripsAt boardName ∧
    FieldConversions.nameText.RoundTripsAt noteName ∧ FuncName.ofCode noteName = .other noteName ∧
    FieldConversions.nameText.RoundTripsAt xmaxActiveName := by
  unfold Conversion.RoundTripsAt
  decide

theorem texts_roundTrips (gasPayer : AccountName) :
    FieldConversions.texts.RoundTrips { noteTransaction with gasPayer } where
  refBlockNum := rfl
  refBlockPrefix := rfl
  expiration := rfl
  scope := FieldConversions.listOf_roundTrips (List.forall_mem_singleton.2 note_names.1)
  signatures := rfl
  messages := by
    obtain ⟨hboard, hnote, hother, hactive⟩ := note_names
    have htype : (FieldConversions.nameText.fromVariant (FieldConversions.nameText.toVariant noteName)).map
        FuncName.ofCode = some (.other noteName) := by
      rw [show FieldConversions.nameText.fromVariant _ = some noteName from hnote, Option.map_some, hother]
    have hauth : (FieldConversions.listOf FieldConversions.authEntries).RoundTripsAt hiNote.authorization :=
      FieldConversions.listOf_roundTrips
        (List.forall_mem_singleton.2 (FieldConversions.authEntries_roundTrips hboard hactive))
    have hdata : (fromHex (toHex hiNote.data)).toOption = some hiNote.data := by
      rw [fromHex_toHex (by decide)]
      rfl
    intro m hm
    rcases List.mem_pair.1 hm with rfl | rfl
    · exact ⟨hboard, htype, hauth, hdata⟩
    · exact ⟨hboard, htype, hauth, hdata⟩

theorem findAccountAbi_board : boardChain.findAccountAbi hiNote.code = some (some noteAbi) := by
  have haccount : boardChain.db.accounts.find? boardName =
      some ⟨.contract, 0, some ⟨[], noteAbiBytes⟩⟩ := Table.find?_ofList_singleton _ _
  rw [AbiHandlers.findAccountAbi, show hiNote.code = boardName from rfl, haccount]
  rfl

theorem setAbi_note (fuel : ℕ) :
    setAbi boardChain.codecs boardChain.asBytes fuel noteAbi = some noteSerializer := rfl

theorem actionType_note : (noteSerializer.actions.find? hiNote.type.code).getD .empty = noteType := by
  rw [show noteSerializer.actions.find? hiNote.type.code = some noteType from
    Table.find?_ofList_singleton _ _]
  rfl

theorem hiNote_serializedBy : boardChain.SerializedBy hiNote noteSerializer noteType :=
  ⟨noteAbi, findAccountAbi_board, ⟨0, setAbi_note 0⟩, actionType_note.symm⟩

section NoteAbi

variable {type rtype : TypeName}

theorem resolves_note : noteSerializer.Resolves type rtype ↔ rtype = type :=
  resolves_of_noTypedefs fun _ => rfl

theorem structOf_note {st : Abi.StructT} (h : noteSerializer.StructOf type st) :
    st = ⟨noteType, .empty, [textField]⟩ := by
  obtain ⟨_, h⟩ := h
  obtain ⟨r, -, hst⟩ := Option.bind_eq_some_iff.1 h
  have hmem := Table.mem_rows_of_find? hst
  exact (Prod.mk.inj (List.mem_singleton.1 hmem)).2

theorem note_types : isBuiltinType (arrayType noteType) = false ∧ isArray noteType = false ∧
    isBuiltinType (arrayType textField.type) = true ∧ isArray textField.type = false ∧
    0 ∉ textField.name.toBytes ∧ textField.name.toBytes = fieldKey "text" ∧
    fieldKey "026869" = toHex hiNote.data := by
  decide

theorem asObject_note : noteSerializer.AsObject noteType noteType := by
  obtain ⟨hnote, hplain, -⟩ := note_types
  exact ⟨resolves_note.2 rfl, if_neg (by rw [hnote]; exact Bool.false_ne_true), hplain⟩

theorem findBuiltIn_text : noteSerializer.findBuiltIn (arrayType textField.type) = some stringCodec :=
  if_pos note_types.2.2.1

theorem find?_note : noteSerializer.structs.find? noteType = some ⟨noteType, .empty, [textField]⟩ :=
  Table.find?_ofList_singleton _ _

theorem fieldsOf_note : noteSerializer.FieldsOf noteType [textField] := by
  have hst : noteSerializer.StructOf noteType ⟨noteType, .empty, [textField]⟩ :=
    ⟨1, Option.bind_eq_some_iff.2 ⟨noteType, rfl, find?_note⟩⟩
  exact .root hst rfl

theorem plainWithin_note : noteSerializer.PlainWithin type := by
  intro t _ r _
  have hnoBase : ∀ base, ¬ noteSerializer.HasBase r base := by
    rintro base ⟨st, hst, hempty, -⟩
    rw [structOf_note hst] at hempty
    exact hempty rfl
  refine ⟨fun base hbase => ?_, fun fields hfields => ?_⟩
  · obtain ⟨b, hb, -⟩ := Relation.TransGen.head'_iff.1 hbase
    exact absurd hb (hnoBase b)
  · cases hfields with
    | root hst =>
      rw [structOf_note hst]
      exact ⟨List.forall_mem_singleton.2 note_types.2.2.2.2.1, List.nodup_singleton _⟩
    | derived hst hempty hres => exact absurd ⟨_, hst, hempty, hres⟩ (hnoBase _)

theorem packed_hi : noteSerializer.Packed noteType hiNote.data := by
  have htext : noteSerializer.Packed textField.type hiNote.data :=
    have hpack : stringCodec.pack (.string [104, 105]) (isArray textField.type) = some hiNote.data := by
      rw [note_types.2.2.2.1]
      decide
    .builtIn (resolves_note.2 rfl) findBuiltIn_text hpack
  let parts : List (_ × Bytes) := [(textField, hiNote.data)]
  have hparts : ∀ p ∈ parts, noteSerializer.Packed p.1.type p.2 := by simpa [parts] using htext
  have hall : noteSerializer.Packed noteType (parts.flatMap Prod.snd) :=
    .object asObject_note fieldsOf_note hparts
  exact hall

theorem unpacks_hi : noteSerializer.Unpacks noteType hiNote.data
    (.object [(fieldKey "text", .string [104, 105])]) [] := by
  have htext : noteSerializer.Unpacks textField.type hiNote.data (.string [104, 105]) [] := by
    rw [unpacks_builtIn (resolves_note.2 rfl) findBuiltIn_text, note_types.2.2.2.1]
    have hread : unpackString.run (packString [104, 105] ++ []) = some ([104, 105], []) :=
      unpackString_pack (by decide) []
    exact StreamReader.bind_run.2 ⟨[104, 105], [], hread, rfl⟩
  refine (unpacks_object asObject_note).2 ⟨_, (unpacksObject_iff fieldsOf_note).2
    (run_unpacksField_iff.2 ⟨[.string [104, 105]], .cons htext (.nil _), ?_⟩), rfl⟩
  rw [← note_types.2.2.2.2.2.1]
  rfl

end NoteAbi

theorem hiNote_fromBinary : ∃ fuel, boardChain.messageFromBinary fuel hiNote.code hiNote.type hiNote.data =
    some (.object [(fieldKey "text", .string [104, 105])]) := by
  obtain ⟨fuel, hfuel⟩ := unpacks_hi
  refine ⟨fuel, ?_⟩
  rw [AbiHandlers.messageFromBinary, findAccountAbi_board]
  simp only [Option.bind_eq_bind, Option.bind_some, setAbi_note, actionType_note, binaryToVariant, hfuel]
  rfl

theorem noteDatas_given : List.Forall₂ (GivenAs boardChain) noteTransaction.messages noteDatas := by
  refine .cons (.inl ?_) (.cons (.inr ⟨_, rfl, hiNote_fromBinary⟩) .nil)
  rw [note_types.2.2.2.2.2.2]
  rfl

theorem noteDatas_plain : List.Forall₂ (WhenObject (PlainAbi boardChain)) noteTransaction.messages noteDatas := by
  have hplain : PlainAbi boardChain hiNote := fun s type hs => by
    obtain ⟨rfl, rfl⟩ := hiNote_serializedBy.unique hs
    exact plainWithin_note
  exact .cons (fun _ _ => hplain) (.cons (fun _ _ => hplain) .nil)

theorem packedData_hi : PackedData boardChain hiNote := by
  have hknown : noteSerializer.isType 1 noteType = some true := by
    have htype : arrayType noteType = noteType := if_neg (by simp [note_types.2.1])
    have hnot : ¬ isBuiltinType noteType = true := by
      rw [← htype, note_types.1]
      exact Bool.false_ne_true
    rw [isType, htype, if_neg hnot, show noteSerializer.typedefs.find? noteType = none from rfl, find?_note]
    rfl
  exact ⟨noteSerializer, noteType, hiNote_serializedBy, ⟨1, hknown⟩, packed_hi, by decide⟩

/-- Its gas is paid by another account. -/
def paidTransaction : SignedTransaction := { noteTransaction with gasPayer := codeOfName "alice" }

end XmaxChain
