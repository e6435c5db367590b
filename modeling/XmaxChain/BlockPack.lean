import XmaxChain.Merkle

/-!
# Block packs

A pack is a block with what the chain knows at it: whose turn it is, the builders of this round
and the next, the window of the last builders' blocks and the block these make irreversible.
What the fork database changes later is kept apart, in the marks.
-/

namespace XmaxChain

def blocksPerBuilder : ℕ := 1

def buildersPerRound : ℕ := 21

def dposIrreversibleNeed : ℕ := buildersPerRound * 2 / 3

def blocksPerRound : ℕ := blocksPerBuilder * buildersPerRound

/-- How a call ends when it does not return: with an exception of the `fc` library, with one of
the standard library, with an undefined access, with the process, which an exception that leaves a
destructor ends, or not at all. -/
inductive Fault
  | fc (msg : String)
  | std (msg : String)
  | undefined (msg : String)
  | terminated
  | diverged
deriving DecidableEq, Repr

/-- `FC_ASSERT` and `XMAX_ASSERT`. -/
def fcAssert (b : Bool) (msg : String) : Except Fault Unit :=
  if b then .ok () else .error (.fc msg)

@[simp] theorem fcAssert_eq_ok {b : Bool} {msg : String} {u : Unit} :
    fcAssert b msg = .ok u ↔ b = true := by
  cases b <;> simp [fcAssert]

/-- Peels a bind apart: it returns only where both parts do. -/
theorem bind_eq_ok {α β ε : Type} {x : Except ε α} {f : α → Except ε β} {r : β} :
    (x >>= f) = .ok r ↔ ∃ a, x = .ok a ∧ f a = .ok r := by
  cases x <;> simp [bind, Except.bind]

theorem map_eq_ok {α β ε : Type} {f : α → β} {x : Except ε α} {r : β} :
    f <$> x = .ok r ↔ ∃ a, x = .ok a ∧ f a = r := by
  cases x <;> simp [Functor.map, Except.map]

theorem bind_eq_error {α β ε : Type} {x : Except ε α} {f : α → Except ε β} {e : ε} :
    (x >>= f) = .error e ↔ x = .error e ∨ ∃ a, x = .ok a ∧ f a = .error e := by
  cases x <;> simp [bind, Except.bind]

@[simp] theorem fcAssert_eq_error {b : Bool} {msg : String} {e : Fault} :
    fcAssert b msg = .error e ↔ b = false ∧ e = .fc msg := by
  cases b <;> simp [fcAssert, eq_comm]

/-- A call that returns a value with a decidable property, as evaluating it shows. -/
theorem exists_ok_of_eval {α ε : Type} {x : Except ε α} {P : α → Prop} [DecidablePred P]
    (h : (match x with | .ok a => decide (P a) | .error _ => false) = true) :
    ∃ a, x = .ok a ∧ P a := by
  cases x with
  | ok a => exact ⟨a, rfl, of_decide_eq_true h⟩
  | error e => cases h

/-- The state that a call leaves, whether it throws or not. -/
def stateOf {ε σ α : Type} : EStateM.Result ε σ α → σ
  | .ok _ s => s
  | .error _ s => s

section Run

variable {σ α β : Type} {x : EStateM Fault σ α} {f : α → EStateM Fault σ β} {s s' : σ}

theorem run_bind : (x >>= f) s = match x s with | .ok a s => f a s | .error e s => .error e s := by
  cases h : x s <;> simp [bind, EStateM.bind, h]

theorem run_bind_eq_ok {b : β} :
    (x >>= f) s = .ok b s' ↔ ∃ a s₁, x s = .ok a s₁ ∧ f a s₁ = .ok b s' := by
  rw [run_bind]
  cases x s <;> simp

theorem run_bind_ok {a : α} (h : x s = .ok a s') : (x >>= f) s = f a s' := by
  rw [run_bind, h]

theorem run_bind_error {e : Fault} (h : x s = .error e s') : (x >>= f) s = .error e s' := by
  rw [run_bind, h]

/-- A call that is seen to return. -/
theorem run_of_eval {r : EStateM.Result Fault σ Unit}
    (h : (match r with | .ok _ _ => true | .error _ _ => false) = true) : r = .ok () (stateOf r) := by
  cases r with
  | ok u s => rfl
  | error e s => cases h

end Run

section Slots

def getDeltaSlotTime (beginTime deltaSlot : ℕ) : ℕ := u32 (beginTime + deltaSlot)

def getDeltaSlotAtTime (beginTime when : ℕ) : ℕ :=
  let first := getDeltaSlotTime beginTime 1
  if when < first then 0 else u32 (when - first + 1)

/-- The builder whose slot it is; there is none in an empty rule, where the code divides by
zero. -/
def selectBuilder (current next : BuilderRule) (index : ℕ) : Option BuilderInfo :=
  let rule := if index < blocksPerRound ∨ next.isEmpty then current else next
  rule.builders[(index / blocksPerBuilder) % rule.number]?

end Slots

structure BlockBrief where
  builder : AccountName
  blockNum : ℕ
  blockId : Summary
deriving DecidableEq, Repr

/-- What a pack has from the moment it is made. -/
structure PackCore where
  blockNum : ℕ := 0
  blockId : Summary := default
  newHeader : SignedBlockHeader := {}
  bldInfo : BuilderInfo := {}
  roundSlot : ℕ := 0
  currentBuilders : BuilderRule := {}
  newBuilders : BuilderRule := {}
  dposIrreversibleNum : ℕ := 0
  dposIrreversibleId : Summary := default
  lastBlockOfBuilders : List BlockBrief := []
  validated : Bool := false
  newRound : Bool := false
  block : SignedBlock := {}
deriving DecidableEq, Repr

/-- What the fork database and the chain change on a pack. -/
structure PackMarks where
  confirmations : List BlockConfirmation := []
  mainChain : Bool := false
  lastBlockNum : ℕ := 0
  lastConfirmedNum : ℕ := 0
  lastConfirmedId : Summary := default
  irreversibleConfirmed : Bool := false
deriving DecidableEq, Repr

structure BlockPack extends PackCore, PackMarks
deriving DecidableEq, Repr

instance : Inhabited BlockPack := ⟨{}⟩

def PackCore.prevId (p : PackCore) : Summary := p.newHeader.previous

def PackCore.brief (p : PackCore) : BlockBrief := ⟨p.newHeader.builder, p.blockNum, p.blockId⟩

namespace BlockPack

/-- The first pack of a chain. -/
def initDefault (time : ℕ) (builder : BuilderInfo) (curBlders : BuilderRule) : BlockPack :=
  let header : SignedBlockHeader :=
    { timestamp := time, builder := builder.builderName, previous := emptyChainId }
  { block := { header with receipts := [] }
    newHeader := header
    blockNum := header.blockNum
    bldInfo := builder
    currentBuilders := curBlders
    mainChain := true
    newRound := true }

/-- The window of the last builders' blocks after `pre`, and the block it makes irreversible. Only
the window's last entry is compared with the newest builder. -/
def generateDpos (pre : PackCore) : (ℕ × Summary) × List BlockBrief :=
  let same := (pre.dposIrreversibleNum, pre.dposIrreversibleId)
  match pre.lastBlockOfBuilders with
  | [] => (same, [pre.brief])
  | front :: rest =>
    if (rest.getLastD front).builder = pre.newHeader.builder then
      (same, (front :: rest).dropLast ++ [pre.brief])
    else if (front :: rest).length < dposIrreversibleNeed then
      (same, front :: rest ++ [pre.brief])
    else ((front.blockNum, front.blockId), rest ++ [pre.brief])

def initByPrePack (pre : BlockPack) (when : ℕ) (mainchain : Bool) : Except Fault BlockPack :=
  let deltaSlot := getDeltaSlotAtTime pre.newHeader.timestamp when
  let newSlot := u32 (pre.roundSlot + deltaSlot)
  match selectBuilder pre.currentBuilders pre.newBuilders newSlot with
  | none => .error (.undefined "select_builder")
  | some current =>
    let newRound := blocksPerRound ≤ newSlot
    let swap := newRound ∧ ¬ pre.newBuilders.isEmpty
    let dpos := generateDpos pre.toPackCore
    .ok
      { blockNum := u32 (pre.blockNum + 1)
        newHeader :=
          { previous := pre.blockId, timestamp := when, builder := current.builderName }
        bldInfo := current
        roundSlot := if newRound then newSlot % blocksPerRound else newSlot
        currentBuilders := if swap then pre.newBuilders else pre.currentBuilders
        newBuilders := if swap then {} else pre.newBuilders
        dposIrreversibleNum := dpos.1.1
        dposIrreversibleId := dpos.1.2
        lastBlockOfBuilders := dpos.2
        newRound := newRound
        mainChain := mainchain
        lastBlockNum := pre.lastBlockNum
        lastConfirmedNum := pre.lastConfirmedNum
        lastConfirmedId := pre.lastConfirmedId }

def generateByBlock (c : Crypto) (pack : BlockPack) (b : SignedBlock) : BlockPack :=
  { pack with
    block := b
    blockId := b.id c
    blockNum := b.blockNum
    newBuilders := b.nextBuilders.getD pack.newBuilders
    newHeader := b.toSignedBlockHeader }

def setNextBuilders (pack : BlockPack) (next : BuilderRule) : Except Fault BlockPack := do
  fcAssert (u32 (pack.currentBuilders.version + 1) == next.version) "wrong builder version."
  fcAssert (pack.newBuilders.number == 0) "wrong builder number."
  return { pack with
    newHeader := { pack.newHeader with nextBuilders := some next }
    newBuilders := next }

/-- `_generate_block`: the header gets the root of the receipts. -/
def generateBlock (c : Crypto) (pack : BlockPack) : BlockPack :=
  { pack with
    newHeader := { pack.newHeader with
      trxsMroot := calMerkle c (pack.block.receipts.map (·.calDigest c)) } }

/-- A header with its signature, and the id that it gives the pack. -/
def withSignature (c : Crypto) (sig : Signature) (pack : BlockPack) : BlockPack :=
  let header := { pack.newHeader with builderSignature := sig }
  { pack with newHeader := header, blockId := header.id c, validated := true }

/-- `_sign_block`. -/
def signBlock (c : Crypto) (privateKey : ℕ) (pack : BlockPack) : BlockPack :=
  pack.withSignature c (c.sign privateKey (pack.newHeader.digest c))

/-- `_validate_block`: the header built here, signed as the received one is, must have its id. -/
def validateBlock (c : Crypto) (next : SignedBlock) (pack : BlockPack) : Except Fault BlockPack := do
  let pack := pack.withSignature c next.builderSignature
  fcAssert (pack.newHeader.id c == next.id c) "bad block, id error."
  return pack

/-- `_make_final_block`. -/
def makeFinalBlock (pack : BlockPack) : BlockPack :=
  { pack with block := { pack.newHeader with receipts := pack.block.receipts } }

/-- The first confirmation is checked and kept; once a pack has one, the loop that should look for
a second one of the same verifier returns at its first turn. -/
def addConfirmation (c : Crypto) (skip : Bool) (pack : BlockPack) (conf : BlockConfirmation) :
    Except Fault BlockPack :=
  if skip then .ok { pack with confirmations := pack.confirmations ++ [conf] }
  else if pack.confirmations ≠ [] then .ok pack
  else
    match c.signerKey conf.builderSignature (conf.digest c) with
    | none => .error (.fc "public_key")
    | some key =>
      if key = pack.currentBuilders.getSignKey conf.verifier then
        .ok { pack with confirmations := pack.confirmations ++ [conf] }
      else .error (.fc "confirmation fail.")

def enoughConfirmation (pack : BlockPack) : Bool :=
  pack.currentBuilders.number * 2 / 3 ≤ pack.confirmations.length

/-- The pack of block one: built alone by the contract account, confirmed and irreversible from the
start. `receipts` are those of the genesis messages and `next` is the first elected round. -/
def genesis (c : Crypto) (time : ℕ) (key : PublicKey) (sig : Signature)
    (receipts : List TransactionReceipt) (next : List BuilderInfo) : BlockPack :=
  let xmax : BuilderInfo := ⟨xmaxContractName, key⟩
  let pack := initDefault time xmax ⟨1, [xmax]⟩
  let header : SignedBlockHeader :=
    { pack.newHeader with
      trxsMroot := calMerkle c (receipts.map (·.calDigest c))
      nextBuilders := some ⟨2, next⟩
      builderSignature := sig }
  { pack with
    newHeader := header
    newBuilders := ⟨2, next⟩
    blockId := header.id c
    validated := true
    block := { header with receipts }
    irreversibleConfirmed := true
    lastBlockNum := pack.blockNum
    lastConfirmedNum := pack.blockNum
    lastConfirmedId := header.id c }

end BlockPack

section InitByPrePack

variable {pre q : BlockPack} {when : ℕ} {mainchain : Bool}

/-- Everything a new pack has from its parent. -/
theorem initByPrePack_eq_ok (h : pre.initByPrePack when mainchain = .ok q) :
    ∃ current, selectBuilder pre.currentBuilders pre.newBuilders
        (u32 (pre.roundSlot + getDeltaSlotAtTime pre.newHeader.timestamp when)) = some current
      ∧ q.newHeader = { previous := pre.blockId, timestamp := when, builder := current.builderName }
      ∧ q.bldInfo = current ∧ q.blockNum = u32 (pre.blockNum + 1)
      ∧ q.mainChain = mainchain ∧ q.confirmations = [] ∧ q.irreversibleConfirmed = false
      ∧ q.lastConfirmedNum = pre.lastConfirmedNum ∧ q.lastConfirmedId = pre.lastConfirmedId
      ∧ ((q.dposIrreversibleNum, q.dposIrreversibleId), q.lastBlockOfBuilders)
          = BlockPack.generateDpos pre.toPackCore := by
  unfold BlockPack.initByPrePack at h
  simp only [] at h
  split at h
  · cases h
  · rename_i current hsel
    cases h
    exact ⟨current, hsel, rfl, rfl, rfl, rfl, rfl, rfl, rfl, rfl, rfl⟩

end InitByPrePack

end XmaxChain
