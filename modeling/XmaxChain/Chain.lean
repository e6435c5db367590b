import XmaxChain.ForkDb
import XmaxChain.Transaction

/-!
# The chain

Blocks that are built here, received as the next one, or received for a fork. A block runs in a
session of the database that stays open until the block is committed; a call that throws in the
middle leaves it open, for the next call to abort. When the fork database has a new head on another
branch, the blocks of the old branch are popped and those of the new one applied.
-/

namespace XmaxChain

/-- The pack of the block that is being built, and the database as the block has left it so far. -/
structure Building where
  pack : BlockPack
  db : ChainDb

/-! ## Building a block on the pack `pre` of the head -/

section Body

variable (cfg : ChainConfig) (pre : BlockPack)

def generateNextBuilders (db : ChainDb) (pack : BlockPack) : Except Fault BlockPack :=
  if pack.newRound then
    pack.setNextBuilders ⟨u32 (pack.currentBuilders.version + 1),
      nextRound cfg.xmaxBuildPublicKey db.toLedger⟩
  else .ok pack

/-- The pack that `_start_build` begins with. -/
def startPack (db : ChainDb) (when : ℕ) : Except Fault BlockPack := do
  fcAssert (timePoint pre.newHeader.timestamp < timePoint when)
    "block must be generated at a timestamp after the head block time"
  captureRethrow do
    let pack ← pre.initByPrePack when true
    generateNextBuilders cfg db pack

def applyRequest (trx : SignedTransaction) : EStateM Fault Building Unit := fun b =>
  match applyTransaction cfg (timePoint pre.newHeader.timestamp) b.pack.bldInfo.builderName trx
      ⟨b.db, b.pack.block.receipts⟩ with
  | .error e => .error e b
  | .ok p => .ok () ⟨{ b.pack with block := { b.pack.block with receipts := p.receipts } }, p.db⟩

def applyRequests : List SignedTransaction → EStateM Fault Building Unit
  | [] => pure ()
  | trx :: trxs => do
    applyRequest cfg pre trx
    applyRequests trxs

def changePack (f : BlockPack → Except Fault BlockPack) : EStateM Fault Building Unit := fun b =>
  match f b.pack with
  | .error e => .error e b
  | .ok pack => .ok () { b with pack }

/-- `delta_slot - 1`, unsigned. -/
def missedBlocks (deltaSlot : ℕ) : ℕ := if deltaSlot = 0 then 2 ^ 32 - 1 else deltaSlot - 1

/-- The builders whose slots have passed without a block. -/
def countMissed (deltaSlot : ℕ) (db : ChainDb) : Except Fault ChainDb :=
  (List.range (missedBlocks deltaSlot % blocksPerRound)).foldlM (fun db i =>
    match selectBuilder db.currentBuilders db.nextBuilders (u32 (db.states.roundSlot + 1 + i)) with
    | none => .error (.undefined "select_builder")
    | some miss => .ok { db with builderObjects := db.builderObjects.modify miss.builderName fun b =>
        { b with totalMissed := u64 (b.totalMissed + 1) } }) db

def updateOrCreateBuilders (rule : BuilderRule) (db : ChainDb) : Except Fault ChainDb :=
  rule.builders.foldlM (fun db info =>
    match db.builderObjects.find? info.builderName with
    | some _ => .ok { db with builderObjects := db.builderObjects.modify info.builderName fun b =>
        { b with signingKey := info.blockSigningKey } }
    | none => do
      let builderObjects ← dbCreate db.builderObjects info.builderName
        { signingKey := info.blockSigningKey }
      pure { db with builderObjects }) db

def storeBuilders (pack : PackCore) (db : ChainDb) : Except Fault ChainDb :=
  if pack.newRound then
    match pack.block.nextBuilders with
    | none => .error (.fc "last_block.next_builders.valid()")
    | some rule => do
      let db ← updateOrCreateBuilders rule db
      pure { db with currentBuilders := pack.currentBuilders, nextBuilders := pack.newBuilders }
  else .ok db

/-- `_update_final_state`. -/
def updateFinalState (c : Crypto) (headTime : ℕ) (pack : PackCore) (db : ChainDb) :
    Except Fault ChainDb := do
  let deltaSlot := getDeltaSlotAtTime headTime pack.block.timestamp
  let db ← countMissed deltaSlot db
  let db ← storeBuilders pack db
  pure { db with
    builderObjects := db.builderObjects.modify pack.block.builder fun b =>
      { b with lastBlockTime := timePoint pack.block.timestamp }
    states :=
      { headBlockNumber := pack.block.blockNum
        headBlockId := pack.block.id c
        stateTime := timePoint pack.block.timestamp
        blockBuilder := pack.block.builder
        totalSlot := u32 (db.states.totalSlot + deltaSlot)
        roundSlot := pack.roundSlot } }

def blockSummary (c : Crypto) (block : SignedBlock) (db : ChainDb) : ChainDb :=
  { db with blockSummary := Function.update db.blockSummary (block.blockNum % 2 ^ 16) (block.id c) }

/-- What `_final_block` has written when it throws is left out: the session is aborted with it. -/
def finalBlock : EStateM Fault Building Unit := fun b =>
  let pack := b.pack.makeFinalBlock
  match updateFinalState cfg.crypto pre.newHeader.timestamp pack.toPackCore b.db with
  | .error e => .error e ⟨pack, b.db⟩
  | .ok db => .ok () ⟨pack, blockSummary cfg.crypto pack.block db⟩

/-- A block's transactions, its root, what seals it, and what it leaves in the database. -/
def blockBody (trxs : List SignedTransaction) (finish : BlockPack → Except Fault BlockPack) :
    EStateM Fault Building Unit := do
  applyRequests cfg pre trxs
  changePack fun pack => .ok (pack.generateBlock cfg.crypto)
  changePack finish
  finalBlock cfg pre

/-- The transaction of a receipt that carries it. -/
def receiptBody (r : TransactionReceipt) : Except Fault SignedTransaction :=
  match r.trx with
  | .package p => .ok p.body
  | .id _ => .error (.fc "encountered unexpected package type.")

/-- The transactions of a received block. -/
def requestsOf (block : SignedBlock) : Except Fault (List SignedTransaction) :=
  block.receipts.mapM receiptBody

def validateBlockDesc (db : ChainDb) (block : SignedBlock) : Except Fault Unit := do
  fcAssert (pre.blockId == block.previous) "head block id != previous id of next block."
  fcAssert (u32 (pre.blockNum + 1) == block.blockNum) "head block number + 1 != next block number"
  match db.builderObjects.find? block.builder with
  | none => .error (.undefined "null builder")
  | some builder =>
    match cfg.crypto.signerKey block.builderSignature (block.digest cfg.crypto) with
    | none => .error (.fc "public_key")
    | some key => fcAssert (key == builder.signingKey) "bad block, sign data is not from the key"

end Body

/-- `database::undo`: of all indexes the one of ERC721 ids is the last. If it throws it keeps its
session, and an undo that comes upon that again looks for a row that is gone. -/
def undoDb (u : Undo ChainDb) : Except (Fault × Undo ChainDb) (Undo ChainDb) :=
  match u.stack with
  | [] => .ok u
  | top :: _ =>
    match undoRows top.2.erc721Accounts u.cur.erc721Accounts with
    | .error (e, rows) => .error (e, u.undo.withCur { top.2 with erc721Accounts := rows })
    | .ok _ => .ok u.undo

/-- The newest session can be undone. -/
def Undoable (u : Undo ChainDb) : Prop :=
  ∀ top ∈ u.stack.head?, GivesBack top.2.erc721Accounts u.cur.erc721Accounts

instance : DecidablePred Undoable := fun u => by
  unfold Undoable
  infer_instance

/-- `block_head` is a pack of the fork database and known by its id. While a block is being built
the newest session of the database is its own. -/
structure ChainState where
  fork : ForkContext
  sink : Sink ChainDb
  blockHead : Summary
  building : Option BlockPack := none

namespace ChainState

variable (s : ChainState)

def headPack : BlockPack := s.fork.objs s.blockHead

def withDb (db : Undo ChainDb) : ChainState := { s with sink := { s.sink with blockDb := db } }

/-- The state without the block that is being built. -/
def abortBuild : ChainState :=
  match s.building with
  | none => s
  | some _ => { s.withDb s.sink.blockDb.undo with building := none }

/-- No block is being built, or it can be undone. -/
def CanAbort : Prop := s.building = none ∨ Undoable s.sink.blockDb

instance : DecidablePred CanAbort := fun s =>
  inferInstanceAs (Decidable (s.building = none ∨ Undoable s.sink.blockDb))

/-- The state with what has been built so far. -/
def withBuilding (b : Building) : ChainState :=
  { s.withDb (s.sink.blockDb.withCur b.db) with building := some b.pack }

end ChainState

abbrev ChainM := EStateM Fault ChainState

section Steps

variable (cfg : ChainConfig)

/-- `_abort_build`: the session is undone in its destructor. -/
def abortBuild : ChainM Unit := fun s =>
  if s.CanAbort then .ok () s.abortBuild else .error .terminated s

def startBuild (when : ℕ) : ChainM Unit := fun s =>
  match startPack cfg s.headPack s.sink.blockDb.cur when with
  | .error e => .error e s
  | .ok pack => .ok () { s.withDb s.sink.blockDb.start with building := some pack }

def inBuilding (x : BlockPack → EStateM Fault Building Unit) : ChainM Unit := fun s =>
  match s.building with
  | none => .error (.fc "building_block") s
  | some pack =>
    match x s.headPack ⟨pack, s.sink.blockDb.cur⟩ with
    | .error e b => .error e (s.withBuilding b)
    | .ok _ b => .ok () (s.withBuilding b)

/-- `_push_block`. The head has changed when it is compared with the new pack. -/
def pushBlock (updatefork : Bool) : ChainM Unit := fun s =>
  match s.building with
  | none => .error (.fc "building_block") s
  | some pack =>
    if s.headPack.blockId ≠ pack.block.previous then
      .error (.fc "previous block not found.") s
    else if updatefork then
      match ForkContext.addPack (onIrreversible cfg.crypto) cfg.crypto pack (s.fork, s.sink) with
      | .error e r => .error e { s with fork := r.1, sink := r.2 }
      | .ok _ r =>
        let s := { s with fork := r.1, sink := r.2, blockHead := r.1.head }
        if r.1.head = pack.blockId then .ok () s
        else .error (.fc "error new head in fork database") s
    else .ok () s

/-- `_commit_block`: the session stays in the history. -/
def commitBlock : ChainM Unit := fun s => .ok () { s with building := none }

/-- `build_block`, with the transactions that were selected from the pending ones. -/
def buildBlock (when : ℕ) (signPrivateKey : ℕ) (trxs : List SignedTransaction) : ChainM Unit := do
  abortBuild
  startBuild cfg when
  inBuilding fun pre => blockBody cfg pre trxs fun pack =>
    .ok (pack.signBlock cfg.crypto signPrivateKey)
  pushBlock cfg true
  commitBlock

def liftExcept {α : Type} (x : ChainState → Except Fault α) : ChainM α := fun s =>
  match x s with
  | .error e => .error e s
  | .ok a => .ok a s

/-- `_apply_block`. -/
def applyBlock (block : SignedBlock) (updatefork : Bool) : ChainM Unit := do
  liftExcept fun s => validateBlockDesc cfg s.headPack s.sink.blockDb.cur block
  let trxs ← liftExcept fun _ => requestsOf block
  abortBuild
  startBuild cfg block.timestamp
  inBuilding fun pre => blockBody cfg pre trxs fun pack => pack.validateBlock cfg.crypto block
  pushBlock cfg updatefork
  commitBlock

def confirmBlock (block : SignedBlock) : ChainM Unit := applyBlock cfg block true

/-- `_pop_block`. The head has moved when the session is undone. -/
def popBlock : ChainM Unit := fun s =>
  match s.fork.changeMainChainFlag s.headPack.blockId false with
  | .error e => .error e s
  | .ok fork =>
    if s.headPack.prevId ∈ s.fork.packs then
      match undoDb s.sink.blockDb with
      | .error (e, db) => .error e { s.withDb db with fork, blockHead := s.headPack.prevId }
      | .ok db => .ok () { s.withDb db with fork, blockHead := s.headPack.prevId }
    else .error (.undefined "null block_head") s

def popBlocks : ℕ → ChainM Unit
  | 0 => pure ()
  | n + 1 => do
    popBlock
    popBlocks n

/-- Makes an applied pack the head. -/
def switchTo (id : Summary) : ChainM Unit := fun s =>
  match s.fork.changeMainChainFlag id true with
  | .error e => .error e { s with blockHead := id }
  | .ok fork => .ok () { s with fork, blockHead := id }

def applyPack (id : Summary) : ChainM Unit := fun s =>
  match applyBlock cfg (s.fork.objs id).block false s with
  | .error e s => .error e s
  | .ok _ s => switchTo id s

/-- Applies a branch from its oldest block; the first that is refused is removed from the fork
database. Only exceptions of `fc` are caught. -/
def applyBranch : List Summary → ChainM Unit
  | [] => pure ()
  | id :: ids => fun s =>
    match applyPack cfg id s with
    | .ok _ s => applyBranch ids s
    | .error (.fc _) s =>
      match s.fork.removeChain id with
      | .error e => .error e s
      | .ok fork => .ok () { s with fork }
    | .error e s => .error e s

/-- One round of `_check_fork`. An old branch without blocks has no first one to look at. -/
def switchFork : ChainM Unit := fun s =>
  match s.fork.fetchBranchFromFork s.headPack.blockId s.fork.head with
  | .error e => .error e s
  | .ok branches =>
    match branches.first with
    | [] => .error (.undefined "origin_branch.begin()") s
    | first :: _ =>
      if first = s.headPack.blockId then
        (do popBlocks branches.first.length; applyBranch cfg branches.second.reverse) s
      else .error (.fc "origin_branch") s

def checkForkLoop : ℕ → ChainM Unit
  | 0 => fun s => .error .diverged s
  | fuel + 1 => fun s =>
    if s.fork.headPack.mainChain then .ok () s
    else (do switchFork cfg; checkForkLoop fuel) s

/-- `_check_fork`. A round that does not end the loop has removed a pack. -/
def checkFork : ChainM Unit := fun s => checkForkLoop cfg (s.fork.packs.length + 1) s

def addForkBlock (block : SignedBlock) : ChainM Unit := fun s =>
  match ForkContext.addBlock (onIrreversible cfg.crypto) cfg.crypto block (s.fork, s.sink) with
  | .error e r => .error e { s with fork := r.1, sink := r.2 }
  | .ok _ r => .ok () { s with fork := r.1, sink := r.2 }

/-- `push_fork`: whatever is thrown is only logged. -/
def pushFork (block : SignedBlock) : ChainM Unit := fun s =>
  match (do addForkBlock cfg block; checkFork cfg) s with
  | .error (.fc _) s => .ok () s
  | .error (.std _) s => .ok () s
  | r => r

def pushConfirmation (conf : BlockConfirmation) : ChainM Unit := fun s =>
  match s.fork.addConfirmation cfg.crypto cfg.skipConfirmation conf with
  | .error e => .error e s
  | .ok fork => .ok () { s with fork }

end Steps

/-- The chain after its first initialization: its genesis pack and the database that the genesis
messages have left. -/
def ChainState.genesis (G : BlockPack) (db : ChainDb) : ChainState where
  fork := .genesis G
  sink := ⟨[G.block], 0, { cur := db, revision := 1 }⟩
  blockHead := G.blockId

/-! ## Undoing a session -/

section Undone

variable {u : Undo ChainDb}

theorem undoDb_of_undoable (h : Undoable u) : undoDb u = .ok u.undo := by
  unfold undoDb
  unfold Undoable at h
  cases hstack : u.stack with
  | nil =>
    rw [Undo.undo, hstack]
  | cons top below =>
    rw [hstack] at h
    simp only [(h top rfl).undoRows]

/-- An undo that throws has undone everything but the rows of ERC721 ids. -/
theorem undoDb_error (h : ¬ Undoable u) :
    ∃ e rows, undoDb u = .error (e, u.undo.withCur { u.undo.cur with erc721Accounts := rows }) := by
  unfold undoDb
  unfold Undoable at h
  cases hstack : u.stack with
  | nil => simp [hstack] at h
  | cons top below =>
    have htop : ¬ GivesBack top.2.erc721Accounts u.cur.erc721Accounts := fun hback =>
      h fun x hx => by
        rw [hstack] at hx
        cases hx
        exact hback
    obtain ⟨⟨e, rows⟩, herr⟩ := undoRows_error htop
    refine ⟨e, rows, ?_⟩
    simp only [herr, Undo.undo, hstack]

theorem undoDb_eq_ok {u' : Undo ChainDb} : undoDb u = .ok u' ↔ Undoable u ∧ u' = u.undo := by
  by_cases h : Undoable u
  · simp [undoDb_of_undoable h, h, eq_comm]
  · obtain ⟨e, rows, herr⟩ := undoDb_error h
    simp [herr, h]

theorem undoable_start {db : ChainDb} :
    Undoable (u.start.withCur db) ↔ GivesBack u.cur.erc721Accounts db.erc721Accounts := by
  simp [Undoable, Undo.start]

end Undone

end XmaxChain
