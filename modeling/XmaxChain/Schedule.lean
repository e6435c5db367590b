import XmaxChain.Replay
import XmaxChain.Spending

/-!
# The schedule

A pack is made in two ways. A block that is applied runs the vote tally and its pack takes the list
that comes out; a block received for a fork has its list copied from the header. The id of an
applied block is the received one's, so both packs say the same. The database has its own copy of
the schedule, written only where a round begins, and it never falls behind the head's pack.
-/

namespace XmaxChain

variable {cfg : ChainConfig} {pre : BlockPack}

section Start

/-- A pack that starts a block is the next one of its parent; where a round begins, the list that
the tally gives is put into it. -/
theorem startPack_cases {db : ChainDb} {when : ℕ} {pack : BlockPack}
    (h : startPack cfg pre db when = .ok pack) :
    ∃ q, pre.initByPrePack when true = .ok q ∧
      (q.newRound = false ∧ pack = q ∨
        q.newRound = true ∧ q.newBuilders.number = 0 ∧
        ∃ rule : BuilderRule, rule = ⟨u32 (q.currentBuilders.version + 1),
            nextRound cfg.xmaxBuildPublicKey db.toLedger⟩ ∧
          pack = { q with
            newHeader := { q.newHeader with nextBuilders := some rule }
            newBuilders := rule }) := by
  simp only [startPack, bind_eq_ok, captureRethrow_eq_ok, generateNextBuilders] at h
  obtain ⟨-, -, q, hq, h⟩ := h
  refine ⟨q, hq, ?_⟩
  split at h
  · rename_i hround
    simp only [BlockPack.setNextBuilders, bind_eq_ok, fcAssert_eq_ok, beq_iff_eq] at h
    obtain ⟨-, -, -, hnum, h⟩ := h
    cases h
    exact .inr ⟨hround, hnum, _, rfl, rfl⟩
  · rename_i hround
    cases h
    exact .inl ⟨by simpa using hround, rfl⟩

/-- What a pack made on either branch has in common. -/
theorem initByPrePack_branch {when : ℕ} {q : BlockPack} {m : Bool} (m' : Bool)
    (h : pre.initByPrePack when m = .ok q) :
    pre.initByPrePack when m' = .ok { q with mainChain := m' } := by
  unfold BlockPack.initByPrePack at h ⊢
  dsimp only at h ⊢
  split at h
  · cases h
  · cases h
    rfl

end Start

/-- Two packs that agree in everything the chain reads of a block later. -/
structure SamePack (p q : BlockPack) : Prop where
  blockNum : p.blockNum = q.blockNum
  blockId : p.blockId = q.blockId
  newHeader : p.newHeader = q.newHeader
  bldInfo : p.bldInfo = q.bldInfo
  roundSlot : p.roundSlot = q.roundSlot
  newRound : p.newRound = q.newRound
  currentBuilders : p.currentBuilders = q.currentBuilders
  newBuilders : p.newBuilders = q.newBuilders
  lastConfirmedNum : p.lastConfirmedNum = q.lastConfirmedNum
  lastConfirmedId : p.lastConfirmedId = q.lastConfirmedId
  dposIrreversibleNum : p.dposIrreversibleNum = q.dposIrreversibleNum
  dposIrreversibleId : p.dposIrreversibleId = q.dposIrreversibleId
  lastBlockOfBuilders : p.lastBlockOfBuilders = q.lastBlockOfBuilders

section SamePack

variable {p p' q : BlockPack} {when : ℕ} {m : Bool}

theorem SamePack.symm (h : SamePack p q) : SamePack q p :=
  ⟨h.blockNum.symm, h.blockId.symm, h.newHeader.symm, h.bldInfo.symm, h.roundSlot.symm,
    h.newRound.symm, h.currentBuilders.symm, h.newBuilders.symm, h.lastConfirmedNum.symm,
    h.lastConfirmedId.symm, h.dposIrreversibleNum.symm, h.dposIrreversibleId.symm,
    h.lastBlockOfBuilders.symm⟩

theorem SamePack.trans (h : SamePack p p') (h' : SamePack p' q) : SamePack p q :=
  ⟨h.blockNum.trans h'.blockNum, h.blockId.trans h'.blockId, h.newHeader.trans h'.newHeader,
    h.bldInfo.trans h'.bldInfo, h.roundSlot.trans h'.roundSlot, h.newRound.trans h'.newRound,
    h.currentBuilders.trans h'.currentBuilders, h.newBuilders.trans h'.newBuilders,
    h.lastConfirmedNum.trans h'.lastConfirmedNum, h.lastConfirmedId.trans h'.lastConfirmedId,
    h.dposIrreversibleNum.trans h'.dposIrreversibleNum,
    h.dposIrreversibleId.trans h'.dposIrreversibleId,
    h.lastBlockOfBuilders.trans h'.lastBlockOfBuilders⟩

theorem SamePack.generateDpos (h : SamePack p p') :
    BlockPack.generateDpos p'.toPackCore = BlockPack.generateDpos p.toPackCore := by
  unfold BlockPack.generateDpos PackCore.brief
  rw [h.blockNum, h.blockId, h.newHeader, h.dposIrreversibleNum, h.dposIrreversibleId,
    h.lastBlockOfBuilders]

/-- Marks that the confirmations are not about do not matter. -/
theorem SamePack.of_core (h : SamePack p q) (hcore : p'.toPackCore = p.toPackCore)
    (hnum : p'.lastConfirmedNum = p.lastConfirmedNum) (hid : p'.lastConfirmedId = p.lastConfirmedId) :
    SamePack p' q := by
  refine SamePack.trans ?_ h
  constructor <;> first | rw [hcore] | assumption

/-- The next packs of two that say the same say the same. -/
theorem SamePack.initByPrePack (h : SamePack p p') (hq : p.initByPrePack when m = .ok q) :
    ∃ q', p'.initByPrePack when m = .ok q' ∧ q'.toPackCore = q.toPackCore ∧ SamePack q q' := by
  unfold BlockPack.initByPrePack at hq ⊢
  dsimp only at hq ⊢
  rw [← h.newHeader, ← h.roundSlot, ← h.currentBuilders, ← h.newBuilders, h.generateDpos,
    ← h.blockNum, ← h.blockId]
  split at hq
  · cases hq
  · cases hq
    exact ⟨_, rfl, rfl, rfl, rfl, rfl, rfl, rfl, rfl, rfl, rfl, h.lastConfirmedNum, h.lastConfirmedId,
      rfl, rfl, rfl⟩

theorem SamePack.sameNext (h : SamePack p p') : SameNext p p' := by
  refine ⟨h.newHeader.symm, fun when m => ?_⟩
  cases hq : p.initByPrePack when m with
  | ok q =>
    obtain ⟨q', hq', hcore, -⟩ := h.initByPrePack hq
    rw [hq']
    exact congrArg Except.ok hcore
  | error e =>
    cases hq' : p'.initByPrePack when m with
    | ok q' =>
      obtain ⟨q, hok, -⟩ := h.symm.initByPrePack hq'
      rw [hq] at hok
      cases hok
    | error e' =>
      -- an empty rule is the only thing that goes wrong
      unfold BlockPack.initByPrePack at hq hq'
      dsimp only at hq hq'
      split at hq
      · split at hq'
        · cases hq
          cases hq'
          rfl
        · cases hq'
      · cases hq

end SamePack

section TwoWays

theorem validateBlock_eq_ok {c : Crypto} {next : SignedBlock} {p p' : BlockPack} :
    p.validateBlock c next = .ok p' ↔
      p.newHeader.id c = next.id c ∧ p' = p.withSignature c next.builderSignature := by
  simp only [BlockPack.validateBlock, bind_eq_ok, fcAssert_eq_ok, beq_iff_eq, exists_const]
  refine and_congr Iff.rfl ⟨fun h => (Except.ok.inj h).symm, fun h => congrArg Except.ok h.symm⟩

/-- The header of a block that ran to its end is the received one. -/
theorem header_of_blockBody (hid : ∀ h h' : BlockHeader, h.id cfg.crypto = h'.id cfg.crypto → h = h')
    {block : SignedBlock} {trxs : List SignedTransaction} {pack : BlockPack} {db : ChainDb}
    {b : Building} {u : Unit}
    (hbody : blockBody cfg pre trxs (fun pack => pack.validateBlock cfg.crypto block) ⟨pack, db⟩
      = .ok u b) :
    b.pack.newHeader = block.toSignedBlockHeader ∧
      block.nextBuilders = pack.newHeader.nextBuilders ∧
      ∃ p : Pending, b.pack = ({ pack with
        newHeader := block.toSignedBlockHeader
        blockId := block.id cfg.crypto
        validated := true
        block := { block.toSignedBlockHeader with receipts := p.receipts } } : BlockPack) := by
  obtain ⟨p, sealed, db', -, hsealed, -, rfl⟩ := blockBody_eq_ok.1 hbody
  obtain ⟨hsame, rfl⟩ := validateBlock_eq_ok.1 hsealed
  have hheader := hid _ _ hsame
  have hsigned : (BlockPack.withSignature cfg.crypto block.builderSignature
      (BlockPack.generateBlock cfg.crypto { pack with
        block := { pack.block with receipts := p.receipts } })).newHeader
      = block.toSignedBlockHeader := by
    obtain ⟨⟨header, sig⟩, receipts⟩ := block
    simp only [BlockPack.withSignature] at hheader ⊢
    rw [hheader]
  refine ⟨hsigned, ?_, p, ?_⟩
  · rw [← hsigned]
    rfl
  · have hblockId := congrArg (fun h : SignedBlockHeader => h.id cfg.crypto) hsigned
    simp only [BlockPack.makeFinalBlock, hsigned]
    simp only [BlockPack.withSignature, BlockPack.generateBlock] at hblockId ⊢
    rw [hblockId]

/-- What `_apply_block` makes of a block on a head with the pack `pre`, before it is pushed. -/
def directBlock (cfg : ChainConfig) (pre : BlockPack) (db : ChainDb) (block : SignedBlock) :
    Except Fault Building := do
  validateBlockDesc cfg pre db block
  let trxs ← requestsOf block
  let pack ← startPack cfg pre db block.timestamp
  match blockBody cfg pre trxs (fun pack => pack.validateBlock cfg.crypto block) ⟨pack, db⟩ with
  | .error e _ => .error e
  | .ok _ b => .ok b

theorem directBlock_eq_ok {db : ChainDb} {block : SignedBlock} {b : Building} :
    directBlock cfg pre db block = .ok b ↔
      validateBlockDesc cfg pre db block = .ok () ∧
      ∃ trxs pack, requestsOf block = .ok trxs ∧
        startPack cfg pre db block.timestamp = .ok pack ∧
        blockBody cfg pre trxs (fun pack => pack.validateBlock cfg.crypto block) ⟨pack, db⟩
          = .ok () b := by
  simp only [directBlock, bind_eq_ok]
  constructor
  · rintro ⟨⟨⟩, hdesc, trxs, htrxs, pack, hpack, h⟩
    split at h
    · cases h
    · rename_i b' hb
      cases h
      exact ⟨hdesc, trxs, pack, htrxs, hpack, hb⟩
  · rintro ⟨hdesc, trxs, pack, htrxs, hpack, hb⟩
    refine ⟨(), hdesc, trxs, htrxs, pack, hpack, ?_⟩
    rw [hb]

/-- The pack that the fork database makes of an applied block is the one that applying it made. -/
theorem SamePack.of_blockBody
    (hid : ∀ h h' : BlockHeader, h.id cfg.crypto = h'.id cfg.crypto → h = h')
    {db db' : ChainDb} {block : SignedBlock} {trxs : List SignedTransaction} {pack : BlockPack}
    {b : Building} (hdesc : validateBlockDesc cfg pre db' block = .ok ())
    (hstart : startPack cfg pre db block.timestamp = .ok pack)
    (hbody : blockBody cfg pre trxs (fun pack => pack.validateBlock cfg.crypto block) ⟨pack, db⟩
      = .ok () b) :
    ∃ q, pre.initByPrePack block.timestamp false = .ok q ∧
      SamePack (q.generateByBlock cfg.crypto block) b.pack := by
  obtain ⟨q, hq, hcases⟩ := startPack_cases hstart
  refine ⟨_, initByPrePack_branch false hq, ?_⟩
  obtain ⟨hheader, hnext, p, hpack⟩ := header_of_blockBody hid hbody
  obtain ⟨_, -, hhead, -, hnum, -⟩ := initByPrePack_eq_ok hq
  have hblockNum : block.blockNum = q.blockNum := by
    simp only [validateBlockDesc, bind_eq_ok, fcAssert_eq_ok, beq_iff_eq] at hdesc
    obtain ⟨-, -, -, hnum', -⟩ := hdesc
    rw [hnum, hnum']
  rw [hpack]
  rcases hcases with ⟨hround, rfl⟩ | ⟨hround, -, rule, -, rfl⟩
  · have hnone : block.nextBuilders = none := by rw [hnext, hhead]
    constructor <;> simp [BlockPack.generateByBlock, hblockNum, hnone]
  · have hsome : block.nextBuilders = some rule := by rw [hnext]
    constructor <;> simp [BlockPack.generateByBlock, hblockNum, hsome]

theorem startBuild_eq_ok {s s' : ChainState} {when : ℕ} {u : Unit} :
    startBuild cfg when s = .ok u s' ↔
      ∃ pack, startPack cfg s.headPack s.sink.blockDb.cur when = .ok pack ∧
        s' = { s.withDb s.sink.blockDb.start with building := some pack } := by
  unfold startBuild
  constructor
  · intro h
    split at h
    · cases h
    · rename_i pack hpack
      cases h
      exact ⟨pack, hpack, rfl⟩
  · rintro ⟨pack, hpack, rfl⟩
    rw [hpack]

theorem inBuilding_eq_ok {x : BlockPack → EStateM Fault Building Unit} {s s' : ChainState}
    {pack : BlockPack} (hs : s.building = some pack) {u : Unit} :
    inBuilding x s = .ok u s' ↔
      ∃ b, x s.headPack ⟨pack, s.sink.blockDb.cur⟩ = .ok () b ∧ s' = s.withBuilding b := by
  unfold inBuilding
  rw [hs]
  dsimp only
  cases hx : x s.headPack ⟨pack, s.sink.blockDb.cur⟩ <;> simp [eq_comm]

theorem liftExcept_eq_ok {α : Type} {x : ChainState → Except Fault α} {s s' : ChainState} {a : α} :
    liftExcept x s = .ok a s' ↔ x s = .ok a ∧ s' = s := by
  unfold liftExcept
  cases x s <;> simp [eq_comm]

theorem abortBuild_headPack (s : ChainState) : s.abortBuild.headPack = s.headPack := by
  unfold ChainState.abortBuild
  split <;> rfl

theorem abortBuild_eq_ok {s s' : ChainState} {u : Unit} :
    abortBuild s = .ok u s' ↔ s.CanAbort ∧ s' = s.abortBuild := by
  unfold abortBuild
  split_ifs with hcan <;> simp [hcan, eq_comm]

/-- A block that was started and ran to its end. -/
theorem started_ok {s s' : ChainState} {when : ℕ} {x : BlockPack → EStateM Fault Building Unit}
    {y : ChainM Unit}
    (h : (startBuild cfg when >>= fun _ => inBuilding x >>= fun _ => y) s = .ok () s') :
    ∃ pack b, startPack cfg s.headPack s.sink.blockDb.cur when = .ok pack ∧
      x s.headPack ⟨pack, s.sink.blockDb.cur⟩ = .ok () b ∧
      y ((s.withDb s.sink.blockDb.start).withBuilding b) = .ok () s' := by
  simp only [run_bind_eq_ok, startBuild_eq_ok] at h
  obtain ⟨⟨⟩, s₁, ⟨pack, hpack, rfl⟩, ⟨⟩, s₂, hbody, h⟩ := h
  obtain ⟨b, hb, rfl⟩ := (inBuilding_eq_ok rfl).1 hbody
  exact ⟨pack, b, hpack, hb, h⟩

/-- Everything that `_apply_block` goes through before it pushes the block. -/
theorem applyBlock_ok {s s' : ChainState} {block : SignedBlock} {updatefork : Bool}
    (h : applyBlock cfg block updatefork s = .ok () s') :
    validateBlockDesc cfg s.headPack s.sink.blockDb.cur block = .ok () ∧
      ∃ trxs pack b, requestsOf block = .ok trxs ∧
        startPack cfg s.headPack s.abortBuild.sink.blockDb.cur block.timestamp = .ok pack ∧
        blockBody cfg s.headPack trxs (fun pack => pack.validateBlock cfg.crypto block)
          ⟨pack, s.abortBuild.sink.blockDb.cur⟩ = .ok () b ∧
        (pushBlock cfg updatefork >>= fun _ => commitBlock)
          ((s.abortBuild.withDb s.abortBuild.sink.blockDb.start).withBuilding b) = .ok () s' := by
  unfold applyBlock at h
  obtain ⟨⟨⟩, s₁, hdesc, h₁⟩ := run_bind_eq_ok.1 h
  obtain ⟨hdesc', rfl⟩ := liftExcept_eq_ok.1 hdesc
  obtain ⟨trxs, s₂, htrxs, h₂⟩ := run_bind_eq_ok.1 h₁
  obtain ⟨htrxs', rfl⟩ := liftExcept_eq_ok.1 htrxs
  obtain ⟨⟨⟩, s₃, habort, h₃⟩ := run_bind_eq_ok.1 h₂
  obtain ⟨-, rfl⟩ := abortBuild_eq_ok.1 habort
  obtain ⟨pack, b, hpack, hbody, hpush⟩ := started_ok h₃
  rw [abortBuild_headPack] at hpack hbody
  exact ⟨hdesc', trxs, pack, b, htrxs', hpack, hbody, hpush⟩

end TwoWays

/-! ## The chain of applied blocks -/

/-- The heads, each with its database, that blocks lead to from genesis: built here, confirmed, or
applied when the head is on another branch, where the pack is the one the fork database has. The
fork database may mark a pack in the meantime. -/
inductive Applied (cfg : ChainConfig) (G : BlockPack) (d : ChainDb) : BlockPack → ChainDb → Prop
  | genesis {g : ChainDb}
      (final : updateFinalState cfg.crypto G.newHeader.timestamp G.toPackCore d = .ok g) :
      Applied cfg G d G (blockSummary cfg.crypto G.block g)
  | built {pre pack : BlockPack} {db : ChainDb} {when key : ℕ} {trxs : List SignedTransaction}
      {b : Building} (parent : Applied cfg G d pre db) (start : startPack cfg pre db when = .ok pack)
      (body : blockBody cfg pre trxs (fun pack => .ok (pack.signBlock cfg.crypto key)) ⟨pack, db⟩
        = .ok () b) : Applied cfg G d b.pack b.db
  | confirmed {pre : BlockPack} {db : ChainDb} {block : SignedBlock} {b : Building}
      (parent : Applied cfg G d pre db) (direct : directBlock cfg pre db block = .ok b) :
      Applied cfg G d b.pack b.db
  | switched {pre q : BlockPack} {db : ChainDb} {block : SignedBlock} {b : Building}
      (parent : Applied cfg G d pre db) (direct : directBlock cfg pre db block = .ok b)
      (init : pre.initByPrePack block.timestamp false = .ok q) :
      Applied cfg G d (q.generateByBlock cfg.crypto block) b.db
  | marked {p p' : BlockPack} {db : ChainDb} (head : Applied cfg G d p db)
      (core : p'.toPackCore = p.toPackCore) : Applied cfg G d p' db

/-- `get_block_builder`, from the copy of the schedule in the database. -/
def getBlockBuilder (db : ChainDb) (deltaSlot : ℕ) : Option BuilderInfo :=
  selectBuilder db.currentBuilders db.nextBuilders (u32 (db.states.roundSlot + deltaSlot))

/-- The copy of the schedule in the database is the head's. -/
structure Synced (p : PackCore) (db : ChainDb) : Prop where
  current : db.currentBuilders = p.currentBuilders
  next : db.nextBuilders = p.newBuilders
  roundSlot : db.states.roundSlot = p.roundSlot
  headBlockNumber : db.states.headBlockNumber = p.blockNum
  headBlockId : db.states.headBlockId = p.blockId

/-- The head is numbered as its id says and the round has a builder. -/
structure HeadOk (p : PackCore) : Prop where
  num : p.blockId.num = p.blockNum
  builders : p.currentBuilders.builders ≠ []

section Frames

/-- Transactions leave the schedule alone. -/
theorem applyAll_frame {t : ℕ} {builder : AccountName} {trxs : List SignedTransaction}
    {p p' : Pending} (h : applyAll cfg t builder trxs p = .ok p') :
    ∃ auth transactions trxCounter,
      p'.db = { p.db with toAuthDb := auth, transactions, trxCounter } := by
  refine foldlM_keeps (P := fun p' => ∃ auth transactions trxCounter,
    p'.db = { p.db with toAuthDb := auth, transactions, trxCounter }) ?_ h ⟨_, _, _, rfl⟩
  rintro p₁ trx p₂ h₂ ⟨auth, transactions, counter, h₁⟩
  rcases applyTransaction_cases h₂ with rfl | ⟨r, -, hbody, rfl⟩
  · exact ⟨auth, transactions, counter, h₁⟩
  · obtain ⟨-, -, auth', l, transactions', -, -, -, hdb⟩ := applyTransactionBody_ok hbody
    rw [h₁] at hdb
    exact ⟨_, _, _, hdb⟩

theorem countMissed_frame {deltaSlot : ℕ} {db db' : ChainDb} (h : countMissed deltaSlot db = .ok db') :
    ∃ builderObjects, db' = { db with builderObjects } := by
  refine foldlM_keeps (P := fun db' => ∃ builderObjects, db' = { db with builderObjects })
    ?_ h ⟨_, rfl⟩
  rintro db₁ i db₂ h₂ ⟨objs, rfl⟩
  split at h₂
  · cases h₂
  · cases h₂
    exact ⟨_, rfl⟩

theorem updateOrCreateBuilders_frame {rule : BuilderRule} {db db' : ChainDb}
    (h : updateOrCreateBuilders rule db = .ok db') :
    ∃ builderObjects, db' = { db with builderObjects } := by
  refine foldlM_keeps (P := fun db' => ∃ builderObjects, db' = { db with builderObjects })
    ?_ h ⟨_, rfl⟩
  rintro db₁ info db₂ h₂ ⟨objs, rfl⟩
  split at h₂
  · cases h₂
    exact ⟨_, rfl⟩
  · obtain ⟨objs', -, h₂⟩ := bind_eq_ok.1 h₂
    cases h₂
    exact ⟨_, rfl⟩

/-- What the end of a block does not write. -/
theorem updateFinalState_frame {c : Crypto} {headTime : ℕ} {pack : PackCore} {db db' : ChainDb}
    (h : updateFinalState c headTime pack db = .ok db') :
    db'.toAuthDb = db.toAuthDb ∧ db'.transactions = db.transactions ∧
      db'.blockSummary = db.blockSummary := by
  simp only [updateFinalState, bind_eq_ok] at h
  obtain ⟨db₁, h₁, db₂, h₂, h⟩ := h
  obtain ⟨objs, rfl⟩ := countMissed_frame h₁
  cases h
  unfold storeBuilders at h₂
  split at h₂
  · split at h₂
    · cases h₂
    · obtain ⟨db₃, h₃, h₂⟩ := bind_eq_ok.1 h₂
      obtain ⟨objs', rfl⟩ := updateOrCreateBuilders_frame h₃
      cases h₂
      exact ⟨rfl, rfl, rfl⟩
  · cases h₂
    exact ⟨rfl, rfl, rfl⟩

/-- The schedule that a finished block leaves. -/
theorem updateFinalState_schedule {c : Crypto} {headTime : ℕ} {pack : PackCore} {db db' : ChainDb}
    (h : updateFinalState c headTime pack db = .ok db') :
    db'.currentBuilders = (if pack.newRound then pack.currentBuilders else db.currentBuilders) ∧
      db'.nextBuilders = (if pack.newRound then pack.newBuilders else db.nextBuilders) ∧
      db'.states.roundSlot = pack.roundSlot ∧
      db'.states.headBlockNumber = pack.block.blockNum ∧
      db'.states.headBlockId = pack.block.id c := by
  simp only [updateFinalState, bind_eq_ok] at h
  obtain ⟨db₁, h₁, db₂, h₂, h⟩ := h
  obtain ⟨objs, rfl⟩ := countMissed_frame h₁
  cases h
  unfold storeBuilders at h₂
  split at h₂
  · rename_i hround
    split at h₂
    · cases h₂
    · obtain ⟨db₃, h₃, h₂⟩ := bind_eq_ok.1 h₂
      obtain ⟨objs', rfl⟩ := updateOrCreateBuilders_frame h₃
      cases h₂
      simp [hround]
  · rename_i hround
    cases h₂
    simp [hround]

end Frames

section Sync

theorem Synced.genesis {c : Crypto} {time : ℕ} {key : PublicKey} {sig : Signature}
    {receipts : List TransactionReceipt} {next : List BuilderInfo} {d g : ChainDb} {headTime : ℕ}
    (h : updateFinalState c headTime (BlockPack.genesis c time key sig receipts next).toPackCore d
      = .ok g) :
    Synced (BlockPack.genesis c time key sig receipts next).toPackCore g := by
  obtain ⟨hcur, hnext, hslot, hnum, hid⟩ := updateFinalState_schedule h
  exact ⟨hcur, hnext, hslot, hnum, hid⟩

theorem HeadOk.initByPrePack (h : HeadOk pre.toPackCore) {when : ℕ} {q : BlockPack} {m : Bool}
    (hq : pre.initByPrePack when m = .ok q) : q.currentBuilders.builders ≠ [] := by
  unfold BlockPack.initByPrePack at hq
  dsimp only at hq
  split at hq
  · cases hq
  · cases hq
    dsimp only
    split_ifs with hswap
    · intro hnil
      exact hswap.2 (by simp [BuilderRule.isEmpty, hnil])
    · exact h.builders

/-- The rules of the next pack where no round begins are its parent's. -/
theorem initByPrePack_sameRound {when : ℕ} {q : BlockPack} {m : Bool}
    (hq : pre.initByPrePack when m = .ok q) (hround : q.newRound = false) :
    q.currentBuilders = pre.currentBuilders ∧ q.newBuilders = pre.newBuilders := by
  unfold BlockPack.initByPrePack at hq
  dsimp only at hq
  split at hq
  · cases hq
  · cases hq
    have hslot := of_decide_eq_false hround
    dsimp only
    rw [if_neg fun h => hslot h.1, if_neg fun h => hslot h.1]
    exact ⟨rfl, rfl⟩

/-- A block that is built or applied on a synced head leaves a synced head. -/
theorem Synced.blockBody {db : ChainDb} {when : ℕ} {pack : BlockPack} {trxs : List SignedTransaction}
    {finish : BlockPack → Except Fault BlockPack} {b : Building}
    (hs : Synced pre.toPackCore db) (hp : HeadOk pre.toPackCore)
    (hstart : startPack cfg pre db when = .ok pack) (hfinish : Seals cfg.crypto finish)
    (hbody : XmaxChain.blockBody cfg pre trxs finish ⟨pack, db⟩ = .ok () b) :
    Synced b.pack.toPackCore b.db ∧ HeadOk b.pack.toPackCore := by
  obtain ⟨q, hq, hcases⟩ := startPack_cases hstart
  obtain ⟨_, -, hhead, -, hnum, -⟩ := initByPrePack_eq_ok hq
  obtain ⟨p, sealed, db', hp', hsealed, hfinal, rfl⟩ := blockBody_eq_ok.1 hbody
  obtain ⟨sig, rfl⟩ := hfinish hsealed
  obtain ⟨auth, transactions, counter, hdb⟩ := applyAll_frame hp'
  obtain ⟨hcur, hnext, hslot, hnumber, hid⟩ := updateFinalState_schedule hfinal
  rw [hdb] at hcur hnext
  have hbuilders := hp.initByPrePack hq
  have hprev : q.newHeader.previous.num = pre.blockNum := by rw [hhead]; exact hp.num
  have hqnum : q.newHeader.blockNum = q.blockNum := by
    rw [hnum, ← hprev]
    rfl
  rcases hcases with ⟨hround, rfl⟩ | ⟨hround, -, rule, -, rfl⟩
  · obtain ⟨hsame, hsame'⟩ := initByPrePack_sameRound hq hround
    have hnot : ¬ pack.newRound = true := by simp [hround]
    refine ⟨⟨?_, ?_, hslot, hnumber.trans hqnum, hid⟩, ⟨hqnum, hbuilders⟩⟩
    · exact hcur.trans ((if_neg hnot).trans (hs.current.trans hsame.symm))
    · exact hnext.trans ((if_neg hnot).trans (hs.next.trans hsame'.symm))
  · refine ⟨⟨?_, ?_, hslot, hnumber.trans hqnum, hid⟩, ⟨hqnum, hbuilders⟩⟩
    · exact hcur.trans (if_pos hround)
    · exact hnext.trans (if_pos hround)

theorem Synced.of_samePack {p q : BlockPack} {db : ChainDb} (h : SamePack q p)
    (hs : Synced p.toPackCore db) : Synced q.toPackCore db :=
  ⟨hs.current.trans h.currentBuilders.symm, hs.next.trans h.newBuilders.symm,
    hs.roundSlot.trans h.roundSlot.symm, hs.headBlockNumber.trans h.blockNum.symm,
    hs.headBlockId.trans h.blockId.symm⟩

theorem HeadOk.of_samePack {p q : BlockPack} (h : SamePack q p) (hp : HeadOk p.toPackCore) :
    HeadOk q.toPackCore := by
  refine ⟨?_, ?_⟩
  · rw [h.blockId, h.blockNum]
    exact hp.num
  · rw [h.currentBuilders]
    exact hp.builders

variable {time : ℕ} {key : PublicKey} {sig : Signature} {receipts : List TransactionReceipt}
  {next : List BuilderInfo} {d db : ChainDb} {p : BlockPack}

theorem Applied.synced (hid : ∀ h h' : BlockHeader, h.id cfg.crypto = h'.id cfg.crypto → h = h')
    (h : Applied cfg (BlockPack.genesis cfg.crypto time key sig receipts next) d p db) :
    Synced p.toPackCore db ∧ HeadOk p.toPackCore := by
  induction h with
  | genesis final =>
    have hs := Synced.genesis final
    exact ⟨⟨hs.current, hs.next, hs.roundSlot, hs.headBlockNumber, hs.headBlockId⟩,
      ⟨rfl, List.cons_ne_nil _ _⟩⟩
  | built parent start body ih => exact ih.1.blockBody ih.2 start (seals_sign _ _) body
  | confirmed parent direct ih =>
    obtain ⟨-, trxs, pack, -, hstart, hbody⟩ := directBlock_eq_ok.1 direct
    exact ih.1.blockBody ih.2 hstart (seals_validate _ _) hbody
  | switched parent direct init ih =>
    obtain ⟨hdesc, trxs, pack, -, hstart, hbody⟩ := directBlock_eq_ok.1 direct
    obtain ⟨q', hq', hsame⟩ := SamePack.of_blockBody hid hdesc hstart hbody
    rw [init] at hq'
    cases hq'
    obtain ⟨hs, hp⟩ := ih.1.blockBody ih.2 hstart (seals_validate _ _) hbody
    exact ⟨hs.of_samePack hsame, hp.of_samePack hsame⟩
  | marked head core ih =>
    rw [core]
    exact ih

theorem selectBuilder_isSome {current : BuilderRule} (h : current.builders ≠ [])
    (next : BuilderRule) (index : ℕ) :
    ∃ b, selectBuilder current next index = some b := by
  unfold selectBuilder
  dsimp only
  have hpos : ∀ rule : BuilderRule, rule.builders ≠ [] →
      ∃ b, rule.builders[(index / blocksPerBuilder) % rule.number]? = some b := by
    intro rule hrule
    have hlt := Nat.mod_lt (index / blocksPerBuilder) (List.length_pos_iff.2 hrule)
    exact ⟨_, List.getElem?_eq_getElem hlt⟩
  split_ifs with hcur
  · exact hpos current h
  · rw [not_or] at hcur
    refine hpos next fun hnil => hcur.2 ?_
    simp [BuilderRule.isEmpty, hnil]

end Sync

section Agreement

variable {time : ℕ} {key : PublicKey} {sig : Signature} {receipts : List TransactionReceipt}
  {next : List BuilderInfo} {d db : ChainDb} {p : BlockPack}

/-- Whatever block is applied to a state, the pack made of it and the pack that the fork database
would make of it on the same parent are the same. -/
theorem packs_agree (hid : ∀ h h' : BlockHeader, h.id cfg.crypto = h'.id cfg.crypto → h = h')
    {s s' : ChainState} {block : SignedBlock} {updatefork : Bool}
    (h : applyBlock cfg block updatefork s = .ok () s') :
    ∃ trxs pack b q, requestsOf block = .ok trxs ∧
      startPack cfg s.headPack s.abortBuild.sink.blockDb.cur block.timestamp = .ok pack ∧
      blockBody cfg s.headPack trxs (fun pack => pack.validateBlock cfg.crypto block)
        ⟨pack, s.abortBuild.sink.blockDb.cur⟩ = .ok () b ∧
      s.headPack.initByPrePack block.timestamp false = .ok q ∧
      SamePack (q.generateByBlock cfg.crypto block) b.pack := by
  obtain ⟨hdesc, trxs, pack, b, htrxs, hstart, hbody, -⟩ := applyBlock_ok h
  obtain ⟨q, hq, hsame⟩ := SamePack.of_blockBody hid hdesc hstart hbody
  exact ⟨trxs, pack, b, q, htrxs, hstart, hbody, hq, hsame⟩

/-- The schedule in the database is the head's, so that the builder it gives for a later time is
the one the next pack is made for. -/
theorem schedule_synced (hid : ∀ h h' : BlockHeader, h.id cfg.crypto = h'.id cfg.crypto → h = h')
    (h : Applied cfg (BlockPack.genesis cfg.crypto time key sig receipts next) d p db) :
    Synced p.toPackCore db ∧
      ∀ t mainchain, ∃ q, p.initByPrePack t mainchain = .ok q ∧
        getBlockBuilder db (getDeltaSlotAtTime p.newHeader.timestamp t) = some q.bldInfo ∧
        q.newHeader.builder = q.bldInfo.builderName := by
  obtain ⟨hs, hp⟩ := h.synced hid
  refine ⟨hs, fun t m => ?_⟩
  obtain ⟨current, hsel⟩ := selectBuilder_isSome hp.builders p.newBuilders
    (u32 (p.roundSlot + getDeltaSlotAtTime p.newHeader.timestamp t))
  obtain ⟨q, hq⟩ : ∃ q, p.initByPrePack t m = .ok q := by
    unfold BlockPack.initByPrePack
    dsimp only
    rw [hsel]
    exact ⟨_, rfl⟩
  obtain ⟨current', hsel', hhead, hinfo, -⟩ := initByPrePack_eq_ok hq
  refine ⟨q, hq, ?_, ?_⟩
  · rw [getBlockBuilder, hs.current, hs.next, hs.roundSlot, hsel', hinfo]
  · rw [hhead, hinfo]

/-- Of a block only the header, the builder's signature and the transactions matter, so two blocks
with one id that agree in the latter are confirmed alike, on every state. -/
theorem same_id_same_fate (hid : ∀ h h' : BlockHeader, h.id cfg.crypto = h'.id cfg.crypto → h = h')
    {block block' : SignedBlock} (hsame : block.id cfg.crypto = block'.id cfg.crypto)
    (hsig : block.builderSignature = block'.builderSignature)
    (htrxs : requestsOf block = requestsOf block') (s : ChainState) :
    confirmBlock cfg block s = confirmBlock cfg block' s := by
  have hheader : block.toSignedBlockHeader = block'.toSignedBlockHeader := by
    obtain ⟨⟨header, sig⟩, receipts⟩ := block
    obtain ⟨⟨header', sig'⟩, receipts'⟩ := block'
    obtain rfl : header = header' := hid header header' hsame
    obtain rfl : sig = sig' := hsig
    rfl
  have hdesc : ∀ pre db, validateBlockDesc cfg pre db block = validateBlockDesc cfg pre db block' := by
    intro pre db
    simp only [validateBlockDesc, hheader]
  have hvalidate : ∀ pack : BlockPack,
      pack.validateBlock cfg.crypto block = pack.validateBlock cfg.crypto block' := by
    intro pack
    simp only [BlockPack.validateBlock, hheader]
  simp only [confirmBlock, applyBlock, hdesc, htrxs, hvalidate, hheader]

end Agreement


/-! ## A chain with one builder -/

/-- Hashing that numbers headers, each with few digits more than the one before it. -/
def headerCrypto : Crypto :=
  { numberingCrypto with
    sha256 := fun
      | .header h => ⟨1, Nat.pair h.previous.rest
          (Encodable.encode (h.builder, h.timestamp, h.previous.num, h.trxsMroot, h.nextBuilders))⟩
      | p => numberingCrypto.sha256 p }

theorem headerCrypto_rest {h h' : BlockHeader}
    (heq : (h.digest headerCrypto).rest = (h'.digest headerCrypto).rest) : h = h' := by
  obtain ⟨hrest, hcode⟩ := Nat.pair_eq_pair.1 heq
  have hfields := Encodable.encode_injective hcode
  obtain ⟨⟨num, rest⟩, timestamp, root, builder, next⟩ := h
  obtain ⟨⟨num', rest'⟩, timestamp', root', builder', next'⟩ := h'
  simp_all

theorem headerCrypto_id_injective (h h' : BlockHeader)
    (heq : h.id headerCrypto = h'.id headerCrypto) : h = h' := by
  have hrest : (h.id headerCrypto).rest = (h'.id headerCrypto).rest := by rw [heq]
  exact headerCrypto_rest hrest

theorem headerCrypto_injective : Function.Injective headerCrypto.sha256 := by
  have hother : ∀ p, (∃ h, p = .header h) ∨
      headerCrypto.sha256 p = numberingCrypto.sha256 p := by
    intro p
    cases p with
    | header h => exact .inl ⟨h, rfl⟩
    | _ => exact .inr rfl
  intro p q hpq
  rcases hother p with ⟨h, rfl⟩ | hp <;> rcases hother q with ⟨h', rfl⟩ | hq
  · exact congrArg Preimage.header (headerCrypto_rest (congrArg Summary.rest hpq))
  · rw [hq] at hpq
    exact absurd (congrArg Summary.num hpq) one_ne_zero
  · rw [hp] at hpq
    exact absurd (congrArg Summary.num hpq) zero_ne_one
  · rw [hp, hq] at hpq
    exact Encodable.encode_injective (congrArg Summary.rest hpq)

def headerConfig : ChainConfig := { stampConfig with crypto := headerCrypto }

def oneBuilderGenesis : BlockPack :=
  BlockPack.genesis headerCrypto 100 7 7 [] [⟨xmaxContractName, 7⟩]

/-- The database before genesis is final, without accounts. -/
def oneBuilderStart : ChainDb := { currentBuilders := oneBuilderGenesis.currentBuilders }

def oneBuilderDb : Except Fault ChainDb := do
  let db ← updateFinalState headerCrypto 100 oneBuilderGenesis.toPackCore oneBuilderStart
  return blockSummary headerCrypto oneBuilderGenesis.block db

/-- An empty block on genesis. -/
def secondBlock : SignedBlock :=
  { previous := oneBuilderGenesis.blockId, timestamp := 101, builder := xmaxContractName
    builderSignature := 7 }

theorem packs_agree_second :
    ∃ s s', applyBlock headerConfig secondBlock true s = .ok () s' ∧ s'.headPack.blockNum = 2 ∧
      ∃ trxs pack b q, requestsOf secondBlock = .ok trxs ∧
        startPack headerConfig s.headPack s.abortBuild.sink.blockDb.cur secondBlock.timestamp
          = .ok pack ∧
        blockBody headerConfig s.headPack trxs
            (fun pack => pack.validateBlock headerConfig.crypto secondBlock)
          ⟨pack, s.abortBuild.sink.blockDb.cur⟩ = .ok () b ∧
        s.headPack.initByPrePack secondBlock.timestamp false = .ok q ∧
        SamePack (q.generateByBlock headerConfig.crypto secondBlock) b.pack := by
  obtain ⟨db, -, hdb⟩ := exists_ok_of_eval (x := oneBuilderDb)
    (P := fun db => (match applyBlock headerConfig secondBlock true (.genesis oneBuilderGenesis db) with
      | .ok _ s => decide (s.headPack.blockNum = 2)
      | .error _ _ => false) = true) (by decide +kernel)
  split at hdb
  · rename_i u s' hs'
    exact ⟨_, s', hs', of_decide_eq_true hdb, packs_agree headerCrypto_id_injective hs'⟩
  · cases hdb

/-- Another copy of the block, with a signature that is not the builder's. -/
def forgedCopy : SignedBlock := { secondBlock with builderSignature := 8 }

/-- Another copy of the block, to which a receipt is added that names only a transaction's id. -/
def paddedCopy : SignedBlock := { secondBlock with receipts := [⟨0, .applied, .id default⟩] }

/-- The outcome of confirming a block on genesis. -/
def confirmedOnGenesis (block : SignedBlock) : Bool :=
  match oneBuilderDb with
  | .error _ => false
  | .ok db =>
    match confirmBlock headerConfig block (.genesis oneBuilderGenesis db) with
    | .ok _ _ => true
    | .error _ _ => false

/-- The block with one empty transaction, in a receipt with the index `i`. -/
def indexedCopy (i : ℕ) : SignedBlock :=
  { secondBlock with receipts := [⟨i, .applied, .package ⟨.original, {}⟩⟩] }

theorem same_id_same_fate_indices :
    indexedCopy 1 ≠ indexedCopy 2 ∧ ∀ s, confirmBlock headerConfig (indexedCopy 1) s =
      confirmBlock headerConfig (indexedCopy 2) s := by
  refine ⟨fun h => ?_, fun s => same_id_same_fate headerCrypto_id_injective rfl rfl rfl s⟩
  have := congrArg (fun b : SignedBlock => b.receipts.map (·.receiptIdx)) h
  simp [indexedCopy] at this

/-- Copies with the block's id are refused where the block is confirmed. -/
theorem copies_refused :
    Function.Injective headerConfig.crypto.sha256 ∧
      forgedCopy.id headerConfig.crypto = secondBlock.id headerConfig.crypto ∧
      paddedCopy.id headerConfig.crypto = secondBlock.id headerConfig.crypto ∧
      confirmedOnGenesis secondBlock = true ∧
      confirmedOnGenesis forgedCopy = false ∧ confirmedOnGenesis paddedCopy = false :=
  ⟨headerCrypto_injective, rfl, rfl, by decide +kernel, by decide, by decide⟩

theorem schedule_synced_second :
    ∃ p db, Applied headerConfig oneBuilderGenesis oneBuilderStart p db ∧ p.blockNum = 2 ∧
      Synced p.toPackCore db ∧ ∃ q, p.initByPrePack 130 true = .ok q ∧
        getBlockBuilder db (getDeltaSlotAtTime p.newHeader.timestamp 130) = some q.bldInfo := by
  obtain ⟨db, hdb, hblock⟩ := exists_ok_of_eval (x := oneBuilderDb)
    (P := fun db => (match directBlock headerConfig oneBuilderGenesis db secondBlock with
      | .ok b => decide (b.pack.blockNum = 2)
      | .error _ => false) = true) (by decide +kernel)
  obtain ⟨g, hg, hdb⟩ := bind_eq_ok.1 hdb
  cases hdb
  split at hblock
  · rename_i b hb
    have happlied : Applied headerConfig oneBuilderGenesis oneBuilderStart b.pack b.db :=
      .confirmed (.genesis hg) hb
    obtain ⟨hsynced, hbuilder⟩ := schedule_synced headerCrypto_id_injective happlied
    obtain ⟨q, hq, hinfo, -⟩ := hbuilder 130 true
    exact ⟨b.pack, b.db, happlied, of_decide_eq_true hblock, hsynced, q, hq, hinfo⟩
  · cases hblock

end XmaxChain
