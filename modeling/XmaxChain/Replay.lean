import XmaxChain.Chain
import XmaxChain.ForkRun

/-!
# A block applied again

A block that was built, from whichever transactions, holds those that went through; applied to the
database it was built on it takes them all again and leaves what it has left before. So the database
of a branch is a matter of its blocks alone, and it is said from genesis which one that is.
-/

namespace XmaxChain

section Requests

variable {cfg : ChainConfig} {t : ℕ} {builder : AccountName}

/-- The transactions of a list, one after the other. -/
def applyAll (cfg : ChainConfig) (t : ℕ) (builder : AccountName) (trxs : List SignedTransaction)
    (p : Pending) : Except Fault Pending :=
  trxs.foldlM (fun p trx => applyTransaction cfg t builder trx p) p

/-- A transaction is dropped, or passes its checks and leaves a receipt with itself. -/
theorem applyTransaction_cases {trx : SignedTransaction} {p p' : Pending}
    (h : applyTransaction cfg t builder trx p = .ok p') :
    p' = p ∨ ∃ r, checkTrx cfg t p.db trx = true ∧
      applyTransactionBody cfg t builder true trx p.db = .ok r ∧
      p' = ⟨r.1, p.receipts ++ [⟨r.1.trxCounter, .applied, .package ⟨.original, trx⟩⟩]⟩ := by
  unfold applyTransaction applyTransactionImpl at h
  split at h
  · rename_i hcheck
    split at h
    · rename_i hbody
      cases h
      exact .inr ⟨_, hcheck, hbody, rfl⟩
    · split at h
      · split at h
        · cases h
          exact .inl rfl
        · cases h
      · cases h
  · cases h
    exact .inl rfl

/-- One after the other the transactions pass their checks and run to their end. -/
def PassInTurn (cfg : ChainConfig) (t : ℕ) (builder : AccountName) :
    List SignedTransaction → ChainDb → Prop
  | [], _ => True
  | trx :: trxs, db => checkTrx cfg t db trx = true ∧
      ∃ r, applyTransactionBody cfg t builder true trx db = .ok r ∧ PassInTurn cfg t builder trxs r.1

/-- The transactions that went through go through again, to the same end, and all of them. -/
theorem applyAll_again {trxs : List SignedTransaction} {p p' : Pending}
    (h : applyAll cfg t builder trxs p = .ok p') :
    ∃ new again, p'.receipts = p.receipts ++ new ∧ new.mapM receiptBody = .ok again ∧
      applyAll cfg t builder again p = .ok p' ∧ PassInTurn cfg t builder again p.db := by
  unfold applyAll at h
  induction trxs generalizing p with
  | nil =>
    cases h
    exact ⟨[], [], by simp, rfl, rfl, trivial⟩
  | cons trx trxs ih =>
    rw [List.foldlM_cons, bind_eq_ok] at h
    obtain ⟨p₁, h₁, h⟩ := h
    obtain ⟨new, again, hnew, hagain, hall, hpass⟩ := ih h
    rcases applyTransaction_cases h₁ with rfl | ⟨r, hcheck, hbody, rfl⟩
    · exact ⟨new, again, hnew, hagain, hall, hpass⟩
    · refine ⟨⟨r.1.trxCounter, .applied, .package ⟨.original, trx⟩⟩ :: new, trx :: again, ?_, ?_, ?_,
        hcheck, r, hbody, hpass⟩
      · rw [hnew, List.append_assoc, List.singleton_append]
      · rw [List.mapM_cons, hagain]
        rfl
      · rw [applyAll, List.foldlM_cons, h₁]
        exact hall

theorem applyRequests_eq_ok {pre : BlockPack} {trxs : List SignedTransaction} {b b' : Building}
    {u : Unit} :
    applyRequests cfg pre trxs b = .ok u b' ↔
      ∃ p, applyAll cfg (timePoint pre.newHeader.timestamp) b.pack.bldInfo.builderName trxs
          ⟨b.db, b.pack.block.receipts⟩ = .ok p ∧
        b' = ⟨{ b.pack with block := { b.pack.block with receipts := p.receipts } }, p.db⟩ := by
  induction trxs generalizing b with
  | nil =>
    refine ⟨fun h => ?_, fun ⟨p, hp, h⟩ => ?_⟩
    · cases h
      exact ⟨_, rfl, rfl⟩
    · cases hp
      rw [h]
      rfl
  | cons trx trxs ih =>
    simp only [applyRequests, run_bind_eq_ok, applyAll, List.foldlM_cons, bind_eq_ok, applyRequest]
    cases applyTransaction cfg (timePoint pre.newHeader.timestamp) b.pack.bldInfo.builderName trx
        ⟨b.db, b.pack.block.receipts⟩ with
    | error e => simp
    | ok p₁ =>
      simp only [EStateM.Result.ok.injEq, true_and, exists_const, exists_eq_left',
        Except.ok.injEq, ih, applyAll]

end Requests

section Replay

variable {cfg : ChainConfig} {pre : BlockPack}

theorem changePack_eq_ok {f : BlockPack → Except Fault BlockPack} {b b' : Building} {u : Unit} :
    changePack f b = .ok u b' ↔ ∃ pack, f b.pack = .ok pack ∧ b' = ⟨pack, b.db⟩ := by
  unfold changePack
  cases f b.pack <;> simp [eq_comm]

theorem finalBlock_eq_ok {b b' : Building} {u : Unit} :
    finalBlock cfg pre b = .ok u b' ↔
      ∃ db, updateFinalState cfg.crypto pre.newHeader.timestamp b.pack.makeFinalBlock.toPackCore b.db
          = .ok db ∧
        b' = ⟨b.pack.makeFinalBlock, blockSummary cfg.crypto b.pack.makeFinalBlock.block db⟩ := by
  unfold finalBlock
  dsimp only
  generalize b.pack.makeFinalBlock = pack
  cases updateFinalState cfg.crypto pre.newHeader.timestamp pack.toPackCore b.db <;> simp [eq_comm]

/-- What a block that ran to its end has gone through. -/
theorem blockBody_eq_ok {trxs : List SignedTransaction} {finish : BlockPack → Except Fault BlockPack}
    {b b' : Building} {u : Unit} :
    blockBody cfg pre trxs finish b = .ok u b' ↔
      ∃ p pack db, applyAll cfg (timePoint pre.newHeader.timestamp) b.pack.bldInfo.builderName trxs
          ⟨b.db, b.pack.block.receipts⟩ = .ok p ∧
        finish (BlockPack.generateBlock cfg.crypto
          { b.pack with block := { b.pack.block with receipts := p.receipts } }) = .ok pack ∧
        updateFinalState cfg.crypto pre.newHeader.timestamp pack.makeFinalBlock.toPackCore p.db
          = .ok db ∧
        b' = ⟨pack.makeFinalBlock, blockSummary cfg.crypto pack.makeFinalBlock.block db⟩ := by
  simp only [blockBody, run_bind_eq_ok, applyRequests_eq_ok, changePack_eq_ok, finalBlock_eq_ok]
  constructor
  · rintro ⟨-, -, ⟨p, hp, rfl⟩, -, -, ⟨_, hroot, rfl⟩, -, -, ⟨pack, hpack, rfl⟩, db, hdb, rfl⟩
    cases hroot
    exact ⟨p, pack, db, hp, hpack, hdb, rfl⟩
  · rintro ⟨p, pack, db, hp, hpack, hdb, rfl⟩
    exact ⟨(), _, ⟨p, hp, rfl⟩, (), _, ⟨_, rfl, rfl⟩, (), _, ⟨pack, hpack, rfl⟩, db, hdb, rfl⟩

/-- The database that a block leaves when it is applied on the pack `pre`, apart from who signed
it. -/
def replay (cfg : ChainConfig) (pre : BlockPack) (db : ChainDb) (block : SignedBlock) :
    Except Fault ChainDb := do
  let trxs ← requestsOf block
  let pack ← startPack cfg pre db block.timestamp
  match blockBody cfg pre trxs (fun pack => pack.validateBlock cfg.crypto block) ⟨pack, db⟩ with
  | .error e _ => .error e
  | .ok _ b => .ok b.db

theorem replay_eq_ok {db db' : ChainDb} {block : SignedBlock} :
    replay cfg pre db block = .ok db' ↔
      ∃ trxs pack b, requestsOf block = .ok trxs ∧
        startPack cfg pre db block.timestamp = .ok pack ∧
        blockBody cfg pre trxs (fun pack => pack.validateBlock cfg.crypto block) ⟨pack, db⟩
          = .ok () b ∧ b.db = db' := by
  simp only [replay, bind_eq_ok]
  constructor
  · rintro ⟨trxs, htrxs, pack, hpack, h⟩
    split at h
    · cases h
    · rename_i b hb
      exact ⟨trxs, pack, b, htrxs, hpack, hb, Except.ok.inj h⟩
  · rintro ⟨trxs, pack, b, htrxs, hpack, hb, rfl⟩
    refine ⟨trxs, htrxs, pack, hpack, ?_⟩
    rw [hb]

theorem replay_eq_error {db : ChainDb} {block : SignedBlock} {e : Fault} :
    replay cfg pre db block = .error e ↔
      requestsOf block = .error e ∨ ∃ trxs, requestsOf block = .ok trxs ∧
        (startPack cfg pre db block.timestamp = .error e ∨
          ∃ pack b, startPack cfg pre db block.timestamp = .ok pack ∧
            blockBody cfg pre trxs (fun pack => pack.validateBlock cfg.crypto block) ⟨pack, db⟩
              = .error e b) := by
  simp only [replay, bind_eq_error]
  refine or_congr_right (exists_congr fun trxs => and_congr_right fun _ => or_congr_right ?_)
  constructor
  · rintro ⟨pack, hpack, h⟩
    split at h
    · rename_i b hb
      cases h
      exact ⟨pack, b, hpack, hb⟩
    · cases h
  · rintro ⟨pack, b, hpack, hb⟩
    refine ⟨pack, hpack, ?_⟩
    rw [hb]

theorem startPack_ok {db : ChainDb} {when : ℕ} {pack : BlockPack}
    (h : startPack cfg pre db when = .ok pack) :
    ∃ q, pre.initByPrePack when true = .ok q ∧ pack.block.receipts = [] ∧
      pack = { q with newHeader := pack.newHeader, newBuilders := pack.newBuilders } ∧
      pack.newHeader.timestamp = when ∧ pack.newHeader.previous = pre.blockId := by
  simp only [startPack, bind_eq_ok, captureRethrow_eq_ok, generateNextBuilders] at h
  obtain ⟨-, -, q, hq, h⟩ := h
  obtain ⟨current, -, hhead, -⟩ := initByPrePack_eq_ok hq
  have hblock : q.block.receipts = [] := by
    unfold BlockPack.initByPrePack at hq
    simp only [] at hq
    split at hq <;> cases hq
    rfl
  split at h
  · simp only [BlockPack.setNextBuilders, bind_eq_ok] at h
    obtain ⟨-, -, -, -, h⟩ := h
    cases h
    exact ⟨q, hq, hblock, rfl, by simp [hhead], by simp [hhead]⟩
  · cases h
    exact ⟨pack, hq, hblock, rfl, by simp [hhead], by simp [hhead]⟩

/-- A pack is sealed with some signature, and its id is that of the header. -/
def Seals (c : Crypto) (finish : BlockPack → Except Fault BlockPack) : Prop :=
  ∀ {p p'}, finish p = .ok p' → ∃ sig, p' = p.withSignature c sig

theorem seals_sign (c : Crypto) (key : ℕ) : Seals c fun p => .ok (p.signBlock c key) := by
  intro p p' h
  cases h
  exact ⟨_, rfl⟩

theorem seals_validate (c : Crypto) (block : SignedBlock) : Seals c fun p => p.validateBlock c block := by
  intro p p' h
  simp only [BlockPack.validateBlock, bind_eq_ok] at h
  obtain ⟨-, -, h⟩ := h
  cases h
  exact ⟨_, rfl⟩

/-- Where a block is accepted on the pack `pre`, none of its transactions is dropped. -/
def TakesAll (cfg : ChainConfig) (pre : BlockPack) (db : ChainDb) (block : SignedBlock) : Prop :=
  ∀ trxs pack, (∃ db', replay cfg pre db block = .ok db') → requestsOf block = .ok trxs →
    startPack cfg pre db block.timestamp = .ok pack →
    PassInTurn cfg (timePoint pre.newHeader.timestamp) pack.bldInfo.builderName trxs db

/-- A block that was built or confirmed, applied again. -/
theorem blockBody_again {db : ChainDb} {when : ℕ} {pack : BlockPack}
    {trxs : List SignedTransaction} {finish : BlockPack → Except Fault BlockPack} {b : Building}
    (hstart : startPack cfg pre db when = .ok pack) (hfinish : Seals cfg.crypto finish)
    (hbody : blockBody cfg pre trxs finish ⟨pack, db⟩ = .ok () b) :
    ∃ again b', requestsOf b.pack.block = .ok again ∧
      startPack cfg pre db b.pack.block.timestamp = .ok pack ∧
      PassInTurn cfg (timePoint pre.newHeader.timestamp) pack.bldInfo.builderName again db ∧
      blockBody cfg pre again (fun pack => pack.validateBlock cfg.crypto b.pack.block) ⟨pack, db⟩
        = .ok () b' ∧ b'.db = b.db := by
  obtain ⟨-, -, hnil, -, hwhen, -⟩ := startPack_ok hstart
  obtain ⟨p, sealed, db', hp, hsealed, hdb', rfl⟩ := blockBody_eq_ok.1 hbody
  obtain ⟨sig, rfl⟩ := hfinish hsealed
  obtain ⟨new, again, hnew, hagain, hall, hpass⟩ := applyAll_again hp
  have hreceipts : p.receipts = new := by rw [hnew, hnil, List.nil_append]
  refine ⟨again, _, ?_, ?_, hpass, blockBody_eq_ok.2 ⟨p, _, db', hall, ?_, hdb', rfl⟩, rfl⟩
  · rw [← hagain, ← hreceipts]
    rfl
  · rw [← hstart, ← hwhen]
    rfl
  · simp only [BlockPack.validateBlock]
    rw [bind_eq_ok]
    exact ⟨(), by rw [fcAssert_eq_ok]; exact beq_self_eq_true _, rfl⟩

/-- A block that was built or confirmed leaves the same when it is applied again. -/
theorem replay_of_blockBody {db : ChainDb} {when : ℕ} {pack : BlockPack}
    {trxs : List SignedTransaction} {finish : BlockPack → Except Fault BlockPack} {b : Building}
    (hstart : startPack cfg pre db when = .ok pack) (hfinish : Seals cfg.crypto finish)
    (hbody : blockBody cfg pre trxs finish ⟨pack, db⟩ = .ok () b) :
    replay cfg pre db b.pack.block = .ok b.db := by
  obtain ⟨again, b', hagain, hstart', -, hbody', hdb⟩ := blockBody_again hstart hfinish hbody
  exact replay_eq_ok.2 ⟨again, pack, b', hagain, hstart', hbody', hdb⟩

/-- Such a block holds only transactions that go through. -/
theorem takesAll_of_blockBody {db : ChainDb} {when : ℕ} {pack : BlockPack}
    {trxs : List SignedTransaction} {finish : BlockPack → Except Fault BlockPack} {b : Building}
    (hstart : startPack cfg pre db when = .ok pack) (hfinish : Seals cfg.crypto finish)
    (hbody : blockBody cfg pre trxs finish ⟨pack, db⟩ = .ok () b) :
    TakesAll cfg pre db b.pack.block := by
  obtain ⟨again, -, hagain, hstart', hpass, -⟩ := blockBody_again hstart hfinish hbody
  intro trxs' pack' _ htrxs hpack
  obtain rfl : again = trxs' := Except.ok.inj (hagain.symm.trans htrxs)
  obtain rfl : pack = pack' := Except.ok.inj (hstart'.symm.trans hpack)
  exact hpass

/-! ## What of the parent's pack matters -/

/-- Two blocks being built that differ in what the fork database marks on their packs. -/
structure SameBlock (b b' : Building) : Prop where
  db : b'.db = b.db
  core : b'.pack.toPackCore = b.pack.toPackCore

def SameOutcome : EStateM.Result Fault Building Unit → EStateM.Result Fault Building Unit → Prop
  | .ok _ b, .ok _ b' => SameBlock b b'
  | .error e _, .error e' _ => e = e'
  | _, _ => False

theorem SameOutcome.bind {x x' : EStateM Fault Building Unit} {y y' : Unit → EStateM Fault Building Unit}
    {b b' : Building} (hx : SameOutcome (x b) (x' b'))
    (hy : ∀ b b', SameBlock b b' → SameOutcome (y () b) (y' () b')) :
    SameOutcome ((x >>= y) b) ((x' >>= y') b') := by
  rw [run_bind, run_bind]
  cases hr : x b <;> cases hr' : x' b' <;> rw [hr, hr'] at hx
  · exact hy _ _ hx
  · exact hx.elim
  · exact hx.elim
  · exact hx

theorem SameBlock.changePack {f f' : BlockPack → Except Fault BlockPack}
    (hf : ∀ p p' : BlockPack, p'.toPackCore = p.toPackCore →
      (f' p').map (·.toPackCore) = (f p).map (·.toPackCore))
    {b b' : Building} (h : SameBlock b b') :
    SameOutcome (XmaxChain.changePack f b) (XmaxChain.changePack f' b') := by
  have hf := hf _ _ h.core
  unfold XmaxChain.changePack
  cases hr : f b.pack <;> cases hr' : f' b'.pack <;> rw [hr, hr'] at hf <;>
    simp only [Except.map, Except.ok.injEq, Except.error.injEq, reduceCtorEq] at hf
  · exact hf.symm
  · exact ⟨h.db, hf⟩

variable {pre' : BlockPack} {b b' : Building}

/-- Two packs on which the same packs are made, but for the marks of these. -/
structure SameNext (pre pre' : BlockPack) : Prop where
  newHeader : pre'.newHeader = pre.newHeader
  init : ∀ when m, (pre'.initByPrePack when m).map (·.toPackCore)
    = (pre.initByPrePack when m).map (·.toPackCore)

theorem SameNext.of_core (hpre : pre'.toPackCore = pre.toPackCore) : SameNext pre pre' := by
  refine ⟨by rw [hpre], fun when m => ?_⟩
  obtain ⟨core, marks⟩ := pre
  obtain ⟨core', marks'⟩ := pre'
  obtain rfl : core' = core := hpre
  unfold BlockPack.initByPrePack
  dsimp only
  cases selectBuilder core'.currentBuilders core'.newBuilders
    (u32 (core'.roundSlot + getDeltaSlotAtTime core'.newHeader.timestamp when)) <;> rfl

theorem SameBlock.applyRequests (hpre : SameNext pre pre')
    {trxs : List SignedTransaction} (h : SameBlock b b') :
    SameOutcome (XmaxChain.applyRequests cfg pre trxs b) (XmaxChain.applyRequests cfg pre' trxs b') := by
  induction trxs generalizing b b' with
  | nil => exact h
  | cons trx trxs ih =>
    refine SameOutcome.bind ?_ fun b b' h => ih h
    have hb := h.core
    unfold applyRequest
    rw [h.db, show b'.pack.block.receipts = b.pack.block.receipts by rw [hb],
      show b'.pack.bldInfo = b.pack.bldInfo by rw [hb],
      hpre.newHeader]
    cases applyTransaction cfg (timePoint pre.newHeader.timestamp) b.pack.bldInfo.builderName trx
        ⟨b.db, b.pack.block.receipts⟩ with
    | error e => rfl
    | ok p =>
      refine ⟨rfl, ?_⟩
      dsimp only
      rw [hb]

theorem SameBlock.finalBlock (hpre : SameNext pre pre') (h : SameBlock b b') :
    SameOutcome (XmaxChain.finalBlock cfg pre b) (XmaxChain.finalBlock cfg pre' b') := by
  have hcore : b'.pack.makeFinalBlock.toPackCore = b.pack.makeFinalBlock.toPackCore := by
    simp only [BlockPack.makeFinalBlock, h.core]
  unfold XmaxChain.finalBlock
  dsimp only
  rw [hcore, h.db, hpre.newHeader]
  cases updateFinalState cfg.crypto pre.newHeader.timestamp b.pack.makeFinalBlock.toPackCore b.db with
  | error e => rfl
  | ok db => exact ⟨rfl, hcore⟩

theorem generateNextBuilders_core {p p' : BlockPack} (hp : p'.toPackCore = p.toPackCore)
    (db : ChainDb) : (generateNextBuilders cfg db p').map (·.toPackCore)
      = (generateNextBuilders cfg db p).map (·.toPackCore) := by
  simp only [generateNextBuilders, BlockPack.setNextBuilders, hp]
  split_ifs
  · generalize fcAssert _ "wrong builder version." = version
    generalize fcAssert _ "wrong builder number." = number
    cases version with
    | error e => rfl
    | ok u => cases number <;> simp only [bind, Except.bind, pure, Except.pure, Except.map]
  · simp only [Except.map, hp]

theorem captureRethrow_map {α β : Type} (g : α → β) (x : Except Fault α) :
    (captureRethrow x).map g = captureRethrow (x.map g) := by
  cases x with
  | error e => cases e <;> rfl
  | ok a => rfl

theorem map_bind_congr {α β γ δ : Type} {x x' : Except Fault α} {f f' : α → Except Fault β}
    {k : α → δ} {g : β → γ} (hx : x'.map k = x.map k)
    (hf : ∀ a a', k a' = k a → (f' a').map g = (f a).map g) :
    (x' >>= f').map g = (x >>= f).map g := by
  cases x with
  | error e =>
    cases x' with
    | error e' => cases hx; rfl
    | ok a' => cases hx
  | ok a =>
    cases x' with
    | error e' => cases hx
    | ok a' => exact hf a a' (Except.ok.inj hx)

theorem SameNext.startPack (hpre : SameNext pre pre') (db : ChainDb) (when : ℕ) :
    (XmaxChain.startPack cfg pre' db when).map (·.toPackCore)
      = (XmaxChain.startPack cfg pre db when).map (·.toPackCore) := by
  unfold XmaxChain.startPack
  rw [hpre.newHeader]
  refine map_bind_congr (k := id) rfl fun _ _ _ => ?_
  rw [captureRethrow_map, captureRethrow_map]
  refine congrArg captureRethrow (map_bind_congr (hpre.init when true) ?_)
  exact fun p p' hp => generateNextBuilders_core hp db

theorem SameNext.replay (hpre : SameNext pre pre') (db : ChainDb) (block : SignedBlock) :
    XmaxChain.replay cfg pre' db block = XmaxChain.replay cfg pre db block := by
  have hid : ∀ x : Except Fault ChainDb, x.map id = x := fun x => by cases x <;> rfl
  rw [← hid (XmaxChain.replay cfg pre' db block), ← hid (XmaxChain.replay cfg pre db block)]
  unfold XmaxChain.replay
  refine map_bind_congr (k := id) rfl fun trxs trxs' htrxs => ?_
  rw [show trxs' = trxs from htrxs]
  refine map_bind_congr (hpre.startPack db block.timestamp) fun pack pack' hpack => ?_
  have hbody : SameOutcome
      (blockBody cfg pre trxs (fun p => p.validateBlock cfg.crypto block) ⟨pack, db⟩)
      (blockBody cfg pre' trxs (fun p => p.validateBlock cfg.crypto block) ⟨pack', db⟩) := by
    have hstarted : SameBlock ⟨pack, db⟩ ⟨pack', db⟩ := ⟨rfl, hpack⟩
    refine (hstarted.applyRequests hpre).bind fun b b' h => ?_
    refine (h.changePack fun p p' hp => ?_).bind fun b b' h => ?_
    · simp only [Except.map, BlockPack.generateBlock, hp]
    refine (h.changePack fun p p' hp => ?_).bind fun b b' h => h.finalBlock hpre
    simp only [BlockPack.validateBlock, BlockPack.withSignature, hp]
    refine map_bind_congr (k := id) rfl fun _ _ _ => ?_
    simp only [pure, Except.pure, Except.map]
  generalize blockBody cfg pre trxs (fun p => p.validateBlock cfg.crypto block) ⟨pack, db⟩ = r
    at hbody
  generalize blockBody cfg pre' trxs (fun p => p.validateBlock cfg.crypto block) ⟨pack', db⟩ = r'
    at hbody
  cases r with
  | error e b =>
    cases r' with
    | error e' b' => cases hbody; rfl
    | ok u b' => exact hbody.elim
  | ok u b =>
    cases r' with
    | error e' b' => exact hbody.elim
    | ok u' b' => exact congrArg Except.ok hbody.db

/-- Only what a pack has from the moment it is made matters to the blocks on it. -/
theorem replay_core (hpre : pre'.toPackCore = pre.toPackCore) (db : ChainDb) (block : SignedBlock) :
    replay cfg pre' db block = replay cfg pre db block :=
  (SameNext.of_core hpre).replay db block

end Replay

end XmaxChain
