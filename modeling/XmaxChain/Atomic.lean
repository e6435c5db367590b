import XmaxChain.Escapes
import XmaxChain.Schedule

/-!
# Applying a transaction, step by step

`apply_transaction` works in a session of its own inside the session of the block. Its steps write
the database one after the other, and only when the last of them is through are the session squashed
and the lists of the block and its counters changed. A step that throws ends the session, which
undoes all of it, and an exception of `fc` becomes an error in the response. It is a destructor that
undoes it, so where that throws in turn the process ends.
-/

namespace XmaxChain

structure MessageReceipt where
  toCode : AccountName
  messageIdx : ℕ
  messageId : Summary
deriving DecidableEq, Repr

/-- The block being built, with the database and the counters of its status. -/
structure BuildState where
  blockDb : Undo ChainDb
  receipts : List TransactionReceipt := []
  messageReceipts : List MessageReceipt := []
  transactions : List SignedTransaction := []
  trxCounter : ℕ := 0
  msgCounter : ℕ := 0

/-- The same block over another state of the database. -/
def BuildState.on (b : BuildState) (db : ChainDb) : BuildState :=
  { b with blockDb := b.blockDb.withCur db }

structure TransactionResponse where
  error : Option String := none
  receipt : Option TransactionReceipt := none

/-- What `exec_one_message` notes of a run that went through. -/
def Run.receipt (cfg : ChainConfig) (run : Run) : Option MessageReceipt :=
  match execOneMessage cfg.env run.ctx run.isNotify run.start with
  | .ok s => some ⟨run.ctx.code, s.db.msgCounter, cfg.crypto.sha256 (.message run.ctx.msg)⟩
  | .error _ => none

section Steps

/-- A step on the database. Whatever a step that throws has written by then, `left` is what is
left, with the rows of ERC721 ids that it leaves. -/
def dbStep {α : Type} (left : ChainDb) (rows : ChainDb → Erc721Rows)
    (f : ChainDb → Except Fault (α × ChainDb)) : EStateM Fault BuildState α := fun b =>
  match f b.blockDb.cur with
  | .ok (a, db) => .ok a (b.on db)
  | .error e => .error e (b.on { left with erc721Accounts := rows b.blockDb.cur })

variable (cfg : ChainConfig) (t : ℕ) (builder : AccountName) (left : ChainDb) (check : Bool)
  (trx : SignedTransaction)

def payerStep (db : ChainDb) : Except Fault (Unit × ChainDb) := do
  checkGaspayer db.toLedger trx
  pure ((), db)

def authStep (db : ChainDb) : Except Fault (Unit × ChainDb) := do
  checkAuth cfg check db.toAuthDb trx
  pure ((), db)

/-- The messages, with the gas they used and the receipts of their runs. -/
def execStep (db : ChainDb) : Except Fault ((ℕ × List MessageReceipt) × ChainDb) := do
  let (auth, gasUsed) ← exec cfg.env trx t db.toAuthDb
  let runs := trxRuns cfg.env trx t trx.messages db.toAuthDb 0
  pure ((gasUsed, runs.filterMap (·.receipt cfg)), { db with toAuthDb := auth })

def gasStep (gasUsed : ℕ) (db : ChainDb) : Except Fault (Unit × ChainDb) := do
  let l ← transferGas builder db.toLedger trx.gasPayer gasUsed
  pure ((), { db with toLedger := l })

def recordTransaction (db : ChainDb) : Except Fault (Unit × ChainDb) := do
  let transactions ← dbCreate db.transactions (trx.id cfg.crypto) trx.expiration
  pure ((), { db with transactions := transactions })

def applyTransactionReceipt : EStateM Fault BuildState TransactionReceipt := fun b =>
  let counter := u64 (b.blockDb.cur.trxCounter + 1)
  let receipt : TransactionReceipt := ⟨counter, .applied, .package ⟨.original, trx⟩⟩
  .ok receipt { b with
    receipts := b.receipts ++ [receipt]
    blockDb := b.blockDb.withCur { b.blockDb.cur with trxCounter := counter } }

/-- What stands in the `try` block, after the session has begun. -/
def trxSteps : EStateM Fault BuildState TransactionResponse := do
  dbStep left (·.erc721Accounts) (payerStep trx)
  dbStep left (·.erc721Accounts) (authStep cfg check trx)
  let (gasUsed, msgReceipts) ← dbStep left (fun db => erc721After cfg.env trx t db.toAuthDb)
    (execStep cfg t trx)
  dbStep left (·.erc721Accounts) (gasStep builder trx gasUsed)
  dbStep left (·.erc721Accounts) (recordTransaction cfg trx)
  let receipt ← applyTransactionReceipt trx
  modify fun b => { b with
    blockDb := b.blockDb.squash
    messageReceipts := b.messageReceipts ++ msgReceipts
    transactions := b.transactions ++ [trx]
    trxCounter := b.trxCounter + 1
    msgCounter := b.msgCounter + trx.messages.length }
  return { receipt := some receipt }

/-- `apply_transaction_impl`: leaving the block that threw ends the session. -/
def applyTransactionImplIn : EStateM Fault BuildState TransactionResponse := fun b =>
  match trxSteps cfg t builder left check trx { b with blockDb := b.blockDb.start } with
  | .ok response b => .ok response b
  | .error e b =>
    match undoDb b.blockDb with
    | .error (_, u) => .error .terminated { b with blockDb := u }
    | .ok u =>
      match e with
      | .fc msg => .ok { error := some msg } { b with blockDb := u }
      | e => .error e { b with blockDb := u }

/-- `apply_transaction`, while a block is being built. -/
def applyTransactionIn : EStateM Fault BuildState TransactionResponse := fun b =>
  if checkTrx cfg t b.blockDb.cur trx then applyTransactionImplIn cfg t builder left true trx b
  else .ok {} b

end Steps

section Outcome

variable {cfg : ChainConfig} {t : ℕ} {builder : AccountName} {left : ChainDb} {check : Bool}
  {trx : SignedTransaction} {b : BuildState}

/-- The block with one more transaction in it, and the database it left. -/
def BuildState.withTrx (cfg : ChainConfig) (t : ℕ) (trx : SignedTransaction) (db : ChainDb)
    (b : BuildState) : BuildState where
  blockDb := b.blockDb.withCur db
  receipts := b.receipts ++ [⟨db.trxCounter, .applied, .package ⟨.original, trx⟩⟩]
  messageReceipts := b.messageReceipts ++
    (trxRuns cfg.env trx t trx.messages b.blockDb.cur.toAuthDb 0).filterMap (·.receipt cfg)
  transactions := b.transactions ++ [trx]
  trxCounter := b.trxCounter + 1
  msgCounter := b.msgCounter + trx.messages.length

theorem dbStep_ok {α β : Type} {f : ChainDb → Except Fault (α × ChainDb)} {a : α} {db db' : ChainDb}
    {rows : ChainDb → Erc721Rows} (h : f db = .ok (a, db')) (g : α → EStateM Fault BuildState β) :
    (dbStep left rows f >>= g) (b.on db) = g a (b.on db') := by
  refine run_bind_ok ?_
  unfold dbStep
  rw [show f (b.on db).blockDb.cur = _ from h]
  rfl

theorem dbStep_error {α β : Type} {f : ChainDb → Except Fault (α × ChainDb)} {e : Fault}
    {db : ChainDb} {rows : ChainDb → Erc721Rows} (h : f db = .error e)
    (g : α → EStateM Fault BuildState β) :
    (dbStep left rows f >>= g) (b.on db) = .error e (b.on { left with erc721Accounts := rows db }) := by
  refine run_bind_error ?_
  unfold dbStep
  rw [show f (b.on db).blockDb.cur = _ from h]
  rfl

theorem payerStep_ok {db : ChainDb} (h : checkGaspayer db.toLedger trx = .ok ()) :
    payerStep trx db = .ok ((), db) := by
  rw [payerStep, h]
  rfl

theorem authStep_ok {db : ChainDb} (h : checkAuth cfg check db.toAuthDb trx = .ok ()) :
    authStep cfg check trx db = .ok ((), db) := by
  rw [authStep, h]
  rfl

theorem execStep_ok {db : ChainDb} {auth : AuthDb} {gasUsed : ℕ}
    (h : exec cfg.env trx t db.toAuthDb = .ok (auth, gasUsed)) :
    execStep cfg t trx db = .ok ((gasUsed, (trxRuns cfg.env trx t trx.messages db.toAuthDb 0).filterMap
      (·.receipt cfg)), { db with toAuthDb := auth }) := by
  rw [execStep, h]
  rfl

theorem gasStep_ok {db : ChainDb} {auth : AuthDb} {gasUsed : ℕ} {l : Ledger}
    (h : transferGas builder auth.toLedger trx.gasPayer gasUsed = .ok l) :
    gasStep builder trx gasUsed { db with toAuthDb := auth }
      = .ok ((), { db with toAuthDb := { auth with toLedger := l } }) := by
  simp only [gasStep, h]
  rfl

/-- The steps of a transaction that goes through leave what it leaves as a whole. -/
theorem trxSteps_ok {db : ChainDb} {r : ChainDb × ℕ}
    (h : applyTransactionBody cfg t builder check trx db = .ok r) :
    trxSteps cfg t builder left check trx (b.on db)
      = .ok { receipt := some ⟨r.1.trxCounter, .applied, .package ⟨.original, trx⟩⟩ }
        { (b.on db).withTrx cfg t trx r.1 with blockDb := (b.blockDb.withCur r.1).squash } := by
  obtain ⟨hpayer, hauth, auth, l, transactions, hexec, hgas, hrecord, hdb⟩ := applyTransactionBody_ok h
  have hrecorded : recordTransaction cfg trx { db with toAuthDb := { auth with toLedger := l } }
      = .ok ((), { db with toAuthDb := { auth with toLedger := l }, transactions := transactions }) := by
    rw [recordTransaction, hrecord]
    rfl
  unfold trxSteps
  rw [dbStep_ok (payerStep_ok hpayer), dbStep_ok (authStep_ok hauth), dbStep_ok (execStep_ok hexec)]
  dsimp only
  rw [dbStep_ok (gasStep_ok hgas), dbStep_ok hrecorded, hdb]
  rfl

/-- Steps that throw have changed nothing but the database, and leave the rows of ERC721 ids that the
messages left. -/
theorem trxSteps_error {db : ChainDb} {e : Fault}
    (h : applyTransactionBody cfg t builder check trx db = .error e) :
    trxSteps cfg t builder left check trx (b.on db)
      = .error e (b.on { left with erc721Accounts := erc721Left cfg t check trx db }) := by
  unfold trxSteps erc721Left
  simp only [applyTransactionBody, bind_eq_error, Prod.exists] at h
  rcases h with hpayer | ⟨⟨⟩, hpayer, hauth | ⟨⟨⟩, hauth, hexec | ⟨auth, gas, hexec, hgas |
    ⟨l, hgas, hrecord | ⟨_, -, h⟩⟩⟩⟩⟩
  · have hstep : payerStep trx db = .error e := by
      rw [payerStep, hpayer]
      rfl
    rw [dbStep_error hstep, hpayer]
  · have hstep : authStep cfg check trx db = .error e := by
      rw [authStep, hauth]
      rfl
    rw [dbStep_ok (payerStep_ok hpayer), dbStep_error hstep, hpayer, hauth]
  · have hstep : execStep cfg t trx db = .error e := by
      rw [execStep, hexec]
      rfl
    rw [dbStep_ok (payerStep_ok hpayer), dbStep_ok (authStep_ok hauth), dbStep_error hstep, hpayer,
      hauth]
  · have hstep : gasStep builder trx gas { db with toAuthDb := auth } = .error e := by
      simp only [gasStep, hgas]
      rfl
    rw [dbStep_ok (payerStep_ok hpayer), dbStep_ok (authStep_ok hauth), dbStep_ok (execStep_ok hexec)]
    dsimp only
    rw [dbStep_error hstep, hpayer, hauth]
    simp only [erc721After_of_exec hexec]
  · have hstep : recordTransaction cfg trx { db with toAuthDb := { auth with toLedger := l } }
        = .error e := by
      simp only [recordTransaction, hrecord]
      rfl
    rw [dbStep_ok (payerStep_ok hpayer), dbStep_ok (authStep_ok hauth), dbStep_ok (execStep_ok hexec)]
    dsimp only
    rw [dbStep_ok (gasStep_ok hgas), dbStep_error hstep, hpayer, hauth]
    obtain ⟨tokens, rfl⟩ := transferGas_ok hgas
    simp only [erc721After_of_exec hexec]
  · cases h

theorem applyTransactionImplIn_ok {r : ChainDb × ℕ} (hopen : b.blockDb.stack ≠ [])
    (h : applyTransactionBody cfg t builder check trx b.blockDb.cur = .ok r) :
    applyTransactionImplIn cfg t builder left check trx b
      = .ok { receipt := some ⟨r.1.trxCounter, .applied, .package ⟨.original, trx⟩⟩ }
        (b.withTrx cfg t trx r.1) := by
  have hsteps : trxSteps cfg t builder left check trx { b with blockDb := b.blockDb.start } = _ :=
    trxSteps_ok (b := { b with blockDb := b.blockDb.start }) h
  unfold applyTransactionImplIn
  rw [hsteps, Undo.squash_withCur_start hopen]
  rfl

section Throws

variable {e : Fault} (h : applyTransactionBody cfg t builder check trx b.blockDb.cur = .error e)

include h

/-- Whatever the step that threw has written, the session takes it back if the rows of ERC721 ids
can be given back. -/
theorem trxSteps_undone (left : ChainDb)
    (hback : GivesBack b.blockDb.cur.erc721Accounts (erc721Left cfg t check trx b.blockDb.cur)) :
    ∃ b', trxSteps cfg t builder left check trx { b with blockDb := b.blockDb.start } = .error e b' ∧
      undoDb b'.blockDb = .ok b.blockDb ∧ { b' with blockDb := b.blockDb } = b := by
  refine ⟨_, trxSteps_error (b := { b with blockDb := b.blockDb.start }) h, ?_, rfl⟩
  rw [BuildState.on, undoDb_of_undoable, Undo.undo_withCur_start]
  exact undoable_start.2 hback

theorem applyTransactionImplIn_fc {msg : String} (he : e = .fc msg)
    (hback : GivesBack b.blockDb.cur.erc721Accounts (erc721Left cfg t check trx b.blockDb.cur)) :
    applyTransactionImplIn cfg t builder left check trx b = .ok { error := some msg } b := by
  obtain ⟨b', hsteps, hundo, hb⟩ := trxSteps_undone h left hback
  unfold applyTransactionImplIn
  rw [hsteps, he]
  simp only [hundo, hb]

theorem applyTransactionImplIn_escapes (he : e.isFc = false)
    (hback : GivesBack b.blockDb.cur.erc721Accounts (erc721Left cfg t check trx b.blockDb.cur)) :
    applyTransactionImplIn cfg t builder left check trx b = .error e b := by
  obtain ⟨b', hsteps, hundo, hb⟩ := trxSteps_undone h left hback
  unfold applyTransactionImplIn
  rw [hsteps]
  simp only [hundo, hb]
  cases e with
  | fc msg => cases he
  | _ => rfl

/-- Otherwise the process ends, and nothing but these rows is other than before. -/
theorem applyTransactionImplIn_ends (left : ChainDb)
    (hback : ¬ GivesBack b.blockDb.cur.erc721Accounts (erc721Left cfg t check trx b.blockDb.cur)) :
    ∃ rows, applyTransactionImplIn cfg t builder left check trx b
      = .error .terminated (b.on { b.blockDb.cur with erc721Accounts := rows }) := by
  have hsteps : trxSteps cfg t builder left check trx { b with blockDb := b.blockDb.start } = _ :=
    trxSteps_error (b := { b with blockDb := b.blockDb.start }) h
  have hnot : ¬ Undoable (b.blockDb.start.withCur
      { left with erc721Accounts := erc721Left cfg t check trx b.blockDb.cur }) :=
    fun hu => hback (undoable_start.1 hu)
  obtain ⟨e', rows, herr⟩ := undoDb_error hnot
  rw [Undo.undo_withCur_start] at herr
  refine ⟨rows, ?_⟩
  unfold applyTransactionImplIn
  rw [hsteps]
  simp only [BuildState.on, herr]

end Throws

end Outcome

/-! ## The databases that are reached -/

/-- From genesis, by transactions that go through and by the ends of blocks. What is undone goes back
to a database that was reached before. -/
inductive ReachedDb (cfg : ChainConfig) : ChainDb → Prop
  | genesis {d : ChainDb} (authorities : AuthoritiesOk d.toAuthDb) (voters : d.voters = .empty) :
      ReachedDb cfg d
  | trx {db : ChainDb} {r : ChainDb × ℕ} {t : ℕ} {builder : AccountName} {check : Bool}
      {trx : SignedTransaction} (before : ReachedDb cfg db)
      (applied : applyTransactionBody cfg t builder check trx db = .ok r) : ReachedDb cfg r.1
  | final {db db' : ChainDb} {headTime : ℕ} {pack : PackCore} {block : SignedBlock}
      (before : ReachedDb cfg db)
      (ended : updateFinalState cfg.crypto headTime pack db = .ok db') :
      ReachedDb cfg (blockSummary cfg.crypto block db')

section Reached

variable {cfg : ChainConfig} {db : ChainDb}

theorem ReachedDb.ok (h : ReachedDb cfg db) : DbOk db := by
  induction h with
  | genesis authorities voters =>
    refine ⟨authorities, fun a p ha => ?_⟩
    rw [proxyOf, voters] at ha
    cases ha
  | trx _ applied ih => exact ih.applyTransactionBody applied
  | final _ ended ih =>
    have hsame := (updateFinalState_frame ended).1
    refine ⟨?_, ?_⟩
    · exact hsame ▸ ih.authorities
    · exact congrArg (fun db : AuthDb => db.voters) hsame ▸ ih.proxies

theorem ReachedDb.applyAll {t : ℕ} {builder : AccountName} {trxs : List SignedTransaction}
    {p p' : Pending} (h : applyAll cfg t builder trxs p = .ok p') (hp : ReachedDb cfg p.db) :
    ReachedDb cfg p'.db := by
  refine foldlM_keeps (P := fun p => ReachedDb cfg p.db) ?_ h hp
  intro p₁ trx p₂ h₂ h₁
  rcases applyTransaction_cases h₂ with rfl | ⟨r, -, hbody, rfl⟩
  · exact h₁
  · exact .trx h₁ hbody

theorem ReachedDb.blockBody {pre : BlockPack} {trxs : List SignedTransaction}
    {finish : BlockPack → Except Fault BlockPack} {b b' : Building}
    (h : blockBody cfg pre trxs finish b = .ok () b') (hb : ReachedDb cfg b.db) :
    ReachedDb cfg b'.db := by
  obtain ⟨p, pack, db, hall, -, hfinal, rfl⟩ := blockBody_eq_ok.1 h
  exact .final (.applyAll hall hb) hfinal

/-- The database of every head is one of them. -/
theorem Applied.reached {G p : BlockPack} {d : ChainDb} (hd : ReachedDb cfg d)
    (h : Applied cfg G d p db) : ReachedDb cfg db := by
  induction h with
  | genesis final => exact .final hd final
  | built parent start body ih => exact .blockBody body ih
  | confirmed parent direct ih =>
    obtain ⟨-, _, _, -, -, hbody⟩ := directBlock_eq_ok.1 direct
    exact .blockBody hbody ih
  | switched parent direct init ih =>
    obtain ⟨-, _, _, -, -, hbody⟩ := directBlock_eq_ok.1 direct
    exact .blockBody hbody ih
  | marked head core ih => exact ih

end Reached

/-! ## All or nothing -/

section AllOrNothing

variable {cfg : ChainConfig} {t : ℕ} {builder : AccountName} {left : ChainDb}
  {trx : SignedTransaction} {b : BuildState} {db : ChainDb}

/-- The rows of ERC721 ids can be given back wherever the transaction fails: in a message, or after
all of them because the gas cannot be moved or the transaction is not new. -/
structure TakenBack (cfg : ChainConfig) (t : ℕ) (builder : AccountName) (trx : SignedTransaction)
    (db : ChainDb) : Prop where
  messages : checkGaspayer db.toLedger trx = .ok () → checkAuth cfg true db.toAuthDb trx = .ok () →
    ∀ e, exec cfg.env trx t db.toAuthDb = .error e →
      GivesBack db.erc721Accounts (erc721After cfg.env trx t db.toAuthDb)
  charged : checkGaspayer db.toLedger trx = .ok () → checkAuth cfg true db.toAuthDb trx = .ok () →
    ∀ auth gasUsed, exec cfg.env trx t db.toAuthDb = .ok (auth, gasUsed) →
      (∀ l, transferGas builder auth.toLedger trx.gasPayer gasUsed = .ok l →
        db.transactions.find? (trx.id cfg.crypto) ≠ none) →
      GivesBack db.erc721Accounts auth.erc721Accounts

theorem takenBack_iff : TakenBack cfg t builder trx db ↔
    ∀ e, applyTransactionBody cfg t builder true trx db = .error e →
      GivesBack db.erc721Accounts (erc721Left cfg t true trx db) := by
  unfold erc721Left
  cases hpayer : checkGaspayer db.toLedger trx with
  | error e =>
    refine ⟨fun _ _ _ => givesBack_self, fun _ => ⟨fun h => ?_, fun h => ?_⟩⟩ <;>
      · rw [hpayer] at h
        cases h
  | ok _ =>
    cases hauth : checkAuth cfg true db.toAuthDb trx with
    | error e =>
      refine ⟨fun _ _ _ => givesBack_self, fun _ => ⟨fun _ h => ?_, fun _ h => ?_⟩⟩ <;>
        · rw [hauth] at h
          cases h
    | ok _ =>
      cases hexec : exec cfg.env trx t db.toAuthDb with
      | error e =>
        have hbody : applyTransactionBody cfg t builder true trx db = .error e := by
          simp only [applyTransactionBody, hpayer, hauth, hexec]
          rfl
        refine ⟨fun h _ _ => h.messages hpayer hauth e hexec, fun h => ⟨fun _ _ _ _ => h e hbody, ?_⟩⟩
        intro _ _ auth gas h'
        rw [hexec] at h'
        cases h'
      | ok r =>
        obtain ⟨auth, gas⟩ := r
        have hrows := erc721After_of_exec hexec
        have hok : (∃ r, applyTransactionBody cfg t builder true trx db = .ok r) ↔
            ∃ l, transferGas builder auth.toLedger trx.gasPayer gas = .ok l ∧
              db.transactions.find? (trx.id cfg.crypto) = none := by
          constructor
          · rintro ⟨r, hr⟩
            obtain ⟨-, -, auth', l, transactions, hexec', hgas, hrecord, -⟩ := applyTransactionBody_ok hr
            cases hexec.symm.trans hexec'
            exact ⟨l, hgas, (Table.create?_eq_some (dbCreate_eq_ok.1 hrecord)).1⟩
          · rintro ⟨l, hgas, hnone⟩
            obtain ⟨transactions, hc⟩ := Table.exists_create? trx.expiration hnone
            have hrecord := dbCreate_eq_ok.2 hc
            simp only [applyTransactionBody, bind_eq_ok]
            exact ⟨_, _, hpayer, _, hauth, _, hexec, l, hgas, _, hrecord, rfl⟩
        refine ⟨fun h e he => ?_, fun h => ⟨fun _ _ e h' => ?_, fun _ _ auth' gas' h' hno => ?_⟩⟩
        · rw [hrows]
          refine h.charged hpayer hauth auth gas hexec fun l hl hnone => ?_
          obtain ⟨r, hr⟩ := hok.2 ⟨l, hl, hnone⟩
          rw [hr] at he
          cases he
        · rw [hexec] at h'
          cases h'
        · cases hexec.symm.trans h'
          cases hbody : applyTransactionBody cfg t builder true trx db with
          | ok r =>
            obtain ⟨l, hl, hnone⟩ := hok.1 ⟨r, hbody⟩
            exact absurd hnone (hno l hl)
          | error e =>
            rw [← hrows]
            exact h e hbody

/-- Where nothing throws there is nothing to give back. -/
theorem TakenBack.of_body {r : ChainDb × ℕ}
    (h : applyTransactionBody cfg t builder true trx db = .ok r) : TakenBack cfg t builder trx db :=
  takenBack_iff.2 fun e he => by
    rw [h] at he
    cases he

/-- One transaction went in: one receipt for it, and its record in the database. -/
structure AddsOne (cfg : ChainConfig) (trx : SignedTransaction) (b b' : BuildState) : Prop where
  receipt : ∃ idx, b'.receipts = b.receipts ++ [⟨idx, .applied, .package ⟨.original, trx⟩⟩]
  recorded : b.blockDb.cur.transactions.create? (trx.id cfg.crypto) trx.expiration
    = some b'.blockDb.cur.transactions
  transactions : b'.transactions = b.transactions ++ [trx]
  trxCounter : b'.trxCounter = b.trxCounter + 1
  msgCounter : b'.msgCounter = b.msgCounter + trx.messages.length

/-- There is a response. Where it has an error, or the transaction is refused before it is tried,
everything is as it was, and otherwise one transaction went in. -/
def AllOrNothing (cfg : ChainConfig) (t : ℕ) (builder : AccountName) (left : ChainDb)
    (trx : SignedTransaction) (b : BuildState) : Prop :=
  ∃ response b', applyTransactionIn cfg t builder left trx b = .ok response b' ∧
    (checkTrx cfg t b.blockDb.cur trx = false ∨ response.error.isSome → b' = b) ∧
    (checkTrx cfg t b.blockDb.cur trx = true → response.error = none → AddsOne cfg trx b b')

/-- `apply_transaction` answers, all or nothing, exactly if the transaction is refused at once, or
nothing it looks up is missing where it gets to and the ids that it has moved when it fails can be
given back. -/
theorem apply_transaction_atomic_iff (h : ReachedDb cfg b.blockDb.cur) (hopen : b.blockDb.stack ≠ []) :
    AllOrNothing cfg t builder left trx b ↔
      (checkTrx cfg t b.blockDb.cur trx = true → Contained cfg t builder trx b.blockDb.cur ∧
        TakenBack cfg t builder trx b.blockDb.cur) := by
  unfold AllOrNothing applyTransactionIn
  by_cases hcheck : checkTrx cfg t b.blockDb.cur trx = true
  · simp only [hcheck, if_true, ← applyTransactionBody_fc h.ok, takenBack_iff, forall_const]
    cases hbody : applyTransactionBody cfg t builder true trx b.blockDb.cur with
    | ok r =>
      simp only [applyTransactionImplIn_ok hopen hbody, throws_ok, true_and]
      refine iff_of_true ?_ fun e he => by cases he
      obtain ⟨-, -, auth, l, transactions, -, -, hrecord, hdb⟩ := applyTransactionBody_ok hbody
      refine ⟨_, _, rfl, by simp, fun _ => ⟨⟨_, rfl⟩, ?_, rfl, rfl, rfl⟩⟩
      rw [dbCreate_eq_ok.1 hrecord]
      simp only [BuildState.withTrx, hdb, Undo.withCur_cur]
    | error e =>
      simp only [throws_error, Except.error.injEq, forall_eq']
      by_cases hback : GivesBack b.blockDb.cur.erc721Accounts (erc721Left cfg t true trx b.blockDb.cur)
      · cases he : e.isFc with
        | false => simp [applyTransactionImplIn_escapes hbody he hback]
        | true =>
          cases e with
          | fc msg => simp [applyTransactionImplIn_fc hbody rfl hback, hback]
          | _ => cases he
      · obtain ⟨rows, hends⟩ := applyTransactionImplIn_ends hbody left hback
        simp [hends, hback]
  · simp only [Bool.not_eq_true] at hcheck
    simp [hcheck]

end AllOrNothing

/-- The accounts 1 and 2 while their first block is being built. -/
def signingBlock : BuildState where
  blockDb := { cur := signingPair, stack := [(1, signingPair)], revision := 1 }

/-- Account 1 sends five tokens to account 2 and has signed it. -/
def signedFive : SignedTransaction := { sendFiveTrx with signatures := [21] }

theorem signingPair_reached : ReachedDb stampConfig signingPair := by
  refine .genesis ⟨rfl, fun k obj hk => ?_⟩ rfl
  have hall : ∀ r ∈ signingPair.authorities.rows, r.2.parent = 0 ∨ r.2.parent < r.2.id := by
    decide
  exact hall (k, obj) (Table.mem_rows_of_find? hk)

theorem signedFive_contained : Contained stampConfig 0 1 signedFive signingPair :=
  .of_plain rfl (by decide) (by decide) (by decide) rfl

theorem signedFive_takenBack : TakenBack stampConfig 0 1 signedFive signingPair := by
  obtain ⟨r, h, -⟩ := exists_ok_of_eval (P := fun _ => True)
    (x := applyTransactionBody stampConfig 0 1 true signedFive signingPair) (by decide)
  exact .of_body h

theorem apply_transaction_atomic_signed :
    checkTrx stampConfig 0 signingPair signedFive = true ∧
      Contained stampConfig 0 1 signedFive signingPair ∧
      AllOrNothing stampConfig 0 1 signingPair signedFive signingBlock :=
  ⟨by decide, signedFive_contained,
    (apply_transaction_atomic_iff signingPair_reached (List.cons_ne_nil _ _)).2
      fun _ => ⟨signedFive_contained, signedFive_takenBack⟩⟩

/-- The same with a limit on gas that account 99 is to pay, which does not exist. -/
def paidByNobody : SignedTransaction := { signedFive with gas := 1, gaslimit := 50, gasPayer := 99 }

theorem missing_payer_escapes :
    ReachedDb stampConfig signingBlock.blockDb.cur ∧ signingBlock.blockDb.stack ≠ [] ∧
      checkTrx stampConfig 0 signingBlock.blockDb.cur paidByNobody = true ∧
      ∀ left, applyTransactionIn stampConfig 0 1 left paidByNobody signingBlock
        = .error (.std "unknown key") signingBlock := by
  have hcheck : checkTrx stampConfig 0 signingBlock.blockDb.cur paidByNobody = true := by
    decide
  refine ⟨signingPair_reached, List.cons_ne_nil _ _, hcheck, fun left => ?_⟩
  unfold applyTransactionIn
  rw [if_pos hcheck]
  exact applyTransactionImplIn_escapes rfl rfl givesBack_self

end XmaxChain
