import XmaxChain.Atomic

/-!
# Accepted transactions

A transaction that is accepted waits in a queue, is selected into an array when a block is built,
and goes from there into the block. Building takes it out of the queue first: if an exception ends
the selection's loop the rest of the array is forgotten, and what a block has that was left open is
gone when the next call aborts it. And when the process ends, because ERC721 ids cannot be given back
to those who had them, all that was only in memory is gone.
-/

namespace XmaxChain

/-- The transactions that receipts carry. -/
def bodiesOf (receipts : List TransactionReceipt) : List SignedTransaction :=
  receipts.filterMap fun r => (receiptBody r).toOption

/-! ## The queue -/

def blockMaxMessageCount : ℕ := 500

/-- What is taken off the top of the queue, with `count` messages selected before, and the queue that
is left. -/
def selectTransactionsByGas :
    ℕ → List SignedTransaction → List SignedTransaction × List SignedTransaction
  | _, [] => ([], [])
  | count, top :: rest =>
    if blockMaxMessageCount < count + top.messages.length then ([], top :: rest)
    else
      let r := selectTransactionsByGas (count + top.messages.length) rest
      (top :: r.1, r.2)

/-- The chain with its pending transactions, in no order, and what has become of transactions so far:
which were accepted, which an `apply_transaction` refused or answered with an error, and the blocks
that were committed. -/
structure Node where
  chain : ChainState
  pending : List SignedTransaction := []
  accepted : List SignedTransaction := []
  rejected : List SignedTransaction := []
  committed : List SignedBlock := []
  /-- The process has ended. -/
  ended : Bool := false

section Calls

variable (cfg : ChainConfig)

/-- Those of a list that get no receipt, up to one that throws. -/
def refusedOf (t : ℕ) (builder : AccountName) :
    List SignedTransaction → Pending → List SignedTransaction
  | [], _ => []
  | trx :: trxs, p =>
    match applyTransaction cfg t builder trx p with
    | .error _ => []
    | .ok p' =>
      (if p'.receipts.length = p.receipts.length then [trx] else []) ++ refusedOf t builder trxs p'

/-- Whether the first of a list that throws ends the process. -/
def endsIn (t : ℕ) (builder : AccountName) : List SignedTransaction → Pending → Bool
  | [], _ => false
  | trx :: trxs, p =>
    match applyTransaction cfg t builder trx p with
    | .ok p' => endsIn t builder trxs p'
    | .error _ => checkTrx cfg t p.db trx &&
      !decide (GivesBack p.db.erc721Accounts (erc721Left cfg t true trx p.db))

namespace Node

def headTime (n : Node) : ℕ := timePoint n.chain.headPack.newHeader.timestamp

/-- The priority queue gives its transactions out in the order of gas, those with the same gas in any
order. -/
def Offers (n : Node) (queue : List SignedTransaction) : Prop :=
  queue.Perm n.pending ∧ queue.Pairwise fun a b => b.gas ≤ a.gas

/-- `push_transaction`. Without a block that is being built it only waits. -/
def pushTransaction (trx : SignedTransaction) (n : Node) : Node :=
  if checkTrx cfg n.headTime n.chain.sink.blockDb.cur trx then
    match n.chain.building with
    | none => { n with pending := trx :: n.pending, accepted := trx :: n.accepted }
    | some pack =>
      match applyTransactionBody cfg n.headTime pack.bldInfo.builderName true trx
          n.chain.sink.blockDb.cur with
      | .error _ =>
        { n with ended := !decide (GivesBack n.chain.sink.blockDb.cur.erc721Accounts
          (erc721Left cfg n.headTime true trx n.chain.sink.blockDb.cur)) }
      | .ok (db, _) =>
        let receipts := pack.block.receipts ++ [⟨db.trxCounter, .applied, .package ⟨.original, trx⟩⟩]
        { n with
          chain := n.chain.withBuilding ⟨{ pack with block := { pack.block with receipts } }, db⟩
          accepted := trx :: n.accepted }
  else n

/-- `_push_block` and `_commit_block`, where the block being built has been finished. -/
def pushAndCommit (n : Node) : Node :=
  match pushBlock cfg true n.chain with
  | .error _ s => { n with chain := s }
  | .ok _ s =>
    { n with
      chain := { s with building := none }
      committed := (n.chain.building.map (·.block)).toList ++ n.committed }

/-- What follows once a block has been started. -/
def finishBlock (x : BlockPack → EStateM Fault Building Unit) (n : Node) : Node :=
  match inBuilding x n.chain with
  | .error _ s => { n with chain := s }
  | .ok _ s => pushAndCommit cfg { n with chain := s }

/-- `build_block`, where the priority queue gives out `queue`. Transactions are selected only when the
block has been started. -/
def buildBlock (when signPrivateKey : ℕ) (queue : List SignedTransaction) (n : Node) : Node :=
  if n.chain.CanAbort then
    let s := n.chain.abortBuild
    match startPack cfg s.headPack s.sink.blockDb.cur when with
    | .error _ => { n with chain := s }
    | .ok pack =>
      let selected := (selectTransactionsByGas 0 queue).1
      let p : Pending := ⟨s.sink.blockDb.cur, pack.block.receipts⟩
      finishBlock cfg (fun pre => blockBody cfg pre selected fun pack =>
          .ok (pack.signBlock cfg.crypto signPrivateKey))
        { n with
          chain := { s.withDb s.sink.blockDb.start with building := some pack }
          pending := (selectTransactionsByGas 0 queue).2
          rejected := refusedOf cfg n.headTime pack.bldInfo.builderName selected p ++ n.rejected
          ended := endsIn cfg n.headTime pack.bldInfo.builderName selected p }
  else { n with ended := true }

/-- `confirm_block`. The block is looked at before the one being built is aborted. -/
def confirmBlock (block : SignedBlock) (n : Node) : Node :=
  match validateBlockDesc cfg n.chain.headPack n.chain.sink.blockDb.cur block, requestsOf block with
  | .ok _, .ok trxs =>
    if n.chain.CanAbort then
      let s := n.chain.abortBuild
      match startPack cfg s.headPack s.sink.blockDb.cur block.timestamp with
      | .error _ => { n with chain := s }
      | .ok pack =>
        let p : Pending := ⟨s.sink.blockDb.cur, pack.block.receipts⟩
        finishBlock cfg (fun pre => blockBody cfg pre trxs fun pack =>
            pack.validateBlock cfg.crypto block)
          { n with
            chain := { s.withDb s.sink.blockDb.start with building := some pack }
            rejected := refusedOf cfg n.headTime pack.bldInfo.builderName trxs p ++ n.rejected
            ended := endsIn cfg n.headTime pack.bldInfo.builderName trxs p }
    else { n with ended := true }
  | _, _ => n

end Node

end Calls

section Chain

variable {cfg : ChainConfig} {n : Node}

theorem Node.finishBlock_chain (x : BlockPack → EStateM Fault Building Unit) :
    (n.finishBlock cfg x).chain
      = stateOf ((inBuilding x >>= fun _ => pushBlock cfg true >>= fun _ => commitBlock) n.chain) := by
  unfold finishBlock pushAndCommit
  rw [run_bind]
  cases inBuilding x n.chain with
  | error e s => rfl
  | ok u s =>
    dsimp only
    rw [run_bind]
    cases pushBlock cfg true s <;> rfl

/-- The chain is as `build_block` on the selected transactions leaves it. -/
theorem Node.buildBlock_chain (when key : ℕ) (queue : List SignedTransaction) :
    (n.buildBlock cfg when key queue).chain
      = stateOf (XmaxChain.buildBlock cfg when key (selectTransactionsByGas 0 queue).1 n.chain) := by
  unfold Node.buildBlock XmaxChain.buildBlock
  split_ifs with hcan
  · rw [run_bind_ok (abortBuild_eq_ok (u := ()).2 ⟨hcan, rfl⟩), run_bind, startBuild]
    dsimp only
    cases startPack cfg n.chain.abortBuild.headPack n.chain.abortBuild.sink.blockDb.cur when with
    | error e => rfl
    | ok pack => exact finishBlock_chain _
  · have habort : abortBuild n.chain = .error .terminated n.chain := if_neg hcan
    rw [run_bind_error habort]
    rfl

/-- The chain is as `confirm_block` leaves it. -/
theorem Node.confirmBlock_chain (block : SignedBlock) :
    (n.confirmBlock cfg block).chain = stateOf (XmaxChain.confirmBlock cfg block n.chain) := by
  unfold Node.confirmBlock XmaxChain.confirmBlock applyBlock
  rw [run_bind, liftExcept]
  cases validateBlockDesc cfg n.chain.headPack n.chain.sink.blockDb.cur block with
  | error e => rfl
  | ok u =>
    dsimp only
    rw [run_bind, liftExcept]
    cases requestsOf block with
    | error e => rfl
    | ok trxs =>
      dsimp only
      split_ifs with hcan
      · rw [run_bind_ok (abortBuild_eq_ok (u := ()).2 ⟨hcan, rfl⟩), run_bind, startBuild]
        dsimp only
        cases startPack cfg n.chain.abortBuild.headPack n.chain.abortBuild.sink.blockDb.cur
            block.timestamp with
        | error e => rfl
        | ok pack => exact finishBlock_chain _
      · have habort : abortBuild n.chain = .error .terminated n.chain := if_neg hcan
        rw [run_bind_error habort]
        rfl

end Chain

/-! ## The databases of a node -/

/-- The database and everything that undoing leads back to are reached. -/
structure AllReached (cfg : ChainConfig) (u : Undo ChainDb) : Prop where
  cur : ReachedDb cfg u.cur
  stack : ∀ r ∈ u.stack, ReachedDb cfg r.2

section Reached

variable {cfg : ChainConfig} {u : Undo ChainDb} {s : ChainState}

theorem AllReached.start (h : AllReached cfg u) : AllReached cfg u.start := by
  refine ⟨h.cur, fun r hr => ?_⟩
  rcases List.mem_cons.1 hr with rfl | hr
  · exact h.cur
  · exact h.stack r hr

theorem AllReached.undo (h : AllReached cfg u) : AllReached cfg u.undo := by
  unfold Undo.undo
  split
  · exact h
  · rename_i top below hstack
    have hmem : ∀ r ∈ top :: below, ReachedDb cfg r.2 := hstack ▸ h.stack
    exact ⟨hmem top List.mem_cons_self, fun r hr => hmem r (List.mem_cons_of_mem _ hr)⟩

theorem AllReached.withCur (h : AllReached cfg u) {db : ChainDb} (hdb : ReachedDb cfg db) :
    AllReached cfg (u.withCur db) := ⟨hdb, h.stack⟩

theorem AllReached.commit (h : AllReached cfg u) (num : ℕ) : AllReached cfg (u.commit num) :=
  ⟨h.cur, fun r hr => h.stack r ((List.rdropWhile_prefix _ _).subset hr)⟩

theorem AllReached.abortBuild (h : AllReached cfg s.sink.blockDb) :
    AllReached cfg s.abortBuild.sink.blockDb := by
  unfold ChainState.abortBuild
  split
  · exact h
  · exact h.undo

theorem onIrreversible_reached {c : Crypto} {pack : BlockPack} {sink sink' : Sink ChainDb}
    (hrun : onIrreversible c pack sink = .ok sink') (h : AllReached cfg sink.blockDb) :
    AllReached cfg sink'.blockDb := by
  unfold onIrreversible at hrun
  split at hrun
  · cases hrun
  · simp only [bind_eq_ok] at hrun
    obtain ⟨-, -, -, -, hrun⟩ := hrun
    cases hrun
    exact h.commit _

theorem pushBlock_building (cfg : ChainConfig) (s : ChainState) (updatefork : Bool) :
    (stateOf (pushBlock cfg updatefork s)).building = s.building := by
  unfold pushBlock
  cases hb : s.building with
  | none => exact hb
  | some pack =>
    dsimp only
    split_ifs
    · exact hb
    · split
      · rfl
      · split_ifs <;> rfl
    · exact hb

theorem pushBlock_reached (updatefork : Bool) (h : AllReached cfg s.sink.blockDb) :
    AllReached cfg (stateOf (pushBlock cfg updatefork s)).sink.blockDb := by
  unfold pushBlock
  cases hb : s.building with
  | none => exact h
  | some pack =>
    dsimp only
    split_ifs
    · exact h
    · have hkeeps : AllReached cfg (stateOf (ForkContext.addPack (onIrreversible cfg.crypto) cfg.crypto
          pack (s.fork, s.sink))).2.blockDb :=
        ForkContext.addPack_keeps (R := fun sink : Sink ChainDb => AllReached cfg sink.blockDb)
          onIrreversible_reached h
      cases hadd : ForkContext.addPack (onIrreversible cfg.crypto) cfg.crypto pack (s.fork, s.sink) with
      | error e r =>
        rw [hadd] at hkeeps
        exact hkeeps
      | ok v r =>
        rw [hadd] at hkeeps
        dsimp only
        split_ifs
        · exact hkeeps
        · exact hkeeps
    · exact h

theorem applyRequests_reached {pre : BlockPack} {trxs : List SignedTransaction} {b : Building}
    (h : ReachedDb cfg b.db) : ReachedDb cfg (stateOf (applyRequests cfg pre trxs b)).db := by
  induction trxs generalizing b with
  | nil => exact h
  | cons trx trxs ih =>
    rw [applyRequests, run_bind, applyRequest]
    cases hrun : applyTransaction cfg (timePoint pre.newHeader.timestamp) b.pack.bldInfo.builderName trx
        ⟨b.db, b.pack.block.receipts⟩ with
    | error e => exact h
    | ok p =>
      refine ih ?_
      have hall : applyAll cfg (timePoint pre.newHeader.timestamp) b.pack.bldInfo.builderName [trx]
          ⟨b.db, b.pack.block.receipts⟩ = .ok p := by
        rw [applyAll, List.foldlM_cons, hrun]
        rfl
      exact .applyAll hall h

theorem changePack_db (f : BlockPack → Except Fault BlockPack) (b : Building) :
    (stateOf (changePack f b)).db = b.db := by
  unfold changePack
  split <;> rfl

theorem finalBlock_reached {pre : BlockPack} {b : Building} (h : ReachedDb cfg b.db) :
    ReachedDb cfg (stateOf (finalBlock cfg pre b)).db := by
  unfold finalBlock
  dsimp only
  split
  · exact h
  · rename_i db hdb
    exact .final h hdb

/-- What holds after the first of two calls and is kept by the second holds after both. -/
theorem stateOf_bind {σ α β : Type} {x : EStateM Fault σ α} {f : α → EStateM Fault σ β} {s : σ}
    {P : σ → Prop} (hx : P (stateOf (x s))) (hf : ∀ a s, P s → P (stateOf (f a s))) :
    P (stateOf ((x >>= f) s)) := by
  rw [run_bind]
  cases hr : x s with
  | error e s' =>
    rw [hr] at hx
    exact hx
  | ok a s' =>
    rw [hr] at hx
    exact hf a s' hx

theorem blockBody_reached {pre : BlockPack} {trxs : List SignedTransaction}
    {finish : BlockPack → Except Fault BlockPack} {b : Building} (h : ReachedDb cfg b.db) :
    ReachedDb cfg (stateOf (blockBody cfg pre trxs finish b)).db := by
  unfold blockBody
  refine stateOf_bind (P := fun b : Building => ReachedDb cfg b.db) (applyRequests_reached h) fun _ b h => ?_
  refine stateOf_bind (P := fun b : Building => ReachedDb cfg b.db) ?_ fun _ b h => ?_
  · rw [changePack_db]
    exact h
  refine stateOf_bind (P := fun b : Building => ReachedDb cfg b.db) ?_ fun _ b h => finalBlock_reached h
  rw [changePack_db]
  exact h

end Reached

section Places

variable {cfg : ChainConfig} {t : ℕ} {builder : AccountName}

/-- What is selected and what is left is the queue. -/
theorem selectTransactionsByGas_append (count : ℕ) (q : List SignedTransaction) :
    (selectTransactionsByGas count q).1 ++ (selectTransactionsByGas count q).2 = q := by
  induction q generalizing count with
  | nil => rfl
  | cons top rest ih =>
    unfold selectTransactionsByGas
    split_ifs
    · rfl
    · exact congrArg (top :: ·) (ih _)

theorem bodiesOf_append (rs rs' : List TransactionReceipt) :
    bodiesOf (rs ++ rs') = bodiesOf rs ++ bodiesOf rs' := List.filterMap_append

/-- A transaction gets its receipt, or is refused. -/
theorem applyAll_places {trxs : List SignedTransaction} {p p' : Pending}
    (h : applyAll cfg t builder trxs p = .ok p') :
    (∀ trx ∈ bodiesOf p.receipts, trx ∈ bodiesOf p'.receipts) ∧
      ∀ trx ∈ trxs, trx ∈ bodiesOf p'.receipts ∨ trx ∈ refusedOf cfg t builder trxs p := by
  induction trxs generalizing p with
  | nil =>
    cases h
    exact ⟨fun _ h => h, by simp⟩
  | cons trx trxs ih =>
    rw [applyAll, List.foldlM_cons, bind_eq_ok] at h
    obtain ⟨p₁, h₁, h⟩ := h
    obtain ⟨hgrow, hplaces⟩ := ih h
    have hlater : ∀ x ∈ trxs, x ∈ bodiesOf p'.receipts ∨ x ∈ refusedOf cfg t builder (trx :: trxs) p := by
      intro x hx
      rw [refusedOf, h₁]
      exact (hplaces x hx).imp_right (List.mem_append_right _)
    rcases applyTransaction_cases h₁ with rfl | ⟨r, -, -, hp₁⟩
    · refine ⟨hgrow, fun x hx => ?_⟩
      rcases List.mem_cons.1 hx with rfl | hx
      · right
        rw [refusedOf, h₁]
        simp
      · exact hlater x hx
    · have hnew : bodiesOf p₁.receipts = bodiesOf p.receipts ++ [trx] := by
        rw [hp₁, bodiesOf_append]
        rfl
      refine ⟨fun x hx => hgrow x ?_, fun x hx => ?_⟩
      · rw [hnew]
        exact List.mem_append_left _ hx
      · rcases List.mem_cons.1 hx with rfl | hx
        · left
          apply hgrow
          rw [hnew]
          exact List.mem_append_right _ List.mem_cons_self
        · exact hlater x hx

/-- Every transaction of a list that is not refused at once is as `Q` says when its turn comes. -/
def InTurn (cfg : ChainConfig) (t : ℕ) (builder : AccountName) (Q : SignedTransaction → ChainDb → Prop)
    (trxs : List SignedTransaction) (p : Pending) : Prop :=
  ∀ xs trx ys p', trxs = xs ++ trx :: ys → applyAll cfg t builder xs p = .ok p' →
    checkTrx cfg t p'.db trx = true → Q trx p'.db

/-- No transaction of a list ends the process. -/
def AllTakenBack (cfg : ChainConfig) (t : ℕ) (builder : AccountName) : List SignedTransaction → Pending → Prop :=
  InTurn cfg t builder (TakenBack cfg t builder)

/-- No transaction of a list makes `apply_transaction` throw. -/
def AllContained (cfg : ChainConfig) (t : ℕ) (builder : AccountName) : List SignedTransaction → Pending → Prop :=
  InTurn cfg t builder fun trx db => Contained cfg t builder trx db ∧ TakenBack cfg t builder trx db

theorem InTurn.cons {Q : SignedTransaction → ChainDb → Prop} {trx : SignedTransaction}
    {trxs : List SignedTransaction} {p p₁ : Pending} (h : InTurn cfg t builder Q (trx :: trxs) p)
    (h₁ : applyTransaction cfg t builder trx p = .ok p₁) : InTurn cfg t builder Q trxs p₁ := by
  intro xs x ys p' hsplit hxs
  refine h (trx :: xs) x ys p' (by rw [hsplit]; rfl) ?_
  rw [applyAll, List.foldlM_cons, h₁]
  exact hxs

theorem applyTransaction_answers {trx : SignedTransaction} {p : Pending} (h : ReachedDb cfg p.db)
    (hc : checkTrx cfg t p.db trx = true → Contained cfg t builder trx p.db ∧
      TakenBack cfg t builder trx p.db) :
    ∃ p', applyTransaction cfg t builder trx p = .ok p' := by
  unfold applyTransaction applyTransactionImpl
  split
  · rename_i hcheck
    obtain ⟨hcontained, hback⟩ := hc hcheck
    have hfc := (applyTransactionBody_fc h.ok).2 hcontained
    cases hbody : applyTransactionBody cfg t builder true trx p.db with
    | ok r => exact ⟨_, rfl⟩
    | error e =>
      rw [hbody, throws_error] at hfc
      dsimp only
      rw [if_pos (takenBack_iff.1 hback e hbody)]
      cases e with
      | fc msg => exact ⟨p, rfl⟩
      | _ => cases hfc
  · exact ⟨p, rfl⟩

/-- Then all of the list have their turn. -/
theorem AllContained.applyAll {trxs : List SignedTransaction} {p : Pending}
    (hc : AllContained cfg t builder trxs p) (h : ReachedDb cfg p.db) :
    ∃ p', applyAll cfg t builder trxs p = .ok p' := by
  induction trxs generalizing p with
  | nil => exact ⟨p, rfl⟩
  | cons trx trxs ih =>
    obtain ⟨p₁, h₁⟩ := applyTransaction_answers h (hc [] trx trxs p rfl rfl)
    have hone : XmaxChain.applyAll cfg t builder [trx] p = .ok p₁ := by
      rw [XmaxChain.applyAll, List.foldlM_cons, h₁]
      rfl
    obtain ⟨p', h'⟩ := ih (InTurn.cons hc h₁) (.applyAll hone h)
    refine ⟨p', ?_⟩
    rw [XmaxChain.applyAll, List.foldlM_cons, h₁]
    exact h'

theorem AllTakenBack.endsIn {trxs : List SignedTransaction} {p : Pending}
    (hc : AllTakenBack cfg t builder trxs p) : endsIn cfg t builder trxs p = false := by
  induction trxs generalizing p with
  | nil => rfl
  | cons trx trxs ih =>
    unfold XmaxChain.endsIn
    cases h₁ : applyTransaction cfg t builder trx p with
    | ok p₁ => exact ih (InTurn.cons hc h₁)
    | error e =>
      cases hcheck : checkTrx cfg t p.db trx with
      | false => rfl
      | true =>
        have hback := takenBack_iff.1 (hc [] trx trxs p rfl rfl hcheck)
        cases hbody : applyTransactionBody cfg t builder true trx p.db with
        | error e' => simp [hback e' hbody]
        | ok r =>
          rw [applyTransaction, if_pos hcheck, applyTransactionImpl, hbody] at h₁
          cases h₁

/-- Whatever happens to the block after its transactions, it keeps their receipts. -/
theorem blockBody_receipts {pre : BlockPack} {trxs : List SignedTransaction}
    {finish : BlockPack → Except Fault BlockPack} {b : Building} {p : Pending}
    (hfinish : Seals cfg.crypto finish)
    (h : applyAll cfg (timePoint pre.newHeader.timestamp) b.pack.bldInfo.builderName trxs
      ⟨b.db, b.pack.block.receipts⟩ = .ok p) :
    (stateOf (blockBody cfg pre trxs finish b)).pack.block.receipts = p.receipts := by
  have hall := (applyRequests_eq_ok (u := ())).2 ⟨p, h, rfl⟩
  unfold blockBody
  rw [run_bind_ok hall]
  refine stateOf_bind (P := fun b : Building => b.pack.block.receipts = p.receipts) rfl fun _ b hb => ?_
  refine stateOf_bind (P := fun b : Building => b.pack.block.receipts = p.receipts) ?_ fun _ b hb => ?_
  · unfold changePack
    split
    · exact hb
    · rename_i hsealed
      obtain ⟨sig, rfl⟩ := hfinish hsealed
      exact hb
  · unfold finalBlock
    dsimp only
    split
    · exact hb
    · exact hb

end Places

/-! ## Where accepted transactions are -/

namespace Node

variable (n : Node)

/-- Also when no block is being built. The queue is gone when the process has ended. -/
def Stored (trx : SignedTransaction) : Prop :=
  (n.ended = false ∧ trx ∈ n.pending) ∨ (∃ block ∈ n.committed, trx ∈ bodiesOf block.receipts) ∨
    trx ∈ n.rejected

def InBuilding (trx : SignedTransaction) : Prop :=
  n.ended = false ∧ ∃ pack, n.chain.building = some pack ∧ trx ∈ bodiesOf pack.block.receipts

/-- No accepted transaction is lost. -/
def Kept : Prop := ∀ trx ∈ n.accepted, n.Stored trx ∨ n.InBuilding trx

/-- Aborting the block that is being built loses none. -/
def Spare : Prop := ∀ trx ∈ n.accepted, n.InBuilding trx → n.Stored trx

end Node

section Moves

variable {cfg : ChainConfig} {n : Node} {x : BlockPack → EStateM Fault Building Unit} {pack : BlockPack}

theorem Node.pushAndCommit_places (cfg : ChainConfig) (n : Node) :
    (n.pushAndCommit cfg).accepted = n.accepted ∧ (n.pushAndCommit cfg).pending = n.pending ∧
    (n.pushAndCommit cfg).rejected = n.rejected ∧ (n.pushAndCommit cfg).ended = n.ended ∧
    ∀ block ∈ n.committed, block ∈ (n.pushAndCommit cfg).committed := by
  unfold pushAndCommit
  split
  · exact ⟨rfl, rfl, rfl, rfl, fun _ h => h⟩
  · exact ⟨rfl, rfl, rfl, rfl, fun _ h => List.mem_append_right _ h⟩

theorem Node.finishBlock_places : (n.finishBlock cfg x).accepted = n.accepted ∧
    (n.finishBlock cfg x).ended = n.ended ∧ (∀ trx, n.Stored trx → (n.finishBlock cfg x).Stored trx) := by
  have hkeeps : ∀ m : Node, m.accepted = n.accepted → m.pending = n.pending →
      m.rejected = n.rejected → m.ended = n.ended → (∀ block ∈ n.committed, block ∈ m.committed) →
      m.accepted = n.accepted ∧ m.ended = n.ended ∧ ∀ trx, n.Stored trx → m.Stored trx := by
    intro m haccepted hpending hrejected hended hcommitted
    refine ⟨haccepted, hended, fun trx h => ?_⟩
    rcases h with h | ⟨block, hblock, h⟩ | h
    · exact .inl (hended ▸ hpending ▸ h)
    · exact .inr (.inl ⟨block, hcommitted block hblock, h⟩)
    · exact .inr (.inr (hrejected ▸ h))
  unfold finishBlock
  split
  · exact hkeeps _ rfl rfl rfl rfl fun _ h => h
  · rename_i s _
    obtain ⟨haccepted, hpending, hrejected, hended, hcommitted⟩ :=
      pushAndCommit_places cfg { n with chain := s }
    exact hkeeps _ haccepted hpending hrejected hended hcommitted

/-- The block that was started stays open, or is committed. -/
theorem Node.finishBlock_block (hopen : n.chain.building = some pack) (hruns : n.ended = false)
    {trx : SignedTransaction}
    (h : trx ∈ bodiesOf (stateOf (x n.chain.headPack ⟨pack, n.chain.sink.blockDb.cur⟩)).pack.block.receipts) :
    (n.finishBlock cfg x).Stored trx ∨ (n.finishBlock cfg x).InBuilding trx := by
  unfold finishBlock inBuilding
  rw [hopen]
  dsimp only
  cases hx : x n.chain.headPack ⟨pack, n.chain.sink.blockDb.cur⟩ with
  | error e b =>
    rw [hx] at h
    exact .inr ⟨hruns, b.pack, rfl, h⟩
  | ok u b =>
    rw [hx] at h
    have hbuilding := pushBlock_building cfg (n.chain.withBuilding b) true
    unfold pushAndCommit
    dsimp only
    cases hpush : pushBlock cfg true (n.chain.withBuilding b) with
    | error e s =>
      rw [hpush] at hbuilding
      exact .inr ⟨hruns, b.pack, hbuilding, h⟩
    | ok v s => exact .inl (.inr (.inl ⟨b.pack.block, List.mem_cons_self, h⟩))

theorem Node.finishBlock_reached (hx : ∀ pre b, ReachedDb cfg b.db → ReachedDb cfg (stateOf (x pre b)).db)
    (h : AllReached cfg n.chain.sink.blockDb) :
    AllReached cfg (n.finishBlock cfg x).chain.sink.blockDb := by
  rw [finishBlock_chain]
  refine stateOf_bind (P := fun s : ChainState => AllReached cfg s.sink.blockDb) ?_ fun _ s h => ?_
  · unfold inBuilding
    cases n.chain.building with
    | none => exact h
    | some pack =>
      dsimp only
      have hb := hx n.chain.headPack ⟨pack, n.chain.sink.blockDb.cur⟩ h.cur
      cases hr : x n.chain.headPack ⟨pack, n.chain.sink.blockDb.cur⟩ with
      | error e b =>
        rw [hr] at hb
        exact h.withCur hb
      | ok u b =>
        rw [hr] at hb
        exact h.withCur hb
  · refine stateOf_bind (P := fun s : ChainState => AllReached cfg s.sink.blockDb) ?_ fun _ s h => h
    exact pushBlock_reached true h

end Moves

/-! ## Runs -/

/-- A call; for `build_block` with the order in which the priority queue gives out what it has. -/
inductive Call
  | pushTransaction (trx : SignedTransaction)
  | buildBlock (when signPrivateKey : ℕ) (queue : List SignedTransaction)
  | confirmBlock (block : SignedBlock)

/-- When the process has ended nothing is called any more. -/
def Node.step (cfg : ChainConfig) (n : Node) (call : Call) : Node :=
  if n.ended then n
  else
    match call with
    | .pushTransaction trx => n.pushTransaction cfg trx
    | .buildBlock when key queue => n.buildBlock cfg when key queue
    | .confirmBlock block => n.confirmBlock cfg block

/-- The queue gives out what is pending. -/
def Call.Possible (n : Node) : Call → Prop
  | .buildBlock _ _ queue => n.Offers queue
  | .pushTransaction _ | .confirmBlock _ => True

/-- What a call must find so that it loses nothing: where it aborts the block being built, that is
no loss and can be done, no transaction it selects makes `apply_transaction` throw, and none that it
applies ends the process. -/
def Call.Safe (cfg : ChainConfig) (n : Node) : Call → Prop
  | .pushTransaction trx => ∀ pack, n.chain.building = some pack →
      checkTrx cfg n.headTime n.chain.sink.blockDb.cur trx = true →
        TakenBack cfg n.headTime pack.bldInfo.builderName trx n.chain.sink.blockDb.cur
  | .buildBlock when _ queue => n.Spare ∧ n.chain.CanAbort ∧
      ∀ pack, startPack cfg n.chain.headPack n.chain.abortBuild.sink.blockDb.cur when = .ok pack →
        AllContained cfg n.headTime pack.bldInfo.builderName (selectTransactionsByGas 0 queue).1
          ⟨n.chain.abortBuild.sink.blockDb.cur, []⟩
  | .confirmBlock block =>
      validateBlockDesc cfg n.chain.headPack n.chain.sink.blockDb.cur block = .ok () →
        ∀ trxs, requestsOf block = .ok trxs → n.Spare ∧ n.chain.CanAbort ∧
          ∀ pack, startPack cfg n.chain.headPack n.chain.abortBuild.sink.blockDb.cur block.timestamp
              = .ok pack →
            AllTakenBack cfg n.headTime pack.bldInfo.builderName trxs
              ⟨n.chain.abortBuild.sink.blockDb.cur, []⟩

structure Node.Sound (cfg : ChainConfig) (n : Node) : Prop where
  dbs : AllReached cfg n.chain.sink.blockDb
  kept : n.Kept
  runs : n.ended = false

section Runs

variable {cfg : ChainConfig} {n : Node}

theorem Node.Sound.pushTransaction (h : n.Sound cfg) {trx : SignedTransaction}
    (hsafe : (Call.pushTransaction trx).Safe cfg n) : (n.pushTransaction cfg trx).Sound cfg := by
  unfold Node.pushTransaction
  split
  · rename_i hcheck
    split
    · refine ⟨h.dbs, fun x hx => ?_, h.runs⟩
      rcases List.mem_cons.1 hx with rfl | hx
      · exact .inl (.inl ⟨h.runs, List.mem_cons_self⟩)
      · rcases h.kept x hx with (⟨hruns, hp⟩ | hrest) | hb
        · exact .inl (.inl ⟨hruns, List.mem_cons_of_mem _ hp⟩)
        · exact .inl (.inr hrest)
        · exact .inr hb
    · rename_i pack hopen
      split
      · rename_i e hbody
        have hback := takenBack_iff.1 (hsafe pack hopen hcheck) e hbody
        have hruns : (!decide (GivesBack n.chain.sink.blockDb.cur.erc721Accounts
            (erc721Left cfg n.headTime true trx n.chain.sink.blockDb.cur))) = n.ended := by
          rw [h.runs, decide_eq_true hback]
          rfl
        rw [hruns]
        exact h
      · rename_i db _ hbody
        refine ⟨h.dbs.withCur (.trx h.dbs.cur hbody), fun x hx => ?_, h.runs⟩
        have hgrow : ∀ y, y = trx ∨ y ∈ bodiesOf pack.block.receipts → y ∈ bodiesOf
            (pack.block.receipts ++ [⟨db.trxCounter, .applied, .package ⟨.original, trx⟩⟩]) := by
          intro y hy
          rw [bodiesOf_append, List.mem_append]
          rcases hy with rfl | hy
          · exact .inr List.mem_cons_self
          · exact .inl hy
        rcases List.mem_cons.1 hx with rfl | hx
        · exact .inr ⟨h.runs, _, rfl, hgrow x (.inl rfl)⟩
        · rcases h.kept x hx with hstored | ⟨-, pack', hpack', hb⟩
          · exact .inl hstored
          · rw [hopen] at hpack'
            cases hpack'
            exact .inr ⟨h.runs, _, rfl, hgrow x (.inr hb)⟩
  · exact h

/-- With nothing to lose in the block being built, what is accepted is kept without it. -/
theorem Node.Sound.stored (h : n.Sound cfg) (hspare : n.Spare) {trx : SignedTransaction}
    (htrx : trx ∈ n.accepted) : n.Stored trx := by
  rcases h.kept trx htrx with hstored | hb
  · exact hstored
  · exact hspare trx htrx hb

theorem Node.Sound.buildBlock (h : n.Sound cfg) {when key : ℕ} {queue : List SignedTransaction}
    (hqueue : n.Offers queue) (hsafe : (Call.buildBlock when key queue).Safe cfg n) :
    (n.buildBlock cfg when key queue).Sound cfg := by
  obtain ⟨hspare, hcan, hcontained⟩ := hsafe
  unfold Node.buildBlock
  rw [if_pos hcan]
  dsimp only
  split
  · exact ⟨h.dbs.abortBuild, fun trx htrx => .inl (h.stored hspare htrx), h.runs⟩
  · rename_i pack hpack
    have habort := abortBuild_headPack n.chain
    rw [habort] at hpack
    obtain ⟨-, -, hnil, -⟩ := startPack_ok hpack
    have hdb : ReachedDb cfg n.chain.abortBuild.sink.blockDb.cur := h.dbs.abortBuild.cur
    have hall := hcontained pack hpack
    obtain ⟨p, hp⟩ := hall.applyAll hdb
    obtain ⟨-, hplaces⟩ := applyAll_places hp
    have hruns := AllTakenBack.endsIn fun xs trx ys p' hsplit hxs hcheck =>
      (hall xs trx ys p' hsplit hxs hcheck).2
    rw [← hnil] at hruns
    refine ⟨Node.finishBlock_reached (fun _ _ hb => blockBody_reached hb) h.dbs.abortBuild.start, ?_,
      Node.finishBlock_places.2.1.trans hruns⟩
    intro trx htrx
    rw [Node.finishBlock_places.1] at htrx
    have hselected := selectTransactionsByGas_append 0 queue
    rcases h.stored hspare htrx with ⟨-, hpending⟩ | hstored | hstored
    · rw [← hqueue.1.mem_iff, ← hselected, List.mem_append] at hpending
      rcases hpending with hsel | hrest
      · rcases hplaces trx hsel with hin | hrefused
        · refine Node.finishBlock_block rfl hruns ?_
          have hreceipts := blockBody_receipts (b := ⟨pack, _⟩) (seals_sign cfg.crypto key)
            (by rw [hnil]; exact hp)
          rw [← hreceipts, ← habort] at hin
          exact hin
        · refine .inl (Node.finishBlock_places.2.2 trx (.inr (.inr (List.mem_append_left _ ?_))))
          rw [hnil]
          exact hrefused
      · exact .inl (Node.finishBlock_places.2.2 trx (.inl ⟨hruns, hrest⟩))
    · exact .inl (Node.finishBlock_places.2.2 trx (.inr (.inl hstored)))
    · exact .inl (Node.finishBlock_places.2.2 trx (.inr (.inr (List.mem_append_right _ hstored))))

theorem Node.Sound.confirmBlock (h : n.Sound cfg) {block : SignedBlock}
    (hsafe : (Call.confirmBlock block).Safe cfg n) : (n.confirmBlock cfg block).Sound cfg := by
  unfold Node.confirmBlock
  split
  · rename_i trxs hdesc hrequests
    obtain ⟨hspare, hcan, htaken⟩ := hsafe hdesc trxs hrequests
    rw [if_pos hcan]
    dsimp only
    split
    · exact ⟨h.dbs.abortBuild, fun trx htrx => .inl (h.stored hspare htrx), h.runs⟩
    · rename_i pack hpack
      rw [abortBuild_headPack] at hpack
      obtain ⟨-, -, hnil, -⟩ := startPack_ok hpack
      have hruns := (htaken pack hpack).endsIn
      rw [← hnil] at hruns
      refine ⟨Node.finishBlock_reached (fun _ _ hb => blockBody_reached hb) h.dbs.abortBuild.start, ?_,
        Node.finishBlock_places.2.1.trans hruns⟩
      intro trx htrx
      rw [Node.finishBlock_places.1] at htrx
      refine .inl (Node.finishBlock_places.2.2 trx ?_)
      rcases h.stored hspare htrx with ⟨-, hpending⟩ | hstored | hstored
      · exact .inl ⟨hruns, hpending⟩
      · exact .inr (.inl hstored)
      · exact .inr (.inr (List.mem_append_right _ hstored))
  · exact h

theorem Node.Sound.step (h : n.Sound cfg) {call : Call} (hpossible : call.Possible n)
    (hsafe : call.Safe cfg n) : (n.step cfg call).Sound cfg := by
  unfold Node.step
  rw [if_neg (by rw [h.runs]; exact Bool.false_ne_true)]
  cases call with
  | pushTransaction trx => exact h.pushTransaction hsafe
  | buildBlock when key queue => exact h.buildBlock hpossible hsafe
  | confirmBlock block => exact h.confirmBlock hsafe

end Runs

/-- A node that has just started. -/
def Node.genesis (G : BlockPack) (db : ChainDb) : Node where
  chain := .genesis G db

/-- What calls lead to when each of them is safe. -/
inductive SafeRun (cfg : ChainConfig) : Node → Prop
  | genesis {G : BlockPack} {db : ChainDb} (reached : ReachedDb cfg db) :
      SafeRun cfg (.genesis G db)
  | step {n : Node} (before : SafeRun cfg n) (call : Call) (possible : call.Possible n)
      (safe : call.Safe cfg n) : SafeRun cfg (n.step cfg call)

section Lost

variable {cfg : ChainConfig} {n : Node}

theorem SafeRun.sound (h : SafeRun cfg n) : n.Sound cfg := by
  induction h with
  | genesis reached =>
    refine ⟨⟨reached, ?_⟩, ?_, rfl⟩
    · simp [Node.genesis, ChainState.genesis]
    · simp [Node.Kept, Node.genesis]
  | step _ call possible safe ih => exact ih.step possible safe

/-- A run of safe calls, of whatever kind and in whatever order, loses no accepted transaction. -/
theorem no_accepted_lost (h : SafeRun cfg n) : n.Kept := h.sound.kept

end Lost

/-! ## A node with two accounts -/

/-- The accounts 1 and 2 on a chain of two builders. -/
def pairNode : Node :=
  .genesis twoBuilderGenesis
    { signingPair with
      currentBuilders := twoBuilderGenesis.currentBuilders
      nextBuilders := twoBuilderGenesis.newBuilders }

theorem pairNode_reached : ReachedDb stampConfig pairNode.chain.sink.blockDb.cur := by
  refine .genesis ⟨rfl, fun k obj hk => ?_⟩ rfl
  have hall : ∀ r ∈ signingPair.authorities.rows, r.2.parent = 0 ∨ r.2.parent < r.2.id := by
    decide
  exact hall (k, obj) (Table.mem_rows_of_find? hk)

/-- The five tokens again, in time for the first block. -/
def timelyFive : SignedTransaction := { signedFive with expiration := timePoint 100 }

def timelyNode : Node := pairNode.pushTransaction stampConfig timelyFive

def builtNode : Node := timelyNode.buildBlock stampConfig 101 7 [timelyFive]

theorem timelyNode_state :
    timelyNode.pending = [timelyFive] ∧ timelyNode.ended = false ∧ timelyNode.chain.building = none ∧
      timelyNode.chain.abortBuild.sink.blockDb.cur.erc721Accounts.rows = [] ∧
      timelyFive ∈ builtNode.accepted ∧ builtNode.pending = [] := by
  decide +kernel

theorem timelyFive_contained (builder : AccountName) :
    Contained stampConfig timelyNode.headTime builder timelyFive
      timelyNode.chain.abortBuild.sink.blockDb.cur :=
  .of_plain rfl (by decide +kernel) (by decide +kernel) (by decide +kernel) (by decide +kernel)

theorem timelyFive_takenBack (builder : AccountName) :
    TakenBack stampConfig timelyNode.headTime builder timelyFive
      timelyNode.chain.abortBuild.sink.blockDb.cur := by
  obtain ⟨-, -, -, hnone, -⟩ := timelyNode_state
  have hback : ∀ rows, GivesBack timelyNode.chain.abortBuild.sink.blockDb.cur.erc721Accounts rows :=
    fun rows => givesBack_of_kept fun r hr => by
      rw [hnone] at hr
      cases hr
  exact ⟨fun _ _ _ _ => hback _, fun _ _ _ _ _ _ => hback _⟩

theorem timelyNode_build_safe : (Call.buildBlock 101 7 [timelyFive]).Safe stampConfig timelyNode := by
  obtain ⟨-, -, hidle, -⟩ := timelyNode_state
  refine ⟨fun trx _ hin => ?_, .inl hidle, fun pack _ xs trx ys p' hsplit hall _ => ?_⟩
  · obtain ⟨-, pack, hopen, -⟩ := hin
    rw [hidle] at hopen
    cases hopen
  · have hselected : (selectTransactionsByGas 0 [timelyFive]).1 = [timelyFive] := rfl
    rw [hselected] at hsplit
    cases xs with
    | nil =>
      cases hsplit
      cases hall
      exact ⟨timelyFive_contained _, timelyFive_takenBack _⟩
    | cons x xs =>
      have hlen := congrArg List.length hsplit
      simp at hlen

theorem timelyNode_offers : timelyNode.Offers [timelyFive] :=
  ⟨by rw [timelyNode_state.1], List.pairwise_singleton _ _⟩

theorem builtNode_run : SafeRun stampConfig builtNode := by
  have hpush : SafeRun stampConfig timelyNode :=
    .step (.genesis pairNode_reached) (.pushTransaction timelyFive) trivial
      fun pack hopen _ => by cases hopen
  have hbuild := hpush.step (.buildBlock 101 7 [timelyFive]) timelyNode_offers timelyNode_build_safe
  rwa [Node.step, if_neg (by rw [timelyNode_state.2.1]; exact Bool.false_ne_true)] at hbuild

theorem no_accepted_lost_timely :
    timelyFive ∈ builtNode.accepted ∧ builtNode.pending = [] ∧ builtNode.Kept := by
  obtain ⟨-, -, -, -, haccepted, hempty⟩ := timelyNode_state
  exact ⟨haccepted, hempty, no_accepted_lost builtNode_run⟩

/-- A transaction that account 99 is to pay for, which does not exist. -/
def timelyNobody : SignedTransaction := { paidByNobody with expiration := timePoint 100 }

def robbedNode : Node :=
  (pairNode.step stampConfig (.pushTransaction timelyNobody)).step stampConfig
    (.buildBlock 101 7 [timelyNobody])

theorem selected_then_lost :
    ReachedDb stampConfig pairNode.chain.sink.blockDb.cur ∧
      (pairNode.step stampConfig (.pushTransaction timelyNobody)).Offers [timelyNobody] ∧
      timelyNobody ∈ robbedNode.accepted ∧ robbedNode.ended = false ∧
      ¬ robbedNode.Stored timelyNobody ∧ ¬ robbedNode.InBuilding timelyNobody := by
  have hpending : (pairNode.step stampConfig (.pushTransaction timelyNobody)).pending
      = [timelyNobody] := by decide +kernel
  refine ⟨pairNode_reached, ⟨by rw [hpending], List.pairwise_singleton _ _⟩, by decide +kernel,
    by decide +kernel, ?_, ?_⟩
  · have hempty : robbedNode.pending = [] ∧ robbedNode.committed = [] ∧ robbedNode.rejected = [] := by
      decide +kernel
    simp [Node.Stored, hempty]
  · rintro ⟨-, pack, hopen, hin⟩
    have hnone : robbedNode.chain.building.map (fun pack => bodiesOf pack.block.receipts) = some [] := by
      decide +kernel
    rw [hopen] at hnone
    have hnil : bodiesOf pack.block.receipts = [] := Option.some.inj hnone
    rw [hnil] at hin
    cases hin

end XmaxChain
