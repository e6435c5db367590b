import XmaxChain.Lineage
import XmaxChain.Tapos

/-!
# Transactions only once

The table that makes transactions unique has those that went through on the branch, in the sessions
of its blocks. A block that is built or confirmed is kept as it came out, so its receipts are what
it has added to the table. One that comes in for a fork is kept as it was received: what is dropped
when it is applied is still among its receipts, and may be there twice, or come again later.
-/

namespace XmaxChain

open ParentWalk ForkContext

/-- The transaction of a receipt, by its id. -/
def TransactionReceipt.trxId (c : Crypto) (r : TransactionReceipt) : Summary :=
  match r.trx with
  | .id id => id
  | .package p => p.body.id c

/-- The ids of the transactions in the receipts of a block. -/
def trxIds (c : Crypto) (block : SignedBlock) : List Summary := block.receipts.map (·.trxId c)

/-- The table has just these ids, each of them once. -/
structure Lists (transactions : Table Summary ℕ) (ids : List Summary) : Prop where
  nodup : ids.Nodup
  find : ∀ id, (transactions.find? id).isSome ↔ id ∈ ids

/-- What `first_initialize` leaves: the genesis transaction, not checked, on a database without
transactions, then the end of the block. -/
inductive FirstInitialized (cfg : ChainConfig) (G : BlockPack) : ChainDb → Prop
  | final {d g : ChainDb} {p : Pending} {t : ℕ} {builder : AccountName} {trx : SignedTransaction}
      (fresh : d.transactions = .empty)
      (applied : applyTransactionImpl cfg t builder false trx ⟨d, []⟩ = .ok p)
      (receipts : G.block.receipts = p.receipts)
      (final : updateFinalState cfg.crypto G.newHeader.timestamp G.toPackCore p.db = .ok g) :
      FirstInitialized cfg G (blockSummary cfg.crypto G.block g)

variable {cfg : ChainConfig} {G : BlockPack} {g : Origin}

/-! ## What a block adds to the table -/

section Table

variable {transactions transactions' : Table Summary ℕ} {ids : List Summary} {id : Summary}

theorem Lists.empty : Lists .empty [] := ⟨List.nodup_nil, fun _ => by simp⟩

theorem Lists.perm {ids' : List Summary} (h : Lists transactions ids) (hp : ids.Perm ids') :
    Lists transactions ids' :=
  ⟨hp.nodup h.nodup, fun id => (h.find id).trans hp.mem_iff⟩

theorem Lists.create {expiration : ℕ} (h : Lists transactions ids)
    (hc : transactions.create? id expiration = some transactions') :
    Lists transactions' (id :: ids) := by
  obtain ⟨hnone, hfind⟩ := Table.create?_eq_some hc
  refine ⟨List.nodup_cons.2 ⟨fun hmem => ?_, h.nodup⟩, fun id' => ?_⟩
  · have hsome := (h.find id).2 hmem
    rw [hnone] at hsome
    cases hsome
  · rw [hfind, List.mem_cons, ← h.find]
    split_ifs with heq <;> simp [heq]

end Table

section Block

variable {t : ℕ} {builder : AccountName} {pre pack : BlockPack} {db db' : ChainDb}
  {block : SignedBlock} {trxs : List SignedTransaction} {ids : List Summary} {p p' : Pending}

/-- A transaction that goes through is recorded, and was not recorded before. -/
theorem applyTransactionBody_lists {check : Bool} {trx : SignedTransaction} {r : ChainDb × ℕ}
    (h : applyTransactionBody cfg t builder check trx db = .ok r) (hl : Lists db.transactions ids) :
    Lists r.1.transactions (trx.id cfg.crypto :: ids) := by
  obtain ⟨-, -, auth, l, transactions, -, -, hrecord, hdb⟩ := applyTransactionBody_ok h
  rw [hdb]
  exact hl.create (dbCreate_eq_ok.1 hrecord)

theorem Lists.receipt {transactions : Table Summary ℕ} {receipts : List TransactionReceipt}
    {r : TransactionReceipt}
    (h : Lists transactions (r.trxId cfg.crypto :: (receipts.map (·.trxId cfg.crypto) ++ ids))) :
    Lists transactions ((receipts ++ [r]).map (·.trxId cfg.crypto) ++ ids) := by
  refine h.perm ?_
  rw [List.map_append, List.append_assoc]
  exact List.perm_middle.symm

/-- The receipts of a block being built are what its transactions have recorded. -/
theorem applyAll_lists (h : applyAll cfg t builder trxs p = .ok p')
    (hl : Lists p.db.transactions (p.receipts.map (·.trxId cfg.crypto) ++ ids)) :
    Lists p'.db.transactions (p'.receipts.map (·.trxId cfg.crypto) ++ ids) := by
  refine foldlM_keeps
    (P := fun p => Lists p.db.transactions (p.receipts.map (·.trxId cfg.crypto) ++ ids)) ?_ h hl
  intro p₁ trx p₂ h₂ h₁
  rcases applyTransaction_cases h₂ with rfl | ⟨r, -, hbody, rfl⟩
  · exact h₁
  · exact (applyTransactionBody_lists hbody h₁).receipt

theorem Lists.genesis {g : ChainDb} (h : FirstInitialized cfg G g) :
    Lists g.transactions (trxIds cfg.crypto G.block) := by
  obtain ⟨fresh, applied, receipts, final⟩ := h
  obtain ⟨-, hsame, -⟩ := updateFinalState_frame final
  rename_i d g p t builder trx
  show Lists g.transactions (G.block.receipts.map _)
  rw [hsame, receipts]
  have hempty : Lists d.transactions [] := fresh ▸ .empty
  unfold applyTransactionImpl at applied
  split at applied
  · rename_i hbody
    cases applied
    exact applyTransactionBody_lists hbody hempty
  · split_ifs at applied
    split at applied
    · cases applied
      exact hempty
    · cases applied

/-- Transactions that all pass leave a receipt each. -/
theorem PassInTurn.receipts (hpass : PassInTurn cfg t builder trxs p.db)
    (h : applyAll cfg t builder trxs p = .ok p') :
    p'.receipts.map (·.trxId cfg.crypto)
      = p.receipts.map (·.trxId cfg.crypto) ++ trxs.map (·.id cfg.crypto) := by
  induction trxs generalizing p with
  | nil =>
    cases h
    rw [List.map_nil, List.append_nil]
  | cons trx trxs ih =>
    obtain ⟨hcheck, r, hbody, hrest⟩ := hpass
    rw [applyAll, List.foldlM_cons, bind_eq_ok] at h
    obtain ⟨p₁, h₁, h⟩ := h
    simp only [applyTransaction, applyTransactionImpl, if_pos hcheck, hbody] at h₁
    cases h₁
    rw [ih hrest h, List.map_append, List.append_assoc]
    rfl

theorem trxId_of_receiptBody (c : Crypto) {r : TransactionReceipt} {trx : SignedTransaction}
    (h : receiptBody r = .ok trx) : r.trxId c = trx.id c := by
  unfold receiptBody at h
  unfold TransactionReceipt.trxId
  split at h
  · rename_i hr
    cases h
    rw [hr]
  · cases h

theorem trxIds_of_requestsOf (c : Crypto) (h : requestsOf block = .ok trxs) :
    trxIds c block = trxs.map (·.id c) := by
  unfold requestsOf at h
  unfold trxIds
  generalize block.receipts = receipts at h ⊢
  induction receipts generalizing trxs with
  | nil =>
    cases h
    rfl
  | cons r receipts ih =>
    rw [List.mapM_cons] at h
    obtain ⟨trx, htrx, h⟩ := bind_eq_ok.1 h
    obtain ⟨rest, hrest, h⟩ := bind_eq_ok.1 h
    cases h
    rw [List.map_cons, List.map_cons, ih hrest, trxId_of_receiptBody c htrx]

/-- A block that takes all its transactions adds those in its receipts to the table. -/
theorem replay_lists (h : replay cfg pre db block = .ok db') (hall : TakesAll cfg pre db block)
    (hl : Lists db.transactions ids) :
    Lists db'.transactions (trxIds cfg.crypto block ++ ids) := by
  obtain ⟨trxs, pack, b, htrxs, hstart, hbody, rfl⟩ := replay_eq_ok.1 h
  have hpass := hall trxs pack ⟨b.db, h⟩ htrxs hstart
  obtain ⟨-, -, hnil, -⟩ := startPack_ok hstart
  obtain ⟨p, sealed, db₁, hp, -, hfinal, rfl⟩ := blockBody_eq_ok.1 hbody
  obtain ⟨-, hsame, -⟩ := updateFinalState_frame hfinal
  have hlists : Lists p.db.transactions (p.receipts.map (·.trxId cfg.crypto) ++ ids) :=
    applyAll_lists hp (by rw [hnil]; exact hl)
  have hreceipts := hpass.receipts hp
  rw [hreceipts, hnil, List.map_nil, List.nil_append, ← trxIds_of_requestsOf cfg.crypto htrxs,
    ← hsame] at hlists
  exact hlists

end Block

/-! ## The packs of the fork database -/

section Packs

variable {s s' : ChainState} {L X : Summary}

/-- Where its branch accepts a block, it drops none of its transactions. -/
def ChainState.TakesWhole (cfg : ChainConfig) (G : BlockPack) (g : Origin) (s : ChainState)
    (block : SignedBlock) : Prop :=
  ∀ blocks db, Executed cfg G g s.fork.objs blocks block.previous db →
    TakesAll cfg (s.fork.objs block.previous) db block

/-- What comes in for a fork drops none of its transactions. Where rows may be torn a block that was
built or confirmed may come to be applied again on others, so the same is asked of it. -/
def ChainState.Whole (cfg : ChainConfig) (G : BlockPack) (g : Origin) (s : ChainState) :
    ChainCall → Prop
  | .pushFork block => s.TakesWhole cfg G g block
  | call => g.torn = true → ∀ s', chainStep cfg call s = .ok () s' →
      s.TakesWhole cfg G g s'.headPack.block

/-- Where the blocks up to a pack can be applied in order, the table that they leave has what is in
their receipts. -/
def ChainState.Listed (cfg : ChainConfig) (G : BlockPack) (g : Origin) (s : ChainState) : Prop :=
  ∀ a, a ∈ s.fork.packs ∨ a = s.fork.head → ∀ blocks db, Executed cfg G g s.fork.objs blocks a db →
    Lists db.transactions (blocks.flatMap (trxIds cfg.crypto))

theorem ChainState.Listed.mono (h : s.Listed cfg G g)
    (known : ∀ a, a ∈ s'.fork.packs ∨ a = s'.fork.head → a ∈ s.fork.packs ∨ a = s.fork.head)
    (core : ∀ a, (s'.fork.objs a).toPackCore = (s.fork.objs a).toPackCore) : s'.Listed cfg G g :=
  fun a ha blocks db hexec =>
    h a (known a ha) blocks db (hexec.congr fun x _ => (core x).symm)

theorem ChainState.Listed.of_sameCores (h : s.Listed cfg G g) (hsame : SameCores s.fork s'.fork) :
    s'.Listed cfg G g :=
  h.mono (fun a ha => by rw [← hsame.packs, ← hsame.head]; exact ha) hsame.core

theorem ChainState.Listed.of_fork (h : s.Listed cfg G g) (hfork : s'.fork = s.fork) :
    s'.Listed cfg G g :=
  h.of_sameCores (by rw [hfork]; exact .refl _)

section Added

variable {blocks : List SignedBlock} {u : Undo ChainDb} {bh L' : Summary}
  {building : Option BlockPack} {pack : BlockPack} {sink sink' : Sink ChainDb}
  (hi : Inv cfg.crypto s.fork L X)
  (hadd : Added cfg G g s.fork bh pack building blocks u sink s'.fork sink' L')
  (hprev : pack.prevId ∈ s.fork.packs) (hnum : pack.blockId.num = pack.prevId.num + 1)

include hi hadd hprev hnum

theorem Added.core_known {a : Summary} (ha : a ∈ s.fork.packs ∨ a.num ≤ L.num) :
    (s'.fork.objs a).toPackCore = (s.fork.objs a).toPackCore := by
  rw [hadd.core, if_neg]
  rintro rfl
  rcases ha with ha | ha
  · exact hadd.fresh ha
  · have := hi.last_le hprev
    omega

/-- The ways up from the packs that were known do not lead over the new one. -/
theorem Added.executed_known {a : Summary} {blocks : List SignedBlock} {db : ChainDb}
    (ha : a ∈ s.fork.packs) (h : Executed cfg G g s'.fork.objs blocks a db) :
    Executed cfg G g s.fork.objs blocks a db := by
  refine h.congr_on (S := fun a => a ∈ s.fork.packs ∨ a.num ≤ L.num) (.inl ha)
    (fun x hx hup => ?_) fun x hx => (hadd.core_known hi hprev hnum hx).symm
  rw [hadd.core_known hi hprev hnum hx] at hup ⊢
  rcases hx with hx | hx
  · exact hi.connected x hx
  · exact .inr (by omega)

/-- The pack of a block that takes all its transactions is added on one that is known. -/
theorem ChainState.Listed.added (h : s.Listed cfg G g) (hG : G.block.blockNum = 1)
    (hid : G.blockId = G.block.id cfg.crypto) (hlow : 0 < L.num)
    (htakes : ∀ blocks db, Executed cfg G g s.fork.objs blocks pack.prevId db →
      TakesAll cfg (s.fork.objs pack.prevId) db pack.block) : s'.Listed cfg G g := by
  intro a ha blocks db hexec
  have hcases : a ∈ s.fork.packs ∨ a = pack.blockId := by
    rcases ha with ha | rfl
    · exact ((hadd.packs a).1 ha).1
    · obtain ⟨q, -, ⟨hhead, -⟩ | ⟨hhead, -⟩⟩ := hadd.lead
      · exact .inr hhead
      · exact .inl hhead
  rcases hcases with hold | rfl
  · exact h a (.inl hold) blocks db (hadd.executed_known hi hprev hnum hold hexec)
  have hnew : (s'.fork.objs pack.blockId).toPackCore = pack.toPackCore := by
    rw [hadd.core, if_pos rfl]
  have hup : (s'.fork.objs pack.blockId).prevId = pack.prevId := by rw [hnew]
  generalize hb : pack.blockId = b at hexec
  cases hexec with
  | genesis _ _ =>
    have hone : G.blockId.num = 1 := by rw [hid, BlockHeader.id_num, hG]
    have := hi.last_le hprev
    rw [← hb] at hone
    omega
  | applied known previous num parent replayed =>
    subst hb
    rw [hup] at parent replayed
    have hbelow := hadd.executed_known hi hprev hnum hprev parent
    have hblock : (s'.fork.objs pack.blockId).block = pack.block := by rw [hnew]
    have hcore := hadd.core_known hi hprev hnum (.inl hprev)
    rw [List.flatMap_cons]
    obtain ⟨d, d', hd, hrun, hd'⟩ := replayed.core hcore.symm
    rw [hblock] at hrun ⊢
    have hbelow' := hbelow.alike hd
    exact hd'.keeps (P := fun d => Lists d.transactions _) (fun _ _ hl => hl)
      (replay_lists hrun (htakes _ _ hbelow') (h _ (.inl hprev) _ _ hbelow'))

end Added

/-- Switching branches only removes packs. -/
theorem ChainState.Listed.checkForkLoop (h : s.Listed cfg G g) (hgood : Good cfg G g s L X)
    (fuel : ℕ) : (stateOf (checkForkLoop cfg fuel s)).Listed cfg G g := by
  refine h.mono (fun a ha => ?_) fun a => ?_
  · have hstart : ChainState.Held (fun a _ => a ∈ s.fork.packs ∨ a = s.fork.head) [] s := by
      refine ⟨hgood.inv.toContainer, fun a ha => ?_⟩
      rcases ha with ha | rfl | ha
      · exact .inl ha
      · exact .inr rfl
      · obtain rfl := List.mem_singleton.1 ha
        exact .inl hgood.headPack_mem
    exact (keeps_checkForkLoop fuel [] s hstart).held a (ha.imp_right .inl)
  · have hstart : ChainState.Held (fun a core => core = (s.fork.objs a).toPackCore) [a] s :=
      ⟨hgood.inv.toContainer, fun _ _ => rfl⟩
    exact (keeps_checkForkLoop fuel [a] s hstart).held a
      (.inr (.inr (List.mem_cons_of_mem _ List.mem_cons_self)))

end Packs

/-! ## Runs -/

section Steps

variable {s s' : ChainState} {L X : Summary} (hG : G.block.blockNum = 1)
  (hid : G.blockId = G.block.id cfg.crypto)

include hG hid

theorem Good.last_pos (h : Good cfg G g s L X) : 0 < L.num := by
  obtain ⟨blocks, u, hb, -⟩ := h.backed
  obtain ⟨db, hexec⟩ := hb.log_executed
  obtain ⟨hlen, ⟨b, below, hlog, -⟩, -⟩ := hexec.numbered hG hid
  rw [hlog, List.length_cons] at hlen
  omega

/-- A block that is built or confirmed holds only what goes through on the database of the head, and
on any other that rows of ERC721 ids make of it. -/
theorem Good.listed_extend {r : EStateM.Result Fault ChainState Unit} {blocks : List SignedBlock}
    {u : Undo ChainDb} (h : Good cfg G g s L X) (hl : s.Listed cfg G g)
    (hb : Backed cfg G g s.fork L s.sink.chainLog s.blockHead blocks u) (hok : s.ExtendOk)
    (hr : (∃ e s', r = .error e s' ∧ Unmoved u s s') ∨
      ∃ b, BuiltOn cfg s.headPack u.cur b ∧ TakesAll cfg s.headPack u.cur b.pack.block ∧
        r = (pushBlock cfg true >>= fun _ => commitBlock) (s.started u b))
    (hwhole : g.torn = true → ∀ s', r = .ok () s' → s.TakesWhole cfg G g s'.headPack.block) :
    (stateOf r).Listed cfg G g := by
  rcases hr with ⟨e, s', rfl, hun⟩ | ⟨b, hbuilt, htakes, rfl⟩
  · exact hl.of_fork hun.fork
  rcases h.push hb hbuilt hok.1 hok.2 with
    ⟨e, s', herr, hun⟩ | ⟨s', L', hpush, hgood, hhead, -, hadd⟩
  · rw [herr]
    exact hl.of_fork hun.fork
  rw [hpush]
  obtain ⟨hprev, hplace⟩ := hbuilt.made.place h.inv.toLinked h.headPack_mem hok.1
  refine hl.added h.inv hadd (by rw [hprev]; exact h.headPack_mem) (by rw [hprev]; exact hplace)
    hG hid (h.last_pos hG hid) fun blocks' db hexec => ?_
  cases hg : g.torn with
  | true =>
    have hblock : s'.headPack.block = b.pack.block := by
      rw [ChainState.headPack, hhead]
      exact congrArg PackCore.block ((hadd.core _).trans (if_pos rfl))
    have hprevious : b.pack.block.previous = b.pack.prevId := hbuilt.made.previous.trans
      (hbuilt.made.prev.symm)
    have htake := hwhole hg s' hpush blocks' db
    rw [hblock, hprevious] at htake
    exact htake hexec
  | false =>
    rw [hprev] at hexec ⊢
    obtain ⟨d, torn⟩ := g
    obtain rfl : torn = false := hg
    obtain ⟨-, rfl⟩ := (hb.executed h.inv.toLinked).unique (d := d) hG hid hexec
    exact htakes

theorem Good.listed_call {call : ChainCall} (h : Good cfg G g s L X) (hl : s.Listed cfg G g)
    (hcall : s.Careful cfg call) (hundo : g.torn = false → s.Undoes cfg call)
    (hwhole : s.Whole cfg G g call) :
    (stateOf (chainStep cfg call s)).Listed cfg G g := by
  obtain ⟨blocks, u, hb, ho⟩ := h.backed
  cases call with
  | buildBlock when key trxs =>
    exact h.listed_extend hG hid hl hb hcall (buildBlock_cases ho) hwhole
  | confirmBlock block =>
    exact h.listed_extend hG hid hl hb hcall ((applyBlock_cases ho).imp_right
      fun ⟨b, hbuilt, htakes, _, hrun⟩ => ⟨b, hbuilt, htakes, hrun⟩) hwhole
  | pushFork block =>
    show (stateOf (XmaxChain.pushFork cfg block s)).Listed cfg G g
    rw [stateOf_pushFork]
    rcases h.addForkBlock hcall with ⟨e, herr⟩ | ⟨s', L', p, hadd, hgood, -, hpack, ⟨_, _, hadded⟩, -⟩
    · rw [run_bind_error herr]
      exact hl
    · rw [run_bind_ok hadd]
      obtain ⟨hmem, hmade⟩ := MadeFrom.of_packOfBlock h.inv.toLinked hpack
      obtain ⟨hprev, hplace⟩ := hmade.place h.inv.toLinked hmem (hcall.1 hmem)
      have hblock : p.block = block := by
        obtain ⟨-, q, -, rfl⟩ := packOfBlock_ok hpack
        rfl
      have hl' : s'.Listed cfg G g := by
        refine hl.added h.inv hadded (by rw [hprev]; exact hmem) (by rw [hprev]; exact hplace)
          hG hid (h.last_pos hG hid) fun blocks' db hexec => ?_
        rw [hprev] at hexec ⊢
        rw [hblock]
        exact hwhole blocks' db hexec
      exact hl'.checkForkLoop hgood _
  | pushConfirmation conf =>
    show (stateOf (XmaxChain.pushConfirmation cfg conf s)).Listed cfg G g
    unfold XmaxChain.pushConfirmation
    split
    · exact hl
    · rename_i f hf
      obtain ⟨-, hsame, -⟩ := h.inv.addConfirmation hcall hf
      exact hl.of_sameCores hsame

end Steps

/-- A call, or a single step of what calls do: the block of `block_head` is undone, if it is not
irreversible, or a known pack is applied on it. -/
inductive BlockStep (cfg : ChainConfig) (G : BlockPack) (g : Origin) (s : ChainState) :
    ChainState → Prop
  | call {call : ChainCall} (careful : s.Careful cfg call)
      (undoes : g.torn = false → s.Undoes cfg call) (whole : s.Whole cfg G g call) :
      BlockStep cfg G g s (stateOf (chainStep cfg call s))
  | pop (revocable : s.headPack.irreversibleConfirmed = false)
      (undoable : g.torn = false → Undoable s.sink.blockDb) :
      BlockStep cfg G g s (stateOf (popBlock s))
  | apply {id : Summary} (known : id ∈ s.fork.packs) (next : s.fork.up id = s.blockHead) :
      BlockStep cfg G g s (stateOf (applyPack cfg id s))

/-- The states that blocks applied and undone in any order lead to from genesis: without tearing any
rows of ERC721 ids, if these are to be exact. -/
def BlockRun (cfg : ChainConfig) (G : BlockPack) (g : Origin) : ChainState → Prop :=
  Relation.ReflTransGen (BlockStep cfg G g) (.genesis G g.db)

section Runs

variable {s s' : ChainState} {time : ℕ} {key : PublicKey} {sig : Signature}
  {receipts : List TransactionReceipt} {next : List BuilderInfo}

theorem Good.blockStep {L X : Summary} (hG : G.block.blockNum = 1)
    (hid : G.blockId = G.block.id cfg.crypto) (h : Good cfg G g s L X) (hl : s.Listed cfg G g)
    (hstep : BlockStep cfg G g s s') : (∃ L' X', Good cfg G g s' L' X') ∧ s'.Listed cfg G g := by
  cases hstep with
  | call careful undoes whole =>
    obtain ⟨L', X', hgood, -⟩ := h.step careful undoes
    exact ⟨⟨L', X', hgood⟩, h.listed_call hG hid hl careful undoes whole⟩
  | pop revocable undoable =>
    have hne : s.blockHead ≠ L := fun heq => by
      have hmark := (h.inv.irreversible _ h.headPack_mem).2 heq
      rw [show (s.fork.objs s.blockHead).irreversibleConfirmed = false from revocable] at hmark
      cases hmark
    obtain ⟨s₁, hgood, -, hsame, hpop⟩ := h.popBlock hne undoable
    have hs₁ : stateOf (XmaxChain.popBlock s) = s₁ := by
      rcases hpop with ⟨-, hpop⟩ | ⟨-, e, hpop⟩ <;> rw [hpop] <;> rfl
    rw [hs₁]
    exact ⟨⟨L, X, hgood⟩, hl.of_sameCores hsame.cores⟩
  | @apply id known next =>
    obtain ⟨blocks, u, hb, ho⟩ := h.backed
    rcases h.applyPack hb ho known next with ⟨e, s₁, herr, hun, -⟩ | ⟨s₁, hok, hgood, -, hsame, -⟩
    · rw [herr]
      exact ⟨⟨L, X, h.unmoved hb hun⟩, hl.of_fork hun.fork⟩
    · rw [hok]
      exact ⟨⟨L, X, hgood⟩, hl.of_sameCores hsame.cores⟩

theorem BlockRun.listed
    (hg : Lists g.db.transactions
      (trxIds cfg.crypto (BlockPack.genesis cfg.crypto time key sig receipts next).block))
    (h : BlockRun cfg (BlockPack.genesis cfg.crypto time key sig receipts next) g s) :
    (∃ L X, Good cfg (BlockPack.genesis cfg.crypto time key sig receipts next) g s L X) ∧
      s.Listed cfg (BlockPack.genesis cfg.crypto time key sig receipts next) g := by
  induction h with
  | refl =>
    refine ⟨⟨_, _, .genesis⟩, fun a ha blocks db hexec => ?_⟩
    obtain rfl : a = _ := ha.elim List.mem_singleton.1 id
    obtain ⟨rfl, hdb⟩ := hexec.at_genesis rfl rfl
    rw [List.flatMap_singleton]
    exact hdb.keeps (P := fun d => Lists d.transactions _) (fun _ _ hl => hl) hg
  | tail _ hstep ih =>
    obtain ⟨⟨L, X, hgood⟩, hl⟩ := ih
    exact hgood.blockStep rfl rfl hl hstep

/-- Whatever blocks are applied and undone, no transaction is twice in the chain, and on the
database of the head a transaction is unique just if it is not in the chain. -/
theorem no_transaction_replayed
    (hinit : FirstInitialized cfg (BlockPack.genesis cfg.crypto time key sig receipts next) g.db)
    (hcheck : cfg.skipTransactionDupeCheck = false)
    (h : BlockRun cfg (BlockPack.genesis cfg.crypto time key sig receipts next) g s) :
    (s.path.flatMap (trxIds cfg.crypto)).Nodup ∧
      ∀ trx, validateUniqueness cfg s.abortBuild.sink.blockDb.cur trx = .ok () ↔
        trx.id cfg.crypto ∉ s.path.flatMap (trxIds cfg.crypto) := by
  obtain ⟨⟨L, X, hgood⟩, hl⟩ := h.listed (.genesis hinit)
  have hlists := hl _ (.inl hgood.headPack_mem) _ _ hgood.database.1
  refine ⟨hlists.nodup, fun trx => ?_⟩
  rw [validateUniqueness, hcheck, if_neg Bool.false_ne_true, fcAssert_eq_ok, ← hlists.find]
  cases s.abortBuild.sink.blockDb.cur.transactions.find? (trx.id cfg.crypto) <;> simp

end Runs

/-! ## A chain with one builder and two accounts -/

/-- Hashing that tells transactions apart by when they expire. -/
def expiryCrypto : Crypto :=
  { stampCrypto with
    sha256 := fun
      | .transaction t => ⟨0, t.expiration⟩
      | p => stampCrypto.sha256 p }

def expiryConfig : ChainConfig := { stampConfig with crypto := expiryCrypto }

/-- The receipt of the genesis transaction, here without messages. -/
def openingReceipt : TransactionReceipt := ⟨1, .applied, .package ⟨.original, {}⟩⟩

def pairGenesis : BlockPack :=
  BlockPack.genesis expiryCrypto 100 7 7 [openingReceipt] [⟨xmaxContractName, 7⟩]

/-- The two accounts before genesis. -/
def pairStart : ChainDb := { signingPair with currentBuilders := pairGenesis.currentBuilders }

def firstPairDb : Except Fault ChainDb := do
  let p ← applyTransactionImpl expiryConfig 0 xmaxContractName false {} ⟨pairStart, []⟩
  let db ← updateFinalState expiryCrypto pairGenesis.newHeader.timestamp pairGenesis.toPackCore p.db
  return blockSummary expiryCrypto pairGenesis.block db

def fiveReceipt : TransactionReceipt := ⟨2, .applied, .package ⟨.original, timelyFive⟩⟩

/-- A block on genesis with the five tokens twice; its header is that of the block with them once. -/
def twiceBlock : SignedBlock :=
  { previous := pairGenesis.blockId, timestamp := 102, builder := xmaxContractName
    builderSignature := 7, receipts := [fiveReceipt, fiveReceipt] }

def afterTwice : SignedBlock :=
  { previous := twiceBlock.id expiryCrypto, timestamp := 103, builder := xmaxContractName
    builderSignature := 7 }

/-- A block is built, and a longer branch is received. -/
def twiceOverFork : List ChainCall :=
  [.buildBlock 101 7 [], .pushFork twiceBlock, .pushFork afterTwice]

theorem firstPairDb_initialized {g : ChainDb} (h : firstPairDb = .ok g) :
    FirstInitialized expiryConfig pairGenesis g := by
  obtain ⟨p, happlied, h⟩ := bind_eq_ok.1 h
  obtain ⟨db, hfinal, h⟩ := bind_eq_ok.1 h
  cases h
  obtain ⟨p', hp', hreceipts⟩ := exists_ok_of_eval
    (x := applyTransactionImpl expiryConfig 0 xmaxContractName false {} ⟨pairStart, []⟩)
    (P := fun p => p.receipts = [openingReceipt]) (by decide)
  obtain rfl : p' = p := Except.ok.inj (hp'.symm.trans happlied)
  exact .final rfl happlied hreceipts.symm hfinal

/-- The fork is taken over with the transaction in it twice. -/
theorem twice_in_chain :
    ∃ g, FirstInitialized expiryConfig pairGenesis g ∧
      expiryConfig.skipTransactionDupeCheck = false ∧
      (chainCalls expiryConfig twiceOverFork (.genesis pairGenesis g)).headPack.block = afterTwice ∧
      ¬ ((chainCalls expiryConfig twiceOverFork (.genesis pairGenesis g)).path.flatMap
        (trxIds expiryCrypto)).Nodup := by
  obtain ⟨g, hg, h⟩ := exists_ok_of_eval (x := firstPairDb)
    (P := fun g =>
      let s := chainCalls expiryConfig twiceOverFork (.genesis pairGenesis g)
      s.headPack.block = afterTwice ∧ ¬ (s.path.flatMap (trxIds expiryCrypto)).Nodup)
    (by decide +kernel)
  exact ⟨g, firstPairDb_initialized hg, rfl, h⟩

theorem firstBlock_careful (g : ChainDb) : (ChainState.genesis pairGenesis g).ExtendOk := by
  refine ⟨?_, fun a ha => ?_⟩
  · change (ForkContext.genesis pairGenesis).ParentOk pairGenesis.blockId
    unfold ForkContext.ParentOk
    decide
  · obtain rfl : a = pairGenesis.blockId := List.mem_singleton.1 ha
    change ¬ longestLe ((ForkContext.genesis pairGenesis).objs pairGenesis.blockId)
      ((ForkContext.genesis pairGenesis).objs pairGenesis.blockId).nextRank
    decide

/-- The block that is built with the five tokens. -/
def afterFive (g : ChainDb) : ChainState :=
  stateOf (buildBlock expiryConfig 101 7 [timelyFive] (.genesis pairGenesis g))

/-- Once their block is undone the five tokens are accepted again. -/
theorem five_accepted_again :
    ∃ g, FirstInitialized expiryConfig pairGenesis g ∧
      timelyFive.id expiryCrypto ∈ (afterFive g).path.flatMap (trxIds expiryCrypto) ∧
      BlockRun expiryConfig pairGenesis (.exact g) (stateOf (popBlock (afterFive g))) ∧
      validateUniqueness expiryConfig
        (stateOf (popBlock (afterFive g))).abortBuild.sink.blockDb.cur timelyFive = .ok () := by
  obtain ⟨g, hg, hmark, hundo, hin, hout⟩ := exists_ok_of_eval (x := firstPairDb)
    (P := fun g => (afterFive g).headPack.irreversibleConfirmed = false ∧
      Undoable (afterFive g).sink.blockDb ∧
      timelyFive.id expiryCrypto ∈ (afterFive g).path.flatMap (trxIds expiryCrypto) ∧
      timelyFive.id expiryCrypto ∉
        (stateOf (popBlock (afterFive g))).path.flatMap (trxIds expiryCrypto))
    (by decide +kernel)
  have hinit := firstPairDb_initialized hg
  have hcareful : (ChainState.genesis pairGenesis g).Careful expiryConfig
      (.buildBlock 101 7 [timelyFive]) := firstBlock_careful g
  have hbuild : BlockStep expiryConfig pairGenesis (.exact g) (.genesis pairGenesis g)
      (afterFive g) := .call hcareful (fun _ => trivial) fun hg => by cases hg
  have hrun : BlockRun expiryConfig pairGenesis (.exact g) (stateOf (popBlock (afterFive g))) :=
    .tail (.single hbuild) (.pop hmark fun _ => hundo)
  exact ⟨g, hinit, hin, hrun, ((no_transaction_replayed hinit rfl hrun).2 timelyFive).2 hout⟩

end XmaxChain
