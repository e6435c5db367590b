import XmaxChain.ChainRun
import XmaxChain.PendingQueue

/-!
# The block that a transaction refers to

The summaries are a ring: a block writes its id into the slot of its number. A slot holds the id of
the latest block that falls on it, or nothing yet. What it holds then is taken for the id of a block
with number zero, so a transaction that refers to block zero with a prefix of zero passes until a
block has fallen on the first slot.
-/

namespace XmaxChain

open ForkContext

/-- The transaction's reference is the latest block on the path whose number has its low half. -/
def NamesBlock (c : Crypto) (path : List SignedBlock) (trx : SignedTransaction) : Prop :=
  ∃ b ∈ path, b.blockNum % 2 ^ 16 = trx.refBlockNum ∧
    (∀ b' ∈ path, b'.blockNum % 2 ^ 16 = trx.refBlockNum → b'.blockNum ≤ b.blockNum) ∧
    trx.refBlockPrefix = (b.id c).secondWord

/-- The databases on which transactions are checked while `block_head` is where it is: that of the
head, and that of an open block as far as it has only run transactions. -/
inductive CheckedOn (cfg : ChainConfig) (s : ChainState) : ChainDb → Prop
  | head : CheckedOn cfg s s.abortBuild.sink.blockDb.cur
  | trx {db : ChainDb} {r : ChainDb × ℕ} {t : ℕ} {builder : AccountName} {check : Bool}
      {trx : SignedTransaction} (before : CheckedOn cfg s db)
      (applied : applyTransactionBody cfg t builder check trx db = .ok r) : CheckedOn cfg s r.1

variable {cfg : ChainConfig} {G : BlockPack} {g : ChainDb}

/-! ## The ring -/

/-- The slot of a number after the blocks of a path, the newest first. -/
def slotOf (c : Crypto) (path : List SignedBlock) (num : ℕ) : Summary :=
  match path.find? fun b => b.blockNum % 2 ^ 16 = num with
  | some b => b.id c
  | none => default

theorem slotOf_cons (c : Crypto) (path : List SignedBlock) (b : SignedBlock) :
    slotOf c (b :: path) = Function.update (slotOf c path) (b.blockNum % 2 ^ 16) (b.id c) := by
  funext num
  unfold slotOf
  rw [Function.update_apply, List.find?_cons]
  by_cases hnum : b.blockNum % 2 ^ 16 = num
  · rw [decide_eq_true hnum, if_pos hnum.symm]
  · rw [decide_eq_false hnum, if_neg (Ne.symm hnum)]

theorem applyTransactionBody_summary {t : ℕ} {builder : AccountName} {check : Bool}
    {trx : SignedTransaction} {db : ChainDb} {r : ChainDb × ℕ}
    (h : applyTransactionBody cfg t builder check trx db = .ok r) :
    r.1.blockSummary = db.blockSummary := by
  obtain ⟨-, -, auth, l, transactions, -, -, -, hdb⟩ := applyTransactionBody_ok h
  rw [hdb]

/-- A block that is applied writes its own slot. -/
theorem replay_summary {pre : BlockPack} {db db' : ChainDb} {block : SignedBlock}
    (h : replay cfg pre db block = .ok db') :
    db'.blockSummary
      = Function.update db.blockSummary (block.blockNum % 2 ^ 16) (block.id cfg.crypto) := by
  obtain ⟨trxs, pack, b, -, -, hbody, rfl⟩ := replay_eq_ok.1 h
  obtain ⟨p, sealed, db₁, hall, hsealed, hfinal, rfl⟩ := blockBody_eq_ok.1 hbody
  obtain ⟨hsame, rfl⟩ := validateBlock_eq_ok.1 hsealed
  obtain ⟨auth, transactions, counter, hp⟩ := applyAll_frame hall
  obtain ⟨-, -, hring⟩ := updateFinalState_frame hfinal
  have hid : ∀ sig, (BlockPack.makeFinalBlock (BlockPack.withSignature cfg.crypto sig
      (BlockPack.generateBlock cfg.crypto
        { pack with block := { pack.block with receipts := p.receipts } }))).block.id cfg.crypto
      = block.id cfg.crypto := fun sig => hsame
  have hnum := congrArg Summary.num (hid block.builderSignature)
  simp only [BlockHeader.id_num] at hnum
  simp only [blockSummary, hring, hid, hnum, hp]

/-- Each slot has the latest block on the path that falls on it. -/
theorem Executed.summary {objs : Summary → BlockPack} {id : Summary} {blocks : List SignedBlock}
    {db : ChainDb} {g : Origin} (hg : g.db.blockSummary = slotOf cfg.crypto [G.block])
    (h : Executed cfg G g objs blocks id db) : db.blockSummary = slotOf cfg.crypto blocks := by
  have halike : ∀ {d d' : ChainDb}, g.Alike d d' → d'.blockSummary = d.blockSummary :=
    fun ⟨_, hd, _⟩ => by rw [hd]
  induction h with
  | genesis _ start => rw [halike start, hg]
  | applied _ _ _ _ replayed ih =>
    obtain ⟨d, d', hd, hrun, hd'⟩ := replayed
    rw [halike hd', replay_summary hrun, halike hd, ih, slotOf_cons]

theorem CheckedOn.summary {s : ChainState} {db : ChainDb} (h : CheckedOn cfg s db) :
    db.blockSummary = s.abortBuild.sink.blockDb.cur.blockSummary := by
  induction h with
  | head => rfl
  | trx _ applied ih => rw [applyTransactionBody_summary applied, ih]

/-! ## What a reference names -/

section Names

variable {c : Crypto} {path : List SignedBlock} {trx : SignedTransaction}

theorem newest_first (hnum : ∀ i b, path.reverse[i]? = some b → b.blockNum = i + 1) :
    path.Pairwise fun b p => p.blockNum < b.blockNum := by
  rw [← List.pairwise_reverse, List.pairwise_iff_getElem]
  intro i j hi hj hij
  have hi' := hnum i _ (List.getElem?_eq_getElem hi)
  have hj' := hnum j _ (List.getElem?_eq_getElem hj)
  omega

/-- On a path whose blocks are numbered from one, the newest first. -/
theorem namesBlock_iff (hnum : ∀ i b, path.reverse[i]? = some b → b.blockNum = i + 1)
    (hslot : trx.refBlockNum = (slotOf c path trx.refBlockNum).num % 2 ^ 16)
    (hword : trx.refBlockPrefix = (slotOf c path trx.refBlockNum).secondWord) :
    NamesBlock c path trx ↔
      ¬ (trx.refBlockNum = 0 ∧ trx.refBlockPrefix = 0 ∧ path.length < 2 ^ 16) := by
  have hindex : ∀ b ∈ path, 1 ≤ b.blockNum ∧ b.blockNum ≤ path.length := fun b hb => by
    obtain ⟨i, hi⟩ := List.getElem?_of_mem (List.mem_reverse.2 hb)
    have hlt := (List.getElem?_eq_some_iff.1 hi).1
    have := hnum i b hi
    rw [List.length_reverse] at hlt
    omega
  cases hfind : path.find? fun b => b.blockNum % 2 ^ 16 = trx.refBlockNum with
  | some b =>
    have hslotOf : slotOf c path trx.refBlockNum = b.id c := by rw [slotOf, hfind]
    obtain ⟨hb, front, back, hpath, hfront⟩ := List.find?_eq_some_iff_append.1 hfind
    have hb : b.blockNum % 2 ^ 16 = trx.refBlockNum := of_decide_eq_true hb
    have hmem : b ∈ path := by
      rw [hpath]
      exact List.mem_append_right _ List.mem_cons_self
    have hlen : 2 ^ 16 ≤ path.length ∨ trx.refBlockNum ≠ 0 := by
      have := hindex b hmem
      omega
    refine iff_of_true ⟨b, hmem, hb, fun b' hb' hnum' => ?_, hslotOf ▸ hword⟩ fun h => by omega
    have hsort := newest_first hnum
    rw [hpath, List.mem_append] at hb'
    rw [hpath] at hsort
    rcases hb' with hb' | hb'
    · exact absurd (decide_eq_true hnum') (by simpa using hfront b' hb')
    · rcases List.mem_cons.1 hb' with rfl | hb'
      · exact le_rfl
      · exact ((List.pairwise_cons.1 (List.pairwise_append.1 hsort).2.1).1 b' hb').le
  | none =>
    have hslotOf : slotOf c path trx.refBlockNum = default := by rw [slotOf, hfind]
    rw [hslotOf] at hslot hword
    have hnone : ∀ b ∈ path, b.blockNum % 2 ^ 16 ≠ trx.refBlockNum := fun b hb heq => by
      have := List.find?_eq_none.1 hfind b hb
      exact this (decide_eq_true heq)
    refine iff_of_false (fun ⟨b, hb, heq, _⟩ => hnone b hb heq) (not_not.2 ⟨hslot, hword, ?_⟩)
    by_contra hlen
    have hlast : 2 ^ 16 - 1 < path.reverse.length := by
      rw [List.length_reverse]
      omega
    have hget := List.getElem?_eq_getElem hlast
    have := hnum _ _ hget
    refine hnone _ (List.mem_reverse.1 (List.getElem_mem hlast)) ?_
    rw [this, hslot]
    rfl

end Names

section Runs

variable {s : ChainState} {db : ChainDb} {time : ℕ} {key : PublicKey} {sig : Signature}
  {receipts : List TransactionReceipt} {next : List BuilderInfo} {d : ChainDb} {t : ℕ}
  {trx : SignedTransaction}

theorem validateTapos_of_checkTrx (h : checkTrx cfg t db trx = true)
    (hskip : cfg.skipTaposCheck = false) :
    trx.refBlockNum = (db.blockSummary (trx.refBlockNum % 2 ^ 16)).num % 2 ^ 16 ∧
      trx.refBlockPrefix = (db.blockSummary (trx.refBlockNum % 2 ^ 16)).secondWord := by
  obtain ⟨-, -, -, htapos, -⟩ := checkTrx_eq_true.1 h
  rw [validateTapos, hskip, if_neg Bool.false_ne_true, fcAssert_eq_ok, Bool.and_eq_true] at htapos
  exact htapos.imp of_decide_eq_true of_decide_eq_true

/-- In every careful run a transaction that is checked names the block that it refers to, unless it
refers to block zero with a prefix of zero and no block has fallen on the first slot. -/
theorem tapos_binds_iff
    (h : ChainRun cfg (BlockPack.genesis cfg.crypto time key sig receipts next)
      (blockSummary cfg.crypto (BlockPack.genesis cfg.crypto time key sig receipts next).block d) s)
    (hempty : d.blockSummary = fun _ => default) (hskip : cfg.skipTaposCheck = false)
    (hdb : CheckedOn cfg s db) (hcheck : checkTrx cfg t db trx = true) :
    NamesBlock cfg.crypto s.path trx ↔
      ¬ (trx.refBlockNum = 0 ∧ trx.refBlockPrefix = 0 ∧ s.headPack.blockNum < 2 ^ 16) := by
  obtain ⟨L, X, hgood⟩ := h.good
  obtain ⟨hlen, -, hnum⟩ := hgood.path_numbered
  have hring : db.blockSummary = slotOf cfg.crypto s.path := by
    rw [hdb.summary]
    refine hgood.database.1.summary ?_
    rw [slotOf_cons]
    simp only [blockSummary, hempty]
    rfl
  obtain ⟨hslot, hword⟩ := validateTapos_of_checkTrx hcheck hskip
  rw [hring] at hslot hword
  have hmod : trx.refBlockNum % 2 ^ 16 = trx.refBlockNum := by omega
  rw [hmod] at hslot hword
  rw [namesBlock_iff hnum hslot hword, hlen]

end Runs

/-! ## A chain of one block -/

/-- The two accounts, after the genesis block. -/
def pairDb : ChainDb :=
  blockSummary stampCrypto twoBuilderGenesis.block pairNode.chain.sink.blockDb.cur

/-- The five tokens, referring to the genesis block. -/
def boundFive : SignedTransaction :=
  { timelyFive with
    refBlockNum := 1
    refBlockPrefix := twoBuilderGenesis.blockId.secondWord }

theorem boundFive_names :
    checkTrx stampConfig (timePoint 100) pairDb boundFive = true ∧
      NamesBlock stampCrypto (ChainState.genesis twoBuilderGenesis pairDb).path boundFive := by
  have hcheck : checkTrx stampConfig (timePoint 100) pairDb boundFive = true := by decide +kernel
  exact ⟨hcheck, (tapos_binds_iff .refl rfl rfl .head hcheck).2 fun h => one_ne_zero h.1⟩

/-- The five tokens without a reference pass, though no block has the number zero. -/
theorem nothing_named :
    stampConfig.skipTaposCheck = false ∧
      checkTrx stampConfig (timePoint 100) pairDb timelyFive = true ∧
      CheckedOn stampConfig (.genesis twoBuilderGenesis pairDb) pairDb ∧
      ¬ NamesBlock stampCrypto (ChainState.genesis twoBuilderGenesis pairDb).path timelyFive := by
  refine ⟨rfl, by decide +kernel, .head, ?_⟩
  rintro ⟨b, hb, hnum, -⟩
  have hpath : (ChainState.genesis twoBuilderGenesis pairDb).path = [twoBuilderGenesis.block] := by
    decide
  rw [hpath, List.mem_singleton] at hb
  subst hb
  cases hnum

end XmaxChain
