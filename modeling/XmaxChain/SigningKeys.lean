import XmaxChain.Schedule

/-!
# The keys of the builders

A block received for a fork is checked with the key that the schedule of its pack gives the
builder, a block received as the next one with the key in the builder's row. The rows are written
when the list of the next round is stored, so they may be ahead of the round that runs: a builder
elected again under another key signs with a key that its row no longer has, and the builder of
genesis has a row only if it is elected.
-/

namespace XmaxChain

variable {cfg : ChainConfig} {pre : BlockPack}

/-- The key in a builder's row. -/
def signKeyOf (db : ChainDb) (name : AccountName) : Option PublicKey :=
  (db.builderObjects.find? name).map (·.signingKey)

/-- Every builder of the round that runs and of the next one has a row with its key. -/
structure Rostered (p : PackCore) (db : ChainDb) : Prop where
  current : ∀ b ∈ p.currentBuilders.builders, signKeyOf db b.builderName = some b.blockSigningKey
  next : ∀ b ∈ p.newBuilders.builders, signKeyOf db b.builderName = some b.blockSigningKey

/-- A builder on both lists has one key. -/
def KeysAgree (bs bs' : List BuilderInfo) : Prop :=
  ∀ b ∈ bs, ∀ b' ∈ bs', b.builderName = b'.builderName → b.blockSigningKey = b'.blockSigningKey

/-- Where a block at the time begins a round, the list that the tally gives has the keys that the
round has. -/
def ElectsSameKeys (cfg : ChainConfig) (pre : BlockPack) (db : ChainDb) (when : ℕ) : Prop :=
  ∀ q, pre.initByPrePack when true = .ok q → q.newRound = true →
    KeysAgree q.currentBuilders.builders (nextRound cfg.xmaxBuildPublicKey db.toLedger)

section Rows

variable {db db' : ChainDb}

theorem signKeyOf_congr (h : db'.builderObjects = db.builderObjects) (name : AccountName) :
    signKeyOf db' name = signKeyOf db name := by
  rw [signKeyOf, h, signKeyOf]

theorem signKeyOf_modify (db : ChainDb) (k : AccountName) {f : BuilderObject → BuilderObject}
    (hf : ∀ b, (f b).signingKey = b.signingKey) (name : AccountName) :
    signKeyOf { db with builderObjects := db.builderObjects.modify k f } name = signKeyOf db name :=
  Table.map_find?_modify _ _ _ hf

theorem countMissed_keys {deltaSlot : ℕ} (h : countMissed deltaSlot db = .ok db')
    (name : AccountName) : signKeyOf db' name = signKeyOf db name := by
  refine foldlM_keeps (P := fun db' => signKeyOf db' name = signKeyOf db name) ?_ h rfl
  intro db₁ i db₂ h₂ h₁
  split at h₂
  · cases h₂
  · cases h₂
    rw [signKeyOf_modify]
    · exact h₁
    · exact fun _ => rfl

/-- Storing a list gives its builders their keys and nobody else another. -/
theorem updateOrCreateBuilders_keys {rule : BuilderRule}
    (hnodup : (rule.builders.map (·.builderName)).Nodup)
    (h : updateOrCreateBuilders rule db = .ok db') :
    (∀ b ∈ rule.builders, signKeyOf db' b.builderName = some b.blockSigningKey) ∧
      ∀ name, (∀ b ∈ rule.builders, b.builderName ≠ name) → signKeyOf db' name = signKeyOf db name := by
  obtain ⟨version, builders⟩ := rule
  unfold updateOrCreateBuilders at h
  dsimp only at h hnodup ⊢
  induction builders generalizing db with
  | nil =>
    cases h
    exact ⟨by simp, fun _ _ => rfl⟩
  | cons info infos ih =>
    rw [List.map_cons, List.nodup_cons] at hnodup
    rw [List.foldlM_cons, bind_eq_ok] at h
    obtain ⟨db₁, h₁, h⟩ := h
    obtain ⟨hlisted, hother⟩ := ih hnodup.2 h
    have hfirst : ∀ name, signKeyOf db₁ name
        = if name = info.builderName then some info.blockSigningKey else signKeyOf db name := by
      intro name
      split at h₁
      · rename_i row hrow
        cases h₁
        simp only [signKeyOf, Table.find?_modify]
        by_cases hname : name = info.builderName
        · simp [hname, hrow]
        · cases db.builderObjects.find? name <;> simp [hname]
      · obtain ⟨objs, hobjs, h₁⟩ := bind_eq_ok.1 h₁
        cases h₁
        simp only [signKeyOf, (Table.create?_eq_some (dbCreate_eq_ok.1 hobjs)).2]
        split_ifs
        · rfl
        · rfl
    refine ⟨fun b hb => ?_, fun name hname => ?_⟩
    · rcases List.mem_cons.1 hb with rfl | hb
      · -- no later entry has its name
        have hlast : ∀ b' ∈ infos, b'.builderName ≠ b.builderName := fun b' hb' heq =>
          hnodup.1 (List.mem_map.2 ⟨b', hb', heq⟩)
        rw [hother b.builderName hlast, hfirst, if_pos rfl]
      · exact hlisted b hb
    · rw [hother name fun b hb => hname b (List.mem_cons_of_mem _ hb), hfirst,
        if_neg (Ne.symm (hname info List.mem_cons_self))]

theorem updateFinalState_keys {c : Crypto} {headTime : ℕ} {pack : PackCore}
    (h : updateFinalState c headTime pack db = .ok db') :
    (pack.newRound = false → ∀ name, signKeyOf db' name = signKeyOf db name) ∧
      (pack.newRound = true → ∃ rule, pack.block.nextBuilders = some rule ∧
        ((rule.builders.map (·.builderName)).Nodup →
          (∀ b ∈ rule.builders, signKeyOf db' b.builderName = some b.blockSigningKey) ∧
          ∀ name, (∀ b ∈ rule.builders, b.builderName ≠ name) →
            signKeyOf db' name = signKeyOf db name)) := by
  simp only [updateFinalState, bind_eq_ok] at h
  obtain ⟨db₁, h₁, db₂, h₂, h⟩ := h
  have hmissed := countMissed_keys h₁
  cases h
  have hlast : ∀ name, signKeyOf { db₂ with
      builderObjects := db₂.builderObjects.modify pack.block.builder fun b =>
        { b with lastBlockTime := timePoint pack.block.timestamp } } name = signKeyOf db₂ name :=
    signKeyOf_modify db₂ pack.block.builder fun _ => rfl
  unfold storeBuilders at h₂
  constructor
  · intro hround name
    rw [if_neg (by simp [hround])] at h₂
    cases h₂
    exact (hlast name).trans (hmissed name)
  · intro hround
    rw [if_pos hround] at h₂
    split at h₂
    · cases h₂
    · rename_i rule hrule
      obtain ⟨db₃, h₃, h₂⟩ := bind_eq_ok.1 h₂
      cases h₂
      refine ⟨rule, hrule, fun hnodup => ?_⟩
      obtain ⟨hlisted, hother⟩ := updateOrCreateBuilders_keys hnodup h₃
      exact ⟨fun b hb => (hlast _).trans (hlisted b hb),
        fun name hname => (hlast name).trans ((hother name hname).trans (hmissed name))⟩

end Rows

section Rounds

/-- A builder is elected once. -/
theorem nextRound_nodup (key : PublicKey) (l : Ledger) :
    ((nextRound key l).map (·.builderName)).Nodup := by
  unfold nextRound
  dsimp only
  split_ifs with hempty
  · simp
  · refine ((List.perm_insertionSort _ _).map _).nodup_iff.2 ?_
    rw [List.map_map]
    refine List.Nodup.sublist (((List.take_sublist _ _).trans List.filter_sublist).map _) ?_
    refine ((List.perm_insertionSort byVotesLe _).map _).nodup_iff.2 ?_
    have hnames : l.builders.rows.zipIdx.map
        ((fun b : BuilderInfo => b.builderName) ∘ fun r => ⟨r.1.1, r.1.2.builderKey⟩)
        = l.builders.rows.map Prod.fst := by
      conv_rhs => rw [← List.zipIdx_map_fst 0 l.builders.rows, List.map_map]
      rfl
    rw [hnames]
    exact l.builders.nodup

/-- Who builds in the round of the next pack was on one of its parent's lists. -/
theorem initByPrePack_current {when : ℕ} {q : BlockPack} {m : Bool}
    (hq : pre.initByPrePack when m = .ok q) :
    q.currentBuilders = pre.currentBuilders ∨ q.currentBuilders = pre.newBuilders := by
  unfold BlockPack.initByPrePack at hq
  dsimp only at hq
  split at hq
  · cases hq
  · cases hq
    dsimp only
    split_ifs
    · exact .inr rfl
    · exact .inl rfl

/-- A block on a head whose builders have their rows leaves such a head, if its round keeps the
keys. -/
theorem Rostered.blockBody {db : ChainDb} {when : ℕ} {pack : BlockPack}
    {trxs : List SignedTransaction} {finish : BlockPack → Except Fault BlockPack} {b : Building}
    (hr : Rostered pre.toPackCore db) (hstart : startPack cfg pre db when = .ok pack)
    (hfinish : Seals cfg.crypto finish)
    (hbody : XmaxChain.blockBody cfg pre trxs finish ⟨pack, db⟩ = .ok () b)
    (hsame : ElectsSameKeys cfg pre db when) : Rostered b.pack.toPackCore b.db := by
  obtain ⟨q, hq, hcases⟩ := startPack_cases hstart
  obtain ⟨p, sealed, db', hp, hsealed, hfinal, rfl⟩ := blockBody_eq_ok.1 hbody
  obtain ⟨sig, rfl⟩ := hfinish hsealed
  obtain ⟨auth, transactions, counter, hdb⟩ := applyAll_frame hp
  have hrows : ∀ name, signKeyOf p.db name = signKeyOf db name :=
    signKeyOf_congr (by rw [hdb])
  obtain ⟨hkept, hnew⟩ := updateFinalState_keys hfinal
  have hround : ∀ b ∈ q.currentBuilders.builders,
      signKeyOf db b.builderName = some b.blockSigningKey := by
    intro b hb
    rcases initByPrePack_current hq with heq | heq
    · exact hr.current b (heq ▸ hb)
    · exact hr.next b (heq ▸ hb)
  rcases hcases with ⟨hfalse, rfl⟩ | ⟨htrue, -, rule, hrule, rfl⟩
  · -- no list is stored, and both lists are the parent's
    obtain ⟨-, hnext⟩ := initByPrePack_sameRound hq hfalse
    refine ⟨fun b hb => ?_, fun b hb => ?_⟩
    · exact (hkept hfalse _).trans ((hrows _).trans (hround b hb))
    · exact (hkept hfalse _).trans ((hrows _).trans (hr.next b (hnext ▸ hb)))
  · obtain ⟨rule', hrule', hkeys⟩ := hnew htrue
    obtain rfl : rule = rule' := Option.some.inj hrule'
    have hnodup : (rule.builders.map (·.builderName)).Nodup := by
      rw [hrule]
      exact nextRound_nodup _ _
    obtain ⟨hlisted, hother⟩ := hkeys hnodup
    refine ⟨fun b hb => ?_, hlisted⟩
    -- a builder of the round is elected again, then with its key, or keeps its row
    by_cases hagain : ∃ b' ∈ rule.builders, b'.builderName = b.builderName
    · obtain ⟨b', hb', hname⟩ := hagain
      have hkey : b.blockSigningKey = b'.blockSigningKey := by
        refine hsame q hq htrue b hb b' ?_ hname.symm
        rw [hrule] at hb'
        exact hb'
      rw [hkey, ← hname]
      exact hlisted b' hb'
    · have hkeep := hother b.builderName fun b' hb' hname => hagain ⟨b', hb', hname⟩
      exact hkeep.trans ((hrows _).trans (hround b hb))

theorem Rostered.of_samePack {p q : BlockPack} {db : ChainDb} (h : SamePack q p)
    (hr : Rostered p.toPackCore db) : Rostered q.toPackCore db := by
  refine ⟨?_, ?_⟩
  · rw [h.currentBuilders]
    exact hr.current
  · rw [h.newBuilders]
    exact hr.next

end Rounds

/-- What a block at the time makes of a head and its database: built here, confirmed, or applied
when the head moves to another branch. -/
inductive NextHead (cfg : ChainConfig) (pre : BlockPack) (db : ChainDb) (when : ℕ) :
    BlockPack → ChainDb → Prop
  | built {pack : BlockPack} {key : ℕ} {trxs : List SignedTransaction} {b : Building}
      (start : startPack cfg pre db when = .ok pack)
      (body : blockBody cfg pre trxs (fun pack => .ok (pack.signBlock cfg.crypto key)) ⟨pack, db⟩
        = .ok () b) : NextHead cfg pre db when b.pack b.db
  | confirmed {block : SignedBlock} {b : Building} (time : block.timestamp = when)
      (direct : directBlock cfg pre db block = .ok b) : NextHead cfg pre db when b.pack b.db
  | switched {q : BlockPack} {block : SignedBlock} {b : Building} (time : block.timestamp = when)
      (direct : directBlock cfg pre db block = .ok b)
      (init : pre.initByPrePack block.timestamp false = .ok q) :
      NextHead cfg pre db when (q.generateByBlock cfg.crypto block) b.db

/-- The heads that are reached while the builder of genesis is elected into the first list and
nobody who builds in a round is elected for the next one under another key. -/
inductive Steady (cfg : ChainConfig) (G : BlockPack) (d : ChainDb) : BlockPack → ChainDb → Prop
  | genesis {g : ChainDb}
      (final : updateFinalState cfg.crypto G.newHeader.timestamp G.toPackCore d = .ok g)
      (elected : G.newBuilders.builders = nextRound cfg.xmaxBuildPublicKey d.toLedger)
      (first : ∀ b ∈ G.currentBuilders.builders, b ∈ G.newBuilders.builders) :
      Steady cfg G d G (blockSummary cfg.crypto G.block g)
  | next {pre p : BlockPack} {db db' : ChainDb} {when : ℕ} (parent : Steady cfg G d pre db)
      (same : ElectsSameKeys cfg pre db when) (step : NextHead cfg pre db when p db') :
      Steady cfg G d p db'
  | marked {p p' : BlockPack} {db : ChainDb} (head : Steady cfg G d p db)
      (core : p'.toPackCore = p.toPackCore) : Steady cfg G d p' db

section Run

variable {time : ℕ} {key : PublicKey} {sig : Signature} {receipts : List TransactionReceipt}
  {next : List BuilderInfo} {d db : ChainDb} {p : BlockPack}

theorem NextHead.applied {G : BlockPack} {db' : ChainDb} {when : ℕ}
    (h : NextHead cfg pre db when p db') (hpre : Applied cfg G d pre db) : Applied cfg G d p db' := by
  rcases h with ⟨start, body⟩ | ⟨_, direct⟩ | ⟨_, direct, init⟩
  · exact .built hpre start body
  · exact .confirmed hpre direct
  · exact .switched hpre direct init

theorem Steady.applied {G : BlockPack} (h : Steady cfg G d p db) : Applied cfg G d p db := by
  induction h with
  | genesis final => exact .genesis final
  | next parent same step ih => exact step.applied ih
  | marked head core ih => exact .marked ih core

theorem Rostered.nextHead (hid : ∀ h h' : BlockHeader, h.id cfg.crypto = h'.id cfg.crypto → h = h')
    {db' : ChainDb} {when : ℕ} (hr : Rostered pre.toPackCore db)
    (hsame : ElectsSameKeys cfg pre db when) (h : NextHead cfg pre db when p db') :
    Rostered p.toPackCore db' := by
  cases h with
  | built start body => exact hr.blockBody start (seals_sign _ _) body hsame
  | confirmed time direct =>
    obtain ⟨-, trxs, pack, -, hstart, hbody⟩ := directBlock_eq_ok.1 direct
    exact hr.blockBody hstart (seals_validate _ _) hbody (time ▸ hsame)
  | switched time direct init =>
    obtain ⟨hdesc, trxs, pack, -, hstart, hbody⟩ := directBlock_eq_ok.1 direct
    obtain ⟨q', hq', hpack⟩ := SamePack.of_blockBody hid hdesc hstart hbody
    rw [init] at hq'
    cases hq'
    exact (hr.blockBody hstart (seals_validate _ _) hbody (time ▸ hsame)).of_samePack hpack

theorem Steady.rostered (hid : ∀ h h' : BlockHeader, h.id cfg.crypto = h'.id cfg.crypto → h = h')
    (h : Steady cfg (BlockPack.genesis cfg.crypto time key sig receipts next) d p db) :
    Rostered p.toPackCore db := by
  induction h with
  | genesis final elected first =>
    obtain ⟨-, hnew⟩ := updateFinalState_keys final
    obtain ⟨rule, hrule, hkeys⟩ := hnew rfl
    cases hrule
    have hnodup : (next.map (·.builderName)).Nodup := by
      rw [show next = _ from elected]
      exact nextRound_nodup _ _
    obtain ⟨hlisted, -⟩ := hkeys hnodup
    exact ⟨fun b hb => hlisted b (first b hb), hlisted⟩
  | next parent same step ih => exact ih.nextHead hid same step
  | marked head core ih =>
    rw [core]
    exact ih

theorem selectBuilder_mem {current next : BuilderRule} {index : ℕ} {info : BuilderInfo}
    (h : selectBuilder current next index = some info) :
    info ∈ current.builders ∨ info ∈ next.builders := by
  unfold selectBuilder at h
  dsimp only at h
  split_ifs at h
  · exact .inl (List.mem_of_getElem? h)
  · exact .inr (List.mem_of_getElem? h)

theorem Rostered.selected (hr : Rostered p.toPackCore db) {index : ℕ} {info : BuilderInfo}
    (h : selectBuilder p.currentBuilders p.newBuilders index = some info) :
    signKeyOf db info.builderName = some info.blockSigningKey := by
  rcases selectBuilder_mem h with hmem | hmem
  · exact hr.current info hmem
  · exact hr.next info hmem

/-- A block on the head is accepted or not by its signature, if its builder has a row. -/
theorem validateBlockDesc_onHead {block : SignedBlock} (hhead : HeadOk p.toPackCore)
    (hprevious : block.previous = p.blockId) :
    validateBlockDesc cfg p db block = match signKeyOf db block.builder with
      | none => .error (.undefined "null builder")
      | some key =>
        match cfg.crypto.signerKey block.builderSignature (block.digest cfg.crypto) with
        | none => .error (.fc "public_key")
        | some signer => fcAssert (signer == key) "bad block, sign data is not from the key" := by
  have hnum : u32 (p.blockNum + 1) = block.blockNum := by
    rw [BlockHeader.blockNum, hprevious, ← hhead.num]
    rfl
  simp only [validateBlockDesc, hprevious, hnum, beq_self_eq_true, fcAssert, if_true, signKeyOf]
  cases db.builderObjects.find? block.builder <;> rfl

/-- The fork database accepts a block of the builder whose slot it is by its signature. -/
theorem packOfBlock_signed {f : ForkContext} {block : SignedBlock} {info : BuilderInfo}
    (hf : f.getBlock block.previous = some p)
    (hselect : selectBuilder p.currentBuilders p.newBuilders
      (u32 (p.roundSlot + getDeltaSlotAtTime p.newHeader.timestamp block.timestamp)) = some info)
    (hbuilder : block.builder = info.builderName) :
    (∃ q, f.packOfBlock cfg.crypto block = .ok q) ↔
      cfg.crypto.signerKey block.builderSignature (block.digest cfg.crypto)
        = some info.blockSigningKey := by
  obtain ⟨q, hq⟩ : ∃ q, p.initByPrePack block.timestamp false = .ok q := by
    unfold BlockPack.initByPrePack
    dsimp only
    rw [hselect]
    exact ⟨_, rfl⟩
  obtain ⟨current, hcurrent, hhead, hinfo, -⟩ := initByPrePack_eq_ok hq
  obtain rfl : info = current := Option.some.inj (hselect.symm.trans hcurrent)
  have hqbuilder : q.newHeader.builder = block.builder := by rw [hhead, hbuilder]
  simp only [ForkContext.packOfBlock, hf, hq, bind_eq_ok, fcAssert_eq_ok]
  cases cfg.crypto.signerKey block.builderSignature (block.digest cfg.crypto) with
  | none => simp
  | some signer => simp [bind_eq_ok, fcAssert_eq_ok, pure, Except.pure, hqbuilder, hinfo]

/-- A block of the builder whose slot it is passes on the head exactly if it is signed with the key
that the schedule gives the builder; so the head and the fork database accept the same ones. -/
theorem direct_validation_agrees
    (hid : ∀ h h' : BlockHeader, h.id cfg.crypto = h'.id cfg.crypto → h = h')
    (h : Steady cfg (BlockPack.genesis cfg.crypto time key sig receipts next) d p db)
    {block : SignedBlock} {info : BuilderInfo} (hprevious : block.previous = p.blockId)
    (hselect : selectBuilder p.currentBuilders p.newBuilders
      (u32 (p.roundSlot + getDeltaSlotAtTime p.newHeader.timestamp block.timestamp)) = some info)
    (hbuilder : block.builder = info.builderName) :
    (validateBlockDesc cfg p db block = .ok () ↔
      cfg.crypto.signerKey block.builderSignature (block.digest cfg.crypto)
        = some info.blockSigningKey) ∧
    (∀ what, validateBlockDesc cfg p db block ≠ .error (.undefined what)) ∧
    ∀ f : ForkContext, f.getBlock block.previous = some p →
      ((∃ q, f.packOfBlock cfg.crypto block = .ok q) ↔ validateBlockDesc cfg p db block = .ok ()) := by
  obtain ⟨-, hhead⟩ := h.applied.synced hid
  have hkey : signKeyOf db block.builder = some info.blockSigningKey := by
    rw [hbuilder]
    exact (h.rostered hid).selected hselect
  have hdesc : validateBlockDesc cfg p db block = .ok () ↔
      cfg.crypto.signerKey block.builderSignature (block.digest cfg.crypto)
        = some info.blockSigningKey := by
    simp only [validateBlockDesc_onHead hhead hprevious, hkey]
    cases cfg.crypto.signerKey block.builderSignature (block.digest cfg.crypto) with
    | none => simp
    | some signer => simp [fcAssert_eq_ok]
  refine ⟨hdesc, fun what => ?_, fun f hf => ?_⟩
  · simp only [validateBlockDesc_onHead hhead hprevious, hkey]
    cases cfg.crypto.signerKey block.builderSignature (block.digest cfg.crypto) with
    | none => simp
    | some signer =>
      rw [Ne, fcAssert_eq_error]
      rintro ⟨-, ⟨⟩⟩
  · rw [hdesc]
    exact packOfBlock_signed hf hselect hbuilder

end Run

/-- A block on the one that `secondBlock` makes, signed with the contract account's key. -/
def thirdBlock (p : BlockPack) : SignedBlock :=
  { previous := p.blockId, timestamp := 102, builder := xmaxContractName, builderSignature := 7 }

theorem oneBuilderGenesis_steady {g : ChainDb}
    (h : updateFinalState headerCrypto 100 oneBuilderGenesis.toPackCore oneBuilderStart = .ok g) :
    Steady headerConfig oneBuilderGenesis oneBuilderStart oneBuilderGenesis
      (blockSummary headerCrypto oneBuilderGenesis.block g) :=
  .genesis h (by decide) (by decide)

theorem direct_validation_agrees_third :
    ∃ p db, Steady headerConfig oneBuilderGenesis oneBuilderStart p db ∧ p.blockNum = 2 ∧
      validateBlockDesc headerConfig p db (thirdBlock p) = .ok () := by
  obtain ⟨db, hdb, hblock⟩ := exists_ok_of_eval (x := oneBuilderDb)
    (P := fun db => (match directBlock headerConfig oneBuilderGenesis db secondBlock with
      | .ok b => decide (b.pack.blockNum = 2 ∧ selectBuilder b.pack.currentBuilders b.pack.newBuilders
          (u32 (b.pack.roundSlot + getDeltaSlotAtTime b.pack.newHeader.timestamp 102))
            = some ⟨xmaxContractName, 7⟩)
      | .error _ => false) = true) (by decide +kernel)
  obtain ⟨g, hg, hdb⟩ := bind_eq_ok.1 hdb
  cases hdb
  split at hblock
  · rename_i b hb
    obtain ⟨hnum, hselect⟩ := of_decide_eq_true hblock
    have hsame : ElectsSameKeys headerConfig oneBuilderGenesis
        (blockSummary headerCrypto oneBuilderGenesis.block g) 101 := by
      intro q hq hround
      have hq' : (oneBuilderGenesis.initByPrePack 101 true).map (·.newRound) = .ok true := by
        rw [hq, ← hround]
        rfl
      exact absurd hq' (by decide)
    have hsteady : Steady headerConfig oneBuilderGenesis oneBuilderStart b.pack b.db :=
      .next (oneBuilderGenesis_steady hg) hsame (.confirmed rfl hb)
    have hprevious : (thirdBlock b.pack).previous = b.pack.blockId := rfl
    have hvalid := direct_validation_agrees headerCrypto_id_injective hsteady hprevious hselect rfl
    exact ⟨b.pack, b.db, hsteady, hnum, hvalid.1.2 rfl⟩
  · cases hblock

/-! ## A first list without the builder of genesis -/

/-- Account 5 has registered in the genesis messages and is elected alone. -/
def rivalStart : ChainDb :=
  { builders := .ofList [(5, { totalVotes := 1, builderKey := 9 })]
    currentBuilders := oneBuilderGenesis.currentBuilders }

def rivalGenesis : BlockPack := BlockPack.genesis headerCrypto 100 7 7 [] [⟨5, 9⟩]

/-- The contract account's own first block, signed with its key. -/
def firstBlock : SignedBlock :=
  { previous := rivalGenesis.blockId, timestamp := 101, builder := xmaxContractName
    builderSignature := 7 }

theorem genesis_builder_without_row :
    ∃ db, Applied headerConfig rivalGenesis rivalStart rivalGenesis db ∧
      rivalGenesis.newBuilders.builders = nextRound 7 rivalStart.toLedger ∧
      selectBuilder rivalGenesis.currentBuilders rivalGenesis.newBuilders
        (u32 (rivalGenesis.roundSlot + getDeltaSlotAtTime rivalGenesis.newHeader.timestamp 101))
          = some ⟨xmaxContractName, 7⟩ ∧
      headerCrypto.signerKey firstBlock.builderSignature (firstBlock.digest headerCrypto) = some 7 ∧
      validateBlockDesc headerConfig rivalGenesis db firstBlock
        = .error (.undefined "null builder") := by
  obtain ⟨g, hg, hrow⟩ := exists_ok_of_eval
    (x := updateFinalState headerCrypto 100 rivalGenesis.toPackCore rivalStart)
    (P := fun g => g.builderObjects.find? xmaxContractName = none) (by decide)
  have happlied : Applied headerConfig rivalGenesis rivalStart rivalGenesis
      (blockSummary headerCrypto rivalGenesis.block g) := .genesis hg
  refine ⟨_, happlied, by decide, by decide, rfl, ?_⟩
  obtain ⟨-, hhead⟩ := happlied.synced headerCrypto_id_injective
  have hkey : signKeyOf (blockSummary headerCrypto rivalGenesis.block g) firstBlock.builder = none :=
    Option.map_eq_none_iff.2 hrow
  have hprevious : firstBlock.previous = rivalGenesis.blockId := rfl
  simp only [validateBlockDesc_onHead hhead hprevious, hkey]

end XmaxChain
