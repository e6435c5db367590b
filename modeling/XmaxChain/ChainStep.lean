import XmaxChain.ChainInv

/-!
# One block of the chain

What building a block, applying one and popping one does to a chain that is as it should be. A call
that throws before the block is pushed leaves only an open session; a block that is pushed extends
the way of `block_head` if its pack ranks before all others.
-/

namespace XmaxChain

open ParentWalk ForkContext

variable {cfg : ChainConfig} {G : BlockPack} {g : Origin}

/-- The fork database is as it should be, the database is what the blocks on the way of
`block_head` leave, and the packs on that way are the ones flagged as main chain. -/
structure Good (cfg : ChainConfig) (G : BlockPack) (g : Origin) (s : ChainState) (L X : Summary) :
    Prop where
  inv : Inv cfg.crypto s.fork L X
  backed : ∃ blocks u, Backed cfg G g s.fork L s.sink.chainLog s.blockHead blocks u ∧
    OpenOn s.building s.sink.blockDb u
  main : ∀ a ∈ s.fork.packs, (s.fork.objs a).mainChain = true ↔ s.fork.Anc s.blockHead a

/-- A call has not moved the chain, whatever it has left open. -/
structure Unmoved (u : Undo ChainDb) (s s' : ChainState) : Prop where
  fork : s'.fork = s.fork
  blockHead : s'.blockHead = s.blockHead
  chainLog : s'.sink.chainLog = s.sink.chainLog
  last : s'.sink.lastIrreversibleBlockNum = s.sink.lastIrreversibleBlockNum
  openOn : OpenOn s'.building s'.sink.blockDb u

section Good

variable {s s' : ChainState} {L X : Summary}

theorem Good.unmoved {blocks : List SignedBlock} {u : Undo ChainDb} (h : Good cfg G g s L X)
    (hb : Backed cfg G g s.fork L s.sink.chainLog s.blockHead blocks u) (hu : Unmoved u s s') :
    Good cfg G g s' L X := by
  refine ⟨?_, ⟨blocks, u, ?_, hu.openOn⟩, ?_⟩
  · rw [hu.fork]
    exact h.inv
  · rw [hu.fork, hu.blockHead, hu.chainLog]
    exact hb
  · rw [hu.fork, hu.blockHead]
    exact h.main

/-- The state once the open session is aborted. -/
theorem OpenOn.abortBuild {u : Undo ChainDb} (h : OpenOn s.building s.sink.blockDb u) :
    s.abortBuild = { s.withDb u with building := none } := by
  obtain ⟨fork, sink, blockHead, building⟩ := s
  cases building with
  | none =>
    obtain rfl : sink.blockDb = u := h
    rfl
  | some pack =>
    obtain ⟨d, hd⟩ : ∃ d, sink.blockDb = u.start.withCur d := h
    have hundo : sink.blockDb.undo = u := by rw [hd, Undo.undo_withCur_start]
    rw [← hundo]
    rfl

theorem Good.headPack_mem (h : Good cfg G g s L X) : s.blockHead ∈ s.fork.packs := by
  obtain ⟨_, _, hb, -⟩ := h.backed
  exact (hb.anc h.inv).mem_left

/-- The way of `block_head`, the database and its revision. -/
theorem Good.database (h : Good cfg G g s L X) :
    Executed cfg G g s.fork.objs s.path s.blockHead s.abortBuild.sink.blockDb.cur ∧
      s.abortBuild.sink.blockDb.revision = s.headPack.blockNum := by
  obtain ⟨blocks, u, hb, ho⟩ := h.backed
  rw [ho.abortBuild]
  refine ⟨?_, ?_⟩
  · have hexec := hb.executed h.inv.toLinked
    rw [hb.blocks_eq h.inv] at hexec
    exact hexec
  · change u.revision = (s.fork.objs s.blockHead).blockNum
    rw [hb.revision h.inv.toLinked, h.inv.num _ h.headPack_mem]

end Good

section Started

variable {s s' : ChainState} {u : Undo ChainDb}

/-- The state in which a block has run to its end and is not pushed yet. -/
def ChainState.started (s : ChainState) (u : Undo ChainDb) (b : Building) : ChainState :=
  { s.withDb (u.start.withCur b.db) with building := some b.pack }

theorem startBuild_error {when : ℕ} {e : Fault}
    (h : startPack cfg s.headPack s.sink.blockDb.cur when = .error e) :
    startBuild cfg when s = .error e s := by
  rw [startBuild, h]

theorem inBuilding_error {x : BlockPack → EStateM Fault Building Unit} {pack : BlockPack} {e : Fault}
    {b : Building} (hs : s.building = some pack)
    (h : x s.headPack ⟨pack, s.sink.blockDb.cur⟩ = .error e b) :
    inBuilding x s = .error e (s.withBuilding b) := by
  simp only [inBuilding, hs, h]

/-- Starting a block and running it: what throws leaves an open session. -/
theorem begun_cases {when : ℕ} {x : BlockPack → EStateM Fault Building Unit} {y : ChainM Unit}
    (ho : OpenOn s.building s.sink.blockDb u) :
    (∃ e s', (abortBuild >>= fun _ => startBuild cfg when >>= fun _ => inBuilding x >>= fun _ => y) s
        = .error e s' ∧ Unmoved u s s' ∧ (¬ s.CanAbort ∧ e = .terminated ∨
          s.CanAbort ∧ (startPack cfg s.headPack u.cur when = .error e ∨
            ∃ pack b, startPack cfg s.headPack u.cur when = .ok pack ∧
              x s.headPack ⟨pack, u.cur⟩ = .error e b))) ∨
      ∃ pack b, s.CanAbort ∧ startPack cfg s.headPack u.cur when = .ok pack ∧
        x s.headPack ⟨pack, u.cur⟩ = .ok () b ∧
        (abortBuild >>= fun _ => startBuild cfg when >>= fun _ => inBuilding x >>= fun _ => y) s
          = y (s.started u b) := by
  by_cases hcan : s.CanAbort
  swap
  · have habort : XmaxChain.abortBuild s = .error .terminated s := if_neg hcan
    exact .inl ⟨_, s, run_bind_error habort, ⟨rfl, rfl, rfl, rfl, ho⟩, .inl ⟨hcan, rfl⟩⟩
  let s₀ : ChainState := { s.withDb u with building := none }
  have habort : XmaxChain.abortBuild s = .ok () s₀ := by
    rw [XmaxChain.abortBuild, if_pos hcan, ho.abortBuild]
  rw [run_bind_ok habort]
  cases hpack : startPack cfg s.headPack u.cur when with
  | error e =>
    have hstart : startBuild cfg when s₀ = .error e s₀ := startBuild_error hpack
    exact .inl ⟨e, s₀, run_bind_error hstart, ⟨rfl, rfl, rfl, rfl, rfl⟩, .inr ⟨hcan, .inl rfl⟩⟩
  | ok pack =>
    let s₁ : ChainState := { s.withDb u.start with building := some pack }
    have hstart : startBuild cfg when s₀ = .ok () s₁ := startBuild_eq_ok.2 ⟨pack, hpack, rfl⟩
    rw [run_bind_ok hstart]
    cases hrun : x s.headPack ⟨pack, u.cur⟩ with
    | error e b =>
      have hbody : inBuilding x s₁ = .error e (s₁.withBuilding b) := inBuilding_error rfl hrun
      exact .inl ⟨e, _, run_bind_error hbody, ⟨rfl, rfl, rfl, rfl, b.db, rfl⟩,
        .inr ⟨hcan, .inr ⟨pack, b, rfl, hrun⟩⟩⟩
    | ok v b =>
      have hbody : inBuilding x s₁ = .ok () (s.started u b) :=
        (inBuilding_eq_ok rfl).2 ⟨b, hrun, rfl⟩
      exact .inr ⟨pack, b, hcan, rfl, hrun, run_bind_ok hbody⟩

/-- What a block that was built on a head is: applied again it leaves the same, and its pack is the
next one of the head's, flagged as main chain. -/
structure BuiltOn (cfg : ChainConfig) (pre : BlockPack) (db : ChainDb) (b : Building) : Prop where
  replayed : replay cfg pre db b.pack.block = .ok b.db
  made : MadeFrom cfg.crypto pre b.pack
  mainChain : b.pack.mainChain = true

theorem BuiltOn.of_blockBody {pre pack : BlockPack} {db : ChainDb} {when : ℕ}
    {trxs : List SignedTransaction} {finish : BlockPack → Except Fault BlockPack} {b : Building}
    (hstart : startPack cfg pre db when = .ok pack) (hfinish : Seals cfg.crypto finish)
    (hbody : blockBody cfg pre trxs finish ⟨pack, db⟩ = .ok () b) : BuiltOn cfg pre db b := by
  refine ⟨replay_of_blockBody hstart hfinish hbody, ?_, ?_⟩
  · obtain ⟨q, hq, hcases⟩ := startPack_cases hstart
    obtain ⟨p, sealed, db', -, hsealed, -, rfl⟩ := blockBody_eq_ok.1 hbody
    obtain ⟨sig, rfl⟩ := hfinish hsealed
    rcases hcases with ⟨-, rfl⟩ | ⟨-, -, rule, -, rfl⟩ <;>
      exact MadeFrom.of_final hq rfl rfl rfl rfl rfl rfl rfl
  · obtain ⟨q, hq, hcases⟩ := startPack_cases hstart
    obtain ⟨p, sealed, db', -, hsealed, -, rfl⟩ := blockBody_eq_ok.1 hbody
    obtain ⟨sig, rfl⟩ := hfinish hsealed
    obtain ⟨_, -, -, -, -, hmain, -⟩ := initByPrePack_eq_ok hq
    rcases hcases with ⟨-, rfl⟩ | ⟨-, -, rule, -, rfl⟩ <;> exact hmain

theorem buildBlock_cases {when key : ℕ} {trxs : List SignedTransaction}
    (ho : OpenOn s.building s.sink.blockDb u) :
    (∃ e s', buildBlock cfg when key trxs s = .error e s' ∧ Unmoved u s s') ∨
      ∃ b, BuiltOn cfg s.headPack u.cur b ∧ TakesAll cfg s.headPack u.cur b.pack.block ∧
        buildBlock cfg when key trxs s
          = (pushBlock cfg true >>= fun _ => commitBlock) (s.started u b) := by
  unfold buildBlock
  rcases begun_cases ho with ⟨e, s', herr, hun, -⟩ | ⟨pack, b, -, hstart, hbody, hrun⟩
  · exact .inl ⟨e, s', herr, hun⟩
  · exact .inr ⟨b, .of_blockBody hstart (seals_sign _ _) hbody,
      takesAll_of_blockBody hstart (seals_sign _ _) hbody, hrun⟩

/-- What `_apply_block` comes to on the pack `pre`: the block is checked against the database that
is found, be it of an open session, and runs on the one that is left when that is aborted, if it can
be. -/
def applied (cfg : ChainConfig) (pre : BlockPack) (found : ChainDb) (aborts : Bool) (db : ChainDb)
    (block : SignedBlock) : Except Fault ChainDb := do
  validateBlockDesc cfg pre found block
  let _ ← requestsOf block
  if aborts then replay cfg pre db block else .error .terminated

/-- Applying a block: what throws is what `applied` gives, and it has not moved the chain. -/
theorem applyBlock_run {block : SignedBlock} {updatefork : Bool}
    (ho : OpenOn s.building s.sink.blockDb u) :
    (∃ e s', applyBlock cfg block updatefork s = .error e s' ∧ Unmoved u s s' ∧
        applied cfg s.headPack s.sink.blockDb.cur s.CanAbort u.cur block = .error e) ∨
      ∃ trxs pack b, startPack cfg s.headPack u.cur block.timestamp = .ok pack ∧
        blockBody cfg s.headPack trxs (fun pack => pack.validateBlock cfg.crypto block)
          ⟨pack, u.cur⟩ = .ok () b ∧
        applied cfg s.headPack s.sink.blockDb.cur s.CanAbort u.cur block = .ok b.db ∧
        applyBlock cfg block updatefork s
          = (pushBlock cfg updatefork >>= fun _ => commitBlock) (s.started u b) := by
  unfold applyBlock applied
  cases hdesc : validateBlockDesc cfg s.headPack s.sink.blockDb.cur block with
  | error e =>
    have hlift : liftExcept (fun s => validateBlockDesc cfg s.headPack s.sink.blockDb.cur block) s
        = .error e s := by
      rw [liftExcept, hdesc]
    exact .inl ⟨e, s, run_bind_error hlift, ⟨rfl, rfl, rfl, rfl, ho⟩, rfl⟩
  | ok v =>
    have hlift : liftExcept (fun s => validateBlockDesc cfg s.headPack s.sink.blockDb.cur block) s
        = .ok () s := liftExcept_eq_ok.2 ⟨hdesc, rfl⟩
    rw [run_bind_ok hlift]
    cases htrxs : requestsOf block with
    | error e => exact .inl ⟨e, s, run_bind_error rfl, ⟨rfl, rfl, rfl, rfl, ho⟩, rfl⟩
    | ok trxs =>
      have hlift : liftExcept (fun _ => Except.ok trxs) s = .ok trxs s := rfl
      rw [run_bind_ok hlift]
      rcases begun_cases ho with ⟨e, s', herr, hun, hwhy⟩ | ⟨pack, b, hcan, hstart, hbody, hrun⟩
      · refine .inl ⟨e, s', herr, hun, ?_⟩
        change (if decide s.CanAbort = true then replay cfg s.headPack u.cur block else _) = _
        rcases hwhy with ⟨hcan, rfl⟩ | ⟨hcan, hwhy⟩
        · rw [if_neg (by simpa using hcan)]
        · rw [if_pos (decide_eq_true hcan)]
          exact replay_eq_error.2 (.inr ⟨trxs, htrxs, hwhy⟩)
      · refine .inr ⟨trxs, pack, b, hstart, hbody, ?_, hrun⟩
        change (if decide s.CanAbort = true then replay cfg s.headPack u.cur block else _) = _
        rw [if_pos (decide_eq_true hcan)]
        exact replay_eq_ok.2 ⟨trxs, pack, b, htrxs, hstart, hbody, rfl⟩

theorem applied_eq_ok {pre : BlockPack} {found db db' : ChainDb} {aborts : Bool}
    {block : SignedBlock} : applied cfg pre found aborts db block = .ok db' ↔
      validateBlockDesc cfg pre found block = .ok () ∧ aborts = true ∧
        replay cfg pre db block = .ok db' := by
  simp only [applied, bind_eq_ok]
  constructor
  · rintro ⟨_, hdesc, _, -, hreplay⟩
    split_ifs at hreplay with haborts
    exact ⟨hdesc, haborts, hreplay⟩
  · rintro ⟨hdesc, haborts, hreplay⟩
    obtain ⟨trxs, -, -, htrxs, -⟩ := replay_eq_ok.1 hreplay
    exact ⟨(), hdesc, trxs, htrxs, by rw [if_pos haborts, hreplay]⟩

theorem applyBlock_cases {block : SignedBlock} {updatefork : Bool}
    (ho : OpenOn s.building s.sink.blockDb u) :
    (∃ e s', applyBlock cfg block updatefork s = .error e s' ∧ Unmoved u s s') ∨
      ∃ b, BuiltOn cfg s.headPack u.cur b ∧ TakesAll cfg s.headPack u.cur b.pack.block ∧
        replay cfg s.headPack u.cur block = .ok b.db ∧
        applyBlock cfg block updatefork s
          = (pushBlock cfg updatefork >>= fun _ => commitBlock) (s.started u b) := by
  rcases applyBlock_run ho with ⟨e, s', herr, hun, -⟩ | ⟨trxs, pack, b, hstart, hbody, happlied, hrun⟩
  · exact .inl ⟨e, s', herr, hun⟩
  · exact .inr ⟨b, .of_blockBody hstart (seals_validate _ _) hbody,
      takesAll_of_blockBody hstart (seals_validate _ _) hbody, (applied_eq_ok.1 happlied).2.2, hrun⟩

end Started

/-! ## Pushing a block -/

/-- What the next block of a pack ranks as when it is built or applied. -/
def BlockPack.nextRank (pre : BlockPack) : BlockPack :=
  { pre with
    blockNum := u32 (pre.blockNum + 1)
    dposIrreversibleNum := (BlockPack.generateDpos pre.toPackCore).1.1
    mainChain := true }

/-- The next block of `block_head` ranks before all packs. -/
def ChainState.NextLeads (s : ChainState) : Prop :=
  ∀ a ∈ s.fork.packs, ¬ longestLe (s.fork.objs a) s.headPack.nextRank

/-- The log has grown by blocks on the way of what was `block_head`. -/
def Finalises (s s' : ChainState) : Prop :=
  ∃ ids : List Summary, s'.sink.chainLog
      = (ids.map fun a => (s.fork.objs a).block).reverse ++ s.sink.chainLog ∧
    ∀ a ∈ ids, s.fork.Anc s.blockHead a

section Push

variable {s s' : ChainState} {L X : Summary} {blocks : List SignedBlock} {u : Undo ChainDb}
  {b : Building}

theorem ForkContext.MadeFrom.longestLe_iff {c : Crypto} {pre pack q : BlockPack} (h : MadeFrom c pre pack)
    (hmain : pack.mainChain = true) : longestLe q pack ↔ longestLe q pre.nextRank := by
  have hdpos : pack.dposIrreversibleNum = (BlockPack.generateDpos pre.toPackCore).1.1 := by
    rw [← h.dpos]
  unfold longestLe
  rw [h.confirmedNum, hdpos, h.num, hmain]
  rfl

/-- The next block of the head names only blocks on its way, if it ranks before what is
confirmed. -/
theorem namesOnWay_of_made {c : Crypto} {f : ForkContext} {bh : Summary} {pack : BlockPack}
    (hi : Inv c f L X) (hbh : f.Anc bh L) (hmade : MadeFrom c (f.objs bh) pack)
    (hparent : f.ParentOk bh) (hlead : ¬ longestLe (f.objs X) pack) : f.NamesOnWay bh pack := by
  have hmem := hbh.mem_left
  refine ⟨fun _ => ?_, fun hpos hdmem => ?_⟩
  · have hle : X.num ≤ (f.objs bh).lastConfirmedNum := by
      unfold longestLe at hlead
      rw [hi.confirmed_self, hmade.confirmedNum] at hlead
      omega
    have hrel := hi.related_of_le hmem hle
    rw [hmade.confirmedId, hi.related bh hmem hrel]
    refine hrel.anc_of_le hi.upNum ?_
    have hlow := hparent.1
    rwa [hi.confirmedNum bh hmem, hi.related bh hmem hrel, hi.num bh hmem] at hlow
  · have hcand : (pack.dposIrreversibleNum, pack.dposIrreversibleId) ∈ candidates pack := by
      unfold candidates
      rw [if_neg hpos]
      exact List.mem_append_left _ (List.mem_singleton_self _)
    rcases mem_candidates_of_dpos hmade.dpos hcand with heq | hcand
    · rw [(Prod.mk.inj heq).2, hi.blockId bh hmem]
      exact .refl hmem
    · obtain ⟨hnum, hlt, huniq⟩ := hi.dpos bh hmem _ hcand
      dsimp only at hnum hlt huniq
      obtain ⟨y, hy, -, hyn⟩ := hbh.exists_at hi.upNum (hi.last_le hdmem) (by rw [hnum]; exact hlt.le)
      have := huniq y hy (hyn.trans hnum)
      rwa [this] at hy

/-- Where a pack made from one of the container stands. -/
theorem ForkContext.MadeFrom.place {c : Crypto} {f : ForkContext} {q : Summary} {pack : BlockPack}
    (hl : Linked c f) (hq : q ∈ f.packs) (hmade : MadeFrom c (f.objs q) pack)
    (hparent : f.ParentOk q) : pack.prevId = q ∧ pack.blockId.num = q.num + 1 := by
  refine ⟨hmade.prev.trans (hl.blockId _ hq), ?_⟩
  have hwrap := hparent.2
  rw [hl.num _ hq] at hwrap
  rw [hmade.id, BlockHeader.id_num, BlockHeader.blockNum, hmade.previous, hl.blockId _ hq]
  exact u32_of_lt hwrap

theorem pushBlock_started (cfg : ChainConfig)
    (hprev : (s.started u b).headPack.blockId = b.pack.block.previous) :
    pushBlock cfg true (s.started u b) =
      match ForkContext.addPack (onIrreversible cfg.crypto) cfg.crypto b.pack
        ((s.started u b).fork, (s.started u b).sink) with
      | .error e r => .error e { s.started u b with fork := r.1, sink := r.2 }
      | .ok _ r =>
        let t := { s.started u b with fork := r.1, sink := r.2, blockHead := r.1.head }
        if r.1.head = b.pack.blockId then .ok () t
        else .error (.fc "error new head in fork database") t := by
  change (if _ then _ else if true = true then _ else _) = _
  exact (if_neg (not_not.2 hprev)).trans (if_pos rfl)

theorem pushBlock_of_addPack {f' : ForkContext} {sink' : Sink ChainDb}
    (hprev : (s.started u b).headPack.blockId = b.pack.block.previous)
    (hadd : ForkContext.addPack (onIrreversible cfg.crypto) cfg.crypto b.pack
      (s.fork, (s.started u b).sink) = .ok () (f', sink')) (hhead : f'.head = b.pack.blockId) :
    pushBlock cfg true (s.started u b)
      = .ok () { s.started u b with fork := f', sink := sink', blockHead := f'.head } := by
  rw [pushBlock_started cfg hprev]
  change (match ForkContext.addPack _ _ b.pack (s.fork, (s.started u b).sink) with
    | .error e r => _ | .ok _ r => _) = _
  rw [hadd]
  exact if_pos hhead

/-- A block that ran to its end on the head is pushed, or it is in the fork database already. -/
theorem Good.push (h : Good cfg G g s L X)
    (hb : Backed cfg G g s.fork L s.sink.chainLog s.blockHead blocks u)
    (hbuilt : BuiltOn cfg s.headPack u.cur b) (hparent : s.fork.ParentOk s.blockHead)
    (hlead : s.NextLeads) :
    (∃ e s', (pushBlock cfg true >>= fun _ => commitBlock) (s.started u b) = .error e s' ∧
        Unmoved u s s') ∨
      ∃ s' L', (pushBlock cfg true >>= fun _ => commitBlock) (s.started u b) = .ok () s' ∧
        Good cfg G g s' L' L' ∧ s'.blockHead = b.pack.blockId ∧ s'.building = none ∧
        Added cfg G g s.fork s.blockHead b.pack (some b.pack) blocks u (s.started u b).sink s'.fork
          s'.sink L' := by
  have hmade : MadeFrom cfg.crypto (s.fork.objs s.blockHead) b.pack := hbuilt.made
  have hi := h.inv
  have hmem := h.headPack_mem
  have hbefore : ∀ a ∈ s.fork.packs, ¬ longestLe (s.fork.objs a) b.pack := fun a ha hle =>
    hlead a ha ((hmade.longestLe_iff hbuilt.mainChain).1 hle)
  have hnames : ∀ q, s.fork.Leads b.pack q → s.fork.NamesOnWay s.blockHead q := by
    rintro q ⟨rfl | ⟨a, ha, rfl⟩, hle, -⟩
    · exact namesOnWay_of_made hi (hb.anc hi) hmade hparent (hbefore X hi.confirmed_mem)
    · exact absurd hle (hbefore a ha)
  have hopen : OpenOn (some b.pack) (s.started u b).sink.blockDb u := ⟨b.db, rfl⟩
  have hprev : (s.started u b).headPack.blockId = b.pack.block.previous := hmade.previous.symm
  have hbacked : Backed cfg G g s.fork L (s.started u b).sink.chainLog s.blockHead blocks u := hb
  rcases Added.of_addPack hi hbacked hopen hmem hmade hparent hnames with
    ⟨msg, herr⟩ | ⟨f', sink', L', hok, hadd⟩
  · have hpush : pushBlock cfg true (s.started u b) = .error (.fc msg) (s.started u b) := by
      rw [pushBlock_started cfg hprev]
      change (match ForkContext.addPack _ _ b.pack (s.fork, (s.started u b).sink) with
        | .error e r => _ | .ok _ r => _) = _
      rw [herr]
      rfl
    exact .inl ⟨_, _, run_bind_error hpush, rfl, rfl, rfl, rfl, b.db, rfl⟩
  obtain ⟨u', hb', ho', hcur⟩ := hadd.backed
  have hhead : f'.head = b.pack.blockId := by
    obtain ⟨q, ⟨-, hle, -⟩, ⟨hhead, -⟩ | ⟨hold, rfl⟩⟩ := hadd.lead
    · exact hhead
    · exact absurd hle (hbefore _ hold)
  have hpush := pushBlock_of_addPack hprev hok hhead
  have hne : s.blockHead ≠ b.pack.blockId := ne_of_mem_of_not_mem hmem hadd.fresh
  have hbhmem : s.blockHead ∈ f'.packs := (hb'.anc hadd.inv).mem_left
  obtain ⟨hprevId, hplace⟩ := hmade.place hi.toLinked hmem hparent
  have hup : f'.up b.pack.blockId = s.blockHead := by
    have hcore : (f'.objs b.pack.blockId).prevId = b.pack.prevId := by
      rw [hadd.core, if_pos rfl]
    exact hcore.trans hprevId
  have hnum : L'.num < b.pack.blockId.num := by
    have hle := (hb'.anc hadd.inv).rank_le hadd.inv.upNum
    omega
  have hnmem : b.pack.blockId ∈ f'.packs := (hadd.packs _).2 ⟨.inr rfl, .inr hnum⟩
  have hanc : ∀ a ∈ f'.packs, a ≠ b.pack.blockId →
      (f'.Anc b.pack.blockId a ↔ s.fork.Anc s.blockHead a) := fun a ha hane => by
    rw [← hadd.anc _ _ hne ha]
    refine ⟨fun hna => ?_, fun hba => .step hnmem (by rw [hup]; exact hba)⟩
    have := hna.up_of_ne (Ne.symm hane)
    rwa [hup] at this
  refine .inr ⟨_, L', run_bind_ok hpush, ⟨hadd.inv, ⟨(f'.objs b.pack.blockId).block :: blocks,
    u'.start.withCur b.db, ?_, ?_⟩, fun a ha => ?_⟩, hhead, rfl, hadd⟩
  · change Backed cfg G g f' L' sink'.chainLog f'.head _ _
    rw [hhead]
    refine .step hnmem hnum (by rw [hup]; exact hb') ?_
    have hblock : (f'.objs b.pack.blockId).block = b.pack.block := by
      rw [hadd.core, if_pos rfl]
    have hcore : (f'.objs s.blockHead).toPackCore = s.headPack.toPackCore := by
      rw [hadd.core, if_neg hne]
      rfl
    rw [hup, hblock, hcur]
    exact (Origin.Replays.of_replay hbuilt.replayed).core hcore
  · obtain ⟨d, hd⟩ := ho'
    have : d = b.db := by
      have hc := hadd.cur
      rw [hd] at hc
      exact hc
    change sink'.blockDb = _
    rw [hd, this]
  · change (f'.objs a).mainChain = true ↔ f'.Anc f'.head a
    rw [hhead, hadd.mainChain]
    split_ifs with hane
    · subst hane
      exact iff_of_true hbuilt.mainChain (.refl hnmem)
    · rw [hanc a ha hane]
      refine h.main a ?_
      exact ((hadd.packs a).1 ha).1.resolve_right hane

end Push

end XmaxChain
