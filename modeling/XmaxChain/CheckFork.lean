import XmaxChain.ChainStep

/-!
# Switching branches

A round of `_check_fork` pops the blocks down to where the branch of the new head leaves the main
chain, then applies that branch from there. Every block popped or applied leaves a chain that is as
it should be, and so does the removal of one that is refused, so this holds wherever a round ends.
-/

namespace XmaxChain

open ParentWalk ForkContext

variable {cfg : ChainConfig} {G : BlockPack} {g : Origin}

section Flag

variable {c : Crypto} {f : ForkContext} {id : Summary}

theorem changeMainChainFlag_ok (hc : Container f) (hid : id ∈ f.packs) (flag : Bool) :
    ∃ f', f.changeMainChainFlag id flag = .ok f' ∧ Container f' ∧ SameCores f f' ∧
      (∀ a, (f'.objs a).lastConfirmedNum = (f.objs a).lastConfirmedNum ∧
        (f'.objs a).lastConfirmedId = (f.objs a).lastConfirmedId ∧
        (f'.objs a).irreversibleConfirmed = (f.objs a).irreversibleConfirmed) ∧
      ∀ a, (f'.objs a).mainChain = if a = id then flag else (f.objs a).mainChain := by
  by_cases hflag : (f.objs id).mainChain = flag
  · refine ⟨f, ?_, hc, .refl f, fun _ => ⟨rfl, rfl, rfl⟩, fun a => ?_⟩
    · rw [changeMainChainFlag, if_pos hid, if_pos hflag]
    · split_ifs with ha
      · rw [ha, hflag]
      · rfl
  · have hobj : ∀ a, (f.modify id fun p => { p with mainChain := flag }).objs a
        = if a = id then { f.objs id with mainChain := flag } else f.objs a := fun a => by
      rw [modify_objs, Function.update_apply]
    refine ⟨f.modify id fun p => { p with mainChain := flag }, ?_, hc.modify hid,
      ⟨rfl, rfl, fun a => ?_⟩, fun a => ?_, fun a => ?_⟩
    · rw [changeMainChainFlag, if_pos hid, if_neg hflag]
    all_goals
      rw [hobj]
      split_ifs with ha
      all_goals simp [ha]

end Flag

/-- The same tree of packs with the same confirmations, and the same log. -/
structure SameTree (s s' : ChainState) : Prop where
  cores : SameCores s.fork s'.fork
  confirmed : ∀ a, (s'.fork.objs a).lastConfirmedNum = (s.fork.objs a).lastConfirmedNum
  chainLog : s'.sink.chainLog = s.sink.chainLog
  last : s'.sink.lastIrreversibleBlockNum = s.sink.lastIrreversibleBlockNum

theorem SameTree.refl (s : ChainState) : SameTree s s := ⟨.refl _, fun _ => rfl, rfl, rfl⟩

theorem SameTree.trans {s s' s'' : ChainState} (h : SameTree s s') (h' : SameTree s' s'') :
    SameTree s s'' :=
  ⟨h.cores.trans h'.cores, fun a => (h'.confirmed a).trans (h.confirmed a),
    h'.chainLog.trans h.chainLog, h'.last.trans h.last⟩

section Steps

variable {s : ChainState} {L X : Summary}

/-- The history once its newest session was undone: the rows of ERC721 ids may be torn, if `g` has it
so. -/
def Origin.Undone (g : Origin) (db db' : Undo ChainDb) : Prop :=
  db' = db.undo ∨
    g.torn = true ∧ ∃ rows, db' = db.undo.withCur { db.undo.cur with erc721Accounts := rows }

/-- Below the sessions of the blocks that were undone the history is the one of the parent. -/
theorem Backed.undone {blocks : List SignedBlock} {u db db' : Undo ChainDb}
    (hb : Backed cfg G g s.fork L s.sink.chainLog s.blockHead blocks u) (hne : s.blockHead ≠ L)
    (ho : OpenOn s.building db u) (hdb : g.Undone db db') :
    ∃ blocks' u', Backed cfg G g s.fork L s.sink.chainLog (s.fork.up s.blockHead) blocks' u' ∧
      OpenOn s.building db' u' := by
  obtain ⟨blocks', -, hb', hu⟩ := hb.undo hne
  cases hbuilding : s.building with
  | none =>
    rw [hbuilding] at ho
    obtain rfl : db = u := ho
    rcases hdb with rfl | ⟨hg, rows, rfl⟩
    · exact ⟨blocks', db.undo, hb', rfl⟩
    · exact ⟨blocks', _, hb'.withCur (.of_torn hg _ rows), rfl⟩
  | some pack =>
    rw [hbuilding] at ho
    obtain ⟨d, rfl⟩ := ho
    rw [Origin.Undone, Undo.undo_withCur_start] at hdb
    refine ⟨blocks', u.undo, hb', ?_⟩
    rcases hdb with rfl | ⟨-, rows, rfl⟩
    · exact ⟨db'.cur, hu⟩
    · refine ⟨{ u.cur with erc721Accounts := rows }, ?_⟩
      rw [hu]
      rfl

/-- Popping a block that is not irreversible. If its session cannot be undone the call throws, with
the head moved all the same. -/
theorem Good.popBlock (h : Good cfg G g s L X) (hne : s.blockHead ≠ L)
    (hundo : g.torn = false → Undoable s.sink.blockDb) :
    ∃ s', Good cfg G g s' L X ∧ s'.blockHead = s.fork.up s.blockHead ∧ SameTree s s' ∧
      (Undoable s.sink.blockDb ∧ popBlock s = .ok () s' ∨
        ¬ Undoable s.sink.blockDb ∧ ∃ e, popBlock s = .error e s') := by
  obtain ⟨blocks, u, hb, ho⟩ := h.backed
  have hi := h.inv
  have hmem := h.headPack_mem
  have hid : s.headPack.blockId = s.blockHead := hi.blockId _ hmem
  obtain ⟨db, hdb, hresult⟩ : ∃ db, g.Undone s.sink.blockDb db ∧
      (Undoable s.sink.blockDb ∧ undoDb s.sink.blockDb = .ok db ∨
        ¬ Undoable s.sink.blockDb ∧ ∃ e, undoDb s.sink.blockDb = .error (e, db)) := by
    by_cases hcan : Undoable s.sink.blockDb
    · exact ⟨_, .inl rfl, .inl ⟨hcan, undoDb_of_undoable hcan⟩⟩
    · obtain ⟨e, rows, herr⟩ := undoDb_error hcan
      have hg : g.torn = true := by
        by_contra hg
        exact hcan (hundo (Bool.eq_false_of_not_eq_true hg))
      exact ⟨_, .inr ⟨hg, rows, rfl⟩, .inr ⟨hcan, e, herr⟩⟩
  obtain ⟨blocks', u', hb', ho'⟩ := hb.undone hne ho hdb
  have hup : s.fork.up s.blockHead ∈ s.fork.packs := (hb'.anc hi).mem_left
  obtain ⟨f', hf', hc', hsame, hmarks, hmain⟩ := changeMainChainFlag_ok hi.toContainer hmem false
  have hnot : ¬ s.fork.Anc (s.fork.up s.blockHead) s.blockHead := fun hanc => by
    have := hanc.rank_le hi.upNum
    have := hi.upNum _ hmem
    omega
  refine ⟨{ s.withDb db with fork := f', blockHead := s.fork.up s.blockHead },
    ⟨hi.of_marks hc' hsame hmarks, ⟨blocks', u', ?_, ho'⟩, fun a ha => ?_⟩, rfl,
    ⟨hsame, fun a => (hmarks a).1, rfl, rfl⟩, ?_⟩
  · exact hb'.congr (fun x hx _ => by rw [hsame.packs]; exact hx.mem_right)
      (fun x _ => hsame.core x) hi.last_mem
  · change (f'.objs a).mainChain = true ↔ f'.Anc (s.fork.up s.blockHead) a
    rw [hmain, hsame.anc]
    rw [hsame.packs] at ha
    split_ifs with hab
    · subst hab
      simpa using hnot
    · rw [h.main a ha]
      exact ⟨fun hanc => hanc.up_of_ne (Ne.symm hab), fun hanc => .step hmem hanc⟩
  · unfold XmaxChain.popBlock
    have hknown : s.headPack.prevId ∈ s.fork.packs := hup
    rw [hid, hf']
    simp only [if_pos hknown]
    rcases hresult with ⟨hcan, hok⟩ | ⟨hcan, e, herr⟩
    · rw [hok]
      exact .inl ⟨hcan, rfl⟩
    · rw [herr]
      exact .inr ⟨hcan, e, rfl⟩

/-- Of the newest sessions so many can be undone, one after the other. -/
def UndoableBy : ℕ → Undo ChainDb → Prop
  | 0, _ => True
  | n + 1, u => Undoable u ∧ UndoableBy n u.undo

theorem popBlock_db {s s' : ChainState} (h : XmaxChain.popBlock s = .ok () s') :
    Undoable s.sink.blockDb ∧ s'.sink.blockDb = s.sink.blockDb.undo ∧ s'.building = s.building := by
  unfold XmaxChain.popBlock at h
  split at h
  · cases h
  · split_ifs at h
    split at h
    · cases h
    · rename_i hdb
      cases h
      exact ⟨(undoDb_eq_ok.1 hdb).1, (undoDb_eq_ok.1 hdb).2, rfl⟩

/-- The sessions of the blocks on a way can be undone if each of these blocks can. -/
theorem Backed.undoableBy {f : ForkContext} {log blocks : List SignedBlock} {a node : Summary}
    {u : Undo ChainDb} {way : List Summary} (hb : Backed cfg G g f L log a blocks u)
    (hl : Linked cfg.crypto f) (hway : Way f.up f.packs a way node) (habove : ∀ x ∈ way, x ≠ L)
    (hback : ∀ x ∈ way, ∀ blocks db db', Executed cfg G g f.objs blocks (f.up x) db →
      g.Replays cfg (f.objs (f.up x)) db (f.objs x).block db' →
        GivesBack db.erc721Accounts db'.erc721Accounts) :
    UndoableBy way.length u := by
  induction hb generalizing way with
  | base _ =>
    cases hway with
    | here _ => trivial
    | pass _ _ => exact absurd rfl (habove _ List.mem_cons_self)
  | step mem above parent replayed ih =>
    cases hway with
    | here _ => trivial
    | pass _ rest =>
      refine ⟨fun top htop => ?_, ?_⟩
      · cases htop
        exact hback _ List.mem_cons_self _ _ _ (parent.executed hl) replayed
      · rw [Undo.undo_withCur_start]
        exact ih rest (fun x hx => habove x (List.mem_cons_of_mem _ hx))
          fun x hx => hback x (List.mem_cons_of_mem _ hx)

/-- Popping the blocks down to a pack on the way of `block_head`, as far as their sessions can be
undone. -/
theorem Good.popBlocks {node : Summary} {way : List Summary} (h : Good cfg G g s L X)
    (hway : Way s.fork.up s.fork.packs s.blockHead way node)
    (hundo : g.torn = false → UndoableBy way.length s.sink.blockDb) :
    ∃ s', Good cfg G g s' L X ∧ SameTree s s' ∧
      (UndoableBy way.length s.sink.blockDb ∧ popBlocks way.length s = .ok () s' ∧
          s'.blockHead = node ∨
        ¬ UndoableBy way.length s.sink.blockDb ∧ ∃ e, popBlocks way.length s = .error e s') := by
  induction way generalizing s with
  | nil =>
    cases hway
    exact ⟨s, h, .refl s, .inl ⟨trivial, rfl, rfl⟩⟩
  | cons a way ih =>
    have hne : s.blockHead ≠ L := by
      have hlt := hway.rank_lt h.inv.upNum a List.mem_cons_self
      have hle := h.inv.last_le hway.anc.mem_right
      cases hway
      rintro heq
      rw [heq] at hlt
      omega
    obtain ⟨s₁, hgood, hhead, hsame, hpop⟩ := h.popBlock hne fun hg => (hundo hg).1
    simp only [List.length_cons, XmaxChain.popBlocks, UndoableBy]
    rcases hpop with ⟨hcan, hpop⟩ | ⟨hcan, e, hpop⟩
    swap
    · exact ⟨s₁, hgood, hsame, .inr ⟨fun hall => hcan hall.1, e, run_bind_error hpop⟩⟩
    have hrest : Way s₁.fork.up s₁.fork.packs s₁.blockHead way node := by
      rw [hhead, hsame.cores.up, hsame.cores.packs]
      cases hway with
      | pass _ rest => exact rest
    obtain ⟨s', hgood', hsame', hpops⟩ := ih hgood hrest fun hg => by
      rw [(popBlock_db hpop).2.1]
      exact (hundo hg).2
    rw [(popBlock_db hpop).2.1] at hpops
    refine ⟨s', hgood', hsame.trans hsame', ?_⟩
    rw [run_bind_ok hpop]
    exact hpops.imp (fun hr => ⟨⟨hcan, hr.1⟩, hr.2⟩) fun hr => ⟨fun hall => hr.1 hall.2, hr.2⟩

/-- Applying the next pack of a branch: what throws leaves the chain where it was. -/
theorem Good.applyPack {id : Summary} {blocks : List SignedBlock} {u : Undo ChainDb}
    (h : Good cfg G g s L X) (hb : Backed cfg G g s.fork L s.sink.chainLog s.blockHead blocks u)
    (ho : OpenOn s.building s.sink.blockDb u) (hid : id ∈ s.fork.packs)
    (hup : s.fork.up id = s.blockHead) :
    (∃ e s', applyPack cfg id s = .error e s' ∧ Unmoved u s s' ∧
        applied cfg s.headPack s.sink.blockDb.cur s.CanAbort u.cur (s.fork.objs id).block = .error e) ∨
      ∃ s', applyPack cfg id s = .ok () s' ∧ Good cfg G g s' L X ∧ s'.blockHead = id ∧
        SameTree s s' ∧ s'.building = none ∧
        applied cfg s.headPack s.sink.blockDb.cur s.CanAbort u.cur (s.fork.objs id).block
          = .ok s'.sink.blockDb.cur := by
  have hi := h.inv
  unfold XmaxChain.applyPack
  rcases applyBlock_run ho with ⟨e, s', herr, hun, hwhy⟩ | ⟨trxs, pack, b, hstart, hbody, happlied, hrun⟩
  · exact .inl ⟨e, s', by rw [herr], hun, hwhy⟩
  have hbuilt : BuiltOn cfg s.headPack u.cur b := .of_blockBody hstart (seals_validate _ _) hbody
  refine .inr ?_
  have hprev : (s.started u b).headPack.blockId = b.pack.block.previous := hbuilt.made.previous.symm
  have hpush : pushBlock cfg false (s.started u b) = .ok () (s.started u b) := by
    change (if _ then _ else if false = true then _ else _) = _
    rw [if_neg (not_not.2 hprev), if_neg Bool.false_ne_true]
  have happly : applyBlock cfg (s.fork.objs id).block false s
      = .ok () { s.started u b with building := none } := by
    rw [hrun, run_bind_ok hpush]
    rfl
  obtain ⟨f', hf', hc', hsame, hmarks, hmain⟩ := changeMainChainFlag_ok hi.toContainer hid true
  let s' : ChainState :=
    { s.started u b with building := none, fork := f', blockHead := id }
  have hswitch : switchTo id { s.started u b with building := none } = .ok () s' := by
    simp only [switchTo, ChainState.started, ChainState.withDb, hf', s']
  have hnum := hi.upNum id hid
  have habove : L.num < id.num := by
    have := (hb.anc hi).rank_le hi.upNum
    rw [hup] at hnum
    omega
  refine ⟨s', ?_, ⟨hi.of_marks hc' hsame hmarks, ⟨(s.fork.objs id).block :: blocks,
    u.start.withCur b.db, ?_, rfl⟩, fun a ha => ?_⟩, rfl, ⟨hsame, fun a => (hmarks a).1, rfl, rfl⟩,
    rfl, happlied⟩
  · rw [happly]
    exact hswitch
  · refine Backed.congr (f := s.fork) (.step hid habove (by rw [hup]; exact hb) ?_)
      (fun x hx _ => by rw [hsame.packs]; exact hx.mem_right) (fun x _ => hsame.core x) hi.last_mem
    rw [hup]
    exact .of_replay (applied_eq_ok.1 happlied).2.2
  · change (f'.objs a).mainChain = true ↔ f'.Anc id a
    rw [hsame.packs] at ha
    rw [hmain, hsame.anc]
    split_ifs with hab
    · subst hab
      exact iff_of_true rfl (.refl hid)
    · rw [h.main a ha, ← hup]
      exact ⟨fun hanc => .step hid hanc, fun hanc => hanc.up_of_ne (Ne.symm hab)⟩

/-- Removing a block just above the head, and whatever goes with it. -/
theorem Good.removeChain {id : Summary} (h : Good cfg G g s L X) (hup : s.fork.up id = s.blockHead)
    (hid : id ∈ s.fork.packs) (hlow : X.num < id.num) :
    ∃ f', s.fork.removeChain id = .ok f' ∧ Good cfg G g { s with fork := f' } L X ∧
      HeadFirst f' ∧ f'.objs = s.fork.objs ∧
      ∀ a, a ∈ f'.packs ↔ a ∈ s.fork.packs ∧ a ≠ id ∧ s.fork.doomed id a = false := by
  have hi := h.inv
  obtain ⟨blocks, u, hb, ho⟩ := h.backed
  obtain ⟨f', hf', hi', hfirst, hobjs, hpacks⟩ := hi.removeChain hlow
  have hupf : f'.up = s.fork.up := by
    unfold ForkContext.up
    rw [hobjs]
  have hnum := hi.upNum id hid
  rw [hup] at hnum
  -- what is on the way of the head is below the removed block
  have hway : ∀ x, s.fork.Anc s.blockHead x → x ∈ f'.packs := fun x hx => by
    have hle := hx.rank_le hi.upNum
    have hx' := hi.upNum x hx.mem_right
    refine (hpacks x).2 ⟨hx.mem_right, ?_, ?_⟩
    · rintro rfl
      omega
    · by_contra hd
      rw [Bool.not_eq_false, doomed] at hd
      have := Summary.num_le_of_ble hd
      omega
  refine ⟨f', hf', ⟨hi', ⟨blocks, u, ?_, ho⟩, fun a ha => ?_⟩, hfirst, hobjs, hpacks⟩
  · exact hb.congr (fun x hx _ => hway x hx) (fun x _ => by rw [hobjs]) hi.last_mem
  · change (f'.objs a).mainChain = true ↔ f'.Anc s.blockHead a
    rw [hobjs, h.main a ((hpacks a).1 ha).1]
    constructor
    · intro hanc
      unfold ForkContext.Anc
      rw [hupf]
      refine hanc.restrict (fun x hx hxup => ?_) (hway _ (.refl h.headPack_mem))
      exact (hpacks _).2 ⟨hxup, hi.kept_up hxup ((hpacks x).1 hx).2.2⟩
    · intro hanc
      exact hanc.mono (fun x hx => ((hpacks x).1 hx).1) fun x _ => by rw [hupf]

end Steps

/-! ## A round -/

section Fetch

variable {f : ForkContext}

theorem fetchUp_eq_ok {a b : Summary} : f.fetchUp a = .ok b ↔ f.up a ∈ f.packs ∧ b = f.up a := by
  unfold fetchUp
  split_ifs with hup <;> simp [hup, eq_comm]

theorem fetchDown_way {num : ℕ} : ∀ {fuel : ℕ} {a : Summary} {r : List Summary × Summary},
    a ∈ f.packs → f.fetchDown num fuel a = .ok r → Way f.up f.packs a r.1 r.2
  | 0, _, _, _, h => by cases h
  | fuel + 1, a, r, ha, h => by
    unfold fetchDown at h
    split_ifs at h with hlt
    · obtain ⟨b, hb, h⟩ := bind_eq_ok.1 h
      obtain ⟨r', hr', h⟩ := bind_eq_ok.1 h
      cases h
      obtain ⟨hup, rfl⟩ := fetchUp_eq_ok.1 hb
      exact .pass ha (fetchDown_way hup hr')
    · cases h
      exact .here ha

theorem fetchMeet_ways : ∀ {fuel : ℕ} {a b : Summary} {r : FetchBranch},
    a ∈ f.packs → b ∈ f.packs → f.fetchMeet fuel a b = .ok r →
    Way f.up f.packs a r.first r.forkNode ∧ Way f.up f.packs b r.second r.forkNode
  | 0, _, _, _, _, _, h => by cases h
  | fuel + 1, a, b, r, ha, hb, h => by
    unfold fetchMeet at h
    split_ifs at h with hab
    · cases h
      exact ⟨.here ha, hab ▸ .here ha⟩
    · obtain ⟨a', ha', h⟩ := bind_eq_ok.1 h
      obtain ⟨b', hb', h⟩ := bind_eq_ok.1 h
      obtain ⟨r', hr', h⟩ := bind_eq_ok.1 h
      cases h
      obtain ⟨hupa, rfl⟩ := fetchUp_eq_ok.1 ha'
      obtain ⟨hupb, rfl⟩ := fetchUp_eq_ok.1 hb'
      obtain ⟨hfirst, hsecond⟩ := fetchMeet_ways hupa hupb hr'
      exact ⟨.pass ha hfirst, .pass hb hsecond⟩

/-- The two branches go up to one pack. -/
theorem fetchBranchFromFork_ways {a b : Summary} {r : FetchBranch}
    (h : f.fetchBranchFromFork a b = .ok r) :
    Way f.up f.packs a r.first r.forkNode ∧ Way f.up f.packs b r.second r.forkNode := by
  unfold fetchBranchFromFork at h
  simp only [bind_eq_ok, fcAssert_eq_ok, decide_eq_true_eq] at h
  obtain ⟨-, ha, -, hb, down, hdown, down', hdown', -, -, r', hmeet, h⟩ := h
  cases h
  have hway := fetchDown_way ha hdown
  have hway' := fetchDown_way hb hdown'
  obtain ⟨hfirst, hsecond⟩ := fetchMeet_ways hway.anc.mem_right hway'.anc.mem_right hmeet
  exact ⟨hway.append hfirst, hway'.append hsecond⟩

end Fetch

/-- The sessions of the blocks that a round pops can be undone. -/
def ChainState.PopsUndoable (s : ChainState) : Prop :=
  s.fork.headPack.mainChain = false → ∀ branches,
    s.fork.fetchBranchFromFork s.headPack.blockId s.fork.head = .ok branches →
      UndoableBy branches.first.length s.sink.blockDb

/-- A round of `_check_fork` that is not the last. -/
def Round (cfg : ChainConfig) (s s' : ChainState) : Prop :=
  s.fork.headPack.mainChain = false ∧ switchFork cfg s = .ok () s'

section Round

variable {s : ChainState} {L : Summary}

/-- Wherever applying a branch ends, the chain is as it should be and the log as it was. -/
theorem Good.applyBranch {ids : List Summary} (h : Good cfg G g s L L)
    (hchain : (s.blockHead :: ids).IsChain fun a b => s.fork.up b = a)
    (hids : ∀ a ∈ ids, a ∈ s.fork.packs ∧ L.num < a.num) :
    Good cfg G g (stateOf (applyBranch cfg ids s)) L L ∧
      (stateOf (applyBranch cfg ids s)).sink.chainLog = s.sink.chainLog := by
  induction ids generalizing s with
  | nil => exact ⟨h, rfl⟩
  | cons id ids ih =>
    obtain ⟨blocks, u, hb, ho⟩ := h.backed
    obtain ⟨hup, hchain'⟩ := List.isChain_cons_cons.1 hchain
    obtain ⟨hid, hlow⟩ := hids id List.mem_cons_self
    unfold XmaxChain.applyBranch
    rcases h.applyPack hb ho hid hup with ⟨e, s₁, herr, hun, -⟩ | ⟨s₁, hok, hgood, hhead, hsame, -⟩
    · rw [herr]
      have hgood := h.unmoved hb hun
      cases e with
      | fc msg =>
        have hup₁ : s₁.fork.up id = s₁.blockHead := by
          rw [hun.fork, hun.blockHead]
          exact hup
        have hid₁ : id ∈ s₁.fork.packs := by
          rw [hun.fork]
          exact hid
        obtain ⟨f', hf', hgood', -⟩ := hgood.removeChain hup₁ hid₁ hlow
        simp only [hf']
        exact ⟨hgood', hun.chainLog⟩
      | _ => exact ⟨hgood, hun.chainLog⟩
    · rw [hok]
      have hnext := ih hgood (by rw [hhead, hsame.cores.up]; exact hchain')
        fun a ha => by rw [hsame.cores.packs]; exact hids a (List.mem_cons_of_mem _ ha)
      exact ⟨hnext.1, hnext.2.trans hsame.chainLog⟩

theorem Good.switchFork (h : Good cfg G g s L L) (hmain : s.fork.headPack.mainChain = false)
    (hundo : g.torn = false → s.PopsUndoable) :
    Good cfg G g (stateOf (switchFork cfg s)) L L ∧
      (stateOf (switchFork cfg s)).sink.chainLog = s.sink.chainLog := by
  have hi := h.inv
  have hid : s.headPack.blockId = s.blockHead := hi.blockId _ h.headPack_mem
  unfold XmaxChain.switchFork
  cases hfetch : s.fork.fetchBranchFromFork s.headPack.blockId s.fork.head with
  | error e => exact ⟨h, rfl⟩
  | ok branches =>
    obtain ⟨hfirst, hsecond⟩ := fetchBranchFromFork_ways hfetch
    rw [hid] at hfirst
    dsimp only
    split
    · exact ⟨h, rfl⟩
    · split_ifs
      · obtain ⟨s₁, hgood, hsame, ⟨-, hpops, hhead⟩ | ⟨-, e, hpops⟩⟩ :=
          h.popBlocks hfirst fun hg => hundo hg hmain branches hfetch
        swap
        · rw [run_bind_error hpops]
          exact ⟨hgood, hsame.chainLog⟩
        rw [run_bind_ok hpops]
        have happly := hgood.applyBranch
          (by rw [hhead, hsame.cores.up]; exact hsecond.isChain_reverse) fun a ha => by
            rw [List.mem_reverse] at ha
            rw [hsame.cores.packs]
            have hlt := hsecond.rank_lt hi.upNum a ha
            have hle := hi.last_le hsecond.anc.mem_right
            exact ⟨hsecond.known a ha, by omega⟩
        exact ⟨happly.1, happly.2.trans hsame.chainLog⟩
      · exact ⟨h, rfl⟩

/-- Wherever the rounds end, by an exception or not, the chain is as it should be. -/
theorem Good.checkForkLoop (h : Good cfg G g s L L) (fuel : ℕ)
    (hundo : g.torn = false → ∀ r, Relation.ReflTransGen (Round cfg) s r → r.PopsUndoable) :
    Good cfg G g (stateOf (checkForkLoop cfg fuel s)) L L ∧
      (stateOf (checkForkLoop cfg fuel s)).sink.chainLog = s.sink.chainLog := by
  induction fuel generalizing s with
  | zero => exact ⟨h, rfl⟩
  | succ fuel ih =>
    unfold XmaxChain.checkForkLoop
    split_ifs with hmain
    · exact ⟨h, rfl⟩
    · rw [Bool.not_eq_true] at hmain
      have hround := h.switchFork hmain fun hg => hundo hg s .refl
      cases hrun : XmaxChain.switchFork cfg s with
      | error e s₁ =>
        rw [hrun] at hround
        rw [run_bind_error hrun]
        exact hround
      | ok v s₁ =>
        rw [hrun] at hround
        rw [run_bind_ok hrun]
        have hlater := ih hround.1 fun hg r hr => hundo hg r (.head ⟨hmain, hrun⟩ hr)
        exact ⟨hlater.1, hlater.2.trans hround.2⟩

end Round

end XmaxChain
