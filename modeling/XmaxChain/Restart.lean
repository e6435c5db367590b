import XmaxChain.Lineage

/-!
# Closing a node and starting it again

The packs are written to a file in whichever order the container's hash lists them, with the id of
the head. A node that starts reads them back, makes that head `block_head` and looks at nothing of
the old node but its database and its log. It takes the revision of the database for the number of
the last irreversible block.
-/

namespace XmaxChain

open ForkContext ParentWalk

/-! ## The file of the fork database -/

/-- What `close` writes. -/
structure ForkFile where
  headId : Summary
  packs : List BlockPack

namespace ForkContext

/-- `close`, with the packs in the order in which the container lists them. Without a pack nothing is
written. -/
def close (f : ForkContext) (order : List Summary) : Option ForkFile :=
  if f.packs = [] then none else some ⟨f.headPack.blockId, order.map f.objs⟩

/-- `packs.insert`, without a look at whether the pack was there. -/
def load (f : ForkContext) (pack : BlockPack) : ForkContext :=
  match f.insert pack with
  | .ok f => f
  | .error _ => f

/-- The container that a fork database starts with. -/
def empty : ForkContext where
  objs := fun _ => default
  packs := []
  byNumber := []
  byLongest := []
  head := emptyChainId

/-- The constructor, which reads the file if there is one. -/
def reopen : Option ForkFile → ForkContext
  | none => empty
  | some file => (file.packs.foldl load empty).withHead file.headId

end ForkContext

/-! ## The chain that starts -/

/-- `block_head` after a start: a pack of the fork database, or one made of the head of the log that
is in no container. -/
inductive HeadPack
  | member (id : Summary)
  | own (pack : BlockPack)

structure Restarted where
  fork : ForkContext
  sink : Sink ChainDb
  blockHead : HeadPack

/-- `refresh`, as of a confirmed and irreversible block. The flag for the main chain is not looked
at. -/
def BlockPack.refresh (c : Crypto) (b : SignedBlock) (current next : BuilderRule) (roundSlot : ℕ) :
    Except Fault BlockPack :=
  match selectBuilder current next roundSlot with
  | none => .error (.undefined "select_builder")
  | some builder =>
    let pack := BlockPack.generateByBlock c
      { currentBuilders := current, newBuilders := next, roundSlot, bldInfo := builder } b
    .ok { pack with
      lastBlockNum := pack.blockNum
      lastConfirmedNum := pack.blockNum
      lastConfirmedId := pack.blockId
      irreversibleConfirmed := true }

/-- The pack that is made when the fork database has no head. -/
def fixHead (c : Crypto) (sink : Sink ChainDb) : Except Fault BlockPack :=
  match sink.chainLog with
  | [] => .error (.undefined "null signed_block")
  | head :: _ =>
    let db := sink.blockDb.cur
    BlockPack.refresh c head db.currentBuilders db.nextBuilders (db.states.roundSlot % 2 ^ 16)

/-- `initialize_impl`, once the head is found or made. -/
def recoverDb (num : ℕ) (sink : Sink ChainDb) : Except Fault (Sink ChainDb) := do
  fcAssert (num ≤ sink.blockDb.revision) "Error: block_num > db revision."
  return { sink with
    blockDb := if num ≠ sink.blockDb.revision then sink.blockDb.undoAll.setRevision num
      else sink.blockDb
    lastIrreversibleBlockNum := u32 sink.blockDb.revision }

def initializeImpl (c : Crypto) (fork : ForkContext) (sink : Sink ChainDb) : Except Fault Restarted :=
  match fork.getBlock fork.head with
  | some pack => do
    let sink ← recoverDb pack.blockNum sink
    return ⟨fork, sink, .member fork.head⟩
  | none => do
    let pack ← fixHead c sink
    let sink ← recoverDb pack.blockNum sink
    return ⟨fork, sink, .own pack⟩

/-- Closing the node and starting it again: a block that is being built is gone. -/
def ChainState.restart (c : Crypto) (order : List Summary) (s : ChainState) : Except Fault Restarted :=
  initializeImpl c (.reopen (s.fork.close order)) s.abortBuild.sink

/-- The node that has started has what the old one had. -/
def Restores (s : ChainState) (r : Except Fault Restarted) : Prop :=
  ∃ fork sink, r = .ok ⟨fork, sink, .member s.blockHead⟩ ∧ s.blockHead ∈ fork.packs ∧
    fork.packs.Perm s.fork.packs ∧ (∀ a ∈ s.fork.packs, fork.objs a = s.fork.objs a) ∧
    fork.head = s.fork.head ∧ sink.blockDb = s.sink.blockDb ∧ sink.chainLog = s.sink.chainLog ∧
    sink.chainLog.head?.map (fun b => b.blockNum) = some sink.lastIrreversibleBlockNum ∧
    sink.lastIrreversibleBlockNum = s.sink.lastIrreversibleBlockNum

/-- The states of the runs from genesis of a node that may be closed and started again, in which
`block_head` is known by its id. -/
inductive NodeLife (cfg : ChainConfig) (G : BlockPack) (g : ChainDb) : ChainState → Prop
  | genesis : NodeLife cfg G g (.genesis G g)
  | call {s : ChainState} (before : NodeLife cfg G g s) (call : ChainCall) :
    NodeLife cfg G g (stateOf (chainStep cfg call s))
  | restart {s : ChainState} {order : List Summary} {fork : ForkContext} {sink : Sink ChainDb}
      {id : Summary} (before : NodeLife cfg G g s) (listed : order.Perm s.fork.packs)
      (started : s.restart cfg.crypto order = .ok ⟨fork, sink, .member id⟩) :
    NodeLife cfg G g ⟨fork, sink, id, none⟩

/-! ## Packs are known by their ids -/

namespace ForkContext

/-- The container is in order, and every pack in it and the head are known by their ids. -/
structure Keyed (f : ForkContext) : Prop extends Container f where
  known : ∀ a, a ∈ f.packs ∨ a = f.head → (f.objs a).blockId = a

theorem Held.keyed {S : List Summary} {f : ForkContext} (h : Held (fun a p => p.blockId = a) S f) :
    Keyed f :=
  ⟨h.toContainer, fun a ha => h.held a (ha.imp_right .inl)⟩

end ForkContext

/-! ## What is read back -/

section Load

variable {f : ForkContext} {objs : Summary → BlockPack}

/-- Packs that are put in one after the other, in whichever order. -/
theorem load_all : ∀ {order : List Summary} {f : ForkContext}, Container f → order.Nodup →
    (∀ a ∈ order, (objs a).blockId = a ∧ a ∉ f.packs) →
    Container ((order.map objs).foldl load f) ∧
      ((order.map objs).foldl load f).packs = f.packs ++ order ∧
      ∀ a, ((order.map objs).foldl load f).objs a = if a ∈ order then objs a else f.objs a
  | [], f, hc, _, _ => ⟨hc, (List.append_nil _).symm, fun a => by simp⟩
  | b :: order, f, hc, hnodup, horder => by
    obtain ⟨hb, hfresh⟩ := horder b List.mem_cons_self
    obtain ⟨hnot, hnodup'⟩ := List.nodup_cons.1 hnodup
    cases hins : f.insert (objs b) with
    | error e =>
      unfold ForkContext.insert at hins
      rw [hb, if_neg hfresh] at hins
      cases hins
    | ok f₁ =>
      have hload : f.load (objs b) = f₁ := by rw [load, hins]
      obtain ⟨-, hpacks, hobjs, -⟩ := insert_eq_ok hins
      rw [hb] at hpacks hobjs
      obtain ⟨hc', hpacks', hobjs'⟩ := load_all (hc.insert hins) hnodup' fun a ha => by
        refine ⟨(horder a (List.mem_cons_of_mem _ ha)).1, ?_⟩
        rw [hpacks, List.mem_append, List.mem_singleton, not_or]
        exact ⟨(horder a (List.mem_cons_of_mem _ ha)).2, ne_of_mem_of_not_mem ha hnot⟩
      rw [List.map_cons, List.foldl_cons, hload]
      refine ⟨hc', by rw [hpacks', hpacks, List.append_assoc, List.singleton_append], fun a => ?_⟩
      rw [hobjs', hobjs, Function.update_apply]
      by_cases hab : a = b
      · rw [if_neg (hab ▸ hnot), if_pos hab, if_pos (hab ▸ List.mem_cons_self), hab]
      · by_cases ha : a ∈ order
        · rw [if_pos ha, if_pos (List.mem_cons_of_mem _ ha)]
        · rw [if_neg ha, if_neg hab, if_neg fun h => (List.mem_cons.1 h).elim hab ha]

/-- The packs are read back as they were written. -/
theorem reopen_close (h : Keyed f) {order : List Summary} (horder : order.Perm f.packs)
    (hne : f.packs ≠ []) :
    Container (.reopen (f.close order)) ∧ (ForkContext.reopen (f.close order)).packs = order ∧
      (∀ a ∈ f.packs, (ForkContext.reopen (f.close order)).objs a = f.objs a) ∧
      (ForkContext.reopen (f.close order)).head = f.head := by
  have hempty : Container ForkContext.empty := ⟨List.nodup_nil, .refl _, .refl _, .nil, .nil⟩
  obtain ⟨hc, hpacks, hobjs⟩ := load_all hempty (horder.nodup_iff.2 h.nodup) fun a ha =>
    ⟨h.known a (.inl (horder.mem_iff.1 ha)), List.not_mem_nil⟩
  rw [close, if_neg hne]
  refine ⟨⟨hc.nodup, hc.permNumber, hc.permLongest, hc.sortedNumber, hc.sortedLongest⟩, hpacks,
    fun a ha => ?_, h.known f.head (.inr rfl)⟩
  exact (hobjs a).trans (if_pos (horder.mem_iff.2 ha))

end Load

section Life

variable {cfg : ChainConfig} {G : BlockPack} {g : ChainDb} {s : ChainState} {order : List Summary}

theorem recoverDb_eq_ok {num : ℕ} {sink sink' : Sink ChainDb} :
    recoverDb num sink = .ok sink' ↔ num ≤ sink.blockDb.revision ∧
      sink' = { sink with
        blockDb := if num ≠ sink.blockDb.revision then sink.blockDb.undoAll.setRevision num
          else sink.blockDb
        lastIrreversibleBlockNum := u32 sink.blockDb.revision } := by
  simp only [recoverDb, bind_eq_ok, fcAssert_eq_ok, decide_eq_true_eq, exists_const]
  exact and_congr Iff.rfl ⟨fun h => (Except.ok.inj h).symm, fun h => congrArg Except.ok h.symm⟩

/-- A start that finds the head in the fork database. -/
theorem restart_eq_member {fork : ForkContext} {sink : Sink ChainDb} {id : Summary} :
    s.restart cfg.crypto order = .ok ⟨fork, sink, .member id⟩ ↔
      fork = .reopen (s.fork.close order) ∧ id = fork.head ∧ id ∈ fork.packs ∧
        recoverDb (fork.objs id).blockNum s.abortBuild.sink = .ok sink := by
  unfold ChainState.restart initializeImpl getBlock
  constructor
  · intro h
    split at h
    · rename_i pack hpack
      split_ifs at hpack with hmem
      cases hpack
      obtain ⟨sink', hsink, h⟩ := bind_eq_ok.1 h
      cases h
      exact ⟨rfl, rfl, hmem, hsink⟩
    · obtain ⟨pack, -, h⟩ := bind_eq_ok.1 h
      obtain ⟨sink', -, h⟩ := bind_eq_ok.1 h
      cases h
  · rintro ⟨rfl, rfl, hmem, hsink⟩
    rw [if_pos hmem]
    dsimp only
    rw [hsink]
    rfl

/-- Packs are known by their ids, whatever they are made from. -/
theorem inherited_key : Inherited cfg (fun _ _ => True) fun a p => p.blockId = a :=
  ⟨fun h => h, fun _ _ _ => rfl⟩

theorem NodeLife.held (h : NodeLife cfg G g s) : s.Held (fun a p => p.blockId = a) [] := by
  induction h with
  | genesis => exact ChainState.held_genesis g rfl
  | @call s before call ih => exact inherited_key.chainStep ih (s.timed_always call)
  | @restart s order fork sink id _ listed started ih =>
    obtain ⟨rfl, rfl, hmem, -⟩ := restart_eq_member.1 started
    have hkeyed := ForkContext.Held.keyed ih
    have hne : s.fork.packs ≠ [] := fun hnil => by
      rw [close, if_pos hnil] at hmem
      exact List.not_mem_nil hmem
    obtain ⟨hc, hpacks, hobjs, hhead⟩ := reopen_close hkeyed listed hne
    refine ⟨hc, fun a ha => ?_⟩
    have ha' : a ∈ s.fork.packs := by
      rw [hpacks] at ha hmem
      rcases ha with ha | rfl | ha
      · exact listed.mem_iff.1 ha
      · exact listed.mem_iff.1 hmem
      · rw [List.mem_singleton.1 ha]
        exact listed.mem_iff.1 hmem
    show ((ForkContext.reopen (s.fork.close order)).objs a).blockId = a
    rw [hobjs a ha']
    exact hkeyed.known a (.inl ha')

theorem NodeLife.keyed (h : NodeLife cfg G g s) : Keyed s.fork := ForkContext.Held.keyed h.held

/-- With no block being built, a node that is closed and started again has what it had exactly if
`block_head` is the head of the fork database, its number is the database's revision, and it is also
that of the head of the log and the last irreversible number. -/
theorem restart_restores_iff (h : NodeLife cfg G g s) (hbuilding : s.building = none)
    (horder : order.Perm s.fork.packs) :
    Restores s (s.restart cfg.crypto order) ↔
      s.fork.head = s.blockHead ∧ s.blockHead ∈ s.fork.packs ∧
        s.headPack.blockNum = s.sink.blockDb.revision ∧
        s.sink.chainLog.head?.map (fun b => b.blockNum) = some (u32 s.headPack.blockNum) ∧
        s.sink.lastIrreversibleBlockNum = u32 s.headPack.blockNum := by
  have hkeyed := h.keyed
  have habort : s.abortBuild = s := by rw [ChainState.abortBuild, hbuilding]
  constructor
  · rintro ⟨fork, sink, hr, hmem, hpacks, hobjs, hhead, hdb, hlog, hnum, hlast⟩
    obtain ⟨-, hid, -, hsink⟩ := restart_eq_member.1 hr
    rw [habort] at hsink
    obtain ⟨hle, rfl⟩ := recoverDb_eq_ok.1 hsink
    have hmem' : s.blockHead ∈ s.fork.packs := hpacks.mem_iff.1 hmem
    rw [hobjs _ hmem'] at hdb
    have hrev : s.headPack.blockNum = s.sink.blockDb.revision := by
      by_contra hne
      have hne' : (s.fork.objs s.blockHead).blockNum ≠ s.sink.blockDb.revision := hne
      dsimp only at hdb
      rw [if_pos hne'] at hdb
      exact hne (congrArg Undo.revision hdb)
    rw [hrev]
    exact ⟨by rw [← hhead, hid], hmem', rfl, hnum, hlast.symm⟩
  · rintro ⟨hhead, hmem, hrev, hnum, hlast⟩
    have hne : s.fork.packs ≠ [] := List.ne_nil_of_mem hmem
    obtain ⟨-, hpacks, hobjs, hhead'⟩ := reopen_close hkeyed horder hne
    have hmem' : s.blockHead ∈ (ForkContext.reopen (s.fork.close order)).packs := by
      rw [hpacks]
      exact horder.mem_iff.2 hmem
    have hobj : ((ForkContext.reopen (s.fork.close order)).objs s.blockHead).blockNum
        = s.sink.blockDb.revision := by
      rw [hobjs _ hmem]
      exact hrev
    have hrecover : recoverDb ((ForkContext.reopen (s.fork.close order)).objs s.blockHead).blockNum
        s.abortBuild.sink
        = .ok { s.sink with lastIrreversibleBlockNum := u32 s.sink.blockDb.revision } := by
      rw [habort, recoverDb_eq_ok, if_neg (not_not.2 hobj)]
      exact ⟨hobj.le, rfl⟩
    refine ⟨_, _, restart_eq_member.2 ⟨rfl, (hhead'.trans hhead).symm, hmem', hrecover⟩, hmem', ?_,
      hobjs, hhead', rfl, rfl, ?_, ?_⟩
    · rw [hpacks]
      exact horder
    · rw [← hrev]
      exact hnum
    · rw [← hrev]
      exact hlast.symm

end Life

/-! ## A node with one builder -/

/-- The fork database of genesis, written and read back. -/
def rereadGenesis : ForkContext :=
  .reopen ((ForkContext.genesis oneBuilderGenesis).close [oneBuilderGenesis.blockId])

theorem rereadGenesis_packs : rereadGenesis.packs = [oneBuilderGenesis.blockId] := by decide

theorem rereadGenesis_head : rereadGenesis.head = oneBuilderGenesis.blockId := by decide

theorem rereadGenesis_num : (rereadGenesis.objs oneBuilderGenesis.blockId).blockNum = 1 := by
  decide

/-- The chain after genesis that has been closed and started again once. -/
def startedAgain (g : ChainDb) : ChainState :=
  ⟨rereadGenesis, ⟨[oneBuilderGenesis.block], 1, { cur := g, revision := 1 }⟩,
    oneBuilderGenesis.blockId, none⟩

theorem startedAgain_reached (g : ChainDb) :
    NodeLife headerConfig oneBuilderGenesis g (startedAgain g) := by
  refine .restart .genesis (.refl _) (restart_eq_member.2 ⟨rfl, rereadGenesis_head.symm, ?_, ?_⟩)
  · rw [rereadGenesis_packs]
    exact List.mem_singleton_self _
  · rw [show (ForkContext.objs _ oneBuilderGenesis.blockId).blockNum = 1 from rereadGenesis_num]
    rfl

theorem startedAgain_restores :
    ∃ s : ChainState, NodeLife headerConfig oneBuilderGenesis oneBuilderStart s ∧
      s.building = none ∧
      Restores s (s.restart headerConfig.crypto [oneBuilderGenesis.blockId]) := by
  refine ⟨startedAgain oneBuilderStart, startedAgain_reached _, rfl, (restart_restores_iff
    (startedAgain_reached _) rfl ?_).2 ⟨rereadGenesis_head, ?_, rereadGenesis_num, ?_, ?_⟩⟩
  · exact rereadGenesis_packs ▸ .refl _
  · exact rereadGenesis_packs ▸ List.mem_singleton_self _
  · exact congrArg (fun n => some (u32 n)) rereadGenesis_num.symm
  · exact congrArg u32 rereadGenesis_num.symm

/-- A node with two blocks of which only genesis is irreversible takes the second for irreversible
when it is started again. -/
theorem restart_forgets_irreversible :
    ∃ g s r, oneBuilderDb = .ok g ∧
      s = chainCalls headerConfig [.confirmBlock secondBlock] (.genesis oneBuilderGenesis g) ∧
      s.building = none ∧ s.sink.chainLog.head?.map (fun b => b.blockNum) = some 1 ∧
      s.restart headerConfig.crypto s.fork.packs = .ok r ∧ r.sink.lastIrreversibleBlockNum = 2 ∧
      ¬ Restores s (.ok r) := by
  obtain ⟨g, hg, h⟩ := exists_ok_of_eval (x := oneBuilderDb)
    (P := fun g =>
      let s := chainCalls headerConfig [.confirmBlock secondBlock] (.genesis oneBuilderGenesis g)
      s.building = none ∧ s.sink.chainLog.head?.map (fun b => b.blockNum) = some 1 ∧
        s.sink.lastIrreversibleBlockNum ≠ 2 ∧
        (match s.restart headerConfig.crypto s.fork.packs with
          | .ok r => decide (r.sink.lastIrreversibleBlockNum = 2)
          | .error _ => false) = true)
    (by decide +kernel)
  obtain ⟨hbuilding, hlog, hlast, hr⟩ := h
  split at hr
  · rename_i r hrun
    have hnum := of_decide_eq_true hr
    refine ⟨g, _, r, hg, rfl, hbuilding, hlog, hrun, hnum, ?_⟩
    rintro ⟨fork, sink, hr', -, -, -, -, -, -, -, hlast'⟩
    cases hr'
    exact hlast (hlast'.symm.trans hnum)
  · cases hr

end XmaxChain
