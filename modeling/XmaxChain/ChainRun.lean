import XmaxChain.CheckFork

/-!
# Runs of the chain

The calls that a chain takes, in any order from genesis, whether they return or throw. A block
whose pack does not rank first when it is pushed moves `block_head` to a pack that nobody has
applied, and a head that names a block off the main chain makes that block irreversible unapplied.
In a run without these the log is the beginning of the main chain, and the database is what that
leaves, as long as the sessions of the blocks that are popped can be undone.
-/

namespace XmaxChain

open ParentWalk ForkContext

inductive ChainCall
  | buildBlock (when : ℕ) (signPrivateKey : ℕ) (trxs : List SignedTransaction)
  | confirmBlock (block : SignedBlock)
  | pushFork (block : SignedBlock)
  | pushConfirmation (conf : BlockConfirmation)

def chainStep (cfg : ChainConfig) : ChainCall → ChainM Unit
  | .buildBlock when signPrivateKey trxs => buildBlock cfg when signPrivateKey trxs
  | .confirmBlock block => confirmBlock cfg block
  | .pushFork block => pushFork cfg block
  | .pushConfirmation conf => pushConfirmation cfg conf

/-- What a list of calls leaves, whether each returns or throws. -/
def chainCalls (cfg : ChainConfig) (calls : List ChainCall) (s : ChainState) : ChainState :=
  calls.foldl (fun s call => stateOf (chainStep cfg call s)) s

namespace ChainState

variable (cfg : ChainConfig) (s : ChainState)

/-- The next block of `block_head` ranks before all packs, and its number does not wrap. -/
def ExtendOk : Prop := s.fork.ParentOk s.blockHead ∧ s.NextLeads

instance : Decidable s.ExtendOk := by
  unfold ExtendOk ForkContext.ParentOk NextLeads
  infer_instance

/-- The block's parent is not below what is confirmed on its branch, and the pack that ranks first
with the block in names only blocks on the way of `block_head`. -/
def ForkOk (block : SignedBlock) : Prop :=
  (block.previous ∈ s.fork.packs → s.fork.ParentOk block.previous) ∧
    ∀ p, packOfBlock cfg.crypto s.fork block = .ok p →
      ∀ q, s.fork.Leads p q → s.fork.NamesOnWay s.blockHead q

/-- A call that does not mix up the branches. -/
def Careful : ChainCall → Prop
  | .buildBlock _ _ _ => s.ExtendOk
  | .confirmBlock _ => s.ExtendOk
  | .pushFork block => s.ForkOk cfg block
  | .pushConfirmation conf =>
    s.fork.Confirms cfg.crypto cfg.skipConfirmation conf → s.fork.ConfirmOk conf.blockId

end ChainState

/-- A careful call, whether it returns or throws. -/
def CarefulStep (cfg : ChainConfig) (s s' : ChainState) : Prop :=
  ∃ call, s.Careful cfg call ∧ s' = stateOf (chainStep cfg call s)

/-- The states of the runs from genesis whose calls are all careful. -/
def ChainRun (cfg : ChainConfig) (G : BlockPack) (g : ChainDb) : ChainState → Prop :=
  Relation.ReflTransGen (CarefulStep cfg) (.genesis G g)

/-- A call that pops no block whose session cannot be undone, in any round of `_check_fork`. -/
def ChainState.Undoes (cfg : ChainConfig) (s : ChainState) : ChainCall → Prop
  | .pushFork block => ∀ t, addForkBlock cfg block s = .ok () t →
      ∀ r, Relation.ReflTransGen (Round cfg) t r → r.PopsUndoable
  | .buildBlock _ _ _ | .confirmBlock _ | .pushConfirmation _ => True

/-- A careful call that undoes whatever it pops. -/
def CleanStep (cfg : ChainConfig) (s s' : ChainState) : Prop :=
  ∃ call, s.Careful cfg call ∧ s.Undoes cfg call ∧ s' = stateOf (chainStep cfg call s)

def CleanRun (cfg : ChainConfig) (G : BlockPack) (g : ChainDb) : ChainState → Prop :=
  Relation.ReflTransGen (CleanStep cfg) (.genesis G g)

theorem CleanStep.careful {cfg : ChainConfig} {s s' : ChainState} (h : CleanStep cfg s s') :
    CarefulStep cfg s s' := by
  obtain ⟨call, hcall, -, hs'⟩ := h
  exact ⟨call, hcall, hs'⟩

theorem CleanRun.careful {cfg : ChainConfig} {G : BlockPack} {g : ChainDb} {s : ChainState}
    (h : CleanRun cfg G g s) : ChainRun cfg G g s :=
  h.lift id fun _ _ => CleanStep.careful

variable {cfg : ChainConfig} {G : BlockPack} {g : Origin}

section Calls

variable {s : ChainState} {L X : Summary}

theorem Finalises.of_eq {s s' : ChainState} (h : s'.sink.chainLog = s.sink.chainLog) :
    Finalises s s' :=
  ⟨[], h, fun _ ha => absurd ha List.not_mem_nil⟩

theorem Good.extend {r : EStateM.Result Fault ChainState Unit} {blocks : List SignedBlock}
    {u : Undo ChainDb} (h : Good cfg G g s L X)
    (hb : Backed cfg G g s.fork L s.sink.chainLog s.blockHead blocks u) (hok : s.ExtendOk)
    (hr : (∃ e s', r = .error e s' ∧ Unmoved u s s') ∨
      ∃ b, BuiltOn cfg s.headPack u.cur b ∧
        r = (pushBlock cfg true >>= fun _ => commitBlock) (s.started u b)) :
    ∃ L' X', Good cfg G g (stateOf r) L' X' ∧ Finalises s (stateOf r) := by
  rcases hr with ⟨e, s', rfl, hun⟩ | ⟨b, hbuilt, rfl⟩
  · exact ⟨L, X, h.unmoved hb hun, .of_eq hun.chainLog⟩
  · rcases h.push hb hbuilt hok.1 hok.2 with ⟨e, s', herr, hun⟩ | ⟨s', L', hpush, hgood, -, -, hadd⟩
    · rw [herr]
      exact ⟨L, X, h.unmoved hb hun, .of_eq hun.chainLog⟩
    · rw [hpush]
      exact ⟨L', L', hgood, hadd.passed⟩

theorem packOfBlock_mainChain {c : Crypto} {f : ForkContext} {block : SignedBlock} {p : BlockPack}
    (h : packOfBlock c f block = .ok p) : p.mainChain = false := by
  obtain ⟨-, q, hq, rfl⟩ := packOfBlock_ok h
  obtain ⟨_, -, -, -, -, hmain, -⟩ := initByPrePack_eq_ok hq
  exact hmain

/-- A block received for a fork is put in without being applied. -/
theorem Good.addForkBlock {block : SignedBlock} (h : Good cfg G g s L X) (hok : s.ForkOk cfg block) :
    (∃ e, addForkBlock cfg block s = .error e s) ∨
      ∃ s' L' p, addForkBlock cfg block s = .ok () s' ∧ Good cfg G g s' L' L' ∧
        s'.blockHead = s.blockHead ∧ packOfBlock cfg.crypto s.fork block = .ok p ∧
        (∃ blocks u, Added cfg G g s.fork s.blockHead p s.building blocks u s.sink s'.fork s'.sink L') ∧
        Finalises s s' := by
  obtain ⟨blocks, u, hb, ho⟩ := h.backed
  unfold XmaxChain.addForkBlock
  cases hpack : packOfBlock cfg.crypto s.fork block with
  | error e =>
    have hadd : ForkContext.addBlock (onIrreversible cfg.crypto) cfg.crypto block (s.fork, s.sink)
        = .error e (s.fork, s.sink) := by
      simp only [ForkContext.addBlock, hpack]
    exact .inl ⟨e, by rw [hadd]⟩
  | ok p =>
    obtain ⟨hq, hmade⟩ := MadeFrom.of_packOfBlock h.inv.toLinked hpack
    rcases Added.of_addPack h.inv hb ho hq hmade (hok.1 hq) (hok.2 p hpack) with
      ⟨msg, herr⟩ | ⟨f', sink', L', hok', hadded⟩
    · have hadd : ForkContext.addBlock (onIrreversible cfg.crypto) cfg.crypto block (s.fork, s.sink)
          = .error (.fc msg) (s.fork, s.sink) := by
        simp only [ForkContext.addBlock, hpack, herr]
      exact .inl ⟨.fc msg, by rw [hadd]⟩
    · have hadd : ForkContext.addBlock (onIrreversible cfg.crypto) cfg.crypto block (s.fork, s.sink)
          = .ok p (f', sink') := by
        simp only [ForkContext.addBlock, hpack, hok']
      obtain ⟨u', hb', ho', -⟩ := hadded.backed
      rw [hadd]
      refine .inr ⟨{ s with fork := f', sink := sink' }, L', p, rfl,
        ⟨hadded.inv, ⟨blocks, u', hb', ho'⟩, fun a ha => ?_⟩, rfl, rfl, ⟨blocks, u, hadded⟩,
        hadded.passed⟩
      have hne : s.blockHead ≠ p.blockId := ne_of_mem_of_not_mem h.headPack_mem hadded.fresh
      change (f'.objs a).mainChain = true ↔ f'.Anc s.blockHead a
      rw [hadded.mainChain, hadded.anc _ _ hne ha]
      split_ifs with hap
      · subst hap
        simp only [packOfBlock_mainChain hpack, Bool.false_eq_true, false_iff]
        exact fun hanc => hadded.fresh hanc.mem_right
      · exact h.main a (((hadded.packs a).1 ha).1.resolve_right hap)

theorem stateOf_pushFork (block : SignedBlock) (s : ChainState) :
    stateOf (pushFork cfg block s) = stateOf ((addForkBlock cfg block >>= fun _ => checkFork cfg) s) := by
  unfold pushFork
  cases (addForkBlock cfg block >>= fun _ => checkFork cfg) s with
  | ok _ _ => rfl
  | error e _ => cases e <;> rfl

theorem Good.pushFork {block : SignedBlock} (h : Good cfg G g s L X) (hok : s.ForkOk cfg block)
    (hundo : g.torn = false → s.Undoes cfg (.pushFork block)) :
    ∃ L' X', Good cfg G g (stateOf (pushFork cfg block s)) L' X' ∧
      Finalises s (stateOf (pushFork cfg block s)) := by
  rw [stateOf_pushFork]
  rcases h.addForkBlock hok with ⟨e, herr⟩ | ⟨s', L', p, hadd, hgood, -, -, -, ids, hlog, hids⟩
  · rw [run_bind_error herr]
    exact ⟨L, X, h, .of_eq rfl⟩
  · rw [run_bind_ok hadd]
    obtain ⟨hgood', hlog'⟩ := hgood.checkForkLoop (s'.fork.packs.length + 1)
      fun hg => hundo hg s' hadd
    exact ⟨L', L', hgood', ids, hlog'.trans hlog, hids⟩

theorem Good.pushConfirmation {conf : BlockConfirmation} (h : Good cfg G g s L X)
    (hok : s.fork.Confirms cfg.crypto cfg.skipConfirmation conf → s.fork.ConfirmOk conf.blockId) :
    ∃ X', Good cfg G g (stateOf (pushConfirmation cfg conf s)) L X' ∧
      Finalises s (stateOf (pushConfirmation cfg conf s)) := by
  unfold XmaxChain.pushConfirmation
  cases hconf : s.fork.addConfirmation cfg.crypto cfg.skipConfirmation conf with
  | error e => exact ⟨X, h, .of_eq rfl⟩
  | ok f' =>
    obtain ⟨⟨X', hi'⟩, hsame, hmain⟩ := h.inv.addConfirmation hok hconf
    obtain ⟨blocks, u, hb, ho⟩ := h.backed
    have hb' : Backed cfg G g f' L s.sink.chainLog s.blockHead blocks u :=
      hb.congr (fun x hx _ => by rw [hsame.packs]; exact hx.mem_right) (fun x _ => hsame.core x)
        h.inv.last_mem
    refine ⟨X', ⟨hi', ⟨blocks, u, hb', ho⟩, fun a ha => ?_⟩, .of_eq rfl⟩
    · change (f'.objs a).mainChain = true ↔ f'.Anc s.blockHead a
      have ha' : a ∈ f'.packs := ha
      rw [hsame.packs] at ha'
      rw [hmain, hsame.anc]
      exact h.main a ha'

/-- A careful call keeps the chain as it should be and makes only blocks irreversible that are on
the way of `block_head` when it is made. -/
theorem Good.step {call : ChainCall} (h : Good cfg G g s L X) (hcall : s.Careful cfg call)
    (hundo : g.torn = false → s.Undoes cfg call) :
    ∃ L' X', Good cfg G g (stateOf (chainStep cfg call s)) L' X' ∧
      Finalises s (stateOf (chainStep cfg call s)) := by
  obtain ⟨blocks, u, hb, ho⟩ := h.backed
  cases call with
  | buildBlock when key trxs =>
    exact h.extend hb hcall ((buildBlock_cases ho).imp_right fun ⟨b, hbuilt, _, hrun⟩ =>
      ⟨b, hbuilt, hrun⟩)
  | confirmBlock block =>
    exact h.extend hb hcall ((applyBlock_cases ho).imp_right fun ⟨b, hbuilt, _, _, hrun⟩ =>
      ⟨b, hbuilt, hrun⟩)
  | pushFork block => exact h.pushFork hcall hundo
  | pushConfirmation conf =>
    obtain ⟨X', hgood, hfin⟩ := h.pushConfirmation hcall
    exact ⟨L, X', hgood, hfin⟩

end Calls

section Runs

variable {s t : ChainState} {time : ℕ} {key : PublicKey} {sig : Signature}
  {receipts : List TransactionReceipt} {next : List BuilderInfo}

theorem Good.genesis :
    Good cfg (BlockPack.genesis cfg.crypto time key sig receipts next) g
      (.genesis (BlockPack.genesis cfg.crypto time key sig receipts next) g.db)
      (BlockPack.genesis cfg.crypto time key sig receipts next).blockId
      (BlockPack.genesis cfg.crypto time key sig receipts next).blockId := by
  set G := BlockPack.genesis cfg.crypto time key sig receipts next with hG
  have hself : (ForkContext.genesis G).objs G.blockId = G := by
    simp only [ForkContext.genesis, Function.update_self]
  refine ⟨Inv.genesis, ⟨[G.block], _, .base (.genesis ?_ (.refl _)), rfl⟩, fun a ha => ?_⟩
  · exact congrArg _ hself
  · obtain rfl : a = G.blockId := List.mem_singleton.1 ha
    refine iff_of_true ?_ (.refl (List.mem_singleton_self _))
    change ((ForkContext.genesis G).objs G.blockId).mainChain = true
    rw [hself]
    rfl

/-- What keeps a chain as it should be leads from genesis to such chains only. -/
theorem Good.reached {R : ChainState → ChainState → Prop}
    (hR : ∀ {s s' L X}, R s s' →
      Good cfg (BlockPack.genesis cfg.crypto time key sig receipts next) g s L X →
      ∃ L' X', Good cfg (BlockPack.genesis cfg.crypto time key sig receipts next) g s' L' X')
    (h : Relation.ReflTransGen R
      (.genesis (BlockPack.genesis cfg.crypto time key sig receipts next) g.db) s) :
    ∃ L X, Good cfg (BlockPack.genesis cfg.crypto time key sig receipts next) g s L X := by
  induction h with
  | refl => exact ⟨_, _, .genesis⟩
  | tail _ hstep ih =>
    obtain ⟨L, X, hgood⟩ := ih
    exact hR hstep hgood

/-- In a careful run all is as it should be but for the rows of ERC721 ids. -/
theorem ChainRun.good {d : ChainDb}
    (h : ChainRun cfg (BlockPack.genesis cfg.crypto time key sig receipts next) d s) :
    ∃ L X, Good cfg (BlockPack.genesis cfg.crypto time key sig receipts next) (.loose d) s L X := by
  refine Good.reached (fun {s s' L X} hstep hgood => ?_) h
  obtain ⟨call, hcall, rfl⟩ := hstep
  obtain ⟨L', X', hgood', -⟩ := hgood.step hcall fun hg => by cases hg
  exact ⟨L', X', hgood'⟩

theorem CleanRun.good {d : ChainDb}
    (h : CleanRun cfg (BlockPack.genesis cfg.crypto time key sig receipts next) d s) :
    ∃ L X, Good cfg (BlockPack.genesis cfg.crypto time key sig receipts next) (.exact d) s L X := by
  refine Good.reached (fun {s s' L X} hstep hgood => ?_) h
  obtain ⟨call, hcall, hundo, rfl⟩ := hstep
  obtain ⟨L', X', hgood', -⟩ := hgood.step hcall fun _ => hundo
  exact ⟨L', X', hgood'⟩

theorem ChainRun.trans {d : ChainDb} {s t : ChainState} (h : ChainRun cfg G d s)
    (later : Relation.ReflTransGen (CarefulStep cfg) s t) : ChainRun cfg G d t :=
  Relation.ReflTransGen.trans h later

/-- In every clean run the database is what the blocks on the way of `block_head` leave, applied
in order from genesis, and its revision is the number of `block_head`. -/
theorem database_of_head {d : ChainDb}
    (h : CleanRun cfg (BlockPack.genesis cfg.crypto time key sig receipts next) d s) :
    Executed cfg (BlockPack.genesis cfg.crypto time key sig receipts next) (.exact d) s.fork.objs
        s.path s.blockHead s.abortBuild.sink.blockDb.cur ∧
      s.abortBuild.sink.blockDb.revision = s.headPack.blockNum := by
  obtain ⟨L, X, hgood⟩ := h.good
  exact hgood.database

/-- The undo history has a session for each block that a switch to the head of the fork database
pops. -/
def ChainState.CanPop (s : ChainState) : Prop :=
  ∀ branches, s.fork.fetchBranchFromFork s.headPack.blockId s.fork.head = .ok branches →
    branches.first.length ≤ s.sink.blockDb.stack.length

theorem Good.canPop {L X : Summary} (h : Good cfg G g s L X) : s.CanPop := by
  intro branches hbranches
  obtain ⟨blocks, u, hb, ho⟩ := h.backed
  have hway := (fetchBranchFromFork_ways hbranches).1
  rw [show s.headPack.blockId = s.blockHead from h.inv.blockId _ h.headPack_mem] at hway
  refine (hb.length_le h.inv hway).trans ?_
  unfold OpenOn at ho
  split at ho
  · rw [ho]
  · obtain ⟨d, hd⟩ := ho
    rw [hd]
    exact Nat.le_succ _

theorem Good.path_eq {L X : Summary} (h : Good cfg G g s L X) :
    s.sink.chainLog <:+ s.path ∧ ∀ a, s.fork.Anc s.blockHead a → (s.fork.objs a).block ∈ s.path := by
  obtain ⟨blocks, u, hb, ho⟩ := h.backed
  have hpath : blocks = s.path := hb.blocks_eq h.inv
  rw [← hpath]
  exact ⟨hb.log_suffix, fun a ha => hb.mem_blocks h.inv ha⟩

/-- The path in a chain that is as it should be. -/
theorem Good.path_numbered {L X : Summary}
    (h : Good cfg (BlockPack.genesis cfg.crypto time key sig receipts next) g s L X) :
    s.path.length = s.headPack.blockNum ∧
      s.path.IsChain (fun b p => b.previous = p.id cfg.crypto) ∧
      ∀ i b, s.path.reverse[i]? = some b → b.blockNum = i + 1 := by
  obtain ⟨hlen, -, hchain, hnum⟩ := h.database.1.numbered rfl rfl
  refine ⟨?_, hchain, hnum⟩
  rw [hlen]
  exact (h.inv.num _ h.headPack_mem).symm

theorem Good.log_numbered {L X : Summary}
    (h : Good cfg (BlockPack.genesis cfg.crypto time key sig receipts next) g s L X) {i : ℕ}
    {b : SignedBlock} (hb : s.sink.chainLog.reverse[i]? = some b) :
    b.blockNum = i + 1 := by
  obtain ⟨rest, hrest⟩ := List.reverse_prefix.2 h.path_eq.1
  have hi := (List.getElem?_eq_some_iff.1 hb).1
  refine h.path_numbered.2.2 i b ?_
  rw [← hrest, List.getElem?_append_left hi, hb]

theorem Good.log_length {L X : Summary}
    (h : Good cfg (BlockPack.genesis cfg.crypto time key sig receipts next) g s L X) :
    s.sink.chainLog.length = L.num := by
  obtain ⟨blocks, u, hb, -⟩ := h.backed
  obtain ⟨db, hexec⟩ := hb.log_executed
  exact (hexec.numbered rfl rfl).1

theorem CarefulStep.finalises {d : ChainDb} {L X : Summary} (h : Good cfg G (.loose d) s L X)
    (hstep : CarefulStep cfg s t) :
    (∃ L' X', Good cfg G (.loose d) t L' X') ∧ s.sink.chainLog <:+ t.sink.chainLog ∧
      ∀ b ∈ t.sink.chainLog, b ∈ s.path := by
  obtain ⟨call, hcall, rfl⟩ := hstep
  obtain ⟨L', X', hgood, ids, hlog, hids⟩ := h.step hcall fun hg => by cases hg
  obtain ⟨hsuffix, hmem⟩ := h.path_eq
  refine ⟨⟨L', X', hgood⟩, ⟨_, hlog.symm⟩, fun b hb => ?_⟩
  rw [hlog, List.mem_append, List.mem_reverse, List.mem_map] at hb
  rcases hb with ⟨a, ha, rfl⟩ | hb
  · exact hmem a (hids a ha)
  · exact hsuffix.subset hb

/-- In every clean run what a careful call makes irreversible has been applied and is on the way of
`block_head`, and it stays there: the log only grows and is the beginning of that way. So the undo
history is long enough for every switch to another branch, in each of its rounds. -/
theorem irreversible_stays {d : ChainDb}
    (h : CleanRun cfg (BlockPack.genesis cfg.crypto time key sig receipts next) d s)
    (later : Relation.ReflTransGen (CarefulStep cfg) s t) :
    Executed cfg (BlockPack.genesis cfg.crypto time key sig receipts next) (.exact d) s.fork.objs
        s.path s.blockHead s.abortBuild.sink.blockDb.cur ∧
      (∀ s', CarefulStep cfg s s' → s.sink.chainLog <:+ s'.sink.chainLog ∧
        ∀ b ∈ s'.sink.chainLog, b ∈ s.path) ∧
      s.sink.chainLog <:+ t.sink.chainLog ∧ t.sink.chainLog <:+ t.path ∧
      s.CanPop ∧ ∀ block s', s.ForkOk cfg block → addForkBlock cfg block s = .ok () s' →
        ∀ rounds, (stateOf (checkForkLoop cfg rounds s')).CanPop := by
  obtain ⟨L, X, hgood⟩ := h.careful.good
  obtain ⟨L₂, X₂, hgood₂⟩ := (h.careful.trans later).good
  refine ⟨(database_of_head h).1, fun s' hs' => (hs'.finalises hgood).2, ?_, hgood₂.path_eq.1,
    hgood.canPop, fun block s' hok hadd rounds => ?_⟩
  · clear hgood₂
    induction later with
    | refl => exact List.suffix_rfl
    | tail before hstep ih =>
      obtain ⟨_, _, hgood'⟩ := (h.careful.trans before).good
      exact ih.trans (hstep.finalises hgood').2.1
  · rcases hgood.addForkBlock hok with ⟨e, herr⟩ | ⟨s₁, L', p, hadd', hgood', -⟩
    · rw [herr] at hadd
      cases hadd
    · obtain rfl : s₁ = s' := (EStateM.Result.ok.inj (hadd'.symm.trans hadd)).2
      exact (hgood'.checkForkLoop rounds fun hg => by cases hg).1.canPop

end Runs

/-! ## Runs with one builder -/

/-- A block on genesis that is as high as `secondBlock`. -/
def rivalBlock : SignedBlock := { secondBlock with timestamp := 102 }

/-- The builder's confirmation, which is enough to make the block the head of the fork database. -/
def rivalConfirmation : BlockConfirmation :=
  ⟨rivalBlock.id headerCrypto, xmaxContractName, 7⟩

/-- A block is built, a rival of it is received and confirmed, and two more blocks are built: the
first of these moves `block_head` to the rival, which nobody has applied. -/
def rivalThenBuild : List ChainCall :=
  [.buildBlock 101 7 [], .buildBlock 103 7 [], .pushFork rivalBlock,
    .pushConfirmation rivalConfirmation, .buildBlock 104 7 [], .buildBlock 105 7 []]

theorem head_not_applied :
    ∃ g, oneBuilderDb = .ok g ∧
      (chainCalls headerConfig rivalThenBuild (.genesis oneBuilderGenesis g)).building = none ∧
      (chainCalls headerConfig rivalThenBuild (.genesis oneBuilderGenesis g)).sink.blockDb.revision
        ≠ (chainCalls headerConfig rivalThenBuild (.genesis oneBuilderGenesis g)).headPack.blockNum := by
  exact exists_ok_of_eval (by decide +kernel)

theorem secondBlock_careful (g : ChainDb) :
    (ChainState.genesis oneBuilderGenesis g).ExtendOk := by
  refine ⟨?_, fun a ha => ?_⟩
  · change (ForkContext.genesis oneBuilderGenesis).ParentOk oneBuilderGenesis.blockId
    unfold ForkContext.ParentOk
    decide
  · obtain rfl : a = oneBuilderGenesis.blockId := List.mem_singleton.1 ha
    change ¬ longestLe ((ForkContext.genesis oneBuilderGenesis).objs oneBuilderGenesis.blockId)
      ((ForkContext.genesis oneBuilderGenesis).objs oneBuilderGenesis.blockId).nextRank
    decide

theorem database_of_second_head :
    ∃ g s, oneBuilderDb = .ok g ∧ CleanRun headerConfig oneBuilderGenesis g s ∧
      s.headPack.blockNum = 2 ∧ s.abortBuild.sink.blockDb.revision = s.headPack.blockNum := by
  obtain ⟨g, hg, hnum⟩ := exists_ok_of_eval (x := oneBuilderDb)
    (P := fun g => (stateOf (confirmBlock headerConfig secondBlock
      (.genesis oneBuilderGenesis g))).headPack.blockNum = 2) (by decide +kernel)
  have hrun : CleanRun headerConfig oneBuilderGenesis g
      (stateOf (confirmBlock headerConfig secondBlock (.genesis oneBuilderGenesis g))) :=
    .single ⟨.confirmBlock secondBlock, secondBlock_careful g, trivial, rfl⟩
  exact ⟨g, _, hg, hrun, hnum, (database_of_head hrun).2⟩

/-- A block on the rival. -/
def rivalChild : SignedBlock :=
  { secondBlock with previous := rivalBlock.id headerCrypto, timestamp := 103 }

/-- The rival becomes irreversible when its child is received, though the block that was built is
still the head. -/
def rivalConfirmed : List ChainCall :=
  [.buildBlock 101 7 [], .pushFork rivalBlock, .pushConfirmation rivalConfirmation]

theorem irreversible_not_applied :
    ∃ g, oneBuilderDb = .ok g ∧
      ∃ s s', s = chainCalls headerConfig rivalConfirmed (.genesis oneBuilderGenesis g) ∧
        s' = stateOf (pushFork headerConfig rivalChild s) ∧ rivalBlock ∉ s.path ∧
        s'.sink.chainLog = rivalBlock :: s.sink.chainLog ∧ s'.blockHead = s.blockHead ∧
        s'.blockHead ∉ s'.fork.packs ∧ s.sink.blockDb.stack.isEmpty = false ∧
        s'.sink.blockDb.stack.isEmpty = true := by
  obtain ⟨g, hg, h⟩ := exists_ok_of_eval (x := oneBuilderDb)
    (P := fun g =>
      let s := chainCalls headerConfig rivalConfirmed (.genesis oneBuilderGenesis g)
      let s' := stateOf (pushFork headerConfig rivalChild s)
      rivalBlock ∉ s.path ∧ s'.sink.chainLog = rivalBlock :: s.sink.chainLog ∧
        s'.blockHead = s.blockHead ∧ s'.blockHead ∉ s'.fork.packs ∧
        s.sink.blockDb.stack.isEmpty = false ∧ s'.sink.blockDb.stack.isEmpty = true)
    (by decide +kernel)
  exact ⟨g, hg, _, _, rfl, rfl, h⟩

theorem second_stays :
    ∃ g s t, oneBuilderDb = .ok g ∧ CleanRun headerConfig oneBuilderGenesis g s ∧
      Relation.ReflTransGen (CarefulStep headerConfig) s t ∧ t.headPack.blockNum = 2 ∧
      s.sink.chainLog <:+ t.sink.chainLog ∧ t.sink.chainLog <:+ t.path := by
  obtain ⟨g, hg, hnum⟩ := exists_ok_of_eval (x := oneBuilderDb)
    (P := fun g => (stateOf (confirmBlock headerConfig secondBlock
      (.genesis oneBuilderGenesis g))).headPack.blockNum = 2) (by decide +kernel)
  have hstep : CarefulStep headerConfig (.genesis oneBuilderGenesis g)
      (stateOf (confirmBlock headerConfig secondBlock (.genesis oneBuilderGenesis g))) :=
    ⟨.confirmBlock secondBlock, secondBlock_careful g, rfl⟩
  obtain ⟨-, -, hlog, hpath, -⟩ := irreversible_stays .refl (.single hstep)
  exact ⟨g, _, _, hg, .refl, .single hstep, hnum, hlog, hpath⟩

end XmaxChain
