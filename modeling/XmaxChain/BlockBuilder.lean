import XmaxChain.DeliveryOrder
import XmaxChain.HeadSchedule

/-!
# The builder's loop

A timer goes off at the beginning of each slot, and a node builds a block if the slot is that of one of
its builders. Whatever blocks and confirmations come in between, and whatever throws, it builds one
block for a slot at most. Where the calls are careful and no block was left open, the block is its
builder's, signed with the key that the schedule has, and no node builds in that slot on that head
unless it has the same builder.
-/

namespace XmaxChain

open ForkContext

section Model

def chainTimestampEpochUs : ℕ := 946684800 * 1000 * 1000

def chainTimestampUnitUs : ℕ := 1000 * 1000

def miniNextBlockUs : ℕ := chainTimestampUnitUs / 10

/-- `chain_timestamp::from`, of microseconds since 1970. -/
@[irreducible] def chainTimestampFrom (us : ℕ) : ℕ :=
  u32 (u64 (us + (2 ^ 64 - chainTimestampEpochUs)) / chainTimestampUnitUs)

/-- What `next_block` waits for: the next whole unit, or the one after it if that is near. -/
def timeToNextBlock (now : ℕ) : ℕ :=
  let time := chainTimestampUnitUs - now % chainTimestampUnitUs
  if time < miniNextBlockUs then time + chainTimestampUnitUs else time

inductive BlockBuildCondition
  | generated | exception | notTimeYet | notMyTurn | noPrivateKey
deriving DecidableEq, Repr

/-- The builders of a node and their keys. Each private key is found by its public one. -/
structure BuilderPlugin (getPublicKey : ℕ → PublicKey) where
  builders : List AccountName := []
  builderKeys : PublicKey → Option ℕ := fun _ => none
  own : ∀ pub priv, builderKeys pub = some priv → getPublicKey priv = pub := by simp

def BlockConfirmation.makeConf (c : Crypto) (blockId : Summary) (verifier : AccountName)
    (privateKey : ℕ) : BlockConfirmation :=
  { blockId, verifier
    builderSignature := c.sign privateKey (BlockConfirmation.digest c ⟨blockId, verifier, 0⟩) }

namespace BuilderPlugin

variable {getPublicKey : ℕ → PublicKey}

def importKey (builder : AccountName) (privateKey : ℕ) (p : BuilderPlugin getPublicKey) :
    BuilderPlugin getPublicKey where
  builders := if builder ∈ p.builders then p.builders else builder :: p.builders
  builderKeys := Function.update p.builderKeys (getPublicKey privateKey) (some privateKey)
  own pub priv h := by
    rw [Function.update_apply] at h
    split_ifs at h with heq
    · rw [← Option.some.inj h, heq]
    · exact p.own pub priv h

variable (p : BuilderPlugin getPublicKey) (cfg : ChainConfig)

/-- `build_block` of the plugin. `trxs` are selected from the pending transactions. -/
def buildBlock (now : ℕ) (trxs : List SignedTransaction) :
    EStateM Fault ChainState BlockBuildCondition := fun s =>
  let nowTimestamp := chainTimestampFrom now
  let deltaSlot := getDeltaSlotAtTime s.headPack.newHeader.timestamp nowTimestamp
  if deltaSlot = 0 then .ok .notTimeYet s
  else
    match getBlockBuilder s.sink.blockDb.cur deltaSlot with
    | none => .error (.undefined "select_builder") s
    | some currentBuilder =>
      if currentBuilder.builderName ∉ p.builders then .ok .notMyTurn s
      else
        match p.builderKeys currentBuilder.blockSigningKey with
        | none => .ok .noPrivateKey s
        | some privateKey => (do
          XmaxChain.buildBlock cfg nowTimestamp privateKey trxs
          return BlockBuildCondition.generated) s

/-- Confirms a block for a verifier if the node has its key. -/
def confirmAs (blockId : Summary) (v : BuilderInfo) : ChainM Unit :=
  match p.builderKeys v.blockSigningKey with
  | none => pure ()
  | some privateKey => pushConfirmation cfg (.makeConf cfg.crypto blockId v.builderName privateKey)

def confirmFor (blockId : Summary) : List BuilderInfo → ChainM Unit
  | [] => pure ()
  | v :: verifiers => do
    p.confirmAs cfg blockId v
    confirmFor blockId verifiers

/-- `confirmation_block_self`, of the block that was built. -/
def confirmationBlockSelf : ChainM Unit := fun s =>
  p.confirmFor cfg s.headPack.blockId
    (s.headPack.currentBuilders.builders.filter fun v => v.builderName ≠ s.headPack.newHeader.builder) s

/-- The verifiers are those of the slot of the block, on the database before it is applied. -/
def confirmBlock (block : SignedBlock) : ChainM Unit := fun s =>
  let db := s.sink.blockDb.cur
  let orderSlot :=
    u32 (db.states.roundSlot + getDeltaSlotAtTime s.headPack.newHeader.timestamp block.timestamp)
  let verifiers := selectBuilderRule db.currentBuilders db.nextBuilders orderSlot
  (do
    XmaxChain.confirmBlock cfg block
    fun s => p.confirmFor cfg s.headPack.blockId verifiers.builders s) s

def recieveBlock (block : SignedBlock) : ChainM Unit := fun s =>
  if s.headPack.blockNum = u32 (block.blockNum + (2 ^ 32 - 1)) ∧
      s.headPack.blockId = block.previous then
    p.confirmBlock cfg block s
  else if s.sink.lastIrreversibleBlockNum < block.blockNum then pushFork cfg block s
  else .error (.fc "bad block num") s

end BuilderPlugin

/-- A node with its timer: when it is due, and whether it is to build then, which it is not the first
time. `built` are the blocks that the node has built and broadcast, the newest first. -/
structure BuilderNode where
  chain : ChainState
  due : ℕ
  armed : Bool := false
  running : Bool := true
  built : List SignedBlock := []

namespace BuilderNode

variable {getPublicKey : ℕ → PublicKey} (p : BuilderPlugin getPublicKey) (cfg : ChainConfig)
  (n : BuilderNode)

/-- `next_block`, with the clock as it is then. -/
def nextBlock (now : ℕ) : BuilderNode := { n with due := now + timeToNextBlock now, armed := true }

/-- What follows once a block was built and broadcast. Nothing that is thrown is caught. -/
def confirmSelf (again : ℕ) (s : ChainState) : BuilderNode :=
  match p.confirmationBlockSelf cfg s with
  | .ok _ s => { n with chain := s }.nextBlock again
  | .error _ s => { n with chain := s, running := false }

/-- The rest of `next_block_impl`, after `build_block`. What is not an exception of `fc` ends the
program. -/
def answered (again : ℕ) : EStateM.Result Fault ChainState BlockBuildCondition → BuilderNode
  | .ok .generated s =>
    { n with built := s.headPack.block :: n.built }.confirmSelf p cfg again s
  | .ok _ s => { n with chain := s }.nextBlock again
  | .error (.fc _) s => { n with chain := s }.nextBlock again
  | .error _ s => { n with chain := s, running := false }

def nextBlockImpl (now again : ℕ) (trxs : List SignedTransaction) : BuilderNode :=
  n.answered p cfg again (p.buildBlock cfg now trxs n.chain)

end BuilderNode

/-- A clock shows a time after the first stamp and before the stamps wrap. -/
def ClockOk (now : ℕ) : Prop :=
  chainTimestampEpochUs ≤ now ∧ now < chainTimestampEpochUs + chainTimestampUnitUs * 2 ^ 32

/-- Runs of a node. The timer does not go off before it is due, and no clock goes backwards; blocks and
confirmations come in at any time. -/
inductive BuilderRun {getPublicKey : ℕ → PublicKey} (p : BuilderPlugin getPublicKey) (cfg : ChainConfig)
    (G : BlockPack) (g : ChainDb) : BuilderNode → Prop
  | start (now : ℕ) : BuilderRun p cfg G g { chain := .genesis G g, due := now + 1000000 }
  | wake {n : BuilderNode} (run : BuilderRun p cfg G g n) (now : ℕ) (due : n.due ≤ now)
      (first : n.armed = false) (clock : ClockOk now) : BuilderRun p cfg G g (n.nextBlock now)
  | tick {n : BuilderNode} (run : BuilderRun p cfg G g n) (now again : ℕ)
      (trxs : List SignedTransaction) (due : n.due ≤ now) (armed : n.armed = true)
      (running : n.running = true) (clock : ClockOk now) (later : now ≤ again) (clock' : ClockOk again) :
      BuilderRun p cfg G g (n.nextBlockImpl p cfg now again trxs)
  | recieve {n : BuilderNode} (run : BuilderRun p cfg G g n) (block : SignedBlock) :
      BuilderRun p cfg G g { n with chain := stateOf (p.recieveBlock cfg block n.chain) }
  | confirm {n : BuilderNode} (run : BuilderRun p cfg G g n) (conf : BlockConfirmation) :
      BuilderRun p cfg G g { n with chain := stateOf (pushConfirmation cfg conf n.chain) }

end Model

variable {getPublicKey : ℕ → PublicKey} {p : BuilderPlugin getPublicKey} {cfg : ChainConfig}
  {G : BlockPack} {g : ChainDb} {now again later : ℕ} {trxs : List SignedTransaction}
  {s s' : ChainState}

/-! ## The timer -/

section Timer

theorem chainTimestampFrom_eq (h : ClockOk now) :
    chainTimestampFrom now = now / chainTimestampUnitUs - 946684800 := by
  obtain ⟨hlow, hhigh⟩ := h
  unfold chainTimestampFrom u32 u64
  unfold chainTimestampEpochUs at hlow hhigh ⊢
  unfold chainTimestampUnitUs at hhigh ⊢
  omega

theorem chainTimestampFrom_mono (h : ClockOk now) (h' : ClockOk later) (hle : now ≤ later) :
    chainTimestampFrom now ≤ chainTimestampFrom later := by
  rw [chainTimestampFrom_eq h, chainTimestampFrom_eq h']
  exact Nat.sub_le_sub_right (Nat.div_le_div_right hle) _

/-- When the timer goes off the next slot has begun. -/
theorem chainTimestampFrom_next (h : ClockOk now) (h' : ClockOk later)
    (hdue : now + timeToNextBlock now ≤ later) : chainTimestampFrom now < chainTimestampFrom later := by
  have hnext : now / chainTimestampUnitUs < later / chainTimestampUnitUs := by
    unfold timeToNextBlock chainTimestampUnitUs at *
    dsimp only at hdue
    split_ifs at hdue <;> omega
  have hepoch : 946684800 ≤ now / chainTimestampUnitUs := by
    have := h.1
    unfold chainTimestampEpochUs at this
    unfold chainTimestampUnitUs
    omega
  rw [chainTimestampFrom_eq h, chainTimestampFrom_eq h']
  omega

end Timer

/-! ## One block for a slot -/

section Headers

/-- A pack is known by its header's id, and its block has that header. -/
structure Headed (c : Crypto) (a : Summary) (p : PackCore) : Prop where
  key : p.blockId = a
  header : p.newHeader.id c = a
  block : p.block.toSignedBlockHeader = p.newHeader

theorem inherited_headed : Inherited cfg (fun _ _ => True) (Headed cfg.crypto) :=
  ⟨fun h => h.key, fun _ _ hnext => ⟨rfl, hnext.header.2, hnext.block⟩⟩

/-- What building a block comes to, if nothing throws. -/
theorem buildBlock_ok {when key : ℕ} {u : Unit} (h : buildBlock cfg when key trxs s = .ok u s') :
    ∃ pack b, startPack cfg s.headPack s.abortBuild.sink.blockDb.cur when = .ok pack ∧
      blockBody cfg s.headPack trxs (fun pack => .ok (pack.signBlock cfg.crypto key))
        ⟨pack, s.abortBuild.sink.blockDb.cur⟩ = .ok () b ∧
      NextPack cfg s.headPack when b.pack ∧ s'.blockHead = b.pack.blockId := by
  obtain ⟨⟨⟩, s₁, habort, h⟩ := run_bind_eq_ok.1 h
  obtain ⟨-, rfl⟩ := abortBuild_eq_ok.1 habort
  obtain ⟨pack, b, hstart, hbody, hpush⟩ := started_ok h
  rw [abortBuild_headPack] at hstart hbody
  refine ⟨pack, b, hstart, hbody, .built hstart (seals_sign _ _) hbody, ?_⟩
  obtain ⟨⟨⟩, s₂, hpushed, hcommit⟩ := run_bind_eq_ok.1 hpush
  cases hcommit
  unfold pushBlock at hpushed
  split at hpushed
  · cases hpushed
  · rename_i pack' hpack'
    obtain rfl : b.pack = pack' := Option.some.inj hpack'
    rw [if_pos rfl] at hpushed
    split at hpushed
    · cases hpushed
    · split at hpushed
      · cases hpushed
      · dsimp only at hpushed
        split_ifs at hpushed with hhead
        cases hpushed
        exact hhead

/-- A block was built: what the plugin has looked up for it. -/
theorem generated_eq_ok (h : p.buildBlock cfg now trxs s = .ok .generated s') :
    ∃ info priv, getBlockBuilder s.sink.blockDb.cur
        (getDeltaSlotAtTime s.headPack.newHeader.timestamp (chainTimestampFrom now)) = some info ∧
      info.builderName ∈ p.builders ∧ p.builderKeys info.blockSigningKey = some priv ∧
      buildBlock cfg (chainTimestampFrom now) priv trxs s = .ok () s' := by
  unfold BuilderPlugin.buildBlock at h
  dsimp only at h
  split_ifs at h with hslot
  · cases h
  split at h
  · cases h
  rename_i info hinfo
  by_cases hmine : info.builderName ∈ p.builders
  swap
  · rw [if_pos hmine] at h
    cases h
  rw [if_neg (not_not.2 hmine)] at h
  split at h
  · cases h
  rename_i priv hpriv
  obtain ⟨⟨⟩, s₁, hrun, hreturn⟩ := run_bind_eq_ok.1 h
  cases hreturn
  exact ⟨info, priv, hinfo, hmine, hpriv, hrun⟩

theorem stateOf_buildBlock_held {P : Summary → PackCore → Prop}
    (hP : Inherited cfg (fun _ _ => True) P) (h : s.Held P []) :
    (stateOf (p.buildBlock cfg now trxs s)).Held P [] := by
  unfold BuilderPlugin.buildBlock
  dsimp only
  split_ifs
  · exact h
  split
  · exact h
  rename_i info _
  by_cases hmine : info.builderName ∈ p.builders
  swap
  · rw [if_pos hmine]
    exact h
  rw [if_neg (not_not.2 hmine)]
  split
  · exact h
  rename_i priv _
  have hbuild : (stateOf (buildBlock cfg (chainTimestampFrom now) priv trxs s)).Held P [] :=
    hP.chainStep h (s.timed_always (.buildBlock (chainTimestampFrom now) priv trxs))
  exact held_bind hbuild fun _ _ _ hs₁ => hs₁

variable {P : Summary → PackCore → Prop}

theorem Inherited.keeps (hP : Inherited cfg (fun _ _ => True) P) (call : ChainCall) :
    KeepsHeld P (XmaxChain.chainStep cfg call) := fun _ s h => hP.chainStep h (s.timed_always call)

theorem keeps_confirmFor (hP : Inherited cfg (fun _ _ => True) P) (blockId : Summary) :
    ∀ verifiers, KeepsHeld P (p.confirmFor cfg blockId verifiers)
  | [] => fun _ _ h => h
  | v :: verifiers => by
    refine KeepsHeld.bind ?_ fun _ => keeps_confirmFor hP blockId verifiers
    unfold BuilderPlugin.confirmAs
    split
    · exact fun _ _ h => h
    · exact hP.keeps (.pushConfirmation _)

theorem keeps_recieveBlock (hP : Inherited cfg (fun _ _ => True) P) (block : SignedBlock) :
    KeepsHeld P (p.recieveBlock cfg block) := by
  intro S s h
  unfold BuilderPlugin.recieveBlock
  split_ifs
  · refine KeepsHeld.bind (hP.keeps (.confirmBlock block)) (fun _ => ?_) S s h
    exact fun S s h => keeps_confirmFor hP _ _ S s h
  · exact hP.keeps (.pushFork block) S s h
  · exact h

end Headers

section Slots

/-- A built block has the stamp of the clock. -/
theorem timestamp_of_generated
    (hid : ∀ h h' : BlockHeader, h.id cfg.crypto = h'.id cfg.crypto → h = h')
    (hs : s.Held (Headed cfg.crypto) []) (h : p.buildBlock cfg now trxs s = .ok .generated s') :
    s'.headPack.block.timestamp = chainTimestampFrom now := by
  obtain ⟨info, priv, -, -, -, hbuild⟩ := generated_eq_ok h
  obtain ⟨pack, b, -, -, hmade, hhead⟩ := buildBlock_ok hbuild
  have hs' : s'.Held (Headed cfg.crypto) [] := by
    have hheld : (stateOf (p.buildBlock cfg now trxs s)).Held (Headed cfg.crypto) [] :=
      stateOf_buildBlock_held inherited_headed hs
    rwa [h] at hheld
  have hheaded : Headed cfg.crypto s'.blockHead s'.headPack.toPackCore :=
    hs'.held _ (.inr (.inr List.mem_cons_self))
  have hheader := hid _ _ ((hheaded.header.trans hhead).trans hmade.header.2.symm)
  obtain ⟨-, -, -, -, -, htime⟩ := hmade.schedule
  have hblock : s'.headPack.block.timestamp = s'.headPack.newHeader.timestamp :=
    congrArg (fun h : SignedBlockHeader => h.timestamp) hheaded.block
  rw [hblock, ← htime]
  exact congrArg BlockHeader.timestamp hheader

/-- The blocks so far are of earlier slots than that in which the timer goes off. -/
structure BuilderNode.InTurn (c : Crypto) (n : BuilderNode) : Prop where
  held : n.chain.Held (Headed c) []
  falling : n.built.Pairwise fun later earlier => earlier.timestamp < later.timestamp
  first : n.armed = false → n.built = []
  before : n.running = true → ∀ b ∈ n.built, ∀ now, n.due ≤ now → ClockOk now →
    b.timestamp < chainTimestampFrom now

theorem BuilderNode.InTurn.nextBlock {c : Crypto} {n : BuilderNode} (hheld : n.chain.Held (Headed c) [])
    (hfalling : n.built.Pairwise fun later earlier => earlier.timestamp < later.timestamp)
    (hclock : ClockOk again) (hle : ∀ b ∈ n.built, b.timestamp ≤ chainTimestampFrom again) :
    (n.nextBlock again).InTurn c :=
  ⟨hheld, hfalling, (fun h => by cases h), fun _ b hb _ hdue hclock' =>
    (hle b hb).trans_lt (chainTimestampFrom_next hclock hclock' hdue)⟩

/-- The block was built at `now`, and the node confirms it. -/
theorem BuilderNode.InTurn.confirmSelf {c : Crypto} {n : BuilderNode} (harmed : n.armed = true)
    (hc : c = cfg.crypto) (hheld : s.Held (Headed c) [])
    (hfalling : n.built.Pairwise fun later earlier => earlier.timestamp < later.timestamp)
    (hclock : ClockOk again) (hle : ∀ b ∈ n.built, b.timestamp ≤ chainTimestampFrom again) :
    (n.confirmSelf p cfg again s).InTurn c := by
  subst hc
  have hself : (stateOf (p.confirmationBlockSelf cfg s)).Held (Headed cfg.crypto) [] :=
    keeps_confirmFor inherited_headed _ _ _ s hheld
  unfold BuilderNode.confirmSelf
  cases hconf : p.confirmationBlockSelf cfg s with
  | ok u s' =>
    rw [hconf] at hself
    exact .nextBlock hself hfalling hclock hle
  | error e s' =>
    rw [hconf] at hself
    exact ⟨hself, hfalling, fun hf => (Bool.false_ne_true (hf.symm.trans harmed)).elim,
      fun hf => by cases hf⟩

/-- The node goes on after `build_block`, which built a block of the slot it is in, if it built one. -/
theorem BuilderNode.InTurn.answered {n : BuilderNode}
    {r : EStateM.Result Fault ChainState BlockBuildCondition} (h : n.InTurn cfg.crypto)
    (harmed : n.armed = true) (hstate : (stateOf r).Held (Headed cfg.crypto) [])
    (hbefore : ∀ b ∈ n.built, b.timestamp < chainTimestampFrom now)
    (htime : ∀ s, r = .ok .generated s → s.headPack.block.timestamp = chainTimestampFrom now)
    (hmono : chainTimestampFrom now ≤ chainTimestampFrom again) (hclock : ClockOk again) :
    (n.answered p cfg again r).InTurn cfg.crypto := by
  have hold : ∀ b ∈ n.built, b.timestamp ≤ chainTimestampFrom again := fun b hb =>
    (hbefore b hb).le.trans hmono
  cases r with
  | error e s =>
    cases e with
    | fc msg => exact .nextBlock hstate h.falling hclock hold
    | _ => exact ⟨hstate, h.falling, fun hf => (Bool.false_ne_true (hf.symm.trans harmed)).elim,
      fun hf => by cases hf⟩
  | ok condition s =>
    cases condition with
    | generated =>
      have hnow := htime s rfl
      have hfalling : (s.headPack.block :: n.built).Pairwise fun later earlier =>
          earlier.timestamp < later.timestamp :=
        List.pairwise_cons.2 ⟨fun b hb => hnow ▸ hbefore b hb, h.falling⟩
      refine .confirmSelf harmed rfl hstate hfalling hclock fun b hb => ?_
      rcases List.mem_cons.1 hb with rfl | hb
      · exact hnow.le.trans hmono
      · exact hold b hb
    | _ => exact .nextBlock hstate h.falling hclock hold

theorem BuilderNode.InTurn.tick
    (hid : ∀ h h' : BlockHeader, h.id cfg.crypto = h'.id cfg.crypto → h = h') {n : BuilderNode}
    (h : n.InTurn cfg.crypto) (hdue : n.due ≤ now) (harmed : n.armed = true) (hrunning : n.running = true)
    (hclock : ClockOk now) (hlater : now ≤ again) (hclock' : ClockOk again) :
    (n.nextBlockImpl p cfg now again trxs).InTurn cfg.crypto :=
  h.answered harmed (stateOf_buildBlock_held inherited_headed h.held)
    (fun b hb => h.before hrunning b hb now hdue hclock)
    (fun _ hrun => timestamp_of_generated hid h.held hrun)
    (chainTimestampFrom_mono hclock hclock' hlater) hclock'

variable {time : ℕ} {key : PublicKey} {sig : Signature} {receipts : List TransactionReceipt}
  {next : List BuilderInfo} {n : BuilderNode}

theorem BuilderRun.inTurn (hid : ∀ h h' : BlockHeader, h.id cfg.crypto = h'.id cfg.crypto → h = h')
    (run : BuilderRun p cfg (BlockPack.genesis cfg.crypto time key sig receipts next) g n) :
    n.InTurn cfg.crypto := by
  induction run with
  | start now =>
    exact ⟨ChainState.held_genesis g ⟨rfl, rfl, rfl⟩, .nil, fun _ => rfl, fun _ b hb => by cases hb⟩
  | wake _ now _ first clock ih =>
    exact .nextBlock ih.held ih.falling clock fun b hb => by rw [ih.first first] at hb; cases hb
  | tick _ now again trxs due armed running clock later clock' ih =>
    exact ih.tick hid due armed running clock later clock'
  | recieve _ block ih =>
    exact ⟨keeps_recieveBlock inherited_headed block _ _ ih.held, ih.falling, ih.first, ih.before⟩
  | confirm _ conf ih =>
    exact ⟨inherited_headed.keeps (.pushConfirmation conf) _ _ ih.held, ih.falling, ih.first, ih.before⟩

/-- Whatever a node receives and whatever throws, the blocks that its timer builds are of different
slots, each of a later one than those before it. -/
theorem one_block_a_slot (hid : ∀ h h' : BlockHeader, h.id cfg.crypto = h'.id cfg.crypto → h = h')
    (run : BuilderRun p cfg (BlockPack.genesis cfg.crypto time key sig receipts next) g n) :
    n.built.Pairwise fun later earlier => earlier.timestamp < later.timestamp :=
  (run.inTurn hid).falling

end Slots

/-! ## The builder of a slot -/

section Owner

variable {time : ℕ} {key : PublicKey} {sig : Signature} {receipts : List TransactionReceipt}
  {next : List BuilderInfo} {d : ChainDb}

/-- The header of a block that is built, and the signature on it. -/
theorem signed_of_blockBody {pre pack : BlockPack} {db : ChainDb} {when priv : ℕ} {b : Building}
    (hstart : startPack cfg pre db when = .ok pack)
    (hbody : blockBody cfg pre trxs (fun pack => .ok (pack.signBlock cfg.crypto priv)) ⟨pack, db⟩
      = .ok () b) :
    ∃ owner, selectBuilder pre.currentBuilders pre.newBuilders (pre.slotAt when) = some owner ∧
      b.pack.block.previous = pre.blockId ∧ b.pack.block.timestamp = when ∧
      b.pack.block.builder = owner.builderName ∧
      b.pack.block.builderSignature = cfg.crypto.sign priv (b.pack.block.digest cfg.crypto) := by
  obtain ⟨q, hq, hcases⟩ := startPack_cases hstart
  obtain ⟨owner, howner, hheader, -⟩ := initByPrePack_eq_ok hq
  obtain ⟨_, sealed, _, -, hsealed, -, rfl⟩ := blockBody_eq_ok.1 hbody
  cases hsealed
  have hfields : pack.newHeader.previous = pre.blockId ∧ pack.newHeader.timestamp = when ∧
      pack.newHeader.builder = owner.builderName := by
    rcases hcases with ⟨-, rfl⟩ | ⟨-, -, rule, -, rfl⟩
    · rw [hheader]
      exact ⟨rfl, rfl, rfl⟩
    · dsimp only
      rw [hheader]
      exact ⟨rfl, rfl, rfl⟩
  exact ⟨owner, howner, hfields.1, hfields.2.1, hfields.2.2, rfl⟩

/-- The head that a built block becomes. -/
theorem Good.built_head {o : Origin} {L X : Summary} {when priv : ℕ} {u : Unit} (hgood : Good cfg G o s L X)
    (hext : s.ExtendOk) (h : buildBlock cfg when priv trxs s = .ok u s') :
    ∃ pack db b, startPack cfg s.headPack db when = .ok pack ∧
      blockBody cfg s.headPack trxs (fun pack => .ok (pack.signBlock cfg.crypto priv)) ⟨pack, db⟩
        = .ok () b ∧
      s'.headPack.toPackCore = b.pack.toPackCore := by
  obtain ⟨blocks, v, hb, ho⟩ := hgood.backed
  rcases begun_cases ho with ⟨e, s₁, herr, -, -⟩ | ⟨pack, b, -, hstart, hbody, hrun⟩
  · cases h.symm.trans herr
  rcases hgood.push hb (.of_blockBody hstart (seals_sign _ _) hbody) hext.1 hext.2 with
    ⟨e, s₁, herr, -⟩ | ⟨s₁, L', hpush, -, hhead, -, hadd⟩
  · cases h.symm.trans (hrun.trans herr)
  · cases h.symm.trans (hrun.trans hpush)
    refine ⟨pack, v.cur, b, hstart, hbody, ?_⟩
    show (s'.fork.objs s'.blockHead).toPackCore = _
    rw [hhead, hadd.core, if_pos rfl]

theorem ChainRun.headPack_blockId
    (run : ChainRun cfg (BlockPack.genesis cfg.crypto time key sig receipts next) g s) :
    s.headPack.blockId = s.blockHead := by
  obtain ⟨L, X, hgood⟩ := run.good
  exact hgood.inv.blockId _ hgood.headPack_mem

/-- What is known of `block_head` in every careful run. -/
theorem ChainRun.onSchedule
    (hid : ∀ h h' : BlockHeader, h.id cfg.crypto = h'.id cfg.crypto → h = h')
    (hg : Applied cfg (BlockPack.genesis cfg.crypto time key sig receipts next) d
      (BlockPack.genesis cfg.crypto time key sig receipts next) g)
    (run : ChainRun cfg (BlockPack.genesis cfg.crypto time key sig receipts next) g s) :
    OnSchedule cfg (BlockPack.genesis cfg.crypto time key sig receipts next) s.blockHead.num
      s.headPack.toPackCore s.abortBuild.sink.blockDb.cur := by
  obtain ⟨hsynced, hheadOk⟩ := hg.synced hid
  exact run.goes (onSchedule_goes hid ⟨.genesis, hsynced, hheadOk⟩)

/-- What the timer builds in a careful run is as the schedule of `block_head` has it. -/
theorem owner_of_generated
    (hid : ∀ h h' : BlockHeader, h.id cfg.crypto = h'.id cfg.crypto → h = h')
    (hg : Applied cfg (BlockPack.genesis cfg.crypto time key sig receipts next) d
      (BlockPack.genesis cfg.crypto time key sig receipts next) g)
    (run : ChainRun cfg (BlockPack.genesis cfg.crypto time key sig receipts next) g s)
    (closed : s.building = none) (hext : s.ExtendOk)
    (h : p.buildBlock cfg now trxs s = .ok .generated s') :
    ∃ owner priv, selectBuilder s.headPack.currentBuilders s.headPack.newBuilders
        (s.headPack.slotAt (chainTimestampFrom now)) = some owner ∧
      owner.builderName ∈ p.builders ∧ getPublicKey priv = owner.blockSigningKey ∧
      s'.headPack.block.previous = s.blockHead ∧
      s'.headPack.block.timestamp = chainTimestampFrom now ∧
      s'.headPack.block.builder = owner.builderName ∧
      s'.headPack.block.builderSignature
        = cfg.crypto.sign priv (s'.headPack.block.digest cfg.crypto) := by
  obtain ⟨L, X, hgood⟩ := run.good
  have hsched := run.onSchedule hid hg
  have hcur : s.abortBuild.sink.blockDb.cur = s.sink.blockDb.cur := by
    rw [ChainState.abortBuild, closed]
  rw [hcur] at hsched
  obtain ⟨info, priv, hinfo, hmine, hpriv, hbuild⟩ := generated_eq_ok h
  obtain ⟨pack, db, b, hstart, hbody, hcore⟩ := hgood.built_head hext hbuild
  obtain ⟨owner, howner, hprevious, htime, hbuilder, hsig⟩ := signed_of_blockBody hstart hbody
  have hsame : some info = some owner := by
    rw [← hinfo, ← howner, getBlockBuilder, hsched.synced.current, hsched.synced.next,
      hsched.synced.roundSlot]
    rfl
  obtain rfl := Option.some.inj hsame
  have hblock : s'.headPack.block = b.pack.block := congrArg PackCore.block hcore
  rw [hblock]
  exact ⟨info, priv, howner, hmine, p.own _ _ hpriv, hprevious.trans run.headPack_blockId, htime,
    hbuilder, hsig⟩

/-- The block that a timer builds in a careful run is on `block_head`, its builder is the one to whom
the schedule of `block_head` gives the slot, for whom the node builds, and the signature is with the
key of the schedule. -/
theorem built_by_owner (hid : ∀ h h' : BlockHeader, h.id cfg.crypto = h'.id cfg.crypto → h = h')
    (hsign : ∀ priv digest,
      cfg.crypto.signerKey (cfg.crypto.sign priv digest) digest = some (getPublicKey priv))
    (hg : Applied cfg (BlockPack.genesis cfg.crypto time key sig receipts next) d
      (BlockPack.genesis cfg.crypto time key sig receipts next) g)
    (run : ChainRun cfg (BlockPack.genesis cfg.crypto time key sig receipts next) g s)
    (closed : s.building = none) (hext : s.ExtendOk)
    (h : p.buildBlock cfg now trxs s = .ok .generated s') :
    s'.headPack.block.previous = s.blockHead ∧
      s'.headPack.block.timestamp = chainTimestampFrom now ∧
      ∃ owner, selectBuilder s.headPack.currentBuilders s.headPack.newBuilders
          (s.headPack.slotAt (chainTimestampFrom now)) = some owner ∧
        owner.builderName ∈ p.builders ∧ s'.headPack.block.builder = owner.builderName ∧
        cfg.crypto.signerKey s'.headPack.block.builderSignature
          (s'.headPack.block.digest cfg.crypto) = some owner.blockSigningKey := by
  obtain ⟨owner, priv, howner, hmine, hkey, hprevious, htime, hbuilder, hsig⟩ :=
    owner_of_generated hid hg run closed hext h
  refine ⟨hprevious, htime, owner, howner, hmine, hbuilder, ?_⟩
  rw [hsig, hsign, hkey]

/-- Whatever two nodes went through before, on one head they have one schedule, and build in one slot for
one builder only, the one that it gives the slot to, whom both have, and with its key. -/
theorem one_builder_a_slot {p' : BuilderPlugin getPublicKey} {now' : ℕ} {trxs' : List SignedTransaction}
    {t t' : ChainState}
    (hid : ∀ h h' : BlockHeader, h.id cfg.crypto = h'.id cfg.crypto → h = h')
    (hsign : ∀ priv digest,
      cfg.crypto.signerKey (cfg.crypto.sign priv digest) digest = some (getPublicKey priv))
    (hg : Applied cfg (BlockPack.genesis cfg.crypto time key sig receipts next) d
      (BlockPack.genesis cfg.crypto time key sig receipts next) g)
    (run : ChainRun cfg (BlockPack.genesis cfg.crypto time key sig receipts next) g s)
    (run' : ChainRun cfg (BlockPack.genesis cfg.crypto time key sig receipts next) g t)
    (closed : s.building = none) (closed' : t.building = none) (hext : s.ExtendOk)
    (hext' : t.ExtendOk) (hhead : s.blockHead = t.blockHead)
    (hstamp : chainTimestampFrom now = chainTimestampFrom now')
    (h : p.buildBlock cfg now trxs s = .ok .generated s')
    (h' : p'.buildBlock cfg now' trxs' t = .ok .generated t') :
    SameSchedule s.headPack.toPackCore t.headPack.toPackCore ∧
      ∃ owner, selectBuilder s.headPack.currentBuilders s.headPack.newBuilders
          (s.headPack.slotAt (chainTimestampFrom now)) = some owner ∧
        owner.builderName ∈ p.builders ∧ owner.builderName ∈ p'.builders ∧
        ∀ block ∈ [s'.headPack.block, t'.headPack.block],
          block.previous = s.blockHead ∧ block.builder = owner.builderName ∧
          cfg.crypto.signerKey block.builderSignature (block.digest cfg.crypto)
            = some owner.blockSigningKey := by
  obtain ⟨owner, priv, howner, hmine, hkey, hprevious, -, hbuilder, hsig⟩ :=
    owner_of_generated hid hg run closed hext h
  obtain ⟨owner', priv', howner', hmine', hkey', hprevious', -, hbuilder', hsig'⟩ :=
    owner_of_generated hid hg run' closed' hext' h'
  have hsame : SameSchedule s.headPack.toPackCore t.headPack.toPackCore := by
    refine (run.onSchedule hid hg).lineal.sameSchedule hid rfl ?_ ?_
    · rw [hhead]
      exact (run'.onSchedule hid hg).lineal
    · rw [run.headPack_blockId, run'.headPack_blockId, hhead]
  have hone : some owner = some owner' := by
    rw [← howner, ← howner', hsame.currentBuilders, hsame.newBuilders, hsame.slotAt, hstamp]
  obtain rfl := Option.some.inj hone
  refine ⟨hsame, owner, howner, hmine, hmine', fun block hblock => ?_⟩
  rcases List.mem_cons.1 hblock with rfl | hblock
  · exact ⟨hprevious, hbuilder, by rw [hsig, hsign, hkey]⟩
  · obtain rfl := List.mem_singleton.1 hblock
    exact ⟨hprevious'.trans hhead.symm, hbuilder', by rw [hsig', hsign, hkey']⟩

end Owner

/-- A node without keys takes blocks in as in `DeliveryOrder`. -/
theorem recieveBlock_eq_receiveBlock (hp : ∀ pub, p.builderKeys pub = none) (block : SignedBlock) :
    p.recieveBlock cfg block = receiveBlock cfg block := by
  have hconfirm : ∀ blockId verifiers, p.confirmFor cfg blockId verifiers = pure () := by
    intro blockId verifiers
    induction verifiers with
    | nil => rfl
    | cons v verifiers ih =>
      funext s
      rw [BuilderPlugin.confirmFor, BuilderPlugin.confirmAs, hp]
      exact congrFun ih s
  funext s
  unfold BuilderPlugin.recieveBlock receiveBlock
  split_ifs
  · unfold BuilderPlugin.confirmBlock
    cases hrun : confirmBlock cfg block s with
    | ok u s' => exact (run_bind_ok hrun).trans (congrFun (hconfirm _ _) s')
    | error e s' => exact run_bind_error hrun
  · rfl
  · rfl

/-! ## A node that has the only builder -/

def soleBuilder : BuilderPlugin (id : ℕ → PublicKey) := ({} : BuilderPlugin id).importKey xmaxContractName 7

/-- When the stamp of the clock becomes `stamp`. -/
def clockOf (stamp : ℕ) : ℕ := chainTimestampEpochUs + stamp * chainTimestampUnitUs

theorem clockOk_clockOf {stamp : ℕ} (h : stamp < 2 ^ 32) : ClockOk (clockOf stamp) := by
  unfold ClockOk clockOf chainTimestampUnitUs
  omega

theorem one_block_a_slot_twice :
    ∃ (g : ChainDb) (n : BuilderNode), oneBuilderDb = .ok g ∧
      BuilderRun soleBuilder headerConfig oneBuilderGenesis g n ∧ n.built.length = 2 ∧
      n.built.Pairwise fun later earlier => earlier.timestamp < later.timestamp := by
  obtain ⟨g, hg, hdue, harmed, hrunning, hlength⟩ := exists_ok_of_eval (x := oneBuilderDb) (P := fun g =>
    let n : BuilderNode := { chain := .genesis oneBuilderGenesis g, due := clockOf 99 + 1000000 }
    let n := (n.nextBlock (clockOf 100)).nextBlockImpl soleBuilder headerConfig (clockOf 101)
      (clockOf 101) []
    n.due ≤ clockOf 103 ∧ n.armed = true ∧ n.running = true ∧
      (n.nextBlockImpl soleBuilder headerConfig (clockOf 103) (clockOf 103) []).built.length = 2)
    (by decide +kernel)
  have hstart : BuilderRun soleBuilder headerConfig oneBuilderGenesis g
      { chain := .genesis oneBuilderGenesis g, due := clockOf 99 + 1000000 } := .start (clockOf 99)
  have hwake := hstart.wake (clockOf 100) (le_refl (clockOf 100)) rfl (clockOk_clockOf (by decide))
  have hfirst := hwake.tick (clockOf 101) (clockOf 101) [] (le_refl (clockOf 101)) rfl rfl
    (clockOk_clockOf (by decide)) le_rfl (clockOk_clockOf (by decide))
  have hsecond := hfirst.tick (clockOf 103) (clockOf 103) [] hdue harmed hrunning
    (clockOk_clockOf (by decide)) le_rfl (clockOk_clockOf (by decide))
  exact ⟨g, _, hg, hsecond, hlength, one_block_a_slot headerCrypto_id_injective hsecond⟩

theorem genesis_applied {g : ChainDb} (hg : oneBuilderDb = .ok g) :
    Applied headerConfig oneBuilderGenesis oneBuilderStart oneBuilderGenesis g := by
  obtain ⟨d, hd, hsummary⟩ := bind_eq_ok.1 hg
  cases hsummary
  exact .genesis hd

def wasGenerated : EStateM.Result Fault ChainState BlockBuildCondition → Bool
  | .ok .generated _ => true
  | _ => false

theorem wasGenerated_eq_true {r : EStateM.Result Fault ChainState BlockBuildCondition}
    (h : wasGenerated r = true) : ∃ s', r = .ok .generated s' := by
  cases r with
  | error e s => cases h
  | ok condition s =>
    cases condition with
    | generated => exact ⟨s, rfl⟩
    | _ => cases h

/-- A node that has confirmed another block on genesis before two higher ones came in, one on the other. -/
def switchedOver (g : ChainDb) : ChainState :=
  chainCalls headerConfig [.confirmBlock secondBlock, .pushFork rivalBlock, .pushFork rivalChild]
    (.genesis oneBuilderGenesis g)

/-- A node that knows of these two only. -/
def straightOn (g : ChainDb) : ChainState :=
  chainCalls headerConfig [.confirmBlock rivalBlock, .confirmBlock rivalChild] (.genesis oneBuilderGenesis g)

/-- What evaluating shows of the calls of the first node, all of which are careful. -/
def SwitchCareful (g : ChainDb) : Prop :=
  Rooted headerConfig oneBuilderGenesis.blockId rivalBlock
      (chainCalls headerConfig [.confirmBlock secondBlock] (.genesis oneBuilderGenesis g)) ∧
    Rooted headerConfig oneBuilderGenesis.blockId rivalChild
      (chainCalls headerConfig [.confirmBlock secondBlock, .pushFork rivalBlock]
        (.genesis oneBuilderGenesis g)) ∧
    (switchedOver g).building = none ∧ (switchedOver g).ExtendOk

instance : DecidablePred SwitchCareful := fun g => by
  unfold SwitchCareful
  infer_instance

theorem SwitchCareful.chainRun {g : ChainDb} (h : SwitchCareful g) :
    ChainRun headerConfig oneBuilderGenesis g (switchedOver g) :=
  .tail (.tail (.single ⟨.confirmBlock secondBlock, secondBlock_careful g, rfl⟩)
    ⟨.pushFork rivalBlock, h.1.forkOk, rfl⟩) ⟨.pushFork rivalChild, h.2.1.forkOk, rfl⟩

theorem built_by_owner_first :
    ∃ (g : ChainDb) (s' : ChainState), oneBuilderDb = .ok g ∧
      ChainRun headerConfig oneBuilderGenesis g (switchedOver g) ∧
      soleBuilder.buildBlock headerConfig (clockOf 104) [] (switchedOver g) = .ok .generated s' ∧
      s'.headPack.block.previous = rivalChild.id headerCrypto ∧
      s'.headPack.block.timestamp = chainTimestampFrom (clockOf 104) ∧
      ∃ owner : BuilderInfo, s'.headPack.block.builder = owner.builderName ∧
        headerCrypto.signerKey s'.headPack.block.builderSignature
          (s'.headPack.block.digest headerCrypto) = some owner.blockSigningKey := by
  obtain ⟨g, hg, hcareful, hhead, hbuilt⟩ := exists_ok_of_eval (x := oneBuilderDb)
    (P := fun g => SwitchCareful g ∧ (switchedOver g).blockHead = rivalChild.id headerCrypto ∧
      wasGenerated (soleBuilder.buildBlock headerConfig (clockOf 104) [] (switchedOver g)) = true)
    (by decide +kernel)
  obtain ⟨s', hs'⟩ := wasGenerated_eq_true hbuilt
  obtain ⟨hprevious, htime, owner, -, -, hbuilder, hkey⟩ := built_by_owner headerCrypto_id_injective
    (fun _ _ => rfl) (genesis_applied hg) hcareful.chainRun hcareful.2.2.1 hcareful.2.2.2 hs'
  exact ⟨g, s', hg, hcareful.chainRun, hs', hprevious.trans hhead, htime, owner, hbuilder, hkey⟩

/-- A node that has a second builder besides. -/
def twoBuildersNode : BuilderPlugin (id : ℕ → PublicKey) := soleBuilder.importKey 5 9

/-- One of the nodes has left a block for the branch that both are on. -/
theorem one_builder_a_slot_first :
    ∃ (g : ChainDb) (s' t' : ChainState), oneBuilderDb = .ok g ∧
      secondBlock.id headerCrypto ∈ (switchedOver g).fork.packs ∧
      secondBlock.id headerCrypto ∉ (straightOn g).fork.packs ∧
      soleBuilder.buildBlock headerConfig (clockOf 104) [] (switchedOver g) = .ok .generated s' ∧
      twoBuildersNode.buildBlock headerConfig (clockOf 104 + 5) [] (straightOn g) = .ok .generated t' ∧
      ∃ owner : BuilderInfo, s'.headPack.block.builder = owner.builderName ∧
        t'.headPack.block.builder = owner.builderName := by
  obtain ⟨g, hg, hcareful, hmid, ⟨hclosed, hextend⟩, hhead, ⟨hleft, hnever⟩, hsole, htwo⟩ :=
    exists_ok_of_eval (x := oneBuilderDb)
    (P := fun g => SwitchCareful g ∧
      (chainCalls headerConfig [.confirmBlock rivalBlock] (.genesis oneBuilderGenesis g)).ExtendOk ∧
      ((straightOn g).building = none ∧ (straightOn g).ExtendOk) ∧
      (switchedOver g).blockHead = (straightOn g).blockHead ∧
      (secondBlock.id headerCrypto ∈ (switchedOver g).fork.packs ∧
        secondBlock.id headerCrypto ∉ (straightOn g).fork.packs) ∧
      wasGenerated (soleBuilder.buildBlock headerConfig (clockOf 104) [] (switchedOver g)) = true ∧
      wasGenerated (twoBuildersNode.buildBlock headerConfig (clockOf 104 + 5) [] (straightOn g)) = true)
    (by decide +kernel)
  obtain ⟨s', hs'⟩ := wasGenerated_eq_true hsole
  obtain ⟨t', ht'⟩ := wasGenerated_eq_true htwo
  have hstraight : ChainRun headerConfig oneBuilderGenesis g (straightOn g) :=
    .tail (.single ⟨.confirmBlock rivalBlock, secondBlock_careful g, rfl⟩)
      ⟨.confirmBlock rivalChild, hmid, rfl⟩
  have hstamp : chainTimestampFrom (clockOf 104) = chainTimestampFrom (clockOf 104 + 5) := by
    decide +kernel
  obtain ⟨-, owner, -, -, -, hblocks⟩ := one_builder_a_slot headerCrypto_id_injective (fun _ _ => rfl)
    (genesis_applied hg) hcareful.chainRun hstraight hcareful.2.2.1 hclosed hcareful.2.2.2 hextend hhead
    hstamp hs' ht'
  exact ⟨g, s', t', hg, hleft, hnever, hs', ht', owner, (hblocks _ List.mem_cons_self).2.1,
    (hblocks _ (List.mem_cons_of_mem _ List.mem_cons_self)).2.1⟩

end XmaxChain
