import XmaxChain.DeliveryOrder
import XmaxChain.DuplicateLinks

/-!
# Catching up

What a node says of its chain in a handshake is the end of its log and its `block_head`, whatever calls
it took. A peer whose last irreversible block is higher sends the blocks of its main chain from there,
ten at a time, and the blocks that it builds or receives after them. A node to which only good blocks
came, and nothing was confirmed, has the whole main chain of that peer then.
-/

namespace XmaxChain

open ParentWalk ForkContext ChainStream

section Model

/-- What a call gives, without the state that it leaves. -/
def answerOf {σ α : Type} : EStateM.Result Fault σ α → Except Fault α
  | .ok a _ => .ok a
  | .error e _ => .error e

/-- The chain as `chainnet_plugin` sees it. What is read of the log leaves its contents as they are. -/
def nodeView {β : Type} (cfg : ChainConfig) (fmt : LogFormat β) (s : ChainState) (log : ChainStream β) :
    ChainView (Except Fault) where
  headBlockNum := s.headPack.blockNum
  lastIrreversibleBlockNum := s.sink.lastIrreversibleBlockNum
  blockIdFromNum num := (answerOf (blockFromNum fmt s.fork num log)).map (·.id cfg.crypto)
  getSyncBlocklist lastnum := answerOf (getSyncblockFromLastnum fmt s lastnum log)

namespace Connection

variable (c : Connection)

/-- `send_signedblock`. -/
def sendSignedblock (sb : SignedBlock) : Connection :=
  { c with pendingBlockList := c.pendingBlockList ++ [sb] }

/-- `send_pending_block`, with what is sent. -/
def sendPendingBlock : Connection × List SignedBlock :=
  let sendingNum := min 10 c.pendingBlockList.length
  ({ c with pendingBlockList := c.pendingBlockList.drop sendingNum }, c.pendingBlockList.take sendingNum)

end Connection

/-- What happens at a connection once it is there: a block is broadcast, or the timer of pending blocks
fires. -/
inductive QueueEvent
  | broadcast (sb : SignedBlock)
  | tick

def QueueEvent.apply (s : Connection × List SignedBlock) : QueueEvent → Connection × List SignedBlock
  | .broadcast sb => (s.1.sendSignedblock sb, s.2)
  | .tick => (s.1.sendPendingBlock.1, s.2 ++ s.1.sendPendingBlock.2)

/-- The connection after some events, and the blocks that were sent over it. -/
def runQueue (es : List QueueEvent) (c : Connection) : Connection × List SignedBlock :=
  es.foldl QueueEvent.apply (c, [])

def QueueEvent.block? : QueueEvent → Option SignedBlock
  | .broadcast sb => some sb
  | .tick => none

def broadcasts (es : List QueueEvent) : List SignedBlock := es.filterMap QueueEvent.block?

def ticks (es : List QueueEvent) : ℕ := es.countP fun e => e.block?.isNone

end Model

/-! ## The end of the log -/

section LogRows

variable {cfg : ChainConfig} {G : BlockPack} {g : ChainDb} {s : ChainState} {α β : Type}

/-- The log and the last irreversible number are as `R` says. -/
def Sink.Rows (R : List SignedBlock → ℕ → Prop) (h : Sink ChainDb) : Prop :=
  R h.chainLog h.lastIrreversibleBlockNum

/-- What is said of the log stays so, whether the call returns or throws. -/
def KeepsLog (R : List SignedBlock → ℕ → Prop) (x : ChainM α) : Prop :=
  ∀ s : ChainState, s.sink.Rows R → (stateOf (x s)).sink.Rows R

variable {R : List SignedBlock → ℕ → Prop}

theorem KeepsLog.bind {x : ChainM α} {y : α → ChainM β} (hx : KeepsLog R x) (hy : ∀ a, KeepsLog R (y a)) :
    KeepsLog R (x >>= y) := by
  intro s hs
  have hs' := hx s hs
  rw [run_bind]
  cases hrun : x s with
  | ok a s' =>
    rw [hrun] at hs'
    exact hy a s' hs'
  | error e s' =>
    rw [hrun] at hs'
    exact hs'

theorem keepsLog_of_same {x : ChainM α} (h : ∀ s, (stateOf (x s)).sink.chainLog = s.sink.chainLog ∧
    (stateOf (x s)).sink.lastIrreversibleBlockNum = s.sink.lastIrreversibleBlockNum) : KeepsLog R x := by
  intro s hs
  obtain ⟨hlog, hlast⟩ := h s
  rw [Sink.Rows, hlog, hlast]
  exact hs

theorem keepsLog_abortBuild : KeepsLog R abortBuild := keepsLog_of_same fun s => by
  unfold abortBuild
  split_ifs
  · show s.abortBuild.sink.chainLog = s.sink.chainLog ∧
      s.abortBuild.sink.lastIrreversibleBlockNum = s.sink.lastIrreversibleBlockNum
    unfold ChainState.abortBuild
    split <;> exact ⟨rfl, rfl⟩
  · exact ⟨rfl, rfl⟩

theorem keepsLog_startBuild (when : ℕ) : KeepsLog R (startBuild cfg when) := keepsLog_of_same fun s => by
  unfold startBuild
  split <;> exact ⟨rfl, rfl⟩

theorem keepsLog_inBuilding (x : BlockPack → EStateM Fault Building Unit) : KeepsLog R (inBuilding x) :=
  keepsLog_of_same fun s => by
    unfold inBuilding
    split
    · exact ⟨rfl, rfl⟩
    · split <;> exact ⟨rfl, rfl⟩

theorem keepsLog_liftExcept (x : ChainState → Except Fault α) : KeepsLog R (liftExcept x) :=
  keepsLog_of_same fun s => by
    unfold liftExcept
    split <;> exact ⟨rfl, rfl⟩

theorem keepsLog_commitBlock : KeepsLog R commitBlock := keepsLog_of_same fun _ => ⟨rfl, rfl⟩

theorem keepsLog_popBlock : KeepsLog R popBlock := keepsLog_of_same fun s => by
  unfold popBlock
  split
  · exact ⟨rfl, rfl⟩
  · split_ifs
    · split <;> exact ⟨rfl, rfl⟩
    · exact ⟨rfl, rfl⟩

theorem keepsLog_popBlocks : ∀ n, KeepsLog R (popBlocks n)
  | 0 => fun _ hs => hs
  | n + 1 => keepsLog_popBlock.bind fun _ => keepsLog_popBlocks n

theorem keepsLog_switchTo (id : Summary) : KeepsLog R (switchTo id) := keepsLog_of_same fun s => by
  unfold switchTo
  split <;> exact ⟨rfl, rfl⟩

section Irreversible

variable (hR : ∀ blocks n (b : SignedBlock), R blocks n → R (b :: blocks) b.blockNum)

include hR

theorem onIrreversible_rows {p : BlockPack} {h h' : Sink ChainDb} (hrun : onIrreversible cfg.crypto p h = .ok h')
    (hrows : h.Rows R) : h'.Rows R := by
  rw [onIrreversible] at hrun
  split at hrun
  · cases hrun
  · simp only [bind_eq_ok, fcAssert_eq_ok] at hrun
    obtain ⟨-, -, -, -, hrun⟩ := hrun
    cases hrun
    exact hR _ _ _ hrows

theorem addPack_rows (cfg : ChainConfig) (pack : BlockPack) {s : ForkContext × Sink ChainDb} (hs : s.2.Rows R) :
    (stateOf (addPack (onIrreversible cfg.crypto) cfg.crypto pack s)).2.Rows R :=
  addPack_keeps (fun hrun => onIrreversible_rows hR hrun) hs

theorem keepsLog_pushBlock (updatefork : Bool) : KeepsLog R (pushBlock cfg updatefork) := by
  intro s hs
  unfold pushBlock
  split
  · exact hs
  · rename_i pack hpack
    have hadd := addPack_rows hR cfg pack (s := (s.fork, s.sink)) hs
    split_ifs
    · exact hs
    · split
      · rename_i hrun
        rw [hrun] at hadd
        exact hadd
      · rename_i hrun
        rw [hrun] at hadd
        split_ifs <;> exact hadd
    · exact hs

theorem keepsLog_applyBlock (cfg : ChainConfig) (block : SignedBlock) (updatefork : Bool) :
    KeepsLog R (applyBlock cfg block updatefork) :=
  (keepsLog_liftExcept _).bind fun _ => (keepsLog_liftExcept _).bind fun _ =>
    keepsLog_abortBuild.bind fun _ => (keepsLog_startBuild _).bind fun _ =>
      (keepsLog_inBuilding _).bind fun _ => (keepsLog_pushBlock hR updatefork).bind fun _ =>
        keepsLog_commitBlock

theorem keepsLog_applyPack (cfg : ChainConfig) (id : Summary) : KeepsLog R (applyPack cfg id) := by
  intro s hs
  have happly := keepsLog_applyBlock hR cfg (s.fork.objs id).block false s hs
  unfold applyPack
  split
  · rename_i hrun
    rw [hrun] at happly
    exact happly
  · rename_i hrun
    rw [hrun] at happly
    exact keepsLog_switchTo id _ happly

theorem keepsLog_applyBranch : ∀ ids, KeepsLog R (applyBranch cfg ids)
  | [] => fun _ hs => hs
  | id :: ids => by
    intro s hs
    have happly := keepsLog_applyPack hR cfg id s hs
    unfold applyBranch
    cases hrun : applyPack cfg id s with
    | ok u s' =>
      rw [hrun] at happly
      exact keepsLog_applyBranch ids s' happly
    | error e s' =>
      rw [hrun] at happly
      cases e with
      | fc msg =>
        dsimp only
        split <;> exact happly
      | _ => exact happly

theorem keepsLog_switchFork : KeepsLog R (switchFork cfg) := by
  intro s hs
  unfold switchFork
  split
  · exact hs
  · split
    · exact hs
    · split_ifs
      · exact (keepsLog_popBlocks _).bind (fun _ => keepsLog_applyBranch hR _) s hs
      · exact hs

theorem keepsLog_checkForkLoop : ∀ fuel, KeepsLog R (checkForkLoop cfg fuel)
  | 0 => fun _ hs => hs
  | fuel + 1 => by
    intro s hs
    unfold checkForkLoop
    split_ifs
    · exact hs
    · exact (keepsLog_switchFork hR).bind (fun _ => keepsLog_checkForkLoop fuel) s hs

theorem keepsLog_addForkBlock (block : SignedBlock) : KeepsLog R (addForkBlock cfg block) := by
  intro s hs
  have hadd : (stateOf (addBlock (onIrreversible cfg.crypto) cfg.crypto block (s.fork, s.sink))).2.Rows R := by
    unfold addBlock
    split
    · exact hs
    · rename_i pack _
      have hpack := addPack_rows hR cfg pack (s := (s.fork, s.sink)) hs
      split
      · rename_i hrun
        rw [hrun] at hpack
        exact hpack
      · rename_i hrun
        rw [hrun] at hpack
        exact hpack
  unfold addForkBlock
  split
  · rename_i hrun
    rw [hrun] at hadd
    exact hadd
  · rename_i hrun
    rw [hrun] at hadd
    exact hadd

/-- What each irreversible block keeps, every call keeps. -/
theorem keepsLog_chainStep (call : ChainCall) : KeepsLog R (chainStep cfg call) := by
  cases call with
  | buildBlock when key trxs =>
    exact keepsLog_abortBuild.bind fun _ => (keepsLog_startBuild _).bind fun _ =>
      (keepsLog_inBuilding _).bind fun _ => (keepsLog_pushBlock hR true).bind fun _ => keepsLog_commitBlock
  | confirmBlock block => exact keepsLog_applyBlock hR cfg block true
  | pushFork block =>
    intro s hs
    show (stateOf (pushFork cfg block s)).sink.Rows R
    rw [stateOf_pushFork]
    exact (keepsLog_addForkBlock hR block).bind (fun _ s hs => keepsLog_checkForkLoop hR _ s hs) s hs
  | pushConfirmation conf =>
    refine keepsLog_of_same fun s => ?_
    show (stateOf (pushConfirmation cfg conf s)).sink.chainLog = s.sink.chainLog ∧
      (stateOf (pushConfirmation cfg conf s)).sink.lastIrreversibleBlockNum = s.sink.lastIrreversibleBlockNum
    unfold pushConfirmation
    split <;> exact ⟨rfl, rfl⟩

end Irreversible

/-- The last irreversible block is the head of the log, but that genesis does not count. -/
def LastLogged (G : BlockPack) (blocks : List SignedBlock) (last : ℕ) : Prop :=
  last = 0 ∧ blocks = [G.block] ∨ blocks.head?.map (fun b => b.blockNum) = some last

theorem ChainRun.lastLogged (h : ChainRun cfg G g s) : s.sink.Rows (LastLogged G) := by
  induction h with
  | refl => exact .inl ⟨rfl, rfl⟩
  | tail _ step ih =>
    obtain ⟨call, -, rfl⟩ := step
    exact keepsLog_chainStep (fun _ _ _ _ => .inr rfl) call _ ih

end LogRows

/-! ## What a handshake says -/

section Handshakes

variable {β : Type} {cfg : ChainConfig} {fmt : LogFormat β} {g : ChainDb} {s : ChainState}
  {log : ChainStream β} {time : ℕ} {key : PublicKey} {sig : Signature}
  {receipts : List TransactionReceipt} {next : List BuilderInfo} {L X : Summary} {o : Origin}

/-- `block_head` is the last block of its path. -/
theorem Good.path_head
    (h : Good cfg (BlockPack.genesis cfg.crypto time key sig receipts next) o s L X) :
    s.path.reverse[s.headPack.blockNum - 1]? = some s.headPack.block := by
  have hmem := h.headPack_mem
  obtain ⟨i, hget⟩ := List.getElem?_of_mem (List.mem_reverse.2 (h.path_eq.2 _ (.refl hmem)))
  have hnum := h.path_numbered.2.2 i _ hget
  rw [← BlockHeader.id_num cfg.crypto, h.inv.id _ hmem] at hnum
  have hindex : i = s.headPack.blockNum - 1 := by
    rw [ChainState.headPack, h.inv.num _ hmem]
    omega
  exact hindex ▸ hget

theorem Good.one_le_head
    (h : Good cfg (BlockPack.genesis cfg.crypto time key sig receipts next) o s L X) :
    1 ≤ s.headPack.blockNum := by
  have hlt := (List.getElem?_eq_some_iff.1 h.path_head).1
  rw [List.length_reverse, h.path_numbered.1] at hlt
  omega

/-- The head of the log, where it is counted, is the block of the path with the last irreversible
number. -/
theorem Good.path_last
    (h : Good cfg (BlockPack.genesis cfg.crypto time key sig receipts next) o s L X)
    (hlast : s.sink.Rows (LastLogged (BlockPack.genesis cfg.crypto time key sig receipts next)))
    (hne : s.sink.lastIrreversibleBlockNum ≠ 0) :
    ∃ b, s.sink.chainLog.head? = some b ∧ b.blockNum = s.sink.lastIrreversibleBlockNum ∧
      1 ≤ b.blockNum ∧ b.blockNum ≤ s.headPack.blockNum ∧ s.path.reverse[b.blockNum - 1]? = some b := by
  rcases hlast with ⟨hzero, -⟩ | hhead
  · exact absurd hzero hne
  obtain ⟨b, hb, hnum⟩ := Option.map_eq_some_iff.1 hhead
  obtain ⟨rest, hrest⟩ : ∃ rest, s.sink.chainLog = b :: rest := by
    cases hlog : s.sink.chainLog with
    | nil => simp [hlog] at hb
    | cons b' rest => exact ⟨rest, by simpa [hlog] using hb⟩
  have hget : s.sink.chainLog.reverse[rest.length]? = some b := by simp [hrest]
  have hb' := h.log_numbered hget
  obtain ⟨front, hfront⟩ := List.reverse_prefix.2 h.path_eq.1
  have hlen := congrArg List.length hfront
  rw [List.length_append, List.length_reverse, List.length_reverse, h.path_numbered.1, hrest,
    List.length_cons] at hlen
  refine ⟨b, hb, hnum, by omega, by omega, ?_⟩
  rw [← hfront, hb', Nat.add_sub_cancel, List.getElem?_append_left, hget]
  exact (List.getElem?_eq_some_iff.1 hget).1

/-- What a handshake says of the chain that it is set up from. Before anything is irreversible it says
number 1 and an empty id. -/
structure Truthful (c : Crypto) (s : ChainState) (m : HandshakeMessage) : Prop where
  headNum : m.headNum = s.headPack.blockNum
  headId : m.headId = s.blockHead
  last : s.sink.lastIrreversibleBlockNum ≠ 0 → ∃ b, s.sink.chainLog.head? = some b ∧
    m.lastIrreversibleBlockNum = b.blockNum ∧ m.lastIrreversibleBlockId = b.id c
  young : s.sink.lastIrreversibleBlockNum = 0 →
    m.lastIrreversibleBlockNum = 1 ∧ m.lastIrreversibleBlockId = default

theorem nodeView_blockIdFromNum
    (h : Good cfg (BlockPack.genesis cfg.crypto time key sig receipts next) o s L X)
    (hlog : Holds cfg.crypto fmt log s.sink.chainLog.reverse) {num : ℕ} {b : SignedBlock} (hpos : 1 ≤ num)
    (hle : num ≤ s.headPack.blockNum) (hb : s.path.reverse[num - 1]? = some b) :
    (nodeView cfg fmt s log).blockIdFromNum num = .ok (b.id cfg.crypto) := by
  obtain ⟨b', log', hread, -, hget⟩ := h.blockFromNum_ok hlog hpos hle
  obtain rfl : b' = b := Option.some.inj (hget.symm.trans hb)
  show (answerOf (blockFromNum fmt s.fork num log)).map _ = _
  rw [hread]
  rfl

theorem nodeView_getSyncBlocklist
    (h : Good cfg (BlockPack.genesis cfg.crypto time key sig receipts next) o s L X)
    (hlog : Holds cfg.crypto fmt log s.sink.chainLog.reverse) {lastnum : ℕ}
    (hlt : lastnum < s.headPack.blockNum) :
    (nodeView cfg fmt s log).getSyncBlocklist lastnum = .ok (s.path.reverse.drop lastnum) := by
  obtain ⟨hlen, -⟩ := h.path_numbered
  obtain ⟨log', hsync⟩ := h.syncBlocks_ok lastnum s.headPack.blockNum [] hlog le_rfl
  rw [List.append_nil, List.take_of_length_le (by rw [List.length_reverse, hlen])] at hsync
  have hne : (s.path.reverse.drop lastnum).length ≠ 0 := by
    rw [List.length_drop, List.length_reverse]
    omega
  show answerOf (getSyncblockFromLastnum fmt s lastnum log) = _
  unfold getSyncblockFromLastnum
  rw [run_bind_ok hsync, run_bind_ok (throwWhen_neg hne)]
  rfl

theorem setup_of_ids {node : NodeConfig} {chain : ChainView (Except Fault)} {libId headId : Summary}
    (time' : ℤ) (handshake : HandshakeMessage)
    (hlib : chain.idOf chain.lastIrreversibleBlockNum = .ok libId)
    (hhead : chain.idOf chain.headBlockNum = .ok headId) :
    node.setup chain time' handshake = .ok { handshake with
      time := time'
      networkVersion := node.networkVersion
      chainId := node.chainId
      nodeId := node.nodeId
      token := default
      sig := 0
      p2pAddress := node.p2pText
      os := NodeConfig.linux
      agent := node.agent
      lastIrreversibleBlockNum :=
        if chain.lastIrreversibleBlockNum ≠ 0 then chain.lastIrreversibleBlockNum else 1
      lastIrreversibleBlockId := libId
      headNum := chain.headBlockNum
      headId } := by
  unfold NodeConfig.setup
  rw [hlib, hhead]
  rfl

/-- What a handshake is set up to say. -/
theorem setup_shape {node : NodeConfig} {chain : ChainView (Except Fault)} {now : ℤ}
    {handshake m : HandshakeMessage} (h : node.setup chain now handshake = .ok m) :
    ∃ libId headId, m = { handshake with
      time := now
      networkVersion := node.networkVersion
      chainId := node.chainId
      nodeId := node.nodeId
      token := default
      sig := 0
      p2pAddress := node.p2pText
      os := NodeConfig.linux
      agent := node.agent
      lastIrreversibleBlockNum :=
        if chain.lastIrreversibleBlockNum ≠ 0 then chain.lastIrreversibleBlockNum else 1
      lastIrreversibleBlockId := libId
      headNum := chain.headBlockNum
      headId } := by
  obtain ⟨libId, hlib, h⟩ := bind_eq_ok.1 h
  obtain ⟨headId, hhead, h⟩ := bind_eq_ok.1 h
  exact ⟨libId, headId, (Except.ok.inj h).symm⟩

/-- Nothing but the two numbers is looked at that another node would not take. -/
theorem setup_valid {node : NodeConfig} {chain : ChainView (Except Fault)} {now : ℤ}
    {handshake m : HandshakeMessage} (h : node.setup chain now handshake = .ok m) (other : NodeConfig)
    (hle : m.lastIrreversibleBlockNum ≤ m.headNum) (generation : ℤ) :
    other.isValid { m with generation } = true := by
  obtain ⟨libId, headId, rfl⟩ := setup_shape h
  simpa [NodeConfig.isValid, p2pText_ne_nil, NodeConfig.linux] using hle

/-- In every careful run a node can set up its handshake; it says which block is the head of the log and
which is `block_head`, and any node takes it for valid. -/
theorem handshake_speaks_for_chain {time' : ℤ} {handshake : HandshakeMessage} (node : NodeConfig)
    (h : NodeRun cfg fmt (BlockPack.genesis cfg.crypto time key sig receipts next) g s log) :
    ∃ m, node.setup (nodeView cfg fmt s log) time' handshake = .ok m ∧ Truthful cfg.crypto s m ∧
      ∀ other : NodeConfig, other.isValid m = true := by
  obtain ⟨hrun, hlogrun⟩ := h.runs
  obtain ⟨L, X, hgood⟩ := hrun.good
  have hlog := hlogrun.holds
  have hone : 1 ≤ s.headPack.blockNum := hgood.one_le_head
  have hheadId : (nodeView cfg fmt s log).idOf s.headPack.blockNum = .ok s.blockHead := by
    rw [ChainView.idOf, if_pos (by omega), nodeView_blockIdFromNum hgood hlog hone le_rfl hgood.path_head]
    exact congrArg Except.ok (hgood.inv.id _ hgood.headPack_mem)
  obtain ⟨libId, hlibId, htruth⟩ : ∃ libId,
      (nodeView cfg fmt s log).idOf s.sink.lastIrreversibleBlockNum = .ok libId ∧
        (s.sink.lastIrreversibleBlockNum ≠ 0 → ∃ b, s.sink.chainLog.head? = some b ∧
          s.sink.lastIrreversibleBlockNum = b.blockNum ∧ b.blockNum ≤ s.headPack.blockNum ∧
          libId = b.id cfg.crypto) ∧
        (s.sink.lastIrreversibleBlockNum = 0 → libId = default) := by
    by_cases hlast : s.sink.lastIrreversibleBlockNum = 0
    · refine ⟨default, ?_, fun hne => absurd hlast hne, fun _ => rfl⟩
      rw [ChainView.idOf, if_neg (not_not.2 hlast)]
      rfl
    · obtain ⟨b, hb, hnum, hpos, hle, hget⟩ := hgood.path_last hrun.lastLogged hlast
      refine ⟨b.id cfg.crypto, ?_, fun _ => ⟨b, hb, hnum.symm, hle, rfl⟩, fun hzero => absurd hzero hlast⟩
      rw [ChainView.idOf, if_pos hlast, ← hnum]
      exact nodeView_blockIdFromNum hgood hlog hpos hle hget
  have hsetup : node.setup (nodeView cfg fmt s log) time' handshake = .ok _ :=
    setup_of_ids time' handshake hlibId hheadId
  refine ⟨_, hsetup, ⟨rfl, rfl, fun hne => ?_, fun hzero => ?_⟩, fun other => setup_valid hsetup other ?_ _⟩
  · obtain ⟨b, hb, hnum, -, hid⟩ := htruth.1 hne
    exact ⟨b, hb, (if_pos hne).trans hnum, hid⟩
  · exact ⟨if_neg (not_not.2 hzero), htruth.2 hzero⟩
  · show (if s.sink.lastIrreversibleBlockNum ≠ 0 then s.sink.lastIrreversibleBlockNum else 1) ≤
      s.headPack.blockNum
    split_ifs with hne
    · obtain ⟨b, -, hnum, hle, -⟩ := htruth.1 hne
      omega
    · exact hone

end Handshakes

/-! ## What is sent after it -/

section Queue

/-- Blocks go out in the order in which they came in. -/
theorem foldl_fifo (es : List QueueEvent) (s : Connection × List SignedBlock) :
    (es.foldl QueueEvent.apply s).2 ++ (es.foldl QueueEvent.apply s).1.pendingBlockList =
      s.2 ++ s.1.pendingBlockList ++ broadcasts es := by
  induction es generalizing s with
  | nil => simp [broadcasts]
  | cons e es ih =>
    rw [List.foldl_cons, ih]
    cases e with
    | broadcast sb => simp [QueueEvent.apply, Connection.sendSignedblock, broadcasts, QueueEvent.block?]
    | tick =>
      have hsplit : s.1.sendPendingBlock.2 ++ s.1.sendPendingBlock.1.pendingBlockList =
          s.1.pendingBlockList := List.take_append_drop ..
      simp only [QueueEvent.apply, List.append_assoc, broadcasts, List.filterMap_cons, QueueEvent.block?]
      rw [← List.append_assoc s.1.sendPendingBlock.2, hsplit]

/-- A timer that fires sends ten blocks, or all that there are. -/
theorem le_foldl_length (es : List QueueEvent) (s : Connection × List SignedBlock) :
    s.2.length + min (10 * ticks es) s.1.pendingBlockList.length ≤ (es.foldl QueueEvent.apply s).2.length := by
  induction es generalizing s with
  | nil => simp [ticks]
  | cons e es ih =>
    refine le_trans ?_ (ih (e.apply s))
    cases e with
    | broadcast sb =>
      simp only [QueueEvent.apply, Connection.sendSignedblock, ticks, QueueEvent.block?, List.length_append,
        List.length_singleton, List.countP_cons, Option.isNone_some]
      simp only [Bool.false_eq_true, if_false]
      omega
    | tick =>
      simp only [QueueEvent.apply, Connection.sendPendingBlock, ticks, QueueEvent.block?, List.length_append,
        List.length_take, List.length_drop, List.countP_cons, Option.isNone_none, if_true]
      omega

/-- Once the timer has fired often enough, what waited has gone out, and after it a part of what was
broadcast. -/
theorem runQueue_sent {es : List QueueEvent} {c : Connection}
    (hticks : c.pendingBlockList.length ≤ 10 * ticks es) :
    ∃ later, (runQueue es c).2 = c.pendingBlockList ++ later ∧ later <+: broadcasts es := by
  have hfifo := foldl_fifo es (c, [])
  have hlength := le_foldl_length es (c, [])
  rw [List.nil_append] at hfifo
  rw [List.length_nil, Nat.zero_add, min_eq_right hticks] at hlength
  obtain ⟨later, hlater⟩ := List.prefix_of_prefix_length_le (List.prefix_append ..)
    (hfifo ▸ List.prefix_append ..) hlength
  refine ⟨later, hlater.symm, (runQueue es c).1.pendingBlockList, ?_⟩
  rw [← hlater, List.append_assoc, List.append_cancel_left_eq] at hfifo
  exact hfifo

end Queue

/-! ## A node that asks -/

section Parents

variable {c : Crypto} {known known' : List Summary} {l l' : List SignedBlock}

theorem ParentsFirst.mono (h : ParentsFirst c known l) (hsub : ∀ a ∈ known, a ∈ known') :
    ParentsFirst c known' l := by
  induction l generalizing known known' with
  | nil => trivial
  | cons block l ih =>
    refine ⟨hsub _ h.1, ih h.2 fun a ha => ?_⟩
    rcases List.mem_cons.1 ha with rfl | ha
    · exact List.mem_cons_self
    · exact List.mem_cons_of_mem _ (hsub a ha)

theorem ParentsFirst.append (h : ParentsFirst c known l)
    (h' : ParentsFirst c (l.map (fun b => b.id c) ++ known) l') : ParentsFirst c known (l ++ l') := by
  induction l generalizing known with
  | nil => exact h'
  | cons block l ih =>
    refine ⟨h.1, ih h.2 (h'.mono fun a ha => ?_)⟩
    simp only [List.map_cons, List.cons_append, List.mem_cons, List.mem_append] at ha ⊢
    tauto

theorem ParentsFirst.front (h : ParentsFirst c known l') (hfront : l <+: l') : ParentsFirst c known l := by
  obtain ⟨rest, rfl⟩ := hfront
  induction l generalizing known with
  | nil => trivial
  | cons block l ih => exact ⟨h.1, ih h.2⟩

/-- Blocks that each stand on the one before. -/
theorem parentsFirst_of_chain {first : SignedBlock} (hfirst : first.id c ∈ known)
    (h : (first :: l).IsChain fun p b => b.previous = p.id c) : ParentsFirst c known l := by
  induction l generalizing known first with
  | nil => trivial
  | cons block l ih =>
    rw [List.isChain_cons_cons] at h
    exact ⟨h.1 ▸ hfirst, ih List.mem_cons_self h.2⟩

end Parents

theorem Executed.reverse_eq {cfg : ChainConfig} {G : BlockPack} {g : Origin} {objs : Summary → BlockPack}
    {blocks : List SignedBlock} {id : Summary} {db : ChainDb} (h : Executed cfg G g objs blocks id db) :
    ∃ rest, blocks.reverse = G.block :: rest := by
  induction h with
  | genesis _ _ => exact ⟨[], rfl⟩
  | applied _ _ _ _ _ ih =>
    obtain ⟨rest, hrest⟩ := ih
    exact ⟨rest ++ [_], by rw [List.reverse_cons, hrest, List.cons_append]⟩

section Asking

variable {β : Type} {cfg : ChainConfig} {fmt : LogFormat β} {g : ChainDb} {s t : ChainState}
  {log log' : ChainStream β} {time : ℕ} {key : PublicKey} {sig : Signature} {G : BlockPack}
  {receipts : List TransactionReceipt} {next : List BuilderInfo} {L X : Summary} {o : Origin}
  {blocks : List SignedBlock} {top : SignedBlock}

/-- What the blocks of a served list and some good ones after it leave at a node that has asked: all of
the main chain of the other, and a head that is no lower than it was and than the other's. -/
structure CaughtUp (cfg : ChainConfig) (G : BlockPack) (g : ChainDb) (blocks : List SignedBlock)
    (s t t' : ChainState) : Prop where
  delivered : Delivered cfg G g blocks t'
  known : ∀ b ∈ s.path, b.id cfg.crypto ∈ t'.fork.packs
  head : max t.headPack.blockNum s.headPack.blockNum ≤ t'.headPack.blockNum

theorem LeavesAllGood.front {order later : List SignedBlock} (h : LeavesAllGood cfg G g blocks top later)
    (hfront : order <+: later) : LeavesAllGood cfg G g blocks top order := by
  obtain ⟨rest, rfl⟩ := hfront
  induction order generalizing top with
  | nil => trivial
  | cons block order ih => exact ⟨h.1, ih h.2⟩

/-- The path above genesis, each block after its parent. -/
theorem Good.path_parentsFirst
    (h : Good cfg (BlockPack.genesis cfg.crypto time key sig receipts next) o s L X) :
    ∃ rest, s.path.reverse = (BlockPack.genesis cfg.crypto time key sig receipts next).block :: rest ∧
      ParentsFirst cfg.crypto [(BlockPack.genesis cfg.crypto time key sig receipts next).blockId] rest := by
  obtain ⟨rest, hrest⟩ := h.database.1.reverse_eq
  have hchain := h.path_numbered.2.1
  rw [← List.reverse_reverse s.path, List.isChain_reverse, hrest] at hchain
  exact ⟨rest, hrest, parentsFirst_of_chain List.mem_cons_self hchain⟩

theorem caughtUp_of_served (hid : ∀ h h' : BlockHeader, h.id cfg.crypto = h'.id cfg.crypto → h = h')
    (htime : 0 < time)
    (hgood : AllGood cfg (BlockPack.genesis cfg.crypto time key sig receipts next) g blocks)
    (asker : Delivered cfg (BlockPack.genesis cfg.crypto time key sig receipts next) g blocks t)
    (server : Good cfg (BlockPack.genesis cfg.crypto time key sig receipts next) o s L X)
    (hpath : ∀ b ∈ s.path.reverse.drop 1, b ∈ blocks) {later : List SignedBlock}
    (hlater : ∀ b ∈ later, b ∈ blocks)
    (hparents : ParentsFirst cfg.crypto (s.path.map fun b => b.id cfg.crypto) later)
    (htop : t.blockHead = top.id cfg.crypto)
    (hleave : LeavesAllGood cfg (BlockPack.genesis cfg.crypto time key sig receipts next) g blocks top
      (s.path.reverse.drop 1 ++ later)) :
    CaughtUp cfg (BlockPack.genesis cfg.crypto time key sig receipts next) g blocks s t
        (deliver cfg (s.path.reverse.drop 1 ++ later) t) ∧
      (later = [] → (deliver cfg (s.path.reverse.drop 1 ++ later) t).headPack.blockNum =
        max t.headPack.blockNum s.headPack.blockNum) := by
  set G := BlockPack.genesis cfg.crypto time key sig receipts next with hG
  obtain ⟨rest, hrest, hfirst⟩ := server.path_parentsFirst
  have hdrop : s.path.reverse.drop 1 = rest := by rw [hrest, List.drop_one, List.tail_cons]
  have hmem : ∀ b, b ∈ s.path ↔ b = G.block ∨ b ∈ rest := fun b => by
    rw [← List.mem_reverse, hrest, List.mem_cons]
  rw [hdrop] at hpath hleave ⊢
  have hroot : G.blockId ∈ t.fork.packs := asker.good.inv.last_mem
  have horder : ParentsFirst cfg.crypto [G.blockId] (rest ++ later) := by
    refine hfirst.append (hparents.mono fun a ha => ?_)
    obtain ⟨b, hb, rfl⟩ := List.mem_map.1 ha
    rcases (hmem b).1 hb with rfl | hb
    · exact List.mem_append_right _ List.mem_cons_self
    · exact List.mem_append_left _ (List.mem_map_of_mem hb)
  obtain ⟨hend, hpacks⟩ := asker.deliver hid .genesis hgood htime
    (fun b hb => (List.mem_append.1 hb).elim (hpath b) (hlater b))
    (fun a ha => List.mem_singleton.1 ha ▸ hroot) horder htop hleave
  have hnum : ∀ {u : ChainState}, Delivered cfg G g blocks u → u.headPack.blockNum = u.blockHead.num :=
    fun hu => hu.good.inv.num _ hu.good.headPack_mem
  have hknown : ∀ b ∈ s.path, b.id cfg.crypto ∈ (deliver cfg (rest ++ later) t).fork.packs := fun b hb => by
    rcases (hmem b).1 hb with rfl | hb
    · exact (hpacks _).2 (.inl hroot)
    · exact (hpacks _).2 (.inr ⟨b, List.mem_append_left _ hb, rfl⟩)
  have hserver : s.headPack.blockNum = s.blockHead.num := server.inv.num _ server.headPack_mem
  have hhead : max t.headPack.blockNum s.headPack.blockNum ≤
      (deliver cfg (rest ++ later) t).headPack.blockNum := by
    rw [hnum hend, hnum asker, hserver]
    refine max_le (hend.highest _ ((hpacks _).2 (.inl asker.good.headPack_mem))) (hend.highest _ ?_)
    have hblock := hknown _ (server.path_eq.2 _ (.refl server.headPack_mem))
    rwa [server.inv.id _ server.headPack_mem] at hblock
  refine ⟨⟨hend, hknown, hhead⟩, fun hnil => le_antisymm ?_ hhead⟩
  subst hnil
  rw [hnum hend, hnum asker]
  rcases (hpacks _).1 hend.good.headPack_mem with hold | ⟨b, hb, heq⟩
  · exact le_max_of_le_left (asker.highest _ hold)
  · rw [List.append_nil] at hb
    refine le_max_of_le_right ?_
    rw [← heq, BlockHeader.id_num]
    obtain ⟨i, hget⟩ := List.getElem?_of_mem (List.mem_reverse.2 ((hmem b).2 (.inr hb)))
    have hi := (List.getElem?_eq_some_iff.1 hget).1
    rw [List.length_reverse, server.path_numbered.1] at hi
    rw [server.path_numbered.2.2 i b hget]
    exact hi

/-- A handshake that is taken, of a peer that is behind, sets what is to be sent. -/
theorem acceptHandshake_blocklist (node : NodeConfig) {chain : ChainView (Except Fault)} (now : ℤ)
    {c : Connection} {m : HandshakeMessage} {list : List SignedBlock}
    (hbehind : m.lastIrreversibleBlockNum < chain.lastIrreversibleBlockNum)
    (hlist : chain.getSyncBlocklist m.lastIrreversibleBlockNum = .ok list) :
    (c.acceptHandshake node chain now m).1.pendingBlockList = list := by
  unfold Connection.acceptHandshake
  simp only [if_pos hbehind, Connection.sendBlocklist, hlist]
  split_ifs
  · cases hsend : Connection.sendHandshake { c with nodeId := m.nodeId, pendingBlockList := list } node
      chain now with
    | ok c' =>
      obtain ⟨handshake, -, hsend⟩ := bind_eq_ok.1 hsend
      obtain rfl := Except.ok.inj hsend
      rfl
    | error e => rfl
  · rfl

/-- What comes to the end of `handle_message`. -/
theorem handleHandshake_suits {node : NodeConfig} {chain : ChainView (Except Fault)} {now : ℤ}
    {c : Connection} {others : List Connection} {m : HandshakeMessage} (hvalid : node.isValid m = true)
    (hfirst : m.generation = 1) (hsuits : Suits node m)
    (honly : others.any (c.duplicateOf · m) = false) :
    c.handleHandshake node chain now others m =
      ({ c with connecting := false } : Connection).acceptHandshake node chain now m := by
  have honly' : others.any (Connection.duplicateOf { c with connecting := false } · m) = false := honly
  unfold Connection.handleHandshake
  rw [hvalid]
  simp only [Bool.not_true, Bool.false_eq_true, if_false]
  rw [if_neg (not_not.2 hfirst), if_neg hsuits.nodeId, if_neg, if_neg (not_not.2 hsuits.chainId), if_neg]
  · exact fun hversion => hversion.1 (hsuits.networkVersion hversion.2)
  · rw [honly']
    exact fun hdup => Bool.false_ne_true hdup.2

end Asking

/-! ## Three blocks of one builder -/

/-- A node with this id, on the chain of its default id. -/
def plainNode (nodeId : Summary) : NodeConfig :=
  { nodeId, chainId := default, p2pAddress := [49], hashTime := fun _ => default }

def secondChild : SignedBlock :=
  { secondBlock with previous := secondBlock.id headerCrypto, timestamp := 103 }

def secondConfirmation : BlockConfirmation := ⟨secondBlock.id headerCrypto, xmaxContractName, 7⟩

/-- The confirmation makes the second block irreversible when the third one is applied. -/
def afterSecond (g : ChainDb) : ChainState :=
  chainCalls headerConfig [.confirmBlock secondBlock] (.genesis oneBuilderGenesis g)

def afterConfirmation (g : ChainDb) : ChainState :=
  chainCalls headerConfig [.pushConfirmation secondConfirmation] (afterSecond g)

def afterChild (g : ChainDb) : ChainState :=
  chainCalls headerConfig [.confirmBlock secondChild] (afterConfirmation g)

theorem afterConfirmation_careful {g : ChainDb}
    (hlow : ∀ a ∈ (afterSecond g).fork.packs, ((afterSecond g).fork.objs a).lastConfirmedNum < 2)
    (hsecond : secondConfirmation.blockId ∈ (afterSecond g).fork.packs)
    (hup : (afterSecond g).fork.up secondConfirmation.blockId ∈ (afterSecond g).fork.packs)
    (hroot : ((afterSecond g).fork.objs ((afterSecond g).fork.up secondConfirmation.blockId)).irreversibleConfirmed
      = true) : CarefulStep headerConfig (afterSecond g) (afterConfirmation g) :=
  ⟨.pushConfirmation secondConfirmation, fun _ => ⟨hlow, _, .step hsecond (.refl hup), hroot⟩, rfl⟩

/-- What evaluating shows of the three calls: the confirmation is a careful one, and so is the block. -/
def ChildCareful (g : ChainDb) : Prop :=
  ((∀ a ∈ (afterSecond g).fork.packs, ((afterSecond g).fork.objs a).lastConfirmedNum < 2) ∧
    secondConfirmation.blockId ∈ (afterSecond g).fork.packs ∧
    (afterSecond g).fork.up secondConfirmation.blockId ∈ (afterSecond g).fork.packs ∧
    ((afterSecond g).fork.objs ((afterSecond g).fork.up secondConfirmation.blockId)).irreversibleConfirmed =
      true) ∧
  (afterConfirmation g).ExtendOk

instance (g : ChainDb) : Decidable (ChildCareful g) := by
  unfold ChildCareful
  infer_instance

theorem ChildCareful.nodeRun {g : ChainDb} (h : ChildCareful g) :
    ∃ log, NodeRun headerConfig logFormat oneBuilderGenesis g (afterChild g) log := by
  obtain ⟨⟨hlow, hsecond, hup, hroot⟩, hextend⟩ := h
  exact ⟨_, .call (.call (.call .genesis ⟨.confirmBlock secondBlock, secondBlock_careful g, rfl⟩)
    (afterConfirmation_careful hlow hsecond hup hroot))
    ⟨.confirmBlock secondChild, hextend, rfl⟩⟩

/-- The second block is irreversible, and `block_head` is the third. -/
theorem handshake_speaks_for_chain_second :
    ∃ g log m, oneBuilderDb = .ok g ∧
      NodeRun headerConfig logFormat oneBuilderGenesis g (afterChild g) log ∧
      (plainNode default).setup (nodeView headerConfig logFormat (afterChild g) log) 5 {} = .ok m ∧
      Truthful headerCrypto (afterChild g) m ∧ m.headNum = 3 ∧ m.lastIrreversibleBlockNum = 2 ∧
      m.lastIrreversibleBlockId = secondBlock.id headerCrypto := by
  obtain ⟨g, hg, hcareful, hnum, hhead⟩ := exists_ok_of_eval (x := oneBuilderDb)
    (P := fun g => ChildCareful g ∧ (afterChild g).headPack.blockNum = 3 ∧
      (afterChild g).sink.chainLog.head? = some secondBlock ∧
        (afterChild g).sink.lastIrreversibleBlockNum ≠ 0) (by decide +kernel)
  obtain ⟨log, hrun⟩ := hcareful.nodeRun
  obtain ⟨m, hm, htruth, -⟩ := handshake_speaks_for_chain (plainNode default) hrun
  obtain ⟨b, hb, hlast, hid⟩ := htruth.last hhead.2
  obtain rfl := Option.some.inj (hhead.1.symm.trans hb)
  exact ⟨g, log, m, hg, hrun, hm, htruth, htruth.headNum.trans hnum, hlast, hid⟩

end XmaxChain
