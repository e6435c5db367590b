import XmaxChain.MainChain

/-!
# Handshakes

The one who connects sends a handshake, and the other answers the first one that it gets. A handshake
says who sends it, on which chain, and up to which block; an end of a connection that it does not suit
tells the other to leave. Two nodes that connect to each other get two connections, and one of these
they leave: that with the later times, which both of them know.
-/

namespace XmaxChain

/-- The times are those of `system_clock`, in nanoseconds. -/
structure HandshakeMessage where
  networkVersion : ℤ := 0
  chainId : Summary := default
  nodeId : Summary := default
  key : PublicKey := 0
  time : ℤ := 0
  token : Summary := default
  sig : Signature := 0
  p2pAddress : Bytes := []
  lastIrreversibleBlockNum : ℕ := 0
  lastIrreversibleBlockId : Summary := default
  headNum : ℕ := 0
  headId : Summary := default
  os : Bytes := []
  agent : Bytes := []
  generation : ℤ := 0
deriving DecidableEq, Repr

inductive LeaveReason
  | noReason | self | duplicate | wrongChain | wrongVersion | forked | unlinkable | badTransaction
  | validation | benignOther | fatalOther | authentication
deriving DecidableEq, Repr

structure LeaveMessage where
  reason : LeaveReason := .noReason
  nodeId : Summary := default
deriving DecidableEq, Repr

/-- The messages that connections are made and left with. -/
inductive SessionMessage
  | handshake (m : HandshakeMessage)
  | leave (m : LeaveMessage)
deriving DecidableEq, Repr

/-- What a node says of itself. `hashTime` is `fc::sha256::hash` of a time. -/
structure NodeConfig where
  nodeId : Summary
  chainId : Summary
  networkVersion : ℤ := 0
  networkVersionMatch : Bool := false
  p2pAddress : Bytes
  agent : Bytes := []
  hashTime : ℤ → Summary

/-- What is asked of the chain. None of its functions throws `unknown_block_exception`. -/
structure ChainView (m : Type → Type) where
  headBlockNum : ℕ
  lastIrreversibleBlockNum : ℕ
  blockIdFromNum : ℕ → m Summary
  getSyncBlocklist : ℕ → m (List SignedBlock)

/-- The id of the block with this number, if there is to be one. -/
def ChainView.idOf {m : Type → Type} [Monad m] (chain : ChainView m) (num : ℕ) : m Summary :=
  if num ≠ 0 then chain.blockIdFromNum num else pure default

def hexDigit (n : ℕ) : ℕ := if n < 10 then 48 + n else 87 + n

/-- The first seven digits of an id. -/
def idDigits (id : Summary) : Bytes := (List.range 7).map fun i => hexDigit (id.num / 16 ^ (7 - i) % 16)

namespace NodeConfig

variable (cfg : NodeConfig)

/-- The address that a node gives itself, with a piece of its id. -/
def p2pText : Bytes := cfg.p2pAddress ++ [32, 45, 32] ++ idDigits cfg.nodeId

/-- Nothing is signed yet. -/
def signCompact (_signer : PublicKey) (_digest : Summary) : Signature := 0

def linux : Bytes := [108, 105, 110, 117, 120]

/-- `handshake_initializer::setup`. -/
def setup {m : Type → Type} [Monad m] (chain : ChainView m) (time : ℤ) (handshake : HandshakeMessage) :
    m HandshakeMessage := do
  let token := cfg.hashTime time
  let sig := signCompact handshake.key token
  let libId ← chain.idOf chain.lastIrreversibleBlockNum
  let headId ← chain.idOf chain.headBlockNum
  return { handshake with
    time
    networkVersion := cfg.networkVersion
    chainId := cfg.chainId
    nodeId := cfg.nodeId
    token := if sig = 0 then default else token
    sig
    p2pAddress := cfg.p2pText
    os := linux
    agent := cfg.agent
    lastIrreversibleBlockNum :=
      if chain.lastIrreversibleBlockNum ≠ 0 then chain.lastIrreversibleBlockNum else 1
    lastIrreversibleBlockId := libId
    headNum := chain.headBlockNum
    headId }

def isValid (msg : HandshakeMessage) : Bool :=
  msg.lastIrreversibleBlockNum ≤ msg.headNum && msg.p2pAddress ≠ [] && msg.os ≠ [] &&
    !((msg.sig ≠ 0 || msg.token ≠ default) && msg.token ≠ cfg.hashTime msg.time)

end NodeConfig

/-- The part of `connection_xmax` that handshakes are about. An accepted connection has no address of
its peer. -/
structure Connection where
  peerAddr : Bytes := []
  isOpen : Bool := true
  connecting : Bool := true
  lastHandshakeRecv : HandshakeMessage := {}
  lastHandshakeSent : HandshakeMessage := {}
  sentHandshakeCount : ℤ := 0
  nodeId : Summary := default
  noRetry : LeaveReason := .noReason
  pendingBlockList : List SignedBlock := []

namespace Connection

variable (c check : Connection)

def connected : Bool := c.isOpen && !c.connecting

def connectingClient : Bytes :=
  [99, 111, 110, 110, 101, 99, 116, 105, 110, 103, 32, 99, 108, 105, 101, 110, 116]

def peerName : Bytes :=
  if c.lastHandshakeRecv.p2pAddress ≠ [] then c.lastHandshakeRecv.p2pAddress
  else if c.peerAddr ≠ [] then c.peerAddr
  else connectingClient

/-- The connection is made anew after this, so that only why it was left stays, whose it was and what
was to be sent. -/
def close : Connection :=
  { c with
    isOpen := false
    connecting := false
    sentHandshakeCount := 0
    lastHandshakeRecv := {}
    lastHandshakeSent := {} }

def sendHandshake {m : Type → Type} [Monad m] (cfg : NodeConfig) (chain : ChainView m) (time : ℤ) :
    m Connection := do
  let handshake ← cfg.setup chain time c.lastHandshakeSent
  return { c with
    lastHandshakeSent := { handshake with generation := c.sentHandshakeCount + 1 }
    sentHandshakeCount := c.sentHandshakeCount + 1 }

/-- The test that `c`, on which `msg` came, makes of another connection of the node. -/
def duplicateOf (msg : HandshakeMessage) : Bool :=
  check.connected && check.peerName = msg.p2pAddress &&
    !decide (asI64 (msg.time + c.lastHandshakeSent.time) ≤
      asI64 (check.lastHandshakeSent.time + check.lastHandshakeRecv.time))

/-- `_send_blocklist_impl`, which replaces what was to be sent. What it throws is caught. -/
def sendBlocklist (chain : ChainView (Except Fault)) (peerLiblock : ℕ) : Connection :=
  match chain.getSyncBlocklist peerLiblock with
  | .ok blockList => { c with pendingBlockList := blockList }
  | .error _ => c

/-- The end of `handle_message`. What `send_handshake` throws closes the connection. -/
def acceptHandshake (cfg : NodeConfig) (chain : ChainView (Except Fault)) (time : ℤ)
    (msg : HandshakeMessage) : Connection × List SessionMessage :=
  let c := { c with nodeId := msg.nodeId }
  let c := if msg.lastIrreversibleBlockNum < chain.lastIrreversibleBlockNum then
    c.sendBlocklist chain msg.lastIrreversibleBlockNum else c
  if c.sentHandshakeCount = 0 then
    match c.sendHandshake cfg chain time with
    | .ok c => ({ c with lastHandshakeRecv := msg }, [.handshake c.lastHandshakeSent])
    | .error _ => (c.close, [])
  else ({ c with lastHandshakeRecv := msg }, [])

/-- `handle_message` of a handshake, with what is sent. `others` are the other connections of the node;
no peer is refused by `authenticate_peer` yet. -/
def handleHandshake (cfg : NodeConfig) (chain : ChainView (Except Fault)) (time : ℤ)
    (others : List Connection) (msg : HandshakeMessage) : Connection × List SessionMessage :=
  if !cfg.isValid msg then (c, [.leave { reason := .fatalOther }])
  else
    let c := { c with connecting := false }
    if msg.generation ≠ 1 then ({ c with lastHandshakeRecv := msg }, [])
    else if msg.nodeId = cfg.nodeId then (c, [.leave { reason := .self }])
    else if (c.peerAddr = [] ∨ c.lastHandshakeRecv.nodeId = default) ∧
        others.any (c.duplicateOf · msg) = true then
      ({ c with noRetry := .duplicate }, [.leave { reason := .duplicate, nodeId := cfg.nodeId }])
    else if msg.chainId ≠ cfg.chainId then (c, [.leave { reason := .wrongChain }])
    else if msg.networkVersion ≠ cfg.networkVersion ∧ cfg.networkVersionMatch = true then
      (c, [.leave { reason := .wrongVersion }])
    else c.acceptHandshake cfg chain time msg

def handleLeave (msg : LeaveMessage) : Connection :=
  let c := { c with noRetry := msg.reason }
  let c := if msg.reason = .duplicate then { c with nodeId := msg.nodeId } else c
  c.close

def handleMessage (cfg : NodeConfig) (chain : ChainView (Except Fault)) (time : ℤ)
    (others : List Connection) : SessionMessage → Connection × List SessionMessage
  | .handshake msg => c.handleHandshake cfg chain time others msg
  | .leave msg => (c.handleLeave msg, [])

end Connection

end XmaxChain
