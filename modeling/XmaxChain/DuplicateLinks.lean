import XmaxChain.Handshakes

/-!
# Two connections between two nodes

Any number of nodes connect to one another, in any order and as often as they like. However the messages
are delayed, and whatever connections are closed meanwhile, two nodes never leave all of their
connections as duplicates: of those on which both have sent a handshake, the one with the least sum of
the two times is kept.
-/

namespace XmaxChain

inductive Side
  | opener | accepter
deriving DecidableEq, Repr

def Side.other : Side → Side
  | .opener => .accepter
  | .accepter => .opener

/-- A connection with both of its ends, and what is on the way to each. `sent` is no part of the
program: it keeps the handshake that each of the two has sent. -/
structure Link (N : Type) where
  node : Side → N
  ends : Side → Connection
  inFlight : Side → List SessionMessage
  sent : Side → Option HandshakeMessage

section Network

variable {N : Type} [DecidableEq N]

/-- The other connections of the node that has the end `s` of the link `i`. -/
def otherConnections (links : List (Link N)) (i : ℕ) (s : Side) (x : N) : List Connection :=
  links.zipIdx.flatMap fun p => ([.opener, .accepter] : List Side).filterMap fun s' =>
    if p.1.node s' = x ∧ ¬ (p.2 = i ∧ s' = s) then some (p.1.ends s') else none

variable (cfg : N → NodeConfig)

/-- What happens in a network. A node that connects sends its handshake; a message that is handled is the
next one on its way; and an end is closed, for any reason, with some of what it sent lost. -/
inductive NetEvent (N : Type)
  | connect (opener accepter : N) (peerAddr : Bytes) (chain : ChainView (Except Fault)) (time : ℤ)
  | deliver (i : ℕ) (s : Side) (chain : ChainView (Except Fault)) (time : ℤ)
  | close (i : ℕ) (s : Side) (left : ℕ)

/-- The callback of `async_connect`, and that of `async_accept` at the other node. -/
def Link.open (a b : N) (peerAddr : Bytes) (chain : ChainView (Except Fault)) (time : ℤ) :
    Except Fault (Link N) := do
  let c : Connection ← Connection.sendHandshake { peerAddr } (cfg a) chain time
  return {
    node | .opener => a | .accepter => b
    ends | .opener => c | .accepter => {}
    inFlight | .opener => [] | .accepter => [.handshake c.lastHandshakeSent]
    sent | .opener => some c.lastHandshakeSent | .accepter => none }

def SessionMessage.handshake? : SessionMessage → Option HandshakeMessage
  | .handshake m => some m
  | .leave _ => none

/-- The end `s` handles the message, and what it sends is on the way then. -/
def Link.handled (l : Link N) (s : Side) (rest : List SessionMessage)
    (r : Connection × List SessionMessage) : Link N :=
  { l with
    ends := Function.update l.ends s r.1
    inFlight := Function.update (Function.update l.inFlight s rest) s.other
      (l.inFlight s.other ++ r.2)
    sent := Function.update l.sent s ((r.2.findSome? (·.handshake?)).or (l.sent s)) }

def Link.closed (l : Link N) (s : Side) (left : ℕ) : Link N :=
  { l with
    ends := Function.update l.ends s (l.ends s).close
    inFlight := Function.update l.inFlight s.other ((l.inFlight s.other).take left) }

/-- The message that an end that is open handles next, and those behind it. -/
def Link.next (l : Link N) (s : Side) : Option (SessionMessage × List SessionMessage) :=
  if (l.ends s).isOpen then
    match l.inFlight s with
    | [] => none
    | msg :: rest => some (msg, rest)
  else none

def deliverNext (links : List (Link N)) (i : ℕ) (s : Side) (chain : ChainView (Except Fault))
    (time : ℤ) : List (Link N) :=
  match links[i]? with
  | none => links
  | some l =>
    match l.next s with
    | none => links
    | some (msg, rest) =>
      links.set i (l.handled s rest ((l.ends s).handleMessage (cfg (l.node s)) chain time
        (otherConnections links i s (l.node s)) msg))

def NetEvent.apply (links : List (Link N)) (e : NetEvent N) : List (Link N) :=
  match e with
  | .connect a b peerAddr chain time => links ++ (Link.open cfg a b peerAddr chain time).toOption.toList
  | .deliver i s chain time => deliverNext cfg links i s chain time
  | .close i s left => links.modify i fun l => l.closed s left

/-- A clock shows a time since 1970 and before 2116, and what is connected to has a host and a port,
without a blank. -/
def NetEvent.Sane : NetEvent N → Prop
  | .connect _ _ peerAddr _ time => (32 ∉ peerAddr ∧ peerAddr ≠ []) ∧ 0 ≤ time ∧ time < 2 ^ 62
  | .deliver _ _ _ time => 0 ≤ time ∧ time < 2 ^ 62
  | .close _ _ _ => True

/-- Runs of a network that begins without connections. -/
inductive NetRun : List (Link N) → Prop
  | start : NetRun []
  | step {links : List (Link N)} (run : NetRun links) (e : NetEvent N) (sane : e.Sane) :
    NetRun (e.apply cfg links)

end Network

variable {N : Type} {cfg : N → NodeConfig} {links : List (Link N)} {l l' : Link N}

/-! ## What a handshake is answered with -/

/-- What every handshake of a node says, whatever the state of its chain. -/
structure SentBy (cfg : NodeConfig) (m : HandshakeMessage) : Prop where
  nodeId : m.nodeId = cfg.nodeId
  chainId : m.chainId = cfg.chainId
  networkVersion : m.networkVersion = cfg.networkVersion
  p2pAddress : m.p2pAddress = cfg.p2pText
  generation : m.generation = 1

/-- What a node has found a handshake to say, before it takes it. -/
structure Suits (cfg : NodeConfig) (m : HandshakeMessage) : Prop where
  nodeId : m.nodeId ≠ cfg.nodeId
  chainId : m.chainId = cfg.chainId
  networkVersion : cfg.networkVersionMatch = true → m.networkVersion = cfg.networkVersion

section Answers

variable {node : NodeConfig} {chain : ChainView (Except Fault)} {time : ℤ} {others : List Connection}
  {c : Connection} {msg : HandshakeMessage}

/-- The handler's answers. `recorded` is the connection on which the handshake is taken, but for the
list of blocks and the id of the peer, and `sent` is what it says itself. -/
inductive Answer (node : NodeConfig) (time : ℤ) (others : List Connection) (c : Connection)
    (msg : HandshakeMessage) : Connection × List SessionMessage → Prop
  | refused (c' : Connection) (reason : LeaveReason) (hreason : reason ≠ .duplicate)
      (hc : c' = c ∨ c' = { c with connecting := false }) : Answer node time others c msg
        (c', [.leave { reason }])
  | duplicate (check : Connection) (hmem : check ∈ others) (hdup : c.duplicateOf check msg = true) :
      Answer node time others c msg ({ c with connecting := false, noRetry := .duplicate },
        [.leave { reason := .duplicate, nodeId := node.nodeId }])
  | failed (c' : Connection) (hopen : c'.isOpen = false) (hrecv : c'.lastHandshakeRecv = {})
      (hretry : c'.noRetry = c.noRetry) (haddr : c'.peerAddr = c.peerAddr) :
      Answer node time others c msg (c', [])
  | replied (recorded : Connection) (sent : HandshakeMessage) (hsuits : Suits node msg)
      (hcount : c.sentHandshakeCount = 0) (hsent : SentBy node sent) (htime : sent.time = time)
      (hrec : recorded = { c with
        connecting := false
        nodeId := recorded.nodeId
        pendingBlockList := recorded.pendingBlockList
        lastHandshakeSent := sent
        sentHandshakeCount := 1
        lastHandshakeRecv := msg }) : Answer node time others c msg (recorded, [.handshake sent])
  | taken (recorded : Connection) (hsuits : msg.generation = 1 → Suits node msg)
      (hcount : msg.generation = 1 → c.sentHandshakeCount ≠ 0)
      (hrec : recorded = { c with
        connecting := false
        nodeId := recorded.nodeId
        pendingBlockList := recorded.pendingBlockList
        lastHandshakeRecv := msg }) : Answer node time others c msg (recorded, [])

theorem setup_eq_ok {handshake sent : HandshakeMessage}
    (h : node.setup chain time handshake = .ok sent) :
    SentBy node { sent with generation := 1 } ∧ sent.time = time := by
  obtain ⟨libId, -, h⟩ := bind_eq_ok.1 h
  obtain ⟨headId, -, h⟩ := bind_eq_ok.1 h
  cases h
  exact ⟨⟨rfl, rfl, rfl, rfl, rfl⟩, rfl⟩

theorem sendHandshake_eq_ok {c' : Connection} (h : c.sendHandshake node chain time = .ok c')
    (hcount : c.sentHandshakeCount = 0) : ∃ sent, SentBy node sent ∧ sent.time = time ∧
      c' = { c with lastHandshakeSent := sent, sentHandshakeCount := 1 } := by
  obtain ⟨handshake, hsetup, h⟩ := bind_eq_ok.1 h
  obtain ⟨hsent, htime⟩ := setup_eq_ok hsetup
  rw [hcount] at h
  exact ⟨_, hsent, htime, (Except.ok.inj h).symm⟩

theorem sendBlocklist_eq (peerLiblock : ℕ) : ∃ blockList,
    c.sendBlocklist chain peerLiblock = { c with pendingBlockList := blockList } := by
  unfold Connection.sendBlocklist
  split
  · exact ⟨_, rfl⟩
  · exact ⟨c.pendingBlockList, rfl⟩

theorem handleHandshake_answer :
    Answer node time others c msg (c.handleHandshake node chain time others msg) := by
  unfold Connection.handleHandshake
  by_cases hvalid : node.isValid msg = true
  swap
  · rw [Bool.not_eq_true] at hvalid
    rw [hvalid]
    exact .refused c .fatalOther (by decide) (.inl rfl)
  rw [hvalid]
  simp only [Bool.not_true, Bool.false_eq_true, if_false]
  by_cases hgen : msg.generation = 1
  swap
  · rw [if_pos hgen]
    exact .taken _ (fun h => absurd h hgen) (fun h => absurd h hgen) rfl
  rw [if_neg (not_not.2 hgen)]
  split_ifs with hself hdup hchain hversion
  · exact .refused _ .self (by decide) (.inr rfl)
  · obtain ⟨check, hmem, htest⟩ := List.any_eq_true.1 hdup.2
    exact .duplicate check hmem htest
  · exact .refused _ .wrongChain (by decide) (.inr rfl)
  · exact .refused _ .wrongVersion (by decide) (.inr rfl)
  have hsuits : Suits node msg :=
    ⟨hself, not_not.1 hchain, fun hmatch => not_not.1 fun hne => hversion ⟨hne, hmatch⟩⟩
  unfold Connection.acceptHandshake
  -- the list of blocks is all that the peer's last irreversible block is looked at for
  obtain ⟨blockList, hlist⟩ : ∃ blockList,
      (if msg.lastIrreversibleBlockNum < chain.lastIrreversibleBlockNum then
        ({ c with connecting := false, nodeId := msg.nodeId } : Connection).sendBlocklist chain
          msg.lastIrreversibleBlockNum
        else { c with connecting := false, nodeId := msg.nodeId }) =
      { c with connecting := false, nodeId := msg.nodeId, pendingBlockList := blockList } := by
    split_ifs
    · exact sendBlocklist_eq _
    · exact ⟨c.pendingBlockList, rfl⟩
  simp only [hlist]
  split_ifs with hcount
  · cases hsend : Connection.sendHandshake
      { c with connecting := false, nodeId := msg.nodeId, pendingBlockList := blockList } node chain time with
    | error e => exact .failed _ rfl rfl rfl rfl
    | ok c' =>
      obtain ⟨sent, hsent, htime, rfl⟩ := sendHandshake_eq_ok hsend hcount
      exact .replied _ sent hsuits hcount hsent htime rfl
  · exact .taken _ (fun _ => hsuits) (fun _ => hcount) rfl

end Answers

/-! ## One connection -/

/-- When an end has sent its handshake, by its clock. -/
def Link.times (l : Link N) (s : Side) : Option ℤ := (l.sent s).map (·.time)

/-- What holds of a connection and of what is on its way. -/
structure LinkOk (cfg : N → NodeConfig) (l : Link N) : Prop where
  opened : (l.sent .opener).isSome
  sentBy : ∀ s m, l.sent s = some m → SentBy (cfg (l.node s)) m
  clock : ∀ s m, l.sent s = some m → 0 ≤ m.time ∧ m.time < 2 ^ 62
  address : ∀ s, 32 ∉ (l.ends s).peerAddr
  last : ∀ s, (l.ends s).isOpen = true → (l.ends s).lastHandshakeSent = (l.sent s).getD {} ∧
    (l.ends s).sentHandshakeCount = if (l.sent s).isSome then 1 else 0
  flying : ∀ s m, .handshake m ∈ l.inFlight s → l.sent s.other = some m
  recorded : ∀ s, (l.ends s).lastHandshakeRecv = {} ∨
    (l.sent s.other = some (l.ends s).lastHandshakeRecv ∧
      Suits (cfg (l.node s)) (l.ends s).lastHandshakeRecv ∧ (l.sent s).isSome)

/-- A connection as it was and as it is later. -/
structure Link.Grows (l l' : Link N) : Prop where
  node : l'.node = l.node
  sent : ∀ s m, l.sent s = some m → l'.sent s = some m

theorem Link.Grows.times {l l' : Link N} (h : l.Grows l') (s : Side) (t : ℤ) (ht : l.times s = some t) :
    l'.times s = some t := by
  obtain ⟨m, hm, rfl⟩ := Option.map_eq_some_iff.1 ht
  rw [Link.times, h.sent s m hm]
  rfl

theorem LinkOk.clock_times (h : LinkOk cfg l) (s : Side) (t : ℤ) (ht : l.times s = some t) :
    0 ≤ t ∧ t < 2 ^ 62 := by
  obtain ⟨m, hm, rfl⟩ := Option.map_eq_some_iff.1 ht
  exact h.clock s m hm

theorem LinkOk.last_time (h : LinkOk cfg l) {s : Side} (hopen : (l.ends s).isOpen = true) :
    (l.ends s).lastHandshakeSent.time = (l.times s).getD 0 := by
  rw [(h.last s hopen).1, Link.times]
  cases l.sent s <;> rfl

/-- The times of the handshakes that were sent, added up. -/
def Link.sum (l : Link N) : ℤ := (l.times .opener).getD 0 + (l.times .accepter).getD 0

theorem Link.sum_eq (l : Link N) (s : Side) : l.sum = (l.times s.other).getD 0 + (l.times s).getD 0 := by
  cases s
  · exact Int.add_comm _ _
  · rfl

@[simp] theorem Side.other_other (s : Side) : s.other.other = s := by cases s <;> rfl

theorem Side.other_ne (s : Side) : s.other ≠ s := by cases s <;> decide

theorem Side.eq_or (s s' : Side) : s' = s ∨ s' = s.other := by cases s <;> cases s' <;> decide

theorem LinkOk.getD_nonneg (h : LinkOk cfg l) (s : Side) : 0 ≤ (l.times s).getD 0 := by
  cases ht : l.times s with
  | none => exact le_rfl
  | some t => exact (h.clock_times s t ht).1

theorem LinkOk.getD_lt (h : LinkOk cfg l) (s : Side) : (l.times s).getD 0 < 2 ^ 62 := by
  cases ht : l.times s with
  | none => decide
  | some t => exact (h.clock_times s t ht).2

theorem LinkOk.asI64_sum (h : LinkOk cfg l) : asI64 l.sum = l.sum := by
  have := h.getD_nonneg .opener
  have := h.getD_nonneg .accepter
  have := h.getD_lt .opener
  have := h.getD_lt .accepter
  exact asI64_of_small (by unfold Link.sum; omega) (by unfold Link.sum; omega)

theorem Link.Grows.sum_le (h : l.Grows l') (hl' : LinkOk cfg l') : l.sum ≤ l'.sum := by
  have hle : ∀ s, (l.times s).getD 0 ≤ (l'.times s).getD 0 := fun s => by
    cases ht : l.times s with
    | none => exact hl'.getD_nonneg s
    | some t => rw [h.times s t ht]
  exact add_le_add (hle _) (hle _)

theorem Link.open_ok {a b : N} {peerAddr : Bytes} {chain : ChainView (Except Fault)} {time : ℤ}
    (h : Link.open cfg a b peerAddr chain time = .ok l) (haddr : 32 ∉ peerAddr)
    (hclock : 0 ≤ time ∧ time < 2 ^ 62) : LinkOk cfg l := by
  obtain ⟨c, hc, h⟩ := bind_eq_ok.1 h
  obtain ⟨sent, hsent, htime, rfl⟩ := sendHandshake_eq_ok hc rfl
  cases h
  constructor
  · rfl
  · rintro (_ | _) m ⟨⟩
    exact hsent
  · rintro (_ | _) m ⟨⟩
    exact htime ▸ hclock
  · rintro (_ | _)
    · exact haddr
    · exact List.not_mem_nil
  · rintro (_ | _) -
    · exact ⟨rfl, rfl⟩
    · exact ⟨rfl, rfl⟩
  · rintro (_ | _) m hm
    · cases hm
    · cases List.mem_singleton.1 hm
      rfl
  · rintro (_ | _) <;> exact .inl rfl

section Handled

variable {s : Side} {rest : List SessionMessage} {time : ℤ} {r : Connection × List SessionMessage}

@[simp] theorem handled_ends : (l.handled s rest r).ends = Function.update l.ends s r.1 := rfl

@[simp] theorem handled_node : (l.handled s rest r).node = l.node := rfl

theorem handled_inFlight_self : (l.handled s rest r).inFlight s = rest := by
  show Function.update _ _ _ _ = _
  rw [Function.update_of_ne (Side.other_ne s).symm, Function.update_self]

theorem handled_inFlight_other :
    (l.handled s rest r).inFlight s.other = l.inFlight s.other ++ r.2 :=
  Function.update_self ..

theorem handled_sent_quiet (hquiet : ∀ m, .handshake m ∉ r.2) : (l.handled s rest r).sent = l.sent := by
  have hnone : r.2.findSome? (·.handshake?) = none := by
    rw [List.findSome?_eq_none_iff]
    intro msg hmsg
    cases msg with
    | handshake m => exact absurd hmsg (hquiet m)
    | leave m => rfl
  show Function.update l.sent s _ = l.sent
  rw [hnone, Option.none_or, Function.update_eq_self]

theorem mem_handled_inFlight {s' : Side} {m msg : SessionMessage} (hfly : l.inFlight s = msg :: rest)
    (h : m ∈ (l.handled s rest r).inFlight s') : m ∈ l.inFlight s' ∨ s' = s.other ∧ m ∈ r.2 := by
  rcases Side.eq_or s s' with rfl | rfl
  · rw [handled_inFlight_self] at h
    exact .inl (hfly ▸ List.mem_cons_of_mem _ h)
  · rw [handled_inFlight_other] at h
    exact (List.mem_append.1 h).imp_right fun h => ⟨rfl, h⟩

/-- An answer without a handshake, from an end that is closed or that has sent what it had. -/
theorem LinkOk.handled_quiet (h : LinkOk cfg l) {msg : SessionMessage} (hfly : l.inFlight s = msg :: rest)
    (hquiet : ∀ m, .handshake m ∉ r.2) (haddr : r.1.peerAddr = (l.ends s).peerAddr)
    (hlast : r.1.isOpen = true → (l.ends s).isOpen = true ∧
      r.1.lastHandshakeSent = (l.ends s).lastHandshakeSent ∧
      r.1.sentHandshakeCount = (l.ends s).sentHandshakeCount)
    (hrec : r.1.lastHandshakeRecv = {} ∨ r.1.lastHandshakeRecv = (l.ends s).lastHandshakeRecv ∨
      (.handshake r.1.lastHandshakeRecv = msg ∧ Suits (cfg (l.node s)) r.1.lastHandshakeRecv ∧
        (l.sent s).isSome)) :
    LinkOk cfg (l.handled s rest r) ∧ (l.handled s rest r).sent = l.sent := by
  have hsent : (l.handled s rest r).sent = l.sent := handled_sent_quiet hquiet
  refine ⟨⟨?_, ?_, ?_, fun s' => ?_, fun s' hopen' => ?_, fun s' m hm => ?_, fun s' => ?_⟩, hsent⟩
  · rw [hsent]
    exact h.opened
  · rw [hsent]
    exact h.sentBy
  · rw [hsent]
    exact h.clock
  · rw [handled_ends, Function.update_apply]
    split_ifs with hs
    · rw [haddr]
      exact h.address s
    · exact h.address s'
  · rw [handled_ends] at hopen' ⊢
    rw [hsent]
    rcases eq_or_ne s' s with rfl | hs
    · rw [Function.update_self] at hopen' ⊢
      obtain ⟨hopen, heq, hcount⟩ := hlast hopen'
      rw [heq, hcount]
      exact h.last s' hopen
    · rw [Function.update_of_ne hs] at hopen' ⊢
      exact h.last s' hopen'
  · rw [hsent]
    rcases mem_handled_inFlight hfly hm with hold | ⟨-, hnew⟩
    · exact h.flying s' m hold
    · exact absurd hnew (hquiet m)
  · rw [hsent, handled_node, handled_ends, Function.update_apply]
    split_ifs with hs
    · rw [hs]
      rcases hrec with hrec | hrec | ⟨hmsg, hsuits, hsome⟩
      · exact .inl hrec
      · rw [hrec]
        exact h.recorded s
      · have hfrom := h.flying s _ (by rw [hfly, hmsg]; exact List.mem_cons_self)
        exact .inr ⟨hfrom, hsuits, hsome⟩
    · exact h.recorded s'

/-- An answer with a handshake. -/
theorem LinkOk.handled_reply (h : LinkOk cfg l) {msg sent : HandshakeMessage} {recorded : Connection}
    (hfly : l.inFlight s = .handshake msg :: rest) (hnone : l.sent s = none)
    (hclock : 0 ≤ sent.time ∧ sent.time < 2 ^ 62) (hsent : SentBy (cfg (l.node s)) sent)
    (hsuits : Suits (cfg (l.node s)) msg) (haddr : recorded.peerAddr = (l.ends s).peerAddr)
    (hlast : recorded.lastHandshakeSent = sent) (hcount : recorded.sentHandshakeCount = 1)
    (hrec : recorded.lastHandshakeRecv = msg) :
    LinkOk cfg (l.handled s rest (recorded, [.handshake sent])) ∧
      l.Grows (l.handled s rest (recorded, [.handshake sent])) := by
  have hnew : (l.handled s rest (recorded, [.handshake sent])).sent =
    Function.update l.sent s (some sent) := rfl
  have hmono : ∀ s' m, l.sent s' = some m → Function.update l.sent s (some sent) s' = some m := by
    intro s' m hm
    rw [Function.update_apply, if_neg, hm]
    rintro rfl
    rw [hnone] at hm
    cases hm
  refine ⟨⟨?_, fun s' m hm => ?_, fun s' m hm => ?_, fun s' => ?_, fun s' hopen' => ?_,
    fun s' m hm => ?_, fun s' => ?_⟩, rfl, fun s' m hm => hnew ▸ hmono s' m hm⟩
  · obtain ⟨m, hm⟩ := Option.isSome_iff_exists.1 h.opened
    rw [hnew, hmono _ m hm]
    rfl
  · rw [hnew, Function.update_apply] at hm
    rw [handled_node]
    split_ifs at hm with hs
    · cases hm
      rw [hs]
      exact hsent
    · exact h.sentBy s' m hm
  · rw [hnew, Function.update_apply] at hm
    split_ifs at hm
    · cases hm
      exact hclock
    · exact h.clock s' m hm
  · rw [handled_ends, Function.update_apply]
    split_ifs with hs
    · rw [haddr]
      exact h.address s
    · exact h.address s'
  · rw [handled_ends] at hopen' ⊢
    rw [hnew]
    rcases eq_or_ne s' s with rfl | hs
    · rw [Function.update_self, Function.update_self]
      exact ⟨hlast, hcount⟩
    · rw [Function.update_of_ne hs] at hopen' ⊢
      rw [Function.update_of_ne hs]
      exact h.last s' hopen'
  · rw [hnew]
    rcases mem_handled_inFlight hfly hm with hold | ⟨rfl, hadded⟩
    · exact hmono _ _ (h.flying s' m hold)
    · cases List.mem_singleton.1 hadded
      rw [Side.other_other, Function.update_self]
  · rw [hnew, handled_node, handled_ends, Function.update_apply]
    split_ifs with hs
    · have hfrom := h.flying s msg (by rw [hfly]; exact List.mem_cons_self)
      rw [hrec, hs, Function.update_self]
      exact .inr ⟨hmono _ _ hfrom, hsuits, rfl⟩
    · rcases h.recorded s' with hnil | ⟨hfrom, hsuits', hsome⟩
      · exact .inl hnil
      · obtain ⟨m, hm⟩ := Option.isSome_iff_exists.1 hsome
        exact .inr ⟨hmono _ _ hfrom, hsuits', by rw [hmono _ m hm]; rfl⟩

/-- The handshake of the other end, handled. -/
theorem LinkOk.handshake (h : LinkOk cfg l) {msg : HandshakeMessage}
    (hfly : l.inFlight s = .handshake msg :: rest) (hopen : (l.ends s).isOpen = true)
    (hclock : 0 ≤ time ∧ time < 2 ^ 62) {others : List Connection}
    (hanswer : Answer (cfg (l.node s)) time others (l.ends s) msg r) :
    LinkOk cfg (l.handled s rest r) ∧ l.Grows (l.handled s rest r) := by
  have hquiet : (LinkOk cfg (l.handled s rest r) ∧ (l.handled s rest r).sent = l.sent) →
      LinkOk cfg (l.handled s rest r) ∧ l.Grows (l.handled s rest r) :=
    fun ⟨hok, hsent⟩ => ⟨hok, rfl, fun s' m hm => hsent ▸ hm⟩
  have hby := h.sentBy s.other msg (h.flying s msg (by rw [hfly]; exact List.mem_cons_self))
  cases hanswer with
  | refused c' reason _ hc =>
    refine hquiet (h.handled_quiet hfly (by simp) ?_ (fun _ => ⟨hopen, ?_⟩) (.inr (.inl ?_)))
    all_goals rcases hc with rfl | rfl
    all_goals first | rfl | exact ⟨rfl, rfl⟩
  | duplicate check hmem hdup =>
    exact hquiet (h.handled_quiet hfly (by simp) rfl (fun _ => ⟨hopen, rfl, rfl⟩) (.inr (.inl rfl)))
  | failed c' hshut hrecv _ haddr =>
    exact hquiet (h.handled_quiet hfly (by simp) haddr (fun ho => absurd ho (by rw [hshut]; decide))
      (.inl hrecv))
  | replied recorded sent hsuits hcount hsent htime hrec =>
    have hnone : l.sent s = none := by
      have hsome := (h.last s hopen).2
      rw [hcount] at hsome
      cases hm : l.sent s with
      | none => rfl
      | some m =>
        rw [hm] at hsome
        cases hsome
    exact h.handled_reply hfly hnone (htime ▸ hclock) hsent hsuits (by rw [hrec]) (by rw [hrec])
      (by rw [hrec]) (by rw [hrec])
  | taken recorded hsuits hcount hrec =>
    have hsome : (l.sent s).isSome := by
      by_contra hnone
      have heq := (h.last s hopen).2
      rw [if_neg hnone] at heq
      exact hcount hby.generation heq
    have hrecv : recorded.lastHandshakeRecv = msg := by rw [hrec]
    refine hquiet (h.handled_quiet hfly (by simp) (by rw [hrec])
      (fun _ => ⟨hopen, by rw [hrec], by rw [hrec]⟩)
      (.inr (.inr ⟨congrArg _ hrecv, ?_, hsome⟩)))
    rw [hrecv]
    exact hsuits hby.generation

theorem LinkOk.handledMessage (h : LinkOk cfg l) {msg : SessionMessage}
    (hfly : l.inFlight s = msg :: rest) (hopen : (l.ends s).isOpen = true)
    (hclock : 0 ≤ time ∧ time < 2 ^ 62) {chain : ChainView (Except Fault)} {others : List Connection}
    (hr : r = (l.ends s).handleMessage (cfg (l.node s)) chain time others msg) :
    LinkOk cfg (l.handled s rest r) ∧ l.Grows (l.handled s rest r) := by
  cases msg with
  | handshake msg =>
    rw [hr]
    exact h.handshake hfly hopen hclock handleHandshake_answer
  | leave msg =>
    have haddr : r.1.peerAddr = (l.ends s).peerAddr := by
      rw [hr]
      show (Connection.handleLeave _ _).peerAddr = _
      unfold Connection.handleLeave
      split_ifs <;> rfl
    obtain ⟨hok, hsent⟩ : LinkOk cfg (l.handled s rest r) ∧ (l.handled s rest r).sent = l.sent :=
      h.handled_quiet hfly (by rw [hr]; simp [Connection.handleMessage]) haddr
        (fun ho => by rw [hr] at ho; cases ho) (.inl (by rw [hr]; rfl))
    exact ⟨hok, rfl, fun s' m hm => hsent ▸ hm⟩

end Handled

@[simp] theorem closed_ends (s : Side) (left : ℕ) :
    (l.closed s left).ends = Function.update l.ends s (l.ends s).close := rfl

theorem mem_closed_inFlight {s s' : Side} {left : ℕ} {m : SessionMessage}
    (h : m ∈ (l.closed s left).inFlight s') : m ∈ l.inFlight s' := by
  change m ∈ Function.update l.inFlight s.other _ s' at h
  rw [Function.update_apply] at h
  split_ifs at h with hs
  · rw [hs]
    exact List.mem_of_mem_take h
  · exact h

theorem LinkOk.close (h : LinkOk cfg l) (s : Side) (left : ℕ) : LinkOk cfg (l.closed s left) := by
  refine ⟨h.opened, h.sentBy, h.clock, fun s' => ?_, fun s' hopen => ?_,
    fun s' m hm => h.flying s' m (mem_closed_inFlight hm), fun s' => ?_⟩
  all_goals rcases eq_or_ne s' s with rfl | hs
  · rw [closed_ends, Function.update_self]
    exact h.address s'
  · rw [closed_ends, Function.update_of_ne hs]
    exact h.address s'
  · rw [closed_ends, Function.update_self] at hopen
    cases hopen
  · rw [closed_ends, Function.update_of_ne hs] at hopen ⊢
    exact h.last s' hopen
  · rw [closed_ends, Function.update_self]
    exact .inl rfl
  · rw [closed_ends, Function.update_of_ne hs]
    exact h.recorded s'

/-! ## The network -/

/-- One of the two has found the connection to be a duplicate. -/
def Link.Told (l : Link N) : Prop :=
  ∃ s, (l.ends s).noRetry = .duplicate ∨ ∃ m, .leave m ∈ l.inFlight s ∧ m.reason = .duplicate

def Link.Joins (l : Link N) (x y : N) : Prop := ∃ s, l.node s = x ∧ l.node s.other = y

/-- Both ends have sent a handshake. -/
def Link.Greeted (l : Link N) : Prop := ∀ s, (l.times s).isSome

/-- The connection joins the nodes that `l` joins, and its handshakes add up to less. -/
structure Link.Precedes (d l : Link N) : Prop where
  joins : d.Joins (l.node .opener) (l.node .accepter)
  greeted : d.Greeted
  sum : d.sum < l.sum

structure NetOk (cfg : N → NodeConfig) (links : List (Link N)) : Prop where
  ok : ∀ l ∈ links, LinkOk cfg l
  told : Function.Injective (fun n => (cfg n).p2pText) →
    ∀ l ∈ links, l.Told → ∃ d ∈ links, d.Precedes l

theorem Link.Joins.symm {x y : N} (h : l.Joins x y) : l.Joins y x := by
  obtain ⟨s, hx, hy⟩ := h
  exact ⟨s.other, hy, by rwa [Side.other_other]⟩

/-- A connection joins nodes that another one joins, once it does so at one of its ends. -/
theorem Link.Joins.of_side {d : Link N} {s : Side} (h : d.Joins (l.node s) (l.node s.other)) :
    d.Joins (l.node .opener) (l.node .accepter) := by
  cases s with
  | opener => exact h
  | accepter => exact h.symm

theorem Link.Precedes.mono {d d' : Link N} (h : d.Precedes l) (hd : d.Grows d') (hl : l.Grows l')
    (hok : LinkOk cfg l') : d'.Precedes l' := by
  have htimes : d'.times = d.times := by
    funext s
    obtain ⟨t, ht⟩ := Option.isSome_iff_exists.1 (h.greeted s)
    rw [ht, hd.times s t ht]
  refine ⟨?_, fun s => htimes ▸ h.greeted s, ?_⟩
  · obtain ⟨s, hx, hy⟩ := h.joins
    exact ⟨s, by rw [hd.node, hl.node, hx], by rw [hd.node, hl.node, hy]⟩
  · have hsum : d'.sum = d.sum := by rw [Link.sum, Link.sum, htimes]
    rw [hsum]
    exact h.sum.trans_le (hl.sum_le hok)

theorem NetOk.set {i : ℕ} (h : NetOk cfg links) (hl : links[i]? = some l) (hok : LinkOk cfg l')
    (hgrows : l.Grows l') (htold : Function.Injective (fun n => (cfg n).p2pText) →
      l'.Told → l.Told ∨ ∃ d ∈ links, d.Precedes l) : NetOk cfg (links.set i l') := by
  obtain ⟨hi, rfl⟩ := List.getElem?_eq_some_iff.1 hl
  have hmem : ∀ {x}, x ∈ links.set i l' → x = l' ∨ x ∈ links := fun hx =>
    (List.mem_or_eq_of_mem_set hx).symm
  have hnext : ∀ d ∈ links, ∃ d' ∈ links.set i l', d.Grows d' := fun d hd => by
    obtain ⟨j, hj, rfl⟩ := List.mem_iff_getElem.1 hd
    rcases eq_or_ne i j with rfl | hne
    · exact ⟨l', List.mem_set hi .., hgrows⟩
    · refine ⟨links[j], List.mem_iff_getElem.2 ⟨j, by rwa [List.length_set], ?_⟩, rfl, fun _ _ ht => ht⟩
      rw [List.getElem_set_ne hne]
  refine ⟨fun x hx => (hmem hx).elim (fun heq => heq ▸ hok) (h.ok x), fun hnames x hx hxtold => ?_⟩
  obtain ⟨y, hy, hyx, hytold⟩ : ∃ y ∈ links, y.Grows x ∧ (y.Told ∨ ∃ d ∈ links, d.Precedes y) := by
    rcases hmem hx with rfl | hx
    · exact ⟨links[i], List.getElem_mem hi, hgrows, htold hnames hxtold⟩
    · exact ⟨x, hx, ⟨rfl, fun _ _ ht => ht⟩, .inl hxtold⟩
  have hxok : LinkOk cfg x := (hmem hx).elim (fun heq => heq ▸ hok) (h.ok x)
  obtain ⟨d, hd, hprecedes⟩ := hytold.elim (h.told hnames y hy) id
  obtain ⟨d', hd', hgrown⟩ := hnext d hd
  exact ⟨d', hd', hprecedes.mono hgrown hyx hxok⟩

/-! ### The test for a duplicate -/

theorem p2pText_ne_nil (node : NodeConfig) : node.p2pText ≠ [] := by simp [NodeConfig.p2pText]

theorem blank_mem_p2pText (node : NodeConfig) : 32 ∈ node.p2pText := by simp [NodeConfig.p2pText]

theorem p2pText_ne_connectingClient (node : NodeConfig) : node.p2pText ≠ Connection.connectingClient := by
  intro heq
  have hlen : node.p2pAddress.length = 7 := by
    have := congrArg List.length heq
    simp [NodeConfig.p2pText, idDigits, Connection.connectingClient] at this
    omega
  have hget := congrArg (fun l => l[7]?) heq
  simp [NodeConfig.p2pText, Connection.connectingClient, hlen] at hget

/-- A connection goes by the name of a node only if it has a handshake of that name. -/
theorem LinkOk.peerName_eq {s : Side} {node : NodeConfig} (h : LinkOk cfg l)
    (hname : (l.ends s).peerName = node.p2pText) :
    (cfg (l.node s.other)).p2pText = node.p2pText ∧ l.Greeted ∧
      l.times s.other = some (l.ends s).lastHandshakeRecv.time := by
  rcases h.recorded s with hnil | ⟨hfrom, -, hsome⟩
  · unfold Connection.peerName at hname
    rw [hnil] at hname
    simp only [ne_eq, not_true_eq_false, if_false] at hname
    split_ifs at hname
    · exact absurd hname.symm (p2pText_ne_connectingClient node)
    · exact absurd (hname ▸ blank_mem_p2pText node) (h.address s)
  · unfold Connection.peerName at hname
    rw [(h.sentBy _ _ hfrom).p2pAddress, if_pos (p2pText_ne_nil _)] at hname
    refine ⟨hname, fun s' => ?_, by rw [Link.times, hfrom]; rfl⟩
    rcases Side.eq_or s s' with rfl | rfl
    · rw [Link.times, Option.isSome_map]
      exact hsome
    · rw [Link.times, hfrom]
      rfl

theorem mem_otherConnections [DecidableEq N] {i : ℕ} {s : Side} {x : N} {c : Connection}
    (h : c ∈ otherConnections links i s x) : ∃ d ∈ links, ∃ s', d.node s' = x ∧ d.ends s' = c := by
  obtain ⟨⟨d, j⟩, hd, hc⟩ := List.mem_flatMap.1 h
  obtain ⟨s', -, hs'⟩ := List.mem_filterMap.1 hc
  split_ifs at hs' with hcond
  exact ⟨d, List.fst_mem_of_mem_zipIdx hd, s', hcond.1, Option.some.inj hs'⟩

/-- A connection that makes another one a duplicate precedes it. -/
theorem LinkOk.precedes_of_duplicate {s s' : Side} {d : Link N} {msg : HandshakeMessage}
    {rest : List SessionMessage} (hnames : Function.Injective fun n => (cfg n).p2pText)
    (hl : LinkOk cfg l) (hd : LinkOk cfg d) (hopen : (l.ends s).isOpen = true)
    (hfly : l.inFlight s = .handshake msg :: rest) (hnode : d.node s' = l.node s)
    (hdup : (l.ends s).duplicateOf (d.ends s') msg = true) : d.Precedes l := by
  have hfrom := hl.flying s msg (by rw [hfly]; exact List.mem_cons_self)
  have htime : l.times s.other = some msg.time := by rw [Link.times, hfrom]; rfl
  simp only [Connection.duplicateOf, Bool.and_eq_true, Connection.connected, decide_eq_true_eq,
    Bool.not_eq_true', decide_eq_false_iff_not, not_le] at hdup
  obtain ⟨⟨⟨hdopen, -⟩, hname⟩, hless⟩ := hdup
  rw [(hl.sentBy _ _ hfrom).p2pAddress] at hname
  obtain ⟨hother, hgreeted, htime'⟩ := hd.peerName_eq hname
  have hsum : (d.ends s').lastHandshakeSent.time + (d.ends s').lastHandshakeRecv.time = d.sum := by
    rw [hd.last_time hdopen, d.sum_eq s', htime', Option.getD_some, Int.add_comm]
  have hsum' : msg.time + (l.ends s).lastHandshakeSent.time = l.sum := by
    rw [hl.last_time hopen, l.sum_eq s, htime, Option.getD_some]
  rw [hsum, hsum', hd.asI64_sum, hl.asI64_sum] at hless
  exact ⟨.of_side (s := s) ⟨s', hnode, hnames hother⟩, hgreeted, hless⟩

/-! ### Runs -/

theorem Link.Joins.trans {d e : Link N} {x y : N} (h : d.Joins x y)
    (he : e.Joins (d.node .opener) (d.node .accepter)) : e.Joins x y := by
  obtain ⟨_ | _, rfl, rfl⟩ := h
  · exact he
  · exact he.symm

theorem Link.next_eq_some {msg : SessionMessage} {rest : List SessionMessage}
    (h : l.next s = some (msg, rest)) : (l.ends s).isOpen = true ∧ l.inFlight s = msg :: rest := by
  unfold Link.next at h
  split_ifs at h with hopen
  cases hfly : l.inFlight s with
  | nil =>
    rw [hfly] at h
    cases h
  | cons msg' rest' =>
    rw [hfly] at h
    cases h
    exact ⟨hopen, rfl⟩

/-- A new connection was not told to go by anyone. -/
theorem Link.open_not_told {a b : N} {peerAddr : Bytes} {chain : ChainView (Except Fault)} {time : ℤ}
    (h : Link.open cfg a b peerAddr chain time = .ok l) : ¬ l.Told := by
  obtain ⟨c, hc, h⟩ := bind_eq_ok.1 h
  obtain ⟨sent, -, -, rfl⟩ := sendHandshake_eq_ok hc rfl
  cases h
  rintro ⟨_ | _, hretry | ⟨m, hm, -⟩⟩
  · cases hretry
  · cases hm
  · cases hretry
  · cases List.mem_singleton.1 hm

theorem NetOk.connect (h : NetOk cfg links) {a b : N} {peerAddr : Bytes}
    {chain : ChainView (Except Fault)} {time : ℤ} (hopen : Link.open cfg a b peerAddr chain time = .ok l)
    (haddr : 32 ∉ peerAddr) (hclock : 0 ≤ time ∧ time < 2 ^ 62) : NetOk cfg (links ++ [l]) := by
  refine ⟨fun x hx => ?_, fun hnames x hx htold => ?_⟩
  · rcases List.mem_append.1 hx with hx | hx
    · exact h.ok x hx
    · exact List.mem_singleton.1 hx ▸ Link.open_ok hopen haddr hclock
  · rcases List.mem_append.1 hx with hx | hx
    · obtain ⟨d, hd, hprecedes⟩ := h.told hnames x hx htold
      exact ⟨d, List.mem_append_left _ hd, hprecedes⟩
    · exact absurd (List.mem_singleton.1 hx ▸ htold) (Link.open_not_told hopen)

theorem NetOk.close (h : NetOk cfg links) (i : ℕ) (s : Side) (left : ℕ) :
    NetOk cfg (links.modify i fun l => l.closed s left) := by
  cases hl : links[i]? with
  | none =>
    rwa [List.modify_eq_self (List.getElem?_eq_none_iff.1 hl)]
  | some l =>
    obtain ⟨hi, rfl⟩ := List.getElem?_eq_some_iff.1 hl
    rw [List.modify_eq_set_get _ hi]
    refine h.set hl ((h.ok _ (List.getElem_mem hi)).close s left) ⟨rfl, fun _ _ ht => ht⟩ fun _ htold => ?_
    obtain ⟨s', hretry | ⟨m, hm, hreason⟩⟩ := htold
    · rw [closed_ends, Function.update_apply] at hretry
      split_ifs at hretry with hs
      · exact .inl ⟨s, .inl hretry⟩
      · exact .inl ⟨s', .inl hretry⟩
    · exact .inl ⟨s', .inr ⟨m, mem_closed_inFlight hm, hreason⟩⟩

section Runs

variable [DecidableEq N] {i : ℕ} {s : Side}

/-- A connection that is told to go now was told before, or another one precedes it. -/
theorem NetOk.told_of_handled (h : NetOk cfg links)
    (hnames : Function.Injective fun n => (cfg n).p2pText) (hl : links[i]? = some l)
    {msg : SessionMessage} {rest : List SessionMessage} (hfly : l.inFlight s = msg :: rest)
    (hopen : (l.ends s).isOpen = true) {chain : ChainView (Except Fault)} {time : ℤ}
    {r : Connection × List SessionMessage} (hr : r = (l.ends s).handleMessage (cfg (l.node s)) chain time
      (otherConnections links i s (l.node s)) msg) (htold : (l.handled s rest r).Told) :
    l.Told ∨ ∃ d ∈ links, d.Precedes l := by
  have hlok := h.ok l (List.mem_of_getElem? hl)
  have hold : ∀ {a m}, m ∈ l.inFlight a → ∀ n, m = .leave n → n.reason = .duplicate → l.Told :=
    fun {a m} hm n hn hreason => ⟨a, .inr ⟨n, hn ▸ hm, hreason⟩⟩
  -- what is new is the answer
  have hnew : (r.1.noRetry = .duplicate ∨ ∃ m, .leave m ∈ r.2 ∧ m.reason = .duplicate) →
      l.Told ∨ ∃ d ∈ links, d.Precedes l := by
    cases msg with
    | leave msg =>
      rw [hr]
      rintro (hretry | ⟨m, hm, -⟩)
      · refine .inl (hold (a := s) (by rw [hfly]; exact List.mem_cons_self) msg rfl ?_)
        have hreason : ((l.ends s).handleLeave msg).noRetry = msg.reason := by
          unfold Connection.handleLeave
          split_ifs <;> rfl
        exact hreason.symm.trans hretry
      · cases hm
    | handshake msg =>
      have hanswer : Answer (cfg (l.node s)) time (otherConnections links i s (l.node s)) (l.ends s) msg r :=
        hr ▸ handleHandshake_answer
      intro hnew
      cases hanswer with
      | refused c' reason hne hc =>
        rcases hnew with hretry | ⟨m, hm, hreason⟩
        · refine .inl ⟨s, .inl ?_⟩
          rcases hc with rfl | rfl <;> exact hretry
        · cases List.mem_singleton.1 hm
          exact absurd hreason hne
      | duplicate check hmem hdup =>
        obtain ⟨d, hd, s', hnode, rfl⟩ := mem_otherConnections hmem
        exact .inr ⟨d, hd, hlok.precedes_of_duplicate hnames (h.ok d hd) hopen hfly hnode hdup⟩
      | failed c' _ _ hretry _ =>
        rcases hnew with hnew | ⟨m, hm, -⟩
        · exact .inl ⟨s, .inl (hretry ▸ hnew)⟩
        · cases hm
      | replied recorded sent _ _ _ _ hrec =>
        rcases hnew with hnew | ⟨m, hm, -⟩
        · have hretry : recorded.noRetry = (l.ends s).noRetry := by rw [hrec]
          exact .inl ⟨s, .inl (hretry ▸ hnew)⟩
        · cases List.mem_singleton.1 hm
      | taken recorded _ _ hrec =>
        rcases hnew with hnew | ⟨m, hm, -⟩
        · have hretry : recorded.noRetry = (l.ends s).noRetry := by rw [hrec]
          exact .inl ⟨s, .inl (hretry ▸ hnew)⟩
        · cases hm
  obtain ⟨s', hretry | ⟨m, hm, hreason⟩⟩ := htold
  · rcases eq_or_ne s' s with rfl | hs
    · rw [handled_ends, Function.update_self] at hretry
      exact hnew (.inl hretry)
    · rw [handled_ends, Function.update_of_ne hs] at hretry
      exact .inl ⟨s', .inl hretry⟩
  · rcases mem_handled_inFlight hfly hm with hm | ⟨-, hm⟩
    · exact .inl (hold hm m rfl hreason)
    · exact hnew (.inr ⟨m, hm, hreason⟩)

theorem NetOk.deliver (h : NetOk cfg links) {chain : ChainView (Except Fault)} {time : ℤ}
    (hclock : 0 ≤ time ∧ time < 2 ^ 62) :
    NetOk cfg (deliverNext cfg links i s chain time) := by
  unfold deliverNext
  cases hl : links[i]? with
  | none => exact h
  | some l =>
    dsimp only
    cases hnext : l.next s with
    | none => exact h
    | some next =>
      obtain ⟨hopen, hfly⟩ := Link.next_eq_some hnext
      have hr : (l.ends s).handleMessage (cfg (l.node s)) chain time (otherConnections links i s (l.node s))
        next.1 = _ := rfl
      obtain ⟨hok, hgrows⟩ := (h.ok l (List.mem_of_getElem? hl)).handledMessage hfly hopen hclock hr
      exact h.set hl hok hgrows fun hnames => h.told_of_handled hnames hl hfly hopen rfl

theorem NetOk.step (h : NetOk cfg links) {e : NetEvent N} (hsane : e.Sane) :
    NetOk cfg (e.apply cfg links) := by
  cases e with
  | connect a b peerAddr chain time =>
    obtain ⟨⟨haddr, -⟩, hclock⟩ := hsane
    show NetOk cfg (links ++ _)
    cases hopen : Link.open cfg a b peerAddr chain time with
    | error e => rwa [Except.toOption, Option.toList_none, List.append_nil]
    | ok l => exact h.connect hopen haddr hclock
  | deliver i s chain time => exact h.deliver hsane
  | close i s left => exact h.close i s left

theorem NetRun.events {es : List (NetEvent N)} (h : NetRun cfg links) (hsane : ∀ e ∈ es, e.Sane) :
    NetRun cfg (es.foldl (NetEvent.apply cfg) links) := by
  induction es generalizing links with
  | nil => exact h
  | cons e es ih =>
    exact ih (.step h e (hsane e List.mem_cons_self)) fun e he => hsane e (List.mem_cons_of_mem _ he)

theorem NetRun.ok (h : NetRun cfg links) : NetOk cfg links := by
  induction h with
  | start => exact ⟨fun l hl => absurd hl List.not_mem_nil, fun _ l hl => absurd hl List.not_mem_nil⟩
  | step _ e hsane ih => exact ih.step hsane

/-- A handshake that an end has taken is the one that the other end has sent; the two are different nodes
of one chain, and both have sent their one handshake. -/
theorem peer_recorded (h : NetRun cfg links) (hl : l ∈ links) (s : Side)
    (hrec : (l.ends s).lastHandshakeRecv ≠ {}) :
    l.sent s.other = some (l.ends s).lastHandshakeRecv ∧
      SentBy (cfg (l.node s.other)) (l.ends s).lastHandshakeRecv ∧ l.Greeted ∧
      l.node s ≠ l.node s.other ∧ (cfg (l.node s)).chainId = (cfg (l.node s.other)).chainId ∧
      ((cfg (l.node s)).networkVersionMatch = true →
        (cfg (l.node s)).networkVersion = (cfg (l.node s.other)).networkVersion) ∧
      ∀ s', (l.ends s').isOpen = true →
        (l.ends s').sentHandshakeCount = 1 ∧ l.sent s' = some (l.ends s').lastHandshakeSent := by
  have hok := h.ok.ok l hl
  obtain ⟨hfrom, hsuits, hsome⟩ := (hok.recorded s).resolve_left hrec
  have hby := hok.sentBy _ _ hfrom
  have hboth : ∀ s', (l.sent s').isSome := fun s' => by
    rcases Side.eq_or s s' with rfl | rfl
    · exact hsome
    · rw [hfrom]
      rfl
  refine ⟨hfrom, hby, fun s' => ?_, fun heq => ?_, ?_, fun hmatch => ?_, fun s' hopen => ?_⟩
  · rw [Link.times, Option.isSome_map]
    exact hboth s'
  · exact hsuits.nodeId (by rw [heq, hby.nodeId])
  · rw [← hsuits.chainId, hby.chainId]
  · rw [← hsuits.networkVersion hmatch, hby.networkVersion]
  · obtain ⟨m, hm⟩ := Option.isSome_iff_exists.1 (hboth s')
    obtain ⟨hlast, hcount⟩ := hok.last s' hopen
    exact ⟨by rw [hcount, if_pos (hboth s')], by rw [hlast, hm]; rfl⟩

end Runs

/-! ### Two nodes that connect to each other -/

section Pair

def youngChain : ChainView (Except Fault) where
  headBlockNum := 1
  lastIrreversibleBlockNum := 0
  blockIdFromNum _ := .ok default
  getSyncBlocklist _ := .ok []

def crossingNode (n : Bool) : NodeConfig where
  nodeId := ⟨if n then 1 else 2, 0⟩
  chainId := ⟨7, 0⟩
  p2pAddress := [if n then 97 else 98]
  hashTime _ := default

/-- Both connect before either has heard of the other; the first connection has the greater times. -/
def crossingEvents : List (NetEvent Bool) :=
  [.connect true false [98, 58, 49] youngChain 100, .connect false true [97, 58, 49] youngChain 50,
    .deliver 1 .accepter youngChain 60, .deliver 1 .opener youngChain 65,
    .deliver 0 .accepter youngChain 70, .deliver 0 .opener youngChain 80]

def crossing : List (Link Bool) := crossingEvents.foldl (NetEvent.apply crossingNode) []

theorem crossing_run : NetRun crossingNode crossing := by
  refine NetRun.start.events fun e he => ?_
  simp only [crossingEvents, List.mem_cons, List.not_mem_nil, or_false] at he
  rcases he with rfl | rfl | rfl | rfl | rfl | rfl <;> simp [NetEvent.Sane]

theorem crossingNode_names : Function.Injective fun n => (crossingNode n).p2pText := by
  intro n n' h
  cases n <;> cases n' <;> first | rfl | exact absurd h (by decide)

theorem peer_recorded_crossing : ∃ d, crossing[1]? = some d ∧ d.Greeted ∧
    d.sent .accepter = some (d.ends .opener).lastHandshakeRecv ∧
    (d.ends .opener).lastHandshakeRecv.time = 60 := by
  obtain ⟨d, hd⟩ : ∃ d, crossing[1]? = some d := ⟨_, rfl⟩
  obtain ⟨hfrom, -, hgreeted, -⟩ := peer_recorded crossing_run (List.mem_of_getElem? hd) .opener (by
    cases hd
    decide)
  refine ⟨d, hd, hgreeted, hfrom, ?_⟩
  cases hd
  decide

end Pair

end XmaxChain
