import XmaxChain.RoundLists
import XmaxChain.Uniqueness

/-!
# The schedule of `block_head`

What a block's pack has from its parent is decided by its header, so two nodes that know a block know
the same rounds with it, whether they built the block, applied it or received it for a fork. And what
the blocks up to a known pack leave in the database goes with the pack, so in every careful run the
copy of the schedule in the database is that of `block_head`, however many branches it was on before.
-/

namespace XmaxChain

open ForkContext

variable {cfg : ChainConfig} {G : BlockPack} {g : ChainDb}

/-! ## What a header decides -/

/-- The packs have the same header and give out the same slots. -/
structure SameSchedule (p q : PackCore) : Prop where
  header : p.newHeader.toBlockHeader = q.newHeader.toBlockHeader
  roundSlot : p.roundSlot = q.roundSlot
  currentBuilders : p.currentBuilders = q.currentBuilders
  newBuilders : p.newBuilders = q.newBuilders

section Next

variable {p p' r r' : BlockPack} {t t' : ℕ}

theorem SameSchedule.refl (p : PackCore) : SameSchedule p p := ⟨rfl, rfl, rfl, rfl⟩

theorem SameSchedule.slotAt {p q : PackCore} (h : SameSchedule p q) (when : ℕ) :
    p.slotAt when = q.slotAt when := by
  have htime : p.newHeader.timestamp = q.newHeader.timestamp := congrArg BlockHeader.timestamp h.header
  rw [PackCore.slotAt, PackCore.slotAt, h.roundSlot, htime]

/-- A pack that was just made, and what it has when it is finished. -/
theorem NextPack.schedule (h : NextPack cfg p t r) :
    ∃ q : BlockPack, OfSlot p.toPackCore t q.toPackCore ∧ r.roundSlot = q.roundSlot ∧
      r.currentBuilders = q.currentBuilders ∧
      r.newBuilders = r.newHeader.nextBuilders.getD q.newBuilders ∧ r.newHeader.timestamp = t := by
  cases h with
  | @built db pack trxs finish b start seals body =>
    obtain ⟨q, hq, hcases⟩ := startPack_cases start
    have hslot := initByPrePack_slot hq
    obtain ⟨_, -, hhead, -⟩ := initByPrePack_eq_ok hq
    have hnone : q.newHeader.nextBuilders = none := by rw [hhead]
    obtain ⟨p', sealed, db', -, hsealed, -, rfl⟩ := blockBody_eq_ok.1 body
    obtain ⟨sig, rfl⟩ := seals hsealed
    refine ⟨q, hslot, ?_⟩
    rcases hcases with ⟨-, rfl⟩ | ⟨-, -, rule, -, rfl⟩
    · exact ⟨rfl, rfl, (congrArg (Option.getD · pack.newBuilders) hnone).symm, hslot.timestamp⟩
    · exact ⟨rfl, rfl, rfl, hslot.timestamp⟩
  | received init _ time => exact ⟨_, initByPrePack_slot init, rfl, rfl, rfl, time⟩

/-- The header of a finished pack is its block's. -/
theorem NextPack.block (h : NextPack cfg p t r) : r.block.toSignedBlockHeader = r.newHeader := by
  rcases h with ⟨_, _, body⟩ | ⟨_, _, _⟩
  · obtain ⟨_, sealed, _, -, -, -, rfl⟩ := blockBody_eq_ok.1 body
    rfl
  · rfl

theorem NextPack.headOk (h : NextPack cfg p t r) (hp : HeadOk p.toPackCore) : HeadOk r.toPackCore := by
  obtain ⟨q, hslot, -, hcur, -⟩ := h.schedule
  refine ⟨?_, hcur ▸ hslot.builders hp.builders⟩
  obtain ⟨hprevious, hheader⟩ := h.header
  rcases h with ⟨start, seals, body⟩ | ⟨_, _, _⟩
  · obtain ⟨q, hq, hcases⟩ := startPack_cases start
    obtain ⟨_, -, hhead, -, hnum, -⟩ := initByPrePack_eq_ok hq
    have hheadNum : u32 (p.blockId.num + 1) = q.blockNum := by rw [hp.num, hnum]
    obtain ⟨p', sealed, db', -, hsealed, -, rfl⟩ := blockBody_eq_ok.1 body
    obtain ⟨sig, rfl⟩ := seals hsealed
    rw [← hheader, BlockHeader.id_num, BlockHeader.blockNum, hprevious]
    rcases hcases with ⟨-, rfl⟩ | ⟨-, -, rule, -, rfl⟩ <;> exact hheadNum
  · exact BlockHeader.id_num ..

/-- The next packs of two that give out the same slots do too, if their headers are the same. -/
theorem NextPack.sameSchedule (h : NextPack cfg p t r) (h' : NextPack cfg p' t' r')
    (hp : SameSchedule p.toPackCore p'.toPackCore)
    (hheader : r.newHeader.toBlockHeader = r'.newHeader.toBlockHeader) :
    SameSchedule r.toPackCore r'.toPackCore := by
  obtain ⟨q, hslot, hround, hcur, hnew, rfl⟩ := h.schedule
  obtain ⟨q', hslot', hround', hcur', hnew', rfl⟩ := h'.schedule
  have htime : r'.newHeader.timestamp = r.newHeader.timestamp :=
    congrArg BlockHeader.timestamp hheader.symm
  have hnext : r'.newHeader.nextBuilders = r.newHeader.nextBuilders :=
    congrArg BlockHeader.nextBuilders hheader.symm
  have hplace : p'.slotAt r'.newHeader.timestamp = p.slotAt r.newHeader.timestamp := by
    rw [htime, hp.slotAt]
  have hnewRound : q'.newRound = q.newRound := by rw [hslot.newRound, hslot'.newRound, hplace]
  refine ⟨hheader, ?_, ?_, ?_⟩
  · rw [hround, hround', hslot.roundSlot, hslot'.roundSlot, hplace]
  · rw [hcur, hcur', hslot.currentBuilders, hslot'.currentBuilders, hnewRound, hp.newBuilders,
      hp.currentBuilders]
  · rw [hnew, hnew', hnext, hslot.newBuilders, hslot'.newBuilders, hnewRound, hp.newBuilders]

end Next

/-- The packs that come of genesis, one after the other, the last of them the `n`-th. -/
inductive Lineal (cfg : ChainConfig) (G : BlockPack) : ℕ → PackCore → Prop
  | genesis : Lineal cfg G 1 G.toPackCore
  | next {n t : ℕ} {p r : BlockPack} (parent : Lineal cfg G n p.toPackCore) (made : NextPack cfg p t r) :
      Lineal cfg G (n + 1) r.toPackCore

theorem Lineal.pos {n : ℕ} {p : PackCore} (h : Lineal cfg G n p) : 0 < n := by
  cases h <;> exact Nat.succ_pos _

theorem Lineal.header {n : ℕ} {p : PackCore} (hG : G.newHeader.id cfg.crypto = G.blockId)
    (h : Lineal cfg G n p) : p.newHeader.id cfg.crypto = p.blockId := by
  cases h with
  | genesis => exact hG
  | next _ made => exact made.header.2

/-- A block is in the same slots' schedule wherever it is known. -/
theorem Lineal.sameSchedule (hid : ∀ h h' : BlockHeader, h.id cfg.crypto = h'.id cfg.crypto → h = h')
    (hG : G.newHeader.id cfg.crypto = G.blockId) {n : ℕ} {p q : PackCore} (hp : Lineal cfg G n p)
    (hq : Lineal cfg G n q) (heq : p.blockId = q.blockId) : SameSchedule p q := by
  induction hp generalizing q with
  | genesis =>
    cases hq with
    | genesis => exact .refl _
    | next parent _ => exact absurd parent.pos (Nat.lt_irrefl 0)
  | next parent made ih =>
    have hheader := hid _ _ ((made.header.2.trans heq).trans (hq.header hG).symm)
    cases hq with
    | genesis => exact absurd parent.pos (Nat.lt_irrefl 0)
    | next parent' made' =>
      refine made.sameSchedule made' (ih parent' ?_) hheader
      rw [← made.header.1, ← made'.header.1]
      exact congrArg BlockHeader.previous hheader

/-! ## What goes with a known pack -/

/-- What genesis has with its database, and each pack with what its block leaves of its parent's,
whatever the rows of ERC721 ids are. -/
structure GoesWith (cfg : ChainConfig) (G : BlockPack) (g : ChainDb)
    (Q : ℕ → PackCore → ChainDb → Prop) : Prop where
  genesis : Q 1 G.toPackCore g
  rows : ∀ {n : ℕ} {p : PackCore} (db : ChainDb) (rows : Erc721Rows), Q n p db →
    Q n p { db with erc721Accounts := rows }
  next : ∀ {n t : ℕ} {p r : BlockPack} {db db' : ChainDb}, Q n p.toPackCore db → NextPack cfg p t r →
    replay cfg p db r.block = .ok db' → Q (n + 1) r.toPackCore db'

/-- Where the blocks up to a pack can be applied in order, the database that they leave is as `Q`
says. -/
def ChainState.Going (cfg : ChainConfig) (G : BlockPack) (g : ChainDb)
    (Q : ℕ → PackCore → ChainDb → Prop) (s : ChainState) : Prop :=
  ∀ a, a ∈ s.fork.packs ∨ a = s.fork.head → ∀ blocks db,
    Executed cfg G (.loose g) s.fork.objs blocks a db →
      Q blocks.length (s.fork.objs a).toPackCore db

section Going

variable {s s' : ChainState} {L X : Summary} {Q : ℕ → PackCore → ChainDb → Prop}

theorem ChainState.Going.mono (h : s.Going cfg G g Q)
    (known : ∀ a, a ∈ s'.fork.packs ∨ a = s'.fork.head → a ∈ s.fork.packs ∨ a = s.fork.head)
    (core : ∀ a, (s'.fork.objs a).toPackCore = (s.fork.objs a).toPackCore) : s'.Going cfg G g Q :=
  fun a ha blocks db hexec =>
    (core a).symm ▸ h a (known a ha) blocks db (hexec.congr fun x _ => (core x).symm)

theorem ChainState.Going.of_sameCores (h : s.Going cfg G g Q) (hsame : SameCores s.fork s'.fork) :
    s'.Going cfg G g Q :=
  h.mono (fun a ha => by rw [← hsame.packs, ← hsame.head]; exact ha) hsame.core

theorem ChainState.Going.of_fork (h : s.Going cfg G g Q) (hfork : s'.fork = s.fork) :
    s'.Going cfg G g Q :=
  h.of_sameCores (by rw [hfork]; exact .refl _)

/-- A pack is added on one that is known. -/
theorem ChainState.Going.added {blocks : List SignedBlock} {u : Undo ChainDb} {bh L' : Summary}
    {building : Option BlockPack} {pack : BlockPack} {sink sink' : Sink ChainDb}
    (hQ : GoesWith cfg G g Q) (hi : Inv cfg.crypto s.fork L X)
    (hadd : Added cfg G (.loose g) s.fork bh pack building blocks u sink s'.fork sink' L')
    (hprev : pack.prevId ∈ s.fork.packs) (hnum : pack.blockId.num = pack.prevId.num + 1)
    (h : s.Going cfg G g Q) (hG : G.block.blockNum = 1) (hid : G.blockId = G.block.id cfg.crypto)
    (hlow : 0 < L.num) {t : ℕ} (hmade : NextPack cfg (s.fork.objs pack.prevId) t pack) :
    s'.Going cfg G g Q := by
  intro a ha blocks db hexec
  have hcases : a ∈ s.fork.packs ∨ a = pack.blockId := by
    rcases ha with ha | rfl
    · exact ((hadd.packs a).1 ha).1
    · obtain ⟨q, -, ⟨hhead, -⟩ | ⟨hhead, -⟩⟩ := hadd.lead
      · exact .inr hhead
      · exact .inl hhead
  rcases hcases with hold | rfl
  · rw [hadd.core_known hi hprev hnum (.inl hold)]
    exact h a (.inl hold) blocks db (hadd.executed_known hi hprev hnum hold hexec)
  have hnew : (s'.fork.objs pack.blockId).toPackCore = pack.toPackCore := by
    rw [hadd.core, if_pos rfl]
  have hup : (s'.fork.objs pack.blockId).prevId = pack.prevId := by rw [hnew]
  rw [hnew]
  generalize hb : pack.blockId = b at hexec
  cases hexec with
  | genesis _ _ =>
    have hone : G.blockId.num = 1 := by rw [hid, BlockHeader.id_num, hG]
    have := hi.last_le hprev
    rw [← hb] at hone
    omega
  | applied known previous num parent replayed =>
    subst hb
    rw [hup] at parent replayed
    have hbelow := hadd.executed_known hi hprev hnum hprev parent
    have hblock : (s'.fork.objs pack.blockId).block = pack.block := by rw [hnew]
    obtain ⟨d, d', hd, hrun, hd'⟩ := replayed.core (hadd.core_known hi hprev hnum (.inl hprev)).symm
    rw [hblock] at hrun
    rw [List.length_cons]
    have hparent := hd.keeps hQ.rows (h _ (.inl hprev) _ _ hbelow)
    exact hd'.keeps hQ.rows (hQ.next hparent hmade hrun)

/-- Switching branches only removes packs. -/
theorem ChainState.Going.checkForkLoop (h : s.Going cfg G g Q) (hgood : Good cfg G (.loose g) s L X)
    (fuel : ℕ) : (stateOf (checkForkLoop cfg fuel s)).Going cfg G g Q := by
  refine h.mono (fun a ha => ?_) fun a => ?_
  · have hstart : ChainState.Held (fun a _ => a ∈ s.fork.packs ∨ a = s.fork.head) [] s := by
      refine ⟨hgood.inv.toContainer, fun a ha => ?_⟩
      rcases ha with ha | rfl | ha
      · exact .inl ha
      · exact .inr rfl
      · obtain rfl := List.mem_singleton.1 ha
        exact .inl hgood.headPack_mem
    exact (keeps_checkForkLoop fuel [] s hstart).held a (ha.imp_right .inl)
  · have hstart : ChainState.Held (fun a core => core = (s.fork.objs a).toPackCore) [a] s :=
      ⟨hgood.inv.toContainer, fun _ _ => rfl⟩
    exact (keeps_checkForkLoop fuel [a] s hstart).held a
      (.inr (.inr (List.mem_cons_of_mem _ List.mem_cons_self)))

section Steps

variable (hQ : GoesWith cfg G g Q) (hG : G.block.blockNum = 1) (hid : G.blockId = G.block.id cfg.crypto)

include hQ hG hid

/-- A block that is built or confirmed makes a next pack of the head's. -/
theorem Good.going_extend {r : EStateM.Result Fault ChainState Unit} {blocks : List SignedBlock}
    {u : Undo ChainDb} (h : Good cfg G (.loose g) s L X) (hs : s.Going cfg G g Q)
    (hb : Backed cfg G (.loose g) s.fork L s.sink.chainLog s.blockHead blocks u) (hok : s.ExtendOk)
    (hr : (∃ e s', r = .error e s' ∧ Unmoved u s s') ∨
      ∃ b t, BuiltOn cfg s.headPack u.cur b ∧ NextPack cfg s.headPack t b.pack ∧
        r = (pushBlock cfg true >>= fun _ => commitBlock) (s.started u b)) :
    (stateOf r).Going cfg G g Q := by
  rcases hr with ⟨e, s', rfl, hun⟩ | ⟨b, t, hbuilt, hmade, rfl⟩
  · exact hs.of_fork hun.fork
  rcases h.push hb hbuilt hok.1 hok.2 with ⟨e, s', herr, hun⟩ | ⟨s', L', hpush, -, -, -, hadd⟩
  · rw [herr]
    exact hs.of_fork hun.fork
  rw [hpush]
  obtain ⟨hprev, hplace⟩ := hbuilt.made.place h.inv.toLinked h.headPack_mem hok.1
  have hmade' : NextPack cfg (s.fork.objs b.pack.prevId) t b.pack := by
    rw [hprev]
    exact hmade
  exact hs.added hQ h.inv hadd (by rw [hprev]; exact h.headPack_mem) (by rw [hprev]; exact hplace)
    hG hid (h.last_pos hG hid) hmade'

theorem Good.going_call {call : ChainCall} (h : Good cfg G (.loose g) s L X) (hs : s.Going cfg G g Q)
    (hcall : s.Careful cfg call) : (stateOf (chainStep cfg call s)).Going cfg G g Q := by
  obtain ⟨blocks, u, hb, ho⟩ := h.backed
  cases call with
  | buildBlock when key trxs =>
    refine h.going_extend hQ hG hid hs hb hcall ?_
    rcases begun_cases ho with ⟨e, s', herr, hun, -⟩ | ⟨pack, b, -, hstart, hbody, hrun⟩
    · exact .inl ⟨e, s', herr, hun⟩
    · exact .inr ⟨b, when, .of_blockBody hstart (seals_sign _ _) hbody,
        .built hstart (seals_sign _ _) hbody, hrun⟩
  | confirmBlock block =>
    refine h.going_extend hQ hG hid hs hb hcall ?_
    rcases applyBlock_run ho with ⟨e, s', herr, hun, -⟩ | ⟨trxs, pack, b, hstart, hbody, -, hrun⟩
    · exact .inl ⟨e, s', herr, hun⟩
    · exact .inr ⟨b, block.timestamp, .of_blockBody hstart (seals_validate _ _) hbody,
        .built hstart (seals_validate _ _) hbody, hrun⟩
  | pushFork block =>
    show (stateOf (XmaxChain.pushFork cfg block s)).Going cfg G g Q
    rw [stateOf_pushFork]
    rcases h.addForkBlock hcall with ⟨e, herr⟩ | ⟨s', L', p, hadd, hgood, -, hpack, ⟨_, _, hadded⟩, -⟩
    · rw [run_bind_error herr]
      exact hs
    · rw [run_bind_ok hadd]
      obtain ⟨hmem, hmade⟩ := MadeFrom.of_packOfBlock h.inv.toLinked hpack
      obtain ⟨hprev, hplace⟩ := hmade.place h.inv.toLinked hmem (hcall.1 hmem)
      obtain ⟨-, hnext⟩ := nextPack_of_packOfBlock hpack fun hmem => h.inv.blockId _ hmem
      rw [← hprev] at hnext
      have hs' : s'.Going cfg G g Q :=
        hs.added hQ h.inv hadded (by rw [hprev]; exact hmem) (by rw [hprev]; exact hplace) hG hid
          (h.last_pos hG hid) hnext
      exact hs'.checkForkLoop hgood _
  | pushConfirmation conf =>
    show (stateOf (XmaxChain.pushConfirmation cfg conf s)).Going cfg G g Q
    unfold XmaxChain.pushConfirmation
    split
    · exact hs
    · rename_i f hf
      obtain ⟨-, hsame, -⟩ := h.inv.addConfirmation hcall hf
      exact hs.of_sameCores hsame

end Steps

end Going

section Runs

variable {s s' : ChainState} {time : ℕ} {key : PublicKey} {sig : Signature}
  {receipts : List TransactionReceipt} {next : List BuilderInfo} {Q : ℕ → PackCore → ChainDb → Prop}

/-- What goes with genesis and from packs to the next ones goes with `block_head` in every careful
run. -/
theorem ChainRun.goes
    (hQ : GoesWith cfg (BlockPack.genesis cfg.crypto time key sig receipts next) g Q)
    (h : ChainRun cfg (BlockPack.genesis cfg.crypto time key sig receipts next) g s) :
    Q s.blockHead.num s.headPack.toPackCore s.abortBuild.sink.blockDb.cur := by
  set G := BlockPack.genesis cfg.crypto time key sig receipts next with hG
  have hall : (∃ L X, Good cfg G (.loose g) s L X) ∧ s.Going cfg G g Q := by
    induction h with
    | refl =>
      refine ⟨⟨_, _, .genesis⟩, fun a ha blocks db hexec => ?_⟩
      obtain rfl : a = G.blockId := ha.elim List.mem_singleton.1 id
      have hself : (ForkContext.genesis G).objs G.blockId = G := by
        simp only [ForkContext.genesis, Function.update_self]
      have hcore : ((ForkContext.genesis G).objs G.blockId).toPackCore = G.toPackCore := by rw [hself]
      obtain ⟨rfl, hdb⟩ := hexec.at_genesis rfl rfl
      show Q 1 ((ForkContext.genesis G).objs G.blockId).toPackCore _
      rw [hcore]
      exact hdb.keeps hQ.rows hQ.genesis
    | tail _ hstep ih =>
      obtain ⟨⟨L, X, hgood⟩, hgoing⟩ := ih
      obtain ⟨call, hcall, rfl⟩ := hstep
      obtain ⟨L', X', hgood', -⟩ := hgood.step hcall fun hg => by cases hg
      exact ⟨⟨L', X', hgood'⟩, hgood.going_call hQ rfl rfl hgoing hcall⟩
  obtain ⟨⟨L, X, hgood⟩, hgoing⟩ := hall
  have hexec := hgood.database.1
  rw [← (hexec.numbered rfl rfl).1]
  exact hgoing _ (.inl hgood.headPack_mem) _ _ hexec

/-- What is known of `block_head` and its database. -/
structure OnSchedule (cfg : ChainConfig) (G : BlockPack) (n : ℕ) (p : PackCore) (db : ChainDb) :
    Prop where
  lineal : Lineal cfg G n p
  synced : Synced p db
  headOk : HeadOk p

theorem onSchedule_goes (hid : ∀ h h' : BlockHeader, h.id cfg.crypto = h'.id cfg.crypto → h = h')
    (hg : OnSchedule cfg G 1 G.toPackCore g) : GoesWith cfg G g (OnSchedule cfg G) := by
  refine ⟨hg, fun db rows h => ⟨h.lineal, ?_, h.headOk⟩, fun {n t p r db db'} hp hmade hreplay => ?_⟩
  · exact ⟨h.synced.current, h.synced.next, h.synced.roundSlot, h.synced.headBlockNumber,
      h.synced.headBlockId⟩
  obtain ⟨trxs, pack, b, -, hstart, hbody, rfl⟩ := replay_eq_ok.1 hreplay
  have happlied : NextPack cfg p r.block.timestamp b.pack := .built hstart (seals_validate _ _) hbody
  obtain ⟨hsynced, hhead⟩ := hp.synced.blockBody hp.headOk hstart (seals_validate _ _) hbody
  have hheader : r.newHeader.toBlockHeader = b.pack.newHeader.toBlockHeader := by
    rw [(header_of_blockBody hid hbody).1, hmade.block]
  have hsame := hmade.sameSchedule happlied (.refl _) hheader
  have hr := hmade.headOk hp.headOk
  have hblockId : r.blockId = b.pack.blockId := by
    rw [← hmade.header.2, ← happlied.header.2, hheader]
  refine ⟨.next hp.lineal hmade, ⟨?_, ?_, ?_, ?_, ?_⟩, hr⟩
  · rw [hsynced.current, hsame.currentBuilders]
  · rw [hsynced.next, hsame.newBuilders]
  · rw [hsynced.roundSlot, hsame.roundSlot]
  · rw [hsynced.headBlockNumber, ← hr.num, ← hhead.num, hblockId]
  · rw [hsynced.headBlockId, hblockId]

end Runs

end XmaxChain
