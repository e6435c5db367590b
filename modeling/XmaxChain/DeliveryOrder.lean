import XmaxChain.ForkSwitch
import XmaxChain.Lineage

/-!
# The order of delivery

Blocks come in through `recieve_block`: the next block of `block_head` is confirmed, any other one
goes to the fork database, which is followed to its head. Where all blocks are good and nothing is
confirmed meanwhile, `block_head` is the first of the highest blocks that came in, and the pack and
the database of a block are the same whichever way it took. So the node ends at the greatest number
that was delivered, in whatever order the blocks came, as long as the blocks that it leaves for a
higher branch can be undone. One that hands on an ERC721 id and then makes its old owner another
cannot, and the node stays on its branch.
-/

namespace XmaxChain

open ParentWalk ForkContext

/-! ## Blocks that are all good -/

/-- The pack that `add_block` makes of a block on its parent's pack. -/
def packOn (c : Crypto) (pre : BlockPack) (block : SignedBlock) : Except Fault BlockPack := do
  let pack ← pre.initByPrePack block.timestamp false
  fcAssert (pack.newHeader.builder == block.builder) "error builder"
  match c.signerKey block.builderSignature (block.digest c) with
  | none => .error (.fc "public_key")
  | some key =>
    fcAssert (key == pack.bldInfo.blockSigningKey) "error sign of block."
    return pack.generateByBlock c block

/-- The packs that the blocks make from genesis on, each with the database that its block leaves. -/
inductive InTree (cfg : ChainConfig) (G : BlockPack) (g : ChainDb) (blocks : List SignedBlock) :
    BlockPack → ChainDb → Prop
  | genesis : InTree cfg G g blocks G g
  | next {pre pack : BlockPack} {db db' : ChainDb} {block : SignedBlock}
      (parent : InTree cfg G g blocks pre db) (mem : block ∈ blocks)
      (made : packOn cfg.crypto pre block = .ok pack)
      (applied : applied cfg pre db true db block = .ok db') : InTree cfg G g blocks pack db'

inductive Adds (cfg : ChainConfig) (G : BlockPack) (g : ChainDb) (blocks : List SignedBlock)
    (db : ChainDb) (block : SignedBlock) : BlockPack → ChainDb → Prop
  | mk {pre pack : BlockPack} {db' : ChainDb} (parent : InTree cfg G g blocks pre db)
      (mem : block ∈ blocks) (made : packOn cfg.crypto pre block = .ok pack)
      (applied : applied cfg pre db true db block = .ok db') : Adds cfg G g blocks db block pack db'

/-- Each of the blocks is accepted by `add_block` on its parent's pack and by `_apply_block` on the
state of its parent, and no pack names more as confirmed or as irreversible than genesis does. -/
structure AllGood (cfg : ChainConfig) (G : BlockPack) (g : ChainDb) (blocks : List SignedBlock) :
    Prop where
  stamps : ∀ block ∈ blocks, block.timestamp < 2 ^ 32
  accepted : ∀ block ∈ blocks, ∀ pre db, InTree cfg G g blocks pre db →
    pre.blockId = block.previous → (∃ pack, packOn cfg.crypto pre block = .ok pack) ∧
      ∃ db', applied cfg pre db true db block = .ok db'
  level : ∀ pack db, InTree cfg G g blocks pack db →
    pack.lastConfirmedNum ≤ G.lastConfirmedNum ∧ pack.dposIrreversibleNum ≤ G.dposIrreversibleNum

/-! ## Blocks that are left for a higher branch -/

section Retract

variable (cfg : ChainConfig) (G : BlockPack) (g : ChainDb) (blocks : List SignedBlock)

/-- What the block does on the state of its parent can be undone. -/
def Retractable (block : SignedBlock) : Prop :=
  ∀ pre db db', InTree cfg G g blocks pre db → pre.blockId = block.previous →
    applied cfg pre db true db block = .ok db' → GivesBack db.erc721Accounts db'.erc721Accounts

/-- The block is on the way from the one known by the id to genesis. -/
inductive OnWay (c : Crypto) (blocks : List SignedBlock) (x : SignedBlock) : Summary → Prop
  | here : OnWay c blocks x (x.id c)
  | pass {block : SignedBlock} (mem : block ∈ blocks)
      (num : block.previous.num + 1 = (block.id c).num) (rest : OnWay c blocks x block.previous) :
      OnWay c blocks x (block.id c)

/-- The first of the highest. -/
def taller (top block : SignedBlock) : SignedBlock :=
  if top.blockNum < block.blockNum then block else top

/-- Where a higher block comes in than the highest one, but not on it, the blocks that only that one
is on can be undone. -/
def LeavesGood (top block : SignedBlock) : Prop :=
  top.blockNum < block.blockNum → block.previous ≠ top.id cfg.crypto →
    ∀ x ∈ blocks, OnWay cfg.crypto blocks x (top.id cfg.crypto) →
      ¬ OnWay cfg.crypto blocks x (block.id cfg.crypto) → Retractable cfg G g blocks x

/-- The blocks come in one after the other, the highest one before them being `top`. -/
def LeavesAllGood : SignedBlock → List SignedBlock → Prop
  | _, [] => True
  | top, block :: order =>
    LeavesGood cfg G g blocks top block ∧ LeavesAllGood (taller top block) order

end Retract

/-! ## Delivery -/

section Delivery

variable (cfg : ChainConfig)

/-- `recieve_block`, on a node that has no keys to confirm with. -/
def receiveBlock (block : SignedBlock) : ChainM Unit := fun s =>
  if s.headPack.blockNum = u32 (block.blockNum + (2 ^ 32 - 1)) ∧
      s.headPack.blockId = block.previous then
    confirmBlock cfg block s
  else if s.sink.lastIrreversibleBlockNum < block.blockNum then pushFork cfg block s
  else .error (.fc "bad block num") s

def deliver (blocks : List SignedBlock) (s : ChainState) : ChainState :=
  blocks.foldl (fun s block => stateOf (receiveBlock cfg block s)) s

/-- Parents come before their children; those that are known from the beginning need not come. -/
def ParentsFirst (c : Crypto) : List Summary → List SignedBlock → Prop
  | _, [] => True
  | known, block :: blocks =>
    block.previous ∈ known ∧ ParentsFirst c (block.id c :: known) blocks

end Delivery

instance decidableParentsFirst (c : Crypto) : ∀ known blocks, Decidable (ParentsFirst c known blocks)
  | _, [] => isTrue trivial
  | known, block :: blocks =>
    have := decidableParentsFirst c (block.id c :: known) blocks
    inferInstanceAs (Decidable (block.previous ∈ known ∧ _))

variable {cfg : ChainConfig} {G : BlockPack} {g : ChainDb} {blocks : List SignedBlock}

/-! ## What the blocks make -/

section Made

variable {c : Crypto} {pre pre' pack : BlockPack} {found db db' : ChainDb} {block : SignedBlock}

theorem packOn_eq_ok : packOn c pre block = .ok pack ↔
    ∃ q, pre.initByPrePack block.timestamp false = .ok q ∧ q.newHeader.builder = block.builder ∧
      c.signerKey block.builderSignature (block.digest c) = some q.bldInfo.blockSigningKey ∧
      pack = q.generateByBlock c block := by
  simp only [packOn, bind_eq_ok, fcAssert_eq_ok, beq_iff_eq]
  refine exists_congr fun q => and_congr_right fun _ => ?_
  simp only [exists_const]
  cases c.signerKey block.builderSignature (block.digest c) with
  | none => simp
  | some key =>
    simp only [bind_eq_ok, fcAssert_eq_ok, beq_iff_eq, Option.some.injEq, exists_const]
    refine and_congr_right fun _ => and_congr_right fun _ => ?_
    exact ⟨fun h => (Except.ok.inj h).symm, fun h => congrArg Except.ok h.symm⟩

theorem packOfBlock_eq {f : ForkContext} (h : block.previous ∈ f.packs) :
    packOfBlock c f block = packOn c (f.objs block.previous) block := by
  unfold packOfBlock getBlock
  rw [if_pos h]
  rfl

theorem packOn_same (h : SamePack pre pre') (hp : packOn c pre block = .ok pack) :
    ∃ pack', packOn c pre' block = .ok pack' ∧ SamePack pack pack' := by
  obtain ⟨q, hq, hbuilder, hkey, rfl⟩ := packOn_eq_ok.1 hp
  obtain ⟨q', hq', hcore, hsame⟩ := h.initByPrePack hq
  refine ⟨_, packOn_eq_ok.2 ⟨q', hq', by rw [hcore, hbuilder], by rw [hcore, hkey], rfl⟩, ?_⟩
  constructor <;> simp only [BlockPack.generateByBlock, hcore]
  · exact hsame.lastConfirmedNum
  · exact hsame.lastConfirmedId

theorem applied_same (h : SamePack pre pre') :
    applied cfg pre' found aborts db block = applied cfg pre found aborts db block :=
  applied_congr h.sameNext h.blockId.symm h.blockNum.symm

theorem place_of_applied (h : applied cfg pre found aborts db block = .ok db') :
    pre.blockId = block.previous ∧ u32 (pre.blockNum + 1) = block.blockNum ∧
      pre.newHeader.timestamp < block.timestamp := by
  obtain ⟨hdesc, -, hreplay⟩ := applied_eq_ok.1 h
  obtain ⟨trxs, started, b, -, hstart, -⟩ := replay_eq_ok.1 hreplay
  simp only [validateBlockDesc, bind_eq_ok, fcAssert_eq_ok, beq_iff_eq] at hdesc
  obtain ⟨-, hid, -, hnum, -⟩ := hdesc
  exact ⟨hid, hnum, startPack_later hstart⟩

/-- The pack of a block is numbered as the block is, and not above the seconds since genesis. -/
theorem InTree.timed (hG : G.blockNum = 1) (h : InTree cfg G g blocks pack db) :
    pack.blockNum + G.newHeader.timestamp ≤ pack.newHeader.timestamp + 1 := by
  induction h with
  | genesis => omega
  | @next pre _ _ _ _ parent mem made happlied ih =>
    obtain ⟨q, -, -, -, rfl⟩ := packOn_eq_ok.1 made
    obtain ⟨-, hnum, hlater⟩ := place_of_applied happlied
    have hle : u32 (pre.blockNum + 1) ≤ pre.blockNum + 1 := Nat.mod_le _ _
    simp only [BlockPack.generateByBlock, ← hnum]
    omega

end Made

/-! ## Nothing is confirmed -/

/-- A pack that names nothing above `L` as confirmed or as irreversible. -/
def BlockPack.Level (L : Summary) (p : BlockPack) : Prop :=
  p.lastConfirmedNum ≤ L.num ∧ p.dposIrreversibleNum ≤ L.num

section Level

variable {c : Crypto} {f f' : ForkContext} {L X q : Summary} {pack : BlockPack} {H : Type}

/-- Where no pack names anything above the last irreversible block, a new one is put in and nothing
else happens. -/
theorem ForkContext.Inv.addPack_level (handler : BlockPack → H → Except Fault H) (hi : Inv c f L X)
    (hq : q ∈ f.packs)
    (hmade : MadeFrom c (f.objs q) pack) (hparent : f.ParentOk q) (hfresh : pack.blockId ∉ f.packs)
    (hlevel : ∀ a ∈ f.packs, (f.objs a).Level L) (hpack : pack.Level L) :
    ∃ f' top, f.insert pack = .ok f' ∧ Inv c (f'.withHead top) L X ∧ HeadFirst (f'.withHead top) ∧
      ∀ h : H, ForkContext.addPack handler c pack (f, h) = .ok () (f'.withHead top, h) := by
  obtain ⟨hlow, hwrap⟩ := hparent
  rw [hi.num q hq] at hlow hwrap
  cases hins : f.insert pack with
  | error e =>
    unfold ForkContext.insert at hins
    rw [if_neg hfresh] at hins
    cases hins
  | ok f' =>
    obtain ⟨hi₁, -, -, -⟩ := hi.insert hq hmade hlow hwrap hins
    obtain ⟨top, hup, hi₂, hfirst⟩ := hi₁.updateHead
    obtain ⟨-, hpacks, hobjs, -⟩ := insert_eq_ok hins
    have htop : (f'.objs top).Level L := by
      have hmem : top ∈ f'.packs := hi₂.head_mem hfirst
      rw [hpacks, List.mem_append, List.mem_singleton] at hmem
      rw [hobjs, Function.update_apply]
      split_ifs with heq
      · exact hpack
      · exact hlevel top (hmem.resolve_right heq)
    refine ⟨f', top, rfl, hi₂, hfirst, fun h => ?_⟩
    have hsettle : ForkContext.settle handler (f'.withHead top, h) = .ok () (f'.withHead top, h) := by
      unfold ForkContext.settle
      cases hnum : (f'.withHead top).byNumber with
      | nil =>
        have := hi₂.permNumber.mem_iff.2 hi₂.last_mem
        rw [hnum] at this
        cases this
      | cons earliest rest =>
        have hmem : earliest ∈ (f'.withHead top).packs := hi₂.permNumber.mem_iff.1 (by simp [hnum])
        have hle := hi₂.last_le hmem
        have hblock := hi₂.num earliest hmem
        have hhead : (f'.withHead top).headPack = f'.objs top := rfl
        dsimp only
        rw [hblock, hhead, if_neg (by have := htop.1; omega), if_neg (by have := htop.2; omega)]
    unfold ForkContext.addPack
    rw [if_neg (not_not.2 hmade.id)]
    simp only [hins, hup]
    exact hsettle

end Level

/-! ## The tree of packs -/

structure FirstPack (c : Crypto) (G : BlockPack) : Prop where
  id : G.blockId = G.block.id c
  block : G.block.blockNum = 1
  num : G.blockNum = 1
  confirmedNum : G.lastConfirmedNum = 1
  confirmedId : G.lastConfirmedId = G.blockId
  dpos : G.dposIrreversibleNum = 0

/-- Every pack of the fork database but genesis has its parent there, its block is accepted on the
database that the blocks on its way leave, and it says what the pack that its block makes says. -/
structure Grown (cfg : ChainConfig) (G : BlockPack) (g : ChainDb) (blocks : List SignedBlock)
    (f : ForkContext) : Prop where
  core : (f.objs G.blockId).toPackCore = G.toPackCore
  root : SamePack (f.objs G.blockId) G
  grown : ∀ a ∈ f.packs, a ≠ G.blockId → f.up a ∈ f.packs ∧ ∃ way db db' block pack,
    Executed cfg G (.exact g) f.objs way (f.up a) db ∧
      applied cfg (f.objs (f.up a)) db true db (f.objs a).block = .ok db' ∧
      Adds cfg G g blocks db block pack db' ∧ SamePack (f.objs a) pack

section Grown

variable {f f' : ForkContext} {a q top : Summary} {pack pack' : BlockPack} {db db' : ChainDb}
  {way : List SignedBlock} {block : SignedBlock}

theorem Adds.inTree (h : Adds cfg G g blocks db block pack db') : InTree cfg G g blocks pack db' := by
  obtain ⟨parent, mem, made, applied⟩ := h
  exact .next parent mem made applied

theorem FirstPack.genesis {c : Crypto} {time : ℕ} {key : PublicKey} {sig : Signature}
    {receipts : List TransactionReceipt} {next : List BuilderInfo} :
    FirstPack c (BlockPack.genesis c time key sig receipts next) :=
  ⟨rfl, rfl, rfl, rfl, rfl, rfl⟩

theorem FirstPack.idNum {c : Crypto} (hG : FirstPack c G) : G.blockId.num = 1 := by
  rw [hG.id, BlockHeader.id_num, hG.block]

theorem Grown.inTree (h : Grown cfg G g blocks f) (hl : Linked cfg.crypto f) (ha : a ∈ f.packs) :
    ∃ way db pack, Executed cfg G (.exact g) f.objs way a db ∧ InTree cfg G g blocks pack db ∧
      SamePack (f.objs a) pack := by
  by_cases hroot : a = G.blockId
  · subst hroot
    exact ⟨_, g, G, .genesis h.core (.refl g), .genesis, h.root⟩
  · obtain ⟨-, way, db, db', block, pack, hexec, happlied, hadds, hsame⟩ := h.grown a ha hroot
    exact ⟨_, db', pack, .applied (hl.id a ha) (hl.previous a ha) (hl.upNum a ha) hexec
      (.of_replay (applied_eq_ok.1 happlied).2.2), hadds.inTree, hsame⟩

theorem Grown.anc (h : Grown cfg G g blocks f) (hl : Linked cfg.crypto f) (ha : a ∈ f.packs) :
    f.Anc a G.blockId := by
  induction hn : a.num generalizing a with
  | zero =>
    have := hl.upNum a ha
    omega
  | succ n ih =>
    by_cases hroot : a = G.blockId
    · subst hroot
      exact .refl ha
    · have hup := (h.grown a ha hroot).1
      exact .step ha (ih hup (by have := hl.upNum a ha; omega))

/-- Every pack names genesis as last confirmed, and nothing as irreversible by DPoS. -/
theorem Grown.named (h : Grown cfg G g blocks f) (hG : FirstPack cfg.crypto G)
    (hgood : AllGood cfg G g blocks) (hi : Inv cfg.crypto f G.blockId G.blockId) (ha : a ∈ f.packs) :
    (f.objs a).lastConfirmedNum = G.blockId.num ∧ (f.objs a).lastConfirmedId = G.blockId ∧
      (f.objs a).dposIrreversibleNum = 0 := by
  have hid := hi.related a ha (.inl (h.anc hi.toLinked ha))
  obtain ⟨way, db, pack, -, htree, hsame⟩ := h.inTree hi.toLinked ha
  have hlevel := (hgood.level pack db htree).2
  rw [hG.dpos] at hlevel
  refine ⟨by rw [hi.confirmedNum a ha, hid], hid, ?_⟩
  rw [hsame.dposIrreversibleNum]
  omega

/-- A block of the list on a pack of the fork database: what it makes there, and on which state. -/
theorem Grown.accepts (h : Grown cfg G g blocks f) (hG : FirstPack cfg.crypto G)
    (hgood : AllGood cfg G g blocks) (htime : 0 < G.newHeader.timestamp)
    (hi : Inv cfg.crypto f G.blockId G.blockId) (hmem : block ∈ blocks)
    (hq : block.previous ∈ f.packs) :
    f.ParentOk block.previous ∧ ∃ way db db' pack pack',
      Executed cfg G (.exact g) f.objs way block.previous db ∧
        packOn cfg.crypto (f.objs block.previous) block = .ok pack ∧
        applied cfg (f.objs block.previous) db true db block = .ok db' ∧
        Adds cfg G g blocks db block pack' db' ∧ SamePack pack pack' := by
  obtain ⟨way, db, pre, hexec, htree, hsame⟩ := h.inTree hi.toLinked hq
  have hprevious : pre.blockId = block.previous := by rw [← hsame.blockId, hi.blockId _ hq]
  obtain ⟨⟨pack', hmade⟩, db', happlied⟩ := hgood.accepted block hmem pre db htree hprevious
  obtain ⟨pack, hmade', hpack⟩ := packOn_same hsame.symm hmade
  refine ⟨⟨?_, ?_⟩, way, db, db', pack, pack', hexec, hmade', ?_, .mk htree hmem hmade happlied,
    hpack.symm⟩
  · rw [(h.named hG hgood hi hq).1, hi.num _ hq]
    exact hi.last_le hq
  · have htimed := htree.timed hG.num
    have hlater := (place_of_applied happlied).2.2
    have hstamp := hgood.stamps block hmem
    rw [hsame.blockNum]
    omega
  · rw [applied_same hsame.symm]
    exact happlied

theorem Grown.executed_insert (h : Grown cfg G g blocks f) (hG : FirstPack cfg.crypto G)
    (hins : f.insert pack = .ok f') (hnum : 0 < pack.blockId.num)
    (ha : a ∈ f.packs) (hexec : Executed cfg G (.exact g) f.objs way a db) :
    Executed cfg G (.exact g) f'.objs way a db := by
  obtain ⟨hfresh, -, hobjs, -⟩ := insert_eq_ok hins
  refine hexec.congr_on (S := fun x => x ∈ f.packs ∨ x.num = 0) (.inl ha) (fun x hx hup => ?_)
    fun x hx => ?_
  · rcases hx with hx | hx
    · by_cases hroot : x = G.blockId
      · rw [hroot, hG.idNum, ← hroot] at hup
        exact .inr (by omega)
      · exact .inl (h.grown x hx hroot).1
    · omega
  · have hne : x ≠ pack.blockId := by
      rintro rfl
      rcases hx with hx | hx
      · exact hfresh hx
      · omega
    rw [hobjs, Function.update_of_ne hne]

theorem Grown.insert (h : Grown cfg G g blocks f) (hG : FirstPack cfg.crypto G)
    (hi : Inv cfg.crypto f G.blockId G.blockId) (hins : f.insert pack = .ok f') (hq : q ∈ f.packs)
    (hup : pack.prevId = q) (hnum : pack.blockId.num = q.num + 1)
    (hexec : Executed cfg G (.exact g) f.objs way q db)
    (happlied : applied cfg (f.objs q) db true db pack.block = .ok db')
    (hadds : Adds cfg G g blocks db block pack' db') (hsame : SamePack pack pack') :
    Grown cfg G g blocks (f'.withHead top) := by
  obtain ⟨hfresh, hpacks, hobjs, -⟩ := insert_eq_ok hins
  have hold : ∀ a ∈ f.packs, f'.objs a = f.objs a := fun a ha => by
    rw [hobjs, Function.update_of_ne (ne_of_mem_of_not_mem ha hfresh)]
  have hself : f'.objs pack.blockId = pack := by rw [hobjs, Function.update_self]
  have hupOf : ∀ a, (f'.withHead top).up a = (f'.objs a).prevId := fun _ => rfl
  have hexec' : ∀ {a way db}, a ∈ f.packs → Executed cfg G (.exact g) f.objs way a db →
      Executed cfg G (.exact g) f'.objs way a db := fun ha =>
    h.executed_insert hG hins (by omega) ha
  refine ⟨?_, ?_, fun a ha hroot => ?_⟩
  · change (f'.objs G.blockId).toPackCore = _
    rw [hold _ hi.last_mem]
    exact h.core
  · change SamePack (f'.objs G.blockId) G
    rw [hold _ hi.last_mem]
    exact h.root
  · change a ∈ f'.packs at ha
    change (f'.objs a).prevId ∈ f'.packs ∧ ∃ way db db' block pack, Executed cfg G (.exact g) f'.objs way
      (f'.objs a).prevId db ∧ applied cfg (f'.objs (f'.objs a).prevId) db true db (f'.objs a).block
        = .ok db' ∧ _ ∧ SamePack (f'.objs a) pack
    rw [hpacks, List.mem_append, List.mem_singleton] at ha
    simp only [hpacks, List.mem_append, List.mem_singleton]
    rcases ha with ha | rfl
    · obtain ⟨hmem, way, db, db', block, pack, hway, happ, hin, heq⟩ := h.grown a ha hroot
      rw [hold a ha]
      refine ⟨.inl hmem, way, db, db', block, pack, hexec' hmem hway, ?_, hin, heq⟩
      change applied cfg (f'.objs (f.up a)) db true db (f.objs a).block = _
      rw [hold _ hmem]
      exact happ
    · rw [hself, hup, hold q hq]
      exact ⟨.inl hq, way, db, db', block, pack', hexec' hq hexec, happlied, hadds, hsame⟩

theorem Grown.of_sameTree {s t : ChainState} (h : Grown cfg G g blocks s.fork)
    (hi : Inv cfg.crypto s.fork G.blockId G.blockId) (hi' : Inv cfg.crypto t.fork G.blockId G.blockId)
    (hsame : SameTree s t) : Grown cfg G g blocks t.fork := by
  have hcore := hsame.cores.core
  have hid : ∀ a ∈ s.fork.packs, (t.fork.objs a).lastConfirmedId = (s.fork.objs a).lastConfirmedId :=
    fun a ha => by
      have hanc := h.anc hi.toLinked ha
      rw [hi.related a ha (.inl hanc)]
      refine hi'.related a (by rw [hsame.cores.packs]; exact ha) (.inl ?_)
      rw [hsame.cores.up, hsame.cores.packs]
      exact hanc
  refine ⟨(hcore _).trans h.core,
    h.root.of_core (hcore _) (hsame.confirmed _) (hid _ hi.last_mem), fun a ha hroot => ?_⟩
  rw [hsame.cores.packs] at ha
  obtain ⟨hmem, way, db, db', block, pack, hway, happ, hadds, heq⟩ := h.grown a ha hroot
  rw [hsame.cores.up, hsame.cores.packs]
  refine ⟨hmem, way, db, db', block, pack, hway.congr fun x _ => hcore x, ?_, hadds,
    heq.of_core (hcore a) (hsame.confirmed a) (hid a ha)⟩
  rw [applied_core (hcore _), show (t.fork.objs a).block = (s.fork.objs a).block by rw [hcore a]]
  exact happ

theorem Grown.branchFault_none (h : Grown cfg G g blocks f) (hG : FirstPack cfg.crypto G)
    (hl : Linked cfg.crypto f) {ids : List Summary}
    (hchain : (a :: ids).IsChain fun a b => f.up b = a)
    (hids : ∀ b ∈ ids, b ∈ f.packs ∧ b ≠ G.blockId) (hexec : Executed cfg G (.exact g) f.objs way a db) :
    branchFault cfg f.objs (f.objs a) db true db ids = none := by
  induction ids generalizing a db way with
  | nil => rfl
  | cons b ids ih =>
    obtain ⟨hup, hchain'⟩ := List.isChain_cons_cons.1 hchain
    obtain ⟨hb, hroot⟩ := hids b List.mem_cons_self
    obtain ⟨-, way', db₁, db', -, pack, hway, happlied, -⟩ := h.grown b hb hroot
    have hnext : Executed cfg G (.exact g) f.objs ((f.objs b).block :: way') b db' :=
      .applied (hl.id b hb) (hl.previous b hb) (hl.upNum b hb) hway
        (.of_replay (applied_eq_ok.1 happlied).2.2)
    rw [hup] at hway happlied
    obtain ⟨-, rfl⟩ := hexec.unique hG.block hG.id hway
    unfold branchFault
    rw [happlied]
    exact ih hchain' (fun x hx => hids x (List.mem_cons_of_mem _ hx)) hnext

section Blocks

variable (hid : ∀ h h' : BlockHeader, h.id cfg.crypto = h'.id cfg.crypto → h = h')
  (h : Grown cfg G g blocks f) (hi : Inv cfg.crypto f G.blockId G.blockId)

include hid h hi

/-- The block of the list that a pack comes of, and what its session can be undone for. -/
theorem Grown.block_of (ha : a ∈ f.packs) (hroot : a ≠ G.blockId) (hG : FirstPack cfg.crypto G) :
    ∃ x ∈ blocks, x.id cfg.crypto = a ∧ x.previous = f.up a ∧
      (Retractable cfg G g blocks x → ∀ way db db', Executed cfg G (.exact g) f.objs way (f.up a) db →
        (Origin.exact g).Replays cfg (f.objs (f.up a)) db (f.objs a).block db' →
          GivesBack db.erc721Accounts db'.erc721Accounts) := by
  obtain ⟨-, way, db, db', x, pack, hexec, happlied, ⟨htree, hmem, hmade, happ⟩, hsame⟩ :=
    h.grown a ha hroot
  obtain ⟨q, -, -, -, rfl⟩ := packOn_eq_ok.1 hmade
  have hx : x.id cfg.crypto = a := hsame.blockId.symm.trans (hi.blockId a ha)
  have hheader : x.toBlockHeader = (f.objs a).block.toBlockHeader := hid _ _ (hx.trans (hi.id a ha).symm)
  have hprevious : x.previous = f.up a :=
    (congrArg BlockHeader.previous hheader).trans (hi.previous a ha)
  refine ⟨x, hmem, hx, hprevious, fun hretract way' d d' hexec' hrun => ?_⟩
  obtain ⟨-, rfl⟩ := hexec.unique hG.block hG.id hexec'
  obtain rfl : db' = d' :=
    Except.ok.inj ((applied_eq_ok.1 happlied).2.2.symm.trans (replays_exact.1 hrun))
  exact hretract _ _ _ htree (place_of_applied happ).1 happ

theorem Grown.onWay {x : SignedBlock} (hanc : f.Anc a (x.id cfg.crypto)) (hG : FirstPack cfg.crypto G) :
    OnWay cfg.crypto blocks x a := by
  generalize hx : x.id cfg.crypto = b at hanc
  induction hanc with
  | refl _ =>
    rw [← hx]
    exact .here
  | @step a _ ha rest ih =>
    have hroot : a ≠ G.blockId := fun heq => by
      have hlow := hi.last_le rest.mem_left
      have hnum := hi.upNum a ha
      rw [← heq] at hlow
      omega
    obtain ⟨y, hy, hid', hprevious, -⟩ := h.block_of hid hi ha hroot hG
    have hnum : y.previous.num + 1 = (y.id cfg.crypto).num := by
      rw [hprevious, hid']
      exact hi.upNum a ha
    rw [← hid']
    exact .pass hy hnum (by rw [hprevious]; exact ih hx)

omit h hi hid in
theorem OnWay.num_le {c : Crypto} {x : SignedBlock} (hway : OnWay c blocks x a) :
    (x.id c).num ≤ a.num := by
  induction hway with
  | here => exact le_rfl
  | pass _ num _ ih => omega

/-- What is on the way of a pack is above it, if it is not below genesis. -/
theorem Grown.anc_of_onWay {x : SignedBlock} (hway : OnWay cfg.crypto blocks x a)
    (ha : a ∈ f.packs) (hx : 0 < (x.id cfg.crypto).num) (hG : FirstPack cfg.crypto G) :
    f.Anc a (x.id cfg.crypto) := by
  induction hway with
  | here => exact .refl ha
  | @pass y mem num rest ih =>
    have hroot : y.id cfg.crypto ≠ G.blockId := fun heq => by
      have hle := rest.num_le
      rw [heq, hG.idNum] at num
      omega
    have hup : y.previous = f.up (y.id cfg.crypto) := by
      have hheader := hid _ _ (hi.id _ ha)
      exact (congrArg BlockHeader.previous hheader).symm.trans (hi.previous _ ha)
    refine .step ha ?_
    rw [← hup]
    exact ih (by rw [hup]; exact (h.grown _ ha hroot).1)

end Blocks

end Grown

/-! ## A node that blocks are delivered to -/

/-- What holds of a node to which good blocks were delivered: `block_head` is the head of the fork
database, and no pack is above it. -/
structure Delivered (cfg : ChainConfig) (G : BlockPack) (g : ChainDb) (blocks : List SignedBlock)
    (s : ChainState) : Prop where
  good : Good cfg G (.exact g) s G.blockId G.blockId
  grown : Grown cfg G g blocks s.fork
  idle : s.building = none
  head : s.fork.head = s.blockHead
  highest : ∀ a ∈ s.fork.packs, a.num ≤ s.blockHead.num
  last : s.sink.lastIrreversibleBlockNum = 0

section Node

variable {s t : ChainState} {block : SignedBlock}

theorem Delivered.put {pack pack' : BlockPack} {q : Summary} {way : List SignedBlock}
    {db db' : ChainDb} (h : Delivered cfg G g blocks s) (hG : FirstPack cfg.crypto G)
    (hgood : AllGood cfg G g blocks) (hq : q ∈ s.fork.packs)
    (hmade : MadeFrom cfg.crypto (s.fork.objs q) pack) (hparent : s.fork.ParentOk q)
    (hfresh : pack.blockId ∉ s.fork.packs) (hexec : Executed cfg G (.exact g) s.fork.objs way q db)
    (happlied : applied cfg (s.fork.objs q) db true db pack.block = .ok db')
    (hadds : Adds cfg G g blocks db block pack' db') (hsame : SamePack pack pack') :
    ∃ f' top, s.fork.insert pack = .ok f' ∧
      Inv cfg.crypto (f'.withHead top) G.blockId G.blockId ∧
      Grown cfg G g blocks (f'.withHead top) ∧ top ∈ f'.packs ∧
      (∀ a ∈ f'.packs, a.num < top.num ∨
        a.num = top.num ∧ (f'.objs a).mainChain.toNat ≤ (f'.objs top).mainChain.toNat) ∧
      ∀ sink : Sink ChainDb, ForkContext.addPack (onIrreversible cfg.crypto) cfg.crypto pack
        (s.fork, sink) = .ok () (f'.withHead top, sink) := by
  have hi := h.good.inv
  obtain ⟨hprev, hnum⟩ := hmade.place hi.toLinked hq hparent
  have hlevel : ∀ a ∈ s.fork.packs, (s.fork.objs a).Level G.blockId := fun a ha => by
    obtain ⟨hlc, -, hdpos⟩ := h.grown.named hG hgood hi ha
    exact ⟨hlc.le, by omega⟩
  have hpack : pack.Level G.blockId := by
    obtain ⟨hlc, hdpos⟩ := hgood.level pack' db' hadds.inTree
    rw [hG.confirmedNum, ← hG.idNum] at hlc
    rw [hG.dpos] at hdpos
    exact ⟨by rwa [hsame.lastConfirmedNum], by rw [hsame.dposIrreversibleNum]; omega⟩
  obtain ⟨f', top, hins, hi', hfirst, hadd⟩ := hi.addPack_level
    (onIrreversible cfg.crypto) hq hmade hparent hfresh hlevel hpack
  have hgrown : Grown cfg G g blocks (f'.withHead top) :=
    h.grown.insert hG hi hins hq hprev hnum hexec happlied hadds hsame
  have htop : top ∈ f'.packs := hi'.head_mem hfirst
  refine ⟨f', top, hins, hi', hgrown, htop, fun a ha => ?_, hadd⟩
  obtain ⟨rest, hrest⟩ := hfirst
  have hle : longestLe (f'.objs top) (f'.objs a) := (hi'.top hrest ha).2
  obtain ⟨hlc, -, hdpos⟩ := hgrown.named hG hgood hi' ha
  obtain ⟨hlc', -, hdpos'⟩ := hgrown.named hG hgood hi' htop
  have hnumA := hi'.num a ha
  have hnumT := hi'.num top htop
  simp only [withHead] at hlc hdpos hlc' hdpos' hnumA hnumT
  unfold longestLe at hle
  omega

theorem Delivered.confirm (hid : ∀ h h' : BlockHeader, h.id cfg.crypto = h'.id cfg.crypto → h = h')
    (h : Delivered cfg G g blocks s) (hG : FirstPack cfg.crypto G) (hgood : AllGood cfg G g blocks)
    (htime : 0 < G.newHeader.timestamp) (hmem : block ∈ blocks) (hprev : s.blockHead = block.previous) :
    ∃ t, confirmBlock cfg block s = .ok () t ∧ Delivered cfg G g blocks t ∧
      t.blockHead = block.id cfg.crypto ∧
      ∀ a, a ∈ t.fork.packs ↔ a ∈ s.fork.packs ∨ a = block.id cfg.crypto := by
  have hi := h.good.inv
  have hq := h.good.headPack_mem
  obtain ⟨blocks', u, hb, ho⟩ := h.good.backed
  have hdb : s.sink.blockDb = u := by
    rw [h.idle] at ho
    exact ho
  obtain ⟨hparent, way, db, db', pack, pack', hexec, hmade, happlied, htree, hsame⟩ :=
    h.grown.accepts hG hgood htime hi hmem (hprev ▸ hq)
  rw [← hprev] at hparent hexec hmade happlied
  obtain ⟨-, rfl⟩ := hexec.unique hG.block hG.id (hb.executed hi.toLinked)
  -- the block runs to its end
  have hcan : decide s.CanAbort = true := decide_eq_true (.inl h.idle)
  rcases @applyBlock_run cfg s u block true ho with
    ⟨e, s', -, -, herr⟩ | ⟨trxs, start, b, hstart, hbody, happ, hrun⟩
  · rw [hdb, hcan] at herr
    cases herr.symm.trans happlied
  have hdbs : b.db = db' := by
    rw [hdb, hcan] at happ
    exact Except.ok.inj (happ.symm.trans happlied)
  have hbuilt : BuiltOn cfg s.headPack u.cur b := .of_blockBody hstart (seals_validate _ _) hbody
  -- and its pack is the one that the fork database would have made
  obtain ⟨hdesc, -⟩ := applied_eq_ok.1 happlied
  obtain ⟨q, hinit, hpack⟩ := SamePack.of_blockBody hid hdesc hstart hbody
  obtain ⟨q', hinit', -, -, rfl⟩ := packOn_eq_ok.1 hmade
  obtain rfl : q = q' := Except.ok.inj (hinit.symm.trans hinit')
  obtain ⟨hheader, -, p, hbp⟩ := header_of_blockBody hid hbody
  have hblock : b.pack.block.toSignedBlockHeader = block.toSignedBlockHeader := by rw [hbp]
  have hblockId : b.pack.blockId = block.id cfg.crypto := by rw [hbp]
  have happlied' : applied cfg (s.fork.objs s.blockHead) u.cur true u.cur b.pack.block = .ok db' := by
    refine applied_eq_ok.2 ⟨?_, rfl, by rw [← hdbs]; exact hbuilt.replayed⟩
    rw [← hdesc]
    unfold validateBlockDesc
    rw [hblock]
  have hmadeFrom : MadeFrom cfg.crypto (s.fork.objs s.blockHead) b.pack := hbuilt.made
  obtain ⟨-, hnum⟩ := hmadeFrom.place hi.toLinked hq hparent
  have hfresh : b.pack.blockId ∉ s.fork.packs := fun hin => by
    have := h.highest _ hin
    omega
  obtain ⟨f', top, hins, hi', hgrown, htop, hfirst, hadd⟩ := h.put hG hgood hq hmadeFrom hparent hfresh
    hexec happlied' htree (hpack.symm.trans hsame)
  obtain ⟨-, hpacks, hobjs, -⟩ := insert_eq_ok hins
  have hnew : b.pack.blockId ∈ f'.packs := by simp [hpacks]
  -- the new pack is the only one that is above the old head
  obtain rfl : top = b.pack.blockId := by
    rw [hpacks, List.mem_append, List.mem_singleton] at htop
    refine htop.resolve_left fun hold => ?_
    have hle := h.highest top hold
    rcases hfirst _ hnew with hlt | ⟨heq, -⟩ <;> omega
  have hself : f'.objs b.pack.blockId = b.pack := by rw [hobjs, Function.update_self]
  have hlead : s.NextLeads := fun a ha hle => by
    have hle := (hmadeFrom.longestLe_iff hbuilt.mainChain).2 hle
    obtain ⟨hlc, -, hdpos⟩ := h.grown.named hG hgood hi ha
    obtain ⟨hlc', -, hdpos'⟩ := hgrown.named hG hgood hi' hnew
    have hnumB := hi'.num _ hnew
    have hnumA := hi.num a ha
    have := h.highest a ha
    simp only [withHead, hself] at hlc' hdpos' hnumB
    unfold longestLe at hle
    omega
  let t : ChainState :=
    { s.started u b with
      fork := f'.withHead b.pack.blockId, blockHead := b.pack.blockId, building := none }
  have hpush : (pushBlock cfg true >>= fun _ => commitBlock) (s.started u b) = .ok () t := by
    rw [run_bind_ok (pushBlock_of_addPack hmadeFrom.previous.symm (hadd _) rfl)]
    rfl
  have hgoodT : Good cfg G (.exact g) t G.blockId G.blockId := by
    rcases h.good.push hb hbuilt hparent hlead with ⟨e, s', herr, -⟩ | ⟨s', L', hok, hgood', -⟩
    · cases herr.symm.trans hpush
    · cases hok.symm.trans hpush
      obtain rfl := hi'.last_unique hgood'.inv
      exact hgood'
  have hpacksT : ∀ a, a ∈ t.fork.packs ↔ a ∈ s.fork.packs ∨ a = block.id cfg.crypto := fun a => by
    change a ∈ f'.packs ↔ _
    rw [hpacks, List.mem_append, List.mem_singleton, hblockId]
  refine ⟨t, hrun.trans hpush, ⟨hgoodT, hgrown, rfl, rfl, fun a ha => ?_, h.last⟩, hblockId, hpacksT⟩
  change a.num ≤ b.pack.blockId.num
  rcases (hpacksT a).1 ha with hold | rfl
  · have := h.highest a hold
    omega
  · rw [hblockId]

/-- What holds when a block has been put in for a fork: the head of the fork database is the highest
pack, the one on the main chain among equals. -/
structure PutIn (cfg : ChainConfig) (G : BlockPack) (g : ChainDb) (blocks : List SignedBlock)
    (block : SignedBlock) (s t : ChainState) : Prop where
  good : Good cfg G (.exact g) t G.blockId G.blockId
  grown : Grown cfg G g blocks t.fork
  blockHead : t.blockHead = s.blockHead
  sink : t.sink = s.sink
  building : t.building = s.building
  packs : ∀ a, a ∈ t.fork.packs ↔ a ∈ s.fork.packs ∨ a = block.id cfg.crypto
  head : t.fork.head ∈ t.fork.packs
  first : ∀ a ∈ t.fork.packs, a.num < t.fork.head.num ∨
    a.num = t.fork.head.num ∧ (t.fork.objs a).mainChain.toNat ≤ t.fork.headPack.mainChain.toNat
  offMain : (t.fork.objs (block.id cfg.crypto)).mainChain = false
  up : t.fork.up (block.id cfg.crypto) = block.previous

theorem Delivered.addForkBlock (h : Delivered cfg G g blocks s) (hG : FirstPack cfg.crypto G)
    (hgood : AllGood cfg G g blocks) (htime : 0 < G.newHeader.timestamp) (hmem : block ∈ blocks)
    (hq : block.previous ∈ s.fork.packs) (hfresh : block.id cfg.crypto ∉ s.fork.packs) :
    ∃ t, addForkBlock cfg block s = .ok () t ∧ PutIn cfg G g blocks block s t := by
  have hi := h.good.inv
  obtain ⟨hparent, way, db, db', pack, pack', hexec, hmade, happlied, htree, hsame⟩ :=
    h.grown.accepts hG hgood htime hi hmem hq
  have hpack : packOfBlock cfg.crypto s.fork block = .ok pack := by rw [packOfBlock_eq hq, hmade]
  obtain ⟨-, hmadeFrom⟩ := MadeFrom.of_packOfBlock hi.toLinked hpack
  obtain ⟨q, -, -, -, rfl⟩ := packOn_eq_ok.1 hmade
  obtain ⟨f', top, hins, hi', hgrown, htop, hfirst, hadd⟩ := h.put hG hgood hq hmadeFrom hparent hfresh
    hexec happlied htree hsame
  obtain ⟨-, hpacks, hobjs, -⟩ := insert_eq_ok hins
  have hself : f'.objs (block.id cfg.crypto) = q.generateByBlock cfg.crypto block := by
    rw [hobjs]
    exact Function.update_self ..
  let t : ChainState := { s with fork := f'.withHead top }
  have hrun : XmaxChain.addForkBlock cfg block s = .ok () t := by
    unfold XmaxChain.addForkBlock ForkContext.addBlock
    simp only [hpack, hadd]
    rfl
  -- every pack names genesis only, which is on the way of every block
  have hok : s.ForkOk cfg block := by
    refine ⟨fun _ => hparent, fun p hp r ⟨hr, _⟩ => ?_⟩
    obtain rfl : q.generateByBlock cfg.crypto block = p := Except.ok.inj (hpack.symm.trans hp)
    have hnamed : r.lastConfirmedId = G.blockId ∧ r.dposIrreversibleNum = 0 := by
      rcases hr with rfl | ⟨a, ha, rfl⟩
      · obtain ⟨-, hlc, hdpos⟩ := hgrown.named hG hgood hi' (a := block.id cfg.crypto)
          (by simp [withHead, hpacks, BlockPack.generateByBlock])
        simp only [withHead, hself] at hlc hdpos
        exact ⟨hlc, hdpos⟩
      · exact (h.grown.named hG hgood hi ha).2
    refine ⟨fun _ => ?_, fun hne => absurd hnamed.2 hne⟩
    rw [hnamed.1]
    exact h.grown.anc hi.toLinked h.good.headPack_mem
  have hgoodT : Good cfg G (.exact g) t G.blockId G.blockId := by
    rcases h.good.addForkBlock hok with ⟨e, herr⟩ | ⟨s', L', p, hok', hgood', -⟩
    · cases herr.symm.trans hrun
    · cases hok'.symm.trans hrun
      obtain rfl := hi'.last_unique hgood'.inv
      exact hgood'
  refine ⟨t, hrun, hgoodT, hgrown, rfl, rfl, rfl, fun a => ?_, htop, hfirst, ?_, ?_⟩
  · change a ∈ f'.packs ↔ _
    rw [hpacks, List.mem_append, List.mem_singleton]
    rfl
  · change (f'.objs (block.id cfg.crypto)).mainChain = false
    rw [hself]
    exact packOfBlock_mainChain hpack
  · change (f'.objs (block.id cfg.crypto)).prevId = _
    rw [hself]
    rfl

theorem PutIn.stays (h : PutIn cfg G g blocks block s t) (hs : Delivered cfg G g blocks s)
    (hle : (block.id cfg.crypto).num ≤ s.blockHead.num) :
    checkFork cfg t = .ok () t ∧ Delivered cfg G g blocks t := by
  have hi := h.good.inv
  have hbh := h.good.headPack_mem
  have hmain := (h.good.main _ hbh).2 (.refl hbh)
  have hhighest : ∀ a ∈ t.fork.packs, a.num ≤ t.blockHead.num := fun a ha => by
    rw [h.blockHead]
    rcases (h.packs a).1 ha with hold | rfl
    · exact hs.highest a hold
    · exact hle
  have htop := hhighest _ h.head
  obtain ⟨hnum, hflag⟩ := (h.first _ hbh).resolve_left (by omega)
  have hon : t.fork.headPack.mainChain = true := by
    rw [hmain] at hflag
    cases hcase : t.fork.headPack.mainChain with
    | true => rfl
    | false =>
      rw [hcase] at hflag
      cases hflag
  have hhead : t.fork.head = t.blockHead :=
    ((h.good.main _ h.head).1 hon).eq_of_rank hi.upNum hnum.symm
  refine ⟨checkForkLoop_of_main hon, h.good, h.grown, h.building.trans hs.idle, hhead, hhighest, ?_⟩
  rw [h.sink]
  exact hs.last

/-- What is popped for a block above `block_head` can be undone. -/
theorem PutIn.popsUndoable (hid : ∀ h h' : BlockHeader, h.id cfg.crypto = h'.id cfg.crypto → h = h')
    (h : PutIn cfg G g blocks block s t) (hs : Delivered cfg G g blocks s)
    (hG : FirstPack cfg.crypto G) (hhead : t.fork.head = block.id cfg.crypto)
    (hback : ∀ x ∈ blocks, OnWay cfg.crypto blocks x s.blockHead →
      ¬ OnWay cfg.crypto blocks x (block.id cfg.crypto) → Retractable cfg G g blocks x) :
    t.PopsUndoable := by
  intro _ branches hfetch
  have hi := h.good.inv
  have hbh := h.good.headPack_mem
  obtain ⟨way, u, hb, ho⟩ := h.good.backed
  rw [h.building.trans hs.idle] at ho
  obtain rfl : t.sink.blockDb = u := ho
  have hancG : ∀ a ∈ t.fork.packs, t.fork.Anc a G.blockId := fun a ha => h.grown.anc hi.toLinked ha
  rw [show t.headPack.blockId = t.blockHead from hi.blockId _ hbh] at hfetch
  obtain ⟨r, hr, hlow⟩ := fetchBranchFromFork_lowest hi.numbersFollow (hancG _ hbh) (hancG _ h.head)
  obtain rfl : r = branches := Except.ok.inj (hr.symm.trans hfetch)
  obtain ⟨hfirst, -⟩ := fetchBranchFromFork_ways hr
  have habove : ∀ x ∈ r.first, x ≠ G.blockId := fun x hx heq => by
    have hlt := hfirst.rank_lt hi.upNum x hx
    have hle := hi.last_le hfirst.anc.mem_right
    rw [heq] at hlt
    omega
  refine hb.undoableBy hi.toLinked hfirst habove fun x hx => ?_
  have hmem := hfirst.known x hx
  obtain ⟨y, hy, rfl, -, hgives⟩ := h.grown.block_of hid hi hmem (habove x hx) hG
  obtain ⟨hancx, hlt⟩ := hfirst.rank_lt_of_known (fun a ha _ => hi.upNum a ha) _ hx
  refine hgives (hback y hy ?_ fun hway => ?_)
  · rw [← h.blockHead]
    exact h.grown.onWay hid hi hancx hG
  · -- the branches meet below what only one of them has
    have hpos : 0 < (y.id cfg.crypto).num := by
      have := hi.upNum _ hmem
      omega
    have hanc := h.grown.anc_of_onWay hid hi hway ((h.packs _).2 (.inr rfl)) hpos hG
    rw [← hhead] at hanc
    have hle := (hlow _ hancx hanc).rank_le hi.upNum
    omega

/-- A block above `block_head` that is not its next one: the node switches to it. -/
theorem PutIn.switches (hid : ∀ h h' : BlockHeader, h.id cfg.crypto = h'.id cfg.crypto → h = h')
    (h : PutIn cfg G g blocks block s t) (hs : Delivered cfg G g blocks s)
    (hG : FirstPack cfg.crypto G) (hq : block.previous ∈ s.fork.packs)
    (hprev : s.blockHead ≠ block.previous)
    (hlt : s.blockHead.num < (block.id cfg.crypto).num)
    (hback : ∀ x ∈ blocks, OnWay cfg.crypto blocks x s.blockHead →
      ¬ OnWay cfg.crypto blocks x (block.id cfg.crypto) → Retractable cfg G g blocks x) :
    ∃ t', checkFork cfg t = .ok () t' ∧ Delivered cfg G g blocks t' ∧
      t'.blockHead = block.id cfg.crypto ∧ t'.fork.packs = t.fork.packs := by
  have hi := h.good.inv
  have hnew := (h.packs _).2 (.inr rfl)
  have hnum := hi.upNum _ hnew
  rw [h.up] at hnum
  have hprevLe := hs.highest _ hq
  -- the new pack is the only one above the old head
  have hhead : t.fork.head = block.id cfg.crypto := by
    refine ((h.packs _).1 h.head).resolve_left fun hold => ?_
    have := hs.highest _ hold
    rcases h.first _ hnew with hlt' | ⟨heq, -⟩ <;> omega
  have hoff : t.fork.headPack.mainChain = false := by
    rw [headPack, hhead]
    exact h.offMain
  have hanc : t.fork.Anc t.fork.head G.blockId := h.grown.anc hi.toLinked h.head
  have hapart : ¬ t.fork.Related t.fork.head t.blockHead := by
    rw [hhead, h.blockHead]
    rintro (hup | hdown)
    · have hne : block.id cfg.crypto ≠ s.blockHead := by
        rintro heq
        rw [heq] at hlt
        exact lt_irrefl _ hlt
      have hup' := hup.up_of_ne hne
      change t.fork.Anc (t.fork.up (block.id cfg.crypto)) s.blockHead at hup'
      rw [h.up] at hup'
      exact hprev (hup'.eq_of_rank hi.upNum (by omega))
    · have := hdown.rank_le hi.upNum
      omega
  have hundo := h.popsUndoable hid hs hG hhead hback
  -- nothing on its branch is refused
  have hfault : t.switchFault cfg = none := by
    obtain ⟨branch, r, hpop⟩ := h.good.popped hanc hapart hoff hundo
    have hir := hpop.good.inv
    have hidle : r.building = none := hpop.building.trans (h.building.trans hs.idle)
    obtain ⟨way, u, hb, ho⟩ := hpop.good.backed
    rw [hidle] at ho
    obtain rfl : r.sink.blockDb = u := ho
    have habort : r.abortBuild = r := by rw [ChainState.abortBuild, hidle]
    have hcan : decide r.CanAbort = true := decide_eq_true (.inl hidle)
    rw [hpop.fault, habort, hcan]
    refine (h.grown.of_sameTree hi hir hpop.same).branchFault_none hG hir.toLinked
      hpop.way.isChain_reverse (fun a ha => ?_) (hb.executed hir.toLinked)
    rw [List.mem_reverse] at ha
    refine ⟨hpop.way.known a ha, ?_⟩
    rintro rfl
    have := hpop.way.rank_lt hir.upNum _ ha
    have := hir.last_le hpop.good.headPack_mem
    omega
  have hend := h.good.switchFork_end hanc hapart hoff hundo
  rw [hfault] at hend
  generalize hrun : switchFork cfg t = result at hend
  cases hend with
  | @all t' good head same idle =>
    have hcores := same.cores
    have hself := (good.main _ good.headPack_mem).2 (.refl good.headPack_mem)
    have hheads : t'.fork.head = t'.blockHead := hcores.head.trans head.symm
    have hon : t'.fork.headPack.mainChain = true := by
      rw [headPack, hheads]
      exact hself
    refine ⟨t', ?_, ⟨good, h.grown.of_sameTree hi good.inv same, idle (h.building.trans hs.idle), hheads,
      fun a ha => ?_, ?_⟩, head.trans hhead, hcores.packs⟩
    · obtain ⟨n, hn⟩ : ∃ n, t.fork.packs.length = n + 1 :=
        ⟨t.fork.packs.length - 1, by have := List.length_pos_of_mem hnew; omega⟩
      rw [checkFork, checkForkLoop_of_round hoff, run_bind_ok hrun, hn, checkForkLoop_of_main hon]
    · rw [hcores.packs] at ha
      rw [head, hhead]
      rcases (h.packs a).1 ha with hold | rfl
      · have := hs.highest a hold
        omega
      · exact le_rfl
    · rw [same.last, h.sink]
      exact hs.last

theorem addForkBlock_known (h : block.id cfg.crypto ∈ s.fork.packs) :
    ∃ e, addForkBlock cfg block s = .error e s := by
  unfold addForkBlock ForkContext.addBlock
  cases hpack : packOfBlock cfg.crypto s.fork block with
  | error e => exact ⟨e, rfl⟩
  | ok pack =>
    obtain ⟨-, q, -, rfl⟩ := packOfBlock_ok hpack
    have hins : s.fork.insert (q.generateByBlock cfg.crypto block)
        = .error (.fc "unable to insert block state, duplicate state detected") := if_pos h
    have hadd : ForkContext.addPack (onIrreversible cfg.crypto) cfg.crypto
        (q.generateByBlock cfg.crypto block) (s.fork, s.sink)
          = .error (.fc "unable to insert block state, duplicate state detected") (s.fork, s.sink) := by
      have hid : (q.generateByBlock cfg.crypto block).blockId
          = (q.generateByBlock cfg.crypto block).block.id cfg.crypto := rfl
      unfold ForkContext.addPack
      rw [if_neg (not_not.2 hid)]
      simp only [hins]
    simp only [hadd]
    exact ⟨_, rfl⟩

theorem Delivered.receive (hid : ∀ h h' : BlockHeader, h.id cfg.crypto = h'.id cfg.crypto → h = h')
    (h : Delivered cfg G g blocks s) (hG : FirstPack cfg.crypto G) (hgood : AllGood cfg G g blocks)
    (htime : 0 < G.newHeader.timestamp) (hmem : block ∈ blocks) (hq : block.previous ∈ s.fork.packs)
    {top : SignedBlock} (htop : s.blockHead = top.id cfg.crypto)
    (hleave : LeavesGood cfg G g blocks top block) :
    Delivered cfg G g blocks (stateOf (receiveBlock cfg block s)) ∧
      (stateOf (receiveBlock cfg block s)).blockHead = (taller top block).id cfg.crypto ∧
      ∀ a, a ∈ (stateOf (receiveBlock cfg block s)).fork.packs ↔
        a ∈ s.fork.packs ∨ a = block.id cfg.crypto := by
  have hi := h.good.inv
  have hbh : s.headPack.blockId = s.blockHead := hi.blockId _ h.good.headPack_mem
  have hnumH : s.headPack.blockNum = s.blockHead.num := hi.num _ h.good.headPack_mem
  obtain ⟨⟨-, hwrap⟩, -⟩ := h.grown.accepts hG hgood htime hi hmem hq
  rw [hi.num _ hq] at hwrap
  have hnum : block.blockNum = block.previous.num + 1 := u32_of_lt hwrap
  have hidNum : (block.id cfg.crypto).num = block.previous.num + 1 := by
    rw [BlockHeader.id_num, hnum]
  have hhigher : top.blockNum < block.blockNum ↔ s.blockHead.num < (block.id cfg.crypto).num := by
    rw [htop, BlockHeader.id_num, BlockHeader.id_num]
  by_cases hprev : s.blockHead = block.previous
  · have hnext : receiveBlock cfg block s = confirmBlock cfg block s := by
      have hpred : u32 (block.blockNum + (2 ^ 32 - 1)) = block.previous.num := by
        rw [hnum, u32]
        omega
      refine if_pos ⟨?_, hbh.trans hprev⟩
      rw [hnumH, hprev, hpred]
    obtain ⟨t, hrun, ht, hhead, hpacks⟩ := h.confirm hid hG hgood htime hmem hprev
    rw [hnext, hrun]
    refine ⟨ht, ?_, hpacks⟩
    rw [taller, if_pos (hhigher.2 (by rw [hidNum, hprev]; exact Nat.lt_succ_self _))]
    exact hhead
  · have hfork : receiveBlock cfg block s = pushFork cfg block s := by
      have hlast : s.sink.lastIrreversibleBlockNum < block.blockNum := by
        rw [h.last, hnum]
        exact Nat.succ_pos _
      exact (if_neg fun heq => hprev (hbh.symm.trans heq.2)).trans (if_pos hlast)
    rw [hfork, stateOf_pushFork]
    by_cases hdup : block.id cfg.crypto ∈ s.fork.packs
    · obtain ⟨e, hrun⟩ := @addForkBlock_known cfg s block hdup
      rw [run_bind_error hrun]
      refine ⟨h, ?_, fun a => ⟨.inl, fun ha => ha.elim id fun heq => heq ▸ hdup⟩⟩
      rw [taller, if_neg fun hlt => (h.highest _ hdup).not_gt (hhigher.1 hlt)]
      exact htop
    · obtain ⟨t, hrun, hput⟩ := h.addForkBlock hG hgood htime hmem hq hdup
      rw [run_bind_ok hrun]
      rcases Nat.lt_or_ge s.blockHead.num (block.id cfg.crypto).num with hlt | hle
      · have hback := hleave (hhigher.2 hlt) fun heq => hprev (htop.trans heq.symm)
        rw [← htop] at hback
        obtain ⟨t', hcheck, ht', hhead, hpacks⟩ := hput.switches hid h hG hq hprev hlt hback
        rw [hcheck]
        refine ⟨ht', ?_, fun a => ?_⟩
        · rw [taller, if_pos (hhigher.2 hlt)]
          exact hhead
        change a ∈ t'.fork.packs ↔ _
        rw [hpacks, hput.packs]
      · obtain ⟨hcheck, ht⟩ := hput.stays h hle
        rw [hcheck]
        refine ⟨ht, ?_, hput.packs⟩
        rw [taller, if_neg fun hlt => hle.not_gt (hhigher.1 hlt)]
        exact hput.blockHead.trans htop

theorem Delivered.genesis {time : ℕ} {key : PublicKey} {sig : Signature}
    {receipts : List TransactionReceipt} {next : List BuilderInfo} :
    Delivered cfg (BlockPack.genesis cfg.crypto time key sig receipts next) g blocks
      (.genesis (BlockPack.genesis cfg.crypto time key sig receipts next) g) := by
  set G := BlockPack.genesis cfg.crypto time key sig receipts next with hG
  have hself : (ForkContext.genesis G).objs G.blockId = G := by
    simp only [ForkContext.genesis, Function.update_self]
  have hmem : ∀ a, a ∈ (ForkContext.genesis G).packs → a = G.blockId := fun a ha =>
    List.mem_singleton.1 ha
  refine ⟨Good.genesis, ⟨congrArg _ hself, ?_, fun a ha hne => absurd (hmem a ha) hne⟩, rfl, rfl,
    fun a ha => ?_, rfl⟩
  · change SamePack ((ForkContext.genesis G).objs G.blockId) G
    rw [hself]
    exact ⟨rfl, rfl, rfl, rfl, rfl, rfl, rfl, rfl, rfl, rfl, rfl, rfl, rfl⟩
  · rw [hmem a ha]
    exact le_rfl

theorem Delivered.deliver (hid : ∀ h h' : BlockHeader, h.id cfg.crypto = h'.id cfg.crypto → h = h')
    (hG : FirstPack cfg.crypto G) (hgood : AllGood cfg G g blocks) (htime : 0 < G.newHeader.timestamp)
    {order : List SignedBlock} {known : List Summary} (h : Delivered cfg G g blocks s)
    (horder : ∀ block ∈ order, block ∈ blocks) (hknown : ∀ a ∈ known, a ∈ s.fork.packs)
    (hparents : ParentsFirst cfg.crypto known order) {top : SignedBlock}
    (htop : s.blockHead = top.id cfg.crypto) (hleave : LeavesAllGood cfg G g blocks top order) :
    Delivered cfg G g blocks (deliver cfg order s) ∧
      ∀ a, a ∈ (XmaxChain.deliver cfg order s).fork.packs ↔
        a ∈ s.fork.packs ∨ ∃ block ∈ order, block.id cfg.crypto = a := by
  induction order generalizing s known top with
  | nil => exact ⟨h, fun a => by simp [XmaxChain.deliver]⟩
  | cons block order ih =>
    obtain ⟨hprev, hparents'⟩ := hparents
    obtain ⟨hnext, htop', hpacks⟩ := h.receive hid hG hgood htime (horder _ List.mem_cons_self)
      (hknown _ hprev) htop hleave.1
    obtain ⟨hlast, hall⟩ := ih hnext (fun b hb => horder b (List.mem_cons_of_mem _ hb))
      (fun a ha => (hpacks a).2 ((List.mem_cons.1 ha).symm.imp_left (hknown a))) hparents' htop'
      hleave.2
    refine ⟨hlast, fun a => (hall a).trans ?_⟩
    rw [hpacks, or_assoc]
    simp only [List.mem_cons, exists_eq_or_imp, eq_comm (a := a)]

end Node

/-! ## Two orders -/

/-- An order of the blocks in which parents come before their children. -/
def InOrder (c : Crypto) (G : BlockPack) (blocks order : List SignedBlock) : Prop :=
  order.Perm blocks ∧ ParentsFirst c [G.blockId] order

/-- All of the blocks are in the fork database, `block_head` has the greatest number of them and
genesis, and it is the block of that number if there is only one. -/
structure AtHighest (c : Crypto) (G : BlockPack) (blocks : List SignedBlock) (s : ChainState) :
    Prop where
  all : ∀ block ∈ blocks, block.id c ∈ s.fork.packs
  highest : IsGreatest {n | ∃ block ∈ G.block :: blocks, block.blockNum = n} s.headPack.blockNum
  only : ∀ block ∈ blocks, block.blockNum = s.headPack.blockNum →
    (∀ other ∈ blocks, other.blockNum = s.headPack.blockNum → other.id c = block.id c) →
    s.blockHead = block.id c

section Orders

variable {s : ChainState} {order : List SignedBlock}

theorem Delivered.atHighest (h : Delivered cfg G g blocks s) (hG : FirstPack cfg.crypto G)
    (hpacks : ∀ a, a ∈ s.fork.packs ↔ a = G.blockId ∨ ∃ block ∈ blocks, block.id cfg.crypto = a) :
    AtHighest cfg.crypto G blocks s := by
  have hi := h.good.inv
  have hbh := h.good.headPack_mem
  have hnum : s.headPack.blockNum = s.blockHead.num := hi.num _ hbh
  have hall : ∀ block ∈ blocks, block.id cfg.crypto ∈ s.fork.packs := fun block hmem =>
    (hpacks _).2 (.inr ⟨block, hmem, rfl⟩)
  refine ⟨hall, ⟨?_, ?_⟩, fun block hmem heq honly => ?_⟩
  · rw [hnum]
    rcases (hpacks _).1 hbh with heq | ⟨block, hmem, heq⟩
    · exact ⟨G.block, List.mem_cons_self, by rw [heq, hG.idNum, hG.block]⟩
    · exact ⟨block, List.mem_cons_of_mem _ hmem, by rw [← heq, BlockHeader.id_num]⟩
  · rintro n ⟨block, hmem, rfl⟩
    rw [hnum, ← BlockHeader.id_num cfg.crypto]
    refine h.highest _ ?_
    rcases List.mem_cons.1 hmem with rfl | hmem
    · rw [← hG.id]
      exact hi.last_mem
    · exact hall block hmem
  · rcases (hpacks _).1 hbh with hroot | ⟨other, hother, hid⟩
    · -- what is as low as genesis is genesis
      have hblock : (block.id cfg.crypto).num = G.blockId.num := by
        rw [BlockHeader.id_num, heq, hnum, hroot]
      rcases hi.lowest _ (hall block hmem) with hsame | hlt
      · rw [hroot, hsame]
      · omega
    · rw [← hid]
      refine honly other hother ?_
      rw [hnum, ← hid, BlockHeader.id_num]

variable {time : ℕ} {key : PublicKey} {sig : Signature} {receipts : List TransactionReceipt}
  {next : List BuilderInfo} {first second : List SignedBlock}

/-- Good blocks that are delivered to two new nodes, to each in an order in which parents come first,
while nothing is confirmed and what is left for a higher branch can be undone: both nodes have all
blocks, and both end at the highest. -/
theorem delivery_order_irrelevant
    (hid : ∀ h h' : BlockHeader, h.id cfg.crypto = h'.id cfg.crypto → h = h') (htime : 0 < time)
    (hgood : AllGood cfg (BlockPack.genesis cfg.crypto time key sig receipts next) g blocks)
    (hfirst : InOrder cfg.crypto (BlockPack.genesis cfg.crypto time key sig receipts next) blocks first)
    (hsecond : InOrder cfg.crypto (BlockPack.genesis cfg.crypto time key sig receipts next) blocks
      second)
    (hleaveFirst : LeavesAllGood cfg (BlockPack.genesis cfg.crypto time key sig receipts next) g blocks
      (BlockPack.genesis cfg.crypto time key sig receipts next).block first)
    (hleaveSecond : LeavesAllGood cfg (BlockPack.genesis cfg.crypto time key sig receipts next) g blocks
      (BlockPack.genesis cfg.crypto time key sig receipts next).block second) :
    AtHighest cfg.crypto (BlockPack.genesis cfg.crypto time key sig receipts next) blocks
        (deliver cfg first (.genesis (BlockPack.genesis cfg.crypto time key sig receipts next) g)) ∧
      AtHighest cfg.crypto (BlockPack.genesis cfg.crypto time key sig receipts next) blocks
        (deliver cfg second
          (.genesis (BlockPack.genesis cfg.crypto time key sig receipts next) g)) := by
  set G := BlockPack.genesis cfg.crypto time key sig receipts next with hG
  have hpack : FirstPack cfg.crypto G := .genesis
  suffices hone : ∀ order, InOrder cfg.crypto G blocks order →
      LeavesAllGood cfg G g blocks G.block order →
        AtHighest cfg.crypto G blocks (deliver cfg order (.genesis G g)) from
    ⟨hone first hfirst hleaveFirst, hone second hsecond hleaveSecond⟩
  rintro order ⟨hperm, hparents⟩ hleave
  obtain ⟨hend, hpacks⟩ := Delivered.genesis.deliver hid hpack hgood htime
    (fun block hmem => hperm.mem_iff.1 hmem) (fun a ha => ha) hparents hpack.id hleave
  refine hend.atHighest hpack fun a => (hpacks a).trans ?_
  simp only [hperm.mem_iff]
  exact or_congr_left List.mem_singleton

end Orders

/-! ## Two branches of one builder -/

/-- Whether all is good from a pack on, as evaluating it shows; `undo` says if the blocks have to be
such that they can be undone. -/
def goodFrom (cfg : ChainConfig) (G : BlockPack) (blocks : List SignedBlock) (undo : Bool) :
    ℕ → BlockPack → ChainDb → Bool
  | 0, _, _ => false
  | n + 1, pre, db =>
    decide (pre.lastConfirmedNum ≤ G.lastConfirmedNum ∧
        pre.dposIrreversibleNum ≤ G.dposIrreversibleNum) &&
      blocks.all fun block =>
        if pre.blockId = block.previous then
          match packOn cfg.crypto pre block, applied cfg pre db true db block with
          | .ok pack, .ok db' =>
            (!undo || decide (GivesBack db.erc721Accounts db'.erc721Accounts)) &&
              goodFrom cfg G blocks undo n pack db'
          | _, _ => false
        else true

section GoodFrom

variable {undo : Bool} {n : ℕ} {pre pack : BlockPack} {db : ChainDb} {block : SignedBlock}

theorem goodFrom_next (h : goodFrom cfg G blocks undo (n + 1) pre db = true) (hmem : block ∈ blocks)
    (hprevious : pre.blockId = block.previous) :
    ∃ pack db', packOn cfg.crypto pre block = .ok pack ∧ applied cfg pre db true db block = .ok db' ∧
      (undo = true → GivesBack db.erc721Accounts db'.erc721Accounts) ∧
      goodFrom cfg G blocks undo n pack db' = true := by
  unfold goodFrom at h
  rw [Bool.and_eq_true, List.all_eq_true] at h
  have hblock := h.2 block hmem
  rw [if_pos hprevious] at hblock
  split at hblock
  · rename_i pack db' hmade happlied
    rw [Bool.and_eq_true] at hblock
    exact ⟨pack, db', hmade, happlied, fun hundo => by simpa [hundo] using hblock.1, hblock.2⟩
  · cases hblock

theorem InTree.goodFrom (h : goodFrom cfg G blocks undo n G g = true)
    (htree : InTree cfg G g blocks pack db) :
    ∃ n, XmaxChain.goodFrom cfg G blocks undo (n + 1) pack db = true := by
  have hsucc : ∀ {n pack db}, XmaxChain.goodFrom cfg G blocks undo n pack db = true →
      ∃ n, XmaxChain.goodFrom cfg G blocks undo (n + 1) pack db = true := fun {n} _ _ h => by
    cases n with
    | zero => cases h
    | succ n => exact ⟨n, h⟩
  induction htree with
  | genesis => exact hsucc h
  | next _ mem made happlied ih =>
    obtain ⟨n, hn⟩ := ih
    obtain ⟨pack, db', hmade, happlied', -, hnext⟩ := goodFrom_next hn mem (place_of_applied happlied).1
    cases hmade.symm.trans made
    cases happlied'.symm.trans happlied
    exact hsucc hnext

theorem AllGood.of_goodFrom (hstamps : ∀ block ∈ blocks, block.timestamp < 2 ^ 32)
    (h : goodFrom cfg G blocks undo n G g = true) : AllGood cfg G g blocks := by
  refine ⟨hstamps, fun block hmem pre db htree hprevious => ?_, fun pack db htree => ?_⟩
  · obtain ⟨n, hn⟩ := htree.goodFrom h
    obtain ⟨pack, db', hmade, happlied, -⟩ := goodFrom_next hn hmem hprevious
    exact ⟨⟨pack, hmade⟩, db', happlied⟩
  · obtain ⟨n, hn⟩ := htree.goodFrom h
    unfold XmaxChain.goodFrom at hn
    rw [Bool.and_eq_true, decide_eq_true_eq] at hn
    exact hn.1

theorem retractable_of_goodFrom (h : goodFrom cfg G blocks true n G g = true) (hmem : block ∈ blocks) :
    Retractable cfg G g blocks block := by
  intro pre db db' htree hprevious happlied
  obtain ⟨n, hn⟩ := htree.goodFrom h
  obtain ⟨pack, db₁, -, happlied', hback, -⟩ := goodFrom_next hn hmem hprevious
  cases happlied'.symm.trans happlied
  exact hback rfl

/-- Where every block can be undone it does not matter which ones are left. -/
theorem LeavesAllGood.of_retractable (h : ∀ block ∈ blocks, Retractable cfg G g blocks block)
    (top : SignedBlock) (order : List SignedBlock) : LeavesAllGood cfg G g blocks top order := by
  induction order generalizing top with
  | nil => trivial
  | cons block order ih => exact ⟨fun _ _ x hx _ _ => h x hx, ih _⟩

end GoodFrom

/-- A block, its rival and a block on the rival: both nodes end at the last one, though one of them
has confirmed the first block before. -/
theorem delivery_order_irrelevant_rivals :
    ∃ g s t, oneBuilderDb = .ok g ∧
      s = deliver headerConfig [secondBlock, rivalBlock, rivalChild] (.genesis oneBuilderGenesis g) ∧
      t = deliver headerConfig [rivalBlock, rivalChild, secondBlock] (.genesis oneBuilderGenesis g) ∧
      s.blockHead = rivalChild.id headerCrypto ∧ t.blockHead = rivalChild.id headerCrypto ∧
      AtHighest headerCrypto oneBuilderGenesis [secondBlock, rivalBlock, rivalChild] s ∧
      AtHighest headerCrypto oneBuilderGenesis [secondBlock, rivalBlock, rivalChild] t := by
  obtain ⟨g, hg, hgood, hs, ht⟩ := exists_ok_of_eval (x := oneBuilderDb)
    (P := fun g =>
      goodFrom headerConfig oneBuilderGenesis [secondBlock, rivalBlock, rivalChild] true 3
          oneBuilderGenesis g = true ∧
        (deliver headerConfig [secondBlock, rivalBlock, rivalChild]
          (.genesis oneBuilderGenesis g)).blockHead = rivalChild.id headerCrypto ∧
        (deliver headerConfig [rivalBlock, rivalChild, secondBlock]
          (.genesis oneBuilderGenesis g)).blockHead = rivalChild.id headerCrypto)
    (by decide +kernel)
  have hperm : ([rivalBlock, rivalChild] ++ [secondBlock]).Perm
      ([secondBlock] ++ [rivalBlock, rivalChild]) := List.perm_append_comm
  have hback : ∀ block ∈ [secondBlock, rivalBlock, rivalChild],
      Retractable headerConfig oneBuilderGenesis g [secondBlock, rivalBlock, rivalChild] block :=
    fun _ => retractable_of_goodFrom hgood
  exact ⟨g, _, _, hg, rfl, rfl, hs, ht, delivery_order_irrelevant headerCrypto_id_injective (by norm_num)
    (.of_goodFrom (by decide) hgood) ⟨.refl _, by decide⟩ ⟨hperm, by decide⟩
    (.of_retractable hback _ _) (.of_retractable hback _ _)⟩

/-! ## A block that cannot be undone -/

/-- Hashing that tells headers apart, and transactions by when they expire. -/
def tokenCrypto : Crypto :=
  { headerCrypto with
    sha256 := fun
      | .header h => headerCrypto.sha256 (.header h)
      | .transaction t => ⟨0, t.expiration⟩
      | _ => default }

def tokenConfig : ChainConfig := { stampConfig with crypto := tokenCrypto }

def tokenGenesis : BlockPack := BlockPack.genesis tokenCrypto 100 7 7 [] [⟨xmaxContractName, 7⟩]

def tokenDb : Except Fault ChainDb := do
  let db ← updateFinalState tokenCrypto 100 tokenGenesis.toPackCore
    { signingPair with currentBuilders := tokenGenesis.currentBuilders }
  return blockSummary tokenCrypto tokenGenesis.block db

/-- A block with transactions that account 1 has signed, the `k`-th of which has the number `n + k`. -/
def tokenBlock (previous : Summary) (time n : ℕ) (trxs : List (List Message)) : SignedBlock where
  previous := previous
  timestamp := time
  builder := xmaxContractName
  builderSignature := 7
  receipts := trxs.mapIdx fun k messages => ⟨0, .applied, .package ⟨.original,
    { scope := [1, 2], expiration := timePoint 110 + n + k, messages, signatures := [21] }⟩⟩

/-- Account 1 issues token 9 and mints id 100 of it. -/
def issueBlock : SignedBlock :=
  tokenBlock tokenGenesis.blockId 101 0
    [[⟨1, .adderc721, [⟨1, xmaxActiveName⟩], [1, 9]⟩], [⟨9, .mint, [⟨1, xmaxActiveName⟩], [9, 100]⟩]]

/-- It hands id 100 on to account 2 and mints id 102. -/
def handOnBlock : SignedBlock :=
  tokenBlock (issueBlock.id tokenCrypto) 102 2
    [[⟨9, .transferfrom, [⟨1, xmaxActiveName⟩], [9, 100, 1, 2]⟩,
      ⟨9, .mint, [⟨1, xmaxActiveName⟩], [9, 102]⟩]]

def otherBlock : SignedBlock := tokenBlock (issueBlock.id tokenCrypto) 103 3 []

def otherChild : SignedBlock := tokenBlock (otherBlock.id tokenCrypto) 104 3 []

def tokenBlocks : List SignedBlock := [issueBlock, handOnBlock, otherBlock, otherChild]

theorem tokenCrypto_id_injective (h h' : BlockHeader) (heq : h.id tokenCrypto = h'.id tokenCrypto) :
    h = h' :=
  headerCrypto_id_injective h h' heq

/-- When the other branch is the higher one account 1 cannot get id 100 back, since it has id 102. -/
theorem handed_on_not_undone :
    (∀ h h' : BlockHeader, h.id tokenCrypto = h'.id tokenCrypto → h = h') ∧
      InOrder tokenCrypto tokenGenesis tokenBlocks tokenBlocks ∧
      ∃ g, tokenDb = .ok g ∧ AllGood tokenConfig tokenGenesis g tokenBlocks ∧
        (deliver tokenConfig tokenBlocks (.genesis tokenGenesis g)).headPack.blockNum = 2 ∧
        ¬ AtHighest tokenCrypto tokenGenesis tokenBlocks
          (deliver tokenConfig tokenBlocks (.genesis tokenGenesis g)) := by
  obtain ⟨g, hg, hgood, hnum⟩ := exists_ok_of_eval (x := tokenDb)
    (P := fun g =>
      goodFrom tokenConfig tokenGenesis tokenBlocks false 5 tokenGenesis g = true ∧
        (deliver tokenConfig tokenBlocks (.genesis tokenGenesis g)).headPack.blockNum = 2)
    (by decide +kernel)
  refine ⟨tokenCrypto_id_injective, ⟨.refl _, by decide⟩, g, hg,
    .of_goodFrom (by decide) hgood, hnum, fun hend => ?_⟩
  have hfour : otherChild.blockNum = 4 := by decide
  have hmem : otherChild ∈ tokenGenesis.block :: tokenBlocks := by simp [tokenBlocks]
  have hle := hend.highest.2 ⟨otherChild, hmem, hfour⟩
  rw [hnum] at hle
  exact absurd hle (by decide)

end XmaxChain
