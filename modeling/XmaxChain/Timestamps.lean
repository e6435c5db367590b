import XmaxChain.Lineage

/-!
# Time along a branch

A block that is built or applied on the head must have a later stamp than the head. A block that is
received for a fork may have any stamp: the slot arithmetic takes an early one for slot zero. Where
the received blocks come after their parents, time moves forward along every branch, and the slots
from parent to child are what lies between their stamps.
-/

namespace XmaxChain

variable {cfg : ChainConfig}

def Later (before when : ℕ) : Prop := before < when ∧ when < 2 ^ 32

/-- The pack is genesis or comes after its parent, whose header is known by its id. -/
structure AfterParent (c : Crypto) (G : BlockPack) (a : Summary) (p : PackCore) : Prop where
  key : p.blockId = a
  header : p.newHeader.id c = a
  parent : a = G.blockId ∨
    ∃ h : BlockHeader, h.id c = p.prevId ∧ Later h.timestamp p.newHeader.timestamp

theorem inherited_afterParent (G : BlockPack) :
    Inherited cfg Later (AfterParent cfg.crypto G) := by
  refine ⟨fun h => h.key, fun {a pre r when} h hlater hnext => ?_⟩
  obtain ⟨hprevious, hheader⟩ := hnext.header
  obtain ⟨q, m, -, -, -, htime⟩ := hnext.exists_init
  refine ⟨rfl, hheader, .inr ⟨pre.newHeader.toBlockHeader, ?_, ?_⟩⟩
  · rw [PackCore.prevId, hprevious, h.key]
    exact h.header
  · rw [htime]
    exact hlater

/-- What is between a parent's header and a later block. -/
theorem Later.slots {b w : ℕ} (h : Later b w) :
    1 ≤ getDeltaSlotAtTime b w ∧ getDeltaSlotAtTime b w = w - b := by
  have hslots := getDeltaSlotAtTime_of_lt h.1 h.2
  have := h.1
  omega

variable {time : ℕ} {key : PublicKey} {sig : Signature} {receipts : List TransactionReceipt}
  {next : List BuilderInfo} {g : ChainDb} {s : ChainState}

/-- Where every block that is received for a fork is later than its parent, every pack is, in every
state of the run, by as many slots as are between the stamps. -/
theorem time_moves_forward
    (hid : ∀ h h' : BlockHeader, h.id cfg.crypto = h'.id cfg.crypto → h = h')
    (h : TimedRun cfg Later (BlockPack.genesis cfg.crypto time key sig receipts next) g s) :
    (∀ a ∈ s.fork.packs, a ≠ (BlockPack.genesis cfg.crypto time key sig receipts next).blockId →
      ∃ parent : BlockHeader, parent.id cfg.crypto = s.fork.up a ∧
        (s.fork.up a ∈ s.fork.packs →
          (s.fork.objs (s.fork.up a)).newHeader.toBlockHeader = parent) ∧
        parent.timestamp < (s.fork.objs a).newHeader.timestamp ∧
        1 ≤ getDeltaSlotAtTime parent.timestamp (s.fork.objs a).newHeader.timestamp ∧
        getDeltaSlotAtTime parent.timestamp (s.fork.objs a).newHeader.timestamp
          = (s.fork.objs a).newHeader.timestamp - parent.timestamp) ∧
      ∀ b d, 1 ≤ d → b + d < 2 ^ 32 → getDeltaSlotAtTime b (getDeltaSlotTime b d) = d := by
  have hheld := (inherited_afterParent _).run ⟨rfl, rfl, .inl rfl⟩ h
  refine ⟨fun a ha hne => ?_, fun b d => getDeltaSlotAtTime_getDeltaSlotTime⟩
  obtain ⟨parent, hparent, hlater⟩ := (hheld.held a (.inl ha)).parent.resolve_left hne
  refine ⟨parent, hparent, fun hup => ?_, hlater.1, hlater.slots⟩
  have hheader := (hheld.held _ (.inl hup)).header
  exact hid _ _ (hheader.trans hparent.symm)

def siblingBlock (stamp : ℕ) : SignedBlock :=
  { previous := oneBuilderGenesis.blockId, timestamp := stamp, builder := xmaxContractName
    builderSignature := 7 }

def withSibling (stamp : ℕ) (g : ChainDb) : ChainState :=
  chainCalls headerConfig [.confirmBlock secondBlock, .pushFork (siblingBlock stamp)]
    (.genesis oneBuilderGenesis g)

theorem time_moves_forward_sibling :
    ∃ g a, oneBuilderDb = .ok g ∧
      TimedRun headerConfig Later oneBuilderGenesis g (withSibling 105 g) ∧
      a = (siblingBlock 105).id headerCrypto ∧ a ∈ (withSibling 105 g).fork.packs ∧
      ∃ parent : BlockHeader, parent.id headerCrypto = (withSibling 105 g).fork.up a ∧
        parent.timestamp < ((withSibling 105 g).fork.objs a).newHeader.timestamp := by
  obtain ⟨g, hg, hlater, hmem, hne⟩ := exists_ok_of_eval (x := oneBuilderDb)
    (P := fun g =>
      let s := chainCalls headerConfig [.confirmBlock secondBlock] (.genesis oneBuilderGenesis g)
      (s.fork.objs oneBuilderGenesis.blockId).newHeader.timestamp < 105 ∧
        (siblingBlock 105).id headerCrypto ∈ (withSibling 105 g).fork.packs ∧
        (siblingBlock 105).id headerCrypto ≠ oneBuilderGenesis.blockId)
    (by decide +kernel)
  have hrun : TimedRun headerConfig Later oneBuilderGenesis g (withSibling 105 g) := by
    refine .tail (.tail .refl ⟨.confirmBlock secondBlock, fun hlt => ⟨hlt, ?_⟩, rfl⟩)
      ⟨.pushFork (siblingBlock 105), fun _ => ⟨hlater, ?_⟩, rfl⟩
    · show 101 < 2 ^ 32
      norm_num
    · show 105 < 2 ^ 32
      norm_num
  obtain ⟨parent, hparent, -, hlt, -⟩ :=
    (time_moves_forward headerCrypto_id_injective hrun).1 _ hmem hne
  exact ⟨g, _, hg, hrun, rfl, hmem, parent, hparent, hlt⟩

/-- A block with an earlier stamp than its parent is taken from a peer, as one of slot zero. -/
theorem early_sibling_taken :
    ∃ g a, oneBuilderDb = .ok g ∧ a ∈ (withSibling 50 g).fork.packs ∧
      a ≠ oneBuilderGenesis.blockId ∧ (withSibling 50 g).fork.up a ∈ (withSibling 50 g).fork.packs ∧
      ((withSibling 50 g).fork.objs a).newHeader.timestamp
        < ((withSibling 50 g).fork.objs ((withSibling 50 g).fork.up a)).newHeader.timestamp ∧
      getDeltaSlotAtTime
        ((withSibling 50 g).fork.objs ((withSibling 50 g).fork.up a)).newHeader.timestamp
        ((withSibling 50 g).fork.objs a).newHeader.timestamp = 0 := by
  obtain ⟨g, hg, h⟩ := exists_ok_of_eval (x := oneBuilderDb)
    (P := fun g =>
      let f := (withSibling 50 g).fork
      let a := (siblingBlock 50).id headerCrypto
      a ∈ f.packs ∧ a ≠ oneBuilderGenesis.blockId ∧ f.up a ∈ f.packs ∧
        (f.objs a).newHeader.timestamp < (f.objs (f.up a)).newHeader.timestamp ∧
        getDeltaSlotAtTime (f.objs (f.up a)).newHeader.timestamp (f.objs a).newHeader.timestamp = 0)
    (by decide +kernel)
  exact ⟨g, _, hg, h⟩

end XmaxChain
