import XmaxChain.Slots

/-!
# The window stays on the chain

What a pack carries for DPoS finality names only blocks of its own chain: the window is ancestors
in the order of the chain, and the block made irreversible is an older ancestor than any of them.
That their numbers are in order is another matter: a number has 32 bits, and the one after the
last is zero.
-/

namespace XmaxChain

variable {c : Crypto} {G p q : BlockPack} {ps : List BlockPack}

/-- The irreversible block and the window of a pack, as `generate_dpos` makes them. -/
def PackCore.dpos (p : PackCore) : (ℕ × Summary) × List BlockBrief :=
  ((p.dposIrreversibleNum, p.dposIrreversibleId), p.lastBlockOfBuilders)

/-- The window is ancestors in the order of the chain, and the irreversible block, if there is one,
an ancestor older than these. The ancestors are listed newest first. -/
structure NamesAncestors (dpos : (ℕ × Summary) × List BlockBrief) (ps : List BlockPack) : Prop where
  window : dpos.2.reverse.Sublist (ps.map (·.brief))
  irreversible : dpos.1 = (0, default) ∨ ∃ newer a older, ps = newer ++ a :: older ∧
    dpos.1 = (a.blockNum, a.blockId) ∧ dpos.2.reverse.Sublist (newer.map (·.brief))

/-- The window and the irreversible block of a pack with the ancestors `ps`, newest first. -/
structure DposOnChain (q : PackCore) (ps : List BlockPack) : Prop
    extends NamesAncestors q.dpos ps where
  length_le : q.lastBlockOfBuilders.length ≤ dposIrreversibleNeed
  turns : q.lastBlockOfBuilders.IsChain fun e e' => e.builder ≠ e'.builder

/-- What the block numbers of a pack's window and of its irreversible block say. -/
structure DposInOrder (q : PackCore) (ps : List BlockPack) : Prop where
  increasing : q.lastBlockOfBuilders.Pairwise (·.blockNum < ·.blockNum)
  grows : ∀ p ∈ ps.head?, p.dposIrreversibleNum ≤ q.dposIrreversibleNum
  irreversible : 0 < q.dposIrreversibleNum →
    (∃ a ∈ ps, a.blockNum = q.dposIrreversibleNum) ∧
      ∀ a ∈ ps, a.blockNum = q.dposIrreversibleNum → a.blockId = q.dposIrreversibleId
  below : ∀ e ∈ q.lastBlockOfBuilders, q.dposIrreversibleNum < e.blockNum

section OnChain

/-- A window of ancestors is one of the next pack's, whatever is dropped from it. -/
theorem reverse_sublist_push {w w' : List BlockBrief} (h : w.reverse.Sublist (ps.map (·.brief)))
    (hs : w'.Sublist w) : (w' ++ [p.brief]).reverse.Sublist ((p :: ps).map (·.brief)) := by
  rw [List.reverse_append, List.map_cons]
  exact (hs.reverse.trans h).cons_cons _

/-- The front entry of a window is an ancestor older than the others. -/
theorem exists_front {front : BlockBrief} {rest : List BlockBrief}
    (h : (front :: rest).reverse.Sublist (ps.map (·.brief))) :
    ∃ newer a older, ps = newer ++ a :: older ∧ a.brief = front ∧
      rest.reverse.Sublist (newer.map (·.brief)) := by
  rw [List.reverse_cons, List.append_sublist_iff] at h
  obtain ⟨r₁, r₂, hr, hrest, hfront⟩ := h
  obtain ⟨ps₁, ps₂, rfl, rfl, rfl⟩ := List.map_eq_append_iff.1 hr
  obtain ⟨a, ha, hbrief⟩ := List.mem_map.1 (List.singleton_sublist.1 hfront)
  obtain ⟨between, older, rfl⟩ := List.append_of_mem ha
  refine ⟨ps₁ ++ between, a, older, by rw [List.append_assoc], hbrief, hrest.trans ?_⟩
  rw [List.map_append]
  exact List.sublist_append_left _ _

/-- What `generate_dpos` makes of a pack's window and irreversible block. -/
theorem NamesAncestors.next (h : NamesAncestors p.dpos ps) :
    NamesAncestors (BlockPack.generateDpos p.toPackCore) (p :: ps) := by
  obtain ⟨⟨kept, hsub, hw⟩, hcases⟩ := generateDpos_cases p.toPackCore
  refine ⟨hw ▸ reverse_sublist_push h.window hsub, ?_⟩
  rcases hcases with hsame | ⟨front, rest, hwindow, -, hnew⟩
  · rw [hsame, hw]
    refine h.irreversible.imp_right ?_
    rintro ⟨newer, a, older, rfl, ha, hnewer⟩
    exact ⟨p :: newer, a, older, rfl, ha, reverse_sublist_push hnewer hsub⟩
  · -- the front entry is promoted and leaves the window
    have hfront := h.window
    rw [PackCore.dpos, hwindow] at hfront
    obtain ⟨newer, a, older, rfl, rfl, hrest⟩ := exists_front hfront
    rw [hnew]
    exact .inr ⟨p :: newer, a, older, rfl, rfl, reverse_sublist_push hrest (List.Sublist.refl _)⟩

theorem PackChain.namesAncestors (hG : G.dpos = ((0, default), [])) (h : PackChain c G (q :: ps)) :
    NamesAncestors q.dpos ps := by
  generalize hL : q :: ps = L at h
  induction h generalizing q ps with
  | genesis =>
    cases hL
    rw [hG]
    exact ⟨List.nil_sublist _, .inl rfl⟩
  | @extend p q' ps' when mainchain b chain init _ _ _ ih =>
    cases hL
    obtain ⟨_, _, _, _, _, _, _, _, _, _, hd⟩ := initByPrePack_eq_ok init
    have hdpos : (q'.generateByBlock c b).dpos = BlockPack.generateDpos p.toPackCore := hd
    rw [hdpos]
    exact (ih rfl).next

theorem PackChain.dposOnChain (hG : G.dpos = ((0, default), [])) (h : PackChain c G (q :: ps)) :
    DposOnChain q.toPackCore ps := by
  have hwindow := h.window (congrArg Prod.snd hG)
  have hturns : (turnsOf ps).IsChain (· ≠ ·) := List.isChain_destutter _ _
  have hbuilders : q.lastBlockOfBuilders.map (·.builder)
      = ((turnsOf ps).take dposIrreversibleNeed).reverse := by
    rw [← hwindow, PackCore.windowBuilders, List.reverse_reverse]
  refine ⟨h.namesAncestors hG, ?_, ?_⟩
  · have hlen := congrArg List.length hbuilders
    rw [List.length_map, List.length_reverse] at hlen
    rw [hlen]
    exact List.length_take_le _ _
  · have hchain : (q.lastBlockOfBuilders.map (·.builder)).IsChain (· ≠ ·) := by
      rw [hbuilders, List.isChain_reverse]
      exact (hturns.take _).imp fun _ _ hne => hne.symm
    exact (List.isChain_map _).1 hchain

end OnChain

section InOrder

variable (hnum : G.blockNum = 1) (hid : G.blockId.num = 1)

include hnum hid in
/-- While the numbers do not wrap, every pack of a chain has its place as its number. -/
theorem PackChain.place {a : BlockPack} {older : List BlockPack} (h : PackChain c G ps)
    (hlen : ps.length < 2 ^ 32) (hs : a :: older <:+ ps) : a.blockNum = older.length + 1 := by
  have hle := hs.length_le
  rw [List.length_cons] at hle
  exact ((h.suffix hs (List.cons_ne_nil _ _)).blockNum hnum hid (by omega)).1

include hnum hid in
/-- While the numbers do not wrap, they fall from pack to ancestor and end with one. -/
theorem PackChain.descending (h : PackChain c G ps) (hlen : ps.length < 2 ^ 32) :
    ps.Pairwise (fun p a => a.blockNum < p.blockNum) ∧ ∀ p ∈ ps, 0 < p.blockNum := by
  have hplace : ∀ {a : BlockPack} {older : List BlockPack}, a :: older <:+ ps →
      a.blockNum = older.length + 1 := h.place hnum hid hlen
  clear h hlen
  induction ps with
  | nil => exact ⟨.nil, fun p hp => absurd hp List.not_mem_nil⟩
  | cons p as ih =>
    obtain ⟨hpairs, hpos⟩ := ih fun hs => hplace (hs.trans (List.suffix_cons _ _))
    refine ⟨List.pairwise_cons.2 ⟨fun a ha => ?_, hpairs⟩, fun a ha => ?_⟩
    · obtain ⟨newer, older, rfl⟩ := List.append_of_mem ha
      have hsuffix : a :: older <:+ p :: (newer ++ a :: older) :=
        (List.suffix_append newer _).trans (List.suffix_cons _ _)
      rw [hplace List.suffix_rfl, hplace hsuffix, List.length_append, List.length_cons]
      omega
    · rcases List.mem_cons.1 ha with rfl | ha
      · rw [hplace List.suffix_rfl]
        omega
      · exact hpos a ha

/-- Of packs in falling order the irreversible one is below the window. -/
theorem NamesAncestors.below {num : ℕ} {id : Summary} {w : List BlockBrief}
    (h : NamesAncestors ((num, id), w) ps) (hps : ps.Pairwise fun p a => a.blockNum < p.blockNum)
    (hpos : ∀ p ∈ ps, 0 < p.blockNum) : ∀ e ∈ w, num < e.blockNum := by
  intro e he
  rcases h.irreversible with hnone | ⟨newer, a, older, rfl, ha, hnewer⟩
  · obtain ⟨p, hp, rfl⟩ := List.mem_map.1 (h.window.subset (List.mem_reverse.2 he))
    rw [show num = 0 from congrArg Prod.fst hnone]
    exact hpos p hp
  · obtain ⟨p, hp, rfl⟩ := List.mem_map.1 (hnewer.subset (List.mem_reverse.2 he))
    rw [show num = a.blockNum from congrArg Prod.fst ha]
    exact (List.pairwise_append.1 hps).2.2 p hp a List.mem_cons_self

theorem PackChain.dpos_next (h : PackChain c G (q :: p :: ps)) :
    q.dpos = BlockPack.generateDpos p.toPackCore ∧ PackChain c G (p :: ps) := by
  rcases h with _ | ⟨chain, init, _, _, _⟩
  obtain ⟨_, _, _, _, _, _, _, _, _, _, hd⟩ := initByPrePack_eq_ok init
  exact ⟨hd, chain⟩

theorem PackChain.ancestors_chain (h : PackChain c G (q :: ps)) (hne : ps ≠ []) :
    PackChain c G ps := h.suffix (List.suffix_cons _ _) hne

include hnum hid in
theorem PackChain.below_window (hG : G.dpos = ((0, default), [])) (h : PackChain c G (q :: ps))
    (hlen : ps.length < 2 ^ 32) :
    ∀ e ∈ q.lastBlockOfBuilders, q.dposIrreversibleNum < e.blockNum := by
  rcases eq_or_ne ps [] with rfl | hne
  · have hnone := (h.namesAncestors hG).window
    rw [List.map_nil, List.sublist_nil, List.reverse_eq_nil_iff] at hnone
    rw [show q.lastBlockOfBuilders = [] from hnone]
    exact fun e he => absurd he List.not_mem_nil
  · obtain ⟨hpairs, hpos⟩ := (h.ancestors_chain hne).descending hnum hid hlen
    exact (h.namesAncestors hG).below hpairs hpos

include hnum hid in
theorem PackChain.dposInOrder (hG : G.dpos = ((0, default), [])) (h : PackChain c G (q :: ps))
    (hlen : ps.length < 2 ^ 32) : DposInOrder q.toPackCore ps := by
  refine ⟨(h.windowOf (congrArg Prod.snd hG) hnum hid hlen).sorted, ?_, ?_,
    h.below_window hnum hid hG hlen⟩
  · intro p hp
    obtain ⟨ps', rfl⟩ := List.head?_eq_some_iff.1 (Option.mem_def.1 hp)
    obtain ⟨hdpos, hchain⟩ := h.dpos_next
    rw [show q.dposIrreversibleNum = _ from congrArg (·.1.1) hdpos]
    rcases (generateDpos_cases p.toPackCore).2 with hsame | ⟨front, rest, hwindow, -, hnew⟩
    · rw [hsame]
    · rw [hnew]
      rw [List.length_cons] at hlen
      refine (hchain.below_window hnum hid hG (by omega) front ?_).le
      rw [hwindow]
      exact List.mem_cons_self
  · intro hpos
    rcases (h.namesAncestors hG).irreversible with hnone | ⟨newer, a, older, rfl, ha, -⟩
    · exact absurd (congrArg Prod.fst hnone) hpos.ne'
    · obtain ⟨hpairs, -⟩ := (h.ancestors_chain (by simp)).descending hnum hid hlen
      have hnodup : ((newer ++ a :: older).map (·.blockNum)).Nodup :=
        List.pairwise_map.2 (hpairs.imp fun hlt => hlt.ne')
      have hmem : a ∈ newer ++ a :: older := by simp
      obtain ⟨hnum', hid'⟩ := Prod.mk.inj ha
      refine ⟨⟨a, hmem, hnum'.symm⟩, fun a' ha' heq => ?_⟩
      rw [show a' = a from List.inj_on_of_nodup_map hnodup ha' hmem (heq.trans hnum')]
      exact hid'.symm

end InOrder

variable {time : ℕ} {key : PublicKey} {sig : Signature} {receipts : List TransactionReceipt}
  {next : List BuilderInfo}

/-- DPoS bookkeeping names only blocks of the chain, and in the order of their numbers while these
do not wrap. -/
theorem dpos_on_chain
    (h : PackChain c (BlockPack.genesis c time key sig receipts next) (q :: ps)) :
    DposOnChain q.toPackCore ps ∧ (ps.length < 2 ^ 32 → DposInOrder q.toPackCore ps) :=
  ⟨h.dposOnChain rfl, h.dposInOrder rfl rfl rfl⟩

theorem dpos_on_chain_two_packs :
    ∃ q : BlockPack, PackChain stampCrypto twoBuilderGenesis [q, twoBuilderGenesis] ∧
      DposOnChain q.toPackCore [twoBuilderGenesis] ∧
      DposInOrder q.toPackCore [twoBuilderGenesis] := by
  obtain ⟨L, hL, hlen⟩ := exists_ok_of_eval (x := twoBuilderChain 1)
    (P := fun L => L.tail = [twoBuilderGenesis]) (by decide)
  match L, hL, hlen with
  | q :: ps, hL, hlen =>
    obtain rfl : ps = [twoBuilderGenesis] := hlen
    have hchain := chainAt_packChain hL
    obtain ⟨hnames, horder⟩ := dpos_on_chain hchain
    exact ⟨q, hchain, hnames, horder (by norm_num)⟩

/-! ## Numbers that wrap -/

/-- A pack of a chain on which the contract account's blocks all have the stamp of genesis. -/
structure Stalled (p : BlockPack) (n : ℕ) : Prop where
  blockNum : p.blockNum = n
  idNum : p.blockId.num = n
  timestamp : p.newHeader.timestamp = 100
  roundSlot : p.roundSlot = 0
  builder : p.newHeader.builder = xmaxContractName
  currentBuilders : p.currentBuilders = twoBuilderGenesis.currentBuilders
  newBuilders : p.newBuilders = twoBuilderGenesis.newBuilders
  window : p.lastBlockOfBuilders = [] ∨
    ∃ e, p.lastBlockOfBuilders = [e] ∧ e.builder = xmaxContractName

/-- The block of the builder `name` at a stamp on a pack. -/
def blockOn (p : BlockPack) (when : ℕ) (name : AccountName) : SignedBlock :=
  { previous := p.blockId, timestamp := when, builder := name }

theorem generateDpos_same {pre : PackCore} (h : pre.lastBlockOfBuilders = [] ∨
    ∃ e, pre.lastBlockOfBuilders = [e] ∧ e.builder = pre.newHeader.builder) :
    (BlockPack.generateDpos pre).2 = [pre.brief] := by
  unfold BlockPack.generateDpos
  rcases h with h | ⟨e, h, hbuilder⟩
  · rw [h]
  · rw [h]
    simp [hbuilder]

theorem generateDpos_other {p : PackCore} {e : BlockBrief} (h : p.lastBlockOfBuilders = [e])
    (hbuilder : e.builder ≠ p.newHeader.builder) :
    (BlockPack.generateDpos p).2 = [e, p.brief] := by
  unfold BlockPack.generateDpos
  rw [h]
  simp [hbuilder, dposIrreversibleNeed, buildersPerRound]

/-- A pack of the next stamp-100 block, or of the first block in an elected builder's slot. -/
theorem Stalled.makes {n : ℕ} (h : Stalled p n) (when : ℕ) {info : BuilderInfo}
    (hsel : selectBuilder twoBuilderGenesis.currentBuilders twoBuilderGenesis.newBuilders
      (u32 (getDeltaSlotAtTime 100 when)) = some info) :
    ∃ q, p.initByPrePack when true = .ok q ∧ q.newHeader.builder = info.builderName ∧
      OfSlot p.toPackCore when q.toPackCore ∧ p.slotAt when = u32 (getDeltaSlotAtTime 100 when) ∧
      q.lastBlockOfBuilders = [p.brief] := by
  have hslot : p.slotAt when = u32 (getDeltaSlotAtTime 100 when) := by
    rw [PackCore.slotAt, h.roundSlot, h.timestamp, Nat.zero_add]
  have howner : selectBuilder p.currentBuilders p.newBuilders (p.slotAt when) = some info := by
    rw [h.currentBuilders, h.newBuilders, hslot]
    exact hsel
  obtain ⟨q, hq⟩ := exists_initByPrePack howner true
  have hof := initByPrePack_slot hq
  obtain ⟨current, -, hhead, hinfo, -, -, -, -, -, -, hd⟩ := initByPrePack_eq_ok hq
  have hwindow : (BlockPack.generateDpos p.toPackCore).2 = [p.brief] :=
    generateDpos_same (by rw [h.builder]; exact h.window)
  refine ⟨q, hq, ?_, hof, hslot, ?_⟩
  · rw [hhead, ← hinfo, Option.some.inj (hof.owner.symm.trans howner)]
  · rw [← hwindow, ← hd]

theorem Stalled.step {n : ℕ} (h : Stalled p n) (hn : n + 1 < 2 ^ 32) :
    ∃ q, p.initByPrePack 100 true = .ok q ∧ q.newHeader.builder = xmaxContractName ∧
      Stalled (q.generateByBlock stampCrypto (blockOn p 100 xmaxContractName)) (n + 1) := by
  have hnum : (blockOn p 100 xmaxContractName).blockNum = n + 1 := by
    simp only [BlockHeader.blockNum, blockOn, Summary.numFromId, h.idNum]
    exact u32_of_lt hn
  obtain ⟨q, hq, hbuilder, hof, hslot, hwindow⟩ :=
    h.makes 100 (show _ = some ⟨xmaxContractName, 7⟩ by decide)
  have hzero : p.slotAt 100 = 0 := hslot
  have hround : q.newRound = false := by rw [hof.newRound, hzero]; rfl
  refine ⟨q, hq, hbuilder, ?_⟩
  constructor
  · exact hnum
  · exact hnum
  · rfl
  · exact hof.roundSlot.trans (by rw [hzero]; rfl)
  · rfl
  · exact (hof.currentBuilders.trans (if_neg (by simp [hround]))).trans h.currentBuilders
  · exact (hof.newBuilders.trans (if_neg (by simp [hround]))).trans h.newBuilders
  · exact .inr ⟨p.brief, hwindow, h.builder⟩

theorem stalled_genesis : Stalled twoBuilderGenesis 1 :=
  ⟨rfl, rfl, rfl, rfl, rfl, rfl, rfl, .inl rfl⟩

/-- Up to the last number there is a chain whose blocks all have the stamp of genesis. -/
theorem exists_stalled : ∀ n, n + 1 < 2 ^ 32 →
    ∃ p ps, PackChain stampCrypto twoBuilderGenesis (p :: ps) ∧ Stalled p (n + 1)
  | 0, _ => ⟨_, _, .genesis, stalled_genesis⟩
  | n + 1, hn => by
    obtain ⟨p, ps, hchain, hp⟩ := exists_stalled n (by omega)
    obtain ⟨q, hq, hbuilder, hstalled⟩ := hp.step hn
    exact ⟨_, _, .extend hchain hq rfl rfl hbuilder.symm, hstalled⟩

/-- After the last number the next block has number zero, behind an entry with the last one. -/
theorem window_wraps :
    ∃ q ps, PackChain stampCrypto twoBuilderGenesis (q :: ps) ∧
      ¬ q.lastBlockOfBuilders.Pairwise (·.blockNum < ·.blockNum) := by
  obtain ⟨p, ps, hchain, hp⟩ := exists_stalled (2 ^ 32 - 2) (by norm_num)
  -- the builder of the second slot of the next round builds the block with number zero
  obtain ⟨q, hq, hbuilder, hof, hslot, hwindow⟩ :=
    hp.makes 121 (show _ = some ⟨2, 12⟩ by decide)
  set r := q.generateByBlock stampCrypto (blockOn p 121 2) with hr
  have hrchain : PackChain stampCrypto twoBuilderGenesis (r :: p :: ps) :=
    .extend hchain hq rfl rfl hbuilder.symm
  have hrnum : r.blockNum = 0 := by
    show u32 (p.blockId.num + 1) = 0
    rw [hp.idNum]
    rfl
  have hcurrent : r.currentBuilders = twoBuilderGenesis.newBuilders := by
    have hround : q.newRound = true := by rw [hof.newRound, hslot]; decide
    refine (hof.currentBuilders.trans (if_pos ⟨hround, ?_⟩)).trans hp.newBuilders
    rw [hp.newBuilders]
    rfl
  have hrslot : r.slotAt 122 = 1 := by
    have hzero : r.roundSlot = 0 := hof.roundSlot.trans (by rw [hslot]; decide)
    show u32 (r.roundSlot + getDeltaSlotAtTime 121 122) = 1
    rw [hzero]
    rfl
  have howner : selectBuilder r.currentBuilders r.newBuilders (r.slotAt 122) = some ⟨2, 12⟩ := by
    rw [hrslot, hcurrent, selectBuilder_current _ _ (by decide)]
    decide
  obtain ⟨q', hq'⟩ := exists_initByPrePack howner true
  obtain ⟨_, _, _, _, _, _, _, _, _, _, hd⟩ := initByPrePack_eq_ok hq'
  have hlast : q'.lastBlockOfBuilders = [p.brief, r.brief] := by
    have hother := generateDpos_other (p := r.toPackCore) (e := p.brief) hwindow (by
      show p.newHeader.builder ≠ 2
      rw [hp.builder]
      decide)
    rw [← hother, ← hd]
  refine ⟨q'.generateByBlock stampCrypto (blockOn r 122 q'.newHeader.builder), _,
    .extend hrchain hq' rfl rfl rfl, ?_⟩
  show ¬ q'.lastBlockOfBuilders.Pairwise _
  rw [hlast]
  simp [PackCore.brief, hrnum]

end XmaxChain
