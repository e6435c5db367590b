import XmaxChain.BlockPack
import Mathlib.Data.List.Destutter

/-!
# DPoS finality

Each pack keeps the last blocks of the last builders, one entry a turn: a builder's turn is a run
of its blocks, and only the newest turn is compared with the next block's builder. So the window
of a pack is the builders of the last turns before it, and it counts a builder as often as that
builder had a turn.
-/

namespace XmaxChain

variable {c : Crypto} {G : BlockPack}

/-- A chain of packs from `G`, newest first: each is made from the one before by
`init_by_pre_pack` and takes in a block of its slot's builder. -/
inductive PackChain (c : Crypto) (G : BlockPack) : List BlockPack → Prop
  | genesis : PackChain c G [G]
  | extend {p q : BlockPack} {ps : List BlockPack} {when : ℕ} {mainchain : Bool} {b : SignedBlock}
      (chain : PackChain c G (p :: ps)) (init : p.initByPrePack when mainchain = .ok q)
      (previous : b.previous = p.blockId) (timestamp : b.timestamp = when)
      (builder : b.builder = q.newHeader.builder) :
      PackChain c G (q.generateByBlock c b :: p :: ps)

def buildersOf (ps : List BlockPack) : List AccountName := ps.map (·.newHeader.builder)

/-- The builders of the turns of a chain, newest first: its builders with runs taken as one. -/
def turnsOf (ps : List BlockPack) : List AccountName := (buildersOf ps).destutter (· ≠ ·)

/-- The builders of a pack's window, newest first. -/
def PackCore.windowBuilders (p : PackCore) : List AccountName :=
  (p.lastBlockOfBuilders.map (·.builder)).reverse

section Window

theorem turnsOf_cons_cons (p p' : BlockPack) (ps : List BlockPack) :
    turnsOf (p :: p' :: ps) =
      if p.newHeader.builder = p'.newHeader.builder then turnsOf (p' :: ps)
      else p.newHeader.builder :: turnsOf (p' :: ps) := by
  simp only [turnsOf, buildersOf, List.map_cons, List.destutter_cons']
  split_ifs with h
  · rw [List.destutter'_cons_neg _ (by simpa using h), h]
  · rw [List.destutter'_cons_pos _ h]

theorem turnsOf_head (p : BlockPack) (ps : List BlockPack) :
    ∃ ts, turnsOf (p :: ps) = p.newHeader.builder :: ts := by
  induction ps generalizing p with
  | nil => exact ⟨[], rfl⟩
  | cons p' ps ih =>
    rw [turnsOf_cons_cons]
    split_ifs with h
    · rw [h]
      exact ih p'
    · exact ⟨_, rfl⟩

/-- The next window's builders: the newest turn is dropped if it is the new block's builder's. -/
theorem generateDpos_builders (pre : PackCore) :
    ((BlockPack.generateDpos pre).2.map (·.builder)).reverse =
      if pre.windowBuilders.head? = some pre.newHeader.builder then pre.windowBuilders
      else pre.newHeader.builder ::
        (if pre.windowBuilders.length < dposIrreversibleNeed then pre.windowBuilders
          else pre.windowBuilders.dropLast) := by
  unfold BlockPack.generateDpos PackCore.windowBuilders
  split
  · simp [*, PackCore.brief, show 0 < dposIrreversibleNeed by decide]
  · rename_i front rest hw
    have hhead : ((front :: rest).map (·.builder)).reverse.head?
        = some (rest.getLastD front).builder := by
      simp [List.getLastD_eq_getLast?]
    simp only [hw, hhead, Option.some_inj]
    split_ifs with hb hlen hlen' hlen'
    · have := List.dropLast_append_getLast (List.cons_ne_nil front rest)
      rw [← List.map_reverse, ← List.map_reverse, ← this]
      simp [PackCore.brief, ← hb, List.getLast_eq_getLastD]
    · simp [PackCore.brief]
    · simp at hlen hlen'
      omega
    · simp at hlen hlen'
      omega
    · simp [PackCore.brief]

theorem take_need_step (ts : List AccountName) :
    (if (ts.take dposIrreversibleNeed).length < dposIrreversibleNeed then ts.take dposIrreversibleNeed
      else (ts.take dposIrreversibleNeed).dropLast) = ts.take (dposIrreversibleNeed - 1) := by
  have hneed : dposIrreversibleNeed = 14 := rfl
  rw [hneed]
  split_ifs with h
  · rw [List.length_take] at h
    rw [List.take_of_length_le (by omega), List.take_of_length_le (by omega)]
  · rw [List.length_take] at h
    rw [List.dropLast_eq_take, List.take_take, List.length_take]
    congr 1
    omega

/-- The window of a pack is the builders of the last turns before it. -/
theorem PackChain.window (hG : G.lastBlockOfBuilders = []) {q : BlockPack} {ps : List BlockPack}
    (h : PackChain c G (q :: ps)) : q.windowBuilders = (turnsOf ps).take dposIrreversibleNeed := by
  generalize hL : q :: ps = L at h
  induction h generalizing q ps with
  | genesis =>
    cases hL
    simp [PackCore.windowBuilders, hG, turnsOf, buildersOf]
  | @extend p q' ps' when mainchain b chain init _ _ _ ih =>
    cases hL
    obtain ⟨_, _, _, _, _, _, _, _, _, _, hdpos⟩ := initByPrePack_eq_ok init
    have hw : (q'.generateByBlock c b).windowBuilders
        = ((BlockPack.generateDpos p.toPackCore).2.map (·.builder)).reverse := by
      rw [← hdpos]; rfl
    rw [hw, generateDpos_builders, ih rfl, take_need_step]
    cases ps' with
    | nil => simp [turnsOf, buildersOf, dposIrreversibleNeed, buildersPerRound]
    | cons p' ps' =>
      obtain ⟨ts, hts⟩ := turnsOf_head p' ps'
      rw [turnsOf_cons_cons, hts, show dposIrreversibleNeed = 13 + 1 from rfl]
      simp only [List.take_succ_cons, List.head?_cons, Option.some_inj, Nat.add_sub_cancel,
        eq_comm (a := p'.newHeader.builder)]
      split_ifs with hb
      · simp
      · simp

end Window

section Turns

theorem turnsOf_suffix_cons (p : BlockPack) (ps : List BlockPack) :
    turnsOf ps <:+ turnsOf (p :: ps) := by
  cases ps with
  | nil => exact List.nil_suffix
  | cons p' ps =>
    rw [turnsOf_cons_cons]
    split_ifs
    · exact List.suffix_rfl
    · exact List.suffix_cons _ _

theorem turnsOf_suffix {ps ps' : List BlockPack} (h : ps' <:+ ps) : turnsOf ps' <:+ turnsOf ps := by
  induction ps with
  | nil => rw [List.suffix_nil.1 h]
  | cons p ps ih =>
    rcases List.suffix_cons_iff.1 h with rfl | h
    · exact List.suffix_rfl
    · exact (ih h).trans (turnsOf_suffix_cons p ps)

/-- Every end of the turns is the turns of an earlier chain. -/
theorem exists_turnsOf_eq {ps : List BlockPack} {ts : List AccountName} (h : ts <:+ turnsOf ps) :
    ∃ ps', ps' <:+ ps ∧ turnsOf ps' = ts := by
  induction ps with
  | nil => exact ⟨[], List.suffix_rfl, (List.suffix_nil.1 h).symm⟩
  | cons p ps ih =>
    have lift : ts <:+ turnsOf ps → ∃ ps', ps' <:+ p :: ps ∧ turnsOf ps' = ts := fun h => by
      obtain ⟨ps', hs, ht⟩ := ih h
      exact ⟨ps', hs.trans (List.suffix_cons _ _), ht⟩
    cases ps with
    | nil =>
      rcases List.suffix_cons_iff.1 h with rfl | h
      · exact ⟨[p], List.suffix_rfl, rfl⟩
      · exact lift h
    | cons p' ps =>
      by_cases hb : p.newHeader.builder = p'.newHeader.builder
      · exact lift (by rwa [turnsOf_cons_cons, if_pos hb] at h)
      · have htop := h
        rw [turnsOf_cons_cons, if_neg hb] at h
        rcases List.suffix_cons_iff.1 h with rfl | h
        · exact ⟨_, List.suffix_rfl, by rw [turnsOf_cons_cons, if_neg hb]⟩
        · exact lift h

theorem PackChain.suffix {L L' : List BlockPack} (h : PackChain c G L) (hs : L' <:+ L)
    (hne : L' ≠ []) : PackChain c G L' := by
  induction h with
  | genesis =>
    rcases List.suffix_cons_iff.1 hs with rfl | hs
    · exact .genesis
    · exact absurd (List.suffix_nil.1 hs) hne
  | extend chain init h1 h2 h3 ih =>
    rcases List.suffix_cons_iff.1 hs with rfl | hs
    · exact .extend chain init h1 h2 h3
    · exact ih hs

end Turns

/-- The builders in the window of every pack of the chain are pairwise distinct. -/
def WindowsDistinct (L : List BlockPack) : Prop :=
  ∀ p ∈ L, (p.lastBlockOfBuilders.map (·.builder)).Nodup

/-- In the turns before the newest pack, no builder comes back before thirteen others have had
theirs. -/
def TurnsDistinct (L : List BlockPack) : Prop :=
  ∀ w, w <:+: turnsOf L.tail → w.length ≤ dposIrreversibleNeed → w.Nodup

theorem windowsDistinct_iff (hG : G.lastBlockOfBuilders = []) {L : List BlockPack}
    (h : PackChain c G L) : WindowsDistinct L ↔ TurnsDistinct L := by
  constructor
  · rintro hwin w ⟨pre, post, hw⟩ hlen
    have hpost : w ++ post <:+ turnsOf L.tail := ⟨pre, by simpa using hw⟩
    obtain ⟨ps', hsuf, hts⟩ := exists_turnsOf_eq hpost
    -- the pack just above `ps'` has the start of `w ++ post` in its window
    obtain ⟨q, hq⟩ : ∃ q, q :: ps' <:+ L := by
      cases h with
      | genesis => exact ⟨G, by simp_all⟩
      | @extend p q _ _ _ b _ _ _ _ _ =>
        obtain ⟨front, hfront⟩ := hsuf
        rcases List.eq_nil_or_concat front with rfl | ⟨front, x, rfl⟩
        · exact ⟨_, by simp at hfront; rw [hfront]⟩
        · exact ⟨x, ⟨q.generateByBlock c b :: front, by simpa using hfront⟩⟩
    have hwindow := (h.suffix hq (by simp)).window hG
    have hnodup : q.windowBuilders.Nodup :=
      List.nodup_reverse.2 (hwin q (hq.subset (by simp)))
    rw [hwindow, hts] at hnodup
    refine hnodup.sublist (List.IsPrefix.sublist ?_)
    rw [List.prefix_take_iff]
    exact ⟨List.prefix_append _ _, hlen⟩
  · intro hturns q hq
    obtain ⟨front, ps', rfl⟩ := List.append_of_mem hq
    have hwindow := (h.suffix (List.suffix_append front _) (by simp)).window hG
    have hsuf : ps' <:+ (front ++ q :: ps').tail := by
      cases front with
      | nil => exact List.suffix_rfl
      | cons x front => exact ⟨front ++ [q], by simp⟩
    have := hturns (q.windowBuilders)
      (hwindow ▸ (List.take_prefix _ _).isInfix.trans (turnsOf_suffix hsuf).isInfix)
      (by rw [hwindow]; exact List.length_take_le _ _)
    exact List.nodup_reverse.1 this

section Quorum

/-- Enough distinct builders have built a block of the chain with number at least `n`. -/
def HasQuorum (L : List BlockPack) (n : ℕ) : Prop :=
  dposIrreversibleNeed ≤ ((L.filter (n ≤ ·.blockNum)).map (·.newHeader.builder)).toFinset.card

/-- Whatever block a pack of the chain makes irreversible has its quorum on the chain up to that
pack. -/
def DposQuorum (L : List BlockPack) : Prop :=
  ∀ q ps, q :: ps <:+ L → 0 < q.dposIrreversibleNum → HasQuorum (q :: ps) q.dposIrreversibleNum

theorem HasQuorum.cons {L : List BlockPack} {n : ℕ} (h : HasQuorum L n) (p : BlockPack) :
    HasQuorum (p :: L) n := by
  refine h.trans (Finset.card_le_card ?_)
  intro x
  simp only [List.mem_toFinset, List.mem_map, List.mem_filter]
  rintro ⟨q, ⟨hq, hn⟩, rfl⟩
  exact ⟨q, ⟨List.mem_cons_of_mem _ hq, hn⟩, rfl⟩

/-- While the numbers do not wrap, a pack's number is its place in the chain. -/
theorem PackChain.blockNum (hG : G.blockNum = 1) (hid : G.blockId.num = 1) {q : BlockPack}
    {ps : List BlockPack} (h : PackChain c G (q :: ps)) (hlen : ps.length + 1 < 2 ^ 32) :
    q.blockNum = ps.length + 1 ∧ q.blockId.num = ps.length + 1 := by
  generalize hL : q :: ps = L at h
  induction h generalizing q ps with
  | genesis => cases hL; exact ⟨hG, hid⟩
  | @extend p q' ps' when mainchain b chain init hprev _ _ ih =>
    cases hL
    rw [List.length_cons] at hlen
    have hp := (ih (by omega) rfl).2
    have hnum : b.blockNum = ps'.length + 1 + 1 := by
      simp only [BlockHeader.blockNum, hprev, Summary.numFromId, hp]
      exact u32_of_lt hlen
    exact ⟨hnum, hnum⟩

/-- The entries of a window are blocks of the chain before the pack, in the order of their
numbers. -/
structure WindowOf (w : List BlockBrief) (ps : List BlockPack) : Prop where
  mem : ∀ e ∈ w, ∃ p ∈ ps, p.brief = e
  sorted : w.Pairwise (·.blockNum < ·.blockNum)
  le : ∀ e ∈ w, e.blockNum ≤ ps.length

theorem WindowOf.sublist {w w' : List BlockBrief} {ps : List BlockPack} (h : WindowOf w ps)
    (hs : w'.Sublist w) : WindowOf w' ps :=
  ⟨fun e he => h.mem e (hs.subset he), h.sorted.sublist hs, fun e he => h.le e (hs.subset he)⟩

theorem WindowOf.push {w : List BlockBrief} {p : BlockPack} {ps : List BlockPack}
    (h : WindowOf w ps) (hp : p.blockNum = ps.length + 1) : WindowOf (w ++ [p.brief]) (p :: ps) := by
  have hb : p.brief.blockNum = ps.length + 1 := hp
  refine ⟨fun e he => ?_, ?_, fun e he => ?_⟩
  · rcases List.mem_append.1 he with he | he
    · obtain ⟨p', hp', rfl⟩ := h.mem e he
      exact ⟨p', List.mem_cons_of_mem _ hp', rfl⟩
    · exact ⟨p, List.mem_cons_self, (List.mem_singleton.1 he).symm⟩
  · refine List.pairwise_append.2 ⟨h.sorted, List.pairwise_singleton _ _, fun e he e' he' => ?_⟩
    have := h.le e he
    rw [List.mem_singleton.1 he', hb]
    omega
  · rcases List.mem_append.1 he with he | he
    · have := h.le e he
      simp only [List.length_cons]
      omega
    · simp [List.mem_singleton.1 he, hb]

/-- What `generate_dpos` makes of the window of a pack. -/
theorem generateDpos_cases (pre : PackCore) :
    (∃ w, w.Sublist pre.lastBlockOfBuilders
        ∧ (BlockPack.generateDpos pre).2 = w ++ [pre.brief])
      ∧ ((BlockPack.generateDpos pre).1 = (pre.dposIrreversibleNum, pre.dposIrreversibleId)
        ∨ ∃ front rest, pre.lastBlockOfBuilders = front :: rest
          ∧ dposIrreversibleNeed ≤ pre.lastBlockOfBuilders.length
          ∧ BlockPack.generateDpos pre
            = ((front.blockNum, front.blockId), rest ++ [pre.brief])) := by
  unfold BlockPack.generateDpos
  split
  · exact ⟨⟨[], List.nil_sublist _, rfl⟩, .inl rfl⟩
  · rename_i front rest hw
    simp only []
    split_ifs with hb hlen
    · exact ⟨⟨_, hw ▸ List.dropLast_sublist _, rfl⟩, .inl rfl⟩
    · exact ⟨⟨front :: rest, hw ▸ List.Sublist.refl _, rfl⟩, .inl rfl⟩
    · exact ⟨⟨rest, hw ▸ List.sublist_cons_self _ _, rfl⟩,
        .inr ⟨front, rest, hw, hw ▸ not_lt.1 hlen, rfl⟩⟩

theorem PackChain.windowOf (hG : G.lastBlockOfBuilders = []) (hnum : G.blockNum = 1)
    (hid : G.blockId.num = 1) {q : BlockPack} {ps : List BlockPack} (h : PackChain c G (q :: ps))
    (hlen : ps.length < 2 ^ 32) : WindowOf q.lastBlockOfBuilders ps := by
  generalize hL : q :: ps = L at h
  induction h generalizing q ps with
  | genesis => cases hL; constructor <;> simp [hG]
  | @extend p q' ps' when mainchain b chain init _ _ _ ih =>
    cases hL
    rw [List.length_cons] at hlen
    obtain ⟨_, _, _, _, _, _, _, _, _, _, hdpos⟩ := initByPrePack_eq_ok init
    obtain ⟨w, hsub, hw⟩ := (generateDpos_cases p.toPackCore).1
    have hq : (q'.generateByBlock c b).lastBlockOfBuilders = w ++ [p.brief] := by
      rw [← hw, ← hdpos]; rfl
    rw [hq]
    exact ((ih (by omega) rfl).sublist hsub).push (chain.blockNum hnum hid hlen).1

/-- A full window of distinct builders is a quorum for its first entry. -/
theorem WindowOf.hasQuorum {front : BlockBrief} {rest : List BlockBrief} {ps : List BlockPack}
    (h : WindowOf (front :: rest) ps) (hlen : dposIrreversibleNeed ≤ (front :: rest).length)
    (hnodup : ((front :: rest).map (·.builder)).Nodup) : HasQuorum ps front.blockNum := by
  refine hlen.trans ?_
  rw [← List.length_map (f := (·.builder)), ← List.toFinset_card_of_nodup hnodup]
  refine Finset.card_le_card fun x hx => ?_
  simp only [List.mem_toFinset, List.mem_map, List.mem_filter] at hx ⊢
  obtain ⟨e, he, rfl⟩ := hx
  obtain ⟨p, hp, rfl⟩ := h.mem e he
  refine ⟨p, ⟨hp, ?_⟩, rfl⟩
  rcases List.mem_cons.1 he with heq | he
  · simp [← heq, PackCore.brief]
  · exact decide_eq_true (List.rel_of_pairwise_cons h.sorted he).le

theorem dposQuorum_of_windows (hG : G.lastBlockOfBuilders = []) (hnum : G.blockNum = 1)
    (hid : G.blockId.num = 1) (hdpos : G.dposIrreversibleNum = 0) {L : List BlockPack}
    (h : PackChain c G L) (hlen : L.length < 2 ^ 32) (hwin : WindowsDistinct L) : DposQuorum L := by
  induction h with
  | genesis =>
    intro q ps hs hpos
    rcases List.suffix_cons_iff.1 hs with heq | hs
    · cases heq; omega
    · simp at hs
  | @extend p q' ps' when mainchain b chain init _ _ _ ih =>
    rw [List.length_cons] at hlen
    have ih := ih (by omega) fun x hx => hwin x (List.mem_cons_of_mem _ hx)
    intro q ps hs hpos
    rcases List.suffix_cons_iff.1 hs with heq | hs
    swap
    · exact ih q ps hs hpos
    cases heq
    refine HasQuorum.cons ?_ _
    obtain ⟨_, _, _, _, _, _, _, _, _, _, hd⟩ := initByPrePack_eq_ok init
    have hq : (q'.generateByBlock c b).dposIrreversibleNum
        = (BlockPack.generateDpos p.toPackCore).1.1 := by rw [← hd]; rfl
    rw [hq] at hpos ⊢
    rcases (generateDpos_cases p.toPackCore).2 with hsame | ⟨front, rest, hw, hfull, hnew⟩
    · -- the parent already had this number
      rw [hsame] at hpos ⊢
      exact ih p ps' List.suffix_rfl hpos
    · simp only [hnew]
      have hpw := chain.windowOf hG hnum hid (by simp at hlen; omega)
      rw [hw] at hpw hfull
      refine (hpw.hasQuorum hfull ?_).cons p
      exact hw ▸ hwin p (by simp)

end Quorum

variable {time : ℕ} {key : PublicKey} {sig : Signature} {receipts : List TransactionReceipt}
  {next : List BuilderInfo} {L : List BlockPack}

/-- The builders in the windows of a chain from genesis are pairwise distinct exactly when its
turns are, and then, block numbers not having wrapped, DPoS finality has its quorum. -/
theorem dpos_quorum_iff (h : PackChain c (BlockPack.genesis c time key sig receipts next) L) :
    (WindowsDistinct L ↔ TurnsDistinct L)
      ∧ (L.length < 2 ^ 32 → (DposQuorum L ∧ WindowsDistinct L ↔ TurnsDistinct L)) := by
  have hiff := windowsDistinct_iff rfl h
  refine ⟨hiff, fun hlen => ⟨fun hq => hiff.1 hq.2, fun ht => ⟨?_, hiff.2 ht⟩⟩⟩
  exact dposQuorum_of_windows rfl rfl rfl rfl h hlen (hiff.2 ht)

/-- The chain in which, at each of the stamps given newest first, the builder of the slot builds an
empty block; where a round begins, the block elects `next` for the round after. -/
def chainAt (c : Crypto) (G : BlockPack) (next : List BuilderInfo) :
    List ℕ → Except Fault (List BlockPack)
  | [] => .ok [G]
  | t :: ts => do
    match ← chainAt c G next ts with
    | [] => .error .diverged
    | p :: ps =>
      let q ← p.initByPrePack t true
      let b : SignedBlock :=
        { previous := p.blockId, timestamp := t, builder := q.newHeader.builder
          nextBuilders := if q.newRound then some ⟨q.currentBuilders.version + 1, next⟩ else none }
      return q.generateByBlock c b :: p :: ps

theorem chainAt_packChain {next : List BuilderInfo} :
    ∀ {ts : List ℕ} {L : List BlockPack}, chainAt c G next ts = .ok L → PackChain c G L
  | [], L, h => by cases h; exact .genesis
  | t :: ts, L, h => by
    obtain ⟨L', hL', h⟩ := bind_eq_ok.1 h
    match L', hL', h with
    | p :: ps, hL', h =>
      obtain ⟨q, hq, h⟩ := bind_eq_ok.1 h
      cases h
      exact .extend (chainAt_packChain hL') hq rfl rfl rfl

/-- Hashing that tells blocks apart by number, stamp and builder, and transactions by gas payer. -/
def stampCrypto : Crypto where
  sha256
    | .header h => ⟨0, h.timestamp * 1000 + h.builder % 1000⟩
    | .confirmation id verifier => ⟨0, id.rest * 1000 + verifier⟩
    | .signing _ t => ⟨0, t.gasPayer⟩
    | _ => default
  recover sig _ := some sig
  canonical _ := true
  sign key _ := key

/-- Two builders that take turns from the first elected round on. -/
def twoBuilders : List BuilderInfo := [⟨1, 11⟩, ⟨2, 12⟩]

def twoBuilderGenesis : BlockPack := BlockPack.genesis stampCrypto 100 7 7 [] twoBuilders

def twoBuilderChain (n : ℕ) : Except Fault (List BlockPack) :=
  chainAt stampCrypto twoBuilderGenesis twoBuilders ((List.range n).map (121 + ·)).reverse

theorem dpos_quorum_iff_two_packs :
    ∃ L, PackChain stampCrypto twoBuilderGenesis L ∧ L.length = 2 ∧ DposQuorum L
      ∧ WindowsDistinct L := by
  obtain ⟨L, hL, hlen, hturns⟩ := exists_ok_of_eval (x := twoBuilderChain 1)
    (P := fun L => L.length = 2 ∧ turnsOf L.tail = [xmaxContractName]) (by decide)
  have hchain := chainAt_packChain hL
  refine ⟨L, hchain, hlen, ((dpos_quorum_iff hchain).2 (by omega)).2 fun w hw _ => ?_⟩
  rw [hturns] at hw
  exact (List.nodup_singleton _).sublist hw.sublist

/-- Two builders alone fill the window of fourteen and make block one irreversible. -/
theorem two_builders_reach_finality :
    ∃ L, PackChain stampCrypto twoBuilderGenesis L ∧ ¬ DposQuorum L ∧ ¬ WindowsDistinct L := by
  obtain ⟨L, hL, hcheck⟩ := exists_ok_of_eval (x := twoBuilderChain 16)
    (P := fun L => 0 < (L.headD default).dposIrreversibleNum
      ∧ (L.map (·.newHeader.builder)).toFinset.card < dposIrreversibleNeed
      ∧ ¬ ((L.headD default).lastBlockOfBuilders.map (·.builder)).Nodup)
    (by decide)
  match L, hL, hcheck with
  | [], _, ⟨hpos, _⟩ => exact absurd hpos (by decide)
  | q :: ps, hL, ⟨hpos, hcard, hdup⟩ =>
    refine ⟨q :: ps, chainAt_packChain hL, fun hq => ?_, fun hw => hdup (hw q List.mem_cons_self)⟩
    have hle := hq q ps List.suffix_rfl hpos
    have hsub := Finset.card_le_card fun x hx => List.mem_toFinset.2
      (((List.filter_sublist (p := (q.dposIrreversibleNum ≤ ·.blockNum)) (l := q :: ps)).map
        (·.newHeader.builder)).subset (List.mem_toFinset.1 hx))
    exact absurd (hle.trans hsub) (not_le.2 hcard)

end XmaxChain
