import XmaxChain.Lineage
import XmaxChain.SigningKeys

/-!
# The lists of the rounds

A round's list is never empty: the next one takes its place only if there is somebody on it, and
the tally that makes one never leaves it empty. So every slot has a builder, whether the lists are
those of a pack or the copy in the database, and a round that begins finds the place of the next
list free.
-/

namespace XmaxChain

variable {cfg : ChainConfig}

/-- The list that the slot's builder is taken from. -/
def selectBuilderRule (current next : BuilderRule) (orderSlot : ℕ) : BuilderRule :=
  if orderSlot < blocksPerRound ∨ next.isEmpty then current else next

section Select

variable {current next : BuilderRule}

/-- The builder of a slot is the entry at its place in the slot's list. -/
theorem selectBuilder_eq (current next : BuilderRule) (index : ℕ) :
    selectBuilder current next index = (selectBuilderRule current next index).builders[
      (index / blocksPerBuilder) % (selectBuilderRule current next index).number]? := rfl

/-- Neither list is read outside or counted modulo nothing, whichever slot it is. -/
def SlotsServed (current next : BuilderRule) : Prop :=
  ∀ index, 0 < (selectBuilderRule current next index).number ∧
    (index / blocksPerBuilder) % (selectBuilderRule current next index).number
      < (selectBuilderRule current next index).builders.length ∧
    (selectBuilder current next index).isSome

theorem slotsServed (h : current.builders ≠ []) (next : BuilderRule) : SlotsServed current next := by
  intro index
  have hpos : 0 < (selectBuilderRule current next index).number := by
    unfold selectBuilderRule
    split_ifs with hcur
    · exact List.length_pos_iff.2 h
    · rw [not_or] at hcur
      refine List.length_pos_iff.2 fun hnil => hcur.2 ?_
      simp [BuilderRule.isEmpty, hnil]
  have hlt : (index / blocksPerBuilder) % (selectBuilderRule current next index).number
      < (selectBuilderRule current next index).builders.length := Nat.mod_lt _ hpos
  refine ⟨hpos, hlt, ?_⟩
  rw [selectBuilder_eq, List.getElem?_eq_getElem hlt]
  rfl

end Select

section Packs

/-- A round's list comes from one that had builders. -/
theorem OfSlot.builders {p q : PackCore} {when : ℕ} (h : OfSlot p when q)
    (hp : p.currentBuilders.builders ≠ []) : q.currentBuilders.builders ≠ [] := by
  rw [h.currentBuilders]
  split_ifs with hswap
  · intro hnil
    simp [BuilderRule.isEmpty, hnil] at hswap
  · exact hp

/-- Where a round begins, the next list is free: it has become the round's, or had nobody on it. -/
theorem OfSlot.newBuilders_free {p q : PackCore} {when : ℕ} (h : OfSlot p when q)
    (hround : q.newRound = true) : q.newBuilders.number = 0 := by
  rw [h.newBuilders, hround]
  split_ifs with hswap
  · rfl
  · simpa [BuilderRule.isEmpty, BuilderRule.number] using hswap

/-- Neither assertion fails where a pack whose next list is free is given one. -/
theorem generateNextBuilders_ok {q : BlockPack}
    (h : q.newRound = true → q.newBuilders.number = 0) (db : ChainDb) :
    ∃ q', generateNextBuilders cfg db q = .ok q' := by
  unfold generateNextBuilders
  split_ifs with hround
  · unfold BlockPack.setNextBuilders
    have hfree : (q.newBuilders.number == 0) = true := beq_iff_eq.2 (h hround)
    rw [hfree, beq_self_eq_true]
    exact ⟨_, rfl⟩
  · exact ⟨_, rfl⟩

/-- Every pack is known by its id and has builders for its round. -/
theorem inherited_builders :
    Inherited cfg (fun _ _ => True) fun a p => p.blockId = a ∧ p.currentBuilders.builders ≠ [] := by
  refine ⟨fun h => h.1, fun {a pre r when} h _ hnext => ⟨rfl, ?_⟩⟩
  obtain ⟨q, m, hq, -, hcurrent, -⟩ := hnext.exists_init
  rw [hcurrent]
  exact (initByPrePack_slot hq).builders h.2

end Packs

section Tally

variable {α : Type} {r : α → α → Prop}

/-- Whatever is not among the first of a sorted list comes after each of them. -/
theorem rel_of_mem_take {l : List α} (hl : l.Pairwise r) {n : ℕ} {a b : α} (ha : a ∈ l.take n)
    (hb : b ∈ l) (hnot : b ∉ l.take n) : r a b := by
  rw [← List.take_append_drop n l] at hl hb
  exact (List.pairwise_append.1 hl).2.2 a ha b ((List.mem_append.1 hb).resolve_left hnot)

instance : Std.Total byVotesLe := ⟨fun a b => by unfold byVotesLe; omega⟩

instance : IsTrans _ byVotesLe := ⟨fun a b c => by unfold byVotesLe; omega⟩

/-- The rows of the builders with a key, each with its id. -/
def activeBuilders (l : Ledger) : List ((AccountName × BuilderInfoObject) × ℕ) :=
  l.builders.rows.zipIdx.filter (·.1.2.isActived)

/-- More votes, or as many and a later row. -/
def Outvotes (a b : (AccountName × BuilderInfoObject) × ℕ) : Prop :=
  b.1.2.totalVotes < a.1.2.totalVotes ∨ b.1.2.totalVotes = a.1.2.totalVotes ∧ b.2 < a.2

/-- A round's list: of the active builders as many as there are slots, those with the most votes, in
the order of their names; or the contract account, if there is none. -/
structure ElectedFrom (key : PublicKey) (l : Ledger) (round : List BuilderInfo) : Prop where
  nonempty : round ≠ []
  sorted : round.Pairwise fun a b => a.builderName < b.builderName
  none : activeBuilders l = [] → round = [⟨xmaxContractName, key⟩]
  best : activeBuilders l ≠ [] → ∃ chosen : List ((AccountName × BuilderInfoObject) × ℕ),
    chosen.Nodup ∧ chosen ⊆ activeBuilders l ∧
      chosen.length = min blocksPerRound (activeBuilders l).length ∧
      (∀ a ∈ chosen, ∀ b ∈ activeBuilders l, b ∉ chosen → Outvotes a b) ∧
      round.Perm (chosen.map fun a => ⟨a.1.1, a.1.2.builderKey⟩)

/-- The active builders in the order of their votes. -/
def activeByVotes (l : Ledger) : List ((AccountName × BuilderInfoObject) × ℕ) :=
  (l.builders.rows.zipIdx.insertionSort byVotesLe).filter (·.1.2.isActived)

theorem activeByVotes_perm (l : Ledger) : (activeByVotes l).Perm (activeBuilders l) :=
  (List.perm_insertionSort _ _).filter _

theorem activeBuilders_nodup (l : Ledger) : (activeBuilders l).Nodup := by
  refine List.Nodup.filter _ (List.Nodup.of_map Prod.snd ?_)
  rw [List.zipIdx_map_snd]
  exact List.nodup_range'

/-- An id is that of one row. -/
theorem eq_of_id {l : Ledger} {a b : (AccountName × BuilderInfoObject) × ℕ}
    (ha : a ∈ activeBuilders l) (hb : b ∈ activeBuilders l) (hid : a.2 = b.2) : a = b := by
  have ha' := List.mem_zipIdx_iff_getElem?.1 (List.mem_of_mem_filter ha)
  have hb' := List.mem_zipIdx_iff_getElem?.1 (List.mem_of_mem_filter hb)
  rw [hid, hb', Option.some_inj] at ha'
  exact Prod.ext ha'.symm hid

/-- Of the active builders, those among the first by votes outvote the others. -/
theorem outvotes_of_mem_take {l : Ledger} {n : ℕ} {a b : (AccountName × BuilderInfoObject) × ℕ}
    (ha : a ∈ (activeByVotes l).take n) (hb : b ∈ activeBuilders l)
    (hnot : b ∉ (activeByVotes l).take n) : Outvotes a b := by
  have hpairs : (activeByVotes l).Pairwise byVotesLe := (List.pairwise_insertionSort _ _).filter _
  have hb' : b ∈ activeByVotes l := (activeByVotes_perm l).mem_iff.2 hb
  have ha' : a ∈ activeBuilders l := (activeByVotes_perm l).mem_iff.1 (List.mem_of_mem_take ha)
  have hne : a.2 ≠ b.2 := fun hid => hnot (eq_of_id ha' hb hid ▸ ha)
  refine (rel_of_mem_take hpairs ha hb' hnot).imp_right fun hle => ⟨hle.1, ?_⟩
  exact lt_of_le_of_ne hle.2 hne.symm

theorem nextRound_elected (key : PublicKey) (l : Ledger) : ElectedFrom key l (nextRound key l) := by
  set chosen := (activeByVotes l).take blocksPerRound with hchosen
  have hlength : chosen.length = min blocksPerRound (activeBuilders l).length := by
    rw [hchosen, List.length_take, (activeByVotes_perm l).length_eq]
  have hround : nextRound key l =
      if (chosen.map fun a => (⟨a.1.1, a.1.2.builderKey⟩ : BuilderInfo)).isEmpty
      then [⟨xmaxContractName, key⟩]
      else (chosen.map fun a => (⟨a.1.1, a.1.2.builderKey⟩ : BuilderInfo)).insertionSort
        (·.builderName ≤ ·.builderName) := rfl
  have hempty : chosen = [] ↔ activeBuilders l = [] := by
    rw [← List.length_eq_zero_iff, hlength, ← List.length_eq_zero_iff]
    simp [blocksPerRound, blocksPerBuilder, buildersPerRound]
  rw [List.isEmpty_map] at hround
  rcases eq_or_ne chosen [] with hnil | hne
  · rw [hnil, List.isEmpty_nil, if_pos rfl] at hround
    rw [hround]
    exact ⟨List.cons_ne_nil _ _, List.pairwise_singleton _ _, fun _ => rfl,
      fun hsome => absurd (hempty.1 hnil) hsome⟩
  · rw [if_neg (by simpa using hne)] at hround
    have hperm := List.perm_insertionSort (fun a b : BuilderInfo => a.builderName ≤ b.builderName)
      (chosen.map fun a => ⟨a.1.1, a.1.2.builderKey⟩)
    rw [← hround] at hperm
    refine ⟨fun hnil => ?_, ?_, fun hnone => absurd (hempty.2 hnone) hne, fun _ => ?_⟩
    · rw [hnil] at hperm
      exact hne (List.map_eq_nil_iff.1 (List.nil_perm.1 hperm))
    · -- in the order of names, and no name is there twice
      have hnames := List.pairwise_map.1 (nextRound_nodup key l)
      have hsorted : (nextRound key l).Pairwise fun a b => a.builderName ≤ b.builderName := by
        rw [hround]
        exact List.pairwise_insertionSort _ _
      exact (hsorted.and hnames).imp fun h => lt_of_le_of_ne h.1 h.2
    · refine ⟨chosen, ?_, fun a ha => ?_, hlength, fun a ha b => outvotes_of_mem_take ha, hperm⟩
      · exact ((activeByVotes_perm l).nodup_iff.2 (activeBuilders_nodup l)).sublist
          (List.take_sublist _ _)
      · exact (activeByVotes_perm l).mem_iff.1 (List.mem_of_mem_take ha)

end Tally

section Database

variable {pre : BlockPack} {db : ChainDb}

/-- A block on a head whose lists and whose database's lists serve every slot leaves such a head. -/
theorem builders_of_blockBody {when : ℕ} {pack : BlockPack} {trxs : List SignedTransaction}
    {finish : BlockPack → Except Fault BlockPack} {b : Building}
    (hpre : pre.currentBuilders.builders ≠ []) (hdb : db.currentBuilders.builders ≠ [])
    (hstart : startPack cfg pre db when = .ok pack) (hfinish : Seals cfg.crypto finish)
    (hbody : blockBody cfg pre trxs finish ⟨pack, db⟩ = .ok () b) :
    b.pack.currentBuilders.builders ≠ [] ∧ b.db.currentBuilders.builders ≠ [] := by
  have hpack : b.pack.currentBuilders.builders ≠ [] := by
    obtain ⟨q, m, hq, -, hcurrent, -⟩ := (NextPack.built hstart hfinish hbody).exists_init
    rw [hcurrent]
    exact (initByPrePack_slot hq).builders hpre
  refine ⟨hpack, ?_⟩
  obtain ⟨p, sealed, db', hp, -, hfinal, rfl⟩ := blockBody_eq_ok.1 hbody
  obtain ⟨auth, transactions, counter, hframe⟩ := applyAll_frame hp
  obtain ⟨hcur, -⟩ := updateFinalState_schedule hfinal
  show db'.currentBuilders.builders ≠ []
  rw [hcur]
  split_ifs
  · exact hpack
  · rw [hframe]
    exact hdb

theorem Applied.builders {G p : BlockPack} {d : ChainDb} (hG : G.currentBuilders.builders ≠ [])
    (hround : G.newRound = true) (h : Applied cfg G d p db) :
    p.currentBuilders.builders ≠ [] ∧ db.currentBuilders.builders ≠ [] := by
  induction h with
  | genesis final =>
    refine ⟨hG, ?_⟩
    obtain ⟨hcur, -⟩ := updateFinalState_schedule final
    rw [if_pos hround] at hcur
    exact hcur ▸ hG
  | built parent start body ih => exact builders_of_blockBody ih.1 ih.2 start (seals_sign _ _) body
  | confirmed parent direct ih =>
    obtain ⟨-, trxs, pack, -, hstart, hbody⟩ := directBlock_eq_ok.1 direct
    exact builders_of_blockBody ih.1 ih.2 hstart (seals_validate _ _) hbody
  | switched parent direct init ih =>
    obtain ⟨-, trxs, pack, -, hstart, hbody⟩ := directBlock_eq_ok.1 direct
    exact ⟨(initByPrePack_slot init).builders ih.1,
      (builders_of_blockBody ih.1 ih.2 hstart (seals_validate _ _) hbody).2⟩
  | marked head core ih =>
    rw [core]
    exact ih

end Database

variable {time : ℕ} {key : PublicKey} {sig : Signature} {receipts : List TransactionReceipt}
  {next : List BuilderInfo}

/-- After any calls every pack has builders for its round, every slot has one and the next pack gets
its list without a failed assertion, as the first one does; the copy in the database of every head
that blocks lead to serves every slot too; and the list that the tally gives is the elected one,
whatever the votes. -/
theorem schedules_well_formed :
    (∀ g calls, ∀ s, s = chainCalls cfg calls
        (.genesis (BlockPack.genesis cfg.crypto time key sig receipts next) g) →
      ∀ a, a ∈ s.fork.packs ∨ a = s.fork.head ∨ a = s.blockHead →
        (s.fork.objs a).currentBuilders.builders ≠ [] ∧
        SlotsServed (s.fork.objs a).currentBuilders (s.fork.objs a).newBuilders ∧
        ∀ when m, ∃ q, (s.fork.objs a).initByPrePack when m = .ok q ∧
          ∀ db, ∃ q', generateNextBuilders cfg db q = .ok q') ∧
    (∀ when info rule db,
      ∃ q', generateNextBuilders cfg db (.initDefault when info rule) = .ok q') ∧
    (∀ d p db, Applied cfg (BlockPack.genesis cfg.crypto time key sig receipts next) d p db →
      SlotsServed p.currentBuilders p.newBuilders ∧
        SlotsServed db.currentBuilders db.nextBuilders) ∧
    ∀ l : Ledger, ElectedFrom cfg.xmaxBuildPublicKey l (nextRound cfg.xmaxBuildPublicKey l) := by
  refine ⟨fun g calls s hs a ha => ?_, fun _ _ _ db => generateNextBuilders_ok (fun _ => rfl) db,
    fun d p db h => ?_, nextRound_elected _⟩
  · have hheld : s.Held (fun a p => p.blockId = a ∧ p.currentBuilders.builders ≠ []) [] := by
      rw [hs]
      exact inherited_builders.chainCalls calls
        (ChainState.held_genesis g ⟨rfl, List.cons_ne_nil _ _⟩)
    obtain ⟨-, hbuilders⟩ := hheld.held a (ha.imp_right (.imp_right List.mem_singleton.2))
    have hserved := slotsServed hbuilders (s.fork.objs a).newBuilders
    refine ⟨hbuilders, hserved, fun when m => ?_⟩
    obtain ⟨-, -, hsome⟩ := hserved ((s.fork.objs a).slotAt when)
    obtain ⟨info, hinfo⟩ := Option.isSome_iff_exists.1 hsome
    obtain ⟨q, hq⟩ := exists_initByPrePack hinfo m
    exact ⟨q, hq, generateNextBuilders_ok (initByPrePack_slot hq).newBuilders_free⟩
  · obtain ⟨hp, hdb⟩ := h.builders (List.cons_ne_nil _ _) rfl
    exact ⟨slotsServed hp _, slotsServed hdb _⟩

theorem schedules_well_formed_second :
    ∃ g, oneBuilderDb = .ok g ∧
      Applied headerConfig oneBuilderGenesis oneBuilderStart oneBuilderGenesis g ∧
      SlotsServed g.currentBuilders g.nextBuilders ∧
      ∃ q, (chainCalls headerConfig [.confirmBlock secondBlock]
        (.genesis oneBuilderGenesis g)).headPack.initByPrePack 130 true = .ok q := by
  obtain ⟨g, hg, -⟩ := exists_ok_of_eval (x := oneBuilderDb) (P := fun _ => True) (by decide)
  obtain ⟨d, hd, hsummary⟩ := bind_eq_ok.1 hg
  have happlied : Applied headerConfig oneBuilderGenesis oneBuilderStart oneBuilderGenesis g := by
    cases hsummary
    exact .genesis hd
  obtain ⟨hpacks, -, hheads, -⟩ :=
    @schedules_well_formed headerConfig 100 7 7 [] [⟨xmaxContractName, 7⟩]
  obtain ⟨-, -, hnext⟩ := hpacks g [.confirmBlock secondBlock] _ rfl _ (.inr (.inr rfl))
  obtain ⟨q, hq, -⟩ := hnext 130 true
  exact ⟨g, hg, happlied, (hheads _ _ _ happlied).2, q, hq⟩

end XmaxChain
