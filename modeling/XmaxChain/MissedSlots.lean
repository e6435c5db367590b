import XmaxChain.Lineage
import XmaxChain.SigningKeys

/-!
# Missed slots

A block charges the slots that have passed since its parent to the builders whose they were, if
these have a row. Of the slots of a long gap it takes only as many as are left when whole rounds
are taken away, and the first ones; and a builder without a row is not charged later for what it
missed before it had one.
-/

namespace XmaxChain

variable {cfg : ChainConfig} {name : AccountName}

/-- What lies between a head, with its database, and a block at the time on it. -/
structure Gap where
  pre : PackCore
  db : ChainDb
  when : ℕ

namespace Gap

/-- How many slots are strictly between the two blocks. -/
def length (g : Gap) : ℕ := getDeltaSlotAtTime g.pre.newHeader.timestamp g.when - 1

/-- Whose slot the `i`-th one after the head's is, by the lists of the head. -/
def owner (g : Gap) (i : ℕ) : Option AccountName :=
  (selectBuilder g.pre.currentBuilders g.pre.newBuilders (u32 (g.pre.roundSlot + 1 + i))).map
    (·.builderName)

/-- How many of the first `n` slots are the builder's. -/
def ownedBy (g : Gap) (name : AccountName) (n : ℕ) : ℕ :=
  (List.range n).countP fun i => g.owner i = some name

/-- How many slots the builder has missed. -/
def missedBy (g : Gap) (name : AccountName) : ℕ := g.ownedBy name g.length

/-- How many slots the builder is charged with. -/
def chargedTo (g : Gap) (name : AccountName) : ℕ :=
  if (g.db.builderObjects.find? name).isSome then g.ownedBy name (g.length % blocksPerRound) else 0

/-- Every slot that the builder has missed is one of the first that are left without the whole
rounds, and the builder has a row. -/
def Charges (g : Gap) (name : AccountName) : Prop :=
  ∀ i < g.length, g.owner i = some name →
    i < g.length % blocksPerRound ∧ (g.db.builderObjects.find? name).isSome

variable {g : Gap}

theorem ownedBy_add (m n : ℕ) :
    g.ownedBy name (m + n) = g.ownedBy name m + (List.range n).countP fun i =>
      g.owner (m + i) = some name := by
  rw [ownedBy, List.range_add, List.countP_append, List.countP_map]
  rfl

theorem ownedBy_mono {m n : ℕ} (h : m ≤ n) : g.ownedBy name m ≤ g.ownedBy name n := by
  obtain ⟨k, rfl⟩ := Nat.exists_eq_add_of_le h
  rw [ownedBy_add]
  exact Nat.le_add_right _ _

/-- The first slots are all the builder's slots if none comes later. -/
theorem ownedBy_eq_iff {m n : ℕ} (h : m ≤ n) :
    g.ownedBy name m = g.ownedBy name n ↔ ∀ i < n, g.owner i = some name → i < m := by
  obtain ⟨k, rfl⟩ := Nat.exists_eq_add_of_le h
  rw [ownedBy_add, left_eq_add, List.countP_eq_zero]
  simp only [List.mem_range, decide_eq_true_eq]
  constructor
  · intro hnone i hi howner
    by_contra hle
    refine hnone (i - m) (by omega) ?_
    rw [Nat.add_sub_cancel' (not_lt.1 hle)]
    exact howner
  · intro hall i hi howner
    have := hall (m + i) (by omega) howner
    omega

theorem chargedTo_le (g : Gap) (name : AccountName) : g.chargedTo name ≤ g.missedBy name := by
  unfold chargedTo
  split_ifs
  · exact ownedBy_mono (Nat.mod_le _ _)
  · exact Nat.zero_le _

theorem chargedTo_eq_iff : g.chargedTo name = g.missedBy name ↔ g.Charges name := by
  unfold chargedTo Charges missedBy
  split_ifs with hrow
  · rw [ownedBy_eq_iff (Nat.mod_le _ _)]
    simp [hrow]
  · rw [show (0 : ℕ) = g.ownedBy name 0 from rfl, ownedBy_eq_iff (Nat.zero_le _)]
    simp [hrow]

/-- A gap shorter than a round charges whoever has a row. -/
theorem charges_of_short (hlength : g.length < blocksPerRound)
    (hrow : (g.db.builderObjects.find? name).isSome) : g.Charges name := by
  intro i hi _
  rw [Nat.mod_eq_of_lt hlength]
  exact ⟨hi, hrow⟩

end Gap

/-- The slots that a builder has missed over all gaps. -/
def missedSlots (gaps : List Gap) (name : AccountName) : ℕ := (gaps.map (·.missedBy name)).sum

/-- The slots that a builder is charged with over all gaps. -/
def chargedSlots (gaps : List Gap) (name : AccountName) : ℕ := (gaps.map (·.chargedTo name)).sum

theorem chargedSlots_le (name : AccountName) :
    ∀ gaps : List Gap, chargedSlots gaps name ≤ missedSlots gaps name
  | [] => le_rfl
  | g :: gaps => Nat.add_le_add (g.chargedTo_le name) (chargedSlots_le name gaps)

/-- A builder is charged with all it has missed exactly if it is in every gap. -/
theorem chargedSlots_eq_iff : ∀ gaps : List Gap,
    chargedSlots gaps name = missedSlots gaps name ↔ ∀ g ∈ gaps, g.Charges name
  | [] => by simp [chargedSlots, missedSlots]
  | g :: gaps => by
    have hle := g.chargedTo_le name
    have hles := chargedSlots_le name gaps
    rw [List.forall_mem_cons, ← chargedSlots_eq_iff gaps, ← Gap.chargedTo_eq_iff]
    show g.chargedTo name + chargedSlots gaps name = g.missedBy name + missedSlots gaps name ↔ _
    omega

section Totals

variable {db db' : ChainDb}

/-- What a builder has been charged with, if it has a row. -/
def totalMissedOf (db : ChainDb) (name : AccountName) : Option ℕ :=
  (db.builderObjects.find? name).map (·.totalMissed)

theorem totalMissedOf_modify (db : ChainDb) (k : AccountName) {f : BuilderObject → BuilderObject}
    (hf : ∀ b, (f b).totalMissed = b.totalMissed) (name : AccountName) :
    totalMissedOf { db with builderObjects := db.builderObjects.modify k f } name
      = totalMissedOf db name :=
  Table.map_find?_modify _ _ _ hf

/-- The count in a row goes up by `n`, and whoever has no row is not counted. -/
structure CountedUp (n : ℕ) (total total' : Option ℕ) : Prop where
  none : total = none → total' = none
  some : ∀ m, total = some (u64 m) → total' = some (u64 (m + n))

theorem countMissed_totals {deltaSlot : ℕ} (h : countMissed deltaSlot db = .ok db')
    (name : AccountName) :
    CountedUp ((List.range (missedBlocks deltaSlot % blocksPerRound)).countP fun i =>
        (selectBuilder db.currentBuilders db.nextBuilders (u32 (db.states.roundSlot + 1 + i))).map
          (·.builderName) = some name)
      (totalMissedOf db name) (totalMissedOf db' name) := by
  suffices hdone : (∃ objs, db' = { db with builderObjects := objs }) ∧ CountedUp _ _ _ from hdone.2
  refine foldlM_tracks (P := fun done db' =>
    (∃ objs, db' = { db with builderObjects := objs }) ∧
      CountedUp (done.countP fun i => (selectBuilder db.currentBuilders db.nextBuilders
          (u32 (db.states.roundSlot + 1 + i))).map (·.builderName) = some name)
        (totalMissedOf db name) (totalMissedOf db' name)) ?_ [] h
    ⟨⟨_, rfl⟩, fun hrow => hrow, fun m hm => hm⟩
  rintro done db₁ i db₂ h₂ ⟨⟨objs, rfl⟩, hnone, hsome⟩
  split at h₂
  · cases h₂
  · rename_i miss hmiss
    cases h₂
    refine ⟨⟨_, rfl⟩, fun hrow => ?_, fun m hm => ?_⟩
    · have hrow' := Option.map_eq_none_iff.1 (hnone hrow)
      dsimp only at hrow'
      simp only [totalMissedOf, Table.find?_modify, hrow', Option.map_none]
    · obtain ⟨b, hb, hcount⟩ := Option.map_eq_some_iff.1 (hsome m hm)
      dsimp only at hb
      simp only [totalMissedOf, Table.find?_modify, hb, Option.map_some, List.countP_append,
        List.countP_singleton, hmiss, Option.some_inj, decide_eq_true_eq, eq_comm (a := name)]
      split_ifs with hname
      · dsimp only
        rw [hcount]
        unfold u64
        omega
      · exact hcount

/-- Storing a list counts nothing; a new row starts at zero. -/
theorem updateOrCreateBuilders_totals {rule : BuilderRule}
    (h : updateOrCreateBuilders rule db = .ok db') (name : AccountName) :
    totalMissedOf db' name = totalMissedOf db name ∨
      totalMissedOf db name = none ∧ totalMissedOf db' name = some 0 := by
  refine foldlM_keeps (P := fun db' => totalMissedOf db' name = totalMissedOf db name ∨
    totalMissedOf db name = none ∧ totalMissedOf db' name = some 0) ?_ h (.inl rfl)
  intro db₁ info db₂ h₂ h₁
  split at h₂
  · cases h₂
    rw [totalMissedOf_modify]
    · exact h₁
    · exact fun _ => rfl
  · obtain ⟨objs, hobjs, h₂⟩ := bind_eq_ok.1 h₂
    cases h₂
    obtain ⟨hfree, hrows⟩ := Table.create?_eq_some (dbCreate_eq_ok.1 hobjs)
    by_cases hname : name = info.builderName
    · subst hname
      have hnone : totalMissedOf db₁ info.builderName = none := Option.map_eq_none_iff.2 hfree
      have hnew : totalMissedOf { db₁ with builderObjects := objs } info.builderName = some 0 := by
        simp [totalMissedOf, hrows]
      rcases h₁ with hsame | ⟨-, hzero⟩
      · exact .inr ⟨hsame.symm.trans hnone, hnew⟩
      · rw [hnone] at hzero
        cases hzero
    · have hsame : totalMissedOf { db₁ with builderObjects := objs } name
          = totalMissedOf db₁ name := by
        simp [totalMissedOf, hrows, hname]
      rw [hsame]
      exact h₁

/-- What the end of a block counts. -/
theorem updateFinalState_totals {c : Crypto} {headTime : ℕ} {pack : PackCore}
    (h : updateFinalState c headTime pack db = .ok db') (name : AccountName) :
    (totalMissedOf db name = none →
        totalMissedOf db' name = none ∨ totalMissedOf db' name = some 0) ∧
      ∀ m, totalMissedOf db name = some (u64 m) → totalMissedOf db' name = some (u64 (m +
        (List.range (missedBlocks (getDeltaSlotAtTime headTime pack.block.timestamp)
            % blocksPerRound)).countP fun i =>
          (selectBuilder db.currentBuilders db.nextBuilders
            (u32 (db.states.roundSlot + 1 + i))).map (·.builderName) = some name)) := by
  simp only [updateFinalState, bind_eq_ok] at h
  obtain ⟨db₁, h₁, db₂, h₂, h⟩ := h
  obtain ⟨hnone, hsome⟩ := countMissed_totals h₁ name
  cases h
  have hlast : ∀ name, totalMissedOf { db₂ with
      builderObjects := db₂.builderObjects.modify pack.block.builder fun b =>
        { b with lastBlockTime := timePoint pack.block.timestamp } } name = totalMissedOf db₂ name :=
    totalMissedOf_modify db₂ pack.block.builder fun _ => rfl
  have hstored : totalMissedOf db₂ name = totalMissedOf db₁ name ∨
      totalMissedOf db₁ name = none ∧ totalMissedOf db₂ name = some 0 := by
    unfold storeBuilders at h₂
    split at h₂
    · split at h₂
      · cases h₂
      · obtain ⟨db₃, h₃, h₂⟩ := bind_eq_ok.1 h₂
        cases h₂
        exact updateOrCreateBuilders_totals h₃ name
    · cases h₂
      exact .inl rfl
  constructor
  · intro hrow
    rcases hstored with hsame | ⟨-, hzero⟩
    · exact .inl ((hlast name).trans (hsame.trans (hnone hrow)))
    · exact .inr ((hlast name).trans hzero)
  · intro m hm
    rcases hstored with hsame | ⟨hfree, -⟩
    · exact (hlast name).trans (hsame.trans (hsome m hm))
    · rw [hsome m hm] at hfree
      cases hfree

end Totals

section Run

variable {pre p : BlockPack} {d db db' : ChainDb} {when : ℕ} {gaps : List Gap}

/-- A head of a chain of blocks from genesis, with the gaps between its blocks, the last one
first. -/
inductive AppliedWith (cfg : ChainConfig) (G : BlockPack) (d : ChainDb) :
    List Gap → BlockPack → ChainDb → Prop
  | genesis {g : ChainDb} (fresh : d.builderObjects.rows = [])
      (final : updateFinalState cfg.crypto G.newHeader.timestamp G.toPackCore d = .ok g) :
      AppliedWith cfg G d [] G (blockSummary cfg.crypto G.block g)
  | next {gaps : List Gap} {pre p : BlockPack} {db db' : ChainDb} {when : ℕ}
      (parent : AppliedWith cfg G d gaps pre db) (stamp : when < 2 ^ 32)
      (step : NextHead cfg pre db when p db') :
      AppliedWith cfg G d (⟨pre.toPackCore, db, when⟩ :: gaps) p db'
  | marked {gaps : List Gap} {p p' : BlockPack} {db : ChainDb}
      (head : AppliedWith cfg G d gaps p db) (core : p'.toPackCore = p.toPackCore) :
      AppliedWith cfg G d gaps p' db

theorem AppliedWith.applied {G : BlockPack} (h : AppliedWith cfg G d gaps p db) :
    Applied cfg G d p db := by
  induction h with
  | genesis fresh final => exact .genesis final
  | next parent stamp step ih => exact step.applied ih
  | marked head core ih => exact .marked ih core

/-- The database has counted for the builder what the gaps charge it with. -/
def Counted (gaps : List Gap) (db : ChainDb) (name : AccountName) : Prop :=
  totalMissedOf db name = none ∧ chargedSlots gaps name = 0 ∨
    totalMissedOf db name = some (u64 (chargedSlots gaps name))

theorem NextHead.nextPack (h : NextHead cfg pre db when p db') : NextPack cfg pre when p := by
  rcases h with ⟨start, body⟩ | ⟨rfl, direct⟩ | ⟨rfl, direct, init⟩
  · exact .built start (seals_sign _ _) body
  · obtain ⟨-, trxs, pack, -, hstart, hbody⟩ := directBlock_eq_ok.1 direct
    exact .built hstart (seals_validate _ _) hbody
  · obtain ⟨hdesc, -⟩ := directBlock_eq_ok.1 direct
    simp only [validateBlockDesc, bind_eq_ok, fcAssert_eq_ok, beq_iff_eq] at hdesc
    obtain ⟨-, hprevious, -⟩ := hdesc
    exact .received init hprevious.symm rfl

theorem NextHead.exists_body (h : NextHead cfg pre db when p db') :
    ∃ pack trxs finish b, startPack cfg pre db when = .ok pack ∧ Seals cfg.crypto finish ∧
      blockBody cfg pre trxs finish ⟨pack, db⟩ = .ok () b ∧ b.db = db' := by
  rcases h with ⟨start, body⟩ | ⟨rfl, direct⟩ | ⟨rfl, direct, -⟩
  · exact ⟨_, _, _, _, start, seals_sign _ _, body, rfl⟩
  · obtain ⟨-, trxs, pack, -, hstart, hbody⟩ := directBlock_eq_ok.1 direct
    exact ⟨_, _, _, _, hstart, seals_validate _ _, hbody, rfl⟩
  · obtain ⟨-, trxs, pack, -, hstart, hbody⟩ := directBlock_eq_ok.1 direct
    exact ⟨_, _, _, _, hstart, seals_validate _ _, hbody, rfl⟩

theorem NextHead.later (h : NextHead cfg pre db when p db') : pre.newHeader.timestamp < when := by
  obtain ⟨pack, trxs, finish, b, hstart, -⟩ := h.exists_body
  exact startPack_later hstart

/-- The next head's database comes from the end of a block at the time, on a database that the
transactions have changed in nothing that the end counts by. -/
theorem NextHead.exists_final (h : NextHead cfg pre db when p db') :
    ∃ (pack : PackCore) (db₁ db₂ : ChainDb), pack.block.timestamp = when ∧
      updateFinalState cfg.crypto pre.newHeader.timestamp pack db₁ = .ok db₂ ∧
      (db₁.builderObjects = db.builderObjects ∧ db₁.currentBuilders = db.currentBuilders ∧
        db₁.nextBuilders = db.nextBuilders ∧ db₁.states = db.states) ∧
      db'.builderObjects = db₂.builderObjects := by
  obtain ⟨pack, trxs, finish, b, hstart, hseals, hbody, rfl⟩ := h.exists_body
  obtain ⟨q, hq, hcases⟩ := startPack_cases hstart
  have htime := (initByPrePack_slot hq).timestamp
  obtain ⟨p', sealed, db₂, hp, hsealed, hfinal, rfl⟩ := blockBody_eq_ok.1 hbody
  obtain ⟨sig, rfl⟩ := hseals hsealed
  obtain ⟨auth, transactions, counter, hdb⟩ := applyAll_frame hp
  refine ⟨_, p'.db, db₂, ?_, hfinal, ?_, rfl⟩
  · rcases hcases with ⟨-, rfl⟩ | ⟨-, -, rule, -, rfl⟩
    · exact htime
    · exact htime
  · rw [hdb]
    exact ⟨rfl, rfl, rfl, rfl⟩

/-- A block counts the gap before it. -/
theorem Counted.nextHead (hs : Synced pre.toPackCore db) (hstamp : when < 2 ^ 32)
    (h : NextHead cfg pre db when p db') (hc : Counted gaps db name) :
    Counted (⟨pre.toPackCore, db, when⟩ :: gaps) db' name := by
  have hlater := h.later
  obtain ⟨pack, db₁, db₂, rfl, hfinal, ⟨hobjs, hcur, hnext, hstates⟩, hobjs'⟩ := h.exists_final
  obtain ⟨hnone, hsome⟩ := updateFinalState_totals hfinal name
  have hrow : totalMissedOf db₁ name = totalMissedOf db name := by
    rw [totalMissedOf, hobjs, totalMissedOf]
  have hrow' : totalMissedOf db' name = totalMissedOf db₂ name := by
    rw [totalMissedOf, hobjs', totalMissedOf]
  have hdelta := getDeltaSlotAtTime_of_lt hlater hstamp
  set g : Gap := ⟨pre.toPackCore, db, pack.block.timestamp⟩ with hg
  have hlength : missedBlocks (getDeltaSlotAtTime pre.newHeader.timestamp pack.block.timestamp)
      = g.length := by
    unfold missedBlocks
    rw [if_neg (by omega)]
    rfl
  have hsum : chargedSlots (g :: gaps) name = chargedSlots gaps name + g.chargedTo name :=
    Nat.add_comm _ _
  unfold Counted at hc ⊢
  rw [hrow', hsum]
  rw [hrow] at hnone hsome
  rcases hc with ⟨hfree, hzero⟩ | hcount
  · -- no row, so the gap charges nothing, and a row it gets starts at zero
    have hno : g.chargedTo name = 0 := by
      unfold Gap.chargedTo
      rw [if_neg]
      rw [Option.not_isSome_iff_eq_none]
      exact Option.map_eq_none_iff.1 hfree
    rw [hzero, hno]
    rcases hnone hfree with h | h
    · exact .inl ⟨h, rfl⟩
    · exact .inr h
  · have hcharged : g.chargedTo name = g.ownedBy name (g.length % blocksPerRound) := by
      unfold Gap.chargedTo
      rw [if_pos]
      obtain ⟨b, hb, -⟩ := Option.map_eq_some_iff.1 hcount
      exact Option.isSome_of_eq_some hb
    refine .inr ((hsome _ hcount).trans ?_)
    rw [hcharged, hlength, hcur, hnext, hstates, hs.current, hs.next, hs.roundSlot]
    rfl

theorem Gap.missedBy_le (g : Gap) (name : AccountName) : g.missedBy name ≤ g.length := by
  unfold Gap.missedBy Gap.ownedBy
  exact List.countP_le_length.trans_eq List.length_range

/-- The gaps lie one after another, so the slots missed are no more than there are stamps. -/
theorem AppliedWith.missedSlots_lt {G : BlockPack} (h : AppliedWith cfg G d gaps p db)
    (name : AccountName) : missedSlots gaps name < 2 ^ 32 := by
  have hspan : missedSlots gaps name ≤ p.newHeader.timestamp ∧
      (gaps = [] ∨ p.newHeader.timestamp < 2 ^ 32) := by
    induction h with
    | genesis fresh final => exact ⟨Nat.zero_le _, .inl rfl⟩
    | @next gaps pre p db db' when parent stamp step ih =>
      have hwhen : p.newHeader.timestamp = when := by
        obtain ⟨-, -, -, -, -, htime⟩ := step.nextPack.exists_init
        exact htime
      set g : Gap := ⟨pre.toPackCore, db, when⟩ with hg
      have hlater := step.later
      have hlength : g.length = when - pre.newHeader.timestamp - 1 := by
        rw [Gap.length, getDeltaSlotAtTime_of_lt hlater stamp]
      have hle := g.missedBy_le name
      have hsum : missedSlots (g :: gaps) name = g.missedBy name + missedSlots gaps name := rfl
      rw [hwhen]
      refine ⟨?_, .inr stamp⟩
      have := ih.1
      omega
    | marked head core ih =>
      rw [core]
      exact ih
  obtain ⟨hle, rfl | hlt⟩ := hspan
  · exact Nat.two_pow_pos 32
  · exact hle.trans_lt hlt

variable {time : ℕ} {key : PublicKey} {sig : Signature} {receipts : List TransactionReceipt}
  {next : List BuilderInfo}

theorem AppliedWith.counted
    (hid : ∀ h h' : BlockHeader, h.id cfg.crypto = h'.id cfg.crypto → h = h')
    (h : AppliedWith cfg (BlockPack.genesis cfg.crypto time key sig receipts next) d gaps p db)
    (name : AccountName) : Counted gaps db name := by
  induction h with
  | genesis fresh final =>
    have hfree : totalMissedOf d name = none := by
      simp [totalMissedOf, Table.find?, fresh]
    rcases (updateFinalState_totals final name).1 hfree with h | h
    · exact .inl ⟨h, rfl⟩
    · exact .inr h
  | next parent stamp step ih => exact ih.nextHead (parent.applied.synced hid).1 stamp step
  | marked head core ih => exact ih

/-- A builder's row has the number of the slots it has missed since genesis, exactly if in every
gap it is charged with all of them. -/
theorem total_missed_iff (hid : ∀ h h' : BlockHeader, h.id cfg.crypto = h'.id cfg.crypto → h = h')
    (h : AppliedWith cfg (BlockPack.genesis cfg.crypto time key sig receipts next) d gaps p db)
    {row : BuilderObject} (hrow : db.builderObjects.find? name = some row) :
    row.totalMissed = missedSlots gaps name ↔ ∀ g ∈ gaps, g.Charges name := by
  have hcount : row.totalMissed = u64 (chargedSlots gaps name) := by
    have hof : totalMissedOf db name = some row.totalMissed := by
      rw [totalMissedOf, hrow, Option.map_some]
    rcases h.counted hid name with ⟨hnone, -⟩ | hsome
    · rw [hof] at hnone
      cases hnone
    · exact Option.some.inj (hof.symm.trans hsome)
  have hle := chargedSlots_le name gaps
  have hlt := h.missedSlots_lt name
  have hfits : u64 (chargedSlots gaps name) = chargedSlots gaps name :=
    Nat.mod_eq_of_lt (by omega)
  rw [hcount, hfits]
  exact chargedSlots_eq_iff gaps

end Run

/-- Genesis, with an empty block built on it at the time. -/
def builtOnGenesis (when : ℕ) : Except Fault (ChainDb × Building) := do
  let db ← oneBuilderDb
  let pack ← startPack headerConfig oneBuilderGenesis db when
  match blockBody headerConfig oneBuilderGenesis []
      (fun pack => .ok (pack.signBlock headerCrypto 7)) ⟨pack, db⟩ with
  | .ok _ b => return (db, b)
  | .error e _ => .error e

theorem builtOnGenesis_applied {when : ℕ} {db : ChainDb} {b : Building} (hstamp : when < 2 ^ 32)
    (h : builtOnGenesis when = .ok (db, b)) :
    AppliedWith headerConfig oneBuilderGenesis oneBuilderStart
      [⟨oneBuilderGenesis.toPackCore, db, when⟩] b.pack b.db := by
  obtain ⟨db₁, hdb, h⟩ := bind_eq_ok.1 h
  obtain ⟨pack, hstart, h⟩ := bind_eq_ok.1 h
  obtain ⟨g, hg, hdb⟩ := bind_eq_ok.1 hdb
  cases hdb
  split at h
  · rename_i hbody
    cases h
    exact .next (.genesis rfl hg) hstamp (.built hstart hbody)
  · cases h

/-- Two slots were missed, and both are charged. -/
theorem total_missed_iff_short :
    ∃ gaps p db row, AppliedWith headerConfig oneBuilderGenesis oneBuilderStart gaps p db ∧
      db.builderObjects.find? xmaxContractName = some row ∧
      missedSlots gaps xmaxContractName = 2 ∧ row.totalMissed = 2 := by
  obtain ⟨⟨g, b⟩, hb, hlength, hcharges, hmissed, hrow⟩ := exists_ok_of_eval
    (x := builtOnGenesis 103)
    (P := fun r =>
      let gap : Gap := ⟨oneBuilderGenesis.toPackCore, r.1, 103⟩
      gap.length < blocksPerRound ∧ (r.1.builderObjects.find? xmaxContractName).isSome ∧
        missedSlots [gap] xmaxContractName = 2 ∧
        (r.2.db.builderObjects.find? xmaxContractName).isSome) (by decide +kernel)
  obtain ⟨row, hrow⟩ := Option.isSome_iff_exists.1 hrow
  have happlied := builtOnGenesis_applied (by norm_num) hb
  have htotal := (total_missed_iff headerCrypto_id_injective happlied hrow).2
    (List.forall_mem_singleton.2 (Gap.charges_of_short hlength hcharges))
  exact ⟨_, _, _, row, happlied, hrow, hmissed, htotal.trans hmissed⟩

/-- Of a gap of a whole round nothing is charged. -/
theorem whole_round_forgotten :
    ∃ gaps p db row, AppliedWith headerConfig oneBuilderGenesis oneBuilderStart gaps p db ∧
      db.builderObjects.find? xmaxContractName = some row ∧
      missedSlots gaps xmaxContractName = 21 ∧ row.totalMissed = 0 := by
  obtain ⟨⟨g, b⟩, hb, hmissed, htotal⟩ := exists_ok_of_eval (x := builtOnGenesis 122)
    (P := fun r => missedSlots [⟨oneBuilderGenesis.toPackCore, r.1, 122⟩] xmaxContractName = 21 ∧
      totalMissedOf r.2.db xmaxContractName = some 0) (by decide +kernel)
  obtain ⟨row, hrow, hzero⟩ := Option.map_eq_some_iff.1 htotal
  exact ⟨_, _, _, row, builtOnGenesis_applied (by norm_num) hb, hrow, hmissed, hzero⟩

end XmaxChain
