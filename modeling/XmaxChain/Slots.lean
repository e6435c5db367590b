import XmaxChain.Schedule

/-!
# Slots

Slots are counted in stamps of 32 bits, and a slot is known by its place from the start of the
round. The slots of the next round are given out from the list that is next, by their places from
the start of this round; once there is a block in that round, from the same list by their places
in the round itself. The two places are a whole round apart.
-/

namespace XmaxChain

variable {cfg : ChainConfig} {p q r : BlockPack} {t t₁ t₂ : ℕ} {m : Bool}

section Stamps

variable {b d w : ℕ}

theorem getDeltaSlotAtTime_lt : getDeltaSlotAtTime b w < 2 ^ 32 := by
  unfold getDeltaSlotAtTime
  dsimp only
  split_ifs
  · norm_num
  · exact u32_lt _

/-- A later stamp is as many slots later. -/
theorem getDeltaSlotAtTime_of_lt (h : b < w) (hw : w < 2 ^ 32) :
    getDeltaSlotAtTime b w = w - b := by
  have hfirst : getDeltaSlotTime b 1 = b + 1 := u32_of_lt (by omega)
  simp only [getDeltaSlotAtTime, hfirst]
  rw [if_neg (by omega), u32_of_lt (by omega)]
  omega

/-- The slot of a slot's time is that slot. -/
theorem getDeltaSlotAtTime_getDeltaSlotTime (hd : 1 ≤ d) (hw : b + d < 2 ^ 32) :
    getDeltaSlotAtTime b (getDeltaSlotTime b d) = d := by
  have htime : getDeltaSlotTime b d = b + d := u32_of_lt hw
  rw [htime, getDeltaSlotAtTime_of_lt (by omega) hw]
  omega

/-- A slot that is not the first block's own is counted from the stamp after it. -/
theorem add_one_eq_of_getDeltaSlotAtTime (hw : w < 2 ^ 32) (hd : getDeltaSlotAtTime b w ≠ 0) :
    w + 1 = getDeltaSlotTime b 1 + getDeltaSlotAtTime b w := by
  have hfirst : getDeltaSlotTime b 1 < 2 ^ 32 := u32_lt _
  unfold getDeltaSlotAtTime at hd ⊢
  dsimp only at hd ⊢
  split_ifs at hd ⊢ with hlt
  · exact absurd rfl hd
  · unfold u32 at hd ⊢
    omega

end Stamps

/-- The slot of a time, by its place from the start of the pack's round. -/
def PackCore.slotAt (p : PackCore) (when : ℕ) : ℕ :=
  u32 (p.roundSlot + getDeltaSlotAtTime p.newHeader.timestamp when)

/-- The slot of the time is in the round after the pack's. -/
def PackCore.InNextRound (p : PackCore) (when : ℕ) : Prop :=
  blocksPerRound ≤ p.slotAt when ∧ p.slotAt when < 2 * blocksPerRound

instance (p : PackCore) (when : ℕ) : Decidable (p.InNextRound when) := by
  unfold PackCore.InNextRound
  infer_instance

/-- The packs that blocks of a time make of a parent: built here or applied, or received for a
fork. -/
inductive NextPack (cfg : ChainConfig) (p : BlockPack) (when : ℕ) : BlockPack → Prop
  | built {db : ChainDb} {pack : BlockPack} {trxs : List SignedTransaction}
      {finish : BlockPack → Except Fault BlockPack} {b : Building}
      (start : startPack cfg p db when = .ok pack) (seals : Seals cfg.crypto finish)
      (body : blockBody cfg p trxs finish ⟨pack, db⟩ = .ok () b) : NextPack cfg p when b.pack
  | received {q : BlockPack} {block : SignedBlock} (init : p.initByPrePack when false = .ok q)
      (previous : block.previous = p.blockId) (time : block.timestamp = when) :
      NextPack cfg p when (q.generateByBlock cfg.crypto block)

/-- The places `i` and `j` of a list are two and hold the same builder. -/
def BuilderRule.RepeatsAt (rule : BuilderRule) (i j : ℕ) : Prop :=
  i ≠ j ∧ rule.builders[i]? = rule.builders[j]?

section Rounds

/-- What of a pack is decided by its time. -/
structure OfSlot (p : PackCore) (when : ℕ) (q : PackCore) : Prop where
  owner : selectBuilder p.currentBuilders p.newBuilders (p.slotAt when) = some q.bldInfo
  timestamp : q.newHeader.timestamp = when
  newRound : q.newRound = decide (blocksPerRound ≤ p.slotAt when)
  roundSlot : q.roundSlot = p.slotAt when % blocksPerRound
  currentBuilders : q.currentBuilders =
    if q.newRound ∧ p.newBuilders.isEmpty = false then p.newBuilders else p.currentBuilders
  newBuilders : q.newBuilders =
    if q.newRound ∧ p.newBuilders.isEmpty = false then {} else p.newBuilders

theorem initByPrePack_slot (h : p.initByPrePack t m = .ok q) :
    OfSlot p.toPackCore t q.toPackCore := by
  unfold BlockPack.initByPrePack at h
  dsimp only at h
  split at h
  · cases h
  · rename_i current hsel
    cases h
    refine ⟨hsel, rfl, rfl, ?_, ?_, ?_⟩
    · show (if _ then _ else _) = _
      split_ifs with hround
      · rfl
      · exact (Nat.mod_eq_of_lt (by simpa using hround)).symm
    · exact if_congr (by simp) rfl rfl
    · exact if_congr (by simp) rfl rfl

theorem exists_initByPrePack {info : BuilderInfo}
    (h : selectBuilder p.currentBuilders p.newBuilders (p.slotAt t) = some info) (m : Bool) :
    ∃ q, p.initByPrePack t m = .ok q := by
  unfold PackCore.slotAt at h
  unfold BlockPack.initByPrePack
  dsimp only
  rw [h]
  exact ⟨_, rfl⟩

/-- Sealing a pack keeps what its time decides. -/
theorem NextPack.exists_init (h : NextPack cfg p t r) :
    ∃ q m, p.initByPrePack t m = .ok q ∧ r.roundSlot = q.roundSlot ∧
      r.currentBuilders = q.currentBuilders ∧ r.newHeader.timestamp = t := by
  rcases h with ⟨start, seals, body⟩ | ⟨init, _, time⟩
  · obtain ⟨q, hq, hcases⟩ := startPack_cases start
    have htime := (initByPrePack_slot hq).timestamp
    obtain ⟨p', sealed, db', -, hsealed, -, rfl⟩ := blockBody_eq_ok.1 body
    obtain ⟨sig, rfl⟩ := seals hsealed
    rcases hcases with ⟨-, rfl⟩ | ⟨-, -, rule, -, rfl⟩
    · exact ⟨_, true, hq, rfl, rfl, htime⟩
    · exact ⟨_, true, hq, rfl, rfl, htime⟩
  · exact ⟨_, false, init, rfl, rfl, time⟩

/-- A finished pack names its parent and is known by its header's id. -/
theorem NextPack.header (h : NextPack cfg p t r) :
    r.newHeader.previous = p.blockId ∧ r.newHeader.id cfg.crypto = r.blockId := by
  rcases h with ⟨start, seals, body⟩ | ⟨init, previous, _⟩
  · obtain ⟨q, hq, hcases⟩ := startPack_cases start
    obtain ⟨_, -, hhead, -⟩ := initByPrePack_eq_ok hq
    have hprevious : q.newHeader.previous = p.blockId := by rw [hhead]
    obtain ⟨p', sealed, db', -, hsealed, -, rfl⟩ := blockBody_eq_ok.1 body
    obtain ⟨sig, rfl⟩ := seals hsealed
    rcases hcases with ⟨-, rfl⟩ | ⟨-, -, rule, -, rfl⟩
    · exact ⟨hprevious, rfl⟩
    · exact ⟨hprevious, rfl⟩
  · exact ⟨previous, rfl⟩

/-- From a block of the next round on, a later slot of that round is as many slots later. -/
theorem slotAt_next (hp : p.roundSlot < blocksPerRound) (hr : NextPack cfg p t₁ r) (ht : t₁ < t₂)
    (hstamp : t₂ < 2 ^ 32) (h₁ : p.InNextRound t₁) (h₂ : p.InNextRound t₂) :
    r.slotAt t₂ = p.slotAt t₂ - blocksPerRound := by
  have hround : blocksPerRound = 21 := rfl
  have hplace : ∀ w, w < 2 ^ 32 → p.InNextRound w →
      p.slotAt w + getDeltaSlotTime p.newHeader.timestamp 1 = p.roundSlot + w + 1 := by
    intro w hw hin
    have hlt := getDeltaSlotAtTime_lt (b := p.newHeader.timestamp) (w := w)
    have hslot : p.slotAt w = u32 (p.roundSlot + getDeltaSlotAtTime p.newHeader.timestamp w) := rfl
    have hpos : getDeltaSlotAtTime p.newHeader.timestamp w ≠ 0 := by
      intro hzero
      rw [hzero, u32_of_lt (by omega)] at hslot
      have := hin.1
      omega
    have := add_one_eq_of_getDeltaSlotAtTime hw hpos
    have := hin.1
    unfold u32 at hslot
    omega
  obtain ⟨q, m, hq, hslot, -, htime⟩ := hr.exists_init
  have hplace₁ := (initByPrePack_slot hq).roundSlot
  have hstart := hplace t₁ (by omega) h₁
  have hend := hplace t₂ hstamp h₂
  obtain ⟨hlow₁, hhigh₁⟩ := h₁
  obtain ⟨hlow₂, hhigh₂⟩ := h₂
  have hmod : p.slotAt t₁ % blocksPerRound = p.slotAt t₁ - blocksPerRound := by
    rw [hround]
    omega
  show u32 (r.roundSlot + getDeltaSlotAtTime r.newHeader.timestamp t₂) = _
  rw [htime, getDeltaSlotAtTime_of_lt ht hstamp, hslot, hplace₁, hmod, u32_of_lt] <;> omega

end Rounds

section Owner

variable {next : BuilderRule} {i : ℕ}

theorem selectBuilder_next (current : BuilderRule) (hnext : next.isEmpty = false)
    (hi : blocksPerRound ≤ i) : selectBuilder current next i = next.builders[i % next.number]? := by
  unfold selectBuilder
  dsimp only
  rw [if_neg (by rw [hnext]; simpa using hi), blocksPerBuilder, Nat.div_one]

theorem selectBuilder_current (current next : BuilderRule) (hi : i < blocksPerRound) :
    selectBuilder current next i = current.builders[i % current.number]? := by
  unfold selectBuilder
  dsimp only
  rw [if_pos (.inl hi), blocksPerBuilder, Nat.div_one]

/-- Two places of a slot that are a round apart are one in the lists whose lengths divide it. -/
theorem mod_sub_round_iff {n : ℕ} (hi : blocksPerRound ≤ i) :
    i % n = (i - blocksPerRound) % n ↔ n ∣ blocksPerRound := by
  have := Nat.modEq_iff_dvd' (n := n) (Nat.sub_le i blocksPerRound)
  rw [Nat.sub_sub_self hi] at this
  rw [← this]
  exact eq_comm

/-- Who has a slot of the next round is the same on the pack and on a block of that round built on
it, exactly if the length of the next list divides the round or the list has the same builder at
the slot's two places. -/
theorem slot_owner_iff (hp : p.roundSlot < blocksPerRound) (hnext : p.newBuilders.isEmpty = false)
    (ht : t₁ < t₂) (hstamp : t₂ < 2 ^ 32) (h₁ : p.InNextRound t₁) (h₂ : p.InNextRound t₂)
    (hr : NextPack cfg p t₁ r) (m m' : Bool) :
    ∃ q q', p.initByPrePack t₂ m = .ok q ∧ r.initByPrePack t₂ m' = .ok q' ∧
      (q.bldInfo = q'.bldInfo ↔ p.newBuilders.number ∣ blocksPerRound ∨
        p.newBuilders.RepeatsAt (p.slotAt t₂ % p.newBuilders.number)
          ((p.slotAt t₂ - blocksPerRound) % p.newBuilders.number)) ∧
      (p.newBuilders.builders.Nodup →
        (q.bldInfo = q'.bldInfo ↔ p.newBuilders.number ∣ blocksPerRound)) := by
  have hpos : 0 < p.newBuilders.number := by
    rw [BuilderRule.isEmpty, List.isEmpty_eq_false_iff] at hnext
    exact List.length_pos_iff.2 hnext
  have hslot := slotAt_next hp hr ht hstamp h₁ h₂
  have hlow : blocksPerRound ≤ p.slotAt t₂ := h₂.1
  have hcurrent : r.currentBuilders = p.newBuilders := by
    obtain ⟨q, m, hq, -, hcur, -⟩ := hr.exists_init
    have hof := initByPrePack_slot hq
    have hround : q.newRound = true := hof.newRound.trans (decide_eq_true h₁.1)
    rw [hcur, hof.currentBuilders, if_pos ⟨hround, hnext⟩]
  set i := p.slotAt t₂ % p.newBuilders.number with hi
  set j := (p.slotAt t₂ - blocksPerRound) % p.newBuilders.number with hj
  have hi_lt : i < p.newBuilders.builders.length := Nat.mod_lt _ hpos
  have hj_lt : j < p.newBuilders.builders.length := Nat.mod_lt _ hpos
  have hdirect : selectBuilder p.currentBuilders p.newBuilders (p.slotAt t₂)
      = p.newBuilders.builders[i]? := selectBuilder_next _ hnext hlow
  have hvia : selectBuilder r.currentBuilders r.newBuilders (r.slotAt t₂)
      = p.newBuilders.builders[j]? := by
    have hlt : r.slotAt t₂ < blocksPerRound := by
      have := h₂.2
      omega
    rw [selectBuilder_current _ _ hlt, hcurrent, hslot]
  obtain ⟨q, hq⟩ := exists_initByPrePack (hdirect.trans (List.getElem?_eq_getElem hi_lt)) m
  obtain ⟨q', hq'⟩ := exists_initByPrePack (hvia.trans (List.getElem?_eq_getElem hj_lt)) m'
  have howner : q.bldInfo = q'.bldInfo ↔
      p.newBuilders.builders[i]? = p.newBuilders.builders[j]? := by
    rw [← hdirect, ← hvia, (initByPrePack_slot hq).owner, (initByPrePack_slot hq').owner,
      Option.some_inj]
  have hplaces : i = j ↔ p.newBuilders.number ∣ blocksPerRound := mod_sub_round_iff hlow
  refine ⟨q, q', hq, hq', ?_, fun hnodup => ?_⟩
  · rw [howner, ← hplaces, BuilderRule.RepeatsAt]
    constructor
    · intro h
      exact (em (i = j)).imp_right fun hne => ⟨hne, h⟩
    · rintro (h | ⟨-, h⟩)
      · rw [h]
      · exact h
  · rw [howner, ← hplaces]
    constructor
    · intro h
      exact hnodup.getElem_inj_iff.1 (Option.some.inj (by
        rw [← List.getElem?_eq_getElem hi_lt, ← List.getElem?_eq_getElem hj_lt, h]))
    · intro h
      rw [h]

end Owner

/-- Three builders, a divisor of the round. -/
def tripleBuilders : List BuilderInfo := [⟨1, 11⟩, ⟨2, 12⟩, ⟨3, 13⟩]

def tripleGenesis : BlockPack := BlockPack.genesis stampCrypto 100 7 7 [] tripleBuilders

/-- A block of builder 2 in the first slot of the round after genesis, which is its own where two
builders are next. -/
def openingBlock (p : BlockPack) : SignedBlock :=
  { previous := p.blockId, timestamp := 121, builder := 2, builderSignature := 12 }

theorem slot_owner_iff_three :
    ∃ q r q' : BlockPack, NextPack stampConfig tripleGenesis 121 r ∧
      tripleGenesis.initByPrePack 122 true = .ok q ∧ r.initByPrePack 122 true = .ok q' ∧
      q.bldInfo = q'.bldInfo := by
  obtain ⟨r, hr, -⟩ := exists_ok_of_eval (x := tripleGenesis.initByPrePack 121 false)
    (P := fun _ => True) (by decide)
  have hnext : NextPack stampConfig tripleGenesis 121
      (r.generateByBlock stampCrypto (openingBlock tripleGenesis)) := .received hr rfl rfl
  obtain ⟨q, q', hq, hq', -, howner⟩ := slot_owner_iff (by decide) rfl
    (show 121 < 122 by norm_num) (by norm_num) (by decide) (by decide) hnext
    true true
  exact ⟨q, _, q', hnext, hq, hq', (howner (by decide)).2 (by decide)⟩

/-- The builders whose slot 122 is on genesis and on a block of slot 121. -/
def ownersOnGenesis : Except Fault (BuilderInfo × BuilderInfo) := do
  let q ← twoBuilderGenesis.initByPrePack 122 true
  let r ← twoBuilderGenesis.initByPrePack 121 false
  let q' ← (r.generateByBlock stampCrypto (openingBlock twoBuilderGenesis)).initByPrePack 122 true
  return (q.bldInfo, q'.bldInfo)

/-- With two builders the owner of a slot depends on whether the slot before it was filled. -/
theorem slot_owner_moves :
    ∃ q r q' : BlockPack, NextPack stampConfig twoBuilderGenesis 121 r ∧
      r.newHeader.builder = 2 ∧ twoBuilderGenesis.newBuilders.isEmpty = false ∧
      twoBuilderGenesis.InNextRound 121 ∧ twoBuilderGenesis.InNextRound 122 ∧
      twoBuilderGenesis.initByPrePack 122 true = .ok q ∧ r.initByPrePack 122 true = .ok q' ∧
      q.bldInfo ≠ q'.bldInfo := by
  obtain ⟨owners, howners, hne⟩ := exists_ok_of_eval (x := ownersOnGenesis)
    (P := fun owners => owners.1 ≠ owners.2) (by decide)
  obtain ⟨q, hq, howners⟩ := bind_eq_ok.1 howners
  obtain ⟨r, hr, howners⟩ := bind_eq_ok.1 howners
  obtain ⟨q', hq', howners⟩ := bind_eq_ok.1 howners
  cases howners
  have hnext : NextPack stampConfig twoBuilderGenesis 121
      (r.generateByBlock stampCrypto (openingBlock twoBuilderGenesis)) := .received hr rfl rfl
  exact ⟨q, _, q', hnext, rfl, rfl, by decide, by decide, hq, hq', hne⟩

end XmaxChain
