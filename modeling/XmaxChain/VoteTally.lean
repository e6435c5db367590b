import Mathlib.Data.List.TakeWhile
import XmaxChain.Contract

/-!
# The tally of the votes

The votes of a builder are those of the voters that list it, each with its stake and, as a proxy,
with the stakes it stands for. The code never counts: each call moves what it changes from the
builders it counted for to those it counts for. That what is kept is what counting gives is an
invariant of all rows together.
-/

namespace XmaxChain

abbrev Voters := Table AccountName VoterInfo

/-- What a voter's row counts for a builder. -/
def VoterInfo.votesFor (v : VoterInfo) (b : AccountName) : ℕ :=
  if v.proxy = 0 ∧ b ∈ v.builders then
    v.staked + (if v.isProxy ≠ 0 then v.proxiedVotes else 0)
  else 0

/-- What a voter's row counts for a proxy. -/
def VoterInfo.delegates (v : VoterInfo) (p : AccountName) : ℕ :=
  if v.proxy ≠ 0 ∧ v.proxy = p then v.staked else 0

def votesFor (V : Voters) (b : AccountName) : ℕ := V.sumRows fun _ v => v.votesFor b

def delegated (V : Voters) (p : AccountName) : ℕ := V.sumRows fun _ v => v.delegates p

def stakeTotal (V : Voters) : ℕ := V.sumRows fun _ v => v.staked

/-- The stakes fit `share_type`, a proxy stands for what is delegated to it, and nobody who stands
for others has a proxy. -/
structure VotersOk (V : Voters) : Prop where
  fits : stakeTotal V < 2 ^ 127
  proxied : ∀ {a v}, V.find? a = some v → v.proxiedVotes = delegated V a
  proxyRow : ∀ {a v}, V.find? a = some v → v.proxy ≠ 0 → ∃ w, V.find? v.proxy = some w
  plain : ∀ {a v}, V.find? a = some v → v.isProxy ≠ 0 → v.proxy = 0
  noSelf : ∀ {a v}, V.find? a = some v → v.proxy ≠ 0 → v.proxy ≠ a
  sorted : ∀ {a v}, V.find? a = some v → v.builders.Pairwise (· < ·)

/-- The votes kept of each builder are those that counting gives, and every builder listed has a
row. -/
structure TallyOk (l : Ledger) : Prop extends VotersOk l.voters where
  total : ∀ {b i}, l.builders.find? b = some i → i.totalVotes = votesFor l.voters b
  listed : ∀ {a v}, l.voters.find? a = some v → ∀ b ∈ v.builders, (l.builders.find? b).isSome

section Counting

variable {V : Voters} {a k p b : AccountName} {v : VoterInfo}

theorem delegated_le (V : Voters) (p : AccountName) : delegated V p ≤ stakeTotal V := by
  refine Table.sumRows_le fun a v _ => ?_
  unfold VoterInfo.delegates
  split_ifs
  · exact le_rfl
  · exact Nat.zero_le _

/-- A stake is part of what its proxy stands for. -/
theorem staked_le_delegated (ha : V.find? a = some v) (hp : v.proxy ≠ 0) :
    v.staked ≤ delegated V v.proxy := by
  have hle : v.delegates v.proxy ≤ delegated V v.proxy :=
    Table.le_sumRows (fun _ (u : VoterInfo) => u.delegates v.proxy) ha
  rwa [VoterInfo.delegates, if_pos ⟨hp, rfl⟩] at hle

theorem VotersOk.proxied_lt (h : VotersOk V) (ha : V.find? a = some v) : v.proxiedVotes < 2 ^ 127 := by
  rw [h.proxied ha]
  exact (delegated_le V a).trans_lt h.fits

theorem VotersOk.staked_lt (h : VotersOk V) (ha : V.find? a = some v) : v.staked < 2 ^ 127 :=
  (Table.le_sumRows (fun _ v => v.staked) ha).trans_lt h.fits

/-- Every stake counts at most once as its voter's own and once as its proxy's. -/
theorem VotersOk.votesFor_lt (h : VotersOk V) (b : AccountName) : votesFor V b < 2 ^ 128 := by
  have hproxied : (V.sumRows fun _ v => v.proxiedVotes) ≤ stakeTotal V := by
    calc (V.sumRows fun _ v => v.proxiedVotes)
        = V.sumRows fun p _ => V.sumRows fun _ v => v.delegates p :=
          Table.sumRows_congr fun p v hp => h.proxied hp
      _ = V.sumRows fun _ v => V.sumRows fun p _ => v.delegates p := Table.sumRows_comm ..
      _ ≤ stakeTotal V := by
        refine Table.sumRows_le fun a v _ => ?_
        refine le_trans (Table.sumRows_le fun p _ _ => ?_) (V.sumRows_key_le v.proxy v.staked)
        unfold VoterInfo.delegates
        by_cases hp : p = v.proxy
        · rw [if_pos hp]
          split_ifs
          · exact le_rfl
          · exact Nat.zero_le _
        · rw [if_neg fun hd => hp hd.2.symm]
          exact Nat.zero_le _
  have hle : votesFor V b ≤ stakeTotal V + V.sumRows fun _ v => v.proxiedVotes := by
    rw [stakeTotal, ← Table.sumRows_add]
    refine Table.sumRows_le fun a v _ => ?_
    unfold VoterInfo.votesFor
    split_ifs <;> omega
  have hfits := h.fits
  omega

theorem VotersOk.delegated_eq_zero (h : VotersOk V) (ha : V.find? a = none) : delegated V a = 0 := by
  refine (Table.sumRows_congr (g := fun _ _ => 0) fun k v hk => ?_).trans ?_
  · unfold VoterInfo.delegates
    refine if_neg fun ⟨hne, heq⟩ => ?_
    obtain ⟨w, hw⟩ := h.proxyRow hk hne
    rw [heq, ha] at hw
    cases hw
  · simp [Table.sumRows]

theorem votesFor_modify (g : VoterInfo → VoterInfo) (h : V.find? k = some v) (b : AccountName) :
    votesFor (V.modify k g) b + v.votesFor b = votesFor V b + (g v).votesFor b :=
  Table.sumRows_modify g (fun _ v => v.votesFor b) h

theorem delegated_modify (g : VoterInfo → VoterInfo) (h : V.find? k = some v) (p : AccountName) :
    delegated (V.modify k g) p + v.delegates p = delegated V p + (g v).delegates p :=
  Table.sumRows_modify g (fun _ v => v.delegates p) h

theorem stakeTotal_modify (g : VoterInfo → VoterInfo) (h : V.find? k = some v) :
    stakeTotal (V.modify k g) + v.staked = stakeTotal V + (g v).staked :=
  Table.sumRows_modify g (fun _ v => v.staked) h

/-- A change of what a proxy stands for is no change of a stake. -/
theorem modify_proxied (V : Voters) (q : AccountName) (f : ℕ → ℕ) :
    (∀ p, delegated (V.modify q fun w => { w with proxiedVotes := f w.proxiedVotes }) p
      = delegated V p) ∧
    stakeTotal (V.modify q fun w => { w with proxiedVotes := f w.proxiedVotes }) = stakeTotal V := by
  refine ⟨fun p => ?_, ?_⟩
  · unfold delegated
    rw [Table.modify, Table.sumRows_mapRows]
    refine Table.sumRows_congr fun k v _ => ?_
    split_ifs <;> rfl
  · unfold stakeTotal
    rw [Table.modify, Table.sumRows_mapRows]
    refine Table.sumRows_congr fun k v _ => ?_
    split_ifs <;> rfl

/-- What a proxy stands for counts for its builders, as long as it is one. -/
theorem votesFor_modify_proxied {f : ℕ → ℕ} {x y : ℕ} (h : V.find? k = some v)
    (hplain : v.isProxy ≠ 0 → v.proxy = 0) (hf : f v.proxiedVotes + x = v.proxiedVotes + y)
    (b : AccountName) :
    votesFor (V.modify k fun w => { w with proxiedVotes := f w.proxiedVotes }) b
        + (if v.isProxy ≠ 0 ∧ b ∈ v.builders then x else 0)
      = votesFor V b + (if v.isProxy ≠ 0 ∧ b ∈ v.builders then y else 0) := by
  have hb := votesFor_modify (fun w => { w with proxiedVotes := f w.proxiedVotes }) h b
  simp only [VoterInfo.votesFor] at hb
  by_cases hproxy : v.isProxy = 0
  · simp only [hproxy, ne_eq, not_true_eq_false, if_false, false_and] at hb ⊢
    omega
  · have hzero := hplain hproxy
    simp only [hproxy, hzero, ne_eq, not_false_eq_true, if_true, true_and] at hb ⊢
    split_ifs at hb ⊢ <;> omega

end Counting

section Restake

variable {V : Voters} {a : AccountName} {v : VoterInfo} {σ f : ℕ → ℕ} {t : ℕ}

/-- The voters after a stake has changed: the voter's own row, and its proxy's. -/
def restaked (V : Voters) (a : AccountName) (v : VoterInfo) (σ f : ℕ → ℕ) (t : ℕ) : Voters :=
  let V₁ := V.modify a fun v => { v with staked := σ v.staked, lastUpdate := t }
  if v.proxy ≠ 0 then
    V₁.modify v.proxy fun w => { w with proxiedVotes := f w.proxiedVotes }
  else V₁

/-- The builders a voter's stake counts for. -/
def countedFor (V : Voters) (v : VoterInfo) : List AccountName :=
  if v.proxy ≠ 0 then
    match V.find? v.proxy with
    | some w => if w.isProxy ≠ 0 then w.builders else []
    | none => []
  else v.builders

theorem restaked_stakeTotal (ha : V.find? a = some v) :
    stakeTotal (restaked V a v σ f t) + v.staked = stakeTotal V + σ v.staked := by
  have htot := stakeTotal_modify (fun v => { v with staked := σ v.staked, lastUpdate := t }) ha
  unfold restaked
  by_cases hp : v.proxy ≠ 0
  · rw [if_pos hp, (modify_proxied _ _ f).2]
    exact htot
  · rw [if_neg hp]
    exact htot

/-- The change of a stake, seen by the builders and the proxies. -/
theorem VotersOk.restaked_counts (h : VotersOk V) (ha : V.find? a = some v)
    (hf : ∀ w, v.proxy ≠ 0 → V.find? v.proxy = some w →
      f w.proxiedVotes + v.staked = w.proxiedVotes + σ v.staked) :
    (∀ b, votesFor (restaked V a v σ f t) b + (if b ∈ countedFor V v then v.staked else 0)
        = votesFor V b + (if b ∈ countedFor V v then σ v.staked else 0)) ∧
      ∀ p, delegated (restaked V a v σ f t) p + (if v.proxy ≠ 0 ∧ v.proxy = p then v.staked else 0)
        = delegated V p + (if v.proxy ≠ 0 ∧ v.proxy = p then σ v.staked else 0) := by
  have hvotes := votesFor_modify (fun v => { v with staked := σ v.staked, lastUpdate := t }) ha
  have hdel := delegated_modify (fun v => { v with staked := σ v.staked, lastUpdate := t }) ha
  set V₁ := V.modify a fun v => { v with staked := σ v.staked, lastUpdate := t } with hV₁
  by_cases hp : v.proxy = 0
  · have heq : restaked V a v σ f t = V₁ := by simp [restaked, hp, hV₁]
    rw [heq]
    refine ⟨fun b => ?_, fun p => ?_⟩
    · have := hvotes b
      simp only [VoterInfo.votesFor, countedFor, hp, ne_eq, not_true_eq_false, if_false,
        true_and] at this ⊢
      split_ifs at this ⊢ <;> omega
    · have := hdel p
      simpa only [VoterInfo.delegates] using this
  · obtain ⟨w, hw⟩ := h.proxyRow ha hp
    have hne : v.proxy ≠ a := h.noSelf ha hp
    have heq : restaked V a v σ f t
        = V₁.modify v.proxy fun w => { w with proxiedVotes := f w.proxiedVotes } := by
      simp [restaked, hp, hV₁]
    have hw₁ : V₁.find? v.proxy = some w := by
      rw [hV₁, Table.find?_modify_ne _ _ hne, hw]
    rw [heq]
    refine ⟨fun b => ?_, fun p => ?_⟩
    · have h₁ := hvotes b
      have h₂ := votesFor_modify_proxied hw₁ (h.plain hw) (hf w hp hw) b
      -- the voter's own row counts for nobody
      simp only [VoterInfo.votesFor, hp, false_and, if_false] at h₁
      simp only [countedFor, hp, ne_eq, not_false_eq_true, if_true, hw]
      by_cases hproxy : w.isProxy = 0
      · simp only [hproxy, ne_eq, not_true_eq_false, if_false, List.not_mem_nil, false_and] at h₂ ⊢
        omega
      · simp only [hproxy, ne_eq, not_false_eq_true, if_true, true_and] at h₂ ⊢
        omega
    · rw [(modify_proxied V₁ v.proxy f).1]
      have := hdel p
      simpa only [VoterInfo.delegates] using this

/-- The rows after a stake has changed. -/
theorem VotersOk.restaked_rows (h : VotersOk V) (ha : V.find? a = some v) (k : AccountName) :
    (restaked V a v σ f t).find? k = (V.find? k).map fun w =>
      if k = a then { w with staked := σ w.staked, lastUpdate := t }
      else if v.proxy ≠ 0 ∧ k = v.proxy then { w with proxiedVotes := f w.proxiedVotes } else w := by
  unfold restaked
  by_cases hp : v.proxy = 0
  · simp [hp]
  · have hne : v.proxy ≠ a := h.noSelf ha hp
    simp only [ne_eq, hp, not_false_eq_true, if_true, Table.find?_modify, Option.map_map, true_and]
    congr 1
    funext w
    by_cases hk : k = a
    · simp [hk, Ne.symm hne]
    · simp [hk]

/-- A stake may change by an amount that its proxy takes over. -/
theorem VotersOk.restake (h : VotersOk V) (ha : V.find? a = some v)
    (hf : ∀ w, v.proxy ≠ 0 → V.find? v.proxy = some w →
      f w.proxiedVotes + v.staked = w.proxiedVotes + σ v.staked)
    (hfits : stakeTotal (restaked V a v σ f t) < 2 ^ 127) : VotersOk (restaked V a v σ f t) := by
  obtain ⟨-, hdel⟩ := h.restaked_counts ha hf (t := t)
  -- what a row is made of
  have hrow : ∀ {k w'}, (restaked V a v σ f t).find? k = some w' → ∃ w, V.find? k = some w ∧
      w'.proxy = w.proxy ∧ w'.isProxy = w.isProxy ∧ w'.builders = w.builders ∧
      w'.proxiedVotes = if v.proxy ≠ 0 ∧ k = v.proxy then f w.proxiedVotes else w.proxiedVotes := by
    intro k w' hk
    rw [h.restaked_rows ha, Option.map_eq_some_iff] at hk
    obtain ⟨w, hw, rfl⟩ := hk
    refine ⟨w, hw, ?_⟩
    by_cases hka : k = a
    · subst hka
      have hself : ¬ (v.proxy ≠ 0 ∧ k = v.proxy) := fun hs => h.noSelf ha hs.1 hs.2.symm
      simp only [if_true, if_neg hself, and_self]
    · simp only [if_neg hka]
      split_ifs <;> simp
  refine ⟨hfits, fun {k w'} hk => ?_, fun {k w'} hk hp => ?_, fun {k w'} hk hp => ?_,
    fun {k w'} hk hp => ?_, fun {k w'} hk => ?_⟩
  · obtain ⟨w, hw, -, -, -, hproxied⟩ := hrow hk
    have hdk := hdel k
    have hok := h.proxied hw
    by_cases hkp : v.proxy ≠ 0 ∧ k = v.proxy
    · rw [if_pos hkp] at hproxied
      rw [if_pos ⟨hkp.1, hkp.2.symm⟩, if_pos ⟨hkp.1, hkp.2.symm⟩] at hdk
      have := hf w hkp.1 (hkp.2 ▸ hw)
      omega
    · rw [if_neg hkp] at hproxied
      have hkp' : ¬ (v.proxy ≠ 0 ∧ v.proxy = k) := fun hs => hkp ⟨hs.1, hs.2.symm⟩
      rw [if_neg hkp', if_neg hkp'] at hdk
      omega
  · obtain ⟨w, hw, hproxy, -⟩ := hrow hk
    rw [hproxy] at hp ⊢
    obtain ⟨u, hu⟩ := h.proxyRow hw hp
    rw [h.restaked_rows ha, hu]
    exact ⟨_, rfl⟩
  · obtain ⟨w, hw, hproxy, his, -⟩ := hrow hk
    rw [hproxy]
    exact h.plain hw (his ▸ hp)
  · obtain ⟨w, hw, hproxy, -⟩ := hrow hk
    rw [hproxy] at hp ⊢
    exact h.noSelf hw hp
  · obtain ⟨w, hw, -, -, hbuilders, -⟩ := hrow hk
    rw [hbuilders]
    exact h.sorted hw

end Restake

section Create

variable {V V' : Voters} {a : AccountName} {v : VoterInfo}

/-- A new row counts for nobody, and nobody has delegated to it before. -/
theorem VotersOk.create (h : VotersOk V) (hc : V.create? a v = some V')
    (hrow : v.proxy = 0 ∧ v.proxiedVotes = 0 ∧ v.builders = []) (hfits : stakeTotal V' < 2 ^ 127) :
    VotersOk V' ∧ ∀ b, votesFor V' b = votesFor V b := by
  obtain ⟨hproxy, hproxied, hbuilders⟩ := hrow
  obtain ⟨hnone, hfind⟩ := Table.create?_eq_some hc
  have hdel : ∀ p, delegated V' p = delegated V p := fun p => by
    have hsum : delegated V' p = delegated V p + v.delegates p :=
      Table.sumRows_create (fun _ (v : VoterInfo) => v.delegates p) hc
    simpa [VoterInfo.delegates, hproxy] using hsum
  have hrow : ∀ {k w}, V'.find? k = some w → k = a ∧ w = v ∨ k ≠ a ∧ V.find? k = some w := by
    intro k w hk
    rw [hfind] at hk
    split_ifs at hk with hka
    · exact .inl ⟨hka, (Option.some.inj hk).symm⟩
    · exact .inr ⟨hka, hk⟩
  refine ⟨⟨hfits, fun {k w} hk => ?_, fun {k w} hk hp => ?_, fun {k w} hk hp => ?_,
    fun {k w} hk hp => ?_, fun {k w} hk => ?_⟩, fun b => ?_⟩
  · rw [hdel]
    rcases hrow hk with ⟨rfl, rfl⟩ | ⟨-, hk⟩
    · rw [hproxied, h.delegated_eq_zero hnone]
    · exact h.proxied hk
  · rcases hrow hk with ⟨rfl, rfl⟩ | ⟨-, hk⟩
    · exact absurd hproxy hp
    · obtain ⟨u, hu⟩ := h.proxyRow hk hp
      have hne : w.proxy ≠ a := fun e => by rw [e, hnone] at hu; cases hu
      exact ⟨u, by rw [hfind, if_neg hne, hu]⟩
  · rcases hrow hk with ⟨rfl, rfl⟩ | ⟨-, hk⟩
    · exact hproxy
    · exact h.plain hk hp
  · rcases hrow hk with ⟨rfl, rfl⟩ | ⟨-, hk⟩
    · exact absurd hproxy hp
    · exact h.noSelf hk hp
  · rcases hrow hk with ⟨rfl, rfl⟩ | ⟨-, hk⟩
    · rw [hbuilders]
      exact List.Pairwise.nil
    · exact h.sorted hk
  · have hsum : votesFor V' b = votesFor V b + v.votesFor b :=
      Table.sumRows_create (fun _ (v : VoterInfo) => v.votesFor b) hc
    simpa [VoterInfo.votesFor, hbuilders] using hsum

end Create

/-! ## The builders' rows -/

section Builders

variable {l l' : Ledger} {bs : List AccountName} {n : ℕ}

theorem subU128_of_le {a b : ℕ} (hle : b ≤ a) (hlt : a < 2 ^ 128) : subU128 a b = a - b := by
  unfold subU128 u128
  rw [Nat.mod_eq_of_lt (by omega : b < 2 ^ 128), show a + (2 ^ 128 - b) = a - b + 2 ^ 128 by omega,
    Nat.add_mod_right, Nat.mod_eq_of_lt (by omega)]

theorem u128_of_lt {a : ℕ} (h : a < 2 ^ 128) : u128 a = a := Nat.mod_eq_of_lt h

/-- The rows of the builders after the votes of those on a list have changed. -/
def Revoted (f : ℕ → ℕ) (bs : List AccountName) (l l' : Ledger) : Prop :=
  l'.voters = l.voters ∧ ∀ b, l'.builders.find? b = (l.builders.find? b).map fun i =>
    if b ∈ bs then { i with totalVotes := f i.totalVotes } else i

theorem Revoted.cons {f : ℕ → ℕ} {p : AccountName} {l₁ : Ledger} (hp : p ∉ bs)
    (h₁ : l₁ = { l with
      builders := l.builders.modify p fun i => { i with totalVotes := f i.totalVotes } })
    (h : Revoted f bs l₁ l') : Revoted f (p :: bs) l l' := by
  subst h₁
  refine ⟨h.1, fun b => ?_⟩
  rw [h.2]
  simp only [Table.find?_modify, Option.map_map]
  congr 1
  funext i
  by_cases hb : b = p
  · subst hb
    simp [hp]
  · simp [hb]

theorem tally_rows {f : ℕ → ℕ} {missing : String} (h : tally f missing l bs = .ok l')
    (hnodup : bs.Nodup) : Revoted f bs l l' := by
  unfold tally at h
  induction bs generalizing l with
  | nil =>
    cases h
    exact ⟨rfl, fun b => by simp⟩
  | cons p bs ih =>
    rw [List.nodup_cons] at hnodup
    simp only [List.foldlM_cons, bind_eq_ok] at h
    obtain ⟨l₁, ⟨-, -, h₁⟩, h⟩ := h
    cases h₁
    exact (ih h hnodup.2).cons hnodup.1 rfl

theorem elect_rows {direct : Bool} (h : elect direct n l bs = .ok l') (hnodup : bs.Nodup) :
    Revoted (fun v => u128 (v + n)) bs l l' ∧ ∀ b ∈ bs, (l.builders.find? b).isSome := by
  unfold elect at h
  induction bs generalizing l with
  | nil =>
    cases h
    exact ⟨⟨rfl, fun b => by simp⟩, by simp⟩
  | cons p bs ih =>
    rw [List.nodup_cons] at hnodup
    simp only [List.foldlM_cons, bind_eq_ok, fcAssert_eq_ok] at h
    obtain ⟨l₁, ⟨-, hsome, -, -, -, -, h₁⟩, h⟩ := h
    cases h₁
    obtain ⟨hrows, hexist⟩ := ih h hnodup.2
    refine ⟨hrows.cons hnodup.1 rfl, fun b hb => ?_⟩
    rcases List.mem_cons.1 hb with rfl | hb
    · exact hsome
    · simpa using hexist b hb

/-- What moving votes from the builders of one list to those of another makes of a total. -/
def moved (old new : List AccountName) (n : ℕ) (b : AccountName) (total : ℕ) : ℕ :=
  if b ∈ old ∧ b ∉ new then subU128 total n
  else if b ∈ new ∧ b ∉ old then u128 (total + n)
  else total

/-- The totals stay what counting gives, where counting moves as the votes do. -/
theorem TallyOk.move (h : TallyOk l) (old new : List AccountName) (n : ℕ) (hV : VotersOk l'.voters)
    (hcount : ∀ b, votesFor l'.voters b + (if b ∈ old then n else 0)
      = votesFor l.voters b + if b ∈ new then n else 0)
    (hrows : ∀ b, l'.builders.find? b = (l.builders.find? b).map fun i =>
      { i with totalVotes := moved old new n b i.totalVotes })
    (hlisted : ∀ {a v}, l'.voters.find? a = some v → ∀ b ∈ v.builders, (l.builders.find? b).isSome) :
    TallyOk l' := by
  refine { hV with total := fun {b i'} hi' => ?_, listed := fun {a v} hv b hb => ?_ }
  · rw [hrows, Option.map_eq_some_iff] at hi'
    obtain ⟨i, hi, rfl⟩ := hi'
    have hc := hcount b
    have hlt := h.votesFor_lt b
    have hlt' := hV.votesFor_lt b
    simp only [moved, h.total hi]
    by_cases hold : b ∈ old <;> by_cases hnew : b ∈ new <;>
      simp only [hold, hnew, if_true, if_false, not_true_eq_false, not_false_eq_true, and_self,
        and_true, and_false] at hc ⊢
    · omega
    · rw [subU128_of_le (by omega) hlt]
      omega
    · rw [u128_of_lt (by omega)]
      omega
    · omega
  · rw [hrows]
    obtain ⟨i, hi⟩ := Option.isSome_iff_exists.1 (hlisted hv b hb)
    simp [hi]

end Builders

/-! ## The calls -/

section Calls

variable {ctx : MessageContext} {l l' : Ledger} {a : AccountName} {v : VoterInfo} {n : ℕ}

/-- The builders that a voter's stake counts for are the same before and after it has changed. -/
theorem TallyOk.votedBuilders_restaked (h : TallyOk l) (ha : l.voters.find? a = some v)
    {σ f : ℕ → ℕ} {t : ℕ} {bs : List AccountName}
    (hb : votedBuilders { l with voters := restaked l.voters a v σ f t } a = .ok bs) :
    bs = countedFor l.voters v := by
  simp only [votedBuilders, bind_eq_ok, dbDeref_eq_ok] at hb
  obtain ⟨v', hv', hb⟩ := hb
  rw [h.restaked_rows ha, ha, Option.map_some, if_pos rfl, Option.some_inj] at hv'
  subst hv'
  unfold countedFor
  by_cases hp : v.proxy ≠ 0
  · rw [if_pos hp] at hb ⊢
    simp only [bind_eq_ok, dbDeref_eq_ok] at hb
    obtain ⟨w', hw', hb⟩ := hb
    rw [h.restaked_rows ha, Option.map_eq_some_iff] at hw'
    obtain ⟨w, hw, rfl⟩ := hw'
    simp only [if_neg (h.noSelf ha hp), ne_eq, hp, not_false_eq_true, and_self, if_true] at hb
    rw [hw]
    exact (Except.ok.inj hb).symm
  · rw [if_neg hp] at hb ⊢
    exact (Except.ok.inj hb).symm

/-- The builders a voter's votes count for are in order. -/
theorem VotersOk.countedFor_sorted {V : Voters} (hV : VotersOk V) (ha : V.find? a = some v) :
    (countedFor V v).Pairwise (· < ·) := by
  unfold countedFor
  split_ifs with hp
  · obtain ⟨w, hw⟩ := hV.proxyRow ha hp
    simp only [hw]
    split_ifs
    · exact hV.sorted hw
    · exact List.Pairwise.nil
  · exact hV.sorted ha

/-- A row of the restaked voters lists what it listed before. -/
theorem TallyOk.restaked_listed (h : TallyOk l) (ha : l.voters.find? a = some v) {σ f : ℕ → ℕ}
    {t : ℕ} {k : AccountName} {w' : VoterInfo}
    (hk : (restaked l.voters a v σ f t).find? k = some w') :
    ∀ b ∈ w'.builders, (l.builders.find? b).isSome := by
  rw [h.restaked_rows ha, Option.map_eq_some_iff] at hk
  obtain ⟨w, hw, rfl⟩ := hk
  have hsame : (if k = a then { w with staked := σ w.staked, lastUpdate := t }
      else if v.proxy ≠ 0 ∧ k = v.proxy then { w with proxiedVotes := f w.proxiedVotes }
      else w).builders = w.builders := by
    split_ifs <;> rfl
  rw [hsame]
  exact h.listed hw

theorem addProxied_restaked (ha : l.voters.find? a = some v) {V : Voters}
    (h : addProxied { l with voters := l.voters.modify a fun v =>
      { v with lastUpdate := ctx.currentTime, staked := v.staked + n } } a n = .ok V) :
    V = restaked l.voters a v (· + n) (fun p => u128 (p + n)) ctx.currentTime := by
  simp only [addProxied, bind_eq_ok, dbDeref_eq_ok] at h
  obtain ⟨v', hv', h⟩ := h
  rw [Table.find?_modify, ha, Option.map_some, if_pos rfl, Option.some_inj] at hv'
  subst hv'
  unfold restaked
  by_cases hp : v.proxy ≠ 0
  · rw [if_pos hp] at h ⊢
    simp only [bind_eq_ok] at h
    obtain ⟨-, -, h⟩ := h
    exact (Except.ok.inj h).symm
  · rw [if_neg hp] at h ⊢
    exact (Except.ok.inj h).symm

/-- A voter's first stake gives it a row that counts for nobody. -/
theorem TallyOk.firstStake (h : TallyOk l) {V : Voters}
    (hc : l.voters.create? a v = some V) (hrow : v.proxy = 0 ∧ v.proxiedVotes = 0 ∧ v.builders = [])
    (hfits : stakeTotal V < 2 ^ 127) : TallyOk { l with voters := V } := by
  obtain ⟨hV, hcount⟩ := h.toVotersOk.create hc hrow hfits
  refine h.move [] [] 0 hV (fun b => ?_) (fun b => ?_) fun {k w} hk => ?_
  · simpa using hcount b
  · simp [moved]
  · rw [(Table.create?_eq_some hc).2] at hk
    split_ifs at hk
    · cases hk
      simp [hrow.2.2]
    · exact h.listed hk

/-- A change of a stake that the builders it counts for follow. -/
theorem TallyOk.restake (h : TallyOk l) (ha : l.voters.find? a = some v) {σ f g : ℕ → ℕ} {t : ℕ}
    {missing : String} (old new : List AccountName) (n : ℕ)
    (hf : ∀ w, v.proxy ≠ 0 → l.voters.find? v.proxy = some w →
      f w.proxiedVotes + v.staked = w.proxiedVotes + σ v.staked)
    (hfits : stakeTotal (restaked l.voters a v σ f t) < 2 ^ 127)
    (htally : tally g missing { l with voters := restaked l.voters a v σ f t } (countedFor l.voters v)
      = .ok l')
    (hmoved : ∀ b total, (if b ∈ countedFor l.voters v then g total else total)
      = moved old new n b total)
    (hstake : ∀ b, (if b ∈ countedFor l.voters v then σ v.staked else 0) + (if b ∈ old then n else 0)
      = (if b ∈ countedFor l.voters v then v.staked else 0) + if b ∈ new then n else 0) :
    TallyOk l' := by
  obtain ⟨hvoters, hrows⟩ := tally_rows htally ((h.countedFor_sorted ha).imp fun hlt => hlt.ne)
  dsimp only at hvoters hrows
  obtain ⟨hcount, -⟩ := h.restaked_counts ha hf (t := t)
  have hV := h.toVotersOk.restake ha hf hfits
  rw [← hvoters] at hV hcount
  refine h.move old new n hV (fun b => ?_) (fun b => ?_) fun {k w} hk =>
    h.restaked_listed ha (by rwa [hvoters] at hk)
  · have hb := hcount b
    have hs := hstake b
    omega
  · rw [hrows]
    congr 1
    funext i
    rw [← hmoved]
    split_ifs <;> rfl

theorem TallyOk.increaseVotes (h : TallyOk l)
    (hcall : XmaxChain.increaseVotes ctx l a n = .ok l') (hfits : stakeTotal l'.voters < 2 ^ 127) :
    TallyOk l' := by
  simp only [XmaxChain.increaseVotes, bind_eq_ok] at hcall
  obtain ⟨V₁, h₁, V₂, h₂, bs, hbs, htally⟩ := hcall
  unfold addStake at h₁
  cases ha : l.voters.find? a with
  | none =>
    simp only [ha, dbCreate_eq_ok] at h₁
    have hrow : V₁.find? a = some { lastUpdate := ctx.currentTime, staked := n } := by
      simp [(Table.create?_eq_some h₁).2]
    have hV₂ : V₂ = V₁ := by
      simp only [addProxied, bind_eq_ok, dbDeref_eq_ok, hrow, Option.some_inj] at h₂
      obtain ⟨-, rfl, h₂⟩ := h₂
      exact (Except.ok.inj h₂).symm
    subst hV₂
    have hnil : bs = [] := by
      simp only [votedBuilders, bind_eq_ok, dbDeref_eq_ok, hrow, Option.some_inj] at hbs
      obtain ⟨-, rfl, hbs⟩ := hbs
      exact (Except.ok.inj hbs).symm
    subst hnil
    cases htally
    exact h.firstStake h₁ ⟨rfl, rfl, rfl⟩ hfits
  | some v =>
    simp only [ha] at h₁
    cases h₁
    obtain rfl := addProxied_restaked ha h₂
    obtain rfl := h.votedBuilders_restaked ha hbs
    rw [(tally_ok htally).2] at hfits
    dsimp only at hfits
    refine h.restake (σ := (· + n)) ha [] (countedFor l.voters v) n (fun w _ hw => ?_) hfits htally
      (fun b total => ?_) fun b => ?_
    · -- the proxy's sum does not wrap: it is at most the sum of all stakes
      have htot := restaked_stakeTotal (σ := (· + n)) (f := fun p => u128 (p + n))
        (t := ctx.currentTime) ha
      have hle := delegated_le l.voters v.proxy
      rw [← h.proxied hw] at hle
      rw [u128_of_lt (by omega)]
      omega
    · simp [moved]
    · simp only [List.not_mem_nil, if_false]
      split_ifs <;> omega

theorem TallyOk.decreaseVotes (h : TallyOk l) (hn : 0 < n)
    (hcall : XmaxChain.decreaseVotes ctx l a n = .ok l') : TallyOk l' := by
  simp only [XmaxChain.decreaseVotes, bind_eq_ok, dbDeref_eq_ok, if_pos hn, fcAssert_eq_ok,
    decide_eq_true_eq] at hcall
  obtain ⟨-, -, v, ha, -, hle, bs, hbs, htally⟩ := hcall
  have hvoters : (if v.proxy ≠ 0 then
      ({ l with voters := (l.voters.modify a fun v =>
          { v with staked := v.staked - n, lastUpdate := ctx.currentTime }).modify v.proxy fun p =>
          { p with proxiedVotes := subU128 p.proxiedVotes n } } : Ledger)
      else { l with voters := l.voters.modify a fun v =>
          { v with staked := v.staked - n, lastUpdate := ctx.currentTime } })
      = { l with voters := restaked l.voters a v (· - n) (subU128 · n) ctx.currentTime } := by
    unfold restaked
    split_ifs <;> rfl
  rw [hvoters] at hbs htally
  obtain rfl := h.votedBuilders_restaked ha hbs
  have htot := restaked_stakeTotal (σ := (· - n)) (f := (subU128 · n)) (t := ctx.currentTime) ha
  have hfits := h.fits
  refine h.restake (σ := (· - n)) ha (countedFor l.voters v) [] n (fun w hp hw => ?_)
    (by omega) htally (fun b total => ?_) fun b => ?_
  · have hpart := staked_le_delegated ha hp
    have hlt := h.proxied_lt hw
    rw [← h.proxied hw] at hpart
    rw [subU128_of_le (by omega) (by omega)]
    omega
  · simp [moved]
  · simp only [List.not_mem_nil, if_false]
    split_ifs <;> omega

/-! ### Registering a builder -/

theorem TallyOk.votesFor_eq_zero (h : TallyOk l) {b : AccountName} (hb : l.builders.find? b = none) :
    votesFor l.voters b = 0 := by
  refine (Table.sumRows_congr (g := fun _ _ => 0) fun k v hk => ?_).trans ?_
  · unfold VoterInfo.votesFor
    refine if_neg fun ⟨_, hmem⟩ => ?_
    have := h.listed hk b hmem
    rw [hb] at this
    cases this
  · simp [Table.sumRows]

/-- A builder's key may change, and a builder nobody lists may get a row without votes. -/
theorem TallyOk.setBuilders (h : TallyOk l) {B : Table AccountName BuilderInfoObject}
    (hrows : ∀ {b i'}, B.find? b = some i' →
      (∃ i, l.builders.find? b = some i ∧ i'.totalVotes = i.totalVotes) ∨
        l.builders.find? b = none ∧ i'.totalVotes = 0)
    (hkeep : ∀ b, (l.builders.find? b).isSome → (B.find? b).isSome) :
    TallyOk { l with builders := B } := by
  refine { h.toVotersOk with
    total := fun {b i'} hi' => ?_
    listed := fun {a v} hv b hb => hkeep b (h.listed hv b hb) }
  rcases hrows hi' with ⟨i, hi, heq⟩ | ⟨hnone, hzero⟩
  · rw [heq]
    exact h.total hi
  · rw [hzero]
    exact (h.votesFor_eq_zero hnone).symm

variable {codec : Codec} {s r : HandlerState}

theorem TallyOk.modifyKey (h : TallyOk l) (b : AccountName) (key : PublicKey) :
    TallyOk { l with builders := l.builders.modify b fun i => { i with builderKey := key } } := by
  refine h.setBuilders (fun {b' i'} hi' => ?_) fun b' hb' => by simpa using hb'
  rw [Table.find?_modify, Option.map_eq_some_iff] at hi'
  obtain ⟨i, hi, rfl⟩ := hi'
  refine .inl ⟨i, hi, ?_⟩
  split_ifs <;> rfl

theorem TallyOk.regBuilder (h : TallyOk s.ledger)
    (hcall : XmaxChain.regBuilder codec ctx s = .ok r) : TallyOk r.ledger := by
  simp only [XmaxChain.regBuilder, bind_eq_ok] at hcall
  obtain ⟨reg, -, builders, hb, hcall⟩ := hcall
  cases hcall
  unfold setBuilderKey at hb
  split at hb
  · cases hb
    exact h.modifyKey _ _
  · obtain ⟨hnone, hfind⟩ := Table.create?_eq_some (dbCreate_eq_ok.1 hb)
    refine h.setBuilders (fun {b i'} hi' => ?_) fun b hb' => ?_
    · rw [hfind] at hi'
      split_ifs at hi' with hk
      · cases hi'
        exact .inr ⟨hk ▸ hnone, rfl⟩
      · exact .inl ⟨i', hi', rfl⟩
    · rw [hfind]
      split_ifs
      · rfl
      · exact hb'

theorem TallyOk.unregBuilder (h : TallyOk s.ledger)
    (hcall : XmaxChain.unregBuilder codec ctx s = .ok r) : TallyOk r.ledger := by
  simp only [XmaxChain.unregBuilder, bind_eq_ok] at hcall
  obtain ⟨b, -, -, -, hcall⟩ := hcall
  cases hcall
  exact h.modifyKey b 0

/-! ### Registering a proxy -/

/-- A row may begin or end to stand for others. -/
theorem VotersOk.setProxy {V : Voters} (h : VotersOk V) (ha : V.find? a = some v) {i t : ℕ}
    (hi : i ≠ 0 → v.proxy = 0) :
    VotersOk (V.modify a fun v => { v with isProxy := i, lastUpdate := t }) := by
  have hdel : ∀ p, delegated (V.modify a fun v => { v with isProxy := i, lastUpdate := t }) p
      = delegated V p := fun p => by
    have := delegated_modify (fun v => { v with isProxy := i, lastUpdate := t }) ha p
    simp only [VoterInfo.delegates] at this
    omega
  have htot : stakeTotal (V.modify a fun v => { v with isProxy := i, lastUpdate := t })
      = stakeTotal V := by
    have := stakeTotal_modify (fun v => { v with isProxy := i, lastUpdate := t }) ha
    dsimp only at this
    omega
  have hrow : ∀ {k w'}, (V.modify a fun v => { v with isProxy := i, lastUpdate := t }).find? k = some w' →
      ∃ w, V.find? k = some w ∧ w'.proxy = w.proxy ∧ w'.proxiedVotes = w.proxiedVotes ∧
        w'.builders = w.builders ∧ (w'.isProxy ≠ 0 → w'.proxy = 0) := by
    intro k w' hk
    rw [Table.find?_modify, Option.map_eq_some_iff] at hk
    obtain ⟨w, hw, rfl⟩ := hk
    refine ⟨w, hw, ?_⟩
    split_ifs with hka
    · subst hka
      rw [ha, Option.some_inj] at hw
      subst hw
      exact ⟨rfl, rfl, rfl, hi⟩
    · exact ⟨rfl, rfl, rfl, h.plain hw⟩
  refine ⟨by rw [htot]; exact h.fits, fun {k w'} hk => ?_, fun {k w'} hk hp => ?_,
    fun {k w'} hk hp => ?_, fun {k w'} hk hp => ?_, fun {k w'} hk => ?_⟩
  · obtain ⟨w, hw, -, hproxied, -⟩ := hrow hk
    rw [hdel, hproxied]
    exact h.proxied hw
  · obtain ⟨w, hw, hproxy, -⟩ := hrow hk
    rw [hproxy] at hp ⊢
    obtain ⟨u, hu⟩ := h.proxyRow hw hp
    rw [Table.find?_modify, hu]
    exact ⟨_, rfl⟩
  · obtain ⟨w, hw, -, -, -, hplain⟩ := hrow hk
    exact hplain hp
  · obtain ⟨w, hw, hproxy, -⟩ := hrow hk
    rw [hproxy] at hp ⊢
    exact h.noSelf hw hp
  · obtain ⟨w, hw, -, -, hbuilders, -⟩ := hrow hk
    rw [hbuilders]
    exact h.sorted hw

/-- Its votes as a proxy come to an account's builders when it becomes one and leave them when it
stops. -/
theorem TallyOk.setProxy (h : TallyOk l) (ha : l.voters.find? a = some v) (hv : v.proxy = 0)
    {i t : ℕ} {g : ℕ → ℕ → ℕ} (old new : List AccountName)
    (htally : tallyProxied g { l with voters := l.voters.modify a fun v =>
      { v with isProxy := i, lastUpdate := t } } v = .ok l')
    (hmoved : ∀ b total, (if b ∈ v.builders then g total v.proxiedVotes else total)
      = moved old new v.proxiedVotes b total)
    (hcount : ∀ b, (if b ∈ v.builders ∧ i ≠ 0 then v.proxiedVotes else 0)
        + (if b ∈ old then v.proxiedVotes else 0)
      = (if b ∈ v.builders ∧ v.isProxy ≠ 0 then v.proxiedVotes else 0)
        + if b ∈ new then v.proxiedVotes else 0) : TallyOk l' := by
  have hV := h.toVotersOk.setProxy ha (i := i) (t := t) fun _ => hv
  have hvotes : ∀ b, votesFor (l.voters.modify a fun v => { v with isProxy := i, lastUpdate := t }) b
      + (if b ∈ old then v.proxiedVotes else 0)
      = votesFor l.voters b + if b ∈ new then v.proxiedVotes else 0 := by
    intro b
    have hb := votesFor_modify (fun v => { v with isProxy := i, lastUpdate := t }) ha b
    have hc := hcount b
    simp only [VoterInfo.votesFor, hv, true_and] at hb
    by_cases hmem : b ∈ v.builders
    · simp only [hmem, if_true, true_and] at hb hc
      omega
    · simp only [hmem, if_false, false_and] at hb hc
      omega
  have hlisted : ∀ {k w'}, (l.voters.modify a fun v =>
      { v with isProxy := i, lastUpdate := t }).find? k = some w' →
      ∀ b ∈ w'.builders, (l.builders.find? b).isSome := by
    intro k w' hk
    rw [Table.find?_modify, Option.map_eq_some_iff] at hk
    obtain ⟨w, hw, rfl⟩ := hk
    have hsame : (if k = a then { w with isProxy := i, lastUpdate := t } else w).builders
        = w.builders := by
      split_ifs <;> rfl
    rw [hsame]
    exact h.listed hw
  unfold tallyProxied at htally
  split at htally
  · obtain ⟨hvoters, hrows⟩ := tally_rows htally ((h.sorted ha).imp fun hlt => hlt.ne)
    dsimp only at hvoters hrows
    rw [← hvoters] at hV
    refine h.move old new v.proxiedVotes hV (by rwa [hvoters]) (fun b => ?_)
      fun {k w} hk => hlisted (by rwa [hvoters] at hk)
    rw [hrows]
    congr 1
    funext i
    rw [← hmoved]
    split_ifs <;> rfl
  · rename_i hzero
    cases htally
    have hz : v.proxiedVotes = 0 := by omega
    simp only [hz, ite_self, Nat.add_zero] at hvotes
    refine h.move [] [] 0 hV (fun b => by simpa using hvotes b) (fun b => by simp [moved]) hlisted

theorem TallyOk.regProxy (h : TallyOk s.ledger)
    (hcall : XmaxChain.regProxy codec ctx s = .ok r) : TallyOk r.ledger := by
  simp only [XmaxChain.regProxy, bind_eq_ok] at hcall
  obtain ⟨name, -, hcall⟩ := hcall
  split at hcall
  · rename_i proxy hrow
    simp only [bind_eq_ok, fcAssert_eq_ok, decide_eq_true_eq] at hcall
    obtain ⟨-, hnot, -, hproxy, l, hl, hcall⟩ := hcall
    cases hcall
    refine h.setProxy hrow hproxy [] proxy.builders hl (fun b total => ?_) fun b => ?_
    · simp [moved]
    · simp [hnot]
  · simp only [bind_eq_ok, dbCreate_eq_ok] at hcall
    obtain ⟨voters, hc, hcall⟩ := hcall
    cases hcall
    refine h.firstStake hc ⟨rfl, rfl, rfl⟩ ?_
    have hsum : stakeTotal voters = stakeTotal s.ledger.voters + 0 :=
      Table.sumRows_create (fun _ (v : VoterInfo) => v.staked) hc
    rw [hsum]
    exact h.fits

theorem TallyOk.unregProxy (h : TallyOk s.ledger)
    (hcall : XmaxChain.unregProxy codec ctx s = .ok r) : TallyOk r.ledger := by
  simp only [XmaxChain.unregProxy, bind_eq_ok, dbDeref_eq_ok, fcAssert_eq_ok,
    decide_eq_true_eq] at hcall
  obtain ⟨name, -, -, -, proxy, hrow, -, hone, l, hl, hcall⟩ := hcall
  cases hcall
  have hproxy := h.plain hrow (by omega)
  refine h.setProxy hrow hproxy proxy.builders [] hl (fun b total => ?_) fun b => ?_
  · simp [moved]
  · simp [hone]

end Calls

/-! ### Voting -/

section Difference

theorem setDifference_sublist (as bs : List ℕ) : (setDifference as bs).Sublist as := by
  fun_induction setDifference as bs with
  | case1 => exact List.Sublist.refl _
  | case2 => exact List.Sublist.refl _
  | case3 a as bs b bs' _ _ ih => exact ih.cons_cons a
  | case4 a as bs b bs' _ _ ih => exact ih.cons a

/-- On sorted lists it is the difference of the sets. -/
theorem mem_setDifference {as bs : List ℕ} (has : as.Pairwise (· < ·)) (hbs : bs.Pairwise (· < ·))
    (x : ℕ) : x ∈ setDifference as bs ↔ x ∈ as ∧ x ∉ bs := by
  -- what is dropped of the second list is below everything in the first
  have hdrop : ∀ {a : ℕ} {as bs : List ℕ}, (a :: as).Pairwise (· < ·) →
      ∀ y ∈ a :: as, (y ∈ bs ↔ y ∈ bs.dropWhile (· < a)) := by
    intro a as bs has y hy
    refine ⟨fun hyb => ?_, fun hyb => (List.dropWhile_sublist _).subset hyb⟩
    have hay : a ≤ y := by
      rcases List.mem_cons.1 hy with rfl | hy
      · exact le_rfl
      · exact (List.rel_of_pairwise_cons has hy).le
    rw [← List.takeWhile_append_dropWhile (p := (· < a)) (l := bs)] at hyb
    rcases List.mem_append.1 hyb with hyb | hyb
    · have hlt := List.mem_takeWhile_imp hyb
      exact absurd (of_decide_eq_true hlt) (not_lt.2 hay)
    · exact hyb
  fun_induction setDifference as bs with
  | case1 => simp
  | case2 a as bs hnil =>
    refine ⟨fun hx => ⟨hx, fun hxb => ?_⟩, And.left⟩
    rw [hdrop has x hx, hnil] at hxb
    cases hxb
  | case3 a as bs b bs' heq hlt ih =>
    have hsub : (b :: bs').Sublist bs := heq ▸ List.dropWhile_sublist _
    have hna : a ∉ bs := fun hab => by
      rw [hdrop has a List.mem_cons_self, heq] at hab
      rcases List.mem_cons.1 hab with rfl | hab
      · exact absurd hlt (lt_irrefl _)
      · exact absurd (List.rel_of_pairwise_cons (hbs.sublist hsub) hab) (by omega)
    have hih : x ∈ setDifference as (b :: bs') ↔ x ∈ as ∧ x ∉ b :: bs' :=
      ih has.of_cons (hbs.sublist hsub)
    rw [List.mem_cons (b := a), hih, List.mem_cons (b := a)]
    constructor
    · rintro (rfl | ⟨hx, hxb⟩)
      · exact ⟨.inl rfl, hna⟩
      · exact ⟨.inr hx, fun h => hxb (by rwa [← heq, ← hdrop has x (List.mem_cons_of_mem _ hx)])⟩
    · rintro ⟨rfl | hx, hxb⟩
      · exact .inl rfl
      · exact .inr ⟨hx, fun h => hxb (hsub.subset h)⟩
  | case4 a as bs b bs' heq hlt ih =>
    have hsub : (b :: bs').Sublist bs := heq ▸ List.dropWhile_sublist _
    -- the first of what is left is not below `a`, so it is `a`
    have hba : b = a := by
      have := List.head?_dropWhile_not (· < a) bs
      rw [heq] at this
      simp only [List.head?_cons, decide_eq_false_iff_not] at this
      omega
    subst hba
    have hih : x ∈ setDifference as bs' ↔ x ∈ as ∧ x ∉ bs' :=
      ih has.of_cons (hbs.sublist hsub).of_cons
    rw [hih, List.mem_cons]
    constructor
    · rintro ⟨hx, hxb⟩
      refine ⟨.inr hx, fun h => ?_⟩
      rw [hdrop has x (List.mem_cons_of_mem _ hx), heq] at h
      rcases List.mem_cons.1 h with rfl | h
      · exact absurd (List.rel_of_pairwise_cons has hx) (lt_irrefl _)
      · exact hxb h
    · rintro ⟨rfl | hx, hxb⟩
      · exact absurd (hsub.subset List.mem_cons_self) hxb
      · exact ⟨hx, fun h => hxb (hsub.subset (List.mem_cons_of_mem _ h))⟩

end Difference

section Vote

variable {l l₁ l₂ l' : Ledger} {vp : Types.VoteBuilder} {v : VoterInfo} {n : ℕ}

/-- The voters after what a proxy stands for has changed. -/
def adjusted (V : Voters) (p : AccountName) (f : ℕ → ℕ) : Voters :=
  if p ≠ 0 then V.modify p fun w => { w with proxiedVotes := f w.proxiedVotes } else V

theorem adjusted_find? (V : Voters) (p : AccountName) (f : ℕ → ℕ) (k : AccountName) :
    (adjusted V p f).find? k = (V.find? k).map fun w =>
      if p ≠ 0 ∧ k = p then { w with proxiedVotes := f w.proxiedVotes } else w := by
  unfold adjusted
  by_cases hp : p = 0
  · simp [hp]
  · simp [hp]

theorem adjusted_delegated (V : Voters) (p : AccountName) (f : ℕ → ℕ) (q : AccountName) :
    delegated (adjusted V p f) q = delegated V q := by
  unfold adjusted
  split_ifs
  · exact (modify_proxied V p f).1 q
  · rfl

theorem adjusted_stakeTotal (V : Voters) (p : AccountName) (f : ℕ → ℕ) :
    stakeTotal (adjusted V p f) = stakeTotal V := by
  unfold adjusted
  split_ifs
  · exact (modify_proxied V p f).2
  · rfl

theorem leaveOldProxy_rows {old : List AccountName} (ha : l.voters.find? vp.voter = some v)
    (h : leaveOldProxy l vp.voter v = .ok (l₁, old)) :
    l₁ = { l with voters := adjusted l.voters v.proxy (subU128 · v.staked) } ∧
      old = countedFor l.voters v := by
  unfold leaveOldProxy adjusted countedFor at *
  split_ifs at h ⊢ with hp
  · simp only [bind_eq_ok, dbDeref_eq_ok, Table.find?_modify, Option.map_eq_some_iff] at h
    obtain ⟨-, -, w', ⟨w, hw, rfl⟩, h⟩ := h
    cases h
    refine ⟨rfl, ?_⟩
    rw [hw]
    simp only [if_true]
  · simp only [bind_eq_ok, dbDeref_eq_ok, ha] at h
    obtain ⟨v', hv', h⟩ := h
    cases hv'
    cases h
    exact ⟨rfl, rfl⟩

theorem joinNewProxy_rows {new : List AccountName} (h : joinNewProxy l₁ vp n = .ok (l₂, new)) :
    l₂ = { l₁ with voters := adjusted l₁.voters vp.proxy fun p => u128 (p + n) } ∧
      (vp.proxy ≠ 0 → ∃ w, l₁.voters.find? vp.proxy = some w ∧ w.isProxy ≠ 0 ∧ new = w.builders) ∧
      (vp.proxy = 0 → new = vp.builders) := by
  unfold joinNewProxy adjusted at *
  split_ifs at h ⊢ with hp
  · simp only [bind_eq_ok, dbDeref_eq_ok, Table.find?_modify, Option.map_eq_some_iff,
      fcAssert_eq_ok] at h
    obtain ⟨-, hany, w', ⟨w, hw, rfl⟩, h⟩ := h
    cases h
    refine ⟨rfl, fun _ => ⟨w, hw, ?_, ?_⟩, fun h0 => absurd h0 hp⟩
    · rw [hw] at hany
      simpa using hany
    · simp
  · cases h
    exact ⟨rfl, fun h0 => absurd h0 hp, fun _ => rfl⟩

/-- The voters after a vote. -/
def revoted (V : Voters) (vp : Types.VoteBuilder) (v : VoterInfo) (t : ℕ) : Voters :=
  (adjusted (adjusted V v.proxy (subU128 · v.staked)) vp.proxy fun p => u128 (p + v.staked)).modify
    vp.voter fun v => { v with proxy := vp.proxy, lastUpdate := t, builders := vp.builders }

/-- A vote that changes a voter's choice, as the checks before it leave it. -/
structure NewChoice (V : Voters) (vp : Types.VoteBuilder) (v : VoterInfo) : Prop where
  row : V.find? vp.voter = some v
  changes : ¬ (v.proxy ≠ 0 ∧ v.proxy = vp.proxy)
  plain : vp.proxy ≠ 0 → v.isProxy = 0
  sorted : vp.builders.Pairwise (· < ·)
  noBoth : vp.proxy ≠ 0 → vp.builders = []
  proxyRow : vp.proxy ≠ 0 → ∃ w, V.find? vp.proxy = some w ∧ w.isProxy ≠ 0

/-- The builders that a new choice counts for. -/
def chosen (V : Voters) (vp : Types.VoteBuilder) : List AccountName :=
  if vp.proxy ≠ 0 then ((V.find? vp.proxy).map (·.builders)).getD [] else vp.builders

/-- The votes that a voter moves. -/
def VoterInfo.votes (v : VoterInfo) : ℕ := v.staked + if v.isProxy ≠ 0 then v.proxiedVotes else 0

variable {V : Voters} {t : ℕ}

/-- The voter has no hand in its old and its new proxy's rows. -/
theorem NewChoice.ne (hV : VotersOk V) (h : NewChoice V vp v) :
    ¬ (v.proxy ≠ 0 ∧ vp.voter = v.proxy) ∧ ¬ (vp.proxy ≠ 0 ∧ vp.voter = vp.proxy) := by
  refine ⟨fun ⟨hp, heq⟩ => hV.noSelf h.row hp heq.symm, fun ⟨hp, heq⟩ => ?_⟩
  obtain ⟨w, hw, his⟩ := h.proxyRow hp
  rw [← heq, h.row, Option.some_inj] at hw
  subst hw
  exact his (h.plain hp)

theorem NewChoice.row_adjusted (hV : VotersOk V) (h : NewChoice V vp v) :
    (adjusted (adjusted V v.proxy (subU128 · v.staked)) vp.proxy
      fun p => u128 (p + v.staked)).find? vp.voter = some v := by
  obtain ⟨hold, hnew⟩ := h.ne hV
  simp only [adjusted_find?, h.row, Option.map_some, if_neg hold, if_neg hnew]

theorem NewChoice.votes_eq (hV : VotersOk V) (h : NewChoice V vp v)
    (hp : v.proxy ≠ 0 ∨ vp.proxy ≠ 0) : v.votes = v.staked := by
  have his : v.isProxy = 0 := by
    rcases hp with hp | hp
    · by_contra his
      exact hp (hV.plain h.row his)
    · exact h.plain hp
  simp [VoterInfo.votes, his]

/-- The voter's stake leaves its old proxy. -/
theorem NewChoice.leave (hV : VotersOk V) (h : NewChoice V vp v) {w : VoterInfo}
    (hw : V.find? v.proxy = some w) (hp : v.proxy ≠ 0) :
    subU128 w.proxiedVotes v.staked + v.staked = w.proxiedVotes := by
  have hle := staked_le_delegated h.row hp
  have hlt := hV.proxied_lt hw
  rw [← hV.proxied hw] at hle
  rw [subU128_of_le hle (by omega)]
  omega

/-- The voter's stake comes to its new proxy. -/
theorem NewChoice.join (hV : VotersOk V) (h : NewChoice V vp v) {w : VoterInfo}
    (hw : V.find? vp.proxy = some w) :
    u128 (w.proxiedVotes + v.staked) = w.proxiedVotes + v.staked := by
  have hlt := hV.proxied_lt hw
  have hlt' := hV.staked_lt h.row
  exact u128_of_lt (by omega)

theorem NewChoice.rows (hV : VotersOk V) (h : NewChoice V vp v) (k : AccountName) :
    (revoted V vp v t).find? k = (V.find? k).map fun w =>
      if k = vp.voter then { w with proxy := vp.proxy, lastUpdate := t, builders := vp.builders }
      else if v.proxy ≠ 0 ∧ k = v.proxy then
        { w with proxiedVotes := subU128 w.proxiedVotes v.staked }
      else if vp.proxy ≠ 0 ∧ k = vp.proxy then
        { w with proxiedVotes := u128 (w.proxiedVotes + v.staked) }
      else w := by
  obtain ⟨hold, hnew⟩ := h.ne hV
  unfold revoted
  simp only [Table.find?_modify, adjusted_find?, Option.map_map]
  congr 1
  funext w
  simp only [Function.comp_apply]
  by_cases hk : k = vp.voter
  · subst hk
    simp only [if_neg hold, if_neg hnew, if_true]
  · simp only [if_neg hk]
    by_cases ho : v.proxy ≠ 0 ∧ k = v.proxy
    · have hn : ¬ (vp.proxy ≠ 0 ∧ k = vp.proxy) := fun hs =>
        h.changes ⟨ho.1, ho.2.symm.trans hs.2⟩
      rw [if_pos ho, if_neg hn, if_pos ho]
    · rw [if_neg ho, if_neg ho]

theorem NewChoice.delegated (hV : VotersOk V) (h : NewChoice V vp v) (p : AccountName) :
    XmaxChain.delegated (revoted V vp v t) p + (if v.proxy ≠ 0 ∧ v.proxy = p then v.staked else 0)
      = XmaxChain.delegated V p + if vp.proxy ≠ 0 ∧ vp.proxy = p then v.staked else 0 := by
  have hdel := delegated_modify
    (fun v => { v with proxy := vp.proxy, lastUpdate := t, builders := vp.builders }) (h.row_adjusted hV) p
  simp only [VoterInfo.delegates, adjusted_delegated] at hdel
  exact hdel

theorem NewChoice.stakeTotal (hV : VotersOk V) (h : NewChoice V vp v) :
    XmaxChain.stakeTotal (revoted V vp v t) = XmaxChain.stakeTotal V := by
  have htot := stakeTotal_modify
    (fun v => { v with proxy := vp.proxy, lastUpdate := t, builders := vp.builders }) (h.row_adjusted hV)
  simp only [adjusted_stakeTotal] at htot
  unfold revoted
  omega

theorem NewChoice.votesFor_leave (hV : VotersOk V) (h : NewChoice V vp v) (b : AccountName) :
    XmaxChain.votesFor (adjusted V v.proxy (subU128 · v.staked)) b
        + (if v.proxy ≠ 0 ∧ b ∈ countedFor V v then v.staked else 0)
      = XmaxChain.votesFor V b := by
  by_cases hp : v.proxy = 0
  · simp [adjusted, hp]
  · obtain ⟨w, hw⟩ := hV.proxyRow h.row hp
    have hb := votesFor_modify_proxied (f := (subU128 · v.staked)) (x := v.staked) (y := 0) hw
      (hV.plain hw) (h.leave hV hw hp) b
    simp only [adjusted, countedFor, hp, hw, ne_eq, not_false_eq_true, if_true, true_and] at hb ⊢
    by_cases his : w.isProxy = 0
    · simpa [his] using hb
    · simpa [his] using hb

theorem NewChoice.votesFor_join (hV : VotersOk V) (h : NewChoice V vp v) (b : AccountName) :
    XmaxChain.votesFor (adjusted (adjusted V v.proxy (subU128 · v.staked)) vp.proxy
        fun p => u128 (p + v.staked)) b
      = XmaxChain.votesFor (adjusted V v.proxy (subU128 · v.staked)) b
        + if vp.proxy ≠ 0 ∧ b ∈ chosen V vp then v.staked else 0 := by
  by_cases hp : vp.proxy = 0
  · simp [adjusted, hp]
  · obtain ⟨w, hw, his⟩ := h.proxyRow hp
    have hother : ¬ (v.proxy ≠ 0 ∧ vp.proxy = v.proxy) := fun hs => h.changes ⟨hs.1, hs.2.symm⟩
    have hw₁ : (adjusted V v.proxy (subU128 · v.staked)).find? vp.proxy = some w := by
      simp only [adjusted_find?, hw, Option.map_some, if_neg hother]
    have hb := votesFor_modify_proxied (f := fun p => u128 (p + v.staked)) (x := 0) (y := v.staked)
      hw₁ (hV.plain hw) (h.join hV hw) b
    rw [adjusted, if_pos hp]
    simp only [chosen, hp, hw, his, ne_eq, not_false_eq_true, if_true, true_and, ite_self,
      Option.map_some, Option.getD_some, Nat.add_zero] at hb ⊢
    exact hb

/-- A vote moves the voter's votes from the builders they counted for to those they count for. -/
theorem NewChoice.votesFor (hV : VotersOk V) (h : NewChoice V vp v) (b : AccountName) :
    XmaxChain.votesFor (revoted V vp v t) b + (if b ∈ countedFor V v then v.votes else 0)
      = XmaxChain.votesFor V b + if b ∈ chosen V vp then v.votes else 0 := by
  have hleave := h.votesFor_leave hV b
  have hjoin := h.votesFor_join hV b
  have hown : XmaxChain.votesFor (revoted V vp v t) b + v.votesFor b = _ :=
    votesFor_modify (fun v => { v with proxy := vp.proxy, lastUpdate := t, builders := vp.builders })
      (h.row_adjusted hV) b
  have hold : v.votesFor b + (if v.proxy ≠ 0 ∧ b ∈ countedFor V v then v.staked else 0)
      = if b ∈ countedFor V v then v.votes else 0 := by
    by_cases hp : v.proxy = 0
    · simp [VoterInfo.votesFor, VoterInfo.votes, countedFor, hp]
    · rw [h.votes_eq hV (.inl hp)]
      simp [VoterInfo.votesFor, hp]
  have hnew : ({ v with proxy := vp.proxy, lastUpdate := t, builders := vp.builders } :
        VoterInfo).votesFor b + (if vp.proxy ≠ 0 ∧ b ∈ chosen V vp then v.staked else 0)
      = if b ∈ chosen V vp then v.votes else 0 := by
    by_cases hp : vp.proxy = 0
    · simp [VoterInfo.votesFor, VoterInfo.votes, chosen, hp]
    · rw [h.votes_eq hV (.inr hp)]
      simp [VoterInfo.votesFor, hp]
  omega

theorem NewChoice.votersOk (hV : VotersOk V) (h : NewChoice V vp v) : VotersOk (revoted V vp v t) := by
  -- what a row is made of
  have hrow : ∀ {k w'}, (revoted V vp v t).find? k = some w' → ∃ w, V.find? k = some w ∧
      (k = vp.voter ∧ w = v ∧ w' = { v with proxy := vp.proxy, lastUpdate := t, builders := vp.builders } ∨
        k ≠ vp.voter ∧ w'.proxy = w.proxy ∧ w'.isProxy = w.isProxy ∧ w'.builders = w.builders ∧
          w'.proxiedVotes + (if v.proxy ≠ 0 ∧ v.proxy = k then v.staked else 0)
            = w.proxiedVotes + if vp.proxy ≠ 0 ∧ vp.proxy = k then v.staked else 0) := by
    intro k w' hk
    rw [h.rows hV, Option.map_eq_some_iff] at hk
    obtain ⟨w, hw, rfl⟩ := hk
    refine ⟨w, hw, ?_⟩
    by_cases hkv : k = vp.voter
    · have hwv : w = v := by
        rw [hkv, h.row, Option.some_inj] at hw
        exact hw.symm
      rw [if_pos hkv]
      exact .inl ⟨hkv, hwv, by rw [hwv]⟩
    · rw [if_neg hkv]
      refine .inr ⟨hkv, ?_⟩
      by_cases ho : v.proxy ≠ 0 ∧ k = v.proxy
      · have hn : ¬ (vp.proxy ≠ 0 ∧ vp.proxy = k) := fun hs =>
          h.changes ⟨ho.1, ho.2.symm.trans hs.2.symm⟩
        rw [if_pos ho, if_pos ⟨ho.1, ho.2.symm⟩, if_neg hn]
        exact ⟨rfl, rfl, rfl, h.leave hV (ho.2 ▸ hw) ho.1⟩
      · have ho' : ¬ (v.proxy ≠ 0 ∧ v.proxy = k) := fun hs => ho ⟨hs.1, hs.2.symm⟩
        by_cases hn : vp.proxy ≠ 0 ∧ k = vp.proxy
        · have hn' : vp.proxy ≠ 0 ∧ vp.proxy = k := ⟨hn.1, hn.2.symm⟩
          simp only [if_neg ho, if_neg ho', if_pos hn, if_pos hn']
          exact ⟨trivial, trivial, trivial, h.join hV (hn.2 ▸ hw)⟩
        · have hn' : ¬ (vp.proxy ≠ 0 ∧ vp.proxy = k) := fun hs => hn ⟨hs.1, hs.2.symm⟩
          simp only [if_neg ho, if_neg ho', if_neg hn, if_neg hn', and_self]
  have hkept : ∀ {k w}, V.find? k = some w → ∃ w', (revoted V vp v t).find? k = some w' := by
    intro k w hw
    rw [h.rows hV, hw]
    exact ⟨_, rfl⟩
  refine ⟨by rw [h.stakeTotal hV]; exact hV.fits, fun {k w'} hk => ?_, fun {k w'} hk hp => ?_,
    fun {k w'} hk hp => ?_, fun {k w'} hk hp => ?_, fun {k w'} hk => ?_⟩
  · obtain ⟨w, hw, ⟨rfl, rfl, rfl⟩ | ⟨hne, -, -, -, hproxied⟩⟩ := hrow hk
    · -- nobody's proxy changes to or from the voter itself
      have hdel := h.delegated hV vp.voter (t := t)
      obtain ⟨hold, hnew⟩ := h.ne hV
      rw [if_neg fun hs => hold ⟨hs.1, hs.2.symm⟩, if_neg fun hs => hnew ⟨hs.1, hs.2.symm⟩] at hdel
      have := hV.proxied hw
      dsimp only
      omega
    · have hdel := h.delegated hV k (t := t)
      have := hV.proxied hw
      omega
  · obtain ⟨w, hw, ⟨rfl, rfl, rfl⟩ | ⟨-, hproxy, -⟩⟩ := hrow hk
    · obtain ⟨u, hu, -⟩ := h.proxyRow hp
      exact hkept hu
    · rw [hproxy] at hp ⊢
      obtain ⟨u, hu⟩ := hV.proxyRow hw hp
      exact hkept hu
  · obtain ⟨w, hw, ⟨rfl, rfl, rfl⟩ | ⟨-, hproxy, his, -⟩⟩ := hrow hk
    · by_contra hne
      exact hp (h.plain hne)
    · rw [hproxy]
      exact hV.plain hw (his ▸ hp)
  · obtain ⟨w, hw, ⟨rfl, rfl, rfl⟩ | ⟨-, hproxy, -⟩⟩ := hrow hk
    · exact fun heq => (h.ne hV).2 ⟨hp, heq.symm⟩
    · rw [hproxy] at hp ⊢
      exact hV.noSelf hw hp
  · obtain ⟨w, hw, ⟨rfl, rfl, rfl⟩ | ⟨-, -, -, hbuilders, -⟩⟩ := hrow hk
    · exact h.sorted
    · rw [hbuilders]
      exact hV.sorted hw

theorem TallyOk.countedFor_listed (h : TallyOk l) {a : AccountName} (ha : l.voters.find? a = some v) :
    ∀ b ∈ countedFor l.voters v, (l.builders.find? b).isSome := by
  intro b hb
  unfold countedFor at hb
  split_ifs at hb with hp
  · obtain ⟨w, hw⟩ := h.proxyRow ha hp
    simp only [hw] at hb
    split_ifs at hb
    · exact h.listed hw b hb
    · cases hb
  · exact h.listed ha b hb

theorem NewChoice.chosen_sorted (hV : VotersOk V) (h : NewChoice V vp v) :
    (chosen V vp).Pairwise (· < ·) := by
  unfold chosen
  split_ifs with hp
  · obtain ⟨w, hw, -⟩ := h.proxyRow hp
    rw [hw]
    exact hV.sorted hw
  · exact h.sorted

/-- The loop over the builders left and the loop over those newly voted for together move the
votes. -/
theorem Revoted.moved {old new : List AccountName} {l₃ : Ledger} (hold : old.Pairwise (· < ·))
    (hnew : new.Pairwise (· < ·)) (h₁ : Revoted (subU128 · n) (setDifference old new) l l₃)
    (h₂ : Revoted (fun v => u128 (v + n))
      (if old.isEmpty then new else setDifference new old) l₃ l') (b : AccountName) :
    l'.builders.find? b = (l.builders.find? b).map fun i =>
      { i with totalVotes := XmaxChain.moved old new n b i.totalVotes } := by
  have hleft : b ∈ setDifference old new ↔ b ∈ old ∧ b ∉ new := mem_setDifference hold hnew b
  have hgot : b ∈ (if old.isEmpty then new else setDifference new old) ↔ b ∈ new ∧ b ∉ old := by
    split_ifs with hempty
    · simp [List.isEmpty_iff.1 hempty]
    · exact mem_setDifference hnew hold b
  rw [h₂.2, h₁.2, Option.map_map]
  congr 1
  funext i
  simp only [Function.comp_apply, hleft, hgot, XmaxChain.moved]
  by_cases ho : b ∈ old <;> by_cases hn : b ∈ new <;> simp [ho, hn]

theorem TallyOk.moveVotes {ctx : MessageContext} (h : TallyOk l) (ha : l.voters.find? vp.voter = some v)
    (hchanges : ¬ (v.proxy ≠ 0 ∧ v.proxy = vp.proxy)) (hplain : vp.proxy ≠ 0 → v.isProxy = 0)
    (hsorted : vp.builders.Pairwise (· < ·)) (hboth : vp.proxy ≠ 0 → vp.builders = [])
    (hcall : XmaxChain.moveVotes ctx l vp v = .ok l') : TallyOk l' := by
  simp only [XmaxChain.moveVotes, bind_eq_ok, Prod.exists, dbDeref_eq_ok] at hcall
  obtain ⟨l₁, old, h₁, l₂, new, h₂, v', hv', l₃, h₃, l₄, h₄, hcall⟩ := hcall
  cases hcall
  obtain ⟨rfl, rfl⟩ := leaveOldProxy_rows ha h₁
  obtain ⟨rfl, hproxy, hdirect⟩ := joinNewProxy_rows h₂
  -- the new proxy's row is not the old one's
  have hrow : vp.proxy ≠ 0 → ∃ w, l.voters.find? vp.proxy = some w ∧ w.isProxy ≠ 0 ∧
      new = w.builders := by
    intro hp
    obtain ⟨w, hw, his, rfl⟩ := hproxy hp
    have hother : ¬ (v.proxy ≠ 0 ∧ vp.proxy = v.proxy) := fun hs => hchanges ⟨hs.1, hs.2.symm⟩
    simp only [adjusted_find?, if_neg hother, Option.map_id'] at hw
    exact ⟨w, hw, his, rfl⟩
  have hc : NewChoice l.voters vp v :=
    ⟨ha, hchanges, hplain, hsorted, hboth, fun hp => (hrow hp).imp fun w hw => ⟨hw.1, hw.2.1⟩⟩
  have hnew : new = chosen l.voters vp := by
    unfold chosen
    split_ifs with hp
    · obtain ⟨w, hw, -, rfl⟩ := hrow hp
      simp [hw]
    · exact hdirect (not_not.1 hp)
  subst hnew
  dsimp only at hv' h₃ h₄
  rw [hc.row_adjusted h.toVotersOk, Option.some_inj] at hv'
  subst hv'
  have hvotes : (if v.isProxy ≠ 0 then u128 (v.staked + v.proxiedVotes) else v.staked) = v.votes := by
    have hlt := h.staked_lt ha
    have hlt' := h.proxied_lt ha
    unfold VoterInfo.votes
    split_ifs
    · exact u128_of_lt (by omega)
    · rfl
  rw [hvotes] at h₃ h₄
  have hold := h.countedFor_sorted ha
  have hchosen := hc.chosen_sorted h.toVotersOk
  have hnodup : ∀ {bs : List AccountName}, bs.Pairwise (· < ·) → bs.Nodup := fun hbs =>
    hbs.imp fun hlt => hlt.ne
  have hrows₃ := tally_rows h₃ ((setDifference_sublist _ _).nodup (hnodup hold))
  have hgot : (if (countedFor l.voters v).isEmpty then chosen l.voters vp
      else setDifference (chosen l.voters vp) (countedFor l.voters v)).Nodup := by
    split_ifs
    · exact hnodup hchosen
    · exact (setDifference_sublist _ _).nodup (hnodup hchosen)
  obtain ⟨hrows₄, hexist⟩ := elect_rows h₄ hgot
  have hvoters : l₄.voters = adjusted (adjusted l.voters v.proxy (subU128 · v.staked)) vp.proxy
      fun p => u128 (p + v.staked) := hrows₄.1.trans hrows₃.1
  refine h.move (countedFor l.voters v) (chosen l.voters vp) v.votes ?_ ?_ ?_ ?_
  · dsimp only
    rw [hvoters]
    exact hc.votersOk h.toVotersOk
  · intro b
    dsimp only
    rw [hvoters]
    exact hc.votesFor h.toVotersOk b
  · exact fun b => hrows₃.moved hold hchosen hrows₄ b
  · intro k w' hw' b hb
    have hkept : ∀ {c}, (l₃.builders.find? c).isSome → (l.builders.find? c).isSome := fun hsome => by
      simpa [hrows₃.2] using hsome
    dsimp only at hw'
    rw [hvoters] at hw'
    obtain ⟨w, hw, heq⟩ := Option.map_eq_some_iff.1 ((hc.rows h.toVotersOk k).symm.trans hw')
    by_cases hk : k = vp.voter
    · -- a builder of the message counted already, or is elected now
      rw [if_pos hk] at heq
      subst heq
      dsimp only at hb
      have hp : vp.proxy = 0 := by
        by_contra hp
        simp [hboth hp] at hb
      have hchosen' : chosen l.voters vp = vp.builders := by simp [chosen, hp]
      by_cases hcounted : b ∈ countedFor l.voters v
      · exact h.countedFor_listed ha b hcounted
      · refine hkept (hexist b ?_)
        split_ifs
        · rwa [hchosen']
        · rw [mem_setDifference hchosen hold, hchosen']
          exact ⟨hb, hcounted⟩
    · rw [if_neg hk] at heq
      have hsame : w'.builders = w.builders := by
        rw [← heq]
        split_ifs <;> rfl
      rw [hsame] at hb
      exact h.listed hw b hb

theorem TallyOk.voteBuilder {codec : Codec} {ctx : MessageContext} {s r : HandlerState}
    (h : TallyOk s.ledger) (hcall : XmaxChain.voteBuilder codec ctx s = .ok r) : TallyOk r.ledger := by
  simp only [XmaxChain.voteBuilder, bind_eq_ok, unpackAs_eq_ok, dbDeref_eq_ok, fcAssert_eq_ok] at hcall
  obtain ⟨vp, -, N, hcheck, -, -, v, ha, -, hproxies, hcall⟩ := hcall
  have hplain : vp.proxy ≠ 0 → v.isProxy = 0 := by
    intro hp
    simpa [hp] using hproxies
  split_ifs at hcall with hkeep
  · cases hcall
    exact h
  · simp only [bind_eq_ok] at hcall
    obtain ⟨l, hl, hcall⟩ := hcall
    cases hcall
    unfold checkVote at hcheck
    split_ifs at hcheck with hp
    · simp only [bind_eq_ok, fcAssert_eq_ok, List.isEmpty_iff] at hcheck
      obtain ⟨-, hempty, -⟩ := hcheck
      exact h.moveVotes ha hkeep hplain (hempty ▸ List.Pairwise.nil) (fun _ => hempty) hl
    · simp only [bind_eq_ok, fcAssert_eq_ok, decide_eq_true_eq] at hcheck
      obtain ⟨-, -, -, hchain, -⟩ := hcheck
      exact h.moveVotes ha hkeep hplain (List.isChain_iff_pairwise.1 hchain) (absurd · hp) hl

end Vote

/-! ## Sequences of calls -/

section Runs

variable {codec : Codec} {l l' : Ledger} {a b : AccountName} {v : VoterInfo}

/-- A call that changes votes. -/
inductive VoteCall
  | increaseVotes (ctx : MessageContext) (acnt : AccountName) (amount : ℕ)
  | decreaseVotes (ctx : MessageContext) (acnt : AccountName) (amount : ℕ)
  | voteBuilder (ctx : MessageContext) (notified : List AccountName)
  | regBuilder (ctx : MessageContext) (notified : List AccountName)
  | unregBuilder (ctx : MessageContext) (notified : List AccountName)
  | regProxy (ctx : MessageContext) (notified : List AccountName)
  | unregProxy (ctx : MessageContext) (notified : List AccountName)

def VoteCall.apply (codec : Codec) (l : Ledger) : VoteCall → Except Fault Ledger
  | increaseVotes ctx acnt amount => XmaxChain.increaseVotes ctx l acnt amount
  | decreaseVotes ctx acnt amount => XmaxChain.decreaseVotes ctx l acnt amount
  | voteBuilder ctx notified => (·.ledger) <$> XmaxChain.voteBuilder codec ctx ⟨l, notified⟩
  | regBuilder ctx notified => (·.ledger) <$> XmaxChain.regBuilder codec ctx ⟨l, notified⟩
  | unregBuilder ctx notified => (·.ledger) <$> XmaxChain.unregBuilder codec ctx ⟨l, notified⟩
  | regProxy ctx notified => (·.ledger) <$> XmaxChain.regProxy codec ctx ⟨l, notified⟩
  | unregProxy ctx notified => (·.ledger) <$> XmaxChain.unregProxy codec ctx ⟨l, notified⟩

/-- A stake changes by a positive amount. -/
def VoteCall.Positive : VoteCall → Prop
  | increaseVotes _ _ amount => 0 < amount
  | decreaseVotes _ _ amount => 0 < amount
  | _ => True

/-- Every stake is a `share_type`; and rows are counted in 63 bits, so that all of them together are less
than `2 ^ 127`. -/
structure StakesFit (V : Voters) : Prop where
  row : ∀ r ∈ V.rows, r.2.staked < 2 ^ 63
  total : stakeTotal V < 2 ^ 127

/-- The ledgers that calls lead to from empty tables. A call that fails leaves nothing behind. -/
inductive VoteRun (codec : Codec) : Ledger → Prop
  | start {l : Ledger} (hv : l.voters = .empty) (hb : l.builders = .empty) : VoteRun codec l
  | call {l l' : Ledger} {c : VoteCall} (hrun : VoteRun codec l) (hpos : c.Positive)
      (hcall : c.apply codec l = .ok l') (hfits : StakesFit l'.voters) : VoteRun codec l'

theorem TallyOk.call (h : TallyOk l) {c : VoteCall} (hpos : c.Positive)
    (hcall : c.apply codec l = .ok l') (hfits : stakeTotal l'.voters < 2 ^ 127) : TallyOk l' := by
  cases c <;> simp only [VoteCall.apply, map_eq_ok] at hcall
  case increaseVotes => exact h.increaseVotes hcall hfits
  case decreaseVotes => exact h.decreaseVotes hpos hcall
  all_goals obtain ⟨r, hcall, rfl⟩ := hcall
  case voteBuilder => exact TallyOk.voteBuilder h hcall
  case regBuilder => exact TallyOk.regBuilder h hcall
  case unregBuilder => exact TallyOk.unregBuilder h hcall
  case regProxy => exact TallyOk.regProxy h hcall
  case unregProxy => exact TallyOk.unregProxy h hcall

theorem VoteRun.tallyOk (h : VoteRun codec l) : TallyOk l := by
  induction h with
  | start hv hb =>
    refine ⟨⟨?_, ?_, ?_, ?_, ?_, ?_⟩, ?_, ?_⟩ <;> simp [hv, hb, stakeTotal, Table.sumRows_empty]
  | call _ hpos hcall hfits ih => exact ih.call hpos hcall hfits.total

/-! ### Subtractions -/

/-- What the loop that takes votes from builders subtracts, each with what it is taken from. -/
def tallySubtractions (n : ℕ) : Ledger → List AccountName → List (ℕ × ℕ)
  | _, [] => []
  | l, p :: bs =>
    match l.builders.find? p with
    | none => []
    | some i => (i.totalVotes, n) :: tallySubtractions n { l with
        builders := l.builders.modify p fun i => { i with totalVotes := subU128 i.totalVotes n } } bs

def proxySubtraction (l : Ledger) (v : VoterInfo) (n : ℕ) : List (ℕ × ℕ) :=
  if v.proxy ≠ 0 then ((l.voters.find? v.proxy).map fun w => (w.proxiedVotes, n)).toList else []

/-- The subtractions of 128-bit numbers that a call makes, also where it fails later on. A vote is
taken to pass the checks before its first subtraction. -/
def VoteCall.subtractions (codec : Codec) (l : Ledger) : VoteCall → List (ℕ × ℕ)
  | decreaseVotes _ acnt amount =>
    match l.voters.find? acnt with
    | some v =>
      if amount ≤ v.staked then
        proxySubtraction l v amount ++ tallySubtractions amount l (countedFor l.voters v)
      else []
    | none => []
  | voteBuilder ctx _ =>
    match codec.votebuilder ctx.msg.data with
    | some vp =>
      match l.voters.find? vp.voter with
      | some v => proxySubtraction l v v.staked ++
          tallySubtractions (if v.isProxy ≠ 0 then u128 (v.staked + v.proxiedVotes) else v.staked) l
            (setDifference (countedFor l.voters v) (chosen l.voters vp))
      | none => []
    | none => []
  | unregProxy ctx _ =>
    match codec.unregproxy ctx.msg.data with
    | some name =>
      match l.voters.find? name with
      | some v =>
        if v.isProxy = 1 then tallySubtractions v.proxiedVotes l v.builders else []
      | none => []
    | none => []
  | _ => []

theorem mem_tallySubtractions {n : ℕ} {bs : List AccountName} (hnodup : bs.Nodup) {q : ℕ × ℕ}
    (hq : q ∈ tallySubtractions n l bs) :
    ∃ b ∈ bs, ∃ i, l.builders.find? b = some i ∧ q = (i.totalVotes, n) := by
  induction bs generalizing l with
  | nil => cases hq
  | cons p bs ih =>
    rw [List.nodup_cons] at hnodup
    unfold tallySubtractions at hq
    split at hq
    · cases hq
    · rename_i i hi
      rcases List.mem_cons.1 hq with rfl | hq
      · exact ⟨p, List.mem_cons_self, i, hi, rfl⟩
      · obtain ⟨b, hb, i', hi', rfl⟩ := ih hnodup.2 hq
        -- the rows already changed are of other builders
        have hne : b ≠ p := fun h => hnodup.1 (h ▸ hb)
        simp only [Table.find?_modify, if_neg hne, Option.map_id'] at hi'
        exact ⟨b, List.mem_cons_of_mem _ hb, i', hi', rfl⟩

/-- The votes of one voter are part of the votes of every builder they count for. -/
theorem TallyOk.votes_le (h : TallyOk l) (ha : l.voters.find? a = some v)
    (hb : b ∈ countedFor l.voters v) {i : BuilderInfoObject} (hi : l.builders.find? b = some i) :
    v.votes ≤ i.totalVotes := by
  rw [h.total hi]
  by_cases hp : v.proxy = 0
  · rw [countedFor, if_neg (not_not.2 hp)] at hb
    have hle : v.votesFor b ≤ votesFor l.voters b :=
      Table.le_sumRows (fun _ (u : VoterInfo) => u.votesFor b) ha
    rwa [VoterInfo.votesFor, if_pos ⟨hp, hb⟩] at hle
  · obtain ⟨w, hw⟩ := h.proxyRow ha hp
    have hown : v.isProxy = 0 := by
      by_contra his
      exact hp (h.plain ha his)
    simp only [countedFor, ne_eq, hp, not_false_eq_true, if_true, hw] at hb
    split_ifs at hb with his
    · cases hb
    · -- the voter's stake is part of its proxy's votes
      have hle : w.votesFor b ≤ votesFor l.voters b :=
        Table.le_sumRows (fun _ (u : VoterInfo) => u.votesFor b) hw
      have hpart := staked_le_delegated ha hp
      rw [← h.proxied hw] at hpart
      rw [VoterInfo.votesFor, if_pos ⟨h.plain hw his, hb⟩, if_pos his] at hle
      simp only [VoterInfo.votes, hown, ne_eq, not_true_eq_false, if_false]
      omega

theorem TallyOk.le_of_mem_proxySubtraction (h : TallyOk l) (ha : l.voters.find? a = some v) {n : ℕ}
    (hn : n ≤ v.staked) {q : ℕ × ℕ} (hq : q ∈ proxySubtraction l v n) : q.2 ≤ q.1 := by
  unfold proxySubtraction at hq
  split_ifs at hq with hp
  · obtain ⟨w, hw⟩ := h.proxyRow ha hp
    simp only [hw, Option.map_some, Option.toList_some, List.mem_singleton] at hq
    subst hq
    have hpart := staked_le_delegated ha hp
    rw [← h.proxied hw] at hpart
    exact hn.trans hpart
  · cases hq

theorem TallyOk.le_of_mem_tallySubtractions (h : TallyOk l) (ha : l.voters.find? a = some v) {n : ℕ}
    (hn : n ≤ v.votes) {bs : List AccountName} (hbs : bs.Sublist (countedFor l.voters v)) {q : ℕ × ℕ}
    (hq : q ∈ tallySubtractions n l bs) : q.2 ≤ q.1 := by
  have hnodup : bs.Nodup := hbs.nodup ((h.countedFor_sorted ha).imp fun hlt => hlt.ne)
  obtain ⟨b, hb, i, hi, rfl⟩ := mem_tallySubtractions hnodup hq
  exact hn.trans (h.votes_le ha (hbs.subset hb) hi)

theorem TallyOk.no_underflow (h : TallyOk l) (c : VoteCall) :
    ∀ q ∈ c.subtractions codec l, q.2 ≤ q.1 := by
  intro q hq
  cases c <;> simp only [VoteCall.subtractions, List.not_mem_nil] at hq
  case decreaseVotes ctx acnt amount =>
    split at hq
    · rename_i v ha
      split_ifs at hq with hle
      · rcases List.mem_append.1 hq with hq | hq
        · exact h.le_of_mem_proxySubtraction ha hle hq
        · refine h.le_of_mem_tallySubtractions ha ?_ (List.Sublist.refl _) hq
          unfold VoterInfo.votes
          omega
      · cases hq
    · cases hq
  case voteBuilder ctx notified =>
    split at hq
    · split at hq
      · rename_i vp _ v ha
        rcases List.mem_append.1 hq with hq | hq
        · exact h.le_of_mem_proxySubtraction ha le_rfl hq
        · refine h.le_of_mem_tallySubtractions ha ?_ (setDifference_sublist _ _) hq
          have hmod : u128 (v.staked + v.proxiedVotes) ≤ v.staked + v.proxiedVotes := Nat.mod_le _ _
          unfold VoterInfo.votes
          split_ifs <;> omega
      · cases hq
    · cases hq
  case unregProxy ctx notified =>
    split at hq
    · split at hq
      · rename_i name _ v ha
        split_ifs at hq with his
        · have his' : v.isProxy ≠ 0 := by omega
          have hcounted : countedFor l.voters v = v.builders := by
            simp [countedFor, h.plain ha his']
          refine h.le_of_mem_tallySubtractions ha ?_ (hcounted ▸ List.Sublist.refl _) hq
          unfold VoterInfo.votes
          rw [if_pos his']
          omega
        · cases hq
      · cases hq
    · cases hq

/-- The votes kept are the votes counted, and no vote is taken from where it is not. -/
theorem votes_counted (h : VoteRun codec l) :
    (∀ b i, l.builders.find? b = some i → i.totalVotes = l.voters.sumRows fun _ v =>
      if v.proxy = 0 ∧ b ∈ v.builders then v.staked + (if v.isProxy ≠ 0 then v.proxiedVotes else 0)
      else 0) ∧
    (∀ p w, l.voters.find? p = some w → w.proxiedVotes = l.voters.sumRows fun _ v =>
      if v.proxy ≠ 0 ∧ v.proxy = p then v.staked else 0) ∧
    ∀ (c : VoteCall), ∀ q ∈ c.subtractions codec l, q.2 ≤ q.1 :=
  ⟨fun _ _ hi => h.tallyOk.total hi, fun _ _ hp => h.tallyOk.proxied hp, h.tallyOk.no_underflow⟩

/-- What a call with the given fields is given. -/
def voteContext (data : Bytes) : MessageContext where
  trx := {}
  msg := ⟨xmaxContractName, .votebuilder, [], data⟩
  code := 0
  currentTime := 0

/-- Account 3 has 5 staked for builder 9, of which 2 are taken back. -/
def votedLedger : Ledger where
  voters := .ofList [(3, { builders := [9], staked := 3 })]
  builders := .ofList [(9, { totalVotes := 3, builderKey := 1 })]

theorem votes_counted_nine :
    votedLedger.builders.find? 9 = some { totalVotes := 3, builderKey := 1 } ∧
      3 = votedLedger.voters.sumRows fun _ v =>
        if v.proxy = 0 ∧ 9 ∈ v.builders then v.staked + (if v.isProxy ≠ 0 then v.proxiedVotes else 0)
        else 0 := by
  have h₁ : VoteRun fieldCodec _ := (VoteRun.start (l := {}) rfl rfl).call
    (c := .increaseVotes (voteContext []) 3 5) (Nat.succ_pos 4) rfl ⟨by decide, by decide⟩
  have h₂ : VoteRun fieldCodec _ := h₁.call (c := .regBuilder (voteContext [9, 1]) []) trivial rfl
    ⟨by decide, by decide⟩
  have h₃ : VoteRun fieldCodec _ := h₂.call (c := .voteBuilder (voteContext [3, 0, 9]) []) trivial rfl
    ⟨by decide, by decide⟩
  have h₄ : VoteRun fieldCodec votedLedger := h₃.call (c := .decreaseVotes (voteContext []) 3 2)
    (Nat.succ_pos 1) rfl ⟨by decide, by decide⟩
  exact ⟨rfl, (votes_counted h₄).1 9 _ rfl⟩

end Runs

end XmaxChain
