import XmaxChain.ForkRun

/-!
# The quorum of a confirmed block

A block should count as confirmed once more than two thirds of its round's verifiers have signed
it, so that two blocks of one round need more than a third to sign both. A pack keeps only the
first valid confirmation it gets, and asks for two thirds rounded down.
-/

namespace XmaxChain

namespace ForkContext

variable {c : Crypto} {f f' : ForkContext} {id : Summary} {conf : BlockConfirmation}

/-- Confirmations that reach the fork database one after the other; one that is refused leaves
nothing. -/
def receive (c : Crypto) (confs : List BlockConfirmation) (f : ForkContext) : ForkContext :=
  confs.foldl (fun f conf =>
    match f.addConfirmation c false conf with
    | .ok f' => f'
    | .error _ => f) f

end ForkContext

/-- The confirmation of a block that its signature check takes. -/
def Accepted (c : Crypto) (rule : BuilderRule) (id : Summary) (conf : BlockConfirmation) : Prop :=
  conf.blockId = id ∧
    c.signerKey conf.builderSignature (conf.digest c) = some (rule.getSignKey conf.verifier)

/-- A valid confirmation is by one of the verifiers of the rule, with its key. -/
def ValidFor (c : Crypto) (rule : BuilderRule) (id : Summary) (conf : BlockConfirmation) : Prop :=
  Accepted c rule id conf ∧ conf.verifier ∈ rule.builders.map (·.builderName)

instance (c : Crypto) (rule : BuilderRule) (id : Summary) : DecidablePred (Accepted c rule id) :=
  fun conf => inferInstanceAs (Decidable (conf.blockId = id ∧ _))

instance (c : Crypto) (rule : BuilderRule) (id : Summary) : DecidablePred (ValidFor c rule id) :=
  fun conf => inferInstanceAs (Decidable (Accepted c rule id conf ∧ _))

/-- The distinct verifiers whose valid confirmations are among those received. -/
def signers (c : Crypto) (rule : BuilderRule) (id : Summary) (confs : List BlockConfirmation) :
    Finset AccountName :=
  ((confs.filter (ValidFor c rule id ·)).map (·.verifier)).toFinset

/-- More than two thirds of the verifiers. -/
def ExceedsTwoThirds (rule : BuilderRule) (s : Finset AccountName) : Prop :=
  2 * rule.number < 3 * s.card

section Signers

variable {c : Crypto} {rule : BuilderRule} {id : Summary} {confs : List BlockConfirmation}

/-- No recovered key is the empty one, so an unknown verifier is never taken. -/
theorem validFor_iff_accepted (hkey : ∀ sig digest, c.recover sig digest ≠ some 0)
    {conf : BlockConfirmation} : ValidFor c rule id conf ↔ Accepted c rule id conf := by
  refine ⟨And.left, fun h => ⟨h, ?_⟩⟩
  by_contra hmem
  have hfind : rule.builders.find? (·.builderName = conf.verifier) = none := by
    rw [List.find?_eq_none]
    intro b hb hname
    exact hmem (List.mem_map.2 ⟨b, hb, of_decide_eq_true hname⟩)
  have hsig := h.2
  unfold BuilderRule.getSignKey Crypto.signerKey at hsig
  rw [hfind] at hsig
  split_ifs at hsig
  exact hkey _ _ hsig

theorem signers_subset : signers c rule id confs ⊆ (rule.builders.map (·.builderName)).toFinset := by
  intro v hv
  simp only [signers, List.mem_toFinset, List.mem_map, List.mem_filter, decide_eq_true_eq] at hv ⊢
  obtain ⟨conf, ⟨-, hvalid⟩, rfl⟩ := hv
  simpa using hvalid.2

theorem signers_card_eq_zero :
    (signers c rule id confs).card = 0 ↔ confs.find? (ValidFor c rule id ·) = none := by
  rw [signers, Finset.card_eq_zero, List.toFinset_eq_empty_iff, List.map_eq_nil_iff,
    List.filter_eq_nil_iff, List.find?_eq_none]

/-- Two sets of more than two thirds share more than one third. -/
theorem third_signed_both {s t : Finset AccountName}
    (hs : s ⊆ (rule.builders.map (·.builderName)).toFinset)
    (ht : t ⊆ (rule.builders.map (·.builderName)).toFinset)
    (hs' : ExceedsTwoThirds rule s) (ht' : ExceedsTwoThirds rule t) :
    rule.number < 3 * (s ∩ t).card := by
  have hunion : (s ∪ t).card ≤ rule.number := by
    refine (Finset.card_le_card (Finset.union_subset hs ht)).trans ?_
    refine (List.toFinset_card_le _).trans ?_
    simp [BuilderRule.number]
  have := Finset.card_union_add_card_inter s t
  unfold ExceedsTwoThirds at hs' ht'
  omega

end Signers

namespace ForkContext

variable {c : Crypto} {f f' : ForkContext} {id : Summary} {conf : BlockConfirmation}

theorem setLastConfirmed_keeps {last : Summary} (h : f.setLastConfirmed last = .ok f') :
    f'.packs = f.packs ∧ ∀ a, (f'.objs a).confirmations = (f.objs a).confirmations
      ∧ (f'.objs a).currentBuilders = (f.objs a).currentBuilders := by
  unfold setLastConfirmed at h
  split_ifs at h
  cases h
  refine ⟨(modifyAll_frame _).1, fun a => ?_⟩
  rw [modifyAll_objs (markConfirmed_idem _ _)]
  split_ifs <;> exact ⟨rfl, rfl⟩

/-- A pack takes the first confirmation that is accepted, and alone. -/
theorem addConfirmation_first {p p' : BlockPack} (h : p.addConfirmation c false conf = .ok p') :
    p'.currentBuilders = p.currentBuilders ∧
      p'.confirmations =
        if Accepted c p.currentBuilders conf.blockId conf ∧ p.confirmations = [] then [conf]
        else p.confirmations := by
  unfold BlockPack.addConfirmation at h
  simp only [Bool.false_eq_true, if_false] at h
  split_ifs at h with hnil
  · cases h
    simp [hnil]
  · rw [ne_eq, not_not] at hnil
    split at h
    · cases h
    · rename_i key hkey
      split_ifs at h with hsame
      cases h
      simp [Accepted, hkey, hsame, hnil]

theorem addConfirmation_refuses {p : BlockPack} {e : Fault}
    (h : p.addConfirmation c false conf = .error e) :
    ¬ (Accepted c p.currentBuilders conf.blockId conf ∧ p.confirmations = []) := by
  rintro ⟨⟨-, hsig⟩, hnil⟩
  simp [BlockPack.addConfirmation, hnil, hsig] at h

/-- What one more confirmation does to the confirmations of a pack. -/
theorem receive_one (conf : BlockConfirmation) (hid : id ∈ f.packs) :
    (receive c [conf] f).packs = f.packs ∧
      ((receive c [conf] f).objs id).currentBuilders = (f.objs id).currentBuilders ∧
      ((receive c [conf] f).objs id).confirmations =
        if Accepted c (f.objs id).currentBuilders id conf ∧ (f.objs id).confirmations = [] then [conf]
        else (f.objs id).confirmations := by
  simp only [receive, List.foldl_cons, List.foldl_nil, ForkContext.addConfirmation, getBlock]
  by_cases hmem : conf.blockId ∈ f.packs
  swap
  · have hne : ¬ Accepted c (f.objs id).currentBuilders id conf := fun h => hmem (h.1 ▸ hid)
    simp [hmem, hne]
  simp only [hmem, if_true]
  cases hp : (f.objs conf.blockId).addConfirmation c false conf with
  | error e =>
    have hno := addConfirmation_refuses hp
    refine ⟨rfl, rfl, ?_⟩
    rw [if_neg]
    · rfl
    · rintro ⟨hacc, hnil⟩
      obtain rfl := hacc.1
      exact hno ⟨hacc, hnil⟩
  | ok p =>
    obtain ⟨hrule, hconfs⟩ := addConfirmation_first hp
    -- the pack with its confirmations, before anything is marked
    have hobj : ((f.modifyObj conf.blockId fun _ => p).objs id).currentBuilders
          = (f.objs id).currentBuilders ∧
        ((f.modifyObj conf.blockId fun _ => p).objs id).confirmations =
          if Accepted c (f.objs id).currentBuilders id conf ∧ (f.objs id).confirmations = []
          then [conf] else (f.objs id).confirmations := by
      rw [modifyObj_objs, Function.update_apply]
      by_cases heq : id = conf.blockId
      · subst heq
        rw [if_pos rfl]
        exact ⟨hrule, hconfs⟩
      · have hne : ¬ Accepted c (f.objs id).currentBuilders id conf := fun h => heq h.1.symm
        simp [heq, hne]
    simp only [bind, Except.bind]
    by_cases henough : p.enoughConfirmation = true ∧ p.lastConfirmedNum < p.blockNum
    · rw [if_pos henough]
      cases hlast : (f.modifyObj conf.blockId fun _ => p).setLastConfirmed conf.blockId with
      | error e =>
        unfold setLastConfirmed at hlast
        rw [if_pos (by simpa using hmem)] at hlast
        cases hlast
      | ok f₂ =>
        obtain ⟨hpacks, hkeep⟩ := setLastConfirmed_keeps hlast
        exact ⟨hpacks, (hkeep id).2.trans hobj.1, (hkeep id).1.trans hobj.2⟩
    · rw [if_neg henough]
      exact ⟨rfl, hobj⟩

/-- After any confirmations a fresh pack holds the first that is accepted and no other. -/
theorem receive_confirmations (confs : List BlockConfirmation) (hid : id ∈ f.packs)
    (hfresh : (f.objs id).confirmations = []) :
    ((receive c confs f).objs id).currentBuilders = (f.objs id).currentBuilders ∧
      ((receive c confs f).objs id).confirmations =
        (confs.find? (Accepted c (f.objs id).currentBuilders id ·)).toList := by
  suffices h : ∀ kept : List BlockConfirmation, (f.objs id).confirmations = kept →
      ((receive c confs f).objs id).currentBuilders = (f.objs id).currentBuilders ∧
        ((receive c confs f).objs id).confirmations = if kept = [] then
          (confs.find? (Accepted c (f.objs id).currentBuilders id ·)).toList else kept by
    simpa using h [] hfresh
  clear hfresh
  induction confs generalizing f with
  | nil =>
    intro kept hkept
    simp only [receive, List.foldl_nil, hkept]
    split_ifs with hnil <;> simp [hnil]
  | cons conf confs ih =>
    intro kept hkept
    obtain ⟨hpacks, hrule, hconfs⟩ := receive_one (c := c) conf hid
    obtain ⟨hrule', hconfs'⟩ := ih (f := receive c [conf] f) (by rwa [hpacks]) _ hconfs
    rw [hrule] at hrule' hconfs'
    refine ⟨hrule', hconfs'.trans ?_⟩
    rw [hkept]
    by_cases hnil : kept = []
    · by_cases hacc : Accepted c (f.objs id).currentBuilders id conf
      · simp [hnil, hacc]
      · simp [hnil, hacc]
    · simp [hnil]

end ForkContext

/-- The pack is confirmed exactly when more than two thirds of its round's verifiers have signed it
validly. -/
def QuorumMet (c : Crypto) (f : ForkContext) (id : Summary) (confs : List BlockConfirmation) : Prop :=
  ((f.receive c confs).objs id).enoughConfirmation = true ↔
    ExceedsTwoThirds (f.objs id).currentBuilders (signers c (f.objs id).currentBuilders id confs)

/-- The numbers of verifiers and signers for which the first signer alone decides rightly: a single
verifier that has signed, two of which not just one has, or more of which no quorum has. -/
def FirstDecides (n signed : ℕ) : Prop :=
  n = 1 ∧ signed ≠ 0 ∨ n = 2 ∧ signed ≠ 1 ∨ 3 ≤ n ∧ 3 * signed ≤ 2 * n

section Quorum

variable {c : Crypto} {f : ForkContext} {id : Summary} {confs : List BlockConfirmation}

/-- The threshold, two thirds rounded down, against one kept confirmation. -/
theorem enoughConfirmation_receive (hkey : ∀ sig digest, c.recover sig digest ≠ some 0)
    (hid : id ∈ f.packs) (hfresh : (f.objs id).confirmations = []) :
    ((f.receive c confs).objs id).enoughConfirmation = true ↔
      (f.objs id).currentBuilders.number * 2 / 3 ≤
        if (signers c (f.objs id).currentBuilders id confs).card = 0 then 0 else 1 := by
  obtain ⟨hrule, hconfs⟩ := ForkContext.receive_confirmations (c := c) confs hid hfresh
  have hlen : ((f.receive c confs).objs id).confirmations.length
      = if (signers c (f.objs id).currentBuilders id confs).card = 0 then 0 else 1 := by
    simp only [hconfs, signers_card_eq_zero, validFor_iff_accepted hkey]
    cases confs.find? (Accepted c (f.objs id).currentBuilders id ·) <;> rfl
  unfold BlockPack.enoughConfirmation
  rw [decide_eq_true_eq, hrule, hlen]

/-- A pack is confirmed as it should be exactly when the first signer alone decides rightly; two
blocks of one round that are confirmed so share more than a third of the verifiers. -/
theorem confirmation_quorum_iff (hkey : ∀ sig digest, c.recover sig digest ≠ some 0)
    (hid : id ∈ f.packs) (hfresh : (f.objs id).confirmations = [])
    (hn : 1 ≤ (f.objs id).currentBuilders.number) :
    (QuorumMet c f id confs ↔ FirstDecides (f.objs id).currentBuilders.number
        (signers c (f.objs id).currentBuilders id confs).card) ∧
      ∀ id' ∈ f.packs, (f.objs id').confirmations = [] →
        (f.objs id').currentBuilders = (f.objs id).currentBuilders →
        FirstDecides (f.objs id).currentBuilders.number
          (signers c (f.objs id).currentBuilders id confs).card →
        FirstDecides (f.objs id).currentBuilders.number
          (signers c (f.objs id).currentBuilders id' confs).card →
        ((f.receive c confs).objs id).enoughConfirmation = true →
        ((f.receive c confs).objs id').enoughConfirmation = true →
        (f.objs id).currentBuilders.number <
          3 * (signers c (f.objs id).currentBuilders id confs ∩
            signers c (f.objs id).currentBuilders id' confs).card := by
  have hiff : ∀ id ∈ f.packs, (f.objs id).confirmations = [] →
      1 ≤ (f.objs id).currentBuilders.number →
      (QuorumMet c f id confs ↔ FirstDecides (f.objs id).currentBuilders.number
        (signers c (f.objs id).currentBuilders id confs).card) := by
    intro id hid hfresh hn
    have hle : (signers c (f.objs id).currentBuilders id confs).card
        ≤ (f.objs id).currentBuilders.number := by
      refine (Finset.card_le_card signers_subset).trans ((List.toFinset_card_le _).trans ?_)
      simp [BuilderRule.number]
    unfold QuorumMet FirstDecides ExceedsTwoThirds
    rw [enoughConfirmation_receive hkey hid hfresh]
    split_ifs <;> omega
  refine ⟨hiff id hid hfresh hn, fun id' hid' hfresh' hsame hdec hdec' henough henough' => ?_⟩
  have hmet' := hiff id' hid' hfresh' (by rwa [hsame])
  rw [QuorumMet, hsame] at hmet'
  exact third_signed_both signers_subset signers_subset
    (((hiff id hid hfresh hn).2 hdec).1 henough) ((hmet'.2 hdec').1 henough')

end Quorum

/-- A signature is its signer's key, and the empty one recovers none. -/
def keyCrypto : Crypto :=
  { stampCrypto with recover := fun sig _ => if sig = 0 then none else some sig }

def threeBuilders : List BuilderInfo := [⟨1, 11⟩, ⟨2, 12⟩, ⟨3, 13⟩]

def threeBuilderGenesis : BlockPack := BlockPack.genesis keyCrypto 100 7 7 [] threeBuilders

/-- The first block of the round of the three builders. -/
def roundBlock : SignedBlock :=
  { previous := threeBuilderGenesis.blockId, timestamp := 121, builder := 1
    nextBuilders := some ⟨3, threeBuilders⟩, builderSignature := 11 }

def roundId : Summary := roundBlock.id keyCrypto

def roundFork : ForkContext :=
  (stateOf (forkStep keyCrypto (.addBlock roundBlock)
    ((.genesis threeBuilderGenesis, ⟨[], 0, { cur := (), revision := 1 }⟩, []) : ForkState Unit))).1

def confirmationOf (b : BuilderInfo) : BlockConfirmation := ⟨roundId, b.builderName, b.blockSigningKey⟩

theorem confirmation_quorum_iff_two_signers :
    QuorumMet keyCrypto roundFork roundId ((threeBuilders.take 2).map confirmationOf) := by
  have hkey : ∀ sig digest, keyCrypto.recover sig digest ≠ some 0 := by
    intro sig digest h
    simp only [keyCrypto, Option.ite_none_left_eq_some] at h
    exact h.1 (Option.some.inj h.2)
  refine (confirmation_quorum_iff hkey ?_ ?_ ?_).1.2 (.inr (.inr ⟨?_, ?_⟩)) <;> decide

/-- All three verifiers of a block sign it and it is not confirmed. -/
theorem three_signers_not_enough :
    roundId ∈ roundFork.packs ∧ (roundFork.objs roundId).currentBuilders.number = 3 ∧
      (signers keyCrypto (roundFork.objs roundId).currentBuilders roundId
        (threeBuilders.map confirmationOf)).card = 3 ∧
      ¬ QuorumMet keyCrypto roundFork roundId (threeBuilders.map confirmationOf) := by
  refine ⟨by decide, by decide, by decide, fun h => ?_⟩
  have hnot : ¬ ((roundFork.receive keyCrypto (threeBuilders.map confirmationOf)).objs
      roundId).enoughConfirmation = true := by decide
  refine hnot (h.2 ?_)
  unfold ExceedsTwoThirds
  decide

end XmaxChain
