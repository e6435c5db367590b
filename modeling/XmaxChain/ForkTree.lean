import XmaxChain.CheckFork

/-!
# The tree of packs

`fetch_branch_from_fork` walks up from the higher of two packs to the number of the lower one, then
up from both at once. On equal numbers neither pack is above the other, so a pack above both stays
above both with every step, and the walks cannot pass where they first meet.

`remove_chain` is to take out what is below a block, but it stops at no parent's id: it takes the
subtree alone only where every pack with a parent's id from the block's on is in it.
-/

namespace XmaxChain

open ParentWalk

namespace ForkContext

/-! ## Where two branches meet -/

section Meet

variable {f : ForkContext}

/-- Every pack has the number after its parent's. -/
def NumbersFollow (f : ForkContext) : Prop :=
  ∀ a ∈ f.packs, f.up a ∈ f.packs → (f.objs (f.up a)).blockNum + 1 = (f.objs a).blockNum

/-- The way up ends at the number asked for, and below every pack above it that is not higher. -/
theorem fetchDown_ok (hnum : f.NumbersFollow) {num : ℕ} {x : Summary} (hx : (f.objs x).blockNum ≤ num) :
    ∀ {fuel : ℕ} {a : Summary}, (f.objs a).blockNum < fuel → f.Anc a x →
    ∃ l y, f.fetchDown num fuel a = .ok (l, y) ∧ (f.objs y).blockNum = min num (f.objs a).blockNum ∧
      ∀ z, f.Anc a z → (f.objs z).blockNum ≤ num → f.Anc y z
  | fuel + 1, a, hfuel, hanc => by
    unfold fetchDown
    split_ifs with hlt
    · have hne : ∀ z, (f.objs z).blockNum ≤ num → a ≠ z := by
        rintro z hz rfl
        omega
      have hup : f.Anc (f.up a) x := hanc.up_of_ne (hne x hx)
      have hnext := hnum a hanc.mem_left hup.mem_left
      have hfuel' : (f.objs (f.up a)).blockNum < fuel := by omega
      obtain ⟨l, y, hrun, hy, hlow⟩ := fetchDown_ok hnum hx hfuel' hup
      refine ⟨a :: l, y, ?_, by omega, fun z hz hle => hlow z (hz.up_of_ne (hne z hle)) hle⟩
      rw [fetchUp_eq_ok.2 ⟨hup.mem_left, rfl⟩]
      change (f.fetchDown num fuel (f.up a) >>= _) = _
      rw [hrun]
      rfl
    · exact ⟨[], a, rfl, by omega, fun z hz _ => hz⟩

/-- Two packs of one number with a pack above both: the walks end, at the lowest such pack. -/
theorem fetchMeet_ok (hnum : f.NumbersFollow) {x : Summary} : ∀ {fuel : ℕ} {a b : Summary},
    (f.objs a).blockNum < fuel → (f.objs a).blockNum = (f.objs b).blockNum →
    f.Anc a x → f.Anc b x →
    ∃ r, f.fetchMeet fuel a b = .ok r ∧ ∀ z, f.Anc a z → f.Anc b z → f.Anc r.forkNode z
  | fuel + 1, a, b, hfuel, hab, hax, hbx => by
    unfold fetchMeet
    split_ifs with heq
    · exact ⟨⟨a, [], []⟩, rfl, fun z hz _ => hz⟩
    · have hne : ∀ z, f.Anc a z → f.Anc b z → a ≠ z ∧ b ≠ z := fun z haz hbz => by
        refine ⟨?_, ?_⟩
        · rintro rfl
          exact heq (hbz.eq_of_rank_of_known (r := fun p => (f.objs p).blockNum) hnum hab)
        · rintro rfl
          exact heq (haz.eq_of_rank_of_known (r := fun p => (f.objs p).blockNum) hnum hab.symm).symm
      obtain ⟨hxa, hxb⟩ := hne x hax hbx
      have hupa := hax.up_of_ne hxa
      have hupb := hbx.up_of_ne hxb
      have hnexta := hnum a hax.mem_left hupa.mem_left
      have hnextb := hnum b hbx.mem_left hupb.mem_left
      have hfuel' : (f.objs (f.up a)).blockNum < fuel := by omega
      obtain ⟨r, hrun, hlow⟩ := fetchMeet_ok hnum hfuel' (by omega) hupa hupb
      refine ⟨{ r with first := a :: r.first, second := b :: r.second }, ?_, fun z hza hzb => ?_⟩
      · rw [fetchUp_eq_ok.2 ⟨hupa.mem_left, rfl⟩, fetchUp_eq_ok.2 ⟨hupb.mem_left, rfl⟩]
        change (f.fetchMeet fuel (f.up a) (f.up b) >>= _) = _
        rw [hrun]
        rfl
      · obtain ⟨hnea, hneb⟩ := hne z hza hzb
        exact hlow z (hza.up_of_ne hnea) (hzb.up_of_ne hneb)

/-- What `fetch_branch_from_fork` gives for two packs with a pack above both. -/
theorem fetchBranchFromFork_lowest (hnum : f.NumbersFollow) {a b x : Summary} (hax : f.Anc a x)
    (hbx : f.Anc b x) :
    ∃ r, f.fetchBranchFromFork a b = .ok r ∧
      ∀ z, f.Anc a z → f.Anc b z → f.Anc r.forkNode z := by
  have hle : ∀ {p z}, f.Anc p z → (f.objs z).blockNum ≤ (f.objs p).blockNum := fun h =>
    h.rank_le_of_known (r := fun p => (f.objs p).blockNum) hnum
  obtain ⟨first, a', ha', hnuma, hlowa⟩ := fetchDown_ok hnum (hle hbx) (Nat.lt_succ_self _) hax
  have hax' : f.Anc a' x := hlowa x hax (hle hbx)
  obtain ⟨second, b', hb', hnumb, hlowb⟩ := fetchDown_ok hnum (hle hax') (Nat.lt_succ_self _) hbx
  have hbx' : f.Anc b' x := hlowb x hbx (hle hax')
  have heq : (f.objs a').blockNum = (f.objs b').blockNum := by omega
  obtain ⟨r, hr, hlow⟩ := fetchMeet_ok hnum (Nat.lt_succ_self _) heq hax' hbx'
  refine ⟨{ r with first := first ++ r.first, second := second ++ r.second }, ?_, fun z haz hbz => ?_⟩
  · unfold fetchBranchFromFork
    refine bind_eq_ok.2 ⟨(), fcAssert_eq_ok.2 (decide_eq_true hax.mem_left), ?_⟩
    refine bind_eq_ok.2 ⟨(), fcAssert_eq_ok.2 (decide_eq_true hbx.mem_left), ?_⟩
    refine bind_eq_ok.2 ⟨_, ha', bind_eq_ok.2 ⟨_, hb', ?_⟩⟩
    exact bind_eq_ok.2 ⟨(), fcAssert_eq_ok.2 (beq_iff_eq.2 heq), bind_eq_ok.2 ⟨r, hr, rfl⟩⟩
  · have haz' : f.Anc a' z := hlowa z haz (hle hbz)
    exact hlow z haz' (hlowb z hbz (hle haz'))

/-- The branches of two packs with a pack above both are found: they lead up from the packs to the
lowest pack above both, which neither contains. -/
theorem fetchBranchFromFork_meet (hnum : f.NumbersFollow) {a b x : Summary} (hax : f.Anc a x)
    (hbx : f.Anc b x) :
    ∃ r, f.fetchBranchFromFork a b = .ok r ∧ Meet f.up f.packs a b r.forkNode ∧
      Way f.up f.packs a r.first r.forkNode ∧ Way f.up f.packs b r.second r.forkNode ∧
      r.first.Disjoint r.second ∧ (r.first = [] ↔ a = r.forkNode) ∧
      (r.second = [] ↔ b = r.forkNode) := by
  obtain ⟨r, hr, hlow⟩ := fetchBranchFromFork_lowest hnum hax hbx
  obtain ⟨hfirst, hsecond⟩ := fetchBranchFromFork_ways hr
  have hmeet : Meet f.up f.packs a b r.forkNode := ⟨hfirst.anc, hsecond.anc, hlow⟩
  let number (p : Summary) : ℕ := (f.objs p).blockNum
  exact ⟨r, hr, hmeet, hfirst, hsecond, hfirst.disjoint (r := number) hnum hsecond hmeet,
    hfirst.eq_nil_iff (r := number) hnum, hsecond.eq_nil_iff (r := number) hnum⟩

/-- Two blocks on genesis and one on the first of them. -/
def twoBranches : List ForkOp :=
  [.addBlock (xmaxBlock twoBuilderGenesis.blockId 101),
    .addBlock (xmaxBlock twoBuilderGenesis.blockId 102), .addBlock blockThree]

/-- The second block on genesis. -/
def sideBlock : Summary := (xmaxBlock twoBuilderGenesis.blockId 102).id stampCrypto

theorem twoBranches_anc :
    ∀ a ∈ (forkAfter twoBranches).1.packs, (forkAfter twoBranches).1.Anc a twoBuilderGenesis.blockId := by
  have hG : (forkAfter twoBranches).1.Anc twoBuilderGenesis.blockId twoBuilderGenesis.blockId :=
    .refl (by decide)
  have hchild : ∀ a ∈ (forkAfter twoBranches).1.packs,
      (forkAfter twoBranches).1.up a = twoBuilderGenesis.blockId →
      (forkAfter twoBranches).1.Anc a twoBuilderGenesis.blockId := fun a ha hup =>
    .step ha (by rw [hup]; exact hG)
  have hcases : ∀ a ∈ (forkAfter twoBranches).1.packs, a = twoBuilderGenesis.blockId ∨
      (forkAfter twoBranches).1.up a = twoBuilderGenesis.blockId ∨
      (forkAfter twoBranches).1.up a = blockThree.previous := by decide
  intro a ha
  rcases hcases a ha with rfl | hup | hup
  · exact hG
  · exact hchild a ha hup
  · refine .step ha ?_
    rw [hup]
    exact hchild _ (by decide) (by decide)

theorem fetchBranchFromFork_meet_side :
    ∃ r, (forkAfter twoBranches).1.fetchBranchFromFork (blockThree.id stampCrypto) sideBlock = .ok r ∧
      r.forkNode = twoBuilderGenesis.blockId ∧ r.first.Disjoint r.second := by
  have hnum : (forkAfter twoBranches).1.NumbersFollow := by
    unfold NumbersFollow
    decide
  obtain ⟨r, hr, -, -, -, hdisjoint, -⟩ := fetchBranchFromFork_meet hnum
    (a := blockThree.id stampCrypto) (b := sideBlock) (twoBranches_anc _ (by decide))
    (twoBranches_anc _ (by decide))
  obtain ⟨r', hr', hnode⟩ : ∃ r, (forkAfter twoBranches).1.fetchBranchFromFork
      (blockThree.id stampCrypto) sideBlock = .ok r ∧ r.forkNode = twoBuilderGenesis.blockId :=
    exists_ok_of_eval (by decide)
  rw [hr] at hr'
  cases hr'
  exact ⟨r, hr, hnode, hdisjoint⟩

end Meet

/-! ## Removing a subtree -/

section Subtree

variable {c : Crypto} {f f' : ForkContext} {start : Summary}

/-- What is below a block, itself included, is gone, and the rest is as it was, with the first by
rank as the head. -/
structure SubtreeRemoved (f : ForkContext) (start : Summary) (f' : ForkContext) : Prop where
  container : Container f'
  objs : f'.objs = f.objs
  packs : ∀ a, a ∈ f'.packs ↔ a ∈ f.packs ∧ ¬ f.Anc a start
  head : f'.head ∈ f'.packs
  first : ∀ a ∈ f'.packs, longestLe (f'.objs f'.head) (f'.objs a)

theorem longestLe_refl (p : BlockPack) : longestLe p p :=
  .inr ⟨rfl, .inr ⟨rfl, .inr ⟨rfl, le_rfl⟩⟩⟩

/-- The head that `update_head` finds in a container that is not empty. -/
theorem Container.updateHead (hc : Container f) {a : Summary} (ha : a ∈ f.packs) :
    ∃ top, f.updateHead = .ok (f.withHead top) ∧ top ∈ f.packs ∧
      ∀ b ∈ f.packs, longestLe (f.objs top) (f.objs b) := by
  obtain ⟨top, rest, hl⟩ : ∃ top rest, f.byLongest = top :: rest :=
    List.exists_cons_of_ne_nil (List.ne_nil_of_mem (hc.permLongest.mem_iff.2 ha))
  refine ⟨top, by simp [ForkContext.updateHead, hl], ?_, fun b hb => ?_⟩
  · exact hc.permLongest.mem_iff.1 (by rw [hl]; exact List.mem_cons_self)
  · have hsorted := hc.sortedLongest
    have hmem := hc.permLongest.mem_iff.2 hb
    rw [hl] at hsorted hmem
    rcases List.mem_cons.1 hmem with rfl | hmem
    · exact longestLe_refl _
    · exact (List.pairwise_cons.1 hsorted).1 b hmem

/-- What is below a block is doomed with it. -/
theorem Linked.doomed_of_anc (hl : Linked c f) {a : Summary} (h : f.Anc a start) (hne : a ≠ start) :
    f.doomed start a = true := by
  have hup : f.Anc (f.up a) start := h.up_of_ne hne
  by_cases heq : f.up a = start
  · rw [doomed, heq]
    exact start.ble_refl
  · have hle := (hup.up_of_ne heq).rank_le hl.upNum
    have := hl.upNum _ hup.mem_left
    exact Summary.ble_of_num_lt (by omega)

/-- With a pack left outside the subtree, `remove_chain` removes the subtree and nothing else just
if every pack whose parent's id is not smaller than the block's is in the subtree. -/
theorem removeChain_subtree_iff (hc : Container f) (hl : Linked c f) (hstart : start ∈ f.packs)
    (hrest : ∃ a ∈ f.packs, ¬ f.Anc a start) :
    (∃ f', f.removeChain start = .ok f' ∧ SubtreeRemoved f start f') ↔
      ∀ a ∈ f.packs, start.ble (f.up a) = true → f.Anc a start := by
  obtain ⟨f₁, hf₁, hc₁, hobjs, -, hmem⟩ := removeLoop_eq start hc hl
  have hrun : f.removeChain start = f₁.updateHead := by
    unfold ForkContext.removeChain
    rw [hf₁]
    rfl
  constructor
  · rintro ⟨f', hf', hremoved⟩ a ha hdoomed
    rw [hrun, ForkContext.updateHead] at hf'
    by_contra hanc
    have ha' := (hremoved.packs a).2 ⟨ha, hanc⟩
    split at hf'
    · cases hf'
    · cases hf'
      have := ((hmem a).1 ha').2.2
      rw [doomed, hdoomed] at this
      cases this
  · intro hall
    have hkept : ∀ a, a ∈ f₁.packs ↔ a ∈ f.packs ∧ ¬ f.Anc a start := fun a => by
      rw [hmem a]
      refine and_congr_right fun ha => ⟨fun h hanc => ?_, fun hanc => ⟨?_, ?_⟩⟩
      · rw [hl.doomed_of_anc hanc h.1] at h
        cases h.2
      · rintro rfl
        exact hanc (.refl hstart)
      · by_contra hd
        rw [Bool.not_eq_false] at hd
        exact hanc (hall a ha hd)
    obtain ⟨a, ha, hanc⟩ := hrest
    obtain ⟨top, htop, hin, hfirst⟩ := hc₁.updateHead ((hkept a).2 ⟨ha, hanc⟩)
    refine ⟨f₁.withHead top, hrun.trans htop, ?_, hobjs, hkept, hin, hfirst⟩
    exact ⟨hc₁.nodup, hc₁.permNumber, hc₁.permLongest, hc₁.sortedNumber, hc₁.sortedLongest⟩

/-- The two branches with a block on the side block as well. -/
def twoLongBranches : List ForkOp := twoBranches ++ [.addBlock (xmaxBlock sideBlock 103)]

theorem twoLongBranches_container : Container (forkAfter twoLongBranches).1 :=
  ⟨by decide, by decide, by decide, by decide, by decide⟩

theorem twoLongBranches_linked : Linked stampCrypto (forkAfter twoLongBranches).1 :=
  ⟨by decide, by decide, by decide, by decide, by decide⟩

theorem genesis_not_below {start : Summary} (h : start ≠ twoBuilderGenesis.blockId) :
    ¬ (forkAfter twoLongBranches).1.Anc twoBuilderGenesis.blockId start := fun hanc =>
  twoLongBranches_linked.empty_not_mem (hanc.up_of_ne h.symm).mem_left

/-- The highest block of a branch is removed alone. -/
theorem removeChain_subtree_top :
    ∃ f', (forkAfter twoLongBranches).1.removeChain (blockThree.id stampCrypto) = .ok f' ∧
      SubtreeRemoved (forkAfter twoLongBranches).1 (blockThree.id stampCrypto) f' := by
  refine (removeChain_subtree_iff twoLongBranches_container twoLongBranches_linked
    (by decide) ⟨twoBuilderGenesis.blockId, by decide,
      genesis_not_below (by decide)⟩).2 ?_
  have hnone : ∀ a ∈ (forkAfter twoLongBranches).1.packs,
      (blockThree.id stampCrypto).ble ((forkAfter twoLongBranches).1.up a) = false := by
    decide
  intro a ha hdoomed
  rw [hnone a ha] at hdoomed
  cases hdoomed

/-- Removing the first block on genesis takes the block on its sibling with it. -/
theorem removeChain_other_branch :
    let f := (forkAfter twoLongBranches).1
    let start := blockThree.previous
    Container f ∧ Linked stampCrypto f ∧ start ∈ f.packs ∧ (∃ a ∈ f.packs, ¬ f.Anc a start) ∧
      ¬ ∃ f', f.removeChain start = .ok f' ∧ SubtreeRemoved f start f' := by
  refine ⟨twoLongBranches_container, twoLongBranches_linked, by decide,
    ⟨twoBuilderGenesis.blockId, by decide, genesis_not_below (by decide)⟩, ?_⟩
  rintro ⟨f', hf', hremoved⟩
  obtain ⟨f₁, hf₁, hgone⟩ : ∃ f', (forkAfter twoLongBranches).1.removeChain blockThree.previous
      = .ok f' ∧ (xmaxBlock sideBlock 103).id stampCrypto ∉ f'.packs :=
    exists_ok_of_eval (by decide)
  rw [hf'] at hf₁
  cases hf₁
  refine hgone ((hremoved.packs _).2 ⟨by decide, fun hanc => ?_⟩)
  have hup := hanc.up_of_ne (by decide)
  have heq := hup.eq_of_rank twoLongBranches_linked.upNum (by decide)
  revert heq
  decide

end Subtree

end ForkContext

end XmaxChain
