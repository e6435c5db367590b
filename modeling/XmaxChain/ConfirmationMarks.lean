import XmaxChain.ForkInv

/-!
# The marks that a confirmation leaves

`set_last_confirmed` with its loops: up from the block as far as there are packs, and down through a list that grows
while it is gone through. In a tree both loops end, and what they mark are the branches through the block. A mark is
set whatever number was there before.
-/

namespace XmaxChain

open ParentWalk

namespace ForkContext

/-! ## The loops -/

section Loops

variable (num : ℕ) (last : Summary)

/-- The loop that marks all blocks before. -/
def flashPre : ℕ → Summary → ForkContext → Except Fault ForkContext
  | 0, _, _ => .error .diverged
  | fuel + 1, preId, f =>
    if preId ∈ f.packs ∧ preId ≠ emptyChainId then
      flashPre fuel (f.up preId) (f.modify preId (markConfirmed num last))
    else .ok f

/-- The loop that lists all blocks after, at the position `i` of the list. -/
def findNext (f : ForkContext) : ℕ → ℕ → List Summary → Except Fault (List Summary)
  | 0, _, _ => .error .diverged
  | fuel + 1, i, idlist =>
    match idlist[i]? with
    | none => .ok idlist
    | some id => findNext f fuel (i + 1) (idlist ++ children f.up f.packs id)

def flashNext (f : ForkContext) (idlist : List Summary) : ForkContext :=
  idlist.tail.foldl (fun f id => if id ∈ f.packs then f.modify id (markConfirmed num last) else f) f

end Loops

def setLastConfirmedLoops (fuel : ℕ) (last : Summary) (f : ForkContext) : Except Fault ForkContext :=
  if last ∈ f.packs then do
    let num := (f.objs last).blockNum
    let f := f.modify last (markConfirmed num last)
    let f ← flashPre num last fuel (f.up last) f
    let idlist ← f.findNext fuel 0 [last]
    .ok (f.flashNext num last idlist)
  else .error (.fc "unknown block id")

/-- The packs form a tree by the ids of their previous blocks: each is there once, none comes before itself, and the
id before genesis is no pack's. -/
structure IsTree (f : ForkContext) : Prop where
  nodup : f.packs.Nodup
  acyclic : ∀ a ∈ f.packs, ¬ f.Anc (f.up a) a
  empty : emptyChainId ∉ f.packs

section Facts

variable {f f' : ForkContext} {id last : Summary} {num fuel : ℕ}

@[simp] theorem modify_markConfirmed_up : (f.modify id (markConfirmed num last)).up = f.up := by
  funext a
  rw [ForkContext.up, modify_objs, Function.update_apply]
  split_ifs with ha
  · rw [ha]
    rfl
  · rfl

/-- Marking a list of packs leaves the tree. -/
theorem modifyAll_markConfirmed (ids : List Summary) :
    (f.modifyAll (markConfirmed num last) ids).packs = f.packs ∧
      (f.modifyAll (markConfirmed num last) ids).up = f.up := by
  induction ids generalizing f with
  | nil => exact ⟨rfl, rfl⟩
  | cons id ids ih =>
    obtain ⟨hpacks, hup⟩ := ih (f := f.modify id (markConfirmed num last))
    exact ⟨hpacks, hup.trans modify_markConfirmed_up⟩

theorem IsTree.flashPre (h : f.IsTree) {r : Summary → ℕ} (hr : ∀ a ∈ f.packs, r (f.up a) + 1 = r a) {preId : Summary}
    (hfuel : r preId < fuel) :
    ForkContext.flashPre num last fuel preId f =
      .ok (f.modifyAll (markConfirmed num last) (walkUp f.up f.packs fuel preId)) := by
  induction fuel generalizing f preId with
  | zero => omega
  | succ fuel ih =>
    rw [ForkContext.flashPre, walkUp]
    by_cases hpre : preId ∈ f.packs
    · have hne : preId ≠ emptyChainId := fun heq => h.empty (heq ▸ hpre)
      have hrank := hr preId hpre
      have htree : (f.modify preId (markConfirmed num last)).IsTree :=
        ⟨h.nodup, by rw [Anc, modify_markConfirmed_up]; exact h.acyclic, h.empty⟩
      rw [if_pos ⟨hpre, hne⟩, if_pos hpre, ih htree (by rw [modify_markConfirmed_up]; exact hr) (by omega),
        modify_markConfirmed_up]
      rfl
    · rw [if_neg fun hin => hpre hin.1, if_neg hpre]
      rfl

/-- The list is what the search below the block lists, and the loop ends where the list does. -/
theorem IsTree.findNext (h : f.IsTree) {r : Summary → ℕ} (hr : ∀ a ∈ f.packs, r (f.up a) + 1 = r a) {root : Summary}
    {i : ℕ} {idlist : List Summary} (hi : i ≤ idlist.length)
    (hsearch : Search f.up f.packs r root (idlist.take i) (idlist.drop i)) (hfuel : f.packs.length < fuel + i) :
    f.findNext fuel i idlist = .ok (idlist ++ below f.up f.packs fuel (idlist.drop i)) := by
  induction fuel generalizing i idlist with
  | zero =>
    have hlength := hsearch.length_le
    rw [List.length_take, List.length_drop] at hlength
    omega
  | succ fuel ih =>
    rw [ForkContext.findNext]
    rcases hget : idlist[i]? with _ | next
    · rw [List.drop_eq_nil_of_le (List.getElem?_eq_none_iff.1 hget), below, List.append_nil]
    · obtain ⟨hlt, hnext⟩ := List.getElem?_eq_some_iff.1 hget
      have hdrop : idlist.drop i = next :: idlist.drop (i + 1) := by
        rw [List.drop_eq_getElem_cons hlt, hnext]
      have htake : idlist.take (i + 1) = idlist.take i ++ [next] := by
        rw [List.take_succ_eq_append_getElem hlt, hnext]
      rw [hdrop] at hsearch ⊢
      have hsearch' := hsearch.next hr h.nodup
      rw [← htake] at hsearch'
      have hgrown : f.findNext fuel (i + 1) (idlist ++ children f.up f.packs next) = _ :=
        ih (by rw [List.length_append]; omega)
          (by rwa [List.take_append_of_le_length hlt, List.drop_append_of_le_length hlt]) (by omega)
      simp only [hgrown, List.drop_append_of_le_length hlt, below, List.append_assoc]

theorem flashNext_eq {ids : List Summary} (hids : ∀ a ∈ ids, a ∈ f.packs) :
    f.flashNext num last (id :: ids) = f.modifyAll (markConfirmed num last) ids := by
  rw [flashNext, List.tail_cons, modifyAll]
  induction ids generalizing f with
  | nil => rfl
  | cons a ids ih =>
    obtain ⟨ha, hrest⟩ := List.forall_mem_cons.1 hids
    rw [List.foldl_cons, List.foldl_cons, if_pos ha, ih (f := f.modify a (markConfirmed num last)) hrest]

/-- The packs that the loops mark, in the order in which they do. -/
def flashed (f : ForkContext) (fuel : ℕ) (last : Summary) : List Summary :=
  last :: walkUp f.up f.packs fuel (f.up last) ++ below f.up f.packs fuel [last]

theorem IsTree.setLastConfirmedLoops (h : f.IsTree) (hlast : last ∈ f.packs) (hfuel : f.packs.length < fuel) :
    ForkContext.setLastConfirmedLoops fuel last f =
      .ok (f.modifyAll (markConfirmed (f.objs last).blockNum last) (f.flashed fuel last)) := by
  obtain ⟨r, hr, hle⟩ := exists_rank h.acyclic
  set num := (f.objs last).blockNum
  set f₁ := f.modify last (markConfirmed num last) with hf₁
  have hup₁ : f₁.up = f.up := modify_markConfirmed_up
  have htree₁ : f₁.IsTree := ⟨h.nodup, by rw [Anc, hup₁]; exact h.acyclic, h.empty⟩
  have hpre : ForkContext.flashPre num last fuel (f₁.up last) f₁ = _ :=
    htree₁.flashPre (by rw [hup₁]; exact hr) ((hle _).trans_lt hfuel)
  set f₂ := f₁.modifyAll (markConfirmed num last) (walkUp f₁.up f₁.packs fuel (f₁.up last)) with hf₂
  obtain ⟨hpacks₂, hup₂⟩ : f₂.packs = f.packs ∧ f₂.up = f.up := by
    obtain ⟨hpacks, hup⟩ : f₂.packs = f₁.packs ∧ f₂.up = f₁.up := modifyAll_markConfirmed _
    exact ⟨hpacks, hup.trans hup₁⟩
  have htree₂ : f₂.IsTree := ⟨hpacks₂ ▸ h.nodup, by rw [Anc, hup₂, hpacks₂]; exact h.acyclic, hpacks₂ ▸ h.empty⟩
  have hnext : f₂.findNext fuel 0 [last] = _ := htree₂.findNext (by rw [hup₂, hpacks₂]; exact hr) (Nat.zero_le _)
    (.start (by rwa [hpacks₂])) (by rw [hpacks₂]; omega)
  rw [List.drop_zero, hup₂, hpacks₂] at hnext
  rw [ForkContext.setLastConfirmedLoops, if_pos hlast]
  change (ForkContext.flashPre num last fuel (f₁.up last) f₁ >>= _) = _
  rw [hpre]
  change (f₂.findNext fuel 0 [last] >>= _) = _
  rw [hnext]
  change Except.ok (f₂.flashNext num last (last :: below f.up f.packs fuel [last])) = _
  rw [flashNext_eq fun a ha => ?_, hf₂, hf₁, hup₁]
  · rw [flashed, modifyAll, modifyAll, modifyAll, List.cons_append, List.foldl_cons, List.foldl_append]
    rfl
  · rw [hpacks₂]
    exact (anc_of_mem_below (by simpa using hlast) ha).1

theorem IsTree.mem_flashed (h : f.IsTree) (hlast : last ∈ f.packs) (hfuel : f.packs.length < fuel) {a : Summary} :
    a ∈ f.flashed fuel last ↔ f.Related a last := by
  obtain ⟨r, hr, hle⟩ := exists_rank h.acyclic
  rw [flashed, List.cons_append, List.mem_cons, List.mem_append, mem_walkUp hr ((hle _).trans_lt hfuel),
    mem_below_of_lt hr h.nodup hlast hfuel]
  constructor
  · rintro (rfl | hup | ⟨hdown, -⟩)
    · exact .inl (.refl hlast)
    · exact .inr (.step hlast hup)
    · exact .inl hdown
  · rintro (hdown | hup)
    · by_cases hne : a = last
      · exact .inl hne
      · exact .inr (.inr ⟨hdown, hne⟩)
    · by_cases hne : last = a
      · exact .inl hne.symm
      · exact .inr (.inl (hup.up_of_ne hne))

theorem IsTree.flashed_eq (h : f.IsTree) (hlast : last ∈ f.packs) (hfuel : f.packs.length < fuel) :
    f.flashed fuel last = f.flashed (f.packs.length + 1) last := by
  obtain ⟨r, hr, -⟩ := exists_rank h.acyclic
  have hwalk := walkUp_length_le h.acyclic (f.packs.length + 1) (f.up last)
  rw [flashed, flashed, below_of_le hr h.nodup hlast hfuel, walkUp_of_le (Nat.lt_succ_of_le hwalk) hfuel]

/-- What the loops leave: the branches through the block are marked, and nothing else is touched. -/
theorem IsTree.exists_setLastConfirmedLoops (h : f.IsTree) (hlast : last ∈ f.packs) : ∃ f',
    (∀ fuel > f.packs.length, ForkContext.setLastConfirmedLoops fuel last f = .ok f') ∧ f'.packs = f.packs ∧
      (Container f → Container f') ∧
      ∀ a, f'.objs a = if a ∈ f.flashed (f.packs.length + 1) last then
        markConfirmed (f.objs last).blockNum last (f.objs a) else f.objs a := by
  refine ⟨_, fun fuel hfuel => ?_, (modifyAll_frame _).1, fun hc => hc.modifyAll fun a ha => ?_,
    modifyAll_objs (markConfirmed_idem _ _) _⟩
  · rw [h.setLastConfirmedLoops hlast hfuel, h.flashed_eq hlast hfuel]
  · rcases (h.mem_flashed hlast (Nat.lt_succ_self _)).1 ha with hanc | hanc
    · exact hanc.mem_left
    · exact hanc.mem_right

theorem Linked.isTree {c : Crypto} (h : Linked c f) (hc : Container f) : f.IsTree where
  nodup := hc.nodup
  acyclic a ha hanc := by
    have hle := hanc.rank_le h.upNum
    have hup := h.upNum a ha
    omega
  empty := h.empty_not_mem

/-- Where the numbers count along the links it is what `setLastConfirmed` says at once. -/
theorem setLastConfirmedLoops_eq {c : Crypto} (hc : Container f) (hl : Linked c f) (hfuel : f.packs.length < fuel) :
    setLastConfirmedLoops fuel last f = f.setLastConfirmed last := by
  have htree := hl.isTree hc
  rw [setLastConfirmed]
  split_ifs with hlast
  · have hknown : f.packs.filter (· ≠ emptyChainId) = f.packs :=
      List.filter_eq_self.2 fun b hb => decide_eq_true (ne_of_mem_of_not_mem hb htree.empty)
    have hwalk : walkUp f.up f.packs (f.packs.length + 1) (f.up last) =
        walkUp f.up f.packs ((f.up last).num + 1) (f.up last) := by
      have hnum := walkUp_length_le_rank hl.upNum ((f.up last).num + 1) (f.up last)
      have hlength := walkUp_length_le htree.acyclic (f.packs.length + 1) (f.up last)
      rcases le_total (f.packs.length + 1) ((f.up last).num + 1) with hle | hle
      · exact (walkUp_of_le (Nat.lt_succ_of_le hlength) hle).symm
      · exact walkUp_of_le (Nat.lt_succ_of_le hnum) hle
    rw [htree.setLastConfirmedLoops hlast hfuel, htree.flashed_eq hlast hfuel, flashed, hwalk]
    simp only [confirmedBy, hknown]
  · rw [setLastConfirmedLoops, if_neg hlast]

end Facts

/-! ## Whether the marks agree with the tree -/

section Marks

variable (f f' : ForkContext) (id : Summary)

/-- The pack names the block and its number as last confirmed. -/
def Carries (num : ℕ) (p : BlockPack) : Prop := p.lastConfirmedId = id ∧ p.lastConfirmedNum = num

/-- Just the block, the packs before it and those after it are marked, the others are as they were, and no number has
fallen. -/
structure MarksAgree : Prop where
  packs : f'.packs = f.packs
  container : Container f → Container f'
  carried : ∀ a ∈ f.packs, Carries id (f.objs id).blockNum (f'.objs a) ↔ f.Related a id
  others : ∀ a ∈ f.packs, ¬ f.Related a id → f'.objs a = f.objs a
  raised : ∀ a ∈ f.packs, (f.objs a).lastConfirmedNum ≤ (f'.objs a).lastConfirmedNum

/-- The loops end, by an exception only if the block is not known, and the marks agree with the tree. -/
def AgreesWithTree : Prop :=
  ∃ n, ∃ r : Except Fault ForkContext, (∀ fuel ≥ n, setLastConfirmedLoops fuel id f = r) ∧
    if id ∈ f.packs then ∃ f', r = .ok f' ∧ MarksAgree f f' id else r = .error (.fc "unknown block id")

/-- No pack on the branches through the block has a greater number as its last confirmed, and no other names the block
already. -/
def Unmarked : Prop :=
  ∀ a ∈ f.packs, (f.Related a id → (f.objs a).lastConfirmedNum ≤ (f.objs id).blockNum) ∧
    (¬ f.Related a id → ¬ Carries id (f.objs id).blockNum (f.objs a))

variable {f f' id}

theorem marksAgree_iff (hpacks : f'.packs = f.packs) (hcontainer : Container f → Container f')
    (hobjs : ∀ a, (f.Related a id → f'.objs a = markConfirmed (f.objs id).blockNum id (f.objs a)) ∧
      (¬ f.Related a id → f'.objs a = f.objs a)) : MarksAgree f f' id ↔ Unmarked f id := by
  constructor
  · intro h a ha
    refine ⟨fun hrelated => ?_, fun hother hcarries => ?_⟩
    · have hraised := h.raised a ha
      rw [(hobjs a).1 hrelated] at hraised
      exact hraised
    · rw [← (hobjs a).2 hother] at hcarries
      exact hother ((h.carried a ha).1 hcarries)
  · intro h
    refine ⟨hpacks, hcontainer, fun a ha => ⟨fun hcarries => ?_, fun hrelated => ?_⟩, fun a _ => (hobjs a).2,
      fun a ha => ?_⟩
    · by_contra hother
      rw [(hobjs a).2 hother] at hcarries
      exact (h a ha).2 hother hcarries
    · rw [(hobjs a).1 hrelated]
      exact ⟨rfl, rfl⟩
    · by_cases hrelated : f.Related a id
      · rw [(hobjs a).1 hrelated]
        exact (h a ha).1 hrelated
      · rw [(hobjs a).2 hrelated]

theorem agreesWithTree_iff (h : f.IsTree) : AgreesWithTree f id ↔ (id ∈ f.packs → Unmarked f id) := by
  by_cases hid : id ∈ f.packs
  · obtain ⟨f', hruns, hpacks, hcontainer, hobjs⟩ := h.exists_setLastConfirmedLoops hid
    have hmem := fun a => h.mem_flashed hid (Nat.lt_succ_self f.packs.length) (a := a)
    have hagree : MarksAgree f f' id ↔ Unmarked f id := by
      refine marksAgree_iff hpacks hcontainer fun a => ⟨fun hrelated => ?_, fun hother => ?_⟩
      · rw [hobjs, if_pos ((hmem a).2 hrelated)]
      · rw [hobjs, if_neg fun ha => hother ((hmem a).1 ha)]
    rw [forall_prop_of_true hid, ← hagree]
    constructor
    · rintro ⟨n, r, hr, hok⟩
      rw [if_pos hid] at hok
      obtain ⟨f'', rfl, hmarks⟩ := hok
      have hsame := (hruns (n + f.packs.length + 1) (by omega)).symm.trans (hr (n + f.packs.length + 1) (by omega))
      cases hsame
      exact hmarks
    · intro hmarks
      refine ⟨f.packs.length + 1, .ok f', fun fuel hfuel => hruns fuel hfuel, ?_⟩
      rw [if_pos hid]
      exact ⟨f', rfl, hmarks⟩
  · refine ⟨fun _ hin => absurd hin hid, fun _ => ⟨0, .error (.fc "unknown block id"), fun fuel _ => ?_, ?_⟩⟩
    · rw [setLastConfirmedLoops, if_neg hid]
    · rw [if_neg hid]

/-- A confirmation agrees with the tree just if it lowers nothing and no pack off its branches names it already. -/
theorem confirmation_marks_iff (f : ForkContext) (id : Summary) (h : f.IsTree) :
    AgreesWithTree f id ↔ (id ∈ f.packs → Unmarked f id) := agreesWithTree_iff h

/-- Numbers that count along the links make a tree. -/
theorem IsTree.of_num (hnodup : f.packs.Nodup) (hnum : ∀ a ∈ f.packs, (f.up a).num + 1 = a.num) : f.IsTree where
  nodup := hnodup
  acyclic a ha hanc := by
    have hle := hanc.rank_le hnum
    have hup := hnum a ha
    omega
  empty hmem := by
    have hzero := hnum _ hmem
    simp [emptyChainId] at hzero

/-- A fork database of these packs. -/
def ofPacks (packs : List BlockPack) : ForkContext where
  objs id := (packs.find? (·.blockId = id)).getD default
  packs := packs.map (·.blockId)
  byNumber := (packs.insertionSort numberLe).map (·.blockId)
  byLongest := (packs.insertionSort longestLe).map (·.blockId)
  head := ((packs.insertionSort longestLe).map (·.blockId)).headD default

def packAfter (prev id : Summary) (confirmedNum : ℕ) (confirmedId : Summary) : BlockPack :=
  { blockNum := id.num, blockId := id, newHeader := { previous := prev }
    lastBlockNum := confirmedNum, lastConfirmedNum := confirmedNum, lastConfirmedId := confirmedId }

/-- Two blocks on block 2, of which one is followed by another. The one on the branch of block 2 and that which
follows it name the block with this number and id as last confirmed. -/
def branchesOnTwo (confirmedNum : ℕ) (confirmedId : Summary) : ForkContext :=
  ofPacks [packAfter ⟨1, 1⟩ ⟨2, 1⟩ confirmedNum confirmedId, packAfter ⟨2, 1⟩ ⟨3, 1⟩ confirmedNum confirmedId,
    packAfter ⟨3, 1⟩ ⟨4, 1⟩ confirmedNum confirmedId, packAfter ⟨2, 1⟩ ⟨3, 2⟩ 1 ⟨1, 1⟩]

theorem branchesOnTwo_isTree (confirmedNum : ℕ) (confirmedId : Summary) :
    (branchesOnTwo confirmedNum confirmedId).IsTree := by
  have hnum : ∀ a ∈ [(⟨2, 1⟩ : Summary), ⟨3, 1⟩, ⟨4, 1⟩, ⟨3, 2⟩],
      ((branchesOnTwo confirmedNum confirmedId).up a).num + 1 = a.num := by
    simp [branchesOnTwo, ofPacks, packAfter, ForkContext.up, PackCore.prevId]
  exact .of_num (show [(⟨2, 1⟩ : Summary), ⟨3, 1⟩, ⟨4, 1⟩, ⟨3, 2⟩].Nodup by decide) hnum

instance {num : ℕ} {p : BlockPack} : Decidable (Carries id num p) := inferInstanceAs (Decidable (_ ∧ _))

/-- The other block is confirmed before anything else is. -/
theorem confirmation_marks_of_first : AgreesWithTree (branchesOnTwo 1 ⟨1, 1⟩) ⟨3, 2⟩ := by
  refine (confirmation_marks_iff (branchesOnTwo 1 ⟨1, 1⟩) ⟨3, 2⟩ (branchesOnTwo_isTree 1 ⟨1, 1⟩)).2 fun _ a ha => ?_
  have hlow : ∀ a ∈ (branchesOnTwo 1 ⟨1, 1⟩).packs,
      ((branchesOnTwo 1 ⟨1, 1⟩).objs a).lastConfirmedNum ≤ ((branchesOnTwo 1 ⟨1, 1⟩).objs ⟨3, 2⟩).blockNum ∧
        ¬ Carries ⟨3, 2⟩ ((branchesOnTwo 1 ⟨1, 1⟩).objs ⟨3, 2⟩).blockNum ((branchesOnTwo 1 ⟨1, 1⟩).objs a) := by
    decide
  exact ⟨fun _ => (hlow a ha).1, fun _ => (hlow a ha).2⟩

/-- Block 4 of one branch is confirmed and then block 3 of the other, and block 2 is no longer confirmed by 4. -/
theorem confirmation_lowered : ¬ AgreesWithTree (branchesOnTwo 4 ⟨4, 1⟩) ⟨3, 2⟩ := by
  rw [agreesWithTree_iff (branchesOnTwo_isTree 4 ⟨4, 1⟩)]
  intro hunmarked
  have hup : (branchesOnTwo 4 ⟨4, 1⟩).Anc ⟨3, 2⟩ ⟨2, 1⟩ := by
    refine .step (by decide) ?_
    rw [show (branchesOnTwo 4 ⟨4, 1⟩).up ⟨3, 2⟩ = ⟨2, 1⟩ by decide]
    exact .refl (by decide)
  exact absurd ((hunmarked (by decide) ⟨2, 1⟩ (by decide)).1 (.inr hup)) (by decide)

end Marks

end ForkContext

end XmaxChain
