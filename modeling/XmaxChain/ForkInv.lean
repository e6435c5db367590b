import XmaxChain.Dpos
import XmaxChain.ForkDb

/-!
# What holds of the fork database

The container stays a set of packs with both indices sorted, whatever is inserted, changed or
erased. Over it stands what the confirmations say about the tree of packs: there is a last
irreversible block `L`, below all others, and a last confirmed block `X` above it; a pack names `X`
as its last confirmed block exactly when it is on one branch with it, and all others name a block
of a lower number.
-/

namespace XmaxChain

open OrderedIndex ParentWalk

section Orders

theorem numberLe_total (p q : BlockPack) : numberLe p q ∨ numberLe q p := by
  unfold numberLe
  omega

theorem numberLe_trans (p q r : BlockPack) : numberLe p q → numberLe q r → numberLe p r := by
  unfold numberLe
  omega

theorem longestLe_total (p q : BlockPack) : longestLe p q ∨ longestLe q p := by
  unfold longestLe
  omega

theorem longestLe_trans (p q r : BlockPack) : longestLe p q → longestLe q r → longestLe p r := by
  unfold longestLe
  omega

end Orders

namespace ForkContext

/-- The indices hold the packs, each once and in order. -/
structure Container (f : ForkContext) : Prop where
  nodup : f.packs.Nodup
  permNumber : f.byNumber.Perm f.packs
  permLongest : f.byLongest.Perm f.packs
  sortedNumber : f.byNumber.Pairwise fun a b => numberLe (f.objs a) (f.objs b)
  sortedLongest : f.byLongest.Pairwise fun a b => longestLe (f.objs a) (f.objs b)

variable {f f' : ForkContext} {id : Summary} {g : BlockPack → BlockPack}

section Frame

@[simp] theorem modify_packs : (f.modify id g).packs = f.packs := rfl

@[simp] theorem modify_head : (f.modify id g).head = f.head := rfl

theorem modify_objs : (f.modify id g).objs = Function.update f.objs id (g (f.objs id)) := rfl

@[simp] theorem modifyObj_packs : (f.modifyObj id g).packs = f.packs := rfl

@[simp] theorem modifyObj_head : (f.modifyObj id g).head = f.head := rfl

theorem modifyObj_objs : (f.modifyObj id g).objs = Function.update f.objs id (g (f.objs id)) := rfl

@[simp] theorem erase_objs : (f.erase id).objs = f.objs := rfl

@[simp] theorem erase_head : (f.erase id).head = f.head := rfl

@[simp] theorem erase_packs : (f.erase id).packs = f.packs.erase id := rfl

end Frame

section Container

/-- A sorted index stays sorted but for an element whose object changes. -/
theorem pairwise_update {le : BlockPack → BlockPack → Prop} {l : List Summary} {p : BlockPack}
    (h : l.Pairwise fun a b => le (f.objs a) (f.objs b)) (hid : id ∉ l) :
    l.Pairwise fun a b =>
      le (Function.update f.objs id p a) (Function.update f.objs id p b) := by
  refine h.imp_of_mem fun {a b} ha hb hab => ?_
  rwa [Function.update_of_ne (ne_of_mem_of_not_mem ha hid),
    Function.update_of_ne (ne_of_mem_of_not_mem hb hid)]

theorem Container.modify (h : Container f) (hid : id ∈ f.packs) : Container (f.modify id g) := by
  have hnum : id ∈ f.byNumber := h.permNumber.mem_iff.2 hid
  have hlong : id ∈ f.byLongest := h.permLongest.mem_iff.2 hid
  have hndNum := h.permNumber.nodup_iff.2 h.nodup
  have hndLong := h.permLongest.nodup_iff.2 h.nodup
  refine ⟨h.nodup, (relocate_perm _ hnum).trans h.permNumber,
    (relocate_perm _ hlong).trans h.permLongest, ?_, ?_⟩
  · refine relocate_sorted ?_ ?_ hnum hndNum (pairwise_update ?_ hndNum.not_mem_erase)
    · exact fun _ _ => numberLe_total _ _
    · exact fun _ _ _ => numberLe_trans _ _ _
    · exact h.sortedNumber.sublist List.erase_sublist
  · refine relocate_sorted ?_ ?_ hlong hndLong (pairwise_update ?_ hndLong.not_mem_erase)
    · exact fun _ _ => longestLe_total _ _
    · exact fun _ _ _ => longestLe_trans _ _ _
    · exact h.sortedLongest.sublist List.erase_sublist

theorem Container.erase (h : Container f) : Container (f.erase id) := by
  refine ⟨h.nodup.erase id, h.permNumber.erase id, h.permLongest.erase id, ?_, ?_⟩
  · exact h.sortedNumber.sublist List.erase_sublist
  · exact h.sortedLongest.sublist List.erase_sublist

/-- A change that the indices do not look at. -/
theorem Container.modifyObj (h : Container f)
    (hnum : ∀ p q, numberLe (g p) q ↔ numberLe p q) (hnum' : ∀ p q, numberLe q (g p) ↔ numberLe q p)
    (hlong : ∀ p q, longestLe (g p) q ↔ longestLe p q)
    (hlong' : ∀ p q, longestLe q (g p) ↔ longestLe q p) : Container (f.modifyObj id g) := by
  refine ⟨h.nodup, h.permNumber, h.permLongest, h.sortedNumber.imp fun {a b} hab => ?_,
    h.sortedLongest.imp fun {a b} hab => ?_⟩ <;>
  · simp only [modifyObj_objs, Function.update_apply]
    split_ifs <;> simp_all

theorem Container.insert (h : Container f) {pack : BlockPack} (hf : f.insert pack = .ok f') :
    Container f' := by
  unfold ForkContext.insert at hf
  split_ifs at hf with hmem
  cases hf
  have hnum : pack.blockId ∉ f.byNumber := fun hm => hmem (h.permNumber.mem_iff.1 hm)
  have hlong : pack.blockId ∉ f.byLongest := fun hm => hmem (h.permLongest.mem_iff.1 hm)
  have hperm : (f.packs ++ [pack.blockId]).Perm (pack.blockId :: f.packs) :=
    List.perm_append_singleton _ _
  refine ⟨hperm.nodup_iff.2 (List.nodup_cons.2 ⟨hmem, h.nodup⟩),
    (upperInsert_perm _ _ _).trans ((h.permNumber.cons _).trans hperm.symm),
    (upperInsert_perm _ _ _).trans ((h.permLongest.cons _).trans hperm.symm), ?_, ?_⟩
  · refine upperInsert_sorted ?_ ?_ (pairwise_update h.sortedNumber hnum)
    · exact fun _ _ => numberLe_total _ _
    · exact fun _ _ _ => numberLe_trans _ _ _
  · refine upperInsert_sorted ?_ ?_ (pairwise_update h.sortedLongest hlong)
    · exact fun _ _ => longestLe_total _ _
    · exact fun _ _ _ => longestLe_trans _ _ _

/-- The first pack by number has the least number, and the first by rank the highest rank. -/
theorem Container.earliest (h : Container f) {first : Summary} {rest : List Summary}
    (hf : f.byNumber = first :: rest) {a : Summary} (ha : a ∈ f.packs) :
    first ∈ f.packs ∧ (f.objs first).blockNum ≤ (f.objs a).blockNum := by
  have ha' : a ∈ first :: rest := hf ▸ h.permNumber.mem_iff.2 ha
  refine ⟨h.permNumber.mem_iff.1 (by simp [hf]), ?_⟩
  have hs := h.sortedNumber
  rw [hf] at hs
  rcases List.mem_cons.1 ha' with rfl | ha'
  · exact le_rfl
  · have := List.rel_of_pairwise_cons hs ha'
    unfold numberLe at this
    omega

theorem Container.top (h : Container f) {top : Summary} {rest : List Summary}
    (hf : f.byLongest = top :: rest) {a : Summary} (ha : a ∈ f.packs) :
    top ∈ f.packs ∧ longestLe (f.objs top) (f.objs a) := by
  have ha' : a ∈ top :: rest := hf ▸ h.permLongest.mem_iff.2 ha
  refine ⟨h.permLongest.mem_iff.1 (by simp [hf]), ?_⟩
  have hs := h.sortedLongest
  rw [hf] at hs
  rcases List.mem_cons.1 ha' with rfl | ha'
  · exact (longestLe_total _ _).elim id id
  · exact List.rel_of_pairwise_cons hs ha'

end Container

section ModifyAll

theorem modifyAll_frame (ids : List Summary) :
    (f.modifyAll g ids).packs = f.packs ∧ (f.modifyAll g ids).head = f.head := by
  unfold modifyAll
  induction ids generalizing f with
  | nil => exact ⟨rfl, rfl⟩
  | cons a ids ih => exact ih

/-- Changing a list of packs by a change that is done after once. -/
theorem modifyAll_objs (hg : ∀ p, g (g p) = g p) (ids : List Summary) (a : Summary) :
    (f.modifyAll g ids).objs a = if a ∈ ids then g (f.objs a) else f.objs a := by
  unfold modifyAll
  induction ids generalizing f with
  | nil => simp
  | cons b ids ih =>
    rw [List.foldl_cons, ih, modify_objs]
    by_cases hab : a = b
    · subst hab
      simp [hg]
    · simp [hab]

theorem Container.modifyAll (h : Container f) {ids : List Summary} (hids : ∀ a ∈ ids, a ∈ f.packs) :
    Container (f.modifyAll g ids) := by
  unfold ForkContext.modifyAll
  induction ids generalizing f with
  | nil => exact h
  | cons a ids ih =>
    exact ih (h.modify (hids a List.mem_cons_self)) fun b hb => hids b (List.mem_cons_of_mem _ hb)

end ModifyAll

/-- Walks up the branches, inside the container. -/
def Anc (f : ForkContext) : Summary → Summary → Prop := ParentWalk.Anc f.up f.packs

def Related (f : ForkContext) : Summary → Summary → Prop := ParentWalk.Related f.up f.packs

/-- The packs are known by their blocks' ids, and their numbers count along the links. -/
structure Linked (c : Crypto) (f : ForkContext) : Prop where
  blockId : ∀ a ∈ f.packs, (f.objs a).blockId = a
  id : ∀ a ∈ f.packs, (f.objs a).block.id c = a
  num : ∀ a ∈ f.packs, (f.objs a).blockNum = a.num
  previous : ∀ a ∈ f.packs, (f.objs a).block.previous = f.up a
  upNum : ∀ a ∈ f.packs, (f.up a).num + 1 = a.num

/-- The blocks that a pack may make irreversible, by number and id: those of its window, and the
one it names. -/
def candidates (p : BlockPack) : List (ℕ × Summary) :=
  (if p.dposIrreversibleNum = 0 then [] else [(p.dposIrreversibleNum, p.dposIrreversibleId)])
    ++ p.lastBlockOfBuilders.map fun e => (e.blockNum, e.blockId)

/-- The block irreversible by DPoS is an ancestor, as far as the branch is known. -/
def DposOk (f : ForkContext) (a : Summary) : Prop :=
  ∀ e ∈ candidates (f.objs a), e.2.num = e.1 ∧ e.1 < a.num ∧
    ∀ x, f.Anc a x → x.num = e.1 → x = e.2

structure Inv (c : Crypto) (f : ForkContext) (L X : Summary) : Prop
    extends Container f, Linked c f where
  last_mem : L ∈ f.packs
  lowest : ∀ a ∈ f.packs, a = L ∨ L.num < a.num
  above : f.Anc X L
  confirmedNum : ∀ a ∈ f.packs, (f.objs a).lastConfirmedNum = (f.objs a).lastConfirmedId.num
  related : ∀ a ∈ f.packs, f.Related a X → (f.objs a).lastConfirmedId = X
  unrelated : ∀ a ∈ f.packs, ¬ f.Related a X → (f.objs a).lastConfirmedId.num < X.num
  connected : ∀ a ∈ f.packs, f.up a ∈ f.packs ∨ (f.up a).num ≤ L.num
  irreversible : ∀ a ∈ f.packs, (f.objs a).irreversibleConfirmed = true ↔ a = L
  dpos : ∀ a ∈ f.packs, f.DposOk a

section Facts

variable {c : Crypto} {L X : Summary}

theorem Linked.empty_not_mem (h : Linked c f) : emptyChainId ∉ f.packs := fun hm => by
  have := h.upNum _ hm
  simp [emptyChainId] at this

theorem Linked.num_lt (h : Linked c f) {a : Summary} (ha : a ∈ f.packs) : a.num < 2 ^ 32 := by
  rw [← h.id a ha, BlockHeader.id_num]
  exact u32_lt _

theorem Inv.last_le (h : Inv c f L X) {a : Summary} (ha : a ∈ f.packs) : L.num ≤ a.num := by
  rcases h.lowest a ha with rfl | hlt
  · exact le_rfl
  · exact hlt.le

theorem Inv.confirmed_mem (h : Inv c f L X) : X ∈ f.packs := h.above.mem_left

theorem Inv.last_le_confirmed (h : Inv c f L X) : L.num ≤ X.num := h.above.rank_le h.upNum

theorem Inv.confirmed_self (h : Inv c f L X) : (f.objs X).lastConfirmedNum = X.num := by
  rw [h.confirmedNum X h.confirmed_mem,
    h.related X h.confirmed_mem (.inl (.refl h.confirmed_mem))]

theorem Inv.confirmedNum_le (h : Inv c f L X) {a : Summary} (ha : a ∈ f.packs) :
    (f.objs a).lastConfirmedNum ≤ X.num := by
  rw [h.confirmedNum a ha]
  by_cases hr : f.Related a X
  · rw [h.related a ha hr]
  · exact (h.unrelated a ha hr).le

/-- A pack whose last confirmed number is that of `X` is on one branch with `X`. -/
theorem Inv.related_of_le (h : Inv c f L X) {a : Summary} (ha : a ∈ f.packs)
    (hle : X.num ≤ (f.objs a).lastConfirmedNum) : f.Related a X := by
  by_contra hr
  have := h.unrelated a ha hr
  rw [h.confirmedNum a ha] at hle
  omega

/-- What a confirmation marks is the branches through the block. -/
theorem Linked.mem_confirmedBy (hc : Container f) (h : Linked c f) {a Z : Summary}
    (hZ : Z ∈ f.packs) : a ∈ f.confirmedBy Z ↔ f.Related a Z := by
  have hknown : f.packs.filter (· ≠ emptyChainId) = f.packs := by
    refine List.filter_eq_self.2 fun b hb => decide_eq_true ?_
    rintro rfl
    exact h.empty_not_mem hb
  unfold confirmedBy
  simp only [hknown, List.cons_append, List.mem_cons, List.mem_append]
  rw [mem_walkUp h.upNum (Nat.lt_succ_self _), mem_below h.upNum hc.nodup hZ]
  constructor
  · rintro (rfl | hup | ⟨hdown, _⟩)
    · exact .inl (.refl hZ)
    · exact .inr (.step hZ hup)
    · exact .inl hdown
  · rintro (hdown | hup)
    · by_cases hne : a = Z
      · exact .inl hne
      · exact .inr (.inr ⟨hdown, hne⟩)
    · by_cases hne : Z = a
      · exact .inl hne.symm
      · exact .inr (.inl (hup.up_of_ne hne))

end Facts

section Confirm

variable {c : Crypto} {L X Z : Summary}

/-- Two databases with the same packs, which may differ in their marks. -/
structure SameCores (f f' : ForkContext) : Prop where
  packs : f'.packs = f.packs
  head : f'.head = f.head
  core : ∀ a, (f'.objs a).toPackCore = (f.objs a).toPackCore

theorem SameCores.refl (f : ForkContext) : SameCores f f := ⟨rfl, rfl, fun _ => rfl⟩

theorem SameCores.trans {f'' : ForkContext} (h : SameCores f f') (h' : SameCores f' f'') :
    SameCores f f'' :=
  ⟨h'.packs.trans h.packs, h'.head.trans h.head, fun a => (h'.core a).trans (h.core a)⟩

theorem SameCores.up (h : SameCores f f') : f'.up = f.up :=
  funext fun a => congrArg PackCore.prevId (h.core a)

theorem SameCores.anc (h : SameCores f f') : f'.Anc = f.Anc := by
  unfold ForkContext.Anc
  rw [h.up, h.packs]

theorem SameCores.related (h : SameCores f f') : f'.Related = f.Related := by
  unfold ForkContext.Related
  rw [h.up, h.packs]

theorem SameCores.linked (h : SameCores f f') (hl : Linked c f) : Linked c f' := by
  constructor <;> intro a ha <;> rw [h.packs] at ha
  · rw [h.core a]; exact hl.blockId a ha
  · rw [h.core a]; exact hl.id a ha
  · rw [h.core a]; exact hl.num a ha
  · rw [h.core a, h.up]; exact hl.previous a ha
  · rw [h.up]; exact hl.upNum a ha

theorem SameCores.dposOk (h : SameCores f f') {a : Summary} (hd : f.DposOk a) : f'.DposOk a := by
  unfold DposOk candidates
  rw [h.anc, h.core a]
  exact hd

/-- Marks that the confirmations are not about. -/
theorem Inv.of_marks (h : Inv c f L X) (hc : Container f') (hs : SameCores f f')
    (hm : ∀ a, (f'.objs a).lastConfirmedNum = (f.objs a).lastConfirmedNum
      ∧ (f'.objs a).lastConfirmedId = (f.objs a).lastConfirmedId
      ∧ (f'.objs a).irreversibleConfirmed = (f.objs a).irreversibleConfirmed) :
    Inv c f' L X := by
  refine ⟨hc, hs.linked h.toLinked, ?_, ?_, ?_, ?_, ?_, ?_, ?_, ?_, ?_⟩ <;>
    simp only [hs.packs, hs.anc, hs.related, hs.up, (hm _).1, (hm _).2.1, (hm _).2.2]
  · exact h.last_mem
  · exact h.lowest
  · exact h.above
  · exact h.confirmedNum
  · exact h.related
  · exact h.unrelated
  · exact h.connected
  · exact h.irreversible
  · exact fun a ha => hs.dposOk (h.dpos a ha)

theorem markConfirmed_idem (n : ℕ) (id : Summary) (p : BlockPack) :
    markConfirmed n id (markConfirmed n id p) = markConfirmed n id p := rfl

/-- A confirmation of `Z` marks its branches and nothing else. -/
theorem setLastConfirmed_eq (hc : Container f) (hl : Linked c f) (hZ : Z ∈ f.packs) :
    ∃ f', f.setLastConfirmed Z = .ok f' ∧ Container f' ∧ SameCores f f' ∧
      ∀ a, (f.Related a Z → f'.objs a = markConfirmed Z.num Z (f.objs a))
        ∧ (¬ f.Related a Z → f'.objs a = f.objs a) := by
  have hmem : ∀ a, a ∈ f.confirmedBy Z ↔ f.Related a Z := fun a => hl.mem_confirmedBy hc hZ
  have hobjs := modifyAll_objs (f := f) (markConfirmed_idem (f.objs Z).blockNum Z) (f.confirmedBy Z)
  refine ⟨_, if_pos hZ, hc.modifyAll fun a ha => ?_, ⟨(modifyAll_frame _).1, (modifyAll_frame _).2,
    fun a => ?_⟩, fun a => ⟨fun h => ?_, fun h => ?_⟩⟩
  · rcases (hmem a).1 ha with h | h
    · exact h.mem_left
    · exact h.mem_right
  · rw [hobjs]
    split_ifs <;> rfl
  · rw [hobjs, if_pos ((hmem a).2 h), hl.num Z hZ]
  · rw [hobjs, if_neg fun hm => h ((hmem a).1 hm)]

/-- Confirming a block of the irreversible branch above everything confirmed so far. -/
theorem Inv.setLastConfirmed (h : Inv c f L X) (hZ : f.Anc Z L) (hlt : X.num < Z.num) :
    ∃ f', f.setLastConfirmed Z = .ok f' ∧ Inv c f' L Z ∧ SameCores f f' ∧
      ∀ a, (f.Related a Z → f'.objs a = markConfirmed Z.num Z (f.objs a))
        ∧ (¬ f.Related a Z → f'.objs a = f.objs a) := by
  obtain ⟨f', hf', hcont, hsame, hobjs⟩ :=
    setLastConfirmed_eq h.toContainer h.toLinked hZ.mem_left
  refine ⟨f', hf', ?_, hsame, hobjs⟩
  have hmark : ∀ a, (f'.objs a).irreversibleConfirmed = (f.objs a).irreversibleConfirmed := by
    intro a
    by_cases hr : f.Related a Z
    · rw [(hobjs a).1 hr]; rfl
    · rw [(hobjs a).2 hr]
  refine ⟨hcont, hsame.linked h.toLinked, ?_, ?_, ?_, ?_, ?_, ?_, ?_, ?_, ?_⟩ <;>
    simp only [hsame.packs, hsame.anc, hsame.related, hsame.up]
  · exact h.last_mem
  · exact h.lowest
  · exact hZ
  · intro a ha
    by_cases hr : f.Related a Z
    · rw [(hobjs a).1 hr]; rfl
    · rw [(hobjs a).2 hr]; exact h.confirmedNum a ha
  · intro a _ hr
    rw [(hobjs a).1 hr]; rfl
  · intro a ha hr
    rw [(hobjs a).2 hr, ← h.confirmedNum a ha]
    exact (h.confirmedNum_le ha).trans_lt hlt
  · exact h.connected
  · intro a ha
    rw [hmark a]
    exact h.irreversible a ha
  · exact fun a ha => hsame.dposOk (h.dpos a ha)

end Confirm

section Insert

variable {c : Crypto} {L X : Summary}

/-- A pack made from a parent: by `init_by_pre_pack`, and then sealed with a block. -/
structure MadeFrom (c : Crypto) (pre pack : BlockPack) : Prop where
  prev : pack.prevId = pre.blockId
  previous : pack.block.previous = pre.blockId
  id : pack.blockId = pack.block.id c
  num : pack.blockNum = u32 (pre.blockNum + 1)
  confirmedNum : pack.lastConfirmedNum = pre.lastConfirmedNum
  confirmedId : pack.lastConfirmedId = pre.lastConfirmedId
  irreversible : pack.irreversibleConfirmed = false
  dpos : ((pack.dposIrreversibleNum, pack.dposIrreversibleId), pack.lastBlockOfBuilders)
    = BlockPack.generateDpos pre.toPackCore

/-- What a new pack may make irreversible is its parent or what its parent might have. -/
theorem mem_candidates_of_dpos {pre pack : BlockPack}
    (h : ((pack.dposIrreversibleNum, pack.dposIrreversibleId), pack.lastBlockOfBuilders)
      = BlockPack.generateDpos pre.toPackCore) {e : ℕ × Summary} (he : e ∈ candidates pack) :
    e = (pre.blockNum, pre.blockId) ∨ e ∈ candidates pre := by
  obtain ⟨⟨w, hsub, hw⟩, hd⟩ := generateDpos_cases pre.toPackCore
  rw [← h] at hw hd
  simp only at hw hd
  unfold candidates at he ⊢
  rcases List.mem_append.1 he with he | he
  · split_ifs at he with hz
    · simp at he
    · rw [List.mem_singleton] at he
      subst he
      rcases hd with hd | ⟨front, rest, hfront, _, hd⟩
      · obtain ⟨h1, h2⟩ := Prod.mk.inj hd
        refine .inr (List.mem_append_left _ ?_)
        rw [if_neg (h1 ▸ hz), h1, h2]
        exact List.mem_singleton_self _
      · refine .inr (List.mem_append_right _ ?_)
        rw [hfront, (Prod.mk.inj hd).1]
        simp
  · rw [hw, List.map_append, List.mem_append] at he
    rcases he with he | he
    · exact .inr (List.mem_append_right _ (List.map_subset _ hsub.subset he))
    · simp only [List.map_cons, List.map_nil, List.mem_singleton] at he
      exact .inl he

/-- The container with a new pack: its packs and links. -/
theorem insert_eq_ok {pack : BlockPack} (hf : f.insert pack = .ok f') :
    pack.blockId ∉ f.packs ∧ f'.packs = f.packs ++ [pack.blockId]
      ∧ f'.objs = Function.update f.objs pack.blockId pack ∧ f'.head = f.head := by
  unfold ForkContext.insert at hf
  split_ifs at hf with hmem
  cases hf
  exact ⟨hmem, rfl, rfl, rfl⟩

/-- Inserting a pack on a known parent that is not below the last confirmed block. -/
theorem Inv.insert (h : Inv c f L X) {q : Summary} {pack : BlockPack} (hq : q ∈ f.packs)
    (hmade : MadeFrom c (f.objs q) pack) (hlow : (f.objs q).lastConfirmedNum ≤ q.num)
    (hwrap : q.num + 1 < 2 ^ 32) (hf : f.insert pack = .ok f') :
    Inv c f' L X ∧ f'.Anc pack.blockId q ∧ (∀ a b, f.Anc a b → f'.Anc a b)
      ∧ (∀ a b, a ≠ pack.blockId → f'.Anc a b → f.Anc a b) := by
  obtain ⟨hfresh, hpacks, hobjs, -⟩ := insert_eq_ok hf
  set n := pack.blockId with hn
  have hmem : ∀ a, a ∈ f'.packs ↔ a = n ∨ a ∈ f.packs := fun a => by
    rw [hpacks]; simp [or_comm]
  have hself : f'.objs n = pack := by rw [hobjs, Function.update_self]
  have hother : ∀ a, a ≠ n → f'.objs a = f.objs a := fun a ha => by
    rw [hobjs, Function.update_of_ne ha]
  have hold : ∀ a ∈ f.packs, a ≠ n := fun a ha => ne_of_mem_of_not_mem ha hfresh
  have hup : ∀ a, a ≠ n → f'.up a = f.up a := fun a ha => by
    unfold up; rw [hother a ha]
  have hupn : f'.up n = q := by
    unfold up; rw [hself, hmade.prev, h.blockId q hq]
  have hnum : n.num = q.num + 1 := by
    have hprev : pack.block.previous = q := hmade.previous.trans (h.blockId q hq)
    rw [hn, hmade.id, BlockHeader.id_num, BlockHeader.blockNum, hprev]
    exact u32_of_lt hwrap
  -- an erased parent that comes back has too low a number
  have hleaf : ∀ a ∈ f.packs, f.up a ≠ n := by
    intro a ha heq
    have hqL := h.last_le hq
    rcases h.connected a ha with hmem | hle
    · exact hfresh (heq ▸ hmem)
    · rw [heq] at hle; omega
  have hanc : ∀ a b, f.Anc a b → f'.Anc a b := fun a b hab =>
    hab.mono (fun x hx => (hmem x).2 (.inr hx)) fun x hx => hup x (hold x hx)
  have hanc' : ∀ a b, a ≠ n → f'.Anc a b → f.Anc a b := fun a b ha hab =>
    hab.of_insert (fun x hx => (hmem x).1 hx) hup hleaf ha
  have hnew : f'.Anc n q := .step ((hmem n).2 (.inl rfl)) (by
    rw [hupn]; exact hanc q q (.refl hq))
  have hback : ∀ b, f'.Anc n b → b = n ∨ f.Anc q b := fun b hb => by
    by_cases hbn : n = b
    · exact .inl hbn.symm
    · have := hb.up_of_ne hbn
      rw [hupn] at this
      exact .inr (hanc' q b (hold q hq) this)
  have hXn : X ≠ n := hold X h.confirmed_mem
  have hrel : ∀ a, a ≠ n → (f'.Related a X ↔ f.Related a X) := fun a ha => by
    constructor
    · rintro (hax | hxa)
      · exact .inl (hanc' a X ha hax)
      · exact .inr (hanc' X a hXn hxa)
    · rintro (hax | hxa)
      · exact .inl (hanc a X hax)
      · exact .inr (hanc X a hxa)
  have hnotX : ¬ f'.Anc X n := fun hx => hfresh (hanc' X n hXn hx).mem_right
  refine ⟨⟨h.toContainer.insert hf, ?_, (hmem L).2 (.inr h.last_mem), ?_, hanc X L h.above, ?_, ?_,
    ?_, ?_, ?_, ?_⟩, hnew, hanc, hanc'⟩
  · constructor <;> intro a ha <;> rcases (hmem a).1 ha with rfl | ha
    · rw [hself]
    · rw [hother a (hold a ha)]; exact h.blockId a ha
    · rw [hself, ← hmade.id]
    · rw [hother a (hold a ha)]; exact h.id a ha
    · rw [hself, hmade.num, hnum, h.num q hq]; exact u32_of_lt hwrap
    · rw [hother a (hold a ha)]; exact h.num a ha
    · rw [hself, hupn, hmade.previous, h.blockId q hq]
    · rw [hother a (hold a ha), hup a (hold a ha)]; exact h.previous a ha
    · rw [hupn]; exact hnum.symm
    · rw [hup a (hold a ha)]; exact h.upNum a ha
  · intro a ha
    rcases (hmem a).1 ha with rfl | ha
    · have := h.last_le hq
      right; omega
    · exact h.lowest a ha
  · intro a ha
    rcases (hmem a).1 ha with rfl | ha
    · rw [hself, hmade.confirmedNum, hmade.confirmedId]; exact h.confirmedNum q hq
    · rw [hother a (hold a ha)]; exact h.confirmedNum a ha
  · intro a ha hr
    rcases (hmem a).1 ha with rfl | ha
    · rw [hself, hmade.confirmedId]
      rcases hr with hax | hxa
      · exact h.related q hq (.inl ((hback X hax).resolve_left hXn))
      · exact absurd hxa hnotX
    · rw [hother a (hold a ha)]; exact h.related a ha ((hrel a (hold a ha)).1 hr)
  · intro a ha hr
    rcases (hmem a).1 ha with rfl | ha
    · rw [hself, hmade.confirmedId]
      refine h.unrelated q hq fun hqX => hr (.inl (hnew.trans (hanc q X ?_)))
      -- a parent on the branch of `X` is not strictly below it
      refine hqX.anc_of_le h.upNum ?_
      rwa [h.confirmedNum q hq, h.related q hq hqX] at hlow
    · rw [hother a (hold a ha)]
      exact h.unrelated a ha fun hr' => hr ((hrel a (hold a ha)).2 hr')
  · intro a ha
    rcases (hmem a).1 ha with rfl | ha
    · rw [hupn]; exact .inl ((hmem q).2 (.inr hq))
    · rw [hup a (hold a ha)]
      exact (h.connected a ha).imp_left fun hm => (hmem _).2 (.inr hm)
  · intro a ha
    rcases (hmem a).1 ha with rfl | ha
    · rw [hself, hmade.irreversible]
      simp only [Bool.false_eq_true, false_iff]
      exact (hold L h.last_mem).symm
    · rw [hother a (hold a ha)]; exact h.irreversible a ha
  · intro a ha e he
    rcases (hmem a).1 ha with rfl | ha
    · rw [hself] at he
      rcases mem_candidates_of_dpos hmade.dpos he with rfl | he
      · rw [h.num q hq, h.blockId q hq]
        refine ⟨rfl, by omega, fun x hx hxn => ?_⟩
        rcases hback x hx with rfl | hx
        · omega
        · exact hx.eq_of_rank h.upNum hxn
      · obtain ⟨h1, h2, h3⟩ := h.dpos q hq e he
        refine ⟨h1, by omega, fun x hx hxn => ?_⟩
        rcases hback x hx with rfl | hx
        · omega
        · exact h3 x hx hxn
    · rw [hother a (hold a ha)] at he
      obtain ⟨h1, h2, h3⟩ := h.dpos a ha e he
      exact ⟨h1, h2, fun x hx hxn => h3 x (hanc' a x (hold a ha) hx) hxn⟩

end Insert

end ForkContext

end XmaxChain
