import XmaxChain.ForkInv

/-!
# Irreversible blocks

When the last confirmed block grows, the packs between the last irreversible block and it are
handed to the handler in the order of their numbers. They form one path up from the end of the
handler's log, so a handler that takes whatever extends its log takes them all, and the last
confirmed block is then the last irreversible one.
-/

namespace XmaxChain

open OrderedIndex ParentWalk

variable {H : Type} {c : Crypto}

/-- A handler with a log: it takes every pack that extends the log by one. -/
structure LogHandler (c : Crypto) (H : Type) where
  handler : BlockPack → H → Except Fault H
  tip : H → Option Summary
  advance : PackCore → H → H
  accepts : ∀ {p h L}, tip h = some L → p.block.previous = L →
    u32 (p.blockNum + (2 ^ 32 - 1)) = L.num → handler p h = .ok (advance p.toPackCore h)
  tip_advance : ∀ p h, tip (advance p h) = some (p.block.id c)

/-- The chain's own handler: its log is the block log. -/
def sinkHandler (c : Crypto) (D : Type) : LogHandler c (Sink D) where
  handler := onIrreversible c
  tip s := s.chainLog.head?.map fun b => b.id c
  advance := irreversibleBlock
  accepts := by
    intro p s L htip hprev hnum
    unfold onIrreversible
    cases hlog : s.chainLog with
    | nil => simp [hlog] at htip
    | cons pre log =>
      simp only [hlog, List.head?_cons, Option.map_some, Option.some.injEq] at htip
      subst htip
      rw [BlockHeader.id_num] at hnum
      simp only [hnum, hprev, beq_self_eq_true]
      rfl
  tip_advance := fun p s => rfl

namespace ForkContext

variable {f f' : ForkContext} {L X : Summary} (lh : LogHandler c H)

section HandOver

def flagIrreversible (p : BlockPack) : BlockPack := { p with irreversibleConfirmed := true }

/-- Flags the packs of a list as irreversible. -/
def flagAll (f : ForkContext) (ids : List Summary) : ForkContext :=
  ids.foldl (fun f id => f.modifyObj id flagIrreversible) f

theorem flagAll_objs (ids : List Summary) (a : Summary) :
    (f.flagAll ids).objs a = if a ∈ ids then flagIrreversible (f.objs a) else f.objs a := by
  unfold flagAll
  induction ids generalizing f with
  | nil => simp
  | cons b ids ih =>
    rw [List.foldl_cons, ih, modifyObj_objs]
    by_cases hab : a = b
    · subst hab
      simp [flagIrreversible]
    · simp [hab]

theorem Container.flagAll (h : Container f) (ids : List Summary) : Container (f.flagAll ids) := by
  unfold ForkContext.flagAll
  induction ids generalizing f with
  | nil => exact h
  | cons b ids ih =>
    exact ih (h.modifyObj (fun _ _ => .rfl) (fun _ _ => .rfl) (fun _ _ => .rfl) fun _ _ => .rfl)

theorem flagAll_sameCores (ids : List Summary) : SameCores f (f.flagAll ids) := by
  refine ⟨?_, ?_, fun a => ?_⟩
  · unfold flagAll
    induction ids generalizing f with
    | nil => rfl
    | cons b ids ih => exact ih
  · unfold flagAll
    induction ids generalizing f with
    | nil => rfl
    | cons b ids ih => exact ih
  · rw [flagAll_objs]
    split_ifs <;> rfl

/-- The handler's state after it has taken the packs of a list. -/
def advanceAll (f : ForkContext) (ids : List Summary) (h : H) : H :=
  ids.foldl (fun h id => lh.advance (f.objs id).toPackCore h) h

theorem SameCores.advanceAll (hs : SameCores f f') (ids : List Summary) (h : H) :
    advanceAll lh f' ids h = advanceAll lh f ids h := by
  unfold ForkContext.advanceAll
  induction ids generalizing h with
  | nil => rfl
  | cons a ids ih => rw [List.foldl_cons, List.foldl_cons, hs.core a, ih]

/-- Packs that follow one another from the end of the log are all taken. -/
theorem handOver_ok : ∀ (ids : List Summary) {f : ForkContext} {L : Summary} {h : H},
    Linked c f → (∀ a ∈ ids, a ∈ f.packs) → (L :: ids).IsChain (fun a b => f.up b = a) →
    lh.tip h = some L →
    handOver lh.handler ids (f, h) = .ok () (f.flagAll ids, advanceAll lh f ids h)
      ∧ lh.tip (advanceAll lh f ids h) = some ((L :: ids).getLast (List.cons_ne_nil _ _))
  | [], f, L, h, _, _, _, htip => ⟨rfl, htip⟩
  | a :: ids, f, L, h, hl, hmem, hchain, htip => by
    obtain ⟨hup, hchain'⟩ := List.isChain_cons_cons.1 hchain
    have ha := hmem a List.mem_cons_self
    have hacc : lh.handler (f.objs a) h = .ok (lh.advance (f.objs a).toPackCore h) := by
      refine lh.accepts htip ((hl.previous a ha).trans hup) ?_
      have hnum := hl.upNum a ha
      have hlt := hl.num_lt ha
      rw [hl.num a ha]
      rw [hup] at hnum
      unfold u32
      omega
    let f₁ := f.modifyObj a flagIrreversible
    have hsame : SameCores f f₁ := flagAll_sameCores [a]
    have htip' : lh.tip (lh.advance (f.objs a).toPackCore h) = some a := by
      rw [lh.tip_advance, hl.id a ha]
    have hrest := handOver_ok ids (f := f₁) (h := lh.advance (f.objs a).toPackCore h)
      (hsame.linked hl)
      (fun b hb => hsame.packs ▸ hmem b (List.mem_cons_of_mem _ hb))
      (by rw [hsame.up]; exact hchain') htip'
    rw [hsame.advanceAll] at hrest
    refine ⟨?_, by rw [List.getLast_cons_cons]; exact hrest.2⟩
    rw [handOver, hacc]
    exact hrest.1

end HandOver

section Grow

theorem eraseAll_objs (ids : List Summary) : (ids.foldl ForkContext.erase f).objs = f.objs := by
  induction ids generalizing f with
  | nil => rfl
  | cons a ids ih => exact ih

theorem eraseAll_head (ids : List Summary) : (ids.foldl ForkContext.erase f).head = f.head := by
  induction ids generalizing f with
  | nil => rfl
  | cons a ids ih => exact ih

theorem Container.eraseAll (h : Container f) (ids : List Summary) :
    Container (ids.foldl ForkContext.erase f) := by
  induction ids generalizing f with
  | nil => exact h
  | cons a ids ih => exact ih h.erase

theorem Container.mem_eraseAll (h : Container f) (ids : List Summary) (a : Summary) :
    a ∈ (ids.foldl ForkContext.erase f).packs ↔ a ∈ f.packs ∧ a ∉ ids := by
  induction ids generalizing f with
  | nil => simp
  | cons b ids ih =>
    rw [List.foldl_cons, ih h.erase, erase_packs, h.nodup.mem_erase_iff]
    simp only [List.mem_cons]
    tauto

/-- The packs up to a number come first in the index by number. -/
theorem Container.mem_takeWhile (h : Container f) (n : ℕ) (a : Summary) :
    a ∈ f.byNumber.takeWhile (fun id => (f.objs id).blockNum ≤ n)
      ↔ a ∈ f.packs ∧ (f.objs a).blockNum ≤ n := by
  rw [← h.permNumber.mem_iff]
  have hs := h.sortedNumber
  generalize f.byNumber = l at hs ⊢
  induction l with
  | nil => simp
  | cons b l ih =>
    have hb := List.pairwise_cons.1 hs
    rw [List.takeWhile_cons]
    by_cases hle : (f.objs b).blockNum ≤ n
    · simp only [hle, decide_true, if_true, List.mem_cons, ih hb.2]
      constructor
      · rintro (rfl | ⟨hm, hn⟩)
        · exact ⟨.inl rfl, hle⟩
        · exact ⟨.inr hm, hn⟩
      · rintro ⟨rfl | hm, hn⟩
        · exact .inl rfl
        · exact .inr ⟨hm, hn⟩
    · simp only [hle, decide_false, Bool.false_eq_true, if_false, List.not_mem_nil, false_iff]
      rintro ⟨hm, hn⟩
      rcases List.mem_cons.1 hm with rfl | hm
      · exact hle hn
      · have := hb.1 a hm
        unfold numberLe at this
        omega

variable {h : H}

/-- The packs handed over: those on the way from `L`, which is not among them, up to `X`. -/
theorem Inv.mem_grown (hi : Inv c f L X) (a : Summary) :
    a ∈ (f.grown X X.num).1 ↔ f.Anc X a ∧ a ≠ L := by
  unfold grown
  simp only [List.mem_filter, hi.mem_takeWhile, decide_eq_true_eq]
  constructor
  · rintro ⟨⟨ha, hn⟩, hid, hirr⟩
    rw [hi.num a ha] at hn
    refine ⟨?_, fun heq => hirr ((hi.irreversible a ha).2 heq)⟩
    have hrel : f.Related a X := hi.related_of_le ha (by rw [hi.confirmedNum a ha, hid])
    exact hrel.symm.anc_of_le hi.upNum hn
  · rintro ⟨hanc, hne⟩
    have ha := hanc.mem_right
    refine ⟨⟨ha, ?_⟩, hi.related a ha (.inr hanc), fun hirr => hne ((hi.irreversible a ha).1 hirr)⟩
    rw [hi.num a ha]
    exact hanc.rank_le hi.upNum

theorem Inv.mem_dropped (hi : Inv c f L X) (a : Summary) :
    a ∈ (f.grown X X.num).2 ↔ a ∈ f.packs ∧ a.num ≤ X.num ∧ a ≠ X := by
  unfold grown
  simp only [List.mem_filter, hi.mem_takeWhile, decide_eq_true_eq]
  constructor
  · rintro ⟨⟨ha, hn⟩, hnot⟩
    refine ⟨ha, by rwa [hi.num a ha] at hn, ?_⟩
    rintro rfl
    exact hnot ⟨hi.related a ha (.inl (.refl ha)), rfl⟩
  · rintro ⟨ha, hn, hne⟩
    exact ⟨⟨ha, by rwa [hi.num a ha]⟩, fun h => hne h.2⟩

theorem Container.grown_nodup (h : Container f) (last : Summary) (n : ℕ) :
    (f.grown last n).1.Nodup :=
  ((h.permNumber.nodup_iff.2 h.nodup).sublist (List.takeWhile_sublist _)).filter _

/-- The packs handed over follow one another from `L`. -/
theorem Inv.grown_chain (hi : Inv c f L X) :
    (L :: (f.grown X X.num).1).IsChain fun a b => f.up b = a := by
  have hmem := hi.mem_grown
  refine isChain_of_sorted hi.upNum (fun a ha => ((hmem a).1 ha).1.mem_right) ?_ fun a ha => ?_
  · have hsorted : (f.grown X X.num).1.Pairwise fun a b => numberLe (f.objs a) (f.objs b) :=
      (hi.sortedNumber.sublist (List.takeWhile_sublist _)).filter _
    refine (hsorted.and (hi.grown_nodup X X.num)).imp_of_mem fun {a b} ha hb hab => ?_
    obtain ⟨hXa, -⟩ := (hmem a).1 ha
    obtain ⟨hXb, -⟩ := (hmem b).1 hb
    have hle := hab.1
    unfold numberLe at hle
    rw [hi.num a hXa.mem_right, hi.num b hXb.mem_right] at hle
    have hne : a.num ≠ b.num := fun heq => hab.2 (hXa.unique hi.upNum hXb heq)
    omega
  · obtain ⟨hXa, hne⟩ := (hmem a).1 ha
    have hLa : f.Anc a L := hi.above.comparable hi.upNum hXa (hi.last_le hXa.mem_right)
    have hup := hLa.up_of_ne hne
    by_cases hL : f.up a = L
    · exact .inl hL
    · refine .inr ((hmem _).2 ⟨?_, hL⟩)
      exact hXa.trans (.step hXa.mem_right (.refl hup.mem_left))

/-- They end in `X`, unless `X` is irreversible already. -/
theorem Inv.grown_getLast (hi : Inv c f L X) :
    (L :: (f.grown X X.num).1).getLast (List.cons_ne_nil _ _) = X := by
  have hmem := hi.mem_grown
  set l := L :: (f.grown X X.num).1 with hl
  have hall : ∀ a ∈ l, f.Anc X a := fun a ha => by
    rcases List.mem_cons.1 ha with rfl | ha
    · exact hi.above
    · exact ((hmem a).1 ha).1
  have hX : X ∈ l := by
    by_cases hXL : X = L
    · exact hXL ▸ List.mem_cons_self
    · exact List.mem_cons_of_mem _ ((hmem X).2 ⟨.refl hi.confirmed_mem, hXL⟩)
  -- along the path numbers grow, so the last is the highest
  have hpair : l.Pairwise fun a b => a.num < b.num := by
    refine List.isChain_iff_pairwise.1 (hi.grown_chain.imp_of_mem_imp fun a b ha hb hup => ?_)
    have := hi.upNum b (hall b hb).mem_right
    rw [hup] at this
    omega
  have hlast := hall _ (List.getLast_mem (List.cons_ne_nil L (f.grown X X.num).1))
  rcases List.mem_iff_append.1 hX with ⟨l₁, l₂, hsplit⟩
  rcases List.eq_nil_or_concat l₂ with rfl | ⟨l₃, z, rfl⟩
  · simp only [← hl, hsplit]; simp
  · exfalso
    have hz : z ∈ l := by rw [hsplit]; simp
    have hlt : X.num < z.num := by
      rw [hsplit] at hpair
      exact List.rel_of_pairwise_cons (List.pairwise_append.1 hpair).2.1 (by simp)
    have := (hall z hz).rank_le hi.upNum
    omega

/-- The packs between `L` and `X` become irreversible, and only `X` and what has a higher number
stays. -/
theorem Inv.grow (hi : Inv c f L X) (htip : lh.tip h = some L) :
    ∃ f', onLastConfirmedGrow lh.handler X X.num (f, h)
        = .ok () (f', advanceAll lh f (f.grown X X.num).1 h)
      ∧ Inv c f' X X ∧ lh.tip (advanceAll lh f (f.grown X X.num).1 h) = some X
      ∧ f'.head = f.head
      ∧ (∀ a, a ∈ f'.packs ↔ a ∈ f.packs ∧ (a = X ∨ X.num < a.num))
      ∧ ∀ a, f'.objs a = (f.flagAll (f.grown X X.num).1).objs a := by
  have hids := hi.mem_grown
  set ids := (f.grown X X.num).1 with hidsdef
  obtain ⟨hand, htip'⟩ := handOver_ok lh ids (h := h) hi.toLinked
    (fun a ha => ((hids a).1 ha).1.mem_right) hi.grown_chain htip
  rw [hi.grown_getLast] at htip'
  have hsame : SameCores f (f.flagAll ids) := flagAll_sameCores ids
  have hcont : Container (f.flagAll ids) := hi.toContainer.flagAll ids
  set f' := (f.grown X X.num).2.foldl ForkContext.erase (f.flagAll ids) with hf'
  have hobjs : f'.objs = (f.flagAll ids).objs := eraseAll_objs _
  have hup : f'.up = f.up := by
    rw [← hsame.up]; unfold up; rw [hobjs]
  have hpacks : ∀ a, a ∈ f'.packs ↔ a ∈ f.packs ∧ (a = X ∨ X.num < a.num) := fun a => by
    rw [hf', hcont.mem_eraseAll, hsame.packs, hi.mem_dropped]
    constructor
    · rintro ⟨ha, hnot⟩
      refine ⟨ha, ?_⟩
      by_contra hcon
      push Not at hcon
      exact hnot ⟨ha, hcon.2, hcon.1⟩
    · rintro ⟨ha, hX⟩
      exact ⟨ha, fun hnot => by
        rcases hX with rfl | hX
        · exact hnot.2.2 rfl
        · omega⟩
  have hsub : ∀ a ∈ f'.packs, a ∈ f.packs := fun a ha => ((hpacks a).1 ha).1
  have hXmem : X ∈ f'.packs := (hpacks X).2 ⟨hi.confirmed_mem, .inl rfl⟩
  have hcore : ∀ a, (f'.objs a).toPackCore = (f.objs a).toPackCore := fun a => by
    rw [hobjs]; exact hsame.core a
  have hanc : ∀ a b, f'.Anc a b → f.Anc a b := fun a b hab =>
    hab.mono hsub fun x _ => by rw [hup]
  -- a branch through `X` keeps everything above `X`
  have hancX : ∀ a ∈ f'.packs, f.Related a X → f'.Anc a X := fun a ha hr => by
    have hle : X.num ≤ a.num := by
      rcases ((hpacks a).1 ha).2 with rfl | hlt
      · exact le_rfl
      · exact hlt.le
    have hax : f.Anc a X := hr.anc_of_le hi.upNum hle
    unfold ForkContext.Anc
    rw [hup]
    exact hax.restrict_above hi.upNum hXmem fun b hb hlt => (hpacks b).2 ⟨hb, .inr hlt⟩
  have hmark : ∀ a, (f'.objs a).lastConfirmedNum = (f.objs a).lastConfirmedNum
      ∧ (f'.objs a).lastConfirmedId = (f.objs a).lastConfirmedId := fun a => by
    rw [hobjs, flagAll_objs]
    split_ifs <;> exact ⟨rfl, rfl⟩
  refine ⟨f', ?_, ⟨hcont.eraseAll _, ?_, hXmem, ?_, .refl hXmem, ?_, ?_, ?_, ?_, ?_, ?_⟩, htip',
    (eraseAll_head _).trans hsame.head, hpacks, fun a => by rw [hobjs]⟩
  · unfold onLastConfirmedGrow
    simp only [← hidsdef, hand, ← hf']
  · constructor <;> intro a ha
    · rw [hcore]; exact hi.blockId a (hsub a ha)
    · rw [hcore]; exact hi.id a (hsub a ha)
    · rw [hcore]; exact hi.num a (hsub a ha)
    · rw [hcore, hup]; exact hi.previous a (hsub a ha)
    · rw [hup]; exact hi.upNum a (hsub a ha)
  · exact fun a ha => ((hpacks a).1 ha).2
  · intro a ha
    rw [(hmark a).1, (hmark a).2]
    exact hi.confirmedNum a (hsub a ha)
  · intro a ha hr
    rw [(hmark a).2]
    exact hi.related a (hsub a ha) (hr.imp (hanc a X) (hanc X a))
  · intro a ha hr
    rw [(hmark a).2]
    exact hi.unrelated a (hsub a ha) fun hrel => hr (.inl (hancX a ha hrel))
  · intro a ha
    rw [hup]
    by_cases hle : (f.up a).num ≤ X.num
    · exact .inr hle
    · left
      rcases hi.connected a (hsub a ha) with hm | hL
      · exact (hpacks _).2 ⟨hm, .inr (by omega)⟩
      · have := hi.last_le_confirmed
        omega
  · intro a ha
    rw [hobjs, flagAll_objs]
    have haf := hsub a ha
    by_cases haX : a = X
    · subst haX
      by_cases haL : a = L
      · simp only [iff_true]
        split_ifs
        · rfl
        · exact (hi.irreversible a haf).2 haL
      · rw [if_pos ((hids a).2 ⟨.refl haf, haL⟩)]
        simp [flagIrreversible]
    · have hlt : X.num < a.num := (((hpacks a).1 ha).2).resolve_left haX
      rw [if_neg fun hm => by
        have := ((hids a).1 hm).1.rank_le hi.upNum
        omega, hi.irreversible a haf]
      refine ⟨fun haL => ?_, fun h => absurd h haX⟩
      subst haL
      have := hi.last_le_confirmed
      omega
  · intro a ha e he
    have hcand : candidates (f'.objs a) = candidates (f.objs a) := by
      unfold candidates; rw [hcore a]
    rw [hcand] at he
    obtain ⟨h1, h2, h3⟩ := hi.dpos a (hsub a ha) e he
    exact ⟨h1, h2, fun x hx => h3 x (hanc a x hx)⟩

end Grow

section Settle

variable {h : H}

/-- The block that `add_block` makes irreversible after it has put a pack in. -/
def finalizes (f : ForkContext) : Option Summary :=
  match f.byNumber with
  | [] => none
  | earliest :: _ =>
    if (f.objs earliest).blockNum < f.headPack.lastConfirmedNum then
      some f.headPack.lastConfirmedId
    else if (f.objs earliest).blockNum < f.headPack.dposIrreversibleNum then
      some f.headPack.dposIrreversibleId
    else none

/-- What becoming irreversible up to `L'` leaves: the packs above `L'`, and the log of the handler
with the path from `L` to `L'`. -/
structure Settled (f : ForkContext) (h : H) (L : Summary) (f' : ForkContext) (h' : H)
    (L' : Summary) : Prop where
  core : ∀ a, (f'.objs a).toPackCore = (f.objs a).toPackCore
  mainChain : ∀ a, (f'.objs a).mainChain = (f.objs a).mainChain
  head : f'.head = f.head
  packs : ∀ a, a ∈ f'.packs ↔ a ∈ f.packs ∧ (a = L' ∨ L'.num < a.num)
  confirmed : ∀ a, f.Related a L' → (f'.objs a).lastConfirmedId = L'
  anc : f.Anc L' L
  path : ∃ ids, (L :: ids).IsChain (fun a b => f.up b = a)
    ∧ (L :: ids).getLast (List.cons_ne_nil _ _) = L' ∧ (∀ a ∈ ids, a ∈ f.packs)
    ∧ h' = advanceAll lh f ids h

theorem Settled.of_sameCores {f₁ : ForkContext} {h' : H} {L' : Summary} (hs : SameCores f f₁)
    (hmain : ∀ a, (f₁.objs a).mainChain = (f.objs a).mainChain)
    (hset : Settled lh f₁ h L f' h' L') : Settled lh f h L f' h' L' := by
  obtain ⟨ids, hchain, hlast, hmem, hadv⟩ := hset.path
  refine ⟨fun a => (hset.core a).trans (hs.core a), fun a => (hset.mainChain a).trans (hmain a),
    hset.head.trans hs.head, fun a => ?_, fun a hr => hset.confirmed a ?_, ?_, ids, ?_, hlast,
    fun a ha => ?_, ?_⟩
  · rw [hset.packs, hs.packs]
  · rwa [hs.related]
  · rw [← hs.anc]; exact hset.anc
  · rw [← hs.up]; exact hchain
  · rw [← hs.packs]; exact hmem a ha
  · rw [hadv, hs.advanceAll]

/-- The database whose head is the first pack by rank. -/
def HeadFirst (f : ForkContext) : Prop := ∃ rest, f.byLongest = f.head :: rest

theorem Inv.head_mem (hi : Inv c f L X) (hh : HeadFirst f) : f.head ∈ f.packs := by
  obtain ⟨rest, hrest⟩ := hh
  exact (hi.top hrest hi.last_mem).1

/-- The head is on one branch with the last confirmed block. -/
theorem Inv.head_related (hi : Inv c f L X) (hh : HeadFirst f) : f.Related f.head X := by
  obtain ⟨rest, hrest⟩ := hh
  obtain ⟨hmem, hle⟩ := hi.top hrest hi.confirmed_mem
  refine hi.related_of_le hmem ?_
  unfold longestLe at hle
  rw [hi.confirmed_self] at hle
  omega

theorem Inv.earliest_eq (hi : Inv c f L X) {first : Summary} {rest : List Summary}
    (hf : f.byNumber = first :: rest) : first = L := by
  obtain ⟨hmem, hle⟩ := hi.earliest hf hi.last_mem
  rw [hi.num first hmem, hi.num L hi.last_mem] at hle
  rcases hi.lowest first hmem with heq | hlt
  · exact heq
  · omega

/-- The DPoS irreversible block of the head is an ancestor of the head above `L`. -/
theorem Inv.dpos_anc (hi : Inv c f L L) (hh : HeadFirst f)
    (hlt : L.num < f.headPack.dposIrreversibleNum) :
    f.Anc f.head f.headPack.dposIrreversibleId ∧ f.Anc f.headPack.dposIrreversibleId L
      ∧ f.headPack.dposIrreversibleId.num = f.headPack.dposIrreversibleNum := by
  have hmem := hi.head_mem hh
  have hcand : (f.headPack.dposIrreversibleNum, f.headPack.dposIrreversibleId)
      ∈ candidates (f.objs f.head) := by
    unfold candidates
    rw [if_neg (by unfold headPack at hlt; omega)]
    exact List.mem_append_left _ (List.mem_singleton_self _)
  obtain ⟨hnum, hhead, huniq⟩ := hi.dpos f.head hmem _ hcand
  have hanc : f.Anc f.head L := (hi.head_related hh).anc_of_le hi.upNum (hi.last_le hmem)
  obtain ⟨y, hy, hyL, hyn⟩ := hanc.exists_at hi.upNum hlt.le hhead.le
  have : y = f.headPack.dposIrreversibleId := huniq y hy hyn
  subst this
  exact ⟨hy, hyL, hnum⟩

theorem Inv.settled_of_grow (hi : Inv c f L X) (htip : lh.tip h = some L) :
    ∃ f' h', onLastConfirmedGrow lh.handler X X.num (f, h) = .ok () (f', h') ∧ Inv c f' X X
      ∧ lh.tip h' = some X ∧ Settled lh f h L f' h' X := by
  obtain ⟨f', hgrow, hinv, htip', hhead, hpacks, hobjs⟩ := hi.grow lh htip
  refine ⟨f', _, hgrow, hinv, htip', ⟨fun a => ?_, fun a => ?_, hhead, hpacks, fun a hr => ?_,
    hi.above, _, hi.grown_chain, hi.grown_getLast,
    fun a ha => ((hi.mem_grown a).1 ha).1.mem_right, rfl⟩⟩
  · rw [hobjs]
    exact (flagAll_sameCores _).core a
  · rw [hobjs, flagAll_objs]
    split_ifs <;> rfl
  · have ha : a ∈ f.packs := hr.elim (·.mem_left) (·.mem_right)
    rw [hobjs, flagAll_objs]
    split_ifs <;> exact hi.related a ha hr

/-- Once a pack is in and the head is up to date, `add_block` ends without an exception: what it
makes irreversible is on the irreversible branch, and its handler takes all of it. Nothing is
confirmed then that is not irreversible. -/
theorem Inv.settle (hi : Inv c f L X) (hh : HeadFirst f) (htip : lh.tip h = some L) :
    ∃ f' h' L', settle lh.handler (f, h) = .ok () (f', h') ∧ Inv c f' L' L'
      ∧ lh.tip h' = some L' ∧ Settled lh f h L f' h' L' ∧ L' = f.finalizes.getD L
      ∧ f.Related f.head L' := by
  cases hnum : f.byNumber with
  | nil =>
    have := hi.permNumber.mem_iff.2 hi.last_mem
    simp [hnum] at this
  | cons first rest =>
    have hfirst := hi.earliest_eq hnum
    subst hfirst
    have hrel := hi.head_related hh
    have hhm := hi.head_mem hh
    have hid : f.headPack.lastConfirmedId = X := hi.related _ hhm hrel
    have hcn : f.headPack.lastConfirmedNum = X.num := by
      unfold headPack at hid ⊢
      rw [hi.confirmedNum _ hhm, hid]
    simp only [ForkContext.settle, finalizes, hnum, hid, hcn, hi.num first hi.last_mem]
    split_ifs with hlt hdpos
    · obtain ⟨f', h', hgrow, hinv, htip', hset⟩ := hi.settled_of_grow lh htip
      exact ⟨f', h', X, hgrow, hinv, htip', hset, rfl, hrel⟩
    · have hX : X = first := (hi.above.eq_of_rank hi.upNum (by
        have := hi.last_le_confirmed; omega)).symm
      subst hX
      obtain ⟨hhZ, hZL, hZn⟩ := hi.dpos_anc hh hdpos
      obtain ⟨f₁, hf₁, hinv₁, hsame, hmarks⟩ := hi.setLastConfirmed hZL (hZn ▸ hdpos)
      obtain ⟨f', h', hgrow, hinv, htip', hset⟩ := hinv₁.settled_of_grow lh htip
      simp only [hf₁]
      rw [← hZn]
      refine ⟨f', h', _, hgrow, hinv, htip', hset.of_sameCores lh hsame fun a => ?_, rfl,
        .inl hhZ⟩
      by_cases hr : f.Related a f.headPack.dposIrreversibleId
      · rw [(hmarks a).1 hr]; rfl
      · rw [(hmarks a).2 hr]
    · have hX : X = first := (hi.above.eq_of_rank hi.upNum (by
        have := hi.last_le_confirmed; omega)).symm
      subst hX
      refine ⟨f, h, X, rfl, hi, htip, ⟨fun _ => rfl, fun _ => rfl, rfl, fun a => ?_,
        fun a hr => ?_, .refl hi.last_mem, [], List.isChain_singleton _, rfl, by simp, rfl⟩, rfl,
        hrel⟩
      · exact ⟨fun ha => ⟨ha, hi.lowest a ha⟩, fun ha => ha.1⟩
      · exact hi.related a (hr.elim (·.mem_left) (·.mem_right)) hr

end Settle

section AddPack

variable {h : H}

theorem Inv.withHead (hi : Inv c f L X) (top : Summary) : Inv c (f.withHead top) L X :=
  ⟨⟨hi.nodup, hi.permNumber, hi.permLongest, hi.sortedNumber, hi.sortedLongest⟩,
    ⟨hi.blockId, hi.id, hi.num, hi.previous, hi.upNum⟩, hi.last_mem, hi.lowest, hi.above,
    hi.confirmedNum, hi.related, hi.unrelated, hi.connected, hi.irreversible, hi.dpos⟩

theorem Inv.updateHead (hi : Inv c f L X) :
    ∃ top, f.updateHead = .ok (f.withHead top) ∧ Inv c (f.withHead top) L X
      ∧ HeadFirst (f.withHead top) := by
  obtain ⟨top, rest, hl⟩ : ∃ top rest, f.byLongest = top :: rest :=
    List.exists_cons_of_ne_nil (List.ne_nil_of_mem (hi.permLongest.mem_iff.2 hi.last_mem))
  refine ⟨top, ?_, hi.withHead top, rest, hl⟩
  simp [ForkContext.updateHead, hl]

/-- Adding a pack on a known parent that is not below the last confirmed block: a block that is
there already is refused, any other one is put in and everything settles. -/
theorem Inv.addPack (hi : Inv c f L X) (htip : lh.tip h = some L) {q : Summary} {pack : BlockPack}
    (hq : q ∈ f.packs) (hmade : MadeFrom c (f.objs q) pack)
    (hlow : (f.objs q).lastConfirmedNum ≤ q.num) (hwrap : q.num + 1 < 2 ^ 32) :
    (∃ msg, addPack lh.handler c pack (f, h) = .error (.fc msg) (f, h)
        ∧ pack.blockId ∈ f.packs
        ∧ msg = "unable to insert block state, duplicate state detected")
      ∨ ∃ f₁ top f' h' L', f.insert pack = .ok f₁
        ∧ Inv c (f₁.withHead top) L X ∧ HeadFirst (f₁.withHead top)
        ∧ addPack lh.handler c pack (f, h) = .ok () (f', h') ∧ Inv c f' L' L'
        ∧ lh.tip h' = some L' ∧ Settled lh (f₁.withHead top) h L f' h' L'
        ∧ L' = (f₁.withHead top).finalizes.getD L
        ∧ (f₁.withHead top).Related top L' := by
  unfold ForkContext.addPack
  rw [if_neg (not_not.2 hmade.id)]
  cases hins : f.insert pack with
  | error e =>
    unfold ForkContext.insert at hins
    split_ifs at hins with hmem
    cases hins
    exact .inl ⟨_, rfl, hmem, rfl⟩
  | ok f₁ =>
    obtain ⟨hi₁, -, -, -⟩ := hi.insert hq hmade hlow hwrap hins
    obtain ⟨top, hup, hi₂, hfirst⟩ := hi₁.updateHead
    obtain ⟨f', h', L', hset, hinv, htip', hsettled, hfin, hrel⟩ := hi₂.settle lh hfirst htip
    simp only [hup]
    exact .inr ⟨f₁, top, f', h', L', rfl, hi₂, hfirst, hset, hinv, htip', hsettled, hfin, hrel⟩

end AddPack

end ForkContext

end XmaxChain
