import XmaxChain.ChainRun
import XmaxChain.ForkTree

/-!
# What a fork switch comes to

Each round of `_check_fork` goes for the head of the fork database. It looks at the first of the
blocks to pop, so it fails where there is none: where the head is above `block_head`, as the old
head is when the first block of the new branch is refused. A refused block is removed with more than
what is below it, and only exceptions of `fc` are caught. Where no round comes upon one of these, the
rounds end with the head of the fork database as `block_head`: each round but the last has removed
a pack.
-/

namespace XmaxChain

open ParentWalk ForkContext

/-! ## The rounds -/

/-- What the first block of a branch that is refused throws. Only the first block of all can find
another database than the one it runs on, and a block to abort. -/
def branchFault (cfg : ChainConfig) (objs : Summary → BlockPack) :
    BlockPack → ChainDb → Bool → ChainDb → List Summary → Option Fault
  | _, _, _, _, [] => none
  | pre, found, aborts, db, id :: ids =>
    match applied cfg pre found aborts db (objs id).block with
    | .error e => some e
    | .ok db' => branchFault cfg objs (objs id) db' true db' ids

/-- A pack that is not on the main chain. -/
def BlockPack.offMain (p : BlockPack) : BlockPack := { p with mainChain := false }

namespace ChainState

variable (cfg : ChainConfig) (s : ChainState)

/-- What is thrown when the blocks of `block_head` are popped to where the branch of the head of the
fork database leaves them, and that branch is applied. -/
def switchFault : Option Fault :=
  match s.fork.fetchBranchFromFork s.headPack.blockId s.fork.head with
  | .error _ => none
  | .ok branches =>
    let popped := s.withDb (Undo.undo^[branches.first.length] s.sink.blockDb)
    branchFault cfg s.fork.objs (s.fork.objs branches.forkNode) popped.sink.blockDb.cur
      popped.CanAbort popped.abortBuild.sink.blockDb.cur branches.second.reverse

end ChainState

/-- What a round needs: the head of the fork database is in it, and it is `block_head` or on another
branch; the sessions of the blocks to pop can be undone; what is refused on that branch throws an
exception of `fc`; and the head that there was before the rounds has not been removed, unless one
that ranks as high takes its place. -/
structure RoundOk (cfg : ChainConfig) (old : Summary) (s : ChainState) : Prop where
  known : s.fork.head ∈ s.fork.packs
  apart : s.fork.Related s.fork.head s.blockHead → s.fork.head = s.blockHead
  undoable : s.PopsUndoable
  caught : ∀ e, s.switchFault cfg = some e → ∃ msg, e = .fc msg
  kept : old ∈ s.fork.packs ∨ longestLe s.fork.headPack (s.fork.objs old).offMain

/-- The head of the fork database is `block_head`, the packs flagged as main chain are those on its
way, and the database is what the blocks on that way leave; the blocks of the head that there was
before are on it, or they rank after it. -/
structure Switched (cfg : ChainConfig) (G : BlockPack) (g : Origin) (old : Summary) (s : ChainState) :
    Prop where
  head : s.blockHead = s.fork.head
  main : ∀ a ∈ s.fork.packs, (s.fork.objs a).mainChain = true ↔ s.fork.Anc s.blockHead a
  database : Executed cfg G g s.fork.objs s.path s.blockHead s.abortBuild.sink.blockDb.cur
  revision : s.abortBuild.sink.blockDb.revision = s.headPack.blockNum
  restored : s.fork.Anc s.blockHead old ∨ ¬ longestLe (s.fork.objs old).offMain s.headPack

variable {cfg : ChainConfig} {G : BlockPack} {g : Origin} {old L : Summary} {s t : ChainState}

/-! ## Applying the new branch -/

section Branch

variable {objs objs' : Summary → BlockPack} {pre pre' : BlockPack} {found db : ChainDb} {aborts : Bool}
  {block : SignedBlock} {ids : List Summary} {e : Fault}

theorem applied_congr (h : SameNext pre pre') (hid : pre'.blockId = pre.blockId)
    (hnum : pre'.blockNum = pre.blockNum) :
    applied cfg pre' found aborts db block = applied cfg pre found aborts db block := by
  have hdesc : validateBlockDesc cfg pre' found block = validateBlockDesc cfg pre found block := by
    unfold validateBlockDesc
    rw [hid, hnum]
  rw [applied, applied, hdesc, h.replay]

theorem applied_core (hpre : pre'.toPackCore = pre.toPackCore) :
    applied cfg pre' found aborts db block = applied cfg pre found aborts db block :=
  applied_congr (.of_core hpre) (by rw [hpre]) (by rw [hpre])

/-- The marks on the packs do not matter to what is refused. -/
theorem branchFault_core (core : ∀ a, (objs' a).toPackCore = (objs a).toPackCore)
    (hpre : pre'.toPackCore = pre.toPackCore) :
    branchFault cfg objs' pre' found aborts db ids = branchFault cfg objs pre found aborts db ids := by
  induction ids generalizing pre pre' found aborts db with
  | nil => rfl
  | cons id ids ih =>
    have hblock : (objs' id).block = (objs id).block := by rw [core id]
    unfold branchFault
    rw [hblock, applied_core hpre]
    cases applied cfg pre found aborts db (objs id).block with
    | error e => rfl
    | ok db' => exact ih (core id)

/-- Packs have been removed, and the others rank as before but for the main chain. -/
structure Pruned (f f' : ForkContext) : Prop where
  packs : ∀ a ∈ f'.packs, a ∈ f.packs
  fewer : f'.packs.length < f.packs.length
  core : ∀ a, (f'.objs a).toPackCore = (f.objs a).toPackCore
  confirmed : ∀ a, (f'.objs a).lastConfirmedNum = (f.objs a).lastConfirmedNum

/-- What holds after the branch was applied as far as it goes. -/
inductive BranchEnd (cfg : ChainConfig) (G : BlockPack) (g : Origin) (L : Summary) (s : ChainState)
    (top : Summary) : Option Fault → EStateM.Result Fault ChainState Unit → Prop
  | all {t : ChainState} (good : Good cfg G g t L L) (head : t.blockHead = top) (same : SameTree s t)
      (idle : s.building = none → t.building = none) : BranchEnd cfg G g L s top none (.ok () t)
  | caught {t : ChainState} {msg : String} (good : Good cfg G g t L L) (first : HeadFirst t.fork)
      (pruned : Pruned s.fork t.fork) : BranchEnd cfg G g L s top (some (.fc msg)) (.ok () t)
  | thrown {t : ChainState} {e : Fault} (escapes : ∀ msg, e ≠ .fc msg) :
    BranchEnd cfg G g L s top (some e) (.error e t)

theorem BranchEnd.of_sameTree {top : Summary} {o : Option Fault} {r : EStateM.Result Fault ChainState Unit}
    (hsame : SameTree s t) (hidle : s.building = none → t.building = none)
    (h : BranchEnd cfg G g L t top o r) : BranchEnd cfg G g L s top o r := by
  cases h with
  | all good head same idle => exact .all good head (hsame.trans same) fun hs => idle (hidle hs)
  | caught good first pruned =>
    refine .caught good first ⟨fun a ha => ?_, ?_, fun a => ?_, fun a => ?_⟩
    · rw [← hsame.cores.packs]
      exact pruned.packs a ha
    · rw [← hsame.cores.packs]
      exact pruned.fewer
    · exact (pruned.core a).trans (hsame.cores.core a)
    · exact (pruned.confirmed a).trans (hsame.confirmed a)
  | thrown escapes => exact .thrown escapes

theorem Good.applyBranch_end (h : Good cfg G g s L L)
    (hchain : (s.blockHead :: ids).IsChain fun a b => s.fork.up b = a)
    (hids : ∀ a ∈ ids, a ∈ s.fork.packs ∧ L.num < a.num) :
    BranchEnd cfg G g L s ((s.blockHead :: ids).getLast (List.cons_ne_nil _ _))
      (branchFault cfg s.fork.objs s.headPack s.sink.blockDb.cur s.CanAbort
        s.abortBuild.sink.blockDb.cur ids)
      (XmaxChain.applyBranch cfg ids s) := by
  induction ids generalizing s with
  | nil => exact .all h rfl (.refl s) id
  | cons id ids ih =>
    obtain ⟨blocks, u, hb, ho⟩ := h.backed
    obtain ⟨hup, hchain'⟩ := List.isChain_cons_cons.1 hchain
    obtain ⟨hid, hlow⟩ := hids id List.mem_cons_self
    have hcur : s.abortBuild.sink.blockDb.cur = u.cur := by
      rw [ho.abortBuild]
      rfl
    unfold branchFault XmaxChain.applyBranch
    rw [hcur]
    rcases h.applyPack hb ho hid hup with
      ⟨e, s₁, herr, hun, hwhy⟩ | ⟨s₁, hok, hgood, hhead, hsame, hnone, hwhy⟩
    · rw [herr, hwhy]
      cases e with
      | fc msg =>
        have hup₁ : s₁.fork.up id = s₁.blockHead := by
          rw [hun.fork, hun.blockHead]
          exact hup
        have hid₁ : id ∈ s₁.fork.packs := by
          rw [hun.fork]
          exact hid
        obtain ⟨f', hf', hgood', hfirst, hobjs, hpacks⟩ :=
          (h.unmoved hb hun).removeChain hup₁ hid₁ hlow
        simp only [hf']
        rw [hun.fork] at hobjs hpacks
        refine .caught hgood' hfirst ⟨fun a ha => ((hpacks a).1 ha).1, ?_, fun a => ?_, fun a => ?_⟩
        · have hsub : f'.packs ⊆ s.fork.packs.erase id := fun a ha =>
            (h.inv.nodup.mem_erase_iff).2 ⟨((hpacks a).1 ha).2.1, ((hpacks a).1 ha).1⟩
          have hnodup : f'.packs.Nodup := hgood'.inv.nodup
          have hle := (List.subperm_of_subset hnodup hsub).length_le
          have hpos := List.length_pos_of_mem hid
          rw [List.length_erase_of_mem hid] at hle
          change f'.packs.length < s.fork.packs.length
          omega
        · rw [show f'.objs = s.fork.objs from hobjs]
        · rw [show f'.objs = s.fork.objs from hobjs]
      | _ => exact .thrown fun msg heq => Fault.noConfusion heq
    · rw [hok, hwhy]
      have hnext := ih hgood (by rw [hhead, hsame.cores.up]; exact hchain')
        fun a ha => by rw [hsame.cores.packs]; exact hids a (List.mem_cons_of_mem _ ha)
      have hcore : s₁.headPack.toPackCore = (s.fork.objs id).toPackCore := by
        rw [ChainState.headPack, hhead]
        exact hsame.cores.core id
      have hclosed : s₁.abortBuild = s₁ := by
        rw [ChainState.abortBuild, hnone]
      have hcan : decide s₁.CanAbort = true := decide_eq_true (.inl hnone)
      rw [hclosed, hcan, branchFault_core hsame.cores.core hcore] at hnext
      simp only [hhead] at hnext
      rw [List.getLast_cons_cons]
      exact hnext.of_sameTree hsame fun _ => hnone

end Branch

/-! ## A round -/

section Round

theorem popBlocks_db : ∀ {n : ℕ} {s : ChainState}, popBlocks n s = .ok () t →
    UndoableBy n s.sink.blockDb ∧ t.sink.blockDb = Undo.undo^[n] s.sink.blockDb ∧
      t.building = s.building
  | 0, s, h => by
    cases h
    exact ⟨trivial, rfl, rfl⟩
  | n + 1, s, h => by
    obtain ⟨_, s₁, hpop, hpops⟩ := run_bind_eq_ok.1 h
    obtain ⟨hcan, hdb, hbuilding⟩ := popBlock_db hpop
    obtain ⟨hcan', hdb', hbuilding'⟩ := popBlocks_db hpops
    rw [hdb] at hcan'
    exact ⟨⟨hcan, hcan'⟩, by rw [hdb', hdb, Function.iterate_succ_apply],
      hbuilding'.trans hbuilding⟩

/-- A round that returns has undone what it popped. -/
theorem switchFork_undoable (h : XmaxChain.switchFork cfg s = .ok () t) : s.PopsUndoable := by
  intro _ branches hfetch
  unfold XmaxChain.switchFork at h
  rw [hfetch] at h
  dsimp only at h
  split at h
  · cases h
  · split_ifs at h
    · obtain ⟨_, s₁, hpops, -⟩ := run_bind_eq_ok.1 h
      exact (popBlocks_db hpops).1

theorem abortBuild_congr (hdb : t.sink.blockDb = s.sink.blockDb) (hbuilding : t.building = s.building) :
    t.abortBuild.sink.blockDb = s.abortBuild.sink.blockDb := by
  unfold ChainState.abortBuild
  rw [hbuilding]
  cases s.building with
  | none => exact hdb
  | some pack => exact congrArg Undo.undo hdb

theorem canAbort_congr (hdb : t.sink.blockDb = s.sink.blockDb) (hbuilding : t.building = s.building) :
    t.CanAbort ↔ s.CanAbort := by
  unfold ChainState.CanAbort
  rw [hdb, hbuilding]

theorem ForkContext.Inv.numbersFollow {c : Crypto} {f : ForkContext} {X : Summary} (hi : Inv c f L X) :
    f.NumbersFollow := fun a ha hup => by
  rw [hi.num _ hup, hi.num a ha, hi.upNum a ha]

/-- The state once the blocks of `block_head` are popped to where the branch of the head leaves
them, and the round that goes on from there. -/
structure Popped (cfg : ChainConfig) (G : BlockPack) (g : Origin) (L : Summary) (s : ChainState)
    (branch : List Summary) (t : ChainState) : Prop where
  good : Good cfg G g t L L
  same : SameTree s t
  building : t.building = s.building
  way : Way t.fork.up t.fork.packs s.fork.head branch t.blockHead
  last : (t.blockHead :: branch.reverse).getLast (List.cons_ne_nil _ _) = s.fork.head
  fault : s.switchFault cfg = branchFault cfg t.fork.objs t.headPack t.sink.blockDb.cur t.CanAbort
    t.abortBuild.sink.blockDb.cur branch.reverse
  run : switchFork cfg s = applyBranch cfg branch.reverse t

/-- A round on a head of another branch pops the blocks above where the branch leaves them. -/
theorem Good.popped (h : Good cfg G g s L L) (hhead : s.fork.Anc s.fork.head L)
    (hapart : ¬ s.fork.Related s.fork.head s.blockHead) (hmain : s.fork.headPack.mainChain = false)
    (hundo : s.PopsUndoable) : ∃ branch t, Popped cfg G g L s branch t := by
  have hi := h.inv
  obtain ⟨blocks, u, hb, ho⟩ := h.backed
  have hid : s.headPack.blockId = s.blockHead := hi.blockId _ h.headPack_mem
  obtain ⟨r, hr, -⟩ := fetchBranchFromFork_lowest hi.numbersFollow (hb.anc hi) hhead
  obtain ⟨hfirst, hsecond⟩ := fetchBranchFromFork_ways hr
  obtain ⟨rest, hrest⟩ := hfirst.eq_cons fun heq => hapart (.inl (heq ▸ hsecond.anc))
  obtain ⟨rest', hrest'⟩ := hsecond.eq_cons fun heq => hapart (.inr (heq ▸ hfirst.anc))
  have hcan := hundo hmain r (hid.symm ▸ hr)
  obtain ⟨t, hgood, hsame, ⟨-, hpops, hnode⟩ | ⟨hnot, -⟩⟩ := h.popBlocks hfirst fun _ => hcan
  swap
  · exact absurd hcan hnot
  obtain ⟨-, hdb, hbuilding⟩ := popBlocks_db hpops
  have hcore : t.headPack.toPackCore = (s.fork.objs r.forkNode).toPackCore := by
    rw [ChainState.headPack, hnode]
    exact hsame.cores.core _
  refine ⟨r.second, t, hgood, hsame, hbuilding, ?_, by simp [hrest'], ?_, ?_⟩
  · rw [hnode, hsame.cores.up, hsame.cores.packs]
    exact hsecond
  · have habort : t.abortBuild.sink.blockDb
        = (s.withDb (Undo.undo^[r.first.length] s.sink.blockDb)).abortBuild.sink.blockDb :=
      abortBuild_congr hdb hbuilding
    have hcan' : decide t.CanAbort
        = decide (s.withDb (Undo.undo^[r.first.length] s.sink.blockDb)).CanAbort :=
      decide_eq_decide.2 (canAbort_congr hdb hbuilding)
    rw [branchFault_core hsame.cores.core hcore, habort, hcan', hdb, ChainState.switchFault, hid, hr]
    rfl
  · unfold XmaxChain.switchFork
    rw [hid, hr]
    simp only [hrest, if_true]
    rw [hrest] at hpops
    exact run_bind_ok hpops

/-- What holds after such a round. -/
theorem Good.switchFork_end (h : Good cfg G g s L L) (hhead : s.fork.Anc s.fork.head L)
    (hapart : ¬ s.fork.Related s.fork.head s.blockHead) (hmain : s.fork.headPack.mainChain = false)
    (hundo : s.PopsUndoable) :
    BranchEnd cfg G g L s s.fork.head (s.switchFault cfg) (XmaxChain.switchFork cfg s) := by
  obtain ⟨branch, t, hpop⟩ := h.popped hhead hapart hmain hundo
  have hi := hpop.good.inv
  have hids : ∀ a ∈ branch.reverse, a ∈ t.fork.packs ∧ L.num < a.num := fun a ha => by
    rw [List.mem_reverse] at ha
    have hlt := hpop.way.rank_lt hi.upNum a ha
    have hle := hi.last_le hpop.way.anc.mem_right
    exact ⟨hpop.way.known a ha, by omega⟩
  have hend := hpop.good.applyBranch_end hpop.way.isChain_reverse hids
  rw [hpop.run, hpop.fault, ← hpop.last]
  exact hend.of_sameTree hpop.same fun hs => hpop.building.trans hs

/-- A head above `block_head` leaves no block to pop. -/
theorem Good.switchFork_above (h : Good cfg G g s L L) (hhead : s.fork.Anc s.fork.head s.blockHead) :
    ∃ e, XmaxChain.switchFork cfg s = .error e s := by
  have hi := h.inv
  have hid : s.headPack.blockId = s.blockHead := hi.blockId _ h.headPack_mem
  have hself : s.fork.Anc s.blockHead s.blockHead := .refl h.headPack_mem
  obtain ⟨r, hr, hlow⟩ := fetchBranchFromFork_lowest hi.numbersFollow hself hhead
  obtain ⟨hfirst, hsecond⟩ := fetchBranchFromFork_ways hr
  have hnode : s.blockHead = r.forkNode := hfirst.anc.eq_of_rank hi.upNum
    (le_antisymm (hfirst.anc.rank_le hi.upNum) ((hlow _ hself hhead).rank_le hi.upNum)) |>.symm
  have hnil : r.first = [] := (hfirst.eq_nil_iff (r := Summary.num) fun a ha _ => hi.upNum a ha).2 hnode
  refine ⟨.undefined "origin_branch.begin()", ?_⟩
  unfold XmaxChain.switchFork
  rw [hid, hr]
  simp only [hnil]

end Round

/-! ## The head that a new pack leaves -/

section NewHead

variable {c : Crypto} {f f' : ForkContext} {L' X : Summary}

theorem longestLe_offMain {p q : BlockPack} : longestLe p q.offMain ↔
    q.lastConfirmedNum < p.lastConfirmedNum ∨ q.lastConfirmedNum = p.lastConfirmedNum ∧
      (q.dposIrreversibleNum < p.dposIrreversibleNum
        ∨ q.dposIrreversibleNum = p.dposIrreversibleNum ∧ q.blockNum ≤ p.blockNum) := by
  simp only [longestLe, BlockPack.offMain, Bool.toNat_false]
  omega

theorem longestLe.offMain {p q : BlockPack} (h : longestLe p q) : longestLe p q.offMain := by
  rw [longestLe_offMain]
  unfold longestLe at h
  omega

/-- What becomes irreversible when a pack is added is not below what is confirmed. -/
theorem ForkContext.Inv.finalizes_anc (hi : Inv c f L X) (hh : HeadFirst f)
    (hL' : L' = f.finalizes.getD L) : f.Anc L' X := by
  cases hnum : f.byNumber with
  | nil =>
    have := hi.permNumber.mem_iff.2 hi.last_mem
    simp [hnum] at this
  | cons first rest =>
    obtain rfl := hi.earliest_eq hnum
    have hhm := hi.head_mem hh
    have hid : f.headPack.lastConfirmedId = X := hi.related _ hhm (hi.head_related hh)
    have hcn : f.headPack.lastConfirmedNum = X.num := by
      unfold headPack at hid ⊢
      rw [hi.confirmedNum _ hhm, hid]
    simp only [finalizes, hnum, hid, hcn, hi.num first hi.last_mem] at hL'
    split_ifs at hL' with hlt hdpos
    · rw [hL']
      exact .refl hi.confirmed_mem
    · have hX : X = first := (hi.above.eq_of_rank hi.upNum (by
        have := hi.last_le_confirmed; omega)).symm
      subst hX
      rw [hL']
      exact (hi.dpos_anc hh hdpos).2.1
    · have hX : X = first := (hi.above.eq_of_rank hi.upNum (by
        have := hi.last_le_confirmed; omega)).symm
      subst hX
      rw [hL']
      exact .refl hi.last_mem

/-- The head of a fork database, if it is in it, is above the last irreversible block, and no pack
ranks before it but for the main chain. -/
structure HeadLeads (f : ForkContext) (L : Summary) : Prop where
  anc : f.Anc f.head L
  first : ∀ a ∈ f.packs, longestLe f.headPack (f.objs a).offMain

theorem HeadLeads.of_headFirst (hi : Inv c f L L) (hh : HeadFirst f) : HeadLeads f L := by
  have hmem := hi.head_mem hh
  refine ⟨(hi.head_related hh).anc_of_le hi.upNum (hi.last_le hmem), fun a ha => ?_⟩
  obtain ⟨rest, hrest⟩ := hh
  exact (hi.top hrest ha).2.offMain

theorem HeadLeads.of_sameTree (hsame : SameTree s t) (h : HeadLeads s.fork L) : HeadLeads t.fork L := by
  refine ⟨?_, fun a ha => ?_⟩
  · rw [hsame.cores.anc, hsame.cores.head]
    exact h.anc
  · rw [hsame.cores.packs] at ha
    have hfirst := h.first a ha
    rw [longestLe_offMain] at hfirst ⊢
    rw [headPack, hsame.cores.head, hsame.confirmed, hsame.confirmed, hsame.cores.core,
      hsame.cores.core]
    exact hfirst

theorem HeadLeads.of_settled {H : Type} {lh : LogHandler c H} {h h' : H} (hi : Inv c f L X)
    (hh : HeadFirst f) (hi' : Inv c f' L' L') (hset : Settled lh f h L f' h' L')
    (hL' : L' = f.finalizes.getD L) (hrel : f.Related f.head L') (hmem : f'.head ∈ f'.packs) :
    HeadLeads f' L' := by
  have hup : f'.up = f.up := funext fun a => congrArg PackCore.prevId (hset.core a)
  have hsub : ∀ a b, f'.Anc a b → f.Anc a b := fun a b hab =>
    hab.mono (fun x hx => ((hset.packs x).1 hx).1) fun x _ => by rw [hup]
  have hX : f.Anc L' X := hi.finalizes_anc hh hL'
  have hanc : f'.Anc f'.head L' := by
    rw [hset.head] at hmem ⊢
    have hle : L'.num ≤ f.head.num := by
      rcases ((hset.packs _).1 hmem).2 with heq | hlt
      · rw [heq]
      · exact hlt.le
    have hanc : f.Anc f.head L' := hrel.anc_of_le hi.upNum hle
    unfold ForkContext.Anc
    rw [hup]
    exact hanc.restrict_above hi.upNum hi'.last_mem fun x hx hlt => (hset.packs x).2 ⟨hx, .inr hlt⟩
  refine ⟨hanc, fun a ha => ?_⟩
  have hhead : f'.headPack.lastConfirmedNum = L'.num := by
    rw [headPack, hi'.confirmedNum _ hmem, hi'.related _ hmem (.inl hanc)]
  rw [longestLe_offMain]
  by_cases hra : f'.Related a L'
  · -- both were on the branch of what was confirmed before
    have hlast : (f'.objs a).lastConfirmedNum = L'.num := by
      rw [hi'.confirmedNum a ha, hi'.related a ha hra]
    have hold : ∀ b, f'.Anc b L' → (f.objs b).lastConfirmedNum = X.num := fun b hb => by
      have hbX : f.Anc b X := (hsub b L' hb).trans hX
      rw [hi.confirmedNum b hbX.mem_left, hi.related b hbX.mem_left (.inl hbX)]
    have haL : f'.Anc a L' := hra.anc_of_le hi'.upNum (hi'.last_le ha)
    obtain ⟨rest, hrest⟩ := hh
    have hle := (hi.top hrest ((hset.packs a).1 ha).1).2.offMain
    rw [longestLe_offMain, hold a haL, ← hset.head, hold _ hanc] at hle
    rw [headPack, hset.core, hset.core, ← headPack, hhead, hlast]
    omega
  · have hlt := hi'.unrelated a ha hra
    rw [← hi'.confirmedNum a ha] at hlt
    exact .inl (by rw [hhead]; exact hlt)

theorem ForkContext.Inv.last_unique {X' : Summary} (hi : Inv c f L X) (hi' : Inv c f L' X') : L' = L := by
  rcases hi.lowest L' hi'.last_mem with heq | hlt
  · exact heq
  · have := hi'.last_le hi.last_mem
    omega

theorem HeadLeads.of_addPack {H : Type} {lh : LogHandler c H} {h h' : H} {q : Summary} {pack : BlockPack}
    (hi : Inv c f L X) (htip : lh.tip h = some L) (hq : q ∈ f.packs) (hmade : MadeFrom c (f.objs q) pack)
    (hparent : f.ParentOk q) (hi' : Inv c f' L' L')
    (hadd : addPack lh.handler c pack (f, h) = .ok () (f', h')) (hmem : f'.head ∈ f'.packs) :
    HeadLeads f' L' := by
  obtain ⟨hlow, hwrap⟩ := hparent
  rw [hi.num q hq] at hlow hwrap
  rcases hi.addPack lh htip hq hmade hlow hwrap with
    ⟨msg, herr, -⟩ | ⟨f₁, top, f₂, h₂, L₂, -, hi₁, hfirst, hok, hi₂, -, hset, hL₂, hrel⟩
  · rw [herr] at hadd
    cases hadd
  · rw [hok] at hadd
    cases hadd
    obtain rfl := hi₂.last_unique hi'
    exact .of_settled hi₁ hfirst hi' hset hL₂ hrel hmem

theorem Good.addForkBlock_leads {block : SignedBlock} (h : Good cfg G g s L X) (hok : s.ForkOk cfg block)
    (hadd : XmaxChain.addForkBlock cfg block s = .ok () t) :
    ∃ L', Good cfg G g t L' L' ∧ t.blockHead = s.blockHead ∧
      (t.fork.head ∈ t.fork.packs → HeadLeads t.fork L') := by
  rcases h.addForkBlock hok with ⟨e, herr⟩ | ⟨s₁, L', p, hadd', hgood, hhead, hpack, -⟩
  · rw [herr] at hadd
    cases hadd
  rw [hadd'] at hadd
  cases hadd
  refine ⟨L', hgood, hhead, fun hmem => ?_⟩
  obtain ⟨blocks, u, hb, -⟩ := h.backed
  obtain ⟨below, hlog⟩ := hb.log_head
  have htip : (sinkHandler cfg.crypto ChainDb).tip s.sink = some L := by
    simp only [sinkHandler, hlog, List.head?_cons, Option.map_some, h.inv.id L h.inv.last_mem]
  obtain ⟨hq, hmade⟩ := MadeFrom.of_packOfBlock h.inv.toLinked hpack
  suffices hrun : ForkContext.addPack (onIrreversible cfg.crypto) cfg.crypto p (s.fork, s.sink)
      = .ok () (t.fork, t.sink) from
    HeadLeads.of_addPack h.inv htip hq hmade (hok.1 hq) hgood.inv hrun hmem
  unfold XmaxChain.addForkBlock ForkContext.addBlock at hadd'
  simp only [hpack] at hadd'
  cases hrun : ForkContext.addPack (onIrreversible cfg.crypto) cfg.crypto p (s.fork, s.sink) with
  | error e r =>
    rw [hrun] at hadd'
    cases hadd'
  | ok v r =>
    rw [hrun] at hadd'
    cases hadd'
    rfl

end NewHead

/-! ## All rounds -/

section Rounds

variable {r : ChainState}

/-- What holds at the beginning of every round. -/
structure Turn (cfg : ChainConfig) (G : BlockPack) (g : Origin) (L : Summary) (s : ChainState) : Prop where
  good : Good cfg G g s L L
  leads : s.fork.head ∈ s.fork.packs → HeadLeads s.fork L

/-- A round with nothing more to do: the switch is made just if the round is as it should be. -/
theorem Turn.done_iff (ht : Turn cfg G g L s) (hmain : s.fork.headPack.mainChain = true)  :
    Switched cfg G g old s ↔ RoundOk cfg old s := by
  have hi := ht.good.inv
  obtain ⟨hexec, hrev⟩ := ht.good.database
  constructor
  · rintro ⟨hhead, -, -, -, hrestored⟩
    have hmem : s.fork.head ∈ s.fork.packs := hhead ▸ ht.good.headPack_mem
    refine ⟨hmem, fun _ => hhead.symm, fun hnot => ?_, fun e he => ?_, ?_⟩
    · rw [hmain] at hnot
      cases hnot
    · have hid : s.headPack.blockId = s.blockHead := hi.blockId _ ht.good.headPack_mem
      have hself : s.fork.Anc s.blockHead s.blockHead := .refl ht.good.headPack_mem
      obtain ⟨branches, hbr, hlow⟩ := fetchBranchFromFork_lowest hi.numbersFollow hself hself
      obtain ⟨hfirst, hsecond⟩ := fetchBranchFromFork_ways hbr
      have hnode : s.blockHead = branches.forkNode := by
        refine (hfirst.anc.eq_of_rank hi.upNum ?_).symm
        exact le_antisymm (hfirst.anc.rank_le hi.upNum) ((hlow _ hself hself).rank_le hi.upNum)
      have hnil : branches.second = [] :=
        (hsecond.eq_nil_iff (r := Summary.num) fun a ha _ => hi.upNum a ha).2 hnode
      rw [ChainState.switchFault, hid, ← hhead, hbr] at he
      simp only [hnil] at he
      cases he
    · refine hrestored.imp (·.mem_right) fun hlt => ?_
      rw [ChainState.headPack, hhead] at hlt
      exact (longestLe_total _ _).resolve_right hlt
  · intro hok
    have hanc := (ht.good.main _ hok.known).1 hmain
    have hhead : s.blockHead = s.fork.head := (hok.apart (.inr hanc)).symm
    refine ⟨hhead, ht.good.main, hexec, hrev, ?_⟩
    by_cases hold : s.fork.Anc s.blockHead old
    · exact .inl hold
    · refine .inr fun hle => ?_
      have hlead : longestLe s.fork.headPack (s.fork.objs old).offMain :=
        hok.kept.elim ((ht.leads hok.known).first old) id
      rw [longestLe_offMain] at hlead
      rw [ChainState.headPack, hhead] at hle
      unfold headPack at hlead hmain
      simp only [longestLe, BlockPack.offMain, hmain, Bool.toNat_true, Bool.toNat_false] at hle
      omega

/-- All that is reached from a round is the round and what is reached from the next one. -/
theorem Round.reached_iff {P : ChainState → Prop} (hround : Round cfg s t) :
    (∀ r, Relation.ReflTransGen (Round cfg) s r → P r) ↔
      P s ∧ ∀ r, Relation.ReflTransGen (Round cfg) t r → P r := by
  refine ⟨fun h => ⟨h s .refl, fun r hr => h r (.head hround hr)⟩, fun h r hr => ?_⟩
  rcases hr.cases_head with rfl | ⟨t', hround', hr'⟩
  · exact h.1
  · have heq := hround.2.symm.trans hround'.2
    cases heq
    exact h.2 r hr'

theorem reached_of_main {P : ChainState → Prop} (hmain : s.fork.headPack.mainChain = true) :
    (∀ r, Relation.ReflTransGen (Round cfg) s r → P r) ↔ P s := by
  refine ⟨fun h => h s .refl, fun h r hr => ?_⟩
  rcases hr.cases_head with rfl | ⟨t', hround, -⟩
  · exact h
  · rw [hround.1] at hmain
    cases hmain

/-- A block that leaves the head on the main chain pops nothing. -/
theorem ChainState.undoes_of_main {block : SignedBlock}
    (hmain : (stateOf (XmaxChain.addForkBlock cfg block s)).fork.headPack.mainChain = true) :
    s.Undoes cfg (.pushFork block) := by
  intro t hadd
  rw [hadd] at hmain
  have hmain' : t.fork.headPack.mainChain = true := hmain
  refine (reached_of_main hmain').2 fun hnot => ?_
  rw [hmain'] at hnot
  cases hnot

/-- A head that is in no pack, or on one line with `block_head`. -/
theorem Turn.switchFork_error (ht : Turn cfg G g L s) (hmain : s.fork.headPack.mainChain = false)
    (h : s.fork.head ∉ s.fork.packs ∨ s.fork.Related s.fork.head s.blockHead) :
    ∃ e, switchFork cfg s = .error e s := by
  rcases h with hmem | hup | hdown
  · unfold switchFork
    cases hr : s.fork.fetchBranchFromFork s.headPack.blockId s.fork.head with
    | error e => exact ⟨e, rfl⟩
    | ok branches => exact absurd (fetchBranchFromFork_ways hr).2.anc.mem_left hmem
  · exact ht.good.switchFork_above hup
  · have := (ht.good.main _ hdown.mem_right).2 hdown
    unfold headPack at hmain
    rw [hmain] at this
    cases this

/-- What is kept in a later round was kept before. -/
theorem kept_of_pruned (hlead : HeadLeads s.fork L) (hpruned : Pruned s.fork t.fork)
    (hok : RoundOk cfg old t) :
    old ∈ s.fork.packs ∨ longestLe s.fork.headPack (s.fork.objs old).offMain := by
  refine hok.kept.imp (hpruned.packs old) fun hle => ?_
  have hfirst := hlead.first _ (hpruned.packs _ hok.known)
  rw [longestLe_offMain] at hle hfirst ⊢
  unfold headPack at *
  rw [hpruned.confirmed, hpruned.confirmed, hpruned.core, hpruned.core] at hle
  omega

theorem kept_of_sameTree (hsame : SameTree s t) (hok : RoundOk cfg old t) :
    old ∈ s.fork.packs ∨ longestLe s.fork.headPack (s.fork.objs old).offMain := by
  refine hok.kept.imp (fun hmem => by rwa [hsame.cores.packs] at hmem) fun hle => ?_
  rw [longestLe_offMain] at hle ⊢
  unfold headPack at *
  rwa [hsame.confirmed, hsame.confirmed, hsame.cores.core, hsame.cores.core, hsame.cores.head] at hle

theorem checkForkLoop_of_main {fuel : ℕ} (hmain : s.fork.headPack.mainChain = true) :
    checkForkLoop cfg (fuel + 1) s = .ok () s := if_pos hmain

theorem checkForkLoop_of_round {fuel : ℕ} (hmain : s.fork.headPack.mainChain = false) :
    checkForkLoop cfg (fuel + 1) s = (switchFork cfg >>= fun _ => checkForkLoop cfg fuel) s :=
  if_neg (by rw [hmain]; exact Bool.false_ne_true)

/-- The rounds from one that is as it should be make the switch just if they all are. -/
theorem Turn.checkForkLoop_iff {fuel : ℕ} (ht : Turn cfg G g L s) (hfuel : s.fork.packs.length < fuel) :
    (∃ t, checkForkLoop cfg fuel s = .ok () t ∧ Switched cfg G g old t) ↔
      ∀ r, Relation.ReflTransGen (Round cfg) s r → RoundOk cfg old r := by
  induction fuel generalizing s with
  | zero => omega
  | succ fuel ih =>
    cases hmain : s.fork.headPack.mainChain with
    | true =>
      rw [reached_of_main hmain, checkForkLoop_of_main hmain, ← ht.done_iff hmain]
      exact ⟨fun ⟨t, heq, hsw⟩ => by cases heq; exact hsw, fun hsw => ⟨s, rfl, hsw⟩⟩
    | false =>
      rw [checkForkLoop_of_round hmain]
      -- a round that throws makes no switch
      have hthrown : ∀ {e t}, switchFork cfg s = .error e t → ¬ RoundOk cfg old s →
          ((∃ t, (switchFork cfg >>= fun _ => checkForkLoop cfg fuel) s = .ok () t ∧
            Switched cfg G g old t) ↔ ∀ r, Relation.ReflTransGen (Round cfg) s r → RoundOk cfg old r) :=
        fun hrun hnot => by
          rw [run_bind_error hrun]
          refine ⟨fun ⟨_, heq, _⟩ => ?_, fun h => absurd (h s .refl) hnot⟩
          cases heq
      by_cases hfair : s.fork.head ∈ s.fork.packs ∧ ¬ s.fork.Related s.fork.head s.blockHead
      swap
      · rw [not_and_or, not_not] at hfair
        obtain ⟨e, hrun⟩ := ht.switchFork_error hmain hfair
        refine hthrown hrun fun hok => ?_
        have hrel := hfair.resolve_left (not_not.2 hok.known)
        have := (ht.good.main _ ht.good.headPack_mem).2 (.refl ht.good.headPack_mem)
        rw [← hok.apart hrel] at this
        unfold headPack at hmain
        rw [hmain] at this
        cases this
      obtain ⟨hmem, hapart⟩ := hfair
      have hlead := ht.leads hmem
      by_cases hundo : s.PopsUndoable
      swap
      · cases hrun : switchFork cfg s with
        | error e t => exact hthrown hrun fun hok => hundo hok.undoable
        | ok v t => exact absurd (switchFork_undoable hrun) hundo
      have hround := ht.good.switchFork_end hlead.anc hapart hmain hundo
      have hok : (∀ e, s.switchFault cfg = some e → ∃ msg, e = .fc msg) →
          (old ∈ s.fork.packs ∨ longestLe s.fork.headPack (s.fork.objs old).offMain) →
          RoundOk cfg old s := fun hcaught hkept =>
        ⟨hmem, fun hrel => absurd hrel hapart, hundo, hcaught, hkept⟩
      generalize hfault : s.switchFault cfg = fault, hrun : switchFork cfg s = result at hround
      cases hround with
      | @all t good head same idle =>
        have hmain' : t.fork.headPack.mainChain = true := by
          have hself := (good.main _ good.headPack_mem).2 (.refl good.headPack_mem)
          rw [head] at hself
          rw [headPack, same.cores.head]
          exact hself
        have ht' : Turn cfg G g L t := ⟨good, fun _ => hlead.of_sameTree same⟩
        rw [run_bind_ok hrun, Round.reached_iff ⟨hmain, hrun⟩, reached_of_main hmain',
          ← ht'.done_iff hmain']
        have hpos := List.length_pos_of_mem hmem
        obtain ⟨n, rfl⟩ : ∃ n, fuel = n + 1 := ⟨fuel - 1, by omega⟩
        rw [checkForkLoop_of_main hmain']
        refine ⟨fun ⟨t', heq, hsw⟩ => ?_, fun hsw => ⟨t, rfl, hsw.2⟩⟩
        cases heq
        have hlast := (ht'.done_iff hmain').1 hsw
        refine ⟨hok (fun e he => ?_) (kept_of_sameTree same hlast), hsw⟩
        rw [hfault] at he
        cases he
      | @caught t msg good first pruned =>
        have ht' : Turn cfg G g L t := ⟨good, fun _ => .of_headFirst good.inv first⟩
        rw [run_bind_ok hrun, Round.reached_iff ⟨hmain, hrun⟩, ← ih ht' (by have := pruned.fewer; omega)]
        refine ⟨fun hsw => ⟨hok (fun e he => ?_) ?_, hsw⟩, fun hsw => hsw.2⟩
        · rw [hfault] at he
          cases he
          exact ⟨msg, rfl⟩
        · have hnext := (ih ht' (by have := pruned.fewer; omega)).1 hsw t .refl
          exact kept_of_pruned hlead pruned hnext
      | @thrown t e escapes =>
        refine hthrown hrun fun hok' => ?_
        obtain ⟨msg, he⟩ := hok'.caught e hfault
        exact escapes msg he

end Rounds

/-! ## The switch -/

section Switch

variable {time : ℕ} {key : PublicKey} {sig : Signature} {receipts : List TransactionReceipt}
  {next : List BuilderInfo} {block : SignedBlock}

/-- In every clean run, when a block has been put in for a fork: the switch ends, without an
exception, with the head of the fork database as `block_head` and everything as it should be, just
if each of its rounds is as it should be. -/
theorem fork_switch_iff {d : ChainDb}
    (h : CleanRun cfg (BlockPack.genesis cfg.crypto time key sig receipts next) d s)
    (hok : s.ForkOk cfg block) (hadd : addForkBlock cfg block s = .ok () t) :
    (∃ t', checkFork cfg t = .ok () t' ∧
        Switched cfg (BlockPack.genesis cfg.crypto time key sig receipts next) (.exact d) t.blockHead
          t') ↔
      ∀ r, Relation.ReflTransGen (Round cfg) t r → RoundOk cfg t.blockHead r := by
  obtain ⟨L, X, hgood⟩ := h.good
  obtain ⟨L', hgood', -, hleads⟩ := hgood.addForkBlock_leads hok hadd
  exact Turn.checkForkLoop_iff ⟨hgood', hleads⟩ (Nat.lt_succ_self _)

/-- A pack that names `root` as last confirmed, and nothing as irreversible by DPoS. -/
def NamesRoot (root : Summary) (p : BlockPack) : Prop :=
  p.lastConfirmedId = root ∧ p.dposIrreversibleNum = 0

instance (root : Summary) : DecidablePred (NamesRoot root) := fun p => by
  unfold NamesRoot
  infer_instance

/-- `block_head` is on `root`, and every pack, the one of the block as well, names only `root`. -/
def Rooted (cfg : ChainConfig) (root : Summary) (block : SignedBlock) (s : ChainState) : Prop :=
  s.blockHead ∈ s.fork.packs ∧ s.fork.up s.blockHead = root ∧ root ∈ s.fork.packs ∧
    s.fork.ParentOk block.previous ∧ (∀ a ∈ s.fork.packs, NamesRoot root (s.fork.objs a)) ∧
    (match packOfBlock cfg.crypto s.fork block with
      | .ok p => decide (NamesRoot root p)
      | .error _ => true) = true

instance (root : Summary) : DecidablePred (Rooted cfg root block) := fun s => by
  unfold Rooted ForkContext.ParentOk
  infer_instance

theorem Rooted.forkOk {root : Summary} (h : Rooted cfg root block s) : s.ForkOk cfg block := by
  obtain ⟨hhead, hup, hroot, hparent, hpacks, hpack⟩ := h
  have hanc : s.fork.Anc s.blockHead root := .step hhead (by rw [hup]; exact .refl hroot)
  refine ⟨fun _ => hparent, fun p hp q ⟨hq, _⟩ => ?_⟩
  rw [hp] at hpack
  have hnames : NamesRoot root q := by
    rcases hq with rfl | ⟨a, ha, rfl⟩
    · exact of_decide_eq_true hpack
    · exact hpacks a ha
  exact ⟨fun _ => by rw [hnames.1]; exact hanc, fun hne => absurd hnames.2 hne⟩

/-- Whether a call returns. -/
def hasReturned (r : EStateM.Result Fault ChainState Unit) : Bool :=
  match r with
  | .ok _ _ => true
  | .error _ _ => false

theorem ok_of_hasReturned {r : EStateM.Result Fault ChainState Unit} (h : hasReturned r = true) :
    r = .ok () (stateOf r) := by
  cases r with
  | ok u s => rfl
  | error e s => cases h

/-- A block is confirmed, then a rival of it is received and a block on the rival: the second one
makes the rival's branch the longer one. -/
theorem fork_switch_to_rival :
    ∃ g s t t', oneBuilderDb = .ok g ∧ addForkBlock headerConfig rivalChild s = .ok () t ∧
      t.blockHead = secondBlock.id headerCrypto ∧ checkFork headerConfig t = .ok () t' ∧
      t'.blockHead = rivalChild.id headerCrypto ∧
      ((∃ t', checkFork headerConfig t = .ok () t' ∧
          Switched headerConfig oneBuilderGenesis (.exact g) t.blockHead t') ↔
        ∀ r, Relation.ReflTransGen (Round headerConfig) t r → RoundOk headerConfig t.blockHead r) := by
  obtain ⟨g, hg, hone, hmain, htwo, hadd, hold, hcheck, hnew⟩ := exists_ok_of_eval (x := oneBuilderDb)
    (P := fun g =>
      let s₁ := stateOf (confirmBlock headerConfig secondBlock (.genesis oneBuilderGenesis g))
      let s₂ := stateOf (pushFork headerConfig rivalBlock s₁)
      let added := addForkBlock headerConfig rivalChild s₂
      let checked := checkFork headerConfig (stateOf added)
      Rooted headerConfig oneBuilderGenesis.blockId rivalBlock s₁ ∧
        (stateOf (addForkBlock headerConfig rivalBlock s₁)).fork.headPack.mainChain = true ∧
        Rooted headerConfig oneBuilderGenesis.blockId rivalChild s₂ ∧
        hasReturned added = true ∧ (stateOf added).blockHead = secondBlock.id headerCrypto ∧
        hasReturned checked = true ∧
        (stateOf checked).blockHead = rivalChild.id headerCrypto) (by decide +kernel)
  have hrun : CleanRun headerConfig oneBuilderGenesis g _ :=
    .tail (.single ⟨.confirmBlock secondBlock, secondBlock_careful g, trivial, rfl⟩)
      ⟨.pushFork rivalBlock, hone.forkOk, ChainState.undoes_of_main hmain, rfl⟩
  exact ⟨g, _, _, _, hg, ok_of_hasReturned hadd, hold, ok_of_hasReturned hcheck, hnew,
    fork_switch_iff hrun htwo.forkOk (ok_of_hasReturned hadd)⟩

/-- A block on genesis whose header has another root than its transactions have. -/
def wrongRoot : SignedBlock := { rivalBlock with trxsMroot := ⟨1, 1⟩ }

/-- A block on it. -/
def wrongRootChild : SignedBlock :=
  { secondBlock with previous := wrongRoot.id headerCrypto, timestamp := 103 }

/-- The first block of the longer branch is refused and removed with its child. The head is the old
one again, on the pack that the blocks were popped to: there is none to pop, and the old branch stays
undone. -/
theorem old_branch_not_restored :
    ∃ g s t, oneBuilderDb = .ok g ∧
      s = chainCalls headerConfig [.confirmBlock secondBlock, .pushFork wrongRoot]
        (.genesis oneBuilderGenesis g) ∧
      addForkBlock headerConfig wrongRootChild s = .ok () t ∧
      t.blockHead = secondBlock.id headerCrypto ∧
      ¬ ∃ t', checkFork headerConfig t = .ok () t' ∧
        Switched headerConfig oneBuilderGenesis (.exact g) t.blockHead t' := by
  obtain ⟨g, hg, hadd, hold, hcheck, -⟩ := exists_ok_of_eval (x := oneBuilderDb)
    (P := fun g =>
      let added := addForkBlock headerConfig wrongRootChild
        (chainCalls headerConfig [.confirmBlock secondBlock, .pushFork wrongRoot]
          (.genesis oneBuilderGenesis g))
      let checked := checkFork headerConfig (stateOf added)
      hasReturned added = true ∧ (stateOf added).blockHead = secondBlock.id headerCrypto ∧
        hasReturned checked = false ∧ (stateOf checked).blockHead = oneBuilderGenesis.blockId)
    (by decide +kernel)
  refine ⟨g, _, _, hg, rfl, ok_of_hasReturned hadd, hold, ?_⟩
  rintro ⟨t', ht', -⟩
  rw [ht'] at hcheck
  cases hcheck

end Switch

end XmaxChain
