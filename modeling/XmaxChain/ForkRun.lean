import XmaxChain.ForkRemove

/-!
# Runs of the fork database

The operations of the fork database over a chain's log, in any order from genesis. The handler
records what is passed to it. A confirmation that comes late, or on another branch than what is
irreversible, and a block on a parent below the last confirmed block, mark packs of one branch
with a block of another; a run without these passes on the confirmed branch and nothing else.
-/

namespace XmaxChain

open ParentWalk

variable {D : Type} {c : Crypto}

/-- A block built here on a known parent, before it is built: its slot's time, the builders it
elects, if any, its receipts and the key it is signed with. -/
structure LocalBlock where
  parent : Summary
  when : ℕ
  next : Option BuilderRule
  receipts : List TransactionReceipt
  privateKey : ℕ

def LocalBlock.elect (b : LocalBlock) (pack : BlockPack) : Except Fault BlockPack :=
  match b.next with
  | none => .ok pack
  | some rule => pack.setNextBuilders rule

def LocalBlock.pack (c : Crypto) (f : ForkContext) (b : LocalBlock) : Except Fault BlockPack := do
  match f.getBlock b.parent with
  | none => .error (.fc "parent")
  | some pre =>
    let pack ← pre.initByPrePack b.when true
    let pack ← b.elect pack
    let pack := { pack with block := { pack.block with receipts := b.receipts } }
    return ((pack.generateBlock c).signBlock c b.privateKey).makeFinalBlock

inductive ForkOp
  | addPack (b : LocalBlock)
  | addBlock (block : SignedBlock)
  | addConfirmation (skip : Bool) (conf : BlockConfirmation)
  | removeChain (start : Summary)

/-- The handler of the chain, recording the packs it is given. -/
def recordHandler (c : Crypto) (D : Type) : LogHandler c (Sink D × List PackCore) where
  handler p s := do
    let sink ← onIrreversible c p s.1
    return (sink, s.2 ++ [p.toPackCore])
  tip s := (sinkHandler c D).tip s.1
  advance p s := (irreversibleBlock p s.1, s.2 ++ [p])
  accepts := fun {p s L} htip hprev hnum => by
    have := (sinkHandler c D).accepts htip hprev hnum
    change onIrreversible c p s.1 = _ at this
    rw [this]
    rfl
  tip_advance := fun _ _ => rfl

abbrev ForkState (D : Type) := ForkContext × (Sink D × List PackCore)

def liftFork {H : Type} (x : ForkContext → Except Fault ForkContext) :
    EStateM Fault (ForkContext × H) Unit := fun s =>
  match x s.1 with
  | .error e => .error e s
  | .ok f => .ok () (f, s.2)

def forkStep (c : Crypto) : ForkOp → EStateM Fault (ForkState D) Unit
  | .addPack b => fun s =>
    match b.pack c s.1 with
    | .error e => .error e s
    | .ok pack => ForkContext.addPack (recordHandler c D).handler c pack s
  | .addBlock block => do
    let _ ← ForkContext.addBlock (recordHandler c D).handler c block
  | .addConfirmation skip conf => liftFork (·.addConfirmation c skip conf)
  | .removeChain start => liftFork (·.removeChain start)

namespace ForkContext

/-- A parent that is not below the last block confirmed on its branch, and whose children's number
does not wrap. -/
def ParentOk (f : ForkContext) (q : Summary) : Prop :=
  (f.objs q).lastConfirmedNum ≤ (f.objs q).blockNum ∧ (f.objs q).blockNum + 1 < 2 ^ 32

/-- The confirmation is taken and is the one that its block was short of. -/
def Confirms (c : Crypto) (f : ForkContext) (skip : Bool) (conf : BlockConfirmation) : Prop :=
  ∃ p, (f.objs conf.blockId).addConfirmation c skip conf = .ok p ∧ p.enoughConfirmation = true
    ∧ p.lastConfirmedNum < p.blockNum

/-- The block is above everything confirmed so far and on the branch of the last irreversible
block. -/
def ConfirmOk (f : ForkContext) (id : Summary) : Prop :=
  (∀ a ∈ f.packs, (f.objs a).lastConfirmedNum < id.num)
    ∧ ∃ L, f.Anc id L ∧ (f.objs L).irreversibleConfirmed = true

/-- A step that does not mix up the branches. -/
def Careful (c : Crypto) (f : ForkContext) : ForkOp → Prop
  | .addPack b => b.parent ∈ f.packs → f.ParentOk b.parent
  | .addBlock block => block.previous ∈ f.packs → f.ParentOk block.previous
  | .addConfirmation skip conf => f.Confirms c skip conf → f.ConfirmOk conf.blockId
  | .removeChain start => ∀ a ∈ f.packs, (f.objs a).lastConfirmedNum < start.num

end ForkContext

/-- The states of the runs from genesis whose steps are all careful. A step that throws leaves what
it has done. -/
inductive ForkRun (c : Crypto) (G : BlockPack) (d : D) : ForkState D → Prop
  | start : ForkRun c G d (.genesis G, ⟨[G.block], 0, { cur := d, revision := 1 }⟩, [])
  | step {s : ForkState D} {op : ForkOp} (run : ForkRun c G d s) (careful : s.1.Careful c op) :
      ForkRun c G d (stateOf (forkStep c op s))

namespace ForkContext

section MadeFrom

variable {pre q : BlockPack} {when : ℕ} {mainchain : Bool}

/-- A received block's pack. -/
theorem MadeFrom.of_block {b : SignedBlock} (h : pre.initByPrePack when mainchain = .ok q)
    (hnum : pre.blockNum = pre.blockId.num) (hprev : b.previous = pre.blockId) :
    MadeFrom c pre (q.generateByBlock c b) := by
  obtain ⟨_, _, _, _, _, _, _, hirr, hcn, hci, hd⟩ := initByPrePack_eq_ok h
  refine ⟨hprev, hprev, rfl, ?_, hcn, hci, hirr, hd⟩
  change u32 (b.previous.num + 1) = _
  rw [hprev, hnum]

/-- A pack built here: what happens to it between its making and its sealing does not matter, if it
keeps its place. -/
theorem MadeFrom.of_final {q' : BlockPack} (h : pre.initByPrePack when mainchain = .ok q)
    (hprev : q'.prevId = q.prevId) (hnum : q'.blockNum = q.blockNum)
    (hcn : q'.lastConfirmedNum = q.lastConfirmedNum) (hci : q'.lastConfirmedId = q.lastConfirmedId)
    (hirr : q'.irreversibleConfirmed = q.irreversibleConfirmed)
    (hd : ((q'.dposIrreversibleNum, q'.dposIrreversibleId), q'.lastBlockOfBuilders)
      = ((q.dposIrreversibleNum, q.dposIrreversibleId), q.lastBlockOfBuilders))
    (hid : q'.blockId = q'.newHeader.id c) : MadeFrom c pre q'.makeFinalBlock := by
  obtain ⟨_, _, hhead, _, hn, _, _, hirr', hcn', hci', hd'⟩ := initByPrePack_eq_ok h
  have hprev' : q'.newHeader.previous = pre.blockId := by
    have : q.prevId = pre.blockId := by unfold PackCore.prevId; rw [hhead]
    exact hprev.trans this
  exact ⟨hprev', hprev', hid, hnum.trans hn, hcn.trans hcn', hci.trans hci', hirr.trans hirr',
    hd.trans hd'⟩

theorem MadeFrom.of_localBlock {f : ForkContext} {b : LocalBlock} {pack : BlockPack}
    (h : b.pack c f = .ok pack) : b.parent ∈ f.packs ∧ MadeFrom c (f.objs b.parent) pack := by
  unfold LocalBlock.pack getBlock at h
  by_cases hmem : b.parent ∈ f.packs
  swap
  · simp [hmem] at h
  simp only [hmem, if_true] at h
  obtain ⟨q, hq, h⟩ := bind_eq_ok.1 h
  obtain ⟨q', hq', h⟩ := bind_eq_ok.1 h
  cases h
  refine ⟨hmem, ?_⟩
  unfold LocalBlock.elect at hq'
  split at hq'
  · cases hq'
    exact .of_final hq rfl rfl rfl rfl rfl rfl rfl
  · obtain ⟨_, _, hq'⟩ := bind_eq_ok.1 hq'
    obtain ⟨_, _, hq'⟩ := bind_eq_ok.1 hq'
    cases hq'
    exact .of_final hq rfl rfl rfl rfl rfl rfl rfl

/-- The pack of a received block is made from that of its parent. -/
theorem packOfBlock_ok {f : ForkContext} {b : SignedBlock} {pack : BlockPack}
    (h : packOfBlock c f b = .ok pack) :
    b.previous ∈ f.packs ∧ ∃ q, (f.objs b.previous).initByPrePack b.timestamp false = .ok q ∧
      pack = q.generateByBlock c b := by
  unfold packOfBlock getBlock at h
  by_cases hmem : b.previous ∈ f.packs
  swap
  · simp [hmem] at h
  simp only [hmem, if_true] at h
  obtain ⟨q, hq, h⟩ := bind_eq_ok.1 h
  obtain ⟨_, _, h⟩ := bind_eq_ok.1 h
  split at h
  · cases h
  obtain ⟨_, _, h⟩ := bind_eq_ok.1 h
  cases h
  exact ⟨hmem, q, hq, rfl⟩

theorem MadeFrom.of_packOfBlock {f : ForkContext} {b : SignedBlock} {pack : BlockPack}
    (hl : Linked c f) (h : packOfBlock c f b = .ok pack) :
    b.previous ∈ f.packs ∧ MadeFrom c (f.objs b.previous) pack := by
  obtain ⟨hmem, q, hq, rfl⟩ := packOfBlock_ok h
  refine ⟨hmem, .of_block hq ?_ (hl.blockId _ hmem).symm⟩
  rw [hl.num _ hmem, hl.blockId _ hmem]

end MadeFrom

section Confirmation

variable {f f' : ForkContext} {L X : Summary} {skip : Bool} {conf : BlockConfirmation}

theorem addConfirmation_eq_ok {p p' : BlockPack} (h : p.addConfirmation c skip conf = .ok p') :
    ∃ confs, p' = { p with confirmations := confs } := by
  unfold BlockPack.addConfirmation at h
  split_ifs at h
  · cases h; exact ⟨_, rfl⟩
  · cases h; exact ⟨p.confirmations, rfl⟩
  · split at h
    · cases h
    · split_ifs at h
      cases h
      exact ⟨_, rfl⟩

/-- A confirmation that completes a block marks its branches; any other one leaves what is
confirmed as it was. -/
theorem Inv.addConfirmation (hi : Inv c f L X)
    (hok : f.Confirms c skip conf → f.ConfirmOk conf.blockId)
    (hf : f.addConfirmation c skip conf = .ok f') :
    (∃ X', Inv c f' L X') ∧ SameCores f f'
      ∧ ∀ a, (f'.objs a).mainChain = (f.objs a).mainChain := by
  unfold ForkContext.addConfirmation getBlock at hf
  by_cases hmem : conf.blockId ∈ f.packs
  swap
  · simp [hmem] at hf
  simp only [hmem, if_true] at hf
  obtain ⟨p, hp, hf⟩ := bind_eq_ok.1 hf
  obtain ⟨confs, hpe⟩ := addConfirmation_eq_ok hp
  set f₁ := f.modifyObj conf.blockId fun _ => p with hf₁
  have hobj : ∀ a, f₁.objs a = if a = conf.blockId then p else f.objs a := fun a => by
    rw [hf₁, modifyObj_objs, Function.update_apply]
  have hsame : SameCores f f₁ := ⟨rfl, rfl, fun a => by
    rw [hobj]; split_ifs with h <;> simp [h, hpe]⟩
  have hmarks : ∀ a, (f₁.objs a).lastConfirmedNum = (f.objs a).lastConfirmedNum
      ∧ (f₁.objs a).lastConfirmedId = (f.objs a).lastConfirmedId
      ∧ (f₁.objs a).irreversibleConfirmed = (f.objs a).irreversibleConfirmed := fun a => by
    rw [hobj]; split_ifs with h <;> simp [h, hpe]
  have hmain : ∀ a, (f₁.objs a).mainChain = (f.objs a).mainChain := fun a => by
    rw [hobj]; split_ifs with h <;> simp [h, hpe]
  have hcont : Container f₁ := by
    refine ⟨hi.nodup, hi.permNumber, hi.permLongest, hi.sortedNumber.imp fun {a b} hab => ?_,
      hi.sortedLongest.imp fun {a b} hab => ?_⟩
    · unfold numberLe at hab ⊢
      rw [hmain, hmain, hsame.core a, hsame.core b]
      exact hab
    · unfold longestLe at hab ⊢
      rw [hmain, hmain, (hmarks a).1, (hmarks b).1, hsame.core a, hsame.core b]
      exact hab
  have hi₁ : Inv c f₁ L X := hi.of_marks hcont hsame hmarks
  split_ifs at hf with hconf
  · have hZ : f.ConfirmOk conf.blockId := hok ⟨p, hp, hconf.1, hconf.2⟩
    obtain ⟨hlt, L', hanc, hirr⟩ := hZ
    have hL : L' = L := (hi.irreversible L' hanc.mem_right).1 hirr
    subst hL
    have hX := hlt X hi.confirmed_mem
    rw [hi.confirmed_self] at hX
    obtain ⟨f₂, hf₂, hi₂, hsame₂, hobjs₂⟩ :=
      hi₁.setLastConfirmed (Z := conf.blockId) (by rw [hsame.anc]; exact hanc) hX
    rw [hf₂] at hf
    cases hf
    refine ⟨⟨_, hi₂⟩, hsame.trans hsame₂, fun a => ?_⟩
    rw [← hmain a]
    by_cases hr : f₁.Related a conf.blockId
    · rw [(hobjs₂ a).1 hr]; rfl
    · rw [(hobjs₂ a).2 hr]
  · rw [← Except.ok.inj hf]
    exact ⟨⟨X, hi₁⟩, hsame, hmain⟩

end Confirmation

end ForkContext

section Run

open ForkContext

variable {G : BlockPack} {d : D} {s : ForkState D}

/-- The packs passed on so far follow one another from genesis to `L`. -/
def PassedTo (G : BlockPack) (passed : List PackCore) (L : Summary) : Prop :=
  (G.toPackCore :: passed).IsChain (fun p q => q.prevId = p.blockId ∧ q.blockNum = p.blockNum + 1)
    ∧ ((G.toPackCore :: passed).getLast (List.cons_ne_nil _ _)).blockId = L
    ∧ ((G.toPackCore :: passed).getLast (List.cons_ne_nil _ _)).blockNum = L.num

theorem PassedTo.append {f : ForkContext} (hl : Linked c f) :
    ∀ {ids : List Summary} {passed : List PackCore} {L : Summary}, PassedTo G passed L →
      (L :: ids).IsChain (fun a b => f.up b = a) → (∀ a ∈ ids, a ∈ f.packs) →
      PassedTo G (passed ++ ids.map fun a => (f.objs a).toPackCore)
        ((L :: ids).getLast (List.cons_ne_nil _ _))
  | [], passed, L, h, _, _ => by simpa using h
  | a :: ids, passed, L, h, hchain, hmem => by
    obtain ⟨hup, hchain'⟩ := List.isChain_cons_cons.1 hchain
    have ha := hmem a List.mem_cons_self
    have hstep : PassedTo G (passed ++ [(f.objs a).toPackCore]) a := by
      obtain ⟨hlinked, hid, hnum⟩ := h
      refine ⟨?_, by simp [hl.blockId a ha], by simp [hl.num a ha]⟩
      rw [← List.cons_append]
      refine List.isChain_append.2 ⟨hlinked, List.isChain_singleton _, fun p hp q hq => ?_⟩
      rw [List.getLast?_eq_getLast_of_ne_nil (List.cons_ne_nil _ _), Option.mem_some_iff] at hp
      simp only [List.head?_cons, Option.mem_some_iff] at hq
      subst hp hq
      rw [hid, hnum, hl.num a ha]
      have hn := hl.upNum a ha
      rw [hup] at hn
      exact ⟨hup, hn.symm⟩
    have := PassedTo.append hl hstep hchain' fun b hb => hmem b (List.mem_cons_of_mem _ hb)
    rw [List.getLast_cons_cons]
    simpa using this

/-- The exceptions of `on_irreversible`. -/
def FromHandler (e : Fault) : Prop :=
  e = .fc "error block" ∨ e = .fc "new block doesn't link to pre block head"
    ∨ e = .undefined "on_irreversible"

instance : DecidablePred FromHandler := fun e => by unfold FromHandler; infer_instance

theorem not_fromHandler_of_initByPrePack {pre : BlockPack} {when : ℕ} {mainchain : Bool} {e : Fault}
    (h : pre.initByPrePack when mainchain = .error e) : ¬ FromHandler e := by
  unfold BlockPack.initByPrePack at h
  simp only [] at h
  split at h <;> cases h
  decide

theorem not_fromHandler_of_localBlock {b : LocalBlock} {f : ForkContext} {e : Fault}
    (h : b.pack c f = .error e) : ¬ FromHandler e := by
  unfold LocalBlock.pack at h
  split at h
  · cases h; decide
  · rcases bind_eq_error.1 h with h | ⟨_, _, h⟩
    · exact not_fromHandler_of_initByPrePack h
    rcases bind_eq_error.1 h with h | ⟨_, _, h⟩
    · unfold LocalBlock.elect at h
      split at h
      · cases h
      · rcases bind_eq_error.1 h with h | ⟨_, _, h⟩
        · rw [(fcAssert_eq_error.1 h).2]; decide
        rcases bind_eq_error.1 h with h | ⟨_, _, h⟩
        · rw [(fcAssert_eq_error.1 h).2]; decide
        · cases h
    · cases h

theorem not_fromHandler_of_packOfBlock {b : SignedBlock} {f : ForkContext} {e : Fault}
    (h : packOfBlock c f b = .error e) : ¬ FromHandler e := by
  unfold packOfBlock at h
  split at h
  · cases h; decide
  · rcases bind_eq_error.1 h with h | ⟨_, _, h⟩
    · exact not_fromHandler_of_initByPrePack h
    rcases bind_eq_error.1 h with h | ⟨_, _, h⟩
    · rw [(fcAssert_eq_error.1 h).2]; decide
    split at h
    · cases h; decide
    rcases bind_eq_error.1 h with h | ⟨_, _, h⟩
    · rw [(fcAssert_eq_error.1 h).2]; decide
    · cases h

theorem not_fromHandler_of_addConfirmation {skip : Bool} {conf : BlockConfirmation}
    {f : ForkContext} {e : Fault} (h : f.addConfirmation c skip conf = .error e) :
    ¬ FromHandler e := by
  unfold ForkContext.addConfirmation at h
  split at h
  · cases h; decide
  · rcases bind_eq_error.1 h with h | ⟨_, _, h⟩
    · unfold BlockPack.addConfirmation at h
      split_ifs at h
      split at h
      · cases h; decide
      · split_ifs at h
        cases h; decide
    · simp only [] at h
      split_ifs at h
      unfold ForkContext.setLastConfirmed at h
      split_ifs at h
      cases h; decide

/-- A step that throws has been refused before it did anything, and not by the handler; what a step
passes on is the last confirmed block and ancestors of it. -/
structure StepFine (s : ForkState D) (r : EStateM.Result Fault (ForkState D) Unit) : Prop where
  error : ∀ e s', r = .error e s' → ¬ FromHandler e ∧ s' = s
  passed : ∃ passed, (stateOf r).2.2 = s.2.2 ++ passed ∧ ∀ p ∈ passed,
    ParentWalk.Anc (stateOf r).1.up (passed.map (·.blockId))
      (stateOf r).1.headPack.lastConfirmedId p.blockId

theorem StepFine.refused {e : Fault} (h : ¬ FromHandler e) : StepFine s (.error e s) :=
  ⟨fun _ _ heq => by cases heq; exact ⟨h, rfl⟩, [], by simp [stateOf]⟩

theorem StepFine.silent {f : ForkContext} : StepFine s (.ok () (f, s.2)) :=
  ⟨fun _ _ heq => (by cases heq), [], by simp [stateOf]⟩

def RunInv (c : Crypto) (G : BlockPack) (s : ForkState D) : Prop :=
  ∃ L X, Inv c s.1 L X ∧ (recordHandler c D).tip s.2 = some L ∧ PassedTo G s.2.2 L

theorem advanceAll_record (f : ForkContext) (ids : List Summary) (h : Sink D × List PackCore) :
    (advanceAll (recordHandler c D) f ids h).2
      = h.2 ++ ids.map fun a => (f.objs a).toPackCore := by
  unfold advanceAll
  induction ids generalizing h with
  | nil => simp
  | cons a ids ih => rw [List.foldl_cons, ih]; simp [recordHandler]

/-- One pack on a good parent. -/
theorem RunInv.addPack (h : RunInv c G s) {q : Summary} {pack : BlockPack} (hq : q ∈ s.1.packs)
    (hmade : MadeFrom c (s.1.objs q) pack) (hparent : s.1.ParentOk q) :
    RunInv c G (stateOf (ForkContext.addPack (recordHandler c D).handler c pack s))
      ∧ StepFine s (ForkContext.addPack (recordHandler c D).handler c pack s) := by
  obtain ⟨f, hsink⟩ := s
  obtain ⟨L, X, hi, htip, hpassed⟩ := h
  obtain ⟨hlow, hwrap⟩ := hparent
  rw [hi.num q hq] at hlow hwrap
  rcases hi.addPack (recordHandler c D) htip hq hmade hlow hwrap with
    ⟨msg, hadd, -, hmsg⟩ | ⟨f₁, top, f', h', L', -, hi₂, -, hadd, hinv, htip', hset, -, hrel⟩
  · rw [hadd]
    exact ⟨⟨L, X, hi, htip, hpassed⟩, .refused (by subst hmsg; decide)⟩
  · obtain ⟨ids, hchain, hlast, hmem, hadv⟩ := hset.path
    have hpass : h'.2 = hsink.2 ++ ids.map fun a => ((f₁.withHead top).objs a).toPackCore := by
      rw [hadv, advanceAll_record]
    have hup : f'.up = (f₁.withHead top).up :=
      funext fun a => congrArg PackCore.prevId (hset.core a)
    have hids : (ids.map fun a => ((f₁.withHead top).objs a).toPackCore).map (·.blockId) = ids := by
      rw [List.map_map]
      refine (List.map_congr_left fun a ha => ?_).trans (List.map_id _)
      exact hi₂.blockId a (hmem a ha)
    have hlc : f'.headPack.lastConfirmedId = L' := by
      unfold headPack
      rw [hset.head]
      exact hset.confirmed top hrel
    rw [hadd]
    refine ⟨⟨L', L', hinv, htip', ?_⟩, fun _ _ heq => (by cases heq), _, hpass, fun p hp => ?_⟩
    · change PassedTo G h'.2 L'
      rw [hpass, ← hlast]
      exact hpassed.append hi₂.toLinked hchain hmem
    · simp only [stateOf]
      rw [hids, hlc, hup, ← hlast]
      obtain ⟨a, ha, rfl⟩ := List.mem_map.1 hp
      rw [hi₂.blockId a (hmem a ha)]
      exact anc_of_isChain hchain a ha

theorem RunInv.step (h : RunInv c G s) {op : ForkOp} (hop : s.1.Careful c op) :
    RunInv c G (stateOf (forkStep c op s)) ∧ StepFine s (forkStep c op s) := by
  obtain ⟨L, X, hi, htip, hpassed⟩ := id h
  cases op with
  | addPack b =>
    simp only [forkStep]
    split
    · rename_i e he
      exact ⟨h, .refused (not_fromHandler_of_localBlock he)⟩
    · rename_i pack hpack
      obtain ⟨hq, hmade⟩ := MadeFrom.of_localBlock hpack
      exact h.addPack hq hmade (hop hq)
  | addBlock block =>
    simp only [forkStep, bind, EStateM.bind, ForkContext.addBlock]
    cases hpack : packOfBlock c s.1 block with
    | error e => exact ⟨h, .refused (not_fromHandler_of_packOfBlock hpack)⟩
    | ok pack =>
      obtain ⟨hq, hmade⟩ := MadeFrom.of_packOfBlock hi.toLinked hpack
      have := h.addPack hq hmade (hop hq)
      simp only []
      cases hadd : ForkContext.addPack (recordHandler c D).handler c pack s with
      | error e s' => rw [hadd] at this; exact this
      | ok u s' => rw [hadd] at this; exact this
  | addConfirmation skip conf =>
    simp only [forkStep, liftFork]
    split
    · rename_i e he
      exact ⟨h, .refused (not_fromHandler_of_addConfirmation he)⟩
    · rename_i f' hf'
      obtain ⟨⟨X', hi'⟩, -, -⟩ := hi.addConfirmation hop hf'
      exact ⟨⟨L, X', hi', htip, hpassed⟩, .silent⟩
  | removeChain start =>
    have hlt := hop X hi.confirmed_mem
    rw [hi.confirmed_self] at hlt
    obtain ⟨f', hf', hi', -, -, -⟩ := hi.removeChain hlt
    simp only [forkStep, liftFork, hf']
    exact ⟨⟨L, X, hi', htip, hpassed⟩, .silent⟩

variable {time : ℕ} {key : PublicKey} {sig : Signature} {receipts : List TransactionReceipt}
  {next : List BuilderInfo}

theorem ForkContext.Inv.genesis :
    Inv c (.genesis (BlockPack.genesis c time key sig receipts next))
      (BlockPack.genesis c time key sig receipts next).blockId
      (BlockPack.genesis c time key sig receipts next).blockId := by
  set G := BlockPack.genesis c time key sig receipts next with hG
  have hself : (ForkContext.genesis G).objs G.blockId = G := by
    simp only [ForkContext.genesis, Function.update_self]
  have hmem : ∀ a, a ∈ (ForkContext.genesis G).packs ↔ a = G.blockId := fun a =>
    List.mem_singleton
  have hanc : (ForkContext.genesis G).Anc G.blockId G.blockId := .refl (List.mem_singleton_self _)
  refine ⟨⟨List.nodup_singleton _, .refl _, .refl _, List.pairwise_singleton _ _,
    List.pairwise_singleton _ _⟩, ⟨?_, ?_, ?_, ?_, ?_⟩, List.mem_singleton_self _, ?_, hanc,
    ?_, ?_, ?_, ?_, ?_, ?_⟩ <;> intro a ha <;> rw [hmem] at ha <;> subst ha
  · rw [hself]
  · rw [hself]; rfl
  · rw [hself]; rfl
  · unfold ForkContext.up; rw [hself]; rfl
  · unfold ForkContext.up; rw [hself]; rfl
  · exact .inl rfl
  · rw [hself]; rfl
  · intro _; rw [hself]; rfl
  · exact fun hr => absurd (.inl hanc) hr
  · unfold ForkContext.up; rw [hself]; right; exact Nat.zero_le _
  · rw [hself]; simp [hG, BlockPack.genesis]
  · intro e he
    rw [hself] at he
    simp [candidates, hG, BlockPack.genesis, BlockPack.initDefault] at he

theorem ForkRun.inv (h : ForkRun c (BlockPack.genesis c time key sig receipts next) d s) :
    RunInv c (BlockPack.genesis c time key sig receipts next) s := by
  induction h with
  | start => exact ⟨_, _, Inv.genesis, rfl, List.isChain_singleton _, rfl, rfl⟩
  | step _ careful ih => exact (ih.step careful).1

/-- In every careful run the packs passed on are linked one to the next from genesis, and every
careful step passes on only the last confirmed block and its ancestors and never fails in the
handler. -/
theorem irreversible_only_confirmed
    (h : ForkRun c (BlockPack.genesis c time key sig receipts next) d s) :
    ((BlockPack.genesis c time key sig receipts next).toPackCore :: s.2.2).IsChain
        (fun p q => q.prevId = p.blockId ∧ q.blockNum = p.blockNum + 1)
      ∧ ∀ op, s.1.Careful c op → StepFine s (forkStep c op s) := by
  obtain ⟨L, X, -, -, hchain, -⟩ := h.inv
  exact ⟨hchain, fun op hop => (h.inv.step hop).2⟩

/-- A block of the contract account on a known parent, signed with its key. -/
def xmaxBlock (previous : Summary) (timestamp : ℕ) : SignedBlock :=
  { previous, timestamp, builder := xmaxContractName, builderSignature := 7 }

def xmaxConfirmation (blockId : Summary) : BlockConfirmation := ⟨blockId, xmaxContractName, 7⟩

def forkStart : ForkState Unit :=
  (.genesis twoBuilderGenesis, ⟨[twoBuilderGenesis.block], 0, { cur := (), revision := 1 }⟩, [])

/-- The state that operations lead to. -/
def forkAfter (ops : List ForkOp) : ForkState Unit :=
  ops.foldl (fun s op => stateOf (forkStep stampCrypto op s)) forkStart

/-- Block two on genesis at stamp 101, and its confirmation. -/
def confirmedTwo : List ForkOp :=
  let G := twoBuilderGenesis.blockId
  [.addBlock (xmaxBlock G 101),
    .addConfirmation false (xmaxConfirmation ((xmaxBlock G 101).id stampCrypto))]

/-- Block three on block two at stamp 102. -/
def blockThree : SignedBlock :=
  xmaxBlock ((xmaxBlock twoBuilderGenesis.blockId 101).id stampCrypto) 102

theorem irreversible_only_confirmed_two :
    ∃ s : ForkState Unit, ForkRun stampCrypto twoBuilderGenesis () s
      ∧ s.2.2.map (·.blockNum) = [2] ∧ ∀ op, s.1.Careful stampCrypto op →
        StepFine s (forkStep stampCrypto op s) := by
  have h₁ : ForkRun stampCrypto twoBuilderGenesis () (forkAfter (confirmedTwo.take 1)) := by
    have hcareful : forkStart.1.Careful stampCrypto
        (.addBlock (xmaxBlock twoBuilderGenesis.blockId 101)) := fun _ => by
      unfold ParentOk
      decide
    exact .step .start hcareful
  have h₂ : ForkRun stampCrypto twoBuilderGenesis () (forkAfter confirmedTwo) := by
    have hup : (forkAfter (confirmedTwo.take 1)).1.up blockThree.previous
        = twoBuilderGenesis.blockId := by decide
    have hanc : (forkAfter (confirmedTwo.take 1)).1.Anc blockThree.previous
        twoBuilderGenesis.blockId := by
      refine .step (by decide) ?_
      rw [hup]
      exact .refl (by decide)
    have hcareful : (forkAfter (confirmedTwo.take 1)).1.Careful stampCrypto
        (.addConfirmation false (xmaxConfirmation blockThree.previous)) := fun _ =>
      ⟨by decide, _, hanc, by decide⟩
    exact .step h₁ hcareful
  have h₃ : ForkRun stampCrypto twoBuilderGenesis ()
      (forkAfter (confirmedTwo ++ [.addBlock blockThree])) := by
    have hcareful : (forkAfter confirmedTwo).1.Careful stampCrypto (.addBlock blockThree) :=
      fun _ => by
        unfold ParentOk
        decide
    exact .step h₂ hcareful
  exact ⟨_, h₃, by decide, (irreversible_only_confirmed h₃).2⟩

/-- A second block on genesis, after block two is confirmed, takes over that confirmation and is
passed on behind its sibling. -/
theorem late_fork_fails_in_handler :
    ∃ e s, forkStep stampCrypto (.addBlock (xmaxBlock twoBuilderGenesis.blockId 102))
      (forkAfter confirmedTwo) = .error e s ∧ FromHandler e := by
  have hcheck : (match forkStep stampCrypto
        (.addBlock (xmaxBlock twoBuilderGenesis.blockId 102)) (forkAfter confirmedTwo) with
      | .error e _ => decide (FromHandler e)
      | .ok _ _ => false) = true := by decide
  split at hcheck
  · rename_i e s hr
    exact ⟨e, s, hr, of_decide_eq_true hcheck⟩
  · cases hcheck

end Run

end XmaxChain
