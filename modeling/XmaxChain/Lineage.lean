import XmaxChain.ChainRun
import XmaxChain.Slots

/-!
# What packs have from their parents

Whatever the next pack has of its parent, every pack has that the calls of a chain bring into the
fork database: a pack comes in where a block is built or applied on the pack of `block_head`, or
received on a known one, and from then on only its marks change.
-/

namespace XmaxChain

open ParentWalk ForkContext

namespace ForkContext

/-- The container is in order, and `P` holds of the packs in it, of the head's and of the packs
known as `S`, each with its id. -/
structure Held (P : Summary → PackCore → Prop) (S : List Summary) (f : ForkContext) : Prop
    extends Container f where
  held : ∀ a, a ∈ f.packs ∨ a = f.head ∨ a ∈ S → P a (f.objs a).toPackCore

variable {P : Summary → PackCore → Prop} {S : List Summary} {f f' : ForkContext} {id : Summary}
  {g : BlockPack → BlockPack}

section Held

theorem Held.mono {S' : List Summary} (h : Held P S f)
    (hs : ∀ a ∈ S', a ∈ f.packs ∨ a = f.head ∨ a ∈ S) : Held P S' f :=
  ⟨h.toContainer, fun a ha => h.held a (ha.elim .inl fun ha => ha.elim (.inr ∘ .inl) (hs a))⟩

theorem held_update {a : Summary} {p : BlockPack} (hp : p.toPackCore = (f.objs id).toPackCore)
    (ha : P a (f.objs a).toPackCore) : P a (Function.update f.objs id p a).toPackCore := by
  rw [Function.update_apply]
  split_ifs with heq
  · rw [hp, ← heq]
    exact ha
  · exact ha

theorem Held.modify (h : Held P S f) (hid : id ∈ f.packs)
    (hg : ∀ p, (g p).toPackCore = p.toPackCore) : Held P S (f.modify id g) :=
  ⟨h.toContainer.modify hid, fun a ha => held_update (hg _) (h.held a ha)⟩

theorem Held.modifyAll {g : BlockPack → BlockPack} (hg : ∀ p, (g p).toPackCore = p.toPackCore) :
    ∀ (ids : List Summary) {f : ForkContext}, Held P S f → (∀ a ∈ ids, a ∈ f.packs) →
      Held P S (f.modifyAll g ids)
  | [], _, h, _ => h
  | a :: ids, f, h, hids => by
    have hrest : ∀ b ∈ ids, b ∈ (f.modify a g).packs := fun b hb =>
      hids b (List.mem_cons_of_mem _ hb)
    exact Held.modifyAll hg ids (h.modify (hids a List.mem_cons_self) hg) hrest

theorem Held.erase (h : Held P S f) (id : Summary) : Held P S (f.erase id) :=
  ⟨h.toContainer.erase, fun a ha => h.held a (ha.imp_left List.mem_of_mem_erase)⟩

theorem Held.eraseAll : ∀ (ids : List Summary) {f : ForkContext}, Held P S f →
    Held P S (ids.foldl ForkContext.erase f)
  | [], _, h => h
  | a :: ids, _, h => Held.eraseAll ids (h.erase a)

theorem Held.insert (h : Held P S f) {pack : BlockPack} (hp : P pack.blockId pack.toPackCore)
    (hf : f.insert pack = .ok f') : Held P S f' := by
  obtain ⟨-, hpacks, hobjs, hhead⟩ := insert_eq_ok hf
  refine ⟨h.toContainer.insert hf, fun a ha => ?_⟩
  rw [hpacks, hhead, List.mem_append, List.mem_singleton] at ha
  rw [hobjs, Function.update_apply]
  split_ifs with heq
  · rw [heq]
    exact hp
  · exact h.held a (ha.imp_left fun hor => hor.resolve_right heq)

theorem Held.withHead (h : Held P S f) {top : Summary} (htop : P top (f.objs top).toPackCore) :
    Held P S (f.withHead top) := by
  refine ⟨⟨h.nodup, h.permNumber, h.permLongest, h.sortedNumber, h.sortedLongest⟩, fun a ha => ?_⟩
  rcases ha with ha | ha | ha
  · exact h.held a (.inl ha)
  · rw [show a = top from ha]
    exact htop
  · exact h.held a (.inr (.inr ha))

theorem Held.updateHead (h : Held P S f) (hf : f.updateHead = .ok f') : Held P S f' := by
  unfold ForkContext.updateHead at hf
  split at hf
  · cases hf
  · rename_i top rest hlong
    cases hf
    refine h.withHead (h.held top (.inl (h.permLongest.mem_iff.1 ?_)))
    rw [hlong]
    exact List.mem_cons_self

theorem Held.setLastConfirmed (h : Held P S f) {last : Summary}
    (hf : f.setLastConfirmed last = .ok f') : Held P S f' := by
  unfold ForkContext.setLastConfirmed at hf
  split_ifs at hf with hlast
  cases hf
  refine Held.modifyAll (fun p => by simp only [markConfirmed]) _ h fun a ha => ?_
  unfold confirmedBy at ha
  simp only [List.cons_append, List.mem_cons, List.mem_append] at ha
  rcases ha with rfl | ha | ha
  · exact hlast
  · exact List.mem_of_mem_filter (known_of_mem_walkUp ha)
  · exact (anc_of_mem_below (by simpa using hlast) ha).1

/-- A pack that takes the place of another one and is ordered as it was. -/
theorem Held.setObj (h : Held P S f) {p : BlockPack} {confs : List BlockConfirmation} {irr : Bool}
    (hp : p = { f.objs id with confirmations := confs, irreversibleConfirmed := irr }) :
    Held P S (f.modifyObj id fun _ => p) := by
  have hobj : ∀ a, ∃ confs irr, (f.modifyObj id fun _ => p).objs a
      = { f.objs a with confirmations := confs, irreversibleConfirmed := irr } := fun a => by
    rw [modifyObj_objs, Function.update_apply]
    split_ifs with ha
    · rw [ha]
      exact ⟨_, _, hp⟩
    · exact ⟨_, _, rfl⟩
  refine ⟨⟨h.nodup, h.permNumber, h.permLongest, h.sortedNumber.imp fun {a b} hab => ?_,
    h.sortedLongest.imp fun {a b} hab => ?_⟩, fun a ha => held_update (by rw [hp]) (h.held a ha)⟩
  all_goals
    obtain ⟨_, _, ha⟩ := hobj a
    obtain ⟨_, _, hb⟩ := hobj b
    rw [ha, hb]
    exact hab

theorem Held.addConfirmation (h : Held P S f) {c : Crypto} {skip : Bool} {conf : BlockConfirmation}
    (hf : f.addConfirmation c skip conf = .ok f') : Held P S f' := by
  unfold ForkContext.addConfirmation at hf
  split at hf
  · cases hf
  · rename_i pack hpack
    obtain ⟨p, hp, hf⟩ := bind_eq_ok.1 hf
    obtain ⟨confs, rfl⟩ := addConfirmation_eq_ok hp
    obtain rfl : f.objs conf.blockId = pack := by
      unfold getBlock at hpack
      split_ifs at hpack
      exact Option.some.inj hpack
    have hset : Held P S (f.modifyObj conf.blockId fun _ =>
        { f.objs conf.blockId with confirmations := confs }) := h.setObj rfl
    split_ifs at hf
    · exact hset.setLastConfirmed hf
    · cases hf
      exact hset

theorem Held.changeMainChainFlag (h : Held P S f) {flag : Bool}
    (hf : f.changeMainChainFlag id flag = .ok f') : Held P S f' := by
  unfold ForkContext.changeMainChainFlag at hf
  split_ifs at hf with hid hsame
  · cases hf
    exact h
  · cases hf
    exact h.modify hid fun _ => rfl

theorem Held.removeLoop : ∀ {fuel : ℕ} {todo : List Summary} {f : ForkContext}, Held P S f →
    removeLoop fuel todo f = .ok f' → Held P S f'
  | 0, [], _, h, hf => by
    cases hf
    exact h
  | 0, _ :: _, _, _, hf => by cases hf
  | _ + 1, [], _, h, hf => by
    cases hf
    exact h
  | _ + 1, a :: _, _, h, hf => Held.removeLoop (h.erase a) hf

theorem Held.removeChain (h : Held P S f) (hf : f.removeChain id = .ok f') : Held P S f' := by
  obtain ⟨f₁, hf₁, hf⟩ := bind_eq_ok.1 hf
  exact (h.removeLoop hf₁).updateHead hf

theorem held_genesis {G : BlockPack} (hG : P G.blockId G.toPackCore) :
    Held P [G.blockId] (.genesis G) := by
  refine ⟨⟨List.nodup_singleton _, .refl _, .refl _, List.pairwise_singleton _ _,
    List.pairwise_singleton _ _⟩, fun a ha => ?_⟩
  obtain rfl : a = G.blockId :=
    ha.elim List.mem_singleton.1 fun ha => ha.elim (fun ha => ha) List.mem_singleton.1
  have hself : (ForkContext.genesis G).objs G.blockId = G := by
    simp only [ForkContext.genesis, Function.update_self]
  rw [hself]
  exact hG

end Held

section Adding

variable {H : Type} {handler : BlockPack → H → Except Fault H} {s : ForkContext × H}

theorem Held.handOver : ∀ {ids : List Summary} {s : ForkContext × H}, Held P S s.1 →
    Held P S (stateOf (handOver handler ids s)).1
  | [], _, h => h
  | a :: ids, s, h => by
    unfold ForkContext.handOver
    cases handler (s.1.objs a) s.2 with
    | error e => exact h
    | ok h' => exact Held.handOver (h.setObj rfl)

theorem Held.onLastConfirmedGrow (h : Held P S s.1) {last : Summary} {num : ℕ} :
    Held P S (stateOf (onLastConfirmedGrow handler last num s)).1 := by
  have hover : Held P S (stateOf (ForkContext.handOver handler (s.1.grown last num).1 s)).1 :=
    h.handOver
  unfold ForkContext.onLastConfirmedGrow
  dsimp only
  split
  · rename_i e s' hrun
    rw [hrun] at hover
    exact hover
  · rename_i u s' hrun
    rw [hrun] at hover
    exact hover.eraseAll _

theorem Held.settle (h : Held P S s.1) : Held P S (stateOf (settle handler s)).1 := by
  unfold ForkContext.settle
  split
  · exact h
  · dsimp only
    split_ifs
    · exact h.onLastConfirmedGrow
    · split
      · exact h
      · rename_i f hf
        exact (h.setLastConfirmed hf).onLastConfirmedGrow
    · exact h

theorem Held.addPack (h : Held P S s.1) {c : Crypto} {pack : BlockPack}
    (hp : P pack.blockId pack.toPackCore) : Held P S (stateOf (addPack handler c pack s)).1 := by
  unfold ForkContext.addPack
  split_ifs
  · exact h
  · split
    · exact h
    · rename_i f hf
      split
      · exact h.insert hp hf
      · rename_i f₁ hf₁
        exact ((h.insert hp hf).updateHead hf₁).settle

theorem Held.addBlock (h : Held P S s.1) {c : Crypto} {block : SignedBlock}
    (hp : ∀ pack, packOfBlock c s.1 block = .ok pack → P pack.blockId pack.toPackCore) :
    Held P S (stateOf (addBlock handler c block s)).1 := by
  unfold ForkContext.addBlock
  split
  · exact h
  · rename_i pack hpack
    have hadd : Held P S (stateOf (ForkContext.addPack handler c pack s)).1 :=
      h.addPack (hp _ hpack)
    split
    · rename_i hrun
      rw [hrun] at hadd
      exact hadd
    · rename_i hrun
      rw [hrun] at hadd
      exact hadd

end Adding

end ForkContext

/-! ## The calls of a chain -/

variable {cfg : ChainConfig} {T : ℕ → ℕ → Prop} {P : Summary → PackCore → Prop} {S : List Summary}
  {s : ChainState} {α β : Type}

/-- The fork database holds `P`, of the pack of `block_head` too. -/
def ChainState.Held (P : Summary → PackCore → Prop) (S : List Summary) (s : ChainState) : Prop :=
  ForkContext.Held P (s.blockHead :: S) s.fork

/-- The next pack has `P` from its parent if its time is to the parent's as `T` says. -/
structure Inherited (cfg : ChainConfig) (T : ℕ → ℕ → Prop) (P : Summary → PackCore → Prop) :
    Prop where
  key : ∀ {a : Summary} {p : PackCore}, P a p → p.blockId = a
  next : ∀ {a : Summary} {pre r : BlockPack} {when : ℕ}, P a pre.toPackCore →
    T pre.newHeader.timestamp when → NextPack cfg pre when r → P r.blockId r.toPackCore

/-- The time of the block that the call brings is to its parent's as `T` says, where the call does
not look at the time itself. -/
def ChainState.Timed (T : ℕ → ℕ → Prop) (s : ChainState) : ChainCall → Prop
  | .buildBlock when _ _ =>
    s.headPack.newHeader.timestamp < when → T s.headPack.newHeader.timestamp when
  | .confirmBlock block =>
    s.headPack.newHeader.timestamp < block.timestamp →
      T s.headPack.newHeader.timestamp block.timestamp
  | .pushFork block =>
    block.previous ∈ s.fork.packs →
      T (s.fork.objs block.previous).newHeader.timestamp block.timestamp
  | .pushConfirmation _ => True

/-- The states of the runs from genesis, whether their calls return or throw, in which the times are
as `T` says. -/
def TimedRun (cfg : ChainConfig) (T : ℕ → ℕ → Prop) (G : BlockPack) (g : ChainDb) :
    ChainState → Prop :=
  Relation.ReflTransGen (fun s s' => ∃ call, s.Timed T call ∧ s' = stateOf (chainStep cfg call s))
    (.genesis G g)

/-- What is held stays so, whether the call returns or throws. -/
def KeepsHeld (P : Summary → PackCore → Prop) (x : ChainM α) : Prop :=
  ∀ S s, ChainState.Held P S s → (stateOf (x s)).Held P S

theorem ChainState.timed_always (s : ChainState) : ∀ call, s.Timed (fun _ _ => True) call
  | .buildBlock _ _ _ => fun _ => trivial
  | .confirmBlock _ => fun _ => trivial
  | .pushFork _ => fun _ => trivial
  | .pushConfirmation _ => trivial

section Calls

theorem ChainState.Held.mono {S' : List Summary} (h : s.Held P S)
    (hs : ∀ a ∈ S', a ∈ s.fork.packs ∨ a ∈ S) : s.Held P S' :=
  ForkContext.Held.mono h fun a ha => by
    rcases List.mem_cons.1 ha with rfl | ha
    · exact .inr (.inr List.mem_cons_self)
    · exact (hs a ha).imp_right fun ha => .inr (List.mem_cons_of_mem _ ha)

/-- A call and what follows it: the second part runs only where the first one returns. -/
theorem held_bind {x : ChainM α} {y : α → ChainM β} (hx : (stateOf (x s)).Held P S)
    (hy : ∀ a s', x s = .ok a s' → s'.Held P S → (stateOf (y a s')).Held P S) :
    (stateOf ((x >>= y) s)).Held P S := by
  rw [run_bind]
  cases hrun : x s with
  | ok a s' =>
    rw [hrun] at hx
    exact hy a s' hrun hx
  | error e s' =>
    rw [hrun] at hx
    exact hx

theorem KeepsHeld.bind {x : ChainM α} {y : α → ChainM β} (hx : KeepsHeld P x)
    (hy : ∀ a, KeepsHeld P (y a)) : KeepsHeld P (x >>= y) :=
  fun S s hs => held_bind (hx S s hs) fun a s' _ hs' => hy a S s' hs'

theorem keeps_of_fork {x : ChainM α}
    (h : ∀ s, (stateOf (x s)).fork = s.fork ∧ (stateOf (x s)).blockHead = s.blockHead) :
    KeepsHeld P x := by
  intro S s hs
  obtain ⟨hfork, hhead⟩ := h s
  unfold ChainState.Held
  rw [hfork, hhead]
  exact hs

theorem ChainState.Held.abortBuild (h : s.Held P S) : s.abortBuild.Held P S := by
  unfold ChainState.abortBuild
  split <;> exact h

theorem keeps_abortBuild : KeepsHeld P abortBuild := fun S s hs => by
  unfold abortBuild
  split_ifs
  · exact hs.abortBuild
  · exact hs

theorem keeps_startBuild (when : ℕ) : KeepsHeld P (startBuild cfg when) := keeps_of_fork fun s => by
  unfold startBuild
  split <;> exact ⟨rfl, rfl⟩

theorem keeps_inBuilding (x : BlockPack → EStateM Fault Building Unit) :
    KeepsHeld P (inBuilding x) :=
  keeps_of_fork fun s => by
    unfold inBuilding
    split
    · exact ⟨rfl, rfl⟩
    · split <;> exact ⟨rfl, rfl⟩

theorem keeps_liftExcept (x : ChainState → Except Fault α) : KeepsHeld P (liftExcept x) :=
  keeps_of_fork fun s => by
    unfold liftExcept
    split <;> exact ⟨rfl, rfl⟩

theorem keeps_commitBlock : KeepsHeld P commitBlock := keeps_of_fork fun _ => ⟨rfl, rfl⟩

/-- A block of a pack that is there already brings none in. -/
theorem keeps_pushBlock : KeepsHeld P (pushBlock cfg false) := keeps_of_fork fun s => by
  unfold pushBlock
  split
  · exact ⟨rfl, rfl⟩
  · simp only [Bool.false_eq_true, if_false]
    split <;> exact ⟨rfl, rfl⟩

theorem keeps_applyBlock (cfg : ChainConfig) (block : SignedBlock) :
    KeepsHeld P (applyBlock cfg block false) :=
  (keeps_liftExcept _).bind fun _ => (keeps_liftExcept _).bind fun _ =>
    keeps_abortBuild.bind fun _ => (keeps_startBuild _).bind fun _ =>
      (keeps_inBuilding _).bind fun _ => keeps_pushBlock.bind fun _ => keeps_commitBlock

theorem keeps_popBlock : KeepsHeld P popBlock := by
  intro S s hs
  unfold popBlock
  split
  · exact hs
  · rename_i f hf
    split_ifs with hprev
    · have hpopped : ForkContext.Held P (s.headPack.prevId :: S) f := by
        refine ForkContext.Held.changeMainChainFlag (ForkContext.Held.mono hs fun a ha => ?_) hf
        rcases List.mem_cons.1 ha with rfl | ha
        · exact .inl hprev
        · exact .inr (.inr (List.mem_cons_of_mem _ ha))
      split <;> exact hpopped
    · exact hs

theorem keeps_popBlocks : ∀ n, KeepsHeld P (popBlocks n)
  | 0 => fun _ _ hs => hs
  | n + 1 => keeps_popBlock.bind fun _ => keeps_popBlocks n

theorem ChainState.Held.switchTo {id : Summary} (h : s.Held P S) (hid : id ∈ S) :
    (stateOf (switchTo id s)).Held P S := by
  have hmoved : ForkContext.Held P (id :: S) s.fork := ForkContext.Held.mono h fun a ha => by
    rcases List.mem_cons.1 ha with rfl | ha
    · exact .inr (.inr (List.mem_cons_of_mem _ hid))
    · exact .inr (.inr (List.mem_cons_of_mem _ ha))
  unfold XmaxChain.switchTo
  split
  · exact hmoved
  · rename_i f hf
    exact hmoved.changeMainChainFlag hf

theorem ChainState.Held.applyPack {id : Summary} (h : s.Held P S) (hid : id ∈ S) :
    (stateOf (applyPack cfg id s)).Held P S := by
  have happly := keeps_applyBlock cfg (s.fork.objs id).block S s h
  unfold XmaxChain.applyPack
  split
  · rename_i hrun
    rw [hrun] at happly
    exact happly
  · rename_i s' hrun
    rw [hrun] at happly
    exact happly.switchTo hid

theorem ChainState.Held.applyBranch : ∀ {ids : List Summary} {s : ChainState}, s.Held P S →
    (∀ a ∈ ids, a ∈ S) → (stateOf (applyBranch cfg ids s)).Held P S
  | [], _, h, _ => h
  | id :: ids, s, h, hids => by
    have happly : (stateOf (XmaxChain.applyPack cfg id s)).Held P S :=
      h.applyPack (hids id List.mem_cons_self)
    unfold XmaxChain.applyBranch
    cases hrun : XmaxChain.applyPack cfg id s with
    | ok u s' =>
      rw [hrun] at happly
      exact ChainState.Held.applyBranch happly fun a ha => hids a (List.mem_cons_of_mem _ ha)
    | error e s' =>
      rw [hrun] at happly
      cases e with
      | fc msg =>
        dsimp only
        split
        · exact happly
        · rename_i f hf
          exact ForkContext.Held.removeChain happly hf
      | _ => exact happly

theorem keeps_switchFork : KeepsHeld P (switchFork cfg) := by
  intro S s hs
  unfold switchFork
  split
  · exact hs
  · rename_i branches hbranches
    split
    · exact hs
    · split_ifs
      · -- the branch to be applied is in the container when it is fetched
        obtain ⟨-, hway⟩ := fetchBranchFromFork_ways hbranches
        have hbranch : s.Held P (branches.second.reverse ++ S) := hs.mono fun a ha =>
          (List.mem_append.1 ha).imp_left fun ha => hway.known a (List.mem_reverse.1 ha)
        refine ChainState.Held.mono (S := branches.second.reverse ++ S) ?_ fun a ha =>
          .inr (List.mem_append_right _ ha)
        exact held_bind (keeps_popBlocks _ _ s hbranch) fun _ _ _ hpop =>
          hpop.applyBranch fun a ha => List.mem_append_left _ ha
      · exact hs

theorem keeps_checkForkLoop : ∀ fuel, KeepsHeld P (checkForkLoop cfg fuel)
  | 0 => fun _ _ hs => hs
  | fuel + 1 => by
    intro S s hs
    unfold checkForkLoop
    split_ifs
    · exact hs
    · exact keeps_switchFork.bind (fun _ => keeps_checkForkLoop fuel) S s hs

theorem ChainState.Held.push {pack : BlockPack} (h : s.Held P S) (hs : s.building = some pack)
    (hp : P pack.blockId pack.toPackCore) : (stateOf (pushBlock cfg true s)).Held P S := by
  have hadd : ForkContext.Held P (s.blockHead :: S)
      (stateOf (addPack (onIrreversible cfg.crypto) cfg.crypto pack (s.fork, s.sink))).1 :=
    ForkContext.Held.addPack (s := (s.fork, s.sink)) h hp
  unfold pushBlock
  rw [hs]
  simp only [if_true]
  split_ifs
  · exact h
  · split
    · rename_i hrun
      rw [hrun] at hadd
      exact hadd
    · rename_i u r hrun
      rw [hrun] at hadd
      have hhead : ForkContext.Held P (r.1.head :: S) r.1 := by
        refine ForkContext.Held.mono hadd fun a ha => ?_
        rcases List.mem_cons.1 ha with rfl | ha
        · exact .inr (.inl rfl)
        · exact .inr (.inr (List.mem_cons_of_mem _ ha))
      split_ifs <;> exact hhead

/-- A block that is built or applied brings in the pack that its body leaves. -/
theorem ChainState.Held.built {when : ℕ} {x : BlockPack → EStateM Fault Building Unit}
    (h : s.Held P S) (hmade : ∀ pack b, startPack cfg s.headPack s.sink.blockDb.cur when = .ok pack →
      x s.headPack ⟨pack, s.sink.blockDb.cur⟩ = .ok () b → P b.pack.blockId b.pack.toPackCore) :
    (stateOf ((startBuild cfg when >>= fun _ => inBuilding x >>= fun _ =>
      pushBlock cfg true >>= fun _ => commitBlock) s)).Held P S := by
  refine held_bind (keeps_startBuild when S s h) fun _ s₁ hstart hs₁ => ?_
  obtain ⟨pack, hpack, rfl⟩ := startBuild_eq_ok.1 hstart
  refine held_bind (keeps_inBuilding x S _ hs₁) fun _ s₂ hbody hs₂ => ?_
  obtain ⟨b, hb, rfl⟩ := (inBuilding_eq_ok rfl).1 hbody
  exact held_bind (hs₂.push rfl (hmade pack b hpack hb)) fun _ s₃ _ hs₃ =>
    keeps_commitBlock S s₃ hs₃

theorem ChainState.Held.addForkBlock {block : SignedBlock} (h : s.Held P S)
    (hp : ∀ pack, packOfBlock cfg.crypto s.fork block = .ok pack → P pack.blockId pack.toPackCore) :
    (stateOf (addForkBlock cfg block s)).Held P S := by
  have hadd : ForkContext.Held P (s.blockHead :: S)
      (stateOf (addBlock (onIrreversible cfg.crypto) cfg.crypto block (s.fork, s.sink))).1 :=
    ForkContext.Held.addBlock (s := (s.fork, s.sink)) h hp
  unfold XmaxChain.addForkBlock
  split
  · rename_i hrun
    rw [hrun] at hadd
    exact hadd
  · rename_i hrun
    rw [hrun] at hadd
    exact hadd

/-- The pack of a received block is a next one of the pack it names. -/
theorem nextPack_of_packOfBlock {f : ForkContext} {block : SignedBlock} {pack : BlockPack}
    (h : packOfBlock cfg.crypto f block = .ok pack)
    (hkey : block.previous ∈ f.packs → (f.objs block.previous).blockId = block.previous) :
    block.previous ∈ f.packs ∧ NextPack cfg (f.objs block.previous) block.timestamp pack := by
  obtain ⟨hmem, q, hq, rfl⟩ := packOfBlock_ok h
  exact ⟨hmem, .received hq (hkey hmem).symm rfl⟩

theorem startPack_later {pre pack : BlockPack} {db : ChainDb} {when : ℕ}
    (h : startPack cfg pre db when = .ok pack) : pre.newHeader.timestamp < when := by
  simp only [startPack, bind_eq_ok, fcAssert_eq_ok, decide_eq_true_eq] at h
  obtain ⟨-, hlater, -⟩ := h
  unfold timePoint at hlater
  omega

/-- What packs inherit is held after every call. -/
theorem Inherited.chainStep (hP : Inherited cfg T P) {call : ChainCall} (h : s.Held P S)
    (htime : s.Timed T call) : (stateOf (chainStep cfg call s)).Held P S := by
  have habort : s.abortBuild.Held P S := h.abortBuild
  have hhead : s.abortBuild.headPack = s.headPack := abortBuild_headPack s
  have hpre : P s.blockHead s.headPack.toPackCore := h.held _ (.inr (.inr List.mem_cons_self))
  cases call with
  | buildBlock when key trxs =>
    refine held_bind (keeps_abortBuild S s h) fun _ s₁ hs₁ _ => ?_
    obtain ⟨-, rfl⟩ := abortBuild_eq_ok.1 hs₁
    refine habort.built fun pack b hstart hbody => ?_
    rw [hhead] at hstart hbody
    exact hP.next hpre (htime (startPack_later hstart)) (.built hstart (seals_sign _ _) hbody)
  | confirmBlock block =>
    show (stateOf (applyBlock cfg block true s)).Held P S
    unfold applyBlock
    refine held_bind (keeps_liftExcept _ S s h) fun _ s₁ hdesc _ => ?_
    obtain ⟨-, rfl⟩ := liftExcept_eq_ok.1 hdesc
    refine held_bind (keeps_liftExcept _ S s₁ h) fun trxs s₂ htrxs _ => ?_
    obtain ⟨-, rfl⟩ := liftExcept_eq_ok.1 htrxs
    refine held_bind (keeps_abortBuild S s₂ h) fun _ s₃ hs₃ _ => ?_
    obtain ⟨-, rfl⟩ := abortBuild_eq_ok.1 hs₃
    refine habort.built fun pack b hstart hbody => ?_
    rw [hhead] at hstart hbody
    exact hP.next hpre (htime (startPack_later hstart)) (.built hstart (seals_validate _ _) hbody)
  | pushFork block =>
    show (stateOf (pushFork cfg block s)).Held P S
    rw [stateOf_pushFork]
    refine held_bind (h.addForkBlock fun pack hpack => ?_) fun _ s₁ _ hs₁ =>
      keeps_checkForkLoop _ S s₁ hs₁
    obtain ⟨hmem, hnext⟩ := nextPack_of_packOfBlock hpack fun hmem => hP.key (h.held _ (.inl hmem))
    exact hP.next (h.held _ (.inl hmem)) (htime hmem) hnext
  | pushConfirmation conf =>
    show (stateOf (pushConfirmation cfg conf s)).Held P S
    unfold pushConfirmation
    split
    · exact h
    · rename_i f hf
      exact ForkContext.Held.addConfirmation h hf

theorem ChainState.held_genesis {G : BlockPack} (g : ChainDb) (hG : P G.blockId G.toPackCore) :
    (ChainState.genesis G g).Held P [] := ForkContext.held_genesis hG

/-- What packs inherit at any time is held after any calls. -/
theorem Inherited.chainCalls (hP : Inherited cfg (fun _ _ => True) P) :
    ∀ (calls : List ChainCall) {s : ChainState}, s.Held P S → (chainCalls cfg calls s).Held P S
  | [], _, h => h
  | call :: calls, s, h => hP.chainCalls calls (hP.chainStep h (s.timed_always call))

/-- What packs inherit from genesis is held in every state that a run reaches. -/
theorem Inherited.run (hP : Inherited cfg T P) {G : BlockPack} {g : ChainDb}
    (hG : P G.blockId G.toPackCore) (h : TimedRun cfg T G g s) : s.Held P [] := by
  induction h with
  | refl => exact ChainState.held_genesis g hG
  | tail _ step ih =>
    obtain ⟨call, htime, rfl⟩ := step
    exact hP.chainStep ih htime

end Calls

end XmaxChain
