import XmaxChain.Schedule

/-!
# What holds of the chain

The way from `block_head` to genesis has its irreversible blocks in the log and the others in the
fork database. The database is what these blocks leave when they are applied in order from genesis,
and each of them that is not irreversible has one session in the undo history.
-/

namespace XmaxChain

open ParentWalk ForkContext

/-! ## The way of `block_head` -/

namespace ForkContext

variable (f : ForkContext)

/-- A pack and those above it, nearest first, as far as they are in the container. -/
def wayUp (id : Summary) : List Summary := walkUp f.up f.packs ((f.objs id).blockNum + 1) id

end ForkContext

/-- The blocks on the way from `block_head` to genesis, newest first: the last irreversible block is
in the fork database and in the log. -/
def ChainState.path (s : ChainState) : List SignedBlock :=
  (s.fork.wayUp s.blockHead).dropLast.map (fun a => (s.fork.objs a).block) ++ s.sink.chainLog

/-- The database of genesis, and whether the rows of ERC721 ids may come to be others than the blocks
make them. -/
structure Origin where
  db : ChainDb
  torn : Bool

namespace Origin

/-- The blocks alone make the database. -/
def exact (db : ChainDb) : Origin := ⟨db, false⟩

/-- An undo that throws has left other rows of ERC721 ids. -/
def loose (db : ChainDb) : Origin := ⟨db, true⟩

variable (g : Origin)

/-- The same database, but for the rows of ERC721 ids where these may be others. -/
def Alike (d d' : ChainDb) : Prop :=
  ∃ rows, d' = { d with erc721Accounts := rows } ∧ (g.torn = false → rows = d.erc721Accounts)

/-- The block leaves `db'` when it is applied to `db`. -/
def Replays (cfg : ChainConfig) (pre : BlockPack) (db : ChainDb) (block : SignedBlock) (db' : ChainDb) :
    Prop :=
  ∃ d d', g.Alike db d ∧ replay cfg pre d block = .ok d' ∧ g.Alike d' db'

end Origin

/-- Applying the blocks in order from genesis, each on the pack of its parent, ends in the database
`db` at the pack known by `id`. -/
inductive Executed (cfg : ChainConfig) (G : BlockPack) (g : Origin) (objs : Summary → BlockPack) :
    List SignedBlock → Summary → ChainDb → Prop
  | genesis {db : ChainDb} (core : (objs G.blockId).toPackCore = G.toPackCore)
      (start : g.Alike g.db db) : Executed cfg G g objs [G.block] G.blockId db
  | applied {id : Summary} {blocks : List SignedBlock} {db db' : ChainDb}
      (known : (objs id).block.id cfg.crypto = id)
      (previous : (objs id).block.previous = (objs id).prevId)
      (num : (objs id).prevId.num + 1 = id.num)
      (parent : Executed cfg G g objs blocks (objs id).prevId db)
      (replayed : g.Replays cfg (objs (objs id).prevId) db (objs id).block db') :
    Executed cfg G g objs ((objs id).block :: blocks) id db'

/-- The undo history at a pack: below the sessions is the database of the last irreversible block
`L`, and every pack above it has its session. -/
inductive Backed (cfg : ChainConfig) (G : BlockPack) (g : Origin) (f : ForkContext) (L : Summary)
    (log : List SignedBlock) : Summary → List SignedBlock → Undo ChainDb → Prop
  | base {db : ChainDb} (executed : Executed cfg G g f.objs log L db) :
    Backed cfg G g f L log L log ⟨db, [], L.num⟩
  | step {a : Summary} {blocks : List SignedBlock} {u : Undo ChainDb} {db : ChainDb}
      (mem : a ∈ f.packs) (above : L.num < a.num)
      (parent : Backed cfg G g f L log (f.up a) blocks u)
      (replayed : g.Replays cfg (f.objs (f.up a)) u.cur (f.objs a).block db) :
    Backed cfg G g f L log a ((f.objs a).block :: blocks) (u.start.withCur db)

variable {cfg : ChainConfig} {G : BlockPack} {g : Origin}

section Alike

variable {pre pre' : BlockPack} {block : SignedBlock} {d d' d'' : ChainDb}

theorem Origin.Alike.refl (d : ChainDb) : g.Alike d d := ⟨d.erc721Accounts, rfl, fun _ => rfl⟩

theorem Origin.Alike.trans (h : g.Alike d d') (h' : g.Alike d' d'') : g.Alike d d'' := by
  obtain ⟨rows, rfl, hrows⟩ := h
  obtain ⟨rows', rfl, hrows'⟩ := h'
  exact ⟨rows', rfl, fun hg => (hrows' hg).trans (hrows hg)⟩

theorem Origin.Alike.of_torn (hg : g.torn = true) (d : ChainDb) (rows : Erc721Rows) :
    g.Alike d { d with erc721Accounts := rows } :=
  ⟨rows, rfl, fun h => by rw [hg] at h; cases h⟩

/-- What does not depend on the rows of ERC721 ids is the same. -/
theorem Origin.Alike.keeps {P : ChainDb → Prop} (h : g.Alike d d')
    (hP : ∀ d rows, P d → P { d with erc721Accounts := rows }) (hd : P d) : P d' := by
  obtain ⟨rows, rfl, -⟩ := h
  exact hP d rows hd

@[simp] theorem alike_exact {db : ChainDb} : (Origin.exact db).Alike d d' ↔ d' = d := by
  constructor
  · rintro ⟨rows, rfl, hrows⟩
    rw [hrows rfl]
  · rintro rfl
    exact .refl d'

@[simp] theorem replays_exact {db : ChainDb} :
    (Origin.exact db).Replays cfg pre d block d' ↔ replay cfg pre d block = .ok d' := by
  simp [Origin.Replays]

theorem Origin.Replays.of_replay (h : replay cfg pre d block = .ok d') : g.Replays cfg pre d block d' :=
  ⟨d, d', .refl d, h, .refl d'⟩

theorem Origin.Replays.alike (h : g.Replays cfg pre d block d') (hd : g.Alike d' d'') :
    g.Replays cfg pre d block d'' := by
  obtain ⟨e, e', he, hrun, he'⟩ := h
  exact ⟨e, e', he, hrun, he'.trans hd⟩

theorem Origin.Replays.core (hpre : pre'.toPackCore = pre.toPackCore) (h : g.Replays cfg pre d block d') :
    g.Replays cfg pre' d block d' := by
  obtain ⟨e, e', he, hrun, he'⟩ := h
  exact ⟨e, e', he, (replay_core hpre e block).trans hrun, he'⟩

end Alike

section Executed

variable {objs objs' : Summary → BlockPack} {id : Summary} {blocks : List SignedBlock} {db : ChainDb}

/-- Only what the packs on the way have from the moment they are made matters. -/
theorem Executed.congr_on {S : Summary → Prop} (h : Executed cfg G g objs blocks id db) (hid : S id)
    (closed : ∀ a, S a → (objs a).prevId.num + 1 = a.num → S (objs a).prevId)
    (core : ∀ a, S a → (objs' a).toPackCore = (objs a).toPackCore) :
    Executed cfg G g objs' blocks id db := by
  induction h with
  | genesis hG start => exact .genesis ((core _ hid).trans hG) start
  | @applied id blocks db db' known previous num parent replayed ih =>
    have hup := closed id hid num
    have hprev : (objs' id).prevId = (objs id).prevId := by rw [core id hid]
    have hblock : (objs' id).block = (objs id).block := by rw [core id hid]
    have hbelow : Executed cfg G g objs' blocks (objs' id).prevId db := by
      rw [hprev]
      exact ih hup
    have happlied : g.Replays cfg (objs' (objs' id).prevId) db (objs' id).block db' := by
      rw [hprev, hblock]
      exact replayed.core (core _ hup)
    rw [← hblock]
    exact .applied (by rw [hblock]; exact known) (by rw [hblock, hprev]; exact previous)
      (by rw [hprev]; exact num) hbelow happlied

theorem Executed.congr (h : Executed cfg G g objs blocks id db)
    (core : ∀ a : Summary, a.num ≤ id.num → (objs' a).toPackCore = (objs a).toPackCore) :
    Executed cfg G g objs' blocks id db :=
  h.congr_on (S := fun a => a.num ≤ id.num) le_rfl (fun a ha hnum => by omega) core

theorem Executed.head (h : Executed cfg G g objs blocks id db) :
    ∃ below, blocks = (objs id).block :: below := by
  cases h with
  | genesis hG _ => exact ⟨[], by rw [hG]⟩
  | applied _ _ _ _ _ => exact ⟨_, rfl⟩

/-- The blocks are linked, and numbered from one. -/
theorem Executed.numbered (hG : G.block.blockNum = 1) (hid : G.blockId = G.block.id cfg.crypto)
    (h : Executed cfg G g objs blocks id db) :
    blocks.length = id.num ∧ (∃ b below, blocks = b :: below ∧ b.id cfg.crypto = id) ∧
      blocks.IsChain (fun b p => b.previous = p.id cfg.crypto) ∧
      ∀ i b, blocks.reverse[i]? = some b → b.blockNum = i + 1 := by
  induction h with
  | genesis _ _ =>
    refine ⟨?_, ⟨_, _, rfl, hid.symm⟩, List.isChain_singleton _, fun i b hb => ?_⟩
    · rw [hid, BlockHeader.id_num, hG]
      rfl
    · rw [List.reverse_singleton, List.getElem?_singleton] at hb
      split_ifs at hb with hi
      cases hb
      rw [hG, hi]
  | @applied id blocks db db' known previous num _ _ ih =>
    obtain ⟨hlen, ⟨b₀, below, hblocks, hb₀⟩, hchain, hnum⟩ := ih
    refine ⟨by rw [List.length_cons, hlen, num], ⟨_, _, rfl, known⟩, ?_, fun i b hb => ?_⟩
    · rw [hblocks] at hchain ⊢
      exact List.isChain_cons_cons.2 ⟨by rw [previous, hb₀], hchain⟩
    · rw [List.reverse_cons] at hb
      rcases Nat.lt_or_ge i blocks.reverse.length with hi | hi
      · rw [List.getElem?_append_left hi] at hb
        exact hnum i b hb
      · rw [List.getElem?_append_right hi, List.getElem?_singleton] at hb
        split_ifs at hb with hzero
        cases hb
        rw [List.length_reverse] at hi hzero
        rw [← BlockHeader.id_num cfg.crypto, known, ← num, ← hlen]
        omega

theorem Executed.alike {db' : ChainDb} (h : Executed cfg G g objs blocks id db) (hd : g.Alike db db') :
    Executed cfg G g objs blocks id db' := by
  cases h with
  | genesis hG start => exact .genesis hG (start.trans hd)
  | applied known previous num parent replayed =>
    exact .applied known previous num parent (replayed.alike hd)

/-- Nothing is applied below genesis. -/
theorem Executed.not_below (hG : G.block.blockNum = 1) (hid : G.blockId = G.block.id cfg.crypto)
    (h : Executed cfg G g objs blocks id db) : id.num + 1 ≠ G.blockId.num := by
  intro heq
  obtain ⟨hlen, ⟨b, rest, rfl, -⟩, -⟩ := h.numbered hG hid
  rw [hid, BlockHeader.id_num, hG] at heq
  rw [List.length_cons] at hlen
  omega

/-- At genesis there is only its own database. -/
theorem Executed.at_genesis (hG : G.block.blockNum = 1) (hid : G.blockId = G.block.id cfg.crypto)
    (h : Executed cfg G g objs blocks G.blockId db) : blocks = [G.block] ∧ g.Alike g.db db := by
  generalize hgenesis : G.blockId = a at h
  cases h with
  | genesis _ start => exact ⟨rfl, start⟩
  | applied _ _ num parent _ =>
    rw [← hgenesis] at num parent
    exact absurd num (parent.not_below hG hid)

/-- There is one way to apply the blocks up to a pack. -/
theorem Executed.unique {d : ChainDb} {blocks' : List SignedBlock} {db' : ChainDb}
    (hG : G.block.blockNum = 1) (hid : G.blockId = G.block.id cfg.crypto)
    (h : Executed cfg G (.exact d) objs blocks id db)
    (h' : Executed cfg G (.exact d) objs blocks' id db') : blocks' = blocks ∧ db' = db := by
  induction h generalizing blocks' db' with
  | genesis _ start =>
    cases h' with
    | genesis _ start' => exact ⟨rfl, (alike_exact.1 start').trans (alike_exact.1 start).symm⟩
    | applied _ _ num parent _ => exact absurd num (parent.not_below hG hid)
  | applied _ _ num parent replayed ih =>
    cases h' with
    | genesis _ _ => exact absurd num (parent.not_below hG hid)
    | applied _ _ _ parent' replayed' =>
      obtain ⟨rfl, rfl⟩ := ih parent'
      exact ⟨rfl, Except.ok.inj ((replays_exact.1 replayed').symm.trans (replays_exact.1 replayed))⟩

end Executed

section Backed

variable {f f' : ForkContext} {L X a : Summary} {log blocks : List SignedBlock} {u : Undo ChainDb}

theorem Backed.revision (hl : Linked cfg.crypto f) (h : Backed cfg G g f L log a blocks u) :
    u.revision = a.num := by
  induction h with
  | base _ => rfl
  | @step a _ u _ mem _ _ _ ih =>
    have := hl.upNum a mem
    simp only [Undo.withCur_revision, Undo.start]
    omega

theorem Backed.anc (hi : Inv cfg.crypto f L X) (h : Backed cfg G g f L log a blocks u) :
    f.Anc a L := by
  induction h with
  | base _ => exact .refl hi.last_mem
  | step mem _ _ _ ih => exact .step mem ih

theorem Backed.executed (hl : Linked cfg.crypto f) (h : Backed cfg G g f L log a blocks u) :
    Executed cfg G g f.objs blocks a u.cur := by
  induction h with
  | base hexec => exact hexec
  | @step a _ _ _ mem _ _ replayed ih =>
    exact .applied (hl.id a mem) (hl.previous a mem) (hl.upNum a mem) ih replayed

theorem Backed.log_head (h : Backed cfg G g f L log a blocks u) :
    ∃ below, log = (f.objs L).block :: below := by
  induction h with
  | base hexec => exact hexec.head
  | step _ _ _ _ ih => exact ih

/-- The way up from a pack of the container. -/
theorem wayUp_of_mem (hl : Linked cfg.crypto f) (ha : a ∈ f.packs) (hup : f.up a ∈ f.packs) :
    f.wayUp a = a :: f.wayUp (f.up a) := by
  have hnum : (f.objs a).blockNum = (f.objs (f.up a)).blockNum + 1 := by
    rw [hl.num a ha, hl.num _ hup, hl.upNum a ha]
  simp only [wayUp, walkUp, if_pos ha, hnum]

theorem ForkContext.Inv.wayUp_last (hi : Inv cfg.crypto f L X) : f.wayUp L = [L] := by
  have hup : f.up L ∉ f.packs := by
    intro hmem
    have := hi.last_le hmem
    have := hi.upNum L hi.last_mem
    omega
  simp only [wayUp, walkUp, if_pos hi.last_mem]
  cases (f.objs L).blockNum with
  | zero => rfl
  | succ n => simp only [walkUp, if_neg hup]

theorem wayUp_ne_nil (ha : a ∈ f.packs) : f.wayUp a ≠ [] := by
  simp only [wayUp, walkUp, if_pos ha]
  exact List.cons_ne_nil _ _

theorem Backed.blocks_eq (hi : Inv cfg.crypto f L X) (h : Backed cfg G g f L log a blocks u) :
    blocks = (f.wayUp a).dropLast.map (fun a => (f.objs a).block) ++ log := by
  induction h with
  | base _ => rw [hi.wayUp_last]; rfl
  | @step a _ _ _ mem _ parent _ ih =>
    have hup := (parent.anc hi).mem_left
    rw [wayUp_of_mem hi.toLinked mem hup, List.dropLast_cons_of_ne_nil (wayUp_ne_nil hup), ih]
    rfl

/-- Undoing the session of a pack leaves the history of its parent. -/
theorem Backed.undo (h : Backed cfg G g f L log a blocks u) (hne : a ≠ L) :
    ∃ blocks', blocks = (f.objs a).block :: blocks' ∧
      Backed cfg G g f L log (f.up a) blocks' u.undo ∧
      u = (u.undo.start.withCur u.cur) := by
  cases h with
  | base _ => exact absurd rfl hne
  | step _ _ parent _ => exact ⟨_, rfl, by rw [Undo.undo_withCur_start]; exact parent, by
      rw [Undo.undo_withCur_start]; rfl⟩

theorem Backed.withCur {d : ChainDb} (h : Backed cfg G g f L log a blocks u) (hd : g.Alike u.cur d) :
    Backed cfg G g f L log a blocks (u.withCur d) := by
  cases h with
  | base hexec => exact .base (hexec.alike hd)
  | step mem above parent replayed => exact .step mem above parent (replayed.alike hd)

/-- A container that has the packs of the history, with what they had when they were made. -/
theorem Backed.congr (h : Backed cfg G g f L log a blocks u)
    (mem : ∀ x, f.Anc a x → L.num < x.num → x ∈ f'.packs)
    (core : ∀ x, x ∈ f.packs ∨ x.num ≤ L.num → (f'.objs x).toPackCore = (f.objs x).toPackCore)
    (hL : L ∈ f.packs) : Backed cfg G g f' L log a blocks u := by
  induction h with
  | base hexec => exact .base (hexec.congr fun x hx => core x (.inr hx))
  | @step a blocks u db ha above parent replayed ih =>
    have hcore := core a (.inl ha)
    have hup : f'.up a = f.up a := congrArg PackCore.prevId hcore
    have hblock : (f'.objs a).block = (f.objs a).block := by rw [hcore]
    have hparent : (f'.objs (f.up a)).toPackCore = (f.objs (f.up a)).toPackCore := by
      refine core _ ?_
      cases parent with
      | base _ => exact .inl hL
      | step hmem _ _ _ => exact .inl hmem
    rw [← hblock]
    refine .step (mem a (.refl ha) above) above ?_ ?_
    · rw [hup]
      exact ih fun x hx => mem x (.step ha hx)
    · rw [hup, hblock]
      exact replayed.core hparent

theorem Backed.log_executed (h : Backed cfg G g f L log a blocks u) :
    ∃ db, Executed cfg G g f.objs log L db := by
  induction h with
  | base hexec => exact ⟨_, hexec⟩
  | step _ _ _ _ ih => exact ih

/-- The packs on the way have their blocks among those of the history. -/
theorem Backed.mem_blocks (hi : Inv cfg.crypto f L X) (h : Backed cfg G g f L log a blocks u)
    {x : Summary} (hanc : f.Anc a x) : (f.objs x).block ∈ blocks := by
  induction h with
  | base hexec =>
    have hx : x = L := hanc.eq_of_rank hi.upNum
      (le_antisymm (hanc.rank_le hi.upNum) (hi.last_le hanc.mem_right))
    obtain ⟨below, hbelow⟩ := hexec.head
    rw [hx, hbelow]
    exact List.mem_cons_self
  | step _ _ _ _ ih =>
    cases hanc with
    | refl _ => exact List.mem_cons_self
    | step _ rest => exact List.mem_cons_of_mem _ (ih rest)

theorem Backed.log_suffix (h : Backed cfg G g f L log a blocks u) : log <:+ blocks := by
  induction h with
  | base _ => exact List.suffix_rfl
  | step _ _ _ _ ih => exact ih.trans (List.suffix_cons _ _)

/-- The packs passed on the way to a pack of the container have their sessions in the history. -/
theorem Backed.length_le (hi : Inv cfg.crypto f L X) (h : Backed cfg G g f L log a blocks u)
    {l : List Summary} {x : Summary} (hway : Way f.up f.packs a l x) :
    l.length ≤ u.stack.length := by
  induction h generalizing l with
  | base _ =>
    cases hway with
    | here _ => exact le_rfl
    | pass mem rest =>
      have := hi.last_le rest.anc.mem_left
      have := hi.upNum L mem
      omega
  | step mem _ _ _ ih =>
    cases hway with
    | here _ => exact Nat.zero_le _
    | pass _ rest =>
      have := ih rest
      simp only [List.length_cons, Undo.withCur_stack, Undo.start]
      omega

/-- The block above the last irreversible one becomes irreversible, and the history loses its
session. -/
theorem Backed.advance (hl : Linked cfg.crypto f) {L' : Summary} (hup : f.up L' = L)
    (h : Backed cfg G g f L log a blocks u) (hanc : f.Anc a L') :
    Backed cfg G g f L' ((f.objs L').block :: log) a blocks (u.commit L'.num) := by
  have hnum : L.num + 1 = L'.num := by
    have := hl.upNum L' hanc.mem_right
    rwa [hup] at this
  induction h with
  | base _ =>
    have := hanc.rank_le hl.upNum
    omega
  | @step a blocks u db ha above parent replayed ih =>
    by_cases hne : a = L'
    · subst hne
      rw [hup] at parent replayed
      cases parent with
      | @base db₀ hexec =>
        have hcommit := Undo.commit_single (u := ⟨db₀, [], L.num⟩) rfl db
        have hprev : (f.objs a).prevId = L := hup
        have hbelow : Executed cfg G g f.objs log (f.objs a).prevId db₀ := by
          rw [hprev]
          exact hexec
        dsimp only at hcommit
        rw [hnum] at hcommit
        rw [hcommit]
        exact .base (.applied (hl.id a ha) (hl.previous a ha) (hl.upNum a ha) hbelow
          (by rw [hprev]; exact replayed))
      | step _ habove _ _ => omega
    · have hanc' := hanc.up_of_ne hne
      have hrev := parent.revision hl
      have hle := hanc'.rank_le hl.upNum
      have := hl.upNum a ha
      rw [Undo.commit_withCur_start (by omega)]
      exact .step ha (by omega) (ih hanc') replayed

end Backed

/-! ## A pack that is added -/

/-- The database has the history `u`; while a block is being built, under the session of that
block. -/
def OpenOn (building : Option BlockPack) (db u : Undo ChainDb) : Prop :=
  match building with
  | none => db = u
  | some _ => ∃ d, db = u.start.withCur d

theorem OpenOn.commit {building : Option BlockPack} {db u : Undo ChainDb} {n : ℕ}
    (h : OpenOn building db u) (hn : n ≤ u.revision) :
    OpenOn building (db.commit n) (u.commit n) := by
  unfold OpenOn at h ⊢
  split
  · rw [h]
  · obtain ⟨d, rfl⟩ := h
    exact ⟨d, Undo.commit_withCur_start hn d⟩

/-- What the irreversible handler does to the log. -/
theorem advanceAll_chainLog (f : ForkContext) (ids : List Summary) (sink : Sink ChainDb) :
    (advanceAll (sinkHandler cfg.crypto ChainDb) f ids sink).chainLog
      = (ids.map fun a => (f.objs a).block).reverse ++ sink.chainLog := by
  unfold advanceAll
  induction ids generalizing sink with
  | nil => rfl
  | cons a ids ih =>
    rw [List.foldl_cons, ih]
    simp [sinkHandler, irreversibleBlock]

theorem advanceAll_cur (f : ForkContext) (ids : List Summary) (sink : Sink ChainDb) :
    (advanceAll (sinkHandler cfg.crypto ChainDb) f ids sink).blockDb.cur = sink.blockDb.cur := by
  unfold advanceAll
  induction ids generalizing sink with
  | nil => rfl
  | cons a ids ih =>
    rw [List.foldl_cons, ih]
    rfl

section Advance

variable {f : ForkContext} {bh : Summary} {building : Option BlockPack} {blocks : List SignedBlock}

/-- The packs between two blocks on the way of the head become irreversible one after the other. -/
theorem Backed.advanceAll (hl : Linked cfg.crypto f) :
    ∀ {ids : List Summary} {L : Summary} {sink : Sink ChainDb} {u : Undo ChainDb},
      (L :: ids).IsChain (fun a b => f.up b = a) → (∀ a ∈ ids, f.Anc bh a) →
      Backed cfg G g f L sink.chainLog bh blocks u → OpenOn building sink.blockDb u →
      ∃ u', Backed cfg G g f ((L :: ids).getLast (List.cons_ne_nil _ _))
          (ForkContext.advanceAll (sinkHandler cfg.crypto ChainDb) f ids sink).chainLog bh blocks u' ∧
        OpenOn building
          (ForkContext.advanceAll (sinkHandler cfg.crypto ChainDb) f ids sink).blockDb u' ∧
        u'.cur = u.cur
  | [], L, sink, u, _, _, hb, ho => ⟨u, hb, ho, rfl⟩
  | a :: ids, L, sink, u, hchain, hmem, hb, ho => by
    obtain ⟨hup, hchain'⟩ := List.isChain_cons_cons.1 hchain
    have hanc := hmem a List.mem_cons_self
    have hnum : (f.objs a).block.blockNum = a.num := by
      rw [← BlockHeader.id_num cfg.crypto, hl.id a hanc.mem_right]
    have hle : a.num ≤ u.revision := by
      rw [hb.revision hl]
      exact hanc.rank_le hl.upNum
    let sink₁ := irreversibleBlock (f.objs a).toPackCore sink
    have hb₁ : Backed cfg G g f a sink₁.chainLog bh blocks (u.commit a.num) :=
      hb.advance hl hup hanc
    have ho₁ : OpenOn building sink₁.blockDb (u.commit a.num) := by
      simp only [sink₁, irreversibleBlock, hnum]
      exact ho.commit hle
    obtain ⟨u', hb', ho', hcur⟩ := Backed.advanceAll hl hchain'
      (fun b hb => hmem b (List.mem_cons_of_mem _ hb)) hb₁ ho₁
    rw [List.getLast_cons_cons]
    exact ⟨u', hb', ho', hcur⟩

end Advance

/-- Once the pack is in, `q` ranks before all packs or equal to them. -/
def ForkContext.Leads (f : ForkContext) (pack q : BlockPack) : Prop :=
  (q = pack ∨ ∃ a ∈ f.packs, q = f.objs a) ∧ longestLe q pack ∧
    ∀ a ∈ f.packs, longestLe q (f.objs a)

/-- What a pack names as last confirmed or as irreversible by DPoS is on the way of the head, as far
as it is in the container. -/
def ForkContext.NamesOnWay (f : ForkContext) (bh : Summary) (q : BlockPack) : Prop :=
  (q.lastConfirmedId ∈ f.packs → f.Anc bh q.lastConfirmedId) ∧
    (q.dposIrreversibleNum ≠ 0 → q.dposIrreversibleId ∈ f.packs → f.Anc bh q.dposIrreversibleId)

section Add

variable {f f' : ForkContext} {bh L X : Summary} {building : Option BlockPack}
  {blocks : List SignedBlock} {u : Undo ChainDb} {sink sink' : Sink ChainDb} {pack : BlockPack}

/-- The fork database, the log and the undo history after a pack was added whose head makes only
blocks on the way of `block_head` irreversible. -/
structure Added (cfg : ChainConfig) (G : BlockPack) (g : Origin) (f : ForkContext) (bh : Summary)
    (pack : BlockPack) (building : Option BlockPack) (blocks : List SignedBlock) (u : Undo ChainDb)
    (sink : Sink ChainDb) (f' : ForkContext) (sink' : Sink ChainDb) (L' : Summary) : Prop where
  inv : Inv cfg.crypto f' L' L'
  fresh : pack.blockId ∉ f.packs
  lead : ∃ q, f.Leads pack q ∧
    (f'.head = pack.blockId ∧ q = pack ∨ f'.head ∈ f.packs ∧ q = f.objs f'.head)
  backed : ∃ u', Backed cfg G g f' L' sink'.chainLog bh blocks u' ∧
    OpenOn building sink'.blockDb u' ∧ u'.cur = u.cur
  cur : sink'.blockDb.cur = sink.blockDb.cur
  core : ∀ a, (f'.objs a).toPackCore =
    if a = pack.blockId then pack.toPackCore else (f.objs a).toPackCore
  mainChain : ∀ a, (f'.objs a).mainChain =
    if a = pack.blockId then pack.mainChain else (f.objs a).mainChain
  packs : ∀ a, a ∈ f'.packs ↔ (a ∈ f.packs ∨ a = pack.blockId) ∧ (a = L' ∨ L'.num < a.num)
  anc : ∀ a b, a ≠ pack.blockId → b ∈ f'.packs → (f'.Anc a b ↔ f.Anc a b)
  passed : ∃ ids : List Summary, sink'.chainLog = (ids.map fun a => (f.objs a).block).reverse ++ sink.chainLog ∧
    ∀ a ∈ ids, f.Anc bh a

/-- What becomes irreversible when the head names blocks on the way of `block_head`. -/
theorem anc_of_finalizes {f₁ : ForkContext} {top L' : Summary} (hi : Inv cfg.crypto f L X)
    (hi₁ : Inv cfg.crypto (f₁.withHead top) L X) (hfirst : HeadFirst (f₁.withHead top))
    (hins : f.insert pack = .ok f₁)
    (hold : ∀ a b, a ≠ pack.blockId → f₁.Anc a b → f.Anc a b) (hbh : f.Anc bh L)
    (hL' : L' = (f₁.withHead top).finalizes.getD L) (hrel : (f₁.withHead top).Related top L')
    (hnames : f.NamesOnWay bh (f₁.objs top)) : f.Anc bh L' := by
  obtain ⟨hfresh, hpacks, -, -⟩ := insert_eq_ok hins
  have hmem := hi₁.head_mem hfirst
  have hid : (f₁.objs top).lastConfirmedId = X := hi₁.related top hmem (hi₁.head_related hfirst)
  unfold finalizes at hL'
  split at hL'
  · rw [hL']
    exact hbh
  · rename_i earliest rest hnum
    split_ifs at hL' with hlc hdpos
    · have hX : L' = X := hL'.trans hid
      rw [hX, ← hid]
      refine hnames.1 ?_
      rw [hid]
      exact hi.confirmed_mem
    · have hdef : L' = (f₁.objs top).dposIrreversibleId := hL'
      have hpos : (f₁.objs top).dposIrreversibleNum ≠ 0 := by
        change _ < (f₁.objs top).dposIrreversibleNum at hdpos
        omega
      have hcand : ((f₁.objs top).dposIrreversibleNum, (f₁.objs top).dposIrreversibleId)
          ∈ candidates (f₁.objs top) := by
        unfold candidates
        rw [if_neg hpos]
        exact List.mem_append_left _ (List.mem_singleton_self _)
      obtain ⟨hdnum, hlt, -⟩ := hi₁.dpos top hmem _ hcand
      dsimp only at hdnum hlt
      have hltop : L'.num < top.num := by
        rw [hdef, hdnum]
        exact hlt
      -- the new pack is nobody's parent
      have hne : L' ≠ pack.blockId := by
        intro heq
        have hanc : f₁.Anc top L' := hrel.anc_of_le hi₁.upNum hltop.le
        have htop : top ≠ pack.blockId := by
          rintro rfl
          rw [heq] at hltop
          exact lt_irrefl _ hltop
        exact hfresh (heq ▸ (hold top L' htop hanc).mem_right)
      have hmem' : L' ∈ f.packs := by
        have := hrel.elim (·.mem_right) (·.mem_left)
        change L' ∈ f₁.packs at this
        rw [hpacks, List.mem_append, List.mem_singleton] at this
        exact this.resolve_right hne
      rw [hdef] at hmem' ⊢
      exact hnames.2 hpos hmem'
    · rw [hL']
      exact hbh

theorem Added.of_addPack (hi : Inv cfg.crypto f L X)
    (hb : Backed cfg G g f L sink.chainLog bh blocks u) (ho : OpenOn building sink.blockDb u)
    {q : Summary} (hq : q ∈ f.packs) (hmade : MadeFrom cfg.crypto (f.objs q) pack)
    (hparent : f.ParentOk q) (hnames : ∀ q, f.Leads pack q → f.NamesOnWay bh q) :
    (∃ msg, ForkContext.addPack (onIrreversible cfg.crypto) cfg.crypto pack (f, sink)
        = .error (.fc msg) (f, sink)) ∨
      ∃ f' sink' L', ForkContext.addPack (onIrreversible cfg.crypto) cfg.crypto pack (f, sink)
        = .ok () (f', sink') ∧
        Added cfg G g f bh pack building blocks u sink f' sink' L' := by
  obtain ⟨hlow, hwrap⟩ := hparent
  rw [hi.num q hq] at hlow hwrap
  obtain ⟨below, hlog⟩ := hb.log_head
  have htip : (sinkHandler cfg.crypto ChainDb).tip sink = some L := by
    simp only [sinkHandler, hlog, List.head?_cons, Option.map_some, hi.id L hi.last_mem]
  have hadd := hi.addPack (sinkHandler cfg.crypto ChainDb) htip hq hmade hlow hwrap
  change (∃ msg, ForkContext.addPack (onIrreversible cfg.crypto) cfg.crypto pack (f, sink) = _ ∧ _)
    ∨ _ at hadd
  rcases hadd with ⟨msg, herr, -⟩ |
    ⟨f₁, top, f', sink', L', hins, hi₁, hfirst, hok, hinv, -, hset, hL', hrel⟩
  · exact .inl ⟨msg, herr⟩
  refine .inr ⟨f', sink', L', hok, ?_⟩
  obtain ⟨hfresh, hpacks, hobjs, -⟩ := insert_eq_ok hins
  obtain ⟨-, -, hnew, hold⟩ := hi.insert hq hmade hlow hwrap hins
  have hmem₁ : ∀ a, a ∈ f₁.packs ↔ a ∈ f.packs ∨ a = pack.blockId := fun a => by
    rw [hpacks, List.mem_append, List.mem_singleton]
  have hobj : ∀ a, f₁.objs a = if a = pack.blockId then pack else f.objs a := fun a => by
    rw [hobjs, Function.update_apply]
  have hold' : ∀ a ∈ f.packs, f₁.objs a = f.objs a := fun a ha => by
    rw [hobj, if_neg (ne_of_mem_of_not_mem ha hfresh)]
  have hself : f₁.objs pack.blockId = pack := by rw [hobj, if_pos rfl]
  -- the pack that ranks first
  obtain ⟨rest, hrest⟩ := hfirst
  have htop : top ∈ f₁.packs := hi₁.head_mem ⟨rest, hrest⟩
  have hlongest : ∀ a ∈ f₁.packs, longestLe (f₁.objs top) (f₁.objs a) := fun a ha =>
    (hi₁.top hrest ha).2
  have hcases : top = pack.blockId ∧ f₁.objs top = pack ∨
      top ∈ f.packs ∧ f₁.objs top = f.objs top := by
    rcases (hmem₁ top).1 htop with htop | htop
    · exact .inr ⟨htop, hold' top htop⟩
    · exact .inl ⟨htop, htop ▸ hself⟩
  have hleads : f.Leads pack (f₁.objs top) := by
    refine ⟨hcases.imp (·.2) fun h => ⟨top, h.1, h.2⟩, ?_, fun a ha => ?_⟩
    · have := hlongest pack.blockId ((hmem₁ _).2 (.inr rfl))
      rwa [hself] at this
    · have := hlongest a ((hmem₁ _).2 (.inl ha))
      rwa [hold' a ha] at this
  have hbhL : f.Anc bh L := hb.anc hi
  have hbhL' : f.Anc bh L' := anc_of_finalizes hi hi₁ ⟨rest, hrest⟩ hins hold hbhL hL' hrel
    (hnames _ hleads)
  have hL'n : L' ≠ pack.blockId := ne_of_mem_of_not_mem hbhL'.mem_right hfresh
  -- the history in the container with the pack, then without what is not needed any more
  have hb₁ : Backed cfg G g (f₁.withHead top) L sink.chainLog bh blocks u := by
    refine hb.congr (fun x hx _ => (hmem₁ x).2 (.inl hx.mem_right)) (fun x hx => ?_) hi.last_mem
    change (f₁.objs x).toPackCore = _
    rw [hobj, if_neg]
    rintro rfl
    refine hx.elim hfresh fun hle => ?_
    have hn := hi₁.lowest pack.blockId ((hmem₁ _).2 (.inr rfl))
    rcases hn with heq | hlt
    · exact hfresh (heq ▸ hi.last_mem)
    · omega
  obtain ⟨ids, hchain, hlast, hids, hsink⟩ := hset.path
  have hanc₁ : ∀ a ∈ ids, f.Anc bh a := by
    intro a ha
    have hwalk : (f₁.withHead top).Anc L' a := by
      rw [← hlast]
      exact (anc_of_isChain hchain a ha).mono hids fun _ _ => rfl
    exact hbhL'.trans (hold L' a hL'n hwalk)
  obtain ⟨u', hb', ho', hcur⟩ := hb₁.advanceAll hi₁.toLinked hchain
    (fun a ha => hnew bh a (hanc₁ a ha)) ho
  rw [hlast, ← hsink] at hb'
  rw [← hsink] at ho'
  have hpacks' : ∀ a, a ∈ f'.packs ↔
      (a ∈ f.packs ∨ a = pack.blockId) ∧ (a = L' ∨ L'.num < a.num) := fun a => by
    rw [hset.packs, ← hmem₁]
    rfl
  have hup' : f'.up = f₁.up := funext fun a => congrArg PackCore.prevId (hset.core a)
  refine ⟨hinv, hfresh, ⟨_, hleads, ?_⟩, ⟨u', ?_, ho', hcur⟩, ?_, fun a => ?_, fun a => ?_, hpacks',
    fun a b ha hbmem => ⟨fun hab => ?_, fun hab => ?_⟩, ids, ?_, hanc₁⟩
  · rw [hset.head]
    exact hcases
  · refine hb'.congr (fun x hx hlt => (hset.packs x).2 ⟨hx.mem_right, .inr hlt⟩) (fun x _ => hset.core x) ?_
    exact (hmem₁ L').2 (.inl hbhL'.mem_right)
  · rw [hsink, advanceAll_cur]
  · rw [hset.core]
    change (f₁.objs a).toPackCore = _
    rw [hobj]
    split_ifs <;> rfl
  · rw [hset.mainChain]
    change (f₁.objs a).mainChain = _
    rw [hobj]
    split_ifs <;> rfl
  · refine hold a b ha (hab.mono (fun x hx => ?_) fun x _ => by rw [hup'])
    exact ((hset.packs x).1 hx).1
  · have hab₁ := hnew a b hab
    unfold ForkContext.Anc at hab₁ ⊢
    rw [hup']
    refine hab₁.restrict_above hi₁.upNum hbmem fun x hx hlt => (hset.packs x).2 ⟨hx, .inr ?_⟩
    rcases ((hset.packs b).1 hbmem).2 with rfl | hbL
    · exact hlt
    · omega
  · rw [hsink, advanceAll_chainLog]
    congr 2
    refine List.map_congr_left fun a ha => ?_
    change (f₁.objs a).block = _
    rw [hold' a (hanc₁ a ha).mem_right]

end Add

end XmaxChain
