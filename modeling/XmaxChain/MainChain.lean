import XmaxChain.ChainRun
import XmaxChain.LogRuns

/-!
# Blocks of the main chain by number

A block is looked up among the packs flagged as main chain, and in the log if there is none. The
irreversible blocks below the last one are in the log only, so the two together have the whole way
of `block_head`.
-/

namespace XmaxChain

open ParentWalk ForkContext ChainStream

/-- `get_main_block_by_num`: the first pack in the index from this number on. -/
def ForkContext.getMainBlockByNum (f : ForkContext) (num : ℕ) : Option BlockPack :=
  match f.byNumber.dropWhile fun a => (f.objs a).blockNum < num with
  | [] => none
  | first :: _ =>
    if (f.objs first).blockNum ≠ num ∨ (f.objs first).mainChain ≠ true then none
    else some (f.objs first)

section Lookup

variable {β : Type} (fmt : LogFormat β) (f : ForkContext)

def blockFromNum (num : ℕ) : EStateM Fault (ChainStream β) SignedBlock := do
  match f.getMainBlockByNum num with
  | some pack => return pack.block
  | none =>
    match ← readBlock fmt num with
    | none => throw (.fc "Wrong block was read from block log.")
    | some block =>
      throwWhen (block.blockNum ≠ num) (.fc "Wrong block was read from block log.")
      return block

/-- The blocks above `lastnum`, down from the current number. -/
def syncBlocks (lastnum : ℕ) : ℕ → List SignedBlock → EStateM Fault (ChainStream β) (List SignedBlock)
  | 0, blockList => return blockList
  | currNum + 1, blockList =>
    if lastnum < currNum + 1 then do
      let block ← blockFromNum fmt f (currNum + 1)
      syncBlocks lastnum currNum (block :: blockList)
    else return blockList

def getSyncblockFromLastnum (s : ChainState) (lastnum : ℕ) :
    EStateM Fault (ChainStream β) (List SignedBlock) := do
  let blockList ← syncBlocks fmt s.fork lastnum s.headPack.blockNum []
  throwWhen (blockList.length = 0) (.fc "blockList.size() > 0")
  return blockList

end Lookup

/-! ## The chain with its log file -/

section Node

variable {β : Type} (cfg : ChainConfig) (fmt : LogFormat β) (G : BlockPack) (g : ChainDb)

/-- The log after blocks were appended to it, the oldest first. -/
def logged (c : Crypto) (blocks : List SignedBlock) (log : ChainStream β) : ChainStream β :=
  blocks.foldl (fun log b => stateOf ((LogCall.appendBlock b).run c fmt log)) log

/-- The blocks that a call has made irreversible, the oldest first. -/
def newlyIrreversible (s s' : ChainState) : List SignedBlock :=
  (s'.sink.chainLog.take (s'.sink.chainLog.length - s.sink.chainLog.length)).reverse

/-- Runs of a chain and its log: careful calls, and reads that the log answers as a list. -/
inductive NodeRun : ChainState → ChainStream β → Prop
  | genesis : NodeRun (.genesis G g) (logged fmt cfg.crypto [G.block] {})
  | call {s s' : ChainState} {log : ChainStream β} (run : NodeRun s log)
      (careful : CarefulStep cfg s s') :
    NodeRun s' (logged fmt cfg.crypto (newlyIrreversible s s') log)
  | read {s : ChainState} {log : ChainStream β} (run : NodeRun s log) (call : LogCall)
      (reads : ∀ bs, call.after bs = bs) (safe : call.Safe s.sink.chainLog.length) :
    NodeRun s (stateOf (call.run cfg.crypto fmt log))

end Node

variable {β : Type} {cfg : ChainConfig} {fmt : LogFormat β} {G : BlockPack} {g : ChainDb} {o : Origin}

/-! ## The index by number -/

section Index

variable {f : ForkContext} {a : Summary} {num : ℕ}

theorem getMainBlockByNum_eq_some {pack : BlockPack} (hc : Container f)
    (h : f.getMainBlockByNum num = some pack) :
    ∃ a ∈ f.packs, pack = f.objs a ∧ pack.blockNum = num ∧ pack.mainChain = true := by
  unfold getMainBlockByNum at h
  split at h
  · cases h
  · rename_i first rest hdrop
    split_ifs at h with hcheck
    simp only [not_or, not_not] at hcheck
    have hmem : first ∈ f.byNumber :=
      (List.dropWhile_sublist _).subset (by rw [hdrop]; exact List.mem_cons_self)
    cases h
    exact ⟨first, hc.permNumber.mem_iff.1 hmem, rfl, hcheck⟩

/-- A pack that alone has its number and the flag is found by its number. -/
theorem getMainBlockByNum_of_main (hc : Container f) (ha : a ∈ f.packs)
    (hmain : (f.objs a).mainChain = true)
    (honly : ∀ b ∈ f.packs, (f.objs b).mainChain = true →
      (f.objs b).blockNum = (f.objs a).blockNum → b = a) :
    f.getMainBlockByNum (f.objs a).blockNum = some (f.objs a) := by
  set p : Summary → Bool := fun b => decide ((f.objs b).blockNum < (f.objs a).blockNum) with hp
  have hrest : a ∈ f.byNumber.dropWhile p := by
    have hmem : a ∈ f.byNumber.takeWhile p ++ f.byNumber.dropWhile p := by
      rw [List.takeWhile_append_dropWhile]
      exact hc.permNumber.mem_iff.2 ha
    refine (List.mem_append.1 hmem).resolve_left fun htake => ?_
    have := List.mem_takeWhile_imp htake
    simp [hp] at this
  unfold getMainBlockByNum
  cases hdrop : f.byNumber.dropWhile p with
  | nil =>
    rw [hdrop] at hrest
    exact absurd hrest List.not_mem_nil
  | cons first rest =>
    have hsub : (first :: rest).Sublist f.byNumber := hdrop ▸ List.dropWhile_sublist _
    have hge : ¬ (f.objs first).blockNum < (f.objs a).blockNum := by
      have hnot := List.head?_dropWhile_not p f.byNumber
      rw [hdrop] at hnot
      exact of_decide_eq_false hnot
    have hfirst : first = a := by
      rw [hdrop] at hrest
      rcases List.mem_cons.1 hrest with heq | hmem
      · exact heq.symm
      · have hle := (List.pairwise_cons.1 (hc.sortedNumber.sublist hsub)).1 a hmem
        unfold numberLe at hle
        rw [hmain] at hle
        have hflag : (f.objs first).mainChain = true := by
          cases hflag : (f.objs first).mainChain with
          | true => rfl
          | false =>
            rw [hflag] at hle
            simp at hle
            omega
        refine honly first (hc.permNumber.mem_iff.1 (hsub.subset List.mem_cons_self)) hflag ?_
        omega
    rw [hfirst]
    simp [hmain]

end Index

theorem throwWhen_neg {p : Prop} [Decidable p] {e : Fault} {log : ChainStream β} (hp : ¬ p) :
    throwWhen (decide p) e log = .ok () log := by
  simp [throwWhen, hp]

/-! ## The whole way -/

section Runs

variable {s s' : ChainState} {log : ChainStream β} {time : ℕ} {key : PublicKey} {sig : Signature}
  {receipts : List TransactionReceipt} {next : List BuilderInfo} {L X : Summary}

/-- Appending blocks that continue the numbers of the log. -/
theorem LogRun.logged {blocks bs : List SignedBlock} (h : LogRun cfg.crypto fmt log bs)
    (hnum : ∀ i b, (bs ++ blocks)[i]? = some b → b.blockNum = i + 1) :
    LogRun cfg.crypto fmt (logged fmt cfg.crypto blocks log) (bs ++ blocks) := by
  induction blocks generalizing bs log with
  | nil => simpa [XmaxChain.logged] using h
  | cons b blocks ih =>
    have hb : b.blockNum = bs.length + 1 := hnum bs.length b (by simp)
    have hnext : LogRun cfg.crypto fmt (stateOf ((LogCall.appendBlock b).run cfg.crypto fmt log))
        (bs ++ [b]) := by
      have := h.call (.appendBlock b) trivial
      rwa [LogCall.after, if_pos hb] at this
    rw [List.append_cons]
    exact ih hnext (by rwa [← List.append_cons])

/-- The log file has the irreversible blocks. -/
theorem NodeRun.runs
    (h : NodeRun cfg fmt (BlockPack.genesis cfg.crypto time key sig receipts next) g s log) :
    ChainRun cfg (BlockPack.genesis cfg.crypto time key sig receipts next) g s ∧
      LogRun cfg.crypto fmt log s.sink.chainLog.reverse := by
  induction h with
  | genesis =>
    exact ⟨.refl, LogRun.logged .created fun i b hb => (Good.genesis (g := .loose g)).log_numbered hb⟩
  | @call s s' log _ careful ih =>
    obtain ⟨hrun, hlog⟩ := ih
    have hrun' : ChainRun cfg _ g s' := hrun.tail careful
    obtain ⟨L, X, hgood⟩ := hrun.good
    obtain ⟨L', X', hgood'⟩ := hrun'.good
    obtain ⟨-, ⟨new, hnew⟩, -⟩ := careful.finalises hgood
    have hnewly : newlyIrreversible s s' = new.reverse := by
      unfold newlyIrreversible
      rw [← hnew, List.length_append, Nat.add_sub_cancel, List.take_left]
    rw [hnewly, ← hnew, List.reverse_append]
    refine ⟨hrun', hlog.logged fun i b hb => hgood'.log_numbered ?_⟩
    rw [← hnew, List.reverse_append, hb]
  | @read s log _ call reads safe ih =>
    refine ⟨ih.1, ?_⟩
    have := ih.2.call call (by rwa [List.length_reverse])
    rwa [reads] at this

/-- The packs flagged as main chain differ in their numbers. -/
theorem Good.main_unique (h : Good cfg G o s L X) {a b : Summary} (ha : a ∈ s.fork.packs)
    (hb : b ∈ s.fork.packs) (hmain : (s.fork.objs a).mainChain = true)
    (hmain' : (s.fork.objs b).mainChain = true)
    (hnum : (s.fork.objs a).blockNum = (s.fork.objs b).blockNum) : a = b := by
  have hi := h.inv
  rw [hi.num a ha, hi.num b hb] at hnum
  exact ((h.main a ha).1 hmain).unique hi.upNum ((h.main b hb).1 hmain') hnum

/-- The block of the path with a number is among the packs or in the log. -/
theorem Good.blockFromNum_ok
    (h : Good cfg (BlockPack.genesis cfg.crypto time key sig receipts next) o s L X)
    (hlog : Holds cfg.crypto fmt log s.sink.chainLog.reverse) {num : ℕ} (hpos : 1 ≤ num)
    (hle : num ≤ s.headPack.blockNum) :
    ∃ b log', blockFromNum fmt s.fork num log = .ok b log' ∧
      Holds cfg.crypto fmt log' s.sink.chainLog.reverse ∧ s.path.reverse[num - 1]? = some b := by
  have hi := h.inv
  have hmem := h.headPack_mem
  obtain ⟨hsuffix, hway⟩ := h.path_eq
  have hnumbered := h.path_numbered.2.2
  rcases Nat.lt_or_ge num L.num with hlow | hhigh
  · -- below the last irreversible block there is no pack
    have hnone : s.fork.getMainBlockByNum num = none := by
      rw [Option.eq_none_iff_forall_ne_some]
      intro pack hpack
      obtain ⟨a, ha, rfl, hanum, -⟩ := getMainBlockByNum_eq_some hi.toContainer hpack
      have := hi.last_le ha
      rw [hi.num a ha] at hanum
      omega
    have hlen : num - 1 < s.sink.chainLog.reverse.length := by
      rw [List.length_reverse, h.log_length]
      omega
    obtain ⟨log', hread, hheld⟩ :=
      hlog.readBlock_ok (List.length_pos_iff.1 (by omega)) (Nat.one_le_iff_ne_zero.1 hpos)
    rw [List.getElem?_eq_getElem hlen] at hread
    set b := s.sink.chainLog.reverse[num - 1] with hb
    have hget : s.sink.chainLog.reverse[num - 1]? = some b := List.getElem?_eq_getElem hlen
    have hnum : b.blockNum = num := by
      rw [h.log_numbered hget]
      omega
    refine ⟨b, log', ?_, hheld, ?_⟩
    · unfold XmaxChain.blockFromNum
      rw [hnone]
      dsimp only
      rw [run_bind_ok hread]
      dsimp only
      rw [run_bind_ok (throwWhen_neg (not_not.2 hnum))]
      rfl
    · obtain ⟨rest, hrest⟩ := List.reverse_prefix.2 hsuffix
      rw [← hrest, List.getElem?_append_left hlen, hget]
  · obtain ⟨_, _, hb, -⟩ := h.backed
    rw [ChainState.headPack, hi.num _ hmem] at hle
    obtain ⟨y, hy, -, hynum⟩ := (hb.anc hi).exists_at hi.upNum hhigh hle
    have hymem := hy.mem_right
    have hmain := (h.main y hymem).2 hy
    have hfound : s.fork.getMainBlockByNum num = some (s.fork.objs y) := by
      rw [← hynum, ← hi.num y hymem]
      exact getMainBlockByNum_of_main hi.toContainer hymem hmain fun b hb hbmain hbnum =>
        h.main_unique hb hymem hbmain hmain hbnum
    obtain ⟨i, hget⟩ := List.getElem?_of_mem (List.mem_reverse.2 (hway y hy))
    have hindex : i = num - 1 := by
      have := hnumbered i _ hget
      rw [← BlockHeader.id_num cfg.crypto, hi.id y hymem] at this
      omega
    refine ⟨_, log, ?_, hlog, hindex ▸ hget⟩
    unfold XmaxChain.blockFromNum
    rw [hfound]
    rfl

theorem Good.syncBlocks_ok
    (h : Good cfg (BlockPack.genesis cfg.crypto time key sig receipts next) o s L X) (lastnum : ℕ) :
    ∀ (currNum : ℕ) (blockList : List SignedBlock) {log : ChainStream β},
      Holds cfg.crypto fmt log s.sink.chainLog.reverse → currNum ≤ s.headPack.blockNum →
      ∃ log', syncBlocks fmt s.fork lastnum currNum blockList log
        = .ok ((s.path.reverse.take currNum).drop lastnum ++ blockList) log'
  | 0, _, log, _, _ => ⟨log, by simp [syncBlocks, pure, EStateM.pure]⟩
  | currNum + 1, blockList, log, hlog, hle => by
    unfold syncBlocks
    split_ifs with hlast
    · obtain ⟨b, log₁, hread, hheld, hget⟩ := h.blockFromNum_ok hlog (Nat.succ_pos currNum) hle
      obtain ⟨log', hrest⟩ := h.syncBlocks_ok lastnum currNum (b :: blockList) hheld (by omega)
      refine ⟨log', ?_⟩
      rw [run_bind_ok hread, hrest]
      have hindex : s.path.reverse[currNum]? = some b := hget
      have htake : s.path.reverse.take (currNum + 1) = s.path.reverse.take currNum ++ [b] := by
        rw [List.take_add_one, hindex]
        rfl
      have hlen : lastnum ≤ (s.path.reverse.take currNum).length := by
        rw [List.length_take, List.length_reverse, h.path_numbered.1]
        omega
      rw [htake, List.drop_append_of_le_length hlen, List.append_assoc]
      rfl
    · refine ⟨log, ?_⟩
      rw [List.drop_eq_nil_of_le (by simp; omega)]
      rfl

/-- In every careful run the blocks of the main chain are found by their numbers: each number up to
that of `block_head` has one block on the path, whether among the packs or in the log, and no two
packs with one number are flagged as main chain. -/
theorem main_chain_found
    (h : NodeRun cfg fmt (BlockPack.genesis cfg.crypto time key sig receipts next) g s log) :
    (∃ db, Executed cfg (BlockPack.genesis cfg.crypto time key sig receipts next) (.loose g)
        s.fork.objs s.path s.blockHead db) ∧
      s.path.length = s.headPack.blockNum ∧
      s.path.IsChain (fun b p => b.previous = p.id cfg.crypto) ∧
      (∀ num, 1 ≤ num → num ≤ s.headPack.blockNum → ∃ b log',
        blockFromNum fmt s.fork num log = .ok b log' ∧ s.path.reverse[num - 1]? = some b ∧
          b.blockNum = num) ∧
      (∀ a ∈ s.fork.packs, ∀ b ∈ s.fork.packs, (s.fork.objs a).mainChain = true →
        (s.fork.objs b).mainChain = true → (s.fork.objs a).blockNum = (s.fork.objs b).blockNum →
        a = b) ∧
      ∀ lastnum < s.headPack.blockNum, ∃ log',
        getSyncblockFromLastnum fmt s lastnum log = .ok (s.path.reverse.drop lastnum) log' := by
  obtain ⟨hrun, hlogrun⟩ := h.runs
  obtain ⟨L, X, hgood⟩ := hrun.good
  have hlog := hlogrun.holds
  obtain ⟨hlen, hchain, hnum⟩ := hgood.path_numbered
  refine ⟨⟨_, hgood.database.1⟩, hlen, hchain, fun num hpos hle => ?_, fun a ha b hb hmain hmain' heq =>
    hgood.main_unique ha hb hmain hmain' heq, fun lastnum hlt => ?_⟩
  · obtain ⟨b, log', hread, -, hget⟩ := hgood.blockFromNum_ok hlog hpos hle
    refine ⟨b, log', hread, hget, ?_⟩
    rw [hnum _ _ hget]
    omega
  · obtain ⟨log', hsync⟩ := hgood.syncBlocks_ok lastnum s.headPack.blockNum [] hlog le_rfl
    rw [List.append_nil, List.take_of_length_le (by rw [List.length_reverse, hlen])] at hsync
    have hne : (s.path.reverse.drop lastnum).length ≠ 0 := by
      rw [List.length_drop, List.length_reverse]
      omega
    refine ⟨log', ?_⟩
    unfold getSyncblockFromLastnum
    rw [run_bind_ok hsync, run_bind_ok (throwWhen_neg hne)]
    rfl

end Runs

/-- Once a block is built on the rival that nobody has applied, the number of `block_head` is looked
up as that of the block on the branch that was left. -/
theorem other_block_found :
    ∃ g s b, oneBuilderDb = .ok g ∧
      s = chainCalls headerConfig rivalThenBuild (.genesis oneBuilderGenesis g) ∧
      s.headPack.blockNum = 3 ∧ b ≠ s.headPack.block ∧
      ∀ log, blockFromNum logFormat s.fork 3 log = .ok b log := by
  obtain ⟨g, hg, hnum, hfound⟩ := exists_ok_of_eval (x := oneBuilderDb)
    (P := fun g =>
      let s := chainCalls headerConfig rivalThenBuild (.genesis oneBuilderGenesis g)
      s.headPack.blockNum = 3 ∧
        (match s.fork.getMainBlockByNum 3 with
          | some pack => decide (pack.block ≠ s.headPack.block)
          | none => false) = true)
    (by decide +kernel)
  split at hfound
  · rename_i pack hpack
    refine ⟨g, _, pack.block, hg, rfl, hnum, of_decide_eq_true hfound, fun log => ?_⟩
    unfold blockFromNum
    rw [hpack]
    rfl
  · cases hfound

theorem main_chain_found_second :
    ∃ g s log, oneBuilderDb = .ok g ∧ NodeRun headerConfig logFormat oneBuilderGenesis g s log ∧
      s.headPack.blockNum = 2 ∧
      ∃ log', getSyncblockFromLastnum logFormat s 0 log = .ok s.path.reverse log' := by
  obtain ⟨g, hg, hnum⟩ := exists_ok_of_eval (x := oneBuilderDb)
    (P := fun g => (stateOf (confirmBlock headerConfig secondBlock
      (.genesis oneBuilderGenesis g))).headPack.blockNum = 2) (by decide +kernel)
  have hstep : CarefulStep headerConfig (.genesis oneBuilderGenesis g)
      (stateOf (confirmBlock headerConfig secondBlock (.genesis oneBuilderGenesis g))) :=
    ⟨.confirmBlock secondBlock, secondBlock_careful g, rfl⟩
  have hrun : NodeRun headerConfig logFormat oneBuilderGenesis g _ _ := .call .genesis hstep
  obtain ⟨-, -, -, -, -, hsync⟩ := main_chain_found hrun
  exact ⟨g, _, _, hg, hrun, hnum, hsync 0 (by rw [hnum]; decide)⟩

end XmaxChain
