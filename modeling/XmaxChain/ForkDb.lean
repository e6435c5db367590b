import XmaxChain.BlockPack
import XmaxChain.Lib.OrderedIndex
import XmaxChain.Lib.ParentWalk
import XmaxChain.Lib.Undo

/-!
# The fork database

The packs of all branches above the last irreversible block, in a container with an index by
number and an index by rank. Pack objects are shared with the chain, so they are kept apart from
the indices and outlive their removal from these; an object is known by its block's id.
-/

namespace XmaxChain

open OrderedIndex ParentWalk

/-- The order of the index by number: lower numbers first, and main chain first among equals. -/
def numberLe (p q : BlockPack) : Prop :=
  p.blockNum < q.blockNum ∨ p.blockNum = q.blockNum ∧ q.mainChain.toNat ≤ p.mainChain.toNat

/-- The order of the index by rank: the last confirmed number decides, then the DPoS irreversible
number, then the block number, then the main chain. -/
def longestLe (p q : BlockPack) : Prop :=
  q.lastConfirmedNum < p.lastConfirmedNum ∨ q.lastConfirmedNum = p.lastConfirmedNum ∧
    (q.dposIrreversibleNum < p.dposIrreversibleNum
      ∨ q.dposIrreversibleNum = p.dposIrreversibleNum ∧
        (q.blockNum < p.blockNum
          ∨ q.blockNum = p.blockNum ∧ q.mainChain.toNat ≤ p.mainChain.toNat))

instance : DecidableRel numberLe := fun p q => by unfold numberLe; infer_instance

instance : DecidableRel longestLe := fun p q => by unfold longestLe; infer_instance

structure ForkContext where
  objs : Summary → BlockPack
  packs : List Summary
  byNumber : List Summary
  byLongest : List Summary
  head : Summary

namespace ForkContext

variable (f : ForkContext)

def up (id : Summary) : Summary := (f.objs id).prevId

def headPack : BlockPack := f.objs f.head

def getBlock (id : Summary) : Option BlockPack := if id ∈ f.packs then some (f.objs id) else none

/-- Changes a pack in the container: both indices put it in its place again. -/
def modify (id : Summary) (g : BlockPack → BlockPack) : ForkContext :=
  let objs := Function.update f.objs id (g (f.objs id))
  { f with
    objs
    byNumber := relocate (fun a b => numberLe (objs a) (objs b)) id f.byNumber
    byLongest := relocate (fun a b => longestLe (objs a) (objs b)) id f.byLongest }

/-- Changes an object that the container does not order by what changes. -/
def modifyObj (id : Summary) (g : BlockPack → BlockPack) : ForkContext :=
  { f with objs := Function.update f.objs id (g (f.objs id)) }

def insert (pack : BlockPack) : Except Fault ForkContext :=
  if pack.blockId ∈ f.packs then
    .error (.fc "unable to insert block state, duplicate state detected")
  else
    let objs := Function.update f.objs pack.blockId pack
    .ok { f with
      objs
      packs := f.packs ++ [pack.blockId]
      byNumber := upperInsert (fun a b => numberLe (objs a) (objs b)) pack.blockId f.byNumber
      byLongest := upperInsert (fun a b => longestLe (objs a) (objs b)) pack.blockId f.byLongest }

def erase (id : Summary) : ForkContext :=
  { f with
    packs := f.packs.erase id
    byNumber := f.byNumber.erase id
    byLongest := f.byLongest.erase id }

def withHead (top : Summary) : ForkContext := { f with head := top }

/-- The first pack by rank; an empty container has none to read. -/
def updateHead : Except Fault ForkContext :=
  match f.byLongest with
  | [] => .error (.undefined "update_head")
  | top :: _ => .ok (f.withHead top)

def markConfirmed (num : ℕ) (id : Summary) (p : BlockPack) : BlockPack :=
  { p with lastBlockNum := num, lastConfirmedNum := num, lastConfirmedId := id }

/-- The packs that a confirmation of `last` marks: itself, those on the way up from it as far as
they are in the container, and those below it, in the order in which they are marked. Numbers
fall on the way up, and no pack is below another one twice. -/
def confirmedBy (last : Summary) : List Summary :=
  let known := f.packs.filter (· ≠ emptyChainId)
  last :: walkUp f.up known ((f.up last).num + 1) (f.up last)
    ++ below f.up f.packs (f.packs.length + 1) [last]

/-- Changes the packs of a list, one after the other. -/
def modifyAll (g : BlockPack → BlockPack) (ids : List Summary) : ForkContext :=
  ids.foldl (fun f id => f.modify id g) f

def setLastConfirmed (last : Summary) : Except Fault ForkContext :=
  if last ∈ f.packs then
    .ok (f.modifyAll (markConfirmed (f.objs last).blockNum last) (f.confirmedBy last))
  else .error (.fc "unknown block id")

/-- A confirmation only marks packs: the head stays as it is and nothing becomes irreversible
until the next block is added. -/
def addConfirmation (c : Crypto) (skip : Bool) (conf : BlockConfirmation) :
    Except Fault ForkContext := do
  match f.getBlock conf.blockId with
  | none => .error (.fc "Unknown block id")
  | some pack =>
    let pack ← pack.addConfirmation c skip conf
    let f := f.modifyObj conf.blockId fun _ => pack
    if pack.enoughConfirmation ∧ pack.lastConfirmedNum < pack.blockNum then
      f.setLastConfirmed conf.blockId
    else .ok f

def changeMainChainFlag (id : Summary) (flag : Bool) : Except Fault ForkContext :=
  if id ∈ f.packs then
    .ok (if (f.objs id).mainChain = flag then f
      else f.modify id fun p => { p with mainChain := flag })
  else .error (.fc "block not found in fork database")

/-- The work list of `remove_chain`: what is pushed for an id is not its children but every pack
whose parent's id is not smaller. They all end up erased, in whichever order. -/
def removeLoop : ℕ → List Summary → ForkContext → Except Fault ForkContext
  | _, [], f => .ok f
  | 0, _ :: _, _ => .error .diverged
  | fuel + 1, id :: todo, f =>
    let f := f.erase id
    removeLoop fuel (todo ++ f.packs.filter fun a => id.ble (f.up a)) f

def removeChain (beginId : Summary) : Except Fault ForkContext := do
  let f ← removeLoop (f.packs.length * f.packs.length + 1) [beginId] f
  f.updateHead

end ForkContext

/-- The part of the chain that the irreversible handler works on: the log, its newest block
first, and the database with its undo history. -/
structure Sink (D : Type) where
  chainLog : List SignedBlock
  lastIrreversibleBlockNum : ℕ
  blockDb : Undo D

variable {D H : Type}

def irreversibleBlock (pack : PackCore) (s : Sink D) : Sink D :=
  { chainLog := pack.block :: s.chainLog
    lastIrreversibleBlockNum := pack.block.blockNum
    blockDb := s.blockDb.commit pack.block.blockNum }

def onIrreversible (c : Crypto) (pack : BlockPack) (s : Sink D) : Except Fault (Sink D) := do
  match s.chainLog with
  | [] => .error (.undefined "on_irreversible")
  | pre :: _ =>
    fcAssert (u32 (pack.blockNum + (2 ^ 32 - 1)) == pre.blockNum) "error block"
    fcAssert (pack.block.previous == pre.id c) "new block doesn't link to pre block head"
    return irreversibleBlock pack.toPackCore s

namespace ForkContext

section Handler

variable (handler : BlockPack → H → Except Fault H)

/-- The packs that a newly confirmed block makes irreversible, and those to be dropped: of the
packs numbered up to it, the ones whose last confirmed block it is, and all others. -/
def grown (f : ForkContext) (last : Summary) (num : ℕ) : List Summary × List Summary :=
  let seen := f.byNumber.takeWhile fun id => (f.objs id).blockNum ≤ num
  (seen.filter fun id => (f.objs id).lastConfirmedId = last ∧ ¬ (f.objs id).irreversibleConfirmed,
    seen.filter fun id => ¬ ((f.objs id).lastConfirmedId = last ∧ id = last))

/-- Hands packs to the handler one by one and flags them; the first exception ends it. -/
def handOver : List Summary → ForkContext × H → EStateM.Result Fault (ForkContext × H) Unit
  | [], s => .ok () s
  | id :: ids, s =>
    match handler (s.1.objs id) s.2 with
    | .error e => .error e s
    | .ok h => handOver ids (s.1.modifyObj id fun p => { p with irreversibleConfirmed := true }, h)

def onLastConfirmedGrow (last : Summary) (num : ℕ) : EStateM Fault (ForkContext × H) Unit := fun s =>
  let lists := s.1.grown last num
  match handOver handler lists.1 s with
  | .error e s => .error e s
  | .ok _ s => .ok () (lists.2.foldl erase s.1, s.2)

/-- What `add_block` does once the pack is in the container. -/
def settle : EStateM Fault (ForkContext × H) Unit := fun s =>
  match s.1.byNumber with
  | [] => .error (.undefined "add_block") s
  | earliest :: _ =>
    let head := s.1.headPack
    if (s.1.objs earliest).blockNum < head.lastConfirmedNum then
      onLastConfirmedGrow handler head.lastConfirmedId head.lastConfirmedNum s
    else if (s.1.objs earliest).blockNum < head.dposIrreversibleNum then
      match s.1.setLastConfirmed head.dposIrreversibleId with
      | .error e => .error e s
      | .ok f =>
        onLastConfirmedGrow handler head.dposIrreversibleId head.dposIrreversibleNum (f, s.2)
    else .ok () s

def addPack (c : Crypto) (pack : BlockPack) : EStateM Fault (ForkContext × H) Unit := fun s =>
  if pack.blockId ≠ pack.block.id c then .error (.fc "block_id") s
  else
    match s.1.insert pack with
    | .error e => .error e s
    | .ok f =>
      match f.updateHead with
      | .error e => .error e (f, s.2)
      | .ok f => settle handler (f, s.2)

/-- The pack that a received block makes, with the checks on its builder. -/
def packOfBlock (c : Crypto) (f : ForkContext) (block : SignedBlock) : Except Fault BlockPack := do
  match f.getBlock block.previous with
  | none => .error (.fc "previous block not found.")
  | some pre =>
    let pack ← pre.initByPrePack block.timestamp false
    fcAssert (pack.newHeader.builder == block.builder) "error builder"
    match c.signerKey block.builderSignature (block.digest c) with
    | none => .error (.fc "public_key")
    | some key =>
      fcAssert (key == pack.bldInfo.blockSigningKey) "error sign of block."
      return pack.generateByBlock c block

def addBlock (c : Crypto) (block : SignedBlock) : EStateM Fault (ForkContext × H) BlockPack := fun s =>
  match packOfBlock c s.1 block with
  | .error e => .error e s
  | .ok pack =>
    match addPack handler c pack s with
    | .error e s => .error e s
    | .ok _ s => .ok pack s

end Handler

/-- The database of a new chain: its first pack alone, confirmed and irreversible. -/
def genesis (G : BlockPack) : ForkContext where
  objs := Function.update (fun _ => default) G.blockId G
  packs := [G.blockId]
  byNumber := [G.blockId]
  byLongest := [G.blockId]
  head := G.blockId

/-- The way from two packs up to where they meet, nearest first, with the meeting pack. -/
structure FetchBranch where
  forkNode : Summary
  first : List Summary
  second : List Summary
deriving DecidableEq, Repr

def fetchUp (f : ForkContext) (id : Summary) : Except Fault Summary :=
  if f.up id ∈ f.packs then .ok (f.up id) else .error (.fc "branch")

/-- The way up from a pack to a number. -/
def fetchDown (f : ForkContext) (num : ℕ) : ℕ → Summary → Except Fault (List Summary × Summary)
  | 0, _ => .error .diverged
  | fuel + 1, a =>
    if num < (f.objs a).blockNum then do
      let r ← fetchDown f num fuel (← f.fetchUp a)
      return (a :: r.1, r.2)
    else .ok ([], a)

/-- The two ways up from packs of one number until they meet. -/
def fetchMeet (f : ForkContext) : ℕ → Summary → Summary → Except Fault FetchBranch
  | 0, _, _ => .error .diverged
  | fuel + 1, a, b =>
    if a = b then .ok ⟨a, [], []⟩
    else do
      let r ← fetchMeet f fuel (← f.fetchUp a) (← f.fetchUp b)
      return { r with first := a :: r.first, second := b :: r.second }

def fetchBranchFromFork (f : ForkContext) (first second : Summary) : Except Fault FetchBranch := do
  fcAssert (first ∈ f.packs) "Unknown block id"
  fcAssert (second ∈ f.packs) "Unknown block id"
  let a ← f.fetchDown (f.objs second).blockNum ((f.objs first).blockNum + 1) first
  let b ← f.fetchDown (f.objs a.2).blockNum ((f.objs second).blockNum + 1) second
  fcAssert ((f.objs a.2).blockNum == (f.objs b.2).blockNum) "branch"
  let r ← f.fetchMeet ((f.objs a.2).blockNum + 1) a.2 b.2
  return { r with first := a.1 ++ r.first, second := b.1 ++ r.second }

/-! ## What is left to the handler -/

section Keeps

variable {handler : BlockPack → H → Except Fault H} {R : H → Prop}

/-- What every call of the handler keeps is kept by adding a pack, whether it throws or not. -/
theorem handOver_keeps (step : ∀ {p h h'}, handler p h = .ok h' → R h → R h') {ids : List Summary}
    {s : ForkContext × H} (h : R s.2) : R (stateOf (handOver handler ids s)).2 := by
  induction ids generalizing s with
  | nil => exact h
  | cons id ids ih =>
    unfold handOver
    cases hrun : handler (s.1.objs id) s.2 with
    | error e => exact h
    | ok h' => exact ih (step hrun h)

theorem onLastConfirmedGrow_keeps (step : ∀ {p h h'}, handler p h = .ok h' → R h → R h')
    {last : Summary} {num : ℕ} {s : ForkContext × H} (h : R s.2) :
    R (stateOf (onLastConfirmedGrow handler last num s)).2 := by
  have hover : R (stateOf (handOver handler (s.1.grown last num).1 s)).2 := handOver_keeps step h
  unfold onLastConfirmedGrow
  dsimp only
  cases hrun : handOver handler (s.1.grown last num).1 s with
  | error e s' =>
    rw [hrun] at hover
    exact hover
  | ok u s' =>
    rw [hrun] at hover
    exact hover

theorem settle_keeps (step : ∀ {p h h'}, handler p h = .ok h' → R h → R h') {s : ForkContext × H}
    (h : R s.2) : R (stateOf (settle handler s)).2 := by
  unfold settle
  split
  · exact h
  · dsimp only
    split_ifs
    · exact onLastConfirmedGrow_keeps step h
    · split
      · exact h
      · exact onLastConfirmedGrow_keeps step h
    · exact h

theorem addPack_keeps (step : ∀ {p h h'}, handler p h = .ok h' → R h → R h') {c : Crypto}
    {pack : BlockPack} {s : ForkContext × H} (h : R s.2) :
    R (stateOf (addPack handler c pack s)).2 := by
  unfold addPack
  split_ifs
  · exact h
  · split
    · exact h
    · split
      · exact h
      · exact settle_keeps step h

end Keeps

end ForkContext

end XmaxChain
