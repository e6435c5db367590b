import Mathlib.Data.List.Sort
import XmaxChain.Ledger

/-!
# Staked votes

A voter's stake counts for the builders it lists, or for those its proxy lists. The code holds
pointers to rows while other rows change, so a row is read again wherever the code reads through
such a pointer.
-/

namespace XmaxChain

/-- The loops that find a builder's row and change its votes. -/
def tally (f : ℕ → ℕ) (missing : String) (l : Ledger) (builders : List AccountName) :
    Except Fault Ledger :=
  builders.foldlM (fun l p => do
    fcAssert (l.builders.find? p).isSome missing
    pure { l with
      builders := l.builders.modify p fun b => { b with totalVotes := f b.totalVotes } }) l

/-- The builders a voter's stake counts for. -/
def votedBuilders (l : Ledger) (acnt : AccountName) : Except Fault (List AccountName) := do
  let voter ← dbDeref l.voters acnt
  if voter.proxy ≠ 0 then
    let proxy ← dbDeref l.voters voter.proxy
    pure (if proxy.isProxy ≠ 0 then proxy.builders else [])
  else pure voter.builders

def addStake (ctx : MessageContext) (l : Ledger) (acnt : AccountName) (amount : ℕ) :
    Except Fault (Table AccountName VoterInfo) :=
  match l.voters.find? acnt with
  | none => dbCreate l.voters acnt { lastUpdate := ctx.currentTime, staked := amount }
  | some _ => pure (l.voters.modify acnt fun v =>
      { v with lastUpdate := ctx.currentTime, staked := v.staked + amount })

/-- The voter's proxy, if it has one, stands for the new stake too. -/
def addProxied (l : Ledger) (acnt : AccountName) (amount : ℕ) :
    Except Fault (Table AccountName VoterInfo) := do
  let voter ← dbDeref l.voters acnt
  if voter.proxy ≠ 0 then do
    fcAssert (l.voters.find? voter.proxy).isSome "selected proxy not found"
    pure (l.voters.modify voter.proxy fun p =>
      { p with proxiedVotes := u128 (p.proxiedVotes + amount) })
  else pure l.voters

def increaseVotes (ctx : MessageContext) (l : Ledger) (acnt : AccountName) (amount : ℕ) :
    Except Fault Ledger := do
  let voters ← addStake ctx l acnt amount
  let l := { l with voters := voters }
  let voters ← addProxied l acnt amount
  let l := { l with voters := voters }
  let builders ← votedBuilders l acnt
  tally (fun v => u128 (v + amount)) "never existed builder" l builders

/-- Without its row a proxy is not modified, but it is read all the same. -/
def decreaseVotes (ctx : MessageContext) (l : Ledger) (acnt : AccountName) (amount : ℕ) :
    Except Fault Ledger := do
  fcAssert (l.voters.find? acnt).isSome "stake not found"
  let voter ← dbDeref l.voters acnt
  if 0 < amount then
    fcAssert (amount ≤ voter.staked) "cannot unstake more than total stake amount"
    let l := { l with voters := l.voters.modify acnt fun v =>
      { v with staked := v.staked - amount, lastUpdate := ctx.currentTime } }
    let l := if voter.proxy ≠ 0 then
        { l with voters := l.voters.modify voter.proxy fun p =>
          { p with proxiedVotes := subU128 p.proxiedVotes amount } }
      else l
    let builders ← votedBuilders l acnt
    tally (fun v => subU128 v amount) "never existed builder" l builders
  else
    pure { l with voters := l.voters.modify acnt fun v =>
      { v with
        staked := v.staked + v.unstaking
        unstaking := 0
        unstakePerWeek := 0
        deferredTrxId := 0
        lastUpdate := ctx.currentTime } }

/-- `std::set_difference` on two ranges, which need not be sorted. -/
def setDifference : List ℕ → List ℕ → List ℕ
  | [], _ => []
  | a :: as, bs =>
    match bs.dropWhile (· < a) with
    | [] => a :: as
    | b :: bs => if a < b then a :: setDifference as (b :: bs) else setDifference as bs

/-- The votes go to the builders newly voted for. One who votes directly can only vote for a builder
that is registered now. -/
def elect (direct : Bool) (votes : ℕ) (l : Ledger) (elected : List AccountName) :
    Except Fault Ledger :=
  elected.foldlM (fun l p => do
    fcAssert (l.builders.find? p).isSome "builder is not registered"
    let builder ← dbDeref l.builders p
    fcAssert (!direct || builder.isActived) "builder is not currently registered"
    pure { l with
      builders := l.builders.modify p fun b => { b with totalVotes := u128 (b.totalVotes + votes) } }) l

/-- Takes the voter's stake from its old proxy and returns the builders it counted for. -/
def leaveOldProxy (l : Ledger) (name : AccountName) (voter : VoterInfo) :
    Except Fault (Ledger × List AccountName) :=
  if voter.proxy ≠ 0 then do
    fcAssert (l.voters.find? voter.proxy).isSome "old proxy not found"
    let l := { l with voters := l.voters.modify voter.proxy fun p =>
      { p with proxiedVotes := subU128 p.proxiedVotes voter.staked } }
    let oldProxy ← dbDeref l.voters voter.proxy
    pure (l, if oldProxy.isProxy ≠ 0 then oldProxy.builders else [])
  else do
    let voter ← dbDeref l.voters name
    pure (l, voter.builders)

/-- Gives the voter's stake to the new proxy and returns the builders it counts for now. -/
def joinNewProxy (l : Ledger) (vp : Types.VoteBuilder) (staked : ℕ) :
    Except Fault (Ledger × List AccountName) :=
  if vp.proxy ≠ 0 then do
    fcAssert ((l.voters.find? vp.proxy).any (·.isProxy ≠ 0)) "proxy not found"
    let l := { l with voters := l.voters.modify vp.proxy fun p =>
      { p with proxiedVotes := u128 (p.proxiedVotes + staked) } }
    let newProxy ← dbDeref l.voters vp.proxy
    pure (l, newProxy.builders)
  else pure (l, vp.builders)

/-- The checks on the message alone, and the recipient a proxy is. -/
def checkVote (ctx : MessageContext) (vp : Types.VoteBuilder) (notified : List AccountName) :
    Except Fault (List AccountName) :=
  if vp.proxy ≠ 0 then do
    fcAssert vp.builders.isEmpty "cannot vote for builders and proxy at same time"
    pure (requireRecipient ctx vp.proxy notified)
  else do
    fcAssert (vp.builders.length ≤ 30) "attempt to vote for too many builders"
    fcAssert (vp.builders.IsChain (· < ·)) "builder votes must be unique and sorted"
    pure notified

/-- Moves the voter's votes from the builders they counted for to those they count for now, and
saves the choice in the voter's row. -/
def moveVotes (ctx : MessageContext) (l : Ledger) (vp : Types.VoteBuilder) (voter : VoterInfo) :
    Except Fault Ledger := do
  let (l, oldBuilders) ← leaveOldProxy l vp.voter voter
  let (l, newBuilders) ← joinNewProxy l vp voter.staked
  let voter ← dbDeref l.voters vp.voter
  let votes := if voter.isProxy ≠ 0 then u128 (voter.staked + voter.proxiedVotes) else voter.staked
  let l ← tally (fun v => subU128 v votes) "never existed builder" l
    (setDifference oldBuilders newBuilders)
  let l ← elect (vp.proxy = 0) votes l
    (if oldBuilders.isEmpty then newBuilders else setDifference newBuilders oldBuilders)
  pure { l with voters := l.voters.modify vp.voter fun v =>
    { v with proxy := vp.proxy, lastUpdate := ctx.currentTime, builders := vp.builders } }

def voteBuilder (codec : Codec) (ctx : MessageContext) (s : HandlerState) :
    Except Fault HandlerState := do
  let vp ← unpackAs (codec.votebuilder ctx.msg.data)
  let notified ← checkVote ctx vp s.notified
  fcAssert ((s.ledger.voters.find? vp.voter).any fun v =>
    0 < v.staked || (v.isProxy ≠ 0 && 0 < v.proxiedVotes)) "no stake to vote"
  let voter ← dbDeref s.ledger.voters vp.voter
  fcAssert (voter.isProxy = 0 || vp.proxy = 0)
    "account registered as a proxy is not allowed to use a proxy"
  -- nothing changes where the voter keeps its proxy
  if voter.proxy ≠ 0 ∧ voter.proxy = vp.proxy then pure { s with notified := notified }
  else do
    let l ← moveVotes ctx s.ledger vp voter
    pure ⟨l, notified⟩

def setBuilderKey (l : Ledger) (builder : AccountName) (key : PublicKey) :
    Except Fault (Table AccountName BuilderInfoObject) :=
  match l.builders.find? builder with
  | some _ => pure (l.builders.modify builder fun b => { b with builderKey := key })
  | none => dbCreate l.builders builder { totalVotes := 0, builderKey := key }

def regBuilder (codec : Codec) (ctx : MessageContext) (s : HandlerState) :
    Except Fault HandlerState := do
  let reg ← unpackAs (codec.regbuilder ctx.msg.data)
  let builders ← setBuilderKey s.ledger reg.builder reg.builderKey
  pure { s with ledger := { s.ledger with builders := builders } }

def unregBuilder (codec : Codec) (ctx : MessageContext) (s : HandlerState) :
    Except Fault HandlerState := do
  let builder ← unpackAs (codec.unregbuilder ctx.msg.data)
  fcAssert (s.ledger.builders.find? builder).isSome "builder not found"
  pure { s with ledger := { s.ledger with
    builders := s.ledger.builders.modify builder fun b => { b with builderKey := 0 } } }

/-- The votes a proxy stands for are given to its builders, or taken back. -/
def tallyProxied (f : ℕ → ℕ → ℕ) (l : Ledger) (proxy : VoterInfo) : Except Fault Ledger :=
  if 0 < proxy.proxiedVotes then
    tally (fun v => f v proxy.proxiedVotes) "never existed builder" l proxy.builders
  else pure l

def regProxy (codec : Codec) (ctx : MessageContext) (s : HandlerState) :
    Except Fault HandlerState := do
  let name ← unpackAs (codec.regproxy ctx.msg.data)
  match s.ledger.voters.find? name with
  | some proxy => do
    fcAssert (proxy.isProxy = 0) "account is already a proxy"
    fcAssert (proxy.proxy = 0) "account that uses a proxy is not allowed to become a proxy"
    let l := { s.ledger with voters := s.ledger.voters.modify name fun v =>
      { v with isProxy := 1, lastUpdate := ctx.currentTime } }
    let l ← tallyProxied (fun v n => u128 (v + n)) l proxy
    pure { s with ledger := l }
  | none => do
    let voters ← dbCreate s.ledger.voters name { isProxy := 1, lastUpdate := ctx.currentTime }
    pure { s with ledger := { s.ledger with voters := voters } }

def unregProxy (codec : Codec) (ctx : MessageContext) (s : HandlerState) :
    Except Fault HandlerState := do
  let name ← unpackAs (codec.unregproxy ctx.msg.data)
  fcAssert (s.ledger.voters.find? name).isSome "proxy not found"
  let proxy ← dbDeref s.ledger.voters name
  fcAssert (proxy.isProxy = 1) "account is not a proxy"
  let l := { s.ledger with voters := s.ledger.voters.modify name fun v =>
    { v with isProxy := 0, lastUpdate := ctx.currentTime } }
  let l ← tallyProxied subU128 l proxy
  pure { s with ledger := l }

/-- The order of the index by votes: most votes first, and of two with as many the later row. -/
def byVotesLe (a b : (AccountName × BuilderInfoObject) × ℕ) : Prop :=
  b.1.2.totalVotes < a.1.2.totalVotes ∨ b.1.2.totalVotes = a.1.2.totalVotes ∧ b.2 ≤ a.2

instance : DecidableRel byVotesLe := fun a b => by unfold byVotesLe; infer_instance

/-- The builders of the next round, in the order of their names: those with a key and the most
votes, or the contract account alone. -/
def nextRound (xmaxBuildPublicKey : PublicKey) (l : Ledger) : List BuilderInfo :=
  let active := (l.builders.rows.zipIdx.insertionSort byVotesLe).filter (·.1.2.isActived)
  let round := (active.take blocksPerRound).map fun r => (⟨r.1.1, r.1.2.builderKey⟩ : BuilderInfo)
  if round.isEmpty then [⟨xmaxContractName, xmaxBuildPublicKey⟩]
  else round.insertionSort (·.builderName ≤ ·.builderName)

/-! ## What they change -/

/-- What holds of the rounds done so far, and holds after one more, holds of a whole loop. -/
theorem foldlM_tracks {α β ε : Type} {f : β → α → Except ε β} {P : List α → β → Prop}
    (step : ∀ {done b a b'}, f b a = .ok b' → P done b → P (done ++ [a]) b') :
    ∀ (done : List α) {xs : List α} {b b' : β},
      xs.foldlM f b = .ok b' → P done b → P (done ++ xs) b'
  | done, [], b, b', h, hb => by
    cases h
    rw [List.append_nil]
    exact hb
  | done, x :: xs, b, b', h, hb => by
    rw [List.foldlM_cons, bind_eq_ok] at h
    obtain ⟨b₁, h₁, h⟩ := h
    rw [List.append_cons]
    exact foldlM_tracks step _ h (step h₁ hb)

/-- What every round of a loop keeps, the loop keeps. -/
theorem foldlM_keeps {α β ε : Type} {f : β → α → Except ε β} {P : β → Prop}
    (step : ∀ {b a b'}, f b a = .ok b' → P b → P b') {xs : List α} {b b' : β}
    (h : xs.foldlM f b = .ok b') (hb : P b) : P b' :=
  foldlM_tracks (P := fun _ b => P b) step [] h hb

def voterOf (l : Ledger) (a : AccountName) : VoterInfo := (l.voters.find? a).getD {}

def staked (l : Ledger) (a : AccountName) : ℕ := (voterOf l a).staked

/-- What a voter chooses: its proxy, whether it is one itself, and its builders. -/
def choice (l : Ledger) (a : AccountName) : AccountName × ℕ × List AccountName :=
  ((voterOf l a).proxy, (voterOf l a).isProxy, (voterOf l a).builders)

def builderKey (l : Ledger) (a : AccountName) : PublicKey :=
  ((l.builders.find? a).map (·.builderKey)).getD 0

/-- Only voters and builders change, and no builder its key. -/
structure VotesOnly (l l' : Ledger) : Prop where
  rest : l' = { l with voters := l'.voters, builders := l'.builders }
  keys : ∀ a, builderKey l' a = builderKey l a

theorem VotesOnly.refl (l : Ledger) : VotesOnly l l := ⟨rfl, fun _ => rfl⟩

theorem VotesOnly.trans {l₁ l₂ l₃ : Ledger} (h : VotesOnly l₁ l₂) (h' : VotesOnly l₂ l₃) :
    VotesOnly l₁ l₃ :=
  ⟨by rw [h'.rest, h.rest], fun a => (h'.keys a).trans (h.keys a)⟩

theorem VotesOnly.of_voters (l : Ledger) (voters : Table AccountName VoterInfo) :
    VotesOnly l { l with voters := voters } :=
  ⟨rfl, fun _ => rfl⟩

theorem VotesOnly.of_votes (l : Ledger) (p : AccountName) (f : ℕ → ℕ) :
    VotesOnly l { l with
      builders := l.builders.modify p fun b => { b with totalVotes := f b.totalVotes } } := by
  refine ⟨rfl, fun a => ?_⟩
  simp only [builderKey, Table.find?_modify]
  cases l.builders.find? a with
  | none => rfl
  | some b => by_cases h : a = p <;> simp [h]

theorem tally_ok {f : ℕ → ℕ} {missing : String} {l l' : Ledger} {bs : List AccountName}
    (h : tally f missing l bs = .ok l') : VotesOnly l l' ∧ l'.voters = l.voters := by
  refine foldlM_keeps (P := fun m => VotesOnly l m ∧ m.voters = l.voters) ?_ h ⟨.refl l, rfl⟩
  rintro m p m' hm ⟨hv, hvoters⟩
  simp only [bind_eq_ok] at hm
  obtain ⟨-, -, hm⟩ := hm
  cases hm
  exact ⟨hv.trans (.of_votes m p f), hvoters⟩

theorem elect_ok {direct : Bool} {votes : ℕ} {l l' : Ledger} {bs : List AccountName}
    (h : elect direct votes l bs = .ok l') : VotesOnly l l' ∧ l'.voters = l.voters := by
  refine foldlM_keeps (P := fun m => VotesOnly l m ∧ m.voters = l.voters) ?_ h ⟨.refl l, rfl⟩
  rintro m p m' hm ⟨hv, hvoters⟩
  simp only [bind_eq_ok] at hm
  obtain ⟨-, -, -, -, -, -, hm⟩ := hm
  cases hm
  exact ⟨hv.trans (.of_votes m p (u128 <| · + votes)), hvoters⟩

theorem voterOf_congr {l l' : Ledger} (h : l'.voters = l.voters) (a : AccountName) :
    voterOf l' a = voterOf l a := by
  simp [voterOf, h]

theorem voterOf_modify {l : Ledger} {k : AccountName} {v : VoterInfo} (f : VoterInfo → VoterInfo)
    (h : l.voters.find? k = some v) (a : AccountName) :
    voterOf { l with voters := l.voters.modify k f } a
      = if a = k then f (voterOf l a) else voterOf l a := by
  simp only [voterOf, Table.find?_modify]
  by_cases ha : a = k
  · subst ha
    simp [h]
  · cases l.voters.find? a <;> simp [ha]

/-- The rows of proxies only change in the votes they stand for. -/
theorem voterOf_modify_proxied (l : Ledger) (k : AccountName) (f : ℕ → ℕ) (a : AccountName) :
    staked { l with voters := l.voters.modify k fun p =>
        { p with proxiedVotes := f p.proxiedVotes } } a = staked l a ∧
      choice { l with voters := l.voters.modify k fun p =>
        { p with proxiedVotes := f p.proxiedVotes } } a = choice l a := by
  simp only [staked, choice, voterOf, Table.find?_modify]
  cases l.voters.find? a with
  | none => exact ⟨rfl, rfl⟩
  | some v => by_cases ha : a = k <;> simp [ha]

theorem addStake_ok {ctx : MessageContext} {l : Ledger} {acnt : AccountName} {amount : ℕ}
    {voters : Table AccountName VoterInfo} (h : addStake ctx l acnt amount = .ok voters)
    (a : AccountName) :
    staked { l with voters := voters } a = staked l a + (if a = acnt then amount else 0) ∧
      choice { l with voters := voters } a = choice l a := by
  unfold addStake at h
  cases hrow : l.voters.find? acnt with
  | none =>
    simp only [hrow, dbCreate_eq_ok] at h
    obtain ⟨-, hfind⟩ := Table.create?_eq_some h
    by_cases ha : a = acnt <;> simp [staked, choice, voterOf, hfind, ha, hrow]
  | some v =>
    simp only [hrow] at h
    cases h
    by_cases ha : a = acnt <;> simp [staked, choice, voterOf_modify _ hrow, ha]

theorem addProxied_ok {l : Ledger} {acnt : AccountName} {amount : ℕ}
    {voters : Table AccountName VoterInfo} (h : addProxied l acnt amount = .ok voters)
    (a : AccountName) :
    staked { l with voters := voters } a = staked l a ∧
      choice { l with voters := voters } a = choice l a := by
  simp only [addProxied, bind_eq_ok] at h
  obtain ⟨voter, -, h⟩ := h
  split at h
  · simp only [bind_eq_ok] at h
    obtain ⟨-, -, h⟩ := h
    cases h
    exact voterOf_modify_proxied l _ (u128 <| · + amount) a
  · cases h
    exact ⟨rfl, rfl⟩

theorem increaseVotes_ok {ctx : MessageContext} {l l' : Ledger} {acnt : AccountName} {amount : ℕ}
    (h : increaseVotes ctx l acnt amount = .ok l') :
    VotesOnly l l' ∧ (∀ a, staked l' a = staked l a + if a = acnt then amount else 0) ∧
      ∀ a, choice l' a = choice l a := by
  simp only [increaseVotes, bind_eq_ok] at h
  obtain ⟨v₁, h₁, v₂, h₂, bs, -, h⟩ := h
  obtain ⟨hv, hsame⟩ := tally_ok h
  refine ⟨(VotesOnly.of_voters l v₂).trans hv, fun a => ?_, fun a => ?_⟩
  · rw [staked, voterOf_congr hsame]
    exact (addProxied_ok h₂ a).1.trans (addStake_ok h₁ a).1
  · rw [choice, voterOf_congr hsame]
    exact (addProxied_ok h₂ a).2.trans (addStake_ok h₁ a).2

theorem decreaseVotes_ok {ctx : MessageContext} {l l' : Ledger} {acnt : AccountName} {amount : ℕ}
    (h : decreaseVotes ctx l acnt amount = .ok l') :
    VotesOnly l l' ∧ (∀ a, a ≠ acnt → staked l' a = staked l a) ∧
      ∀ a, choice l' a = choice l a := by
  simp only [decreaseVotes, bind_eq_ok, dbDeref_eq_ok] at h
  obtain ⟨-, -, voter, hrow, h⟩ := h
  split at h
  · simp only [bind_eq_ok] at h
    obtain ⟨-, -, bs, -, h⟩ := h
    obtain ⟨hv, hsame⟩ := tally_ok h
    -- the proxy's row, where there is a proxy, changes after the voter's
    have hown : ∀ a, (a ≠ acnt → staked { l with voters := l.voters.modify acnt fun v =>
          { v with staked := v.staked - amount, lastUpdate := ctx.currentTime } } a = staked l a) ∧
        choice { l with voters := l.voters.modify acnt fun v =>
          { v with staked := v.staked - amount, lastUpdate := ctx.currentTime } } a = choice l a := by
      intro a
      by_cases ha : a = acnt <;> simp [staked, choice, voterOf_modify _ hrow, ha]
    by_cases hp : voter.proxy ≠ 0
    · rw [if_pos hp] at hv hsame
      refine ⟨(VotesOnly.of_voters l _).trans hv, fun a ha => ?_, fun a => ?_⟩
      · rw [staked, voterOf_congr hsame]
        exact (voterOf_modify_proxied _ _ (subU128 · amount) a).1.trans ((hown a).1 ha)
      · rw [choice, voterOf_congr hsame]
        exact (voterOf_modify_proxied _ _ (subU128 · amount) a).2.trans (hown a).2
    · rw [if_neg hp] at hv hsame
      refine ⟨(VotesOnly.of_voters l _).trans hv, fun a ha => ?_, fun a => ?_⟩
      · rw [staked, voterOf_congr hsame]
        exact (hown a).1 ha
      · rw [choice, voterOf_congr hsame]
        exact (hown a).2
  · cases h
    refine ⟨.of_voters l _, fun a ha => ?_, fun a => ?_⟩
    · simp [staked, voterOf_modify _ hrow, ha]
    · by_cases ha : a = acnt <;> simp [choice, voterOf_modify _ hrow, ha]

theorem leaveOldProxy_ok {l l' : Ledger} {name : AccountName} {voter : VoterInfo}
    {bs : List AccountName} (h : leaveOldProxy l name voter = .ok (l', bs)) :
    VotesOnly l l' ∧ ∀ a, staked l' a = staked l a ∧ choice l' a = choice l a := by
  unfold leaveOldProxy at h
  split at h
  · simp only [bind_eq_ok] at h
    obtain ⟨-, -, _, -, h⟩ := h
    cases h
    exact ⟨.of_voters l _, voterOf_modify_proxied l _ (subU128 · voter.staked)⟩
  · simp only [bind_eq_ok] at h
    obtain ⟨_, -, h⟩ := h
    cases h
    exact ⟨.refl l, fun _ => ⟨rfl, rfl⟩⟩

theorem joinNewProxy_ok {l l' : Ledger} {vp : Types.VoteBuilder} {n : ℕ} {bs : List AccountName}
    (h : joinNewProxy l vp n = .ok (l', bs)) :
    VotesOnly l l' ∧ ∀ a, staked l' a = staked l a ∧ choice l' a = choice l a := by
  unfold joinNewProxy at h
  split at h
  · simp only [bind_eq_ok] at h
    obtain ⟨-, -, _, -, h⟩ := h
    cases h
    exact ⟨.of_voters l _, voterOf_modify_proxied l _ (u128 <| · + n)⟩
  · cases h
    exact ⟨.refl l, fun _ => ⟨rfl, rfl⟩⟩

/-- The voter's row takes the choice of the message; no other row changes but in the votes it
stands for. -/
theorem moveVotes_ok {ctx : MessageContext} {l l' : Ledger} {vp : Types.VoteBuilder}
    {voter : VoterInfo} (h : moveVotes ctx l vp voter = .ok l') :
    VotesOnly l l' ∧ (∀ a, staked l' a = staked l a) ∧
      ∀ a, choice l' a
        = if a = vp.voter then (vp.proxy, (choice l a).2.1, vp.builders) else choice l a := by
  simp only [moveVotes, bind_eq_ok, Prod.exists, dbDeref_eq_ok] at h
  obtain ⟨l₁, old, h₁, l₂, new, h₂, v, hv, l₃, h₃, l₄, h₄, h⟩ := h
  cases h
  obtain ⟨ho₁, hs₁⟩ := leaveOldProxy_ok h₁
  obtain ⟨ho₂, hs₂⟩ := joinNewProxy_ok h₂
  obtain ⟨ho₃, hs₃⟩ := tally_ok h₃
  obtain ⟨ho₄, hs₄⟩ := elect_ok h₄
  have hrow : l₄.voters.find? vp.voter = some v := by rw [hs₄, hs₃, hv]
  have hsame : ∀ a, staked l₄ a = staked l a ∧ choice l₄ a = choice l a := fun a => by
    rw [staked, choice, voterOf_congr (hs₄.trans hs₃)]
    exact ⟨(hs₂ a).1.trans (hs₁ a).1, (hs₂ a).2.trans (hs₁ a).2⟩
  refine ⟨(((ho₁.trans ho₂).trans ho₃).trans ho₄).trans (.of_voters l₄ _), fun a => ?_, fun a => ?_⟩
  · rw [← (hsame a).1]
    by_cases ha : a = vp.voter <;> simp [staked, voterOf_modify _ hrow, ha]
  · rw [← (hsame a).2]
    by_cases ha : a = vp.voter <;> simp [choice, voterOf_modify _ hrow, ha]

/-- A vote that goes through changes nothing where the voter keeps its proxy, and otherwise moves
the votes. -/
theorem voteBuilder_ok {codec : Codec} {ctx : MessageContext} {s r : HandlerState}
    (h : voteBuilder codec ctx s = .ok r) :
    ∃ vp, codec.votebuilder ctx.msg.data = some vp ∧
      (((voterOf s.ledger vp.voter).proxy = vp.proxy ∧ vp.proxy ≠ 0 ∧ r.ledger = s.ledger) ∨
        ¬((voterOf s.ledger vp.voter).proxy = vp.proxy ∧ vp.proxy ≠ 0) ∧
          ∃ voter, moveVotes ctx s.ledger vp voter = .ok r.ledger) := by
  simp only [voteBuilder, bind_eq_ok, unpackAs_eq_ok, dbDeref_eq_ok] at h
  obtain ⟨vp, hvp, N, -, -, -, voter, hvoter, -, -, h⟩ := h
  have hrow : voterOf s.ledger vp.voter = voter := by simp [voterOf, hvoter]
  refine ⟨vp, hvp, ?_⟩
  rw [hrow]
  split at h
  · rename_i hkeep
    cases h
    exact .inl ⟨hkeep.2, hkeep.2 ▸ hkeep.1, rfl⟩
  · rename_i hkeep
    simp only [bind_eq_ok] at h
    obtain ⟨l, hl, h⟩ := h
    cases h
    exact .inr ⟨fun hk => hkeep ⟨hk.1 ▸ hk.2, hk.1⟩, voter, hl⟩

theorem regBuilder_ok {codec : Codec} {ctx : MessageContext} {s r : HandlerState}
    (h : regBuilder codec ctx s = .ok r) :
    ∃ reg, codec.regbuilder ctx.msg.data = some reg ∧ r.notified = s.notified ∧
      r.ledger = { s.ledger with builders := r.ledger.builders } ∧
      ∀ a, builderKey r.ledger a
        = if a = reg.builder then reg.builderKey else builderKey s.ledger a := by
  simp only [regBuilder, bind_eq_ok, unpackAs_eq_ok] at h
  obtain ⟨reg, hreg, builders, hb, h⟩ := h
  cases h
  refine ⟨reg, hreg, rfl, rfl, fun a => ?_⟩
  unfold setBuilderKey at hb
  split at hb
  · rename_i b hrow
    cases hb
    simp only [builderKey, Table.find?_modify]
    by_cases ha : a = reg.builder
    · simp [ha, hrow]
    · cases s.ledger.builders.find? a <;> simp [ha]
  · obtain ⟨-, hfind⟩ := Table.create?_eq_some (dbCreate_eq_ok.1 hb)
    by_cases ha : a = reg.builder <;> simp [builderKey, hfind, ha]

theorem unregBuilder_ok {codec : Codec} {ctx : MessageContext} {s r : HandlerState}
    (h : unregBuilder codec ctx s = .ok r) :
    ∃ b, codec.unregbuilder ctx.msg.data = some b ∧ r.notified = s.notified ∧
      r.ledger = { s.ledger with builders := r.ledger.builders } ∧
      ∀ a, builderKey r.ledger a = if a = b then 0 else builderKey s.ledger a := by
  simp only [unregBuilder, bind_eq_ok, unpackAs_eq_ok] at h
  obtain ⟨b, hb, -, -, h⟩ := h
  cases h
  refine ⟨b, hb, rfl, rfl, fun a => ?_⟩
  simp only [builderKey, Table.find?_modify]
  by_cases ha : a = b <;> cases s.ledger.builders.find? a <;> simp [ha]

theorem tallyProxied_ok {f : ℕ → ℕ → ℕ} {l l' : Ledger} {proxy : VoterInfo}
    (h : tallyProxied f l proxy = .ok l') : VotesOnly l l' ∧ l'.voters = l.voters := by
  unfold tallyProxied at h
  split at h
  · exact tally_ok h
  · cases h
    exact ⟨.refl l, rfl⟩

/-- An account that becomes a proxy was none before. -/
theorem regProxy_ok {codec : Codec} {ctx : MessageContext} {s r : HandlerState}
    (h : regProxy codec ctx s = .ok r) :
    ∃ name, codec.regproxy ctx.msg.data = some name ∧ r.notified = s.notified ∧
      VotesOnly s.ledger r.ledger ∧ (∀ a, staked r.ledger a = staked s.ledger a) ∧
      (∀ a, a ≠ name → choice r.ledger a = choice s.ledger a) ∧
      (voterOf s.ledger name).isProxy = 0 ∧ (voterOf r.ledger name).isProxy = 1 := by
  simp only [regProxy, bind_eq_ok, unpackAs_eq_ok] at h
  obtain ⟨name, hname, h⟩ := h
  refine ⟨name, hname, ?_⟩
  split at h
  · rename_i proxy hrow
    simp only [bind_eq_ok, fcAssert_eq_ok, decide_eq_true_eq] at h
    obtain ⟨-, hzero, -, -, l, hl, h⟩ := h
    cases h
    obtain ⟨hv, hsame⟩ := tallyProxied_ok hl
    refine ⟨rfl, (VotesOnly.of_voters _ _).trans hv, fun a => ?_, fun a ha => ?_, ?_, ?_⟩
    · rw [staked, voterOf_congr hsame, voterOf_modify _ hrow]
      split <;> rfl
    · rw [choice, voterOf_congr hsame, voterOf_modify _ hrow, if_neg ha]
      rfl
    · simp [voterOf, hrow, hzero]
    · rw [voterOf_congr hsame, voterOf_modify _ hrow, if_pos rfl]
  · rename_i hrow
    simp only [bind_eq_ok, dbCreate_eq_ok] at h
    obtain ⟨voters, hc, h⟩ := h
    cases h
    obtain ⟨-, hfind⟩ := Table.create?_eq_some hc
    refine ⟨rfl, .of_voters _ _, fun a => ?_, fun a ha => ?_, ?_, ?_⟩
    · by_cases ha : a = name <;> simp [staked, voterOf, hfind, ha, hrow]
    · simp [choice, voterOf, hfind, ha]
    · simp [voterOf, hrow]
    · simp [voterOf, hfind]

theorem unregProxy_ok {codec : Codec} {ctx : MessageContext} {s r : HandlerState}
    (h : unregProxy codec ctx s = .ok r) :
    ∃ name, codec.unregproxy ctx.msg.data = some name ∧ r.notified = s.notified ∧
      VotesOnly s.ledger r.ledger ∧ (∀ a, staked r.ledger a = staked s.ledger a) ∧
      (∀ a, a ≠ name → choice r.ledger a = choice s.ledger a) ∧
      (voterOf s.ledger name).isProxy = 1 ∧ (voterOf r.ledger name).isProxy = 0 := by
  simp only [unregProxy, bind_eq_ok, unpackAs_eq_ok, dbDeref_eq_ok, fcAssert_eq_ok,
    decide_eq_true_eq] at h
  obtain ⟨name, hname, -, -, proxy, hrow, -, hone, l, hl, h⟩ := h
  cases h
  obtain ⟨hv, hsame⟩ := tallyProxied_ok hl
  refine ⟨name, hname, rfl, (VotesOnly.of_voters _ _).trans hv, fun a => ?_, fun a ha => ?_, ?_, ?_⟩
  · rw [staked, voterOf_congr hsame, voterOf_modify _ hrow]
    split <;> rfl
  · rw [choice, voterOf_congr hsame, voterOf_modify _ hrow, if_neg ha]
    rfl
  · simp [voterOf, hrow, hone]
  · rw [voterOf_congr hsame, voterOf_modify _ hrow, if_pos rfl]

end XmaxChain
