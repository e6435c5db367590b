import XmaxChain.Transaction
import XmaxChain.VoteTally

/-!
# The native tokens

Tokens are only moved: between accounts, from an account to a stake, and from a stake to what is
unlocked of it. So all of them together stay what genesis created, every amount is at most that,
and the 64 bits of `share_type` are never left. The amounts compared are of different types, but
an amount that is not negative and below `2 ^ 63` compares alike as any of them.
-/

namespace XmaxChain

def nativeTotal (l : Ledger) : ℕ :=
  (l.tokens.sumRows fun _ n => n) + l.resources.sumRows fun _ r => r.lockedToken + r.unlockedToken

def NoneUnstaking (V : Table AccountName VoterInfo) : Prop :=
  ∀ a v, V.find? a = some v → v.unstaking = 0

/-- No stake is more than what is locked for it, and none is being given back. -/
structure StakesOk (l : Ledger) : Prop where
  staked : ∀ a, staked l a ≤ lockedToken l a
  unstaking : NoneUnstaking l.voters

/-- The tokens stay as many, and the stakes are backed as before. -/
structure Conserves (l l' : Ledger) : Prop where
  total : nativeTotal l' = nativeTotal l
  stakes : StakesOk l → StakesOk l'

section Tables

variable {l l' l₁ l₂ : Ledger} {a k : AccountName}

theorem Conserves.refl (l : Ledger) : Conserves l l := ⟨rfl, id⟩

theorem Conserves.trans (h : Conserves l l₁) (h' : Conserves l₁ l₂) : Conserves l l₂ :=
  ⟨h'.total.trans h.total, fun hs => h'.stakes (h.stakes hs)⟩

/-- The other tables hold no tokens. -/
theorem Conserves.of_eq (htokens : l'.tokens = l.tokens) (hres : l'.resources = l.resources)
    (hvoters : l'.voters = l.voters) : Conserves l l' := by
  refine ⟨by simp [nativeTotal, htokens, hres], fun hs => ⟨fun a => ?_, ?_⟩⟩
  · rw [XmaxChain.staked, voterOf_congr hvoters, lockedToken, hres]
    exact hs.staked a
  · rw [hvoters]
    exact hs.unstaking

/-- Tokens that go from one account to another, which may be the same. -/
theorem sumRows_move {t : Table AccountName ℕ} {source dest : AccountName} {b d n : ℕ}
    (hb : t.find? source = some b) (hd : t.find? dest = some d) (hn : n ≤ b) :
    ((t.modify source (· - n)).modify dest (· + n)).sumRows (fun _ n => n)
      = t.sumRows fun _ n => n := by
  have h₁ := Table.sumRows_modify (· - n) (fun _ n => n) hb
  obtain ⟨d', hd'⟩ : ∃ d', (t.modify source (· - n)).find? dest = some d' := by
    simp [hd]
  have h₂ := Table.sumRows_modify (· + n) (fun _ n => n) hd'
  omega

theorem Conserves.of_move {source dest : AccountName} {b d n : ℕ}
    (hb : l.tokens.find? source = some b) (hd : l.tokens.find? dest = some d) (hn : n ≤ b) :
    Conserves l { l with tokens := (l.tokens.modify source (· - n)).modify dest (· + n) } := by
  refine ⟨?_, fun hs => ⟨hs.staked, hs.unstaking⟩⟩
  simp only [nativeTotal, sumRows_move hb hd hn]

end Tables

/-! ## What no vote gives back -/

section Unstaking

variable {l l' : Ledger} {ctx : MessageContext}

theorem NoneUnstaking.modify {V : Table AccountName VoterInfo} (h : NoneUnstaking V)
    (k : AccountName) {f : VoterInfo → VoterInfo} (hf : ∀ v, v.unstaking = 0 → (f v).unstaking = 0) :
    NoneUnstaking (V.modify k f) := by
  intro a v ha
  rw [Table.find?_modify, Option.map_eq_some_iff] at ha
  obtain ⟨w, hw, rfl⟩ := ha
  split_ifs
  · exact hf w (h a w hw)
  · exact h a w hw

theorem NoneUnstaking.create {V V' : Table AccountName VoterInfo} (h : NoneUnstaking V)
    {k : AccountName} {v : VoterInfo} (hv : v.unstaking = 0) (hc : V.create? k v = some V') :
    NoneUnstaking V' := by
  intro a w ha
  rw [(Table.create?_eq_some hc).2] at ha
  split_ifs at ha
  · cases ha
    exact hv
  · exact h a w ha

theorem NoneUnstaking.increaseVotes {acnt : AccountName} {n : ℕ}
    (hcall : XmaxChain.increaseVotes ctx l acnt n = .ok l') (h : NoneUnstaking l.voters) :
    NoneUnstaking l'.voters := by
  simp only [XmaxChain.increaseVotes, bind_eq_ok] at hcall
  obtain ⟨V₁, h₁, V₂, h₂, bs, -, htally⟩ := hcall
  have hV₁ : NoneUnstaking V₁ := by
    unfold addStake at h₁
    split at h₁
    · exact h.create rfl (dbCreate_eq_ok.1 h₁)
    · cases h₁
      exact h.modify _ fun _ hv => hv
  have hV₂ : NoneUnstaking V₂ := by
    simp only [addProxied, bind_eq_ok] at h₂
    obtain ⟨v, -, h₂⟩ := h₂
    split_ifs at h₂
    · simp only [bind_eq_ok] at h₂
      obtain ⟨-, -, h₂⟩ := h₂
      cases h₂
      exact hV₁.modify _ fun _ hv => hv
    · cases h₂
      exact hV₁
  rw [(tally_ok htally).2]
  exact hV₂

theorem NoneUnstaking.decreaseVotes {acnt : AccountName} {n : ℕ}
    (hcall : XmaxChain.decreaseVotes ctx l acnt n = .ok l') (h : NoneUnstaking l.voters) :
    NoneUnstaking l'.voters := by
  simp only [XmaxChain.decreaseVotes, bind_eq_ok] at hcall
  obtain ⟨-, -, v, -, hcall⟩ := hcall
  split_ifs at hcall with hn hp
  · simp only [bind_eq_ok] at hcall
    obtain ⟨-, -, bs, -, htally⟩ := hcall
    rw [(tally_ok htally).2]
    refine NoneUnstaking.modify (h.modify _ ?_) _ ?_ <;> exact fun _ hv => hv
  · simp only [bind_eq_ok] at hcall
    obtain ⟨-, -, bs, -, htally⟩ := hcall
    rw [(tally_ok htally).2]
    exact h.modify _ fun _ hv => hv
  · cases hcall
    exact h.modify _ fun _ _ => rfl

theorem NoneUnstaking.moveVotes {vp : Types.VoteBuilder} {v : VoterInfo}
    (hcall : XmaxChain.moveVotes ctx l vp v = .ok l') (h : NoneUnstaking l.voters) :
    NoneUnstaking l'.voters := by
  simp only [XmaxChain.moveVotes, bind_eq_ok, Prod.exists] at hcall
  obtain ⟨l₁, old, h₁, l₂, new, h₂, v', -, l₃, h₃, l₄, h₄, hcall⟩ := hcall
  cases hcall
  have hl₁ : NoneUnstaking l₁.voters := by
    unfold leaveOldProxy at h₁
    split_ifs at h₁ <;> simp only [bind_eq_ok] at h₁
    · obtain ⟨-, -, _, -, h₁⟩ := h₁
      cases h₁
      exact h.modify _ fun _ hv => hv
    · obtain ⟨_, -, h₁⟩ := h₁
      cases h₁
      exact h
  have hl₂ : NoneUnstaking l₂.voters := by
    unfold joinNewProxy at h₂
    split_ifs at h₂
    · simp only [bind_eq_ok] at h₂
      obtain ⟨-, -, _, -, h₂⟩ := h₂
      cases h₂
      exact hl₁.modify _ fun _ hv => hv
    · cases h₂
      exact hl₁
  have hl₄ : NoneUnstaking l₄.voters := by
    rw [(elect_ok h₄).2, (tally_ok h₃).2]
    exact hl₂
  exact hl₄.modify _ fun _ hv => hv

theorem NoneUnstaking.regProxy {codec : Codec} {s r : HandlerState}
    (hcall : XmaxChain.regProxy codec ctx s = .ok r) (h : NoneUnstaking s.ledger.voters) :
    NoneUnstaking r.ledger.voters := by
  simp only [XmaxChain.regProxy, bind_eq_ok] at hcall
  obtain ⟨name, -, hcall⟩ := hcall
  split at hcall <;> simp only [bind_eq_ok] at hcall
  · obtain ⟨-, -, -, -, l, hl, hcall⟩ := hcall
    cases hcall
    dsimp only
    rw [(tallyProxied_ok hl).2]
    exact h.modify _ fun _ hv => hv
  · obtain ⟨V, hV, hcall⟩ := hcall
    cases hcall
    exact h.create rfl (dbCreate_eq_ok.1 hV)

theorem NoneUnstaking.unregProxy {codec : Codec} {s r : HandlerState}
    (hcall : XmaxChain.unregProxy codec ctx s = .ok r) (h : NoneUnstaking s.ledger.voters) :
    NoneUnstaking r.ledger.voters := by
  simp only [XmaxChain.unregProxy, bind_eq_ok] at hcall
  obtain ⟨name, -, -, -, v, -, -, -, l, hl, hcall⟩ := hcall
  cases hcall
  dsimp only
  rw [(tallyProxied_ok hl).2]
  exact h.modify _ fun _ hv => hv

/-- The stake of the account itself, where nothing is being given back. -/
theorem decreaseVotes_staked {acnt : AccountName} {n : ℕ}
    (hcall : decreaseVotes ctx l acnt n = .ok l') (h : NoneUnstaking l.voters) :
    n ≤ staked l acnt ∧ staked l' acnt = staked l acnt - n := by
  simp only [decreaseVotes, bind_eq_ok, dbDeref_eq_ok] at hcall
  obtain ⟨-, -, v, hrow, hcall⟩ := hcall
  have hv : staked l acnt = v.staked := by simp [staked, voterOf, hrow]
  rw [hv]
  split_ifs at hcall with hn hp
  · simp only [bind_eq_ok, fcAssert_eq_ok, decide_eq_true_eq] at hcall
    obtain ⟨-, hle, bs, -, htally⟩ := hcall
    refine ⟨hle, ?_⟩
    rw [staked, voterOf_congr (tally_ok htally).2]
    simp only [voterOf, Table.find?_modify, hrow, Option.map_some, Option.getD_some, if_true]
    split_ifs <;> rfl
  · simp only [bind_eq_ok, fcAssert_eq_ok, decide_eq_true_eq] at hcall
    obtain ⟨-, hle, bs, -, htally⟩ := hcall
    refine ⟨hle, ?_⟩
    rw [staked, voterOf_congr (tally_ok htally).2, voterOf_modify _ hrow, if_pos rfl]
    exact congrArg (· - n) hv
  · cases hcall
    rw [staked, voterOf_modify _ hrow, if_pos rfl]
    have hzero := h acnt v hrow
    simp only [voterOf, hrow, Option.getD_some, hzero]
    omega

end Unstaking

/-! ## The handlers -/

section Handlers

variable {env : Env} {ctx : MessageContext} {s r : HandlerState} {l l' : Ledger}

/-- Votes move no tokens. -/
theorem Conserves.of_votes (h : VotesOnly l l') (hstaked : ∀ a, staked l' a = staked l a)
    (hnone : NoneUnstaking l.voters → NoneUnstaking l'.voters) : Conserves l l' := by
  have hrest := h.rest
  refine ⟨?_, fun hs => ⟨fun a => ?_, hnone hs.unstaking⟩⟩
  · rw [hrest]
    rfl
  · rw [hstaked a, hrest]
    exact hs.staked a

theorem addaccountTokens_conserves {create : Types.AddAccount}
    (h : addaccountTokens ctx create l = .ok l') : Conserves l l' := by
  simp only [addaccountTokens, xmaxNewAccount, bind_eq_ok, dbGet_eq_ok, dbCreate_eq_ok, fcAssert_eq_ok,
    decide_eq_true_eq] at h
  obtain ⟨-, -, -, -, -, hpos, l₁, ⟨accounts, -, h₁⟩, b, hb, -, hle, tokens, hc, h⟩ := h
  cases h₁
  cases h
  refine ⟨?_, fun hs => ⟨hs.staked, hs.unstaking⟩⟩
  have hmod := Table.sumRows_modify (· - create.deposit.toNat) (fun _ n => n) hb
  have hnew := Table.sumRows_create (fun _ n => n) hc
  simp only [nativeTotal] at hmod hnew ⊢
  omega

theorem xmaxSystemTransfer_conserves (h : xmaxSystemTransfer env ctx s = .ok r) :
    Conserves s.ledger r.ledger := by
  obtain ⟨t, b, -, -, hb, hle, ⟨d, hd⟩, rfl⟩ := xmaxSystemTransfer_ok h
  exact .of_move hb hd hle

theorem xmaxSystemLock_conserves (h : xmaxSystemLock env ctx s = .ok r) :
    Conserves s.ledger r.ledger := by
  obtain ⟨t, b, -, hpos, -, hb, hle, ⟨res, hres⟩, hvotes, -⟩ := xmaxSystemLock_ok h
  obtain ⟨honly, hstake, -⟩ := increaseVotes_ok hvotes
  have hrest := honly.rest
  have htokens := Table.sumRows_modify (· - t.amount.toNat) (fun _ n => n) hb
  have hlocked := Table.sumRows_modify
    (fun r : ResourceToken => { r with lockedToken := r.lockedToken + t.amount.toNat })
    (fun _ r => r.lockedToken + r.unlockedToken) hres
  refine ⟨?_, fun hs => ⟨fun a => ?_, hs.unstaking.increaseVotes hvotes⟩⟩
  · rw [hrest]
    simp only [nativeTotal] at htokens hlocked ⊢
    omega
  · have hbacked := hs.staked a
    rw [hstake, hrest]
    simp only [lockedToken, Table.find?_modify, staked, voterOf] at hbacked ⊢
    by_cases ha : a = t.dest
    · subst ha
      simp only [hres, Option.map_some, Option.getD_some, if_true] at hbacked ⊢
      omega
    · simpa [ha] using hbacked

theorem xmaxSystemUnlock_conserves (h : xmaxSystemUnlock env ctx s = .ok r) :
    Conserves s.ledger r.ledger := by
  obtain ⟨u, res, -, -, hpos, hres, hle, hvotes, -⟩ := xmaxSystemUnlock_ok h
  obtain ⟨honly, hother, -⟩ := decreaseVotes_ok hvotes
  have hrest := honly.rest
  have hrow := Table.sumRows_modify
    (fun r : ResourceToken => { lockedToken := r.lockedToken - u.amount.toNat
                                unlockedToken := r.unlockedToken + u.amount.toNat
                                lastUnlockedTime := ctx.currentTime })
    (fun _ r => r.lockedToken + r.unlockedToken) hres
  refine ⟨?_, fun hs => ⟨fun a => ?_, hs.unstaking.decreaseVotes hvotes⟩⟩
  · rw [hrest]
    simp only [nativeTotal] at hrow ⊢
    omega
  · have hbacked := hs.staked a
    by_cases ha : a = u.account
    · subst ha
      obtain ⟨-, hself⟩ := decreaseVotes_staked hvotes hs.unstaking
      rw [hself, hrest]
      simp only [lockedToken, Table.find?_modify, staked, voterOf, hres, Option.map_some,
        Option.getD_some, if_true] at hbacked ⊢
      omega
    · rw [hother a ha, hrest]
      simpa [lockedToken, ha, staked, voterOf] using hbacked

theorem voteBuilder_conserves {codec : Codec} (h : voteBuilder codec ctx s = .ok r) :
    Conserves s.ledger r.ledger := by
  obtain ⟨vp, -, ⟨-, -, hsame⟩ | ⟨-, v, hmove⟩⟩ := voteBuilder_ok h
  · rw [hsame]
    exact .refl _
  · obtain ⟨honly, hstaked, -⟩ := moveVotes_ok hmove
    exact .of_votes honly hstaked (.moveVotes hmove)

theorem regProxy_conserves {codec : Codec} (h : regProxy codec ctx s = .ok r) :
    Conserves s.ledger r.ledger := by
  obtain ⟨-, -, -, honly, hstaked, -⟩ := regProxy_ok h
  exact .of_votes honly hstaked (.regProxy h)

theorem unregProxy_conserves {codec : Codec} (h : unregProxy codec ctx s = .ok r) :
    Conserves s.ledger r.ledger := by
  obtain ⟨-, -, -, honly, hstaked, -⟩ := unregProxy_ok h
  exact .of_votes honly hstaked (.unregProxy h)

theorem regBuilder_conserves {codec : Codec} (h : regBuilder codec ctx s = .ok r) :
    Conserves s.ledger r.ledger := by
  obtain ⟨-, -, -, hrest, -⟩ := regBuilder_ok h
  rw [hrest]
  exact .of_eq rfl rfl rfl

theorem unregBuilder_conserves {codec : Codec} (h : unregBuilder codec ctx s = .ok r) :
    Conserves s.ledger r.ledger := by
  obtain ⟨-, -, -, hrest, -⟩ := unregBuilder_ok h
  rw [hrest]
  exact .of_eq rfl rfl rfl

/-- Every handler only moves tokens. -/
theorem ledgerHandler_conserves {scope : NativeScope} {type : FuncName} {h : LedgerHandler}
    (found : ledgerHandler env scope type = some h) (ran : h ctx s = .ok r) :
    Conserves s.ledger r.ledger := by
  cases scope with
  | invalid => simp [ledgerHandler] at found
  | erc20 =>
    rw [erc20Handler_rest found ran]
    exact .of_eq rfl rfl rfl
  | erc721 =>
    rw [erc721Handler_rest found ran]
    exact .of_eq rfl rfl rfl
  | system =>
    cases type <;> simp only [ledgerHandler, reduceCtorEq] at found <;> cases found
    case system.addcontract.refl =>
      rw [xmaxSystemAddcontract_ok ran]
      exact .of_eq rfl rfl rfl
    case system.adderc20.refl =>
      obtain ⟨_, -, -, _, _, -, -, hr⟩ := xmaxSystemAdderc20_ok ran
      rw [hr]
      exact .of_eq rfl rfl rfl
    case system.adderc721.refl =>
      obtain ⟨_, -, _, -, hr⟩ := xmaxSystemAdderc721_ok ran
      rw [hr]
      exact .of_eq rfl rfl rfl
    case system.setcode.refl =>
      rw [xmaxSystemSetjscode_ok ran]
      exact .of_eq rfl rfl rfl
    case system.transfer.refl => exact xmaxSystemTransfer_conserves ran
    case system.lock.refl => exact xmaxSystemLock_conserves ran
    case system.unlock.refl => exact xmaxSystemUnlock_conserves ran
    case system.votebuilder.refl => exact voteBuilder_conserves ran
    case system.regbuilder.refl => exact regBuilder_conserves ran
    case system.unregbuilder.refl => exact unregBuilder_conserves ran
    case system.regproxy.refl => exact regProxy_conserves ran
    case system.unregproxy.refl => exact unregProxy_conserves ran

theorem RunOn.conserves {N N' : List AccountName} {n : Bool} (h : RunOn env ctx l N n l' N') :
    Conserves l l' := by
  have hsame : ∀ {l₁ l₂ : Ledger}, SameTables l₁ l₂ → Conserves l₁ l₂ := fun hs =>
    .of_eq hs.tokens hs.resources hs.voters
  cases h with
  | handler acc h r l' account found ran same => exact (ledgerHandler_conserves found ran).trans (hsame same)
  | addaccount acc create r l' account scope type data ran same =>
    exact (addaccountTokens_conserves ran).trans (hsame same)
  | silent acc l' account unknown same => exact hsame same

theorem transferGas_conserves {builder payer : AccountName} {gas : ℕ}
    (h : transferGas builder l payer gas = .ok l') : Conserves l l' := by
  unfold transferGas at h
  split_ifs at h
  · cases h
    exact .refl _
  · simp only [bind_eq_ok, dbGet_eq_ok, fcAssert_eq_ok, decide_eq_true_eq] at h
    obtain ⟨b, hb, d, hd, -, hle, h⟩ := h
    cases h
    exact .of_move hb hd hle

end Handlers

/-! ## Runs -/

/-- The ledgers that messages and gas transfers lead to: one run of a message, on the account it is
sent to or on one it notifies, or the gas of a transaction moved to a builder. What fails is undone,
back to a ledger that was reached before. -/
inductive NativeRun (env : Env) : Ledger → Prop
  | genesis {l : Ledger} (total : nativeTotal l = initialTokenSupply) (voters : l.voters = .empty) :
      NativeRun env l
  | message {l l' : Ledger} {ctx : MessageContext} {N N' : List AccountName} {isNotify : Bool}
      (before : NativeRun env l) (run : RunOn env ctx l N isNotify l' N') : NativeRun env l'
  | gas {l l' : Ledger} {builder payer : AccountName} {gasUsed : ℕ} (before : NativeRun env l)
      (moved : transferGas builder l payer gasUsed = .ok l') : NativeRun env l'

theorem NativeRun.ok {env : Env} {l : Ledger} (h : NativeRun env l) :
    nativeTotal l = initialTokenSupply ∧ StakesOk l := by
  induction h with
  | genesis total voters =>
    refine ⟨total, fun a => ?_, fun a v ha => ?_⟩
    · simp [staked, voterOf, voters]
    · simp [voters] at ha
  | message _ run ih => exact ⟨run.conserves.total.trans ih.1, run.conserves.stakes ih.2⟩
  | gas _ moved ih =>
    have hc := transferGas_conserves moved
    exact ⟨hc.total.trans ih.1, hc.stakes ih.2⟩

section Transactions

variable {env : Env} {trx : SignedTransaction} {t : ℕ}

theorem NativeRun.execMessages {msgs : List Message} {db : AuthDb} {gas : ℕ} {r : AuthDb × ℕ}
    (h : NativeRun env db.toLedger) (hexec : XmaxChain.execMessages env trx t msgs db gas = .ok r) :
    NativeRun env r.1.toLedger := by
  induction msgs generalizing db gas with
  | nil =>
    cases hexec
    exact h
  | cons msg msgs ih =>
    simp only [XmaxChain.execMessages, bind_eq_ok] at hexec
    obtain ⟨s, hs, hexec⟩ := hexec
    refine ih ?_ hexec
    exact execMessage_invariant hs (fun hrun => h.message hrun) fun hl hrun => hl.message hrun

/-- A transaction that goes through is some runs of its messages and one transfer of gas. -/
theorem NativeRun.applyTransactionBody {cfg : ChainConfig} {builder : AccountName} {check : Bool}
    {db : ChainDb} {r : ChainDb × ℕ} (h : NativeRun cfg.env db.toLedger)
    (happly : XmaxChain.applyTransactionBody cfg t builder check trx db = .ok r) :
    NativeRun cfg.env r.1.toLedger := by
  obtain ⟨-, -, auth, l, transactions, hexec, hgas, -, hr⟩ := applyTransactionBody_ok happly
  rw [hr]
  exact (h.execMessages hexec).gas hgas

end Transactions

/-! ## The arithmetic -/

/-- An addition or a subtraction of `share_type`. -/
inductive ShareOp
  | add (a b : ℕ)
  | sub (a b : ℕ)

/-- What it is applied to and what it gives are amounts that are not negative and fit. -/
def ShareOp.InRange : ShareOp → Prop
  | add a b => a + b < 2 ^ 63
  | sub a b => a < 2 ^ 63 ∧ b ≤ a

section Arithmetic

variable (env : Env) (ctx : MessageContext) (l : Ledger)

/-- What `transfer` and `transfer_gas` compute after their check. -/
def moveOps (source dest : AccountName) (amount : ℕ) : List ShareOp :=
  match l.tokens.find? source, (l.tokens.modify source (· - amount)).find? dest with
  | some b, some d => if amount ≤ b then [.sub b amount, .add d amount] else []
  | _, _ => []

def addaccountOps (create : Types.AddAccount) : List ShareOp :=
  match l.tokens.find? create.creator with
  | some b => if 0 < create.deposit ∧ create.deposit ≤ b then [.sub b create.deposit.toNat] else []
  | none => []

/-- With the stake that `increase_votes` adds to. -/
def lockOps (lock : Types.Lock) : List ShareOp :=
  match l.tokens.find? lock.source, l.resources.find? lock.dest with
  | some b, some r =>
    if 0 < lock.amount ∧ lock.amount ≤ b then
      [.sub b lock.amount.toNat, .add r.lockedToken lock.amount.toNat,
        .add (staked l lock.dest) lock.amount.toNat]
    else []
  | _, _ => []

/-- What `decrease_votes` computes: it takes from the stake, or adds what is being given back. -/
def decreaseOps (acnt : AccountName) (amount : ℕ) : List ShareOp :=
  match l.voters.find? acnt with
  | some v =>
    if amount = 0 then [.add v.staked v.unstaking]
    else if amount ≤ v.staked then [.sub v.staked amount]
    else []
  | none => []

def unlockOps (unlock : Types.Unlock) : List ShareOp :=
  match l.resources.find? unlock.account with
  | some r =>
    if 0 ≤ unlock.amount ∧ unlock.amount ≤ r.lockedToken then
      [.sub r.lockedToken unlock.amount.toNat, .add r.unlockedToken unlock.amount.toNat] ++
        decreaseOps l unlock.account unlock.amount.toNat
    else []
  | none => []

/-- The additions and subtractions of `share_type` that a run of a message makes. -/
def messageOps : List ShareOp :=
  match ctx.msg.type with
  | .addaccount => ((env.codec.addaccount ctx.msg.data).map (addaccountOps l)).getD []
  | .transfer =>
    ((env.codec.transfer ctx.msg.data).map fun t => moveOps l t.source t.dest t.amount).getD []
  | .lock => ((env.codec.lock ctx.msg.data).map (lockOps l)).getD []
  | .unlock => ((env.codec.unlock ctx.msg.data).map (unlockOps l)).getD []
  | _ => []

end Arithmetic

section InRange

variable {env : Env} {ctx : MessageContext} {l : Ledger} {op : ShareOp}

theorem le_nativeTotal {a : AccountName} {b : ℕ} (hb : l.tokens.find? a = some b) :
    b ≤ l.tokens.sumRows fun _ n => n :=
  Table.le_sumRows (fun _ n => n) hb

theorem resource_le {a : AccountName} {r : ResourceToken} (hr : l.resources.find? a = some r) :
    r.lockedToken + r.unlockedToken
      ≤ l.resources.sumRows fun _ r => r.lockedToken + r.unlockedToken :=
  Table.le_sumRows (fun _ (r : ResourceToken) => r.lockedToken + r.unlockedToken) hr

theorem moveOps_inRange (h : nativeTotal l < 2 ^ 63) {source dest : AccountName} {n : ℕ}
    (hop : op ∈ moveOps l source dest n) : op.InRange := by
  unfold moveOps at hop
  split at hop
  · rename_i b d hb hd
    split_ifs at hop with hle
    · have hsource := le_nativeTotal hb
      -- what is taken is no longer among the rest
      have hmod := Table.sumRows_modify (· - n) (fun _ n => n) hb
      have hdest := Table.le_sumRows (fun _ n => n) hd
      simp only [nativeTotal] at h
      rcases List.mem_cons.1 hop with rfl | hop
      · exact ⟨by omega, hle⟩
      · rw [List.mem_singleton.1 hop]
        simp only [ShareOp.InRange]
        omega
    · cases hop
  · cases hop

theorem addaccountOps_inRange (h : nativeTotal l < 2 ^ 63) {create : Types.AddAccount}
    (hop : op ∈ addaccountOps l create) : op.InRange := by
  unfold addaccountOps at hop
  split at hop
  · rename_i b hb
    split_ifs at hop with hle
    · have hsource := le_nativeTotal hb
      simp only [nativeTotal] at h
      rw [List.mem_singleton.1 hop]
      exact ⟨by omega, by omega⟩
    · cases hop
  · cases hop

theorem lockOps_inRange (h : nativeTotal l < 2 ^ 63) (hs : StakesOk l) {lock : Types.Lock}
    (hop : op ∈ lockOps l lock) : op.InRange := by
  unfold lockOps at hop
  split at hop
  · rename_i b r hb hr
    split_ifs at hop with hle
    · have hsource := le_nativeTotal hb
      have hdest := resource_le hr
      have hstaked := hs.staked lock.dest
      simp only [lockedToken, hr, Option.map_some, Option.getD_some] at hstaked
      simp only [nativeTotal] at h
      simp only [List.mem_cons, List.not_mem_nil, or_false] at hop
      rcases hop with rfl | rfl | rfl
      · exact ⟨by omega, by omega⟩
      · simp only [ShareOp.InRange]
        omega
      · simp only [ShareOp.InRange]
        omega
    · cases hop
  · cases hop

theorem decreaseOps_inRange (h : nativeTotal l < 2 ^ 63) (hs : StakesOk l) {acnt : AccountName}
    {r : ResourceToken} (hr : l.resources.find? acnt = some r) {n : ℕ}
    (hop : op ∈ decreaseOps l acnt n) : op.InRange := by
  unfold decreaseOps at hop
  split at hop
  · rename_i v hv
    have hrow := resource_le hr
    have hstaked := hs.staked acnt
    have hzero := hs.unstaking _ v hv
    simp only [nativeTotal] at h
    simp only [lockedToken, staked, voterOf, hr, hv, Option.map_some, Option.getD_some] at hstaked
    split_ifs at hop with hn hle
    · rw [List.mem_singleton.1 hop]
      simp only [ShareOp.InRange]
      omega
    · rw [List.mem_singleton.1 hop]
      exact ⟨by omega, hle⟩
    · cases hop
  · cases hop

theorem unlockOps_inRange (h : nativeTotal l < 2 ^ 63) (hs : StakesOk l) {unlock : Types.Unlock}
    (hop : op ∈ unlockOps l unlock) : op.InRange := by
  unfold unlockOps at hop
  split at hop
  · rename_i r hr
    split_ifs at hop with hle
    · have hrow := resource_le hr
      rcases List.mem_append.1 hop with hop | hop
      · simp only [nativeTotal] at h
        simp only [List.mem_cons, List.not_mem_nil, or_false] at hop
        rcases hop with rfl | rfl
        · exact ⟨by omega, by omega⟩
        · simp only [ShareOp.InRange]
          omega
      · exact decreaseOps_inRange h hs hr hop
    · cases hop
  · cases hop

theorem messageOps_inRange (h : nativeTotal l < 2 ^ 63) (hs : StakesOk l)
    (hop : op ∈ messageOps env ctx l) : op.InRange := by
  have hget : ∀ {α : Type} {o : Option α} {f : α → List ShareOp}, op ∈ (o.map f).getD [] →
      ∃ a, o = some a ∧ op ∈ f a := by
    intro α o f ho
    cases o with
    | none => cases ho
    | some a => exact ⟨a, rfl, ho⟩
  unfold messageOps at hop
  split at hop
  · obtain ⟨create, -, hop⟩ := hget hop
    exact addaccountOps_inRange h hop
  · obtain ⟨t, -, hop⟩ := hget hop
    exact moveOps_inRange h hop
  · obtain ⟨lock, -, hop⟩ := hget hop
    exact lockOps_inRange h hs hop
  · obtain ⟨unlock, -, hop⟩ := hget hop
    exact unlockOps_inRange h hs hop
  · cases hop

end InRange

/-- The tokens stay as many as genesis created, every amount fits in what they are together, and
no addition or subtraction that a message or a gas transfer makes leaves that range. -/
theorem tokens_conserved {env : Env} {l : Ledger} (h : NativeRun env l) :
    nativeTotal l = initialTokenSupply ∧
    (∀ a b, l.tokens.find? a = some b → b ≤ initialTokenSupply) ∧
    (∀ a r, l.resources.find? a = some r → r.lockedToken + r.unlockedToken ≤ initialTokenSupply) ∧
    (∀ ctx, ∀ op ∈ messageOps env ctx l, op.InRange) ∧
    ∀ payer builder gasUsed, ∀ op ∈ moveOps l payer builder gasUsed, op.InRange := by
  obtain ⟨htotal, hs⟩ := h.ok
  have hfits : nativeTotal l < 2 ^ 63 := by
    rw [htotal, initialTokenSupply]
    omega
  refine ⟨htotal, fun a b hb => ?_, fun a r hr => ?_, fun ctx op hop => messageOps_inRange hfits hs hop,
    fun payer builder gasUsed op hop => moveOps_inRange hfits hop⟩
  · have := le_nativeTotal hb
    simp only [nativeTotal] at htotal
    omega
  · have := resource_le hr
    simp only [nativeTotal] at htotal
    omega

/-- All tokens are account 1's, a system account; account 2 can hold and lock some. -/
def firstTokens : Ledger where
  accounts := .ofList [(1, { type := .system }), (2, { type := .personal })]
  tokens := .ofList [(1, initialTokenSupply), (2, 0)]
  resources := .ofList [(2, {})]

/-- The call that locks 7 tokens of account 1 for account 2. -/
def lockSeven : MessageContext where
  trx := { scope := [1, 2, xmaxContractName] }
  msg := ⟨1, .lock, [⟨1, xmaxActiveName⟩], [1, 2, 7]⟩
  code := 1
  currentTime := 0

theorem tokens_conserved_locked :
    ∃ r l, xmaxSystemLock fieldEnv lockSeven ⟨firstTokens, []⟩ = .ok r ∧
      transferGas 2 r.ledger 1 5 = .ok l ∧ lockedToken l 2 = 7 ∧ mainToken l 2 = 5 ∧
      nativeTotal l = initialTokenSupply := by
  obtain ⟨l, h, hlocked, hmain⟩ := exists_ok_of_eval
    (x := xmaxSystemLock fieldEnv lockSeven ⟨firstTokens, []⟩ >>= fun r => transferGas 2 r.ledger 1 5)
    (P := fun l => lockedToken l 2 = 7 ∧ mainToken l 2 = 5) (by decide)
  obtain ⟨r, hlock, hgas⟩ := bind_eq_ok.1 h
  have h₀ : NativeRun fieldEnv firstTokens := .genesis rfl rfl
  have hrun : RunOn fieldEnv lockSeven firstTokens [] false r.ledger r.notified :=
    .handler { type := .system } _ r r.ledger rfl rfl hlock (.refl _)
  have h₁ : NativeRun fieldEnv r.ledger := h₀.message hrun
  exact ⟨r, l, hlock, hgas, hlocked, hmain, (tokens_conserved (h₁.gas hgas)).1⟩

end XmaxChain
