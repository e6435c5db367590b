import XmaxChain.TrxContext

/-!
# Whose consent a message has

A message may only take from accounts that it lists as authorizing it. Most handlers check that
themselves, before they write: what they take they take from an account they have required. The
handlers of `transfer`, of the votes and of `revoke` check nothing.
-/

namespace XmaxChain

def erc20Balance (l : Ledger) (t : AssetSymbol) (a : AccountName) : ℤ :=
  (l.erc20Accounts.find? (t, a)).getD 0

/-- Nothing is taken from an account outside `A`: no tokens, no stake, no vote, no registration,
and no token of which it is the owner is revoked. -/
structure Consented (A : List AccountName) (l l' : Ledger) : Prop where
  main : ∀ a, mainToken l' a < mainToken l a → a ∈ A
  locked : ∀ a, lockedToken l' a < lockedToken l a → a ∈ A
  erc20 : ∀ t a, erc20Balance l' t a < erc20Balance l t a → a ∈ A
  erc721 : ∀ id a, l.erc721Accounts.find? id = some a → l'.erc721Accounts.find? id ≠ some a → a ∈ A
  stake : ∀ a, staked l' a < staked l a → a ∈ A
  vote : ∀ a, choice l' a ≠ choice l a → a ∈ A
  builder : ∀ a, builderKey l' a ≠ builderKey l a → a ∈ A
  revoke20 : ∀ t tok tok', l.erc20s.find? t = some tok → l'.erc20s.find? t = some tok' →
    tok.revoked = 0 → tok'.revoked ≠ 0 → tok.ownerName ∈ A
  revoke721 : ∀ t tok tok', l.erc721s.find? t = some tok → l'.erc721s.find? t = some tok' →
    tok.revoked = 0 → tok'.revoked ≠ 0 → tok.ownerName ∈ A

/-- With consent, and every token kept with its owner. -/
structure Fine (A : List AccountName) (l l' : Ledger) : Prop extends Consented A l l' where
  owner20 : ∀ t tok, l.erc20s.find? t = some tok →
    ∃ tok', l'.erc20s.find? t = some tok' ∧ tok'.ownerName = tok.ownerName
  owner721 : ∀ t tok, l.erc721s.find? t = some tok →
    ∃ tok', l'.erc721s.find? t = some tok' ∧ tok'.ownerName = tok.ownerName

variable {A : List AccountName} {l l' l₁ l₂ l₃ : Ledger}

theorem Fine.refl (A : List AccountName) (l : Ledger) : Fine A l l where
  main _ h := absurd h (lt_irrefl _)
  locked _ h := absurd h (lt_irrefl _)
  erc20 _ _ h := absurd h (lt_irrefl _)
  erc721 _ _ h h' := absurd h h'
  stake _ h := absurd h (lt_irrefl _)
  vote _ h := absurd rfl h
  builder _ h := absurd rfl h
  revoke20 t tok tok' h h' h₀ h₁ := by rw [h] at h'; cases h'; exact absurd h₀ h₁
  revoke721 t tok tok' h h' h₀ h₁ := by rw [h] at h'; cases h'; exact absurd h₀ h₁
  owner20 t tok h := ⟨tok, h, rfl⟩
  owner721 t tok h := ⟨tok, h, rfl⟩

theorem Fine.trans (h : Fine A l₁ l₂) (h' : Fine A l₂ l₃) : Fine A l₁ l₃ where
  main a hlt := by
    by_cases hm : mainToken l₂ a < mainToken l₁ a
    · exact h.main a hm
    · exact h'.main a (by omega)
  locked a hlt := by
    by_cases hm : lockedToken l₂ a < lockedToken l₁ a
    · exact h.locked a hm
    · exact h'.locked a (by omega)
  erc20 t a hlt := by
    by_cases hm : erc20Balance l₂ t a < erc20Balance l₁ t a
    · exact h.erc20 t a hm
    · exact h'.erc20 t a (by omega)
  erc721 id a ha hne := by
    by_cases hm : l₂.erc721Accounts.find? id = some a
    · exact h'.erc721 id a hm hne
    · exact h.erc721 id a ha hm
  stake a hlt := by
    by_cases hm : staked l₂ a < staked l₁ a
    · exact h.stake a hm
    · exact h'.stake a (by omega)
  vote a hne := by
    by_cases hm : choice l₂ a = choice l₁ a
    · exact h'.vote a (hm ▸ hne)
    · exact h.vote a hm
  builder a hne := by
    by_cases hm : builderKey l₂ a = builderKey l₁ a
    · exact h'.builder a (hm ▸ hne)
    · exact h.builder a hm
  revoke20 t tok tok' ht ht' h₀ h₁ := by
    obtain ⟨mid, hmid, howner⟩ := h.owner20 t tok ht
    by_cases hm : mid.revoked = 0
    · exact howner ▸ h'.revoke20 t mid tok' hmid ht' hm h₁
    · exact h.revoke20 t tok mid ht hmid h₀ hm
  revoke721 t tok tok' ht ht' h₀ h₁ := by
    obtain ⟨mid, hmid, howner⟩ := h.owner721 t tok ht
    by_cases hm : mid.revoked = 0
    · exact howner ▸ h'.revoke721 t mid tok' hmid ht' hm h₁
    · exact h.revoke721 t tok mid ht hmid h₀ hm
  owner20 t tok ht := by
    obtain ⟨mid, hmid, howner⟩ := h.owner20 t tok ht
    obtain ⟨tok', htok', howner'⟩ := h'.owner20 t mid hmid
    exact ⟨tok', htok', howner'.trans howner⟩
  owner721 t tok ht := by
    obtain ⟨mid, hmid, howner⟩ := h.owner721 t tok ht
    obtain ⟨tok', htok', howner'⟩ := h'.owner721 t mid hmid
    exact ⟨tok', htok', howner'.trans howner⟩

theorem SameTables.fine (h : SameTables l l') : Fine A l l' := by
  obtain ⟨h₁, h₂, h₃, h₄, h₅, h₆, h₇, h₈, h₉⟩ := h
  cases l
  cases l'
  simp only at h₁ h₂ h₃ h₄ h₅ h₆ h₇ h₈ h₉
  subst h₁ h₂ h₃ h₄ h₅ h₆ h₇ h₈ h₉
  exact { Fine.refl A _ with }

/-- Where the condition of a run fails, nothing happens and there is nothing to consent to. -/
theorem SameTables.consented_iff {b : Bool} {P : Prop} (h : SameTables l l') (hb : b = false) :
    Consented A l l' ↔ (b = true → P) := by
  refine ⟨fun _ htrue => ?_, fun _ => h.fine.toConsented⟩
  rw [hb] at htrue
  cases htrue

/-- Votes are counted at the builders' rows, which no one owns. -/
theorem VotesOnly.fine (h : VotesOnly l l') (hstake : ∀ a, staked l' a < staked l a → a ∈ A)
    (hvote : ∀ a, choice l' a ≠ choice l a → a ∈ A) : Fine A l l' := by
  have hkeys := h.keys
  rw [h.rest] at hkeys hstake hvote ⊢
  exact { Fine.refl A l with
    stake := hstake
    vote := hvote
    builder := fun a hne => absurd (hkeys a) hne }

section Rows

/-! Changes of one table. -/

theorem mainToken_modify (l : Ledger) (k : AccountName) (f : ℕ → ℕ) {v : ℕ}
    (hk : l.tokens.find? k = some v) (a : AccountName) :
    mainToken { l with tokens := l.tokens.modify k f } a
      = if a = k then f (mainToken l a) else mainToken l a := by
  simp only [mainToken, Table.find?_modify]
  by_cases ha : a = k
  · subst ha
    simp [hk]
  · cases l.tokens.find? a <;> simp [ha]

theorem Fine.of_tokens {tokens : Table AccountName ℕ}
    (h : ∀ a, mainToken { l with tokens := tokens } a < mainToken l a → a ∈ A) :
    Fine A l { l with tokens := tokens } :=
  { Fine.refl A l with main := h }

theorem Fine.of_resources (resources : Table AccountName ResourceToken)
    (h : ∀ a, lockedToken { l with resources := resources } a < lockedToken l a → a ∈ A) :
    Fine A l { l with resources := resources } :=
  { Fine.refl A l with locked := h }

theorem Fine.of_builders {builders : Table AccountName BuilderInfoObject}
    (h : ∀ a, builderKey { l with builders := builders } a ≠ builderKey l a → a ∈ A) :
    Fine A l { l with builders := builders } :=
  { Fine.refl A l with builder := h }

theorem Fine.of_accounts {accounts : Table AccountName AccountObject} {records : List KeyValue} :
    Fine A l { l with accounts := accounts, records := records } :=
  { Fine.refl A l with }

theorem Fine.of_erc20Accounts {rows : Table (AssetSymbol × AccountName) ℤ}
    (h : ∀ t a, erc20Balance { l with erc20Accounts := rows } t a < erc20Balance l t a → a ∈ A) :
    Fine A l { l with erc20Accounts := rows } :=
  { Fine.refl A l with erc20 := h }

theorem Fine.of_erc20s (k : AssetSymbol) (f : Erc20Token → Erc20Token)
    (howner : ∀ tok, (f tok).ownerName = tok.ownerName)
    (h : ∀ tok, l.erc20s.find? k = some tok → tok.revoked = 0 → (f tok).revoked ≠ 0 →
      tok.ownerName ∈ A) :
    Fine A l { l with erc20s := l.erc20s.modify k f } :=
  { Fine.refl A l with
    revoke20 := fun t tok tok' ht ht' h₀ h₁ => by
      simp only [Table.find?_modify, ht, Option.map_some, Option.some.injEq] at ht'
      split at ht'
      · rename_i hk
        subst hk ht'
        exact h tok ht h₀ h₁
      · subst ht'
        exact absurd h₀ h₁
    owner20 := fun t tok ht => by
      refine ⟨_, by simp only [Table.find?_modify, ht, Option.map_some]; rfl, ?_⟩
      split
      · exact howner tok
      · rfl }

theorem Fine.of_erc721s (k : AssetSymbol) (f : Erc721Token → Erc721Token)
    (howner : ∀ tok, (f tok).ownerName = tok.ownerName)
    (h : ∀ tok, l.erc721s.find? k = some tok → tok.revoked = 0 → (f tok).revoked ≠ 0 →
      tok.ownerName ∈ A) :
    Fine A l { l with erc721s := l.erc721s.modify k f } :=
  { Fine.refl A l with
    revoke721 := fun t tok tok' ht ht' h₀ h₁ => by
      simp only [Table.find?_modify, ht, Option.map_some, Option.some.injEq] at ht'
      split at ht'
      · rename_i hk
        subst hk ht'
        exact h tok ht h₀ h₁
      · subst ht'
        exact absurd h₀ h₁
    owner721 := fun t tok ht => by
      refine ⟨_, by simp only [Table.find?_modify, ht, Option.map_some]; rfl, ?_⟩
      split
      · exact howner tok
      · rfl }

/-- A row that is created takes no other row's place. -/
theorem Fine.of_new_erc20 {k : AssetSymbol} {v : Erc20Token} {rows : Table AssetSymbol Erc20Token}
    (h : l.erc20s.create? k v = some rows) : Fine A l { l with erc20s := rows } := by
  obtain ⟨hnone, hfind⟩ := Table.create?_eq_some h
  have hkeep : ∀ t tok, l.erc20s.find? t = some tok → rows.find? t = some tok := by
    intro t tok ht
    have : t ≠ k := by rintro rfl; rw [hnone] at ht; cases ht
    rw [hfind, if_neg this, ht]
  exact { Fine.refl A l with
    revoke20 := fun t tok tok' ht ht' h₀ h₁ => by
      rw [hkeep t tok ht] at ht'
      cases ht'
      exact absurd h₀ h₁
    owner20 := fun t tok ht => ⟨tok, hkeep t tok ht, rfl⟩ }

theorem Fine.of_new_erc721 {k : AssetSymbol} {v : Erc721Token} {rows : Table AssetSymbol Erc721Token}
    (h : l.erc721s.create? k v = some rows) : Fine A l { l with erc721s := rows } := by
  obtain ⟨hnone, hfind⟩ := Table.create?_eq_some h
  have hkeep : ∀ t tok, l.erc721s.find? t = some tok → rows.find? t = some tok := by
    intro t tok ht
    have : t ≠ k := by rintro rfl; rw [hnone] at ht; cases ht
    rw [hfind, if_neg this, ht]
  exact { Fine.refl A l with
    revoke721 := fun t tok tok' ht ht' h₀ h₁ => by
      rw [hkeep t tok ht] at ht'
      cases ht'
      exact absurd h₀ h₁
    owner721 := fun t tok ht => ⟨tok, hkeep t tok ht, rfl⟩ }

end Rows

section Handlers

variable {env : Env} {ctx : MessageContext} {s r : HandlerState}

theorem xmaxNewAccount_fine {name : AccountName} {type : AccountType}
    (h : xmaxNewAccount ctx l name type = .ok l') : Fine A l l' ∧
      l' = { l with accounts := l'.accounts } := by
  simp only [xmaxNewAccount, bind_eq_ok] at h
  obtain ⟨accounts, -, h⟩ := h
  cases h
  exact ⟨.of_accounts, rfl⟩

theorem addaccountTokens_fine {create : Types.AddAccount}
    (h : addaccountTokens ctx create l = .ok l') : Fine ctx.authorized l l' := by
  simp only [addaccountTokens, bind_eq_ok, requireAuthorization_eq_ok, dbGet_eq_ok,
    dbCreate_eq_ok] at h
  obtain ⟨-, hauth, -, -, -, -, l₁, h₁, v, hv, -, -, tokens, hc, h⟩ := h
  cases h
  obtain ⟨hfine, heq⟩ := xmaxNewAccount_fine (A := ctx.authorized) h₁
  refine hfine.trans (.of_tokens fun a hlt => ?_)
  obtain ⟨hnone, hfind⟩ := Table.create?_eq_some hc
  -- only the creator's balance is debited
  by_cases hcreator : a = create.creator
  · exact hcreator ▸ hauth
  · exfalso
    simp only [mainToken, hfind] at hlt
    by_cases ha : a = create.name
    · subst ha
      have : l₁.tokens.find? create.name = none := by
        simpa [hcreator] using hnone
      simp [this] at hlt
    · cases hrow : l₁.tokens.find? a <;> simp [ha, hcreator, hrow] at hlt

theorem xmaxSystemAddcontract_fine (h : xmaxSystemAddcontract env ctx s = .ok r) :
    Fine ctx.authorized s.ledger r.ledger := by
  rw [xmaxSystemAddcontract_ok h]
  exact .of_accounts

theorem xmaxSystemSetjscode_fine (h : xmaxSystemSetjscode env ctx s = .ok r) :
    Fine ctx.authorized s.ledger r.ledger := by
  rw [xmaxSystemSetjscode_ok h]
  exact .of_accounts

theorem xmaxSystemAdderc20_fine (h : xmaxSystemAdderc20 env ctx s = .ok r) :
    Fine ctx.authorized s.ledger r.ledger := by
  obtain ⟨msg, -, hauth, rows, balances, hrows, hbal, hr⟩ := xmaxSystemAdderc20_ok h
  have hnew : Fine ctx.authorized s.ledger { s.ledger with erc20s := rows } := .of_new_erc20 hrows
  have hheld : Fine ctx.authorized { s.ledger with erc20s := rows }
      { s.ledger with erc20s := rows, erc20Accounts := balances } := by
    refine .of_erc20Accounts fun t a hlt => ?_
    obtain ⟨hnone, hfind⟩ := Table.create?_eq_some hbal
    by_cases ha : (t, a) = (msg.tokenName, msg.creator)
    · cases ha
      exact hauth
    · simp [erc20Balance, hfind, ha] at hlt
  rw [hr]
  exact (hnew.trans hheld).trans .of_accounts

theorem xmaxSystemAdderc721_fine (h : xmaxSystemAdderc721 env ctx s = .ok r) :
    Fine ctx.authorized s.ledger r.ledger := by
  obtain ⟨msg, -, rows, hrows, hr⟩ := xmaxSystemAdderc721_ok h
  rw [hr]
  exact (Fine.of_new_erc721 hrows).trans .of_accounts

theorem xmaxSystemUnlock_fine (h : xmaxSystemUnlock env ctx s = .ok r) :
    Fine ctx.authorized s.ledger r.ledger := by
  obtain ⟨unlock, unlocker, -, hauth, -, hrow, -, hvotes, -⟩ := xmaxSystemUnlock_ok h
  obtain ⟨honly, hstake, hvote⟩ := decreaseVotes_ok hvotes
  refine Fine.trans (.of_resources _ fun a hlt => ?_) (honly.fine (fun a hlt => ?_) fun a hne => ?_)
  · by_cases ha : a = unlock.account
    · exact ha ▸ hauth
    · cases hr : s.ledger.resources.find? a <;> simp [lockedToken, ha, hr] at hlt
  · by_cases ha : a = unlock.account
    · exact ha ▸ hauth
    · exact absurd (hstake a ha) hlt.ne
  · exact absurd (hvote a) hne

theorem xmaxSystemLock_fine (h : xmaxSystemLock env ctx s = .ok r) :
    Fine ctx.authorized s.ledger r.ledger := by
  obtain ⟨lock, locker, -, -, hauth, hrow, -, -, hvotes, -⟩ := xmaxSystemLock_ok h
  obtain ⟨honly, hstake, hvote⟩ := increaseVotes_ok hvotes
  have htokens : Fine ctx.authorized s.ledger
      { s.ledger with tokens := s.ledger.tokens.modify lock.source (· - lock.amount.toNat) } := by
    refine .of_tokens fun a hlt => ?_
    rw [mainToken_modify _ _ _ hrow] at hlt
    split at hlt
    · rename_i ha
      exact ha ▸ hauth
    · exact absurd hlt (lt_irrefl _)
  refine htokens.trans (Fine.trans (.of_resources (s.ledger.resources.modify lock.dest
    fun r => { r with lockedToken := r.lockedToken + lock.amount.toNat }) fun a hlt => ?_)
    (honly.fine (fun a hlt => ?_) fun a hne => ?_))
  · exfalso
    by_cases ha : a = lock.dest <;> cases hr : s.ledger.resources.find? a <;>
      simp_all [lockedToken]
  · rw [hstake] at hlt
    exact absurd hlt (by simp)
  · exact absurd (hvote a) hne

theorem xmaxErc20Mint_fine (h : xmaxErc20Mint env ctx s = .ok r) :
    Fine ctx.authorized s.ledger r.ledger := by
  obtain ⟨mint, token, balance, balance', supply', -, -, hbal, hadd, -, rfl⟩ := xmaxErc20Mint_ok h
  have hle : balance ≤ balance' := (safeAdd_eq_ok.1 hadd).1
  have hbalance : Fine ctx.authorized s.ledger { s.ledger with
      erc20Accounts := s.ledger.erc20Accounts.modify (mint.tokenName, token.ownerName)
        fun _ => balance' } := by
    refine .of_erc20Accounts fun t a hlt => ?_
    exfalso
    by_cases ha : (t, a) = (mint.tokenName, token.ownerName)
    · simp only [erc20Balance, Table.find?_modify, ha, hbal, Option.map_some, if_true,
        Option.getD_some] at hlt
      omega
    · cases hr : s.ledger.erc20Accounts.find? (t, a) <;> simp [erc20Balance, ha, hr] at hlt
  exact hbalance.trans (.of_erc20s mint.tokenName (fun t => { t with totalSupply := supply' })
    (fun _ => rfl) fun tok _ h₀ h₁ => absurd h₀ h₁)

theorem xmaxErc20Stopmint_fine (h : xmaxErc20Stopmint env ctx s = .ok r) :
    Fine ctx.authorized s.ledger r.ledger := by
  obtain ⟨name, N, rfl⟩ := xmaxErc20Stopmint_ok h
  exact .of_erc20s name (fun t => { t with stopmint := 1 }) (fun _ => rfl)
    fun tok _ h₀ h₁ => absurd h₀ h₁

theorem openErc20Account_balance {row : AssetSymbol × AccountName}
    {rows : Table (AssetSymbol × AccountName) ℤ} (h : openErc20Account l row = .ok rows)
    (t : AssetSymbol) (a : AccountName) :
    erc20Balance { l with erc20Accounts := rows } t a = erc20Balance l t a := by
  unfold openErc20Account at h
  split at h
  · rename_i hnone
    obtain ⟨-, hfind⟩ := Table.create?_eq_some (dbCreate_eq_ok.1 h)
    by_cases ha : (t, a) = row
    · simp [erc20Balance, hfind, ha, hnone]
    · simp [erc20Balance, hfind, ha]
  · cases h
    rfl

theorem xmaxErc20Transferfrom_fine (h : xmaxErc20Transferfrom env ctx s = .ok r) :
    Fine ctx.authorized s.ledger r.ledger := by
  obtain ⟨t, rows, b₁, c₁, b₂, c₂, -, hauth, -, -, hrows, hb₁, -, -, hb₂, hadd, rfl⟩ :=
    xmaxErc20Transferfrom_ok h
  have hle : b₂ ≤ c₂ := (safeAdd_eq_ok.1 hadd).1
  refine .of_erc20Accounts fun tok a hlt => ?_
  rw [← openErc20Account_balance hrows tok a] at hlt
  -- the sender's row may go down, the receiver's only up
  by_cases ha : (tok, a) = (t.tokenName, t.source)
  · cases ha
    exact hauth
  · exfalso
    by_cases hd : (tok, a) = (t.tokenName, t.dest)
    · rw [Table.find?_modify] at hb₂
      rw [← hd] at hb₂
      obtain ⟨v, hv, hvb⟩ := Option.map_eq_some_iff.1 hb₂
      rw [if_neg ha] at hvb
      subst hvb
      simp only [erc20Balance, Table.find?_modify, hv, ← hd, if_true, Option.map_some,
        Option.getD_some] at hlt
      omega
    · cases hr : rows.find? (tok, a) <;> simp [erc20Balance, ha, hd, hr] at hlt

theorem xmaxErc721Mint_fine (h : xmaxErc721Mint env ctx s = .ok r) :
    Fine ctx.authorized s.ledger r.ledger := by
  obtain ⟨mint, token, rows, N, -, -, -, hrows, rfl⟩ := xmaxErc721Mint_ok h
  obtain ⟨hnone, hfind⟩ := Table.create?_eq_some hrows
  exact { Fine.refl ctx.authorized s.ledger with
    erc721 := fun id a ha hne => by
      have : id ≠ (mint.tokenName, mint.tokenId) := by
        rintro rfl
        rw [hnone] at ha
        cases ha
      exact absurd (by rw [← ha]; exact (hfind id).trans (if_neg this)) hne }

theorem xmaxErc721Stopmint_fine (h : xmaxErc721Stopmint env ctx s = .ok r) :
    Fine ctx.authorized s.ledger r.ledger := by
  obtain ⟨name, N, rfl⟩ := xmaxErc721Stopmint_ok h
  exact .of_erc721s name (fun t => { t with stopmint := 1 }) (fun _ => rfl)
    fun tok _ h₀ h₁ => absurd h₀ h₁

theorem xmaxErc721Transferfrom_fine (h : xmaxErc721Transferfrom env ctx s = .ok r) :
    Fine ctx.authorized s.ledger r.ledger := by
  obtain ⟨t, N, -, hauth, howner, -, rfl⟩ := xmaxErc721Transferfrom_ok h
  exact { Fine.refl ctx.authorized s.ledger with
    erc721 := fun id a ha hne => by
      by_cases hid : id = (t.tokenName, t.tokenId)
      · subst hid
        rw [howner] at ha
        cases ha
        exact hauth
      · refine absurd ?_ hne
        simp [Table.find?_modify, ha, hid] }

end Handlers

section Runs

variable {env : Env} {ctx : MessageContext} {N N' : List AccountName} {n : Bool}

/-- The functions whose handlers require all the consent they need. -/
def checksItself : FuncName → Bool
  | .transfer | .votebuilder | .regbuilder | .unregbuilder | .regproxy | .unregproxy | .revoke => false
  | _ => true

theorem ledgerHandler_fine {scope : NativeScope} {type : FuncName} {h : LedgerHandler}
    {s r : HandlerState} (htype : checksItself type = true)
    (found : ledgerHandler env scope type = some h) (ran : h ctx s = .ok r) :
    Fine ctx.authorized s.ledger r.ledger := by
  cases scope <;> cases type <;> simp only [ledgerHandler, checksItself, reduceCtorEq] at found htype
  all_goals cases found
  case system.addcontract => exact xmaxSystemAddcontract_fine ran
  case system.adderc20 => exact xmaxSystemAdderc20_fine ran
  case system.adderc721 => exact xmaxSystemAdderc721_fine ran
  case system.lock => exact xmaxSystemLock_fine ran
  case system.unlock => exact xmaxSystemUnlock_fine ran
  case system.setcode => exact xmaxSystemSetjscode_fine ran
  case erc20.mint => exact xmaxErc20Mint_fine ran
  case erc20.stopmint => exact xmaxErc20Stopmint_fine ran
  case erc20.transferfrom => exact xmaxErc20Transferfrom_fine ran
  case erc721.mint => exact xmaxErc721Mint_fine ran
  case erc721.stopmint => exact xmaxErc721Stopmint_fine ran
  case erc721.transferfrom => exact xmaxErc721Transferfrom_fine ran

theorem RunOn.fine (h : RunOn env ctx l N n l' N') (htype : checksItself ctx.msg.type = true) :
    Fine ctx.authorized l l' := by
  cases h with
  | handler acc h r l' account found ran same =>
    exact (ledgerHandler_fine htype found ran).trans same.fine
  | addaccount acc create r l' account scope type data ran same =>
    exact (addaccountTokens_fine ran).trans same.fine
  | silent acc l' account unknown same => exact same.fine

end Runs

/-! ## The handlers that do not check -/

section Unchecked

variable {env : Env} {trx : SignedTransaction} {currentTime : ℕ} {msg : Message} {db : AuthDb}
  {usedGas : ℕ} {s' : ExecState}

/-- What a message of the system contract that names no recipient did. -/
theorem execMessage_system_single {h : LedgerHandler}
    (hh : ledgerHandler env .system msg.type = some h)
    (hN : ∀ {ctx s r}, h ctx s = .ok r → r.notified = s.notified)
    (hexec : execMessage env trx currentTime msg db usedGas = .ok s') :
    (runsSystem db.toLedger msg.code = true ∧
      ∃ r, h ⟨trx, msg, msg.code, currentTime⟩ ⟨db.toLedger, [msg.code]⟩ = .ok r ∧
        SameTables r.ledger s'.db.toLedger) ∨
    (runsSystem db.toLedger msg.code = false ∧ SameTables db.toLedger s'.db.toLedger) := by
  have hrun := execMessage_single hexec fun hrun => by
    rcases hrun.system hh rfl with ⟨-, r, hr, -, rfl⟩ | ⟨-, -, rfl⟩
    · exact hN hr
    · rfl
  rcases hrun.system hh rfl with ⟨hs, r, hr, hsame, -⟩ | ⟨hs, hsame, -⟩
  · exact .inl ⟨hs, r, hr, hsame⟩
  · exact .inr ⟨hs, hsame⟩

/-- A message of the system contract sent to another account changes nothing. -/
theorem execMessage_not_system {h : LedgerHandler}
    (hh : ledgerHandler env .system msg.type = some h)
    (hcode : runsSystem db.toLedger msg.code = false)
    (hexec : execMessage env trx currentTime msg db usedGas = .ok s') :
    SameTables db.toLedger s'.db.toLedger := by
  have hsilent : ∀ {l' N'}, RunOn env ⟨trx, msg, msg.code, currentTime⟩ db.toLedger [msg.code] false
      l' N' → SameTables db.toLedger l' ∧ N' = [msg.code] := by
    intro l' N' hrun
    rcases hrun.system hh rfl with ⟨hs, -⟩ | ⟨-, hsame, hN⟩
    · rw [show runsSystem db.toLedger msg.code = true from hs] at hcode
      cases hcode
    · exact ⟨hsame, hN⟩
  exact (hsilent (execMessage_single hexec fun hrun => (hsilent hrun).2)).1

theorem xmaxSystemTransfer_fine {ctx : MessageContext} {s r : HandlerState} {t : Types.Transfer}
    (ht : env.codec.transfer ctx.msg.data = some t)
    (hcond : t.source = t.dest ∨ t.source ∈ ctx.authorized)
    (h : xmaxSystemTransfer env ctx s = .ok r) : Fine ctx.authorized s.ledger r.ledger := by
  obtain ⟨t', v, ht', -, hv, hle, -, rfl⟩ := xmaxSystemTransfer_ok h
  obtain rfl : t = t' := Option.some.inj (ht.symm.trans ht')
  refine .of_tokens fun a hlt => ?_
  by_cases ha : a = t.source
  · subst ha
    refine hcond.resolve_left fun hself => ?_
    simp only [mainToken, Table.find?_modify, hv, ← hself, Option.map_some, if_true,
      Option.getD_some] at hlt
    omega
  · exfalso
    by_cases hd : a = t.dest <;> cases hr : s.ledger.tokens.find? a <;>
      simp_all [mainToken]

/-- A transfer to another account takes from its sender. -/
theorem xmaxSystemTransfer_debits {ctx : MessageContext} {s r : HandlerState} {t : Types.Transfer}
    (ht : env.codec.transfer ctx.msg.data = some t) (hne : t.source ≠ t.dest)
    (h : xmaxSystemTransfer env ctx s = .ok r) :
    mainToken r.ledger t.source < mainToken s.ledger t.source := by
  obtain ⟨t', v, ht', hpos, hv, hle, -, rfl⟩ := xmaxSystemTransfer_ok h
  obtain rfl : t = t' := Option.some.inj (ht.symm.trans ht')
  simp only [mainToken, Table.find?_modify, hv, Option.map_some, if_true, hne, if_false,
    Option.getD_some]
  omega

theorem transfer_consented_iff (htype : msg.type = .transfer)
    (h : execMessage env trx currentTime msg db usedGas = .ok s') :
    Consented msg.authorized db.toLedger s'.db.toLedger ↔
      (runsSystem db.toLedger msg.code = true → ∀ t, env.codec.transfer msg.data = some t →
        t.source = t.dest ∨ t.source ∈ msg.authorized) := by
  have hh : ledgerHandler env .system msg.type = some (xmaxSystemTransfer env) := by rw [htype]; rfl
  constructor
  · intro hcons hcode t ht
    by_contra hcond
    obtain ⟨hne, hauth⟩ := not_or.1 hcond
    refine hauth (hcons.main t.source (execMessage_invariant
      (P := fun l => mainToken l t.source < mainToken db.toLedger t.source) h ?_ ?_))
    · intro l' N' hrun
      rcases hrun.system hh rfl with ⟨-, r, hr, hsame, -⟩ | ⟨hs, -⟩
      · rw [mainToken, hsame.tokens]
        exact xmaxSystemTransfer_debits ht hne hr
      · rw [show runsSystem db.toLedger msg.code = false from hs] at hcode
        cases hcode
    · intro account l N l' N' hP hrun
      rcases hrun.system hh rfl with ⟨-, r, hr, hsame, -⟩ | ⟨-, hsame, -⟩
      · rw [mainToken, hsame.tokens]
        exact (xmaxSystemTransfer_debits ht hne hr).trans hP
      · rw [mainToken, hsame.tokens]
        exact hP
  · intro hcond
    cases hcode : runsSystem db.toLedger msg.code with
    | false => exact (execMessage_not_system hh hcode h).fine.toConsented
    | true =>
      have hstep : ∀ {account l N n l' N'},
          RunOn env ⟨trx, msg, account, currentTime⟩ l N n l' N' → Fine msg.authorized l l' := by
        intro account l N n l' N' hrun
        rcases hrun.system hh rfl with ⟨-, r, hr, hsame, -⟩ | ⟨-, hsame, -⟩
        · obtain ⟨t, _, ht, -⟩ := xmaxSystemTransfer_ok hr
          exact (xmaxSystemTransfer_fine ht (hcond hcode t ht) hr).trans hsame.fine
        · exact hsame.fine
      exact (execMessage_invariant (P := Fine msg.authorized db.toLedger) h hstep
        fun hP hrun => hP.trans (hstep hrun)).toConsented

/-- The voter has this choice already. -/
def KeepsVote (l : Ledger) (vp : Types.VoteBuilder) : Prop :=
  (voterOf l vp.voter).proxy = vp.proxy ∧ (vp.proxy ≠ 0 ∨ (voterOf l vp.voter).builders = vp.builders)

/-- After a vote the voter has the choice of the message. -/
theorem voteBuilder_keepsVote {codec : Codec} {ctx : MessageContext} {s r : HandlerState}
    {vp : Types.VoteBuilder} (hvp : codec.votebuilder ctx.msg.data = some vp)
    (h : voteBuilder codec ctx s = .ok r) : KeepsVote r.ledger vp := by
  obtain ⟨vp', hvp', hkeep | ⟨-, voter, hmove⟩⟩ := voteBuilder_ok h <;>
    obtain rfl : vp = vp' := Option.some.inj (hvp.symm.trans hvp')
  · obtain ⟨hproxy, hne, hsame⟩ := hkeep
    rw [KeepsVote, hsame]
    exact ⟨hproxy, .inl hne⟩
  · have hchoice := (moveVotes_ok hmove).2.2 vp.voter
    rw [if_pos rfl] at hchoice
    simp only [choice, Prod.mk.injEq] at hchoice
    exact ⟨hchoice.1, .inr hchoice.2.2⟩

theorem voteBuilder_fine {codec : Codec} {ctx : MessageContext} {s r : HandlerState}
    {vp : Types.VoteBuilder} (hvp : codec.votebuilder ctx.msg.data = some vp)
    (hcond : vp.voter ∈ ctx.authorized ∨ KeepsVote s.ledger vp)
    (h : voteBuilder codec ctx s = .ok r) : Fine ctx.authorized s.ledger r.ledger := by
  obtain ⟨vp', hvp', ⟨-, -, hsame⟩ | ⟨hno, voter, hmove⟩⟩ := voteBuilder_ok h <;>
    obtain rfl : vp = vp' := Option.some.inj (hvp.symm.trans hvp')
  · rw [hsame]
    exact .refl _ _
  · obtain ⟨honly, hstake, hchoice⟩ := moveVotes_ok hmove
    refine honly.fine (fun a hlt => absurd (hstake a) hlt.ne) fun a hne => ?_
    rw [hchoice a] at hne
    by_cases ha : a = vp.voter
    · subst ha
      refine hcond.resolve_right fun hkeep => ?_
      -- the votes are moved, so the voter keeps having no proxy and the builders it had
      have hbuilders : (voterOf s.ledger vp.voter).builders = vp.builders :=
        hkeep.2.resolve_left fun hp => hno ⟨hkeep.1, hp⟩
      rw [if_pos rfl] at hne
      exact hne (by simp [choice, hkeep.1, hbuilders])
    · rw [if_neg ha] at hne
      exact absurd rfl hne

theorem KeepsVote.same {vp : Types.VoteBuilder} (h : KeepsVote l vp) (hsame : SameTables l l') :
    KeepsVote l' vp := by
  rw [KeepsVote, voterOf_congr hsame.voters]
  exact h

theorem votebuilder_consented_iff (htype : msg.type = .votebuilder)
    (h : execMessage env trx currentTime msg db usedGas = .ok s') :
    Consented msg.authorized db.toLedger s'.db.toLedger ↔
      (runsSystem db.toLedger msg.code = true → ∀ vp, env.codec.votebuilder msg.data = some vp →
        vp.voter ∈ msg.authorized ∨ KeepsVote db.toLedger vp) := by
  have hh : ledgerHandler env .system msg.type = some (voteBuilder env.codec) := by rw [htype]; rfl
  constructor
  · intro hcons hcode vp hvp
    by_contra hcond
    obtain ⟨hauth, hchanged⟩ := not_or.1 hcond
    have hkeeps : KeepsVote s'.db.toLedger vp := by
      refine execMessage_invariant (P := (KeepsVote · vp)) h ?_ ?_
      · intro l' N' hrun
        rcases hrun.system hh rfl with ⟨-, r, hr, hsame, -⟩ | ⟨hs, -⟩
        · exact (voteBuilder_keepsVote hvp hr).same hsame
        · rw [show runsSystem db.toLedger msg.code = false from hs] at hcode
          cases hcode
      · intro account l N l' N' hP hrun
        rcases hrun.system hh rfl with ⟨-, r, hr, hsame, -⟩ | ⟨-, hsame, -⟩
        · exact (voteBuilder_keepsVote hvp hr).same hsame
        · exact hP.same hsame
    refine hauth (hcons.vote vp.voter fun hsame => hchanged ?_)
    simp only [choice, Prod.mk.injEq] at hsame
    rw [KeepsVote, ← hsame.1, ← hsame.2.2]
    exact hkeeps
  · intro hcond
    cases hcode : runsSystem db.toLedger msg.code with
    | false => exact (execMessage_not_system hh hcode h).fine.toConsented
    | true =>
      have hstep : ∀ {account l N n l' N'},
          (∀ vp, env.codec.votebuilder msg.data = some vp →
            vp.voter ∈ msg.authorized ∨ KeepsVote l vp) →
          RunOn env ⟨trx, msg, account, currentTime⟩ l N n l' N' →
          Fine msg.authorized l l' ∧ ∀ vp, env.codec.votebuilder msg.data = some vp →
            vp.voter ∈ msg.authorized ∨ KeepsVote l' vp := by
        intro account l N n l' N' hcond hrun
        rcases hrun.system hh rfl with ⟨-, r, hr, hsame, -⟩ | ⟨-, hsame, -⟩
        · obtain ⟨vp, hvp, -⟩ := voteBuilder_ok hr
          refine ⟨(voteBuilder_fine hvp (hcond vp hvp) hr).trans hsame.fine, fun vp' hvp' => ?_⟩
          exact .inr ((voteBuilder_keepsVote hvp' hr).same hsame)
        · exact ⟨hsame.fine, fun vp hvp => (hcond vp hvp).imp_right (·.same hsame)⟩
      exact (execMessage_invariant (P := fun l => Fine msg.authorized db.toLedger l ∧
        ∀ vp, env.codec.votebuilder msg.data = some vp → vp.voter ∈ msg.authorized ∨ KeepsVote l vp)
        h (hstep (hcond hcode)) fun hP hrun =>
          ⟨hP.1.trans (hstep hP.2 hrun).1, (hstep hP.2 hrun).2⟩).1.toConsented

/-- Setting one builder's key needs that builder's consent, unless it has the key already. -/
theorem setKey_consented_iff {r : Ledger} {b : AccountName} {k : PublicKey}
    (hrest : r = { l with builders := r.builders })
    (hkey : ∀ a, builderKey r a = if a = b then k else builderKey l a) (hsame : SameTables r l') :
    Consented A l l' ↔ b ∈ A ∨ builderKey l b = k := by
  constructor
  · intro hcons
    by_contra hcond
    obtain ⟨hauth, hchanged⟩ := not_or.1 hcond
    refine hauth (hcons.builder b ?_)
    rw [builderKey, hsame.builders, ← builderKey, hkey, if_pos rfl]
    exact Ne.symm hchanged
  · intro hcond
    refine (Fine.trans ?_ hsame.fine).toConsented
    rw [hrest]
    refine .of_builders fun a hne => ?_
    rw [← hrest, hkey] at hne
    by_cases ha : a = b
    · rw [if_pos ha] at hne
      exact ha ▸ hcond.resolve_right fun hsame => hne (by rw [ha, hsame])
    · rw [if_neg ha] at hne
      exact absurd rfl hne

theorem regbuilder_consented_iff (htype : msg.type = .regbuilder)
    (h : execMessage env trx currentTime msg db usedGas = .ok s') :
    Consented msg.authorized db.toLedger s'.db.toLedger ↔
      (runsSystem db.toLedger msg.code = true → ∀ reg, env.codec.regbuilder msg.data = some reg →
        reg.builder ∈ msg.authorized ∨ builderKey db.toLedger reg.builder = reg.builderKey) := by
  rcases execMessage_system_single (h := regBuilder env.codec) (by rw [htype]; rfl)
    (fun hr => by obtain ⟨_, -, hN, -⟩ := regBuilder_ok hr; exact hN) h
    with ⟨hcode, r, hr, hsame⟩ | ⟨hcode, hsame⟩
  · obtain ⟨reg, hreg, -, hrest, hkey⟩ := regBuilder_ok hr
    rw [setKey_consented_iff hrest hkey hsame]
    refine ⟨fun hcond _ reg' hreg' => ?_, fun hcond => hcond hcode reg hreg⟩
    obtain rfl : reg = reg' := Option.some.inj (hreg.symm.trans hreg')
    exact hcond
  · exact hsame.consented_iff hcode

theorem unregbuilder_consented_iff (htype : msg.type = .unregbuilder)
    (h : execMessage env trx currentTime msg db usedGas = .ok s') :
    Consented msg.authorized db.toLedger s'.db.toLedger ↔
      (runsSystem db.toLedger msg.code = true → ∀ b, env.codec.unregbuilder msg.data = some b →
        b ∈ msg.authorized ∨ builderKey db.toLedger b = 0) := by
  rcases execMessage_system_single (h := unregBuilder env.codec) (by rw [htype]; rfl)
    (fun hr => by obtain ⟨_, -, hN, -⟩ := unregBuilder_ok hr; exact hN) h
    with ⟨hcode, r, hr, hsame⟩ | ⟨hcode, hsame⟩
  · obtain ⟨b, hb, -, hrest, hkey⟩ := unregBuilder_ok hr
    rw [setKey_consented_iff hrest hkey hsame]
    refine ⟨fun hcond _ b' hb' => ?_, fun hcond => hcond hcode b hb⟩
    obtain rfl : b = b' := Option.some.inj (hb.symm.trans hb')
    exact hcond
  · exact hsame.consented_iff hcode

/-- Becoming a proxy or ceasing to be one always changes the registration. -/
theorem proxy_consented_iff {h : LedgerHandler} {decode : Bytes → Option AccountName} {was is : ℕ}
    (hne : is ≠ was) (hh : ledgerHandler env .system msg.type = some h)
    (hok : ∀ {ctx s r}, h ctx s = .ok r → ∃ name, decode ctx.msg.data = some name ∧
      r.notified = s.notified ∧ VotesOnly s.ledger r.ledger ∧
      (∀ a, staked r.ledger a = staked s.ledger a) ∧
      (∀ a, a ≠ name → choice r.ledger a = choice s.ledger a) ∧
      (voterOf s.ledger name).isProxy = was ∧ (voterOf r.ledger name).isProxy = is)
    (hexec : execMessage env trx currentTime msg db usedGas = .ok s') :
    Consented msg.authorized db.toLedger s'.db.toLedger ↔
      (runsSystem db.toLedger msg.code = true → ∀ name, decode msg.data = some name →
        name ∈ msg.authorized) := by
  rcases execMessage_system_single hh
    (fun hr => by obtain ⟨_, -, hN, -⟩ := hok hr; exact hN) hexec
    with ⟨hcode, r, hr, hsame⟩ | ⟨hcode, hsame⟩
  · obtain ⟨name, hname, -, honly, hstake, hchoice, hwas, his⟩ := hok hr
    constructor
    · intro hcons _ name' hname'
      obtain rfl : name = name' := Option.some.inj (hname.symm.trans hname')
      refine hcons.vote name fun hkeep => hne ?_
      simp only [choice, voterOf_congr hsame.voters, Prod.mk.injEq] at hkeep
      rw [← his, hkeep.2.1]
      exact hwas
    · intro hcond
      refine (Fine.trans (honly.fine (fun a hlt => absurd (hstake a) hlt.ne) fun a hchanged => ?_)
        hsame.fine).toConsented
      by_cases ha : a = name
      · exact ha ▸ hcond hcode name hname
      · exact absurd (hchoice a ha) hchanged
  · exact hsame.consented_iff hcode

/-- The scope of the handlers that a message sent to `a` runs. -/
def scopeOf (l : Ledger) (a : AccountName) : Option NativeScope :=
  (l.accounts.find? a).map fun acc => getNativeScope acc.type

/-- A `revoke` runs the handler of a token contract, or none. -/
theorem RunOn.revoke {ctx : MessageContext} {N N' : List AccountName} {n : Bool}
    (h : RunOn env ctx l N n l' N') (ht : ctx.msg.type = .revoke) :
    N' = N ∧
      ((scopeOf l ctx.code = some .erc20 ∧ ∃ r, xmaxErc20Revoke env ctx ⟨l, N⟩ = .ok r ∧
          SameTables r.ledger l') ∨
        (scopeOf l ctx.code = some .erc721 ∧ ∃ r, xmaxErc721Revoke env ctx ⟨l, N⟩ = .ok r ∧
          SameTables r.ledger l') ∨
        (scopeOf l ctx.code ≠ some .erc20 ∧ scopeOf l ctx.code ≠ some .erc721 ∧
          SameTables l l')) := by
  cases h with
  | handler acc h r l' account found ran same =>
    rw [ht] at found
    cases hscope : getNativeScope acc.type <;> rw [hscope] at found <;> cases found
    · obtain ⟨_, _, -, -, -, hr⟩ := xmaxErc20Revoke_ok ran
      exact ⟨by rw [hr], .inl ⟨by simp [scopeOf, account, hscope], r, ran, same⟩⟩
    · obtain ⟨_, _, -, -, -, hr⟩ := xmaxErc721Revoke_ok ran
      exact ⟨by rw [hr], .inr (.inl ⟨by simp [scopeOf, account, hscope], r, ran, same⟩)⟩
  | addaccount acc create r l' account scope type data ran same =>
    rw [ht] at type
    cases type
  | silent acc l' account unknown same =>
    refine ⟨rfl, .inr (.inr ?_)⟩
    simp only [scopeOf, account, Option.map_some, ne_eq, Option.some.injEq]
    rcases unknown with htype | ⟨-, hnone⟩
    · simp [htype, getNativeScope, same]
    · rw [ht] at hnone
      cases hscope : getNativeScope acc.type <;> rw [hscope] at hnone <;> cases hnone <;> simp [same]

theorem revoke_consented_iff (htype : msg.type = .revoke)
    (h : execMessage env trx currentTime msg db usedGas = .ok s') :
    Consented msg.authorized db.toLedger s'.db.toLedger ↔
      (scopeOf db.toLedger msg.code = some .erc20 → ∀ name tok,
        env.codec.revokeerc20 msg.data = some name → db.erc20s.find? name = some tok →
          tok.ownerName ∈ msg.authorized) ∧
      (scopeOf db.toLedger msg.code = some .erc721 → ∀ name tok,
        env.codec.revokeerc721 msg.data = some name → db.erc721s.find? name = some tok →
          tok.ownerName ∈ msg.authorized) := by
  have hrun := execMessage_single h fun hrun => (hrun.revoke htype).1
  rcases (hrun.revoke htype).2 with ⟨hcode, r, hr, hsame⟩ | ⟨hcode, r, hr, hsame⟩ | ⟨h₁, h₂, hsame⟩
  · obtain ⟨name, tok, hname, htok, hzero, rfl⟩ := xmaxErc20Revoke_ok hr
    have hcode' : scopeOf db.toLedger msg.code = some .erc20 := hcode
    simp only [hcode', forall_const, Option.some.injEq, reduceCtorEq, false_implies, and_true]
    constructor
    · intro hcons name' tok' hname' htok'
      obtain rfl : name = name' := Option.some.inj (hname.symm.trans hname')
      obtain rfl : tok = tok' := Option.some.inj (htok.symm.trans htok')
      refine hcons.revoke20 name tok { tok with revoked := 1 } htok ?_ hzero (by simp)
      rw [hsame.erc20s]
      simp only [Table.find?_modify, show db.erc20s.find? name = some tok from htok, Option.map_some,
        if_true]
    · intro hcond
      refine (Fine.trans (.of_erc20s name (fun t => { t with revoked := 1 }) (fun _ => rfl)
        fun tok htok _ _ => hcond name tok hname htok) hsame.fine).toConsented
  · obtain ⟨name, tok, hname, htok, hzero, rfl⟩ := xmaxErc721Revoke_ok hr
    have hcode' : scopeOf db.toLedger msg.code = some .erc721 := hcode
    simp only [hcode', forall_const, Option.some.injEq, reduceCtorEq, false_implies, true_and]
    constructor
    · intro hcons name' tok' hname' htok'
      obtain rfl : name = name' := Option.some.inj (hname.symm.trans hname')
      obtain rfl : tok = tok' := Option.some.inj (htok.symm.trans htok')
      refine hcons.revoke721 name tok { tok with revoked := 1 } htok ?_ hzero (by simp)
      rw [hsame.erc721s]
      simp only [Table.find?_modify, show db.erc721s.find? name = some tok from htok, Option.map_some,
        if_true]
    · intro hcond
      refine (Fine.trans (.of_erc721s name (fun t => { t with revoked := 1 }) (fun _ => rfl)
        fun tok htok _ _ => hcond name tok hname htok) hsame.fine).toConsented
  · exact ⟨fun _ => ⟨fun hc => absurd hc h₁, fun hc => absurd hc h₂⟩,
      fun _ => hsame.fine.toConsented⟩

/-- When a message has the consent it needs: always where its handlers check, and for the others
where the account they take from is listed or has nothing taken. -/
def ConsentGiven (env : Env) (l : Ledger) (msg : Message) : Prop :=
  match msg.type with
  | .transfer => runsSystem l msg.code = true → ∀ t, env.codec.transfer msg.data = some t →
      t.source = t.dest ∨ t.source ∈ msg.authorized
  | .votebuilder => runsSystem l msg.code = true → ∀ vp, env.codec.votebuilder msg.data = some vp →
      vp.voter ∈ msg.authorized ∨ KeepsVote l vp
  | .regbuilder => runsSystem l msg.code = true → ∀ reg, env.codec.regbuilder msg.data = some reg →
      reg.builder ∈ msg.authorized ∨ builderKey l reg.builder = reg.builderKey
  | .unregbuilder => runsSystem l msg.code = true → ∀ b, env.codec.unregbuilder msg.data = some b →
      b ∈ msg.authorized ∨ builderKey l b = 0
  | .regproxy => runsSystem l msg.code = true → ∀ name, env.codec.regproxy msg.data = some name →
      name ∈ msg.authorized
  | .unregproxy => runsSystem l msg.code = true → ∀ name, env.codec.unregproxy msg.data = some name →
      name ∈ msg.authorized
  | .revoke =>
    (scopeOf l msg.code = some .erc20 → ∀ name tok, env.codec.revokeerc20 msg.data = some name →
      l.erc20s.find? name = some tok → tok.ownerName ∈ msg.authorized) ∧
    (scopeOf l msg.code = some .erc721 → ∀ name tok, env.codec.revokeerc721 msg.data = some name →
      l.erc721s.find? name = some tok → tok.ownerName ∈ msg.authorized)
  | _ => True

theorem execMessage_consented_iff (h : execMessage env trx currentTime msg db usedGas = .ok s') :
    Consented msg.authorized db.toLedger s'.db.toLedger ↔ ConsentGiven env db.toLedger msg := by
  unfold ConsentGiven
  split
  next htype => exact transfer_consented_iff htype h
  next htype => exact votebuilder_consented_iff htype h
  next htype => exact regbuilder_consented_iff htype h
  next htype => exact unregbuilder_consented_iff htype h
  next htype =>
    exact proxy_consented_iff (by decide) (by rw [htype]; rfl) (fun hr => regProxy_ok hr) h
  next htype =>
    exact proxy_consented_iff (by decide) (by rw [htype]; rfl) (fun hr => unregProxy_ok hr) h
  next htype => exact revoke_consented_iff htype h
  next h₁ h₂ h₃ h₄ h₅ h₆ h₇ =>
    have hchecks : checksItself msg.type = true := by
      cases htype : msg.type <;> simp_all [checksItself]
    simp only [iff_true]
    exact (execMessage_invariant (P := Fine msg.authorized db.toLedger) h (fun hrun => hrun.fine hchecks)
      fun hP hrun => hP.trans (hrun.fine hchecks)).toConsented

end Unchecked

end XmaxChain
