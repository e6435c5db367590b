import XmaxChain.Conservation

/-!
# Who can stake

A lock adds to the row of locked tokens of the account that it is for. Creating an account makes its
row of tokens and its two authorities, but neither this nor anything else makes a row of locked
tokens, so no lock goes through.
-/

namespace XmaxChain

/-! ## The rows of an account -/

/-- No account becomes a personal one, no row of tokens goes and no row of locked tokens comes. -/
structure KeepsRows (l l' : Ledger) : Prop where
  personal : ∀ a acc, l'.accounts.find? a = some acc → acc.type = .personal →
    ∃ acc₀, l.accounts.find? a = some acc₀ ∧ acc₀.type = .personal
  tokens : ∀ a, (l.tokens.find? a).isSome → (l'.tokens.find? a).isSome
  resources : ∀ a, l.resources.find? a = none → l'.resources.find? a = none

section Keeps

variable {env : Env} {ctx : MessageContext} {l l' l'' : Ledger} {s r : HandlerState}

theorem KeepsRows.refl (l : Ledger) : KeepsRows l l :=
  ⟨fun _ acc h ht => ⟨acc, h, ht⟩, fun _ h => h, fun _ h => h⟩

theorem KeepsRows.trans (h : KeepsRows l l') (h' : KeepsRows l' l'') : KeepsRows l l'' := by
  refine ⟨fun a acc ha ht => ?_, fun a ha => h'.tokens a (h.tokens a ha),
    fun a ha => h'.resources a (h.resources a ha)⟩
  obtain ⟨acc₁, ha₁, ht₁⟩ := h'.personal a acc ha ht
  exact h.personal a acc₁ ha₁ ht₁

theorem KeepsRows.of_eq (accounts : l'.accounts = l.accounts) (tokens : l'.tokens = l.tokens)
    (resources : l'.resources = l.resources) : KeepsRows l l' :=
  ⟨fun a acc ha ht => ⟨acc, accounts ▸ ha, ht⟩, fun a ha => by rwa [tokens],
    fun a ha => by rwa [resources]⟩

theorem KeepsRows.of_votes (h : VotesOnly l l') : KeepsRows l l' := by
  have hrest := h.rest
  rw [hrest]
  exact .of_eq rfl rfl rfl

theorem KeepsRows.newAccount {name : AccountName} {type : AccountType} (hne : type ≠ .personal)
    (h : xmaxNewAccount ctx l name type = .ok l') : KeepsRows l l' := by
  simp only [xmaxNewAccount, bind_eq_ok, dbCreate_eq_ok] at h
  obtain ⟨accounts, hcreate, h⟩ := h
  cases h
  refine ⟨fun a acc ha ht => ?_, fun a ha => ha, fun a ha => ha⟩
  change accounts.find? a = some acc at ha
  rw [(Table.create?_eq_some hcreate).2] at ha
  split_ifs at ha
  · cases ha
    exact absurd ht hne
  · exact ⟨acc, ha, ht⟩

theorem KeepsRows.installContract {name : AccountName} {code codeAbi : Bytes}
    (h : installContract env ctx l name code codeAbi = .ok l') : KeepsRows l l' := by
  simp only [XmaxChain.installContract, bind_eq_ok] at h
  obtain ⟨-, -, _, -, h⟩ := h
  split at h
  · cases h
    refine ⟨fun a acc ha ht => ?_, fun a ha => ha, fun a ha => ha⟩
    simp only [Table.find?_modify, Option.map_eq_some_iff] at ha
    obtain ⟨acc₀, ha₀, rfl⟩ := ha
    refine ⟨acc₀, ha₀, ?_⟩
    split_ifs at ht <;> exact ht
  · cases h

/-- Every handler on the ledger keeps the rows. -/
theorem ledgerHandler_keepsRows {scope : NativeScope} {type : FuncName} {h : LedgerHandler}
    (found : ledgerHandler env scope type = some h) (ran : h ctx s = .ok r) :
    KeepsRows s.ledger r.ledger := by
  cases scope with
  | invalid => simp [ledgerHandler] at found
  | erc20 =>
    rw [erc20Handler_rest found ran]
    exact .of_eq rfl rfl rfl
  | erc721 =>
    rw [erc721Handler_rest found ran]
    exact .of_eq rfl rfl rfl
  | system =>
    cases type <;> simp only [ledgerHandler, reduceCtorEq] at found <;> cases found
    case system.addcontract.refl =>
      simp only [xmaxSystemAddcontract, bind_eq_ok] at ran
      obtain ⟨_, -, -, -, l₁, h₁, l₂, h₂, ran⟩ := ran
      cases ran
      exact (KeepsRows.newAccount (by decide) h₁).trans (.installContract h₂)
    case system.adderc20.refl =>
      simp only [xmaxSystemAdderc20, bind_eq_ok] at ran
      obtain ⟨_, -, _, -, -, -, -, -, l₁, h₁, -, -, _, -, -, -, _, -, ran⟩ := ran
      cases ran
      exact (KeepsRows.newAccount (by decide) h₁).trans (.of_eq rfl rfl rfl)
    case system.adderc721.refl =>
      simp only [xmaxSystemAdderc721, bind_eq_ok] at ran
      obtain ⟨_, -, -, -, -, -, _, -, -, -, l₁, h₁, -, -, _, -, ran⟩ := ran
      cases ran
      exact (KeepsRows.newAccount (by decide) h₁).trans (.of_eq rfl rfl rfl)
    case system.setcode.refl =>
      simp only [xmaxSystemSetjscode, bind_eq_ok] at ran
      obtain ⟨_, -, -, -, -, -, -, -, l₁, h₁, ran⟩ := ran
      cases ran
      exact .installContract h₁
    case system.transfer.refl =>
      obtain ⟨t, _, -, -, -, -, -, rfl⟩ := xmaxSystemTransfer_ok ran
      exact ⟨fun a acc ha ht => ⟨acc, ha, ht⟩, fun a ha => by simpa using ha, fun a ha => ha⟩
    case system.lock.refl =>
      obtain ⟨t, _, -, -, -, -, -, -, hvotes, -⟩ := xmaxSystemLock_ok ran
      refine KeepsRows.trans ?_ (.of_votes (increaseVotes_ok hvotes).1)
      exact ⟨fun a acc ha ht => ⟨acc, ha, ht⟩, fun a ha => by simpa using ha, fun a ha => by simp [ha]⟩
    case system.unlock.refl =>
      obtain ⟨t, _, -, -, -, -, -, hvotes, -⟩ := xmaxSystemUnlock_ok ran
      refine KeepsRows.trans ?_ (.of_votes (decreaseVotes_ok hvotes).1)
      exact ⟨fun a acc ha ht => ⟨acc, ha, ht⟩, fun a ha => ha, fun a ha => by simp [ha]⟩
    case system.votebuilder.refl =>
      obtain ⟨_, -, ⟨-, -, hsame⟩ | ⟨-, _, hmove⟩⟩ := voteBuilder_ok ran
      · rw [hsame]
        exact .refl _
      · exact .of_votes (moveVotes_ok hmove).1
    case system.regbuilder.refl =>
      obtain ⟨-, -, -, hrest, -⟩ := regBuilder_ok ran
      rw [hrest]
      exact .of_eq rfl rfl rfl
    case system.unregbuilder.refl =>
      obtain ⟨-, -, -, hrest, -⟩ := unregBuilder_ok ran
      rw [hrest]
      exact .of_eq rfl rfl rfl
    case system.regproxy.refl =>
      obtain ⟨-, -, -, honly, -⟩ := regProxy_ok ran
      exact .of_votes honly
    case system.unregproxy.refl =>
      obtain ⟨-, -, -, honly, -⟩ := unregProxy_ok ran
      exact .of_votes honly

theorem transferGas_keepsRows {builder payer : AccountName} {gas : ℕ}
    (h : transferGas builder l payer gas = .ok l') : KeepsRows l l' := by
  unfold transferGas at h
  split_ifs at h
  · cases h
    exact .refl _
  · simp only [bind_eq_ok] at h
    obtain ⟨_, -, _, -, -, -, h⟩ := h
    cases h
    exact ⟨fun a acc ha ht => ⟨acc, ha, ht⟩, fun a ha => by simpa using ha, fun a ha => ha⟩

end Keeps

/-- Personal accounts have their tokens and both authorities, and nobody has a row of locked tokens. -/
structure PersonalRows (db : AuthDb) : Prop where
  tokens : ∀ a acc, db.accounts.find? a = some acc → acc.type = .personal →
    (db.tokens.find? a).isSome
  owner : ∀ a acc, db.accounts.find? a = some acc → acc.type = .personal →
    (db.authorities.find? (a, xmaxOwnerName)).isSome
  active : ∀ a acc, db.accounts.find? a = some acc → acc.type = .personal →
    (db.authorities.find? (a, xmaxActiveName)).isSome
  noResource : ∀ a, db.resources.find? a = none

section Rows

variable {env : Env} {ctx : MessageContext} {db db' : AuthDb}

theorem PersonalRows.of_keeps (h : PersonalRows db) (hk : KeepsRows db.toLedger db'.toLedger)
    (ha : db'.authorities = db.authorities) : PersonalRows db' := by
  refine ⟨fun a acc hacc ht => ?_, fun a acc hacc ht => ?_, fun a acc hacc ht => ?_,
    fun a => hk.resources a (h.noResource a)⟩
  all_goals obtain ⟨acc₀, hacc₀, ht₀⟩ := hk.personal a acc hacc ht
  · exact hk.tokens a (h.tokens a acc₀ hacc₀ ht₀)
  · rw [ha]
    exact h.owner a acc₀ hacc₀ ht₀
  · rw [ha]
    exact h.active a acc₀ hacc₀ ht₀

/-- The part of `addaccount` before the authorities makes one personal account, with its tokens. -/
theorem addaccountTokens_rows {create : Types.AddAccount} {l l' : Ledger}
    (h : addaccountTokens ctx create l = .ok l') :
    (∀ a acc, l'.accounts.find? a = some acc → acc.type = .personal →
      a = create.name ∨ l.accounts.find? a = some acc) ∧
    (∀ a, a = create.name ∨ (l.tokens.find? a).isSome → (l'.tokens.find? a).isSome) ∧
    l'.resources = l.resources := by
  simp only [addaccountTokens, xmaxNewAccount, bind_eq_ok, dbCreate_eq_ok] at h
  obtain ⟨-, -, -, -, -, -, l₁, ⟨accounts, haccounts, h₁⟩, _, -, -, -, tokens, htokens, h⟩ := h
  cases h₁
  cases h
  refine ⟨fun a acc ha _ => ?_, fun a ha => ?_, rfl⟩
  · change accounts.find? a = some acc at ha
    rw [(Table.create?_eq_some haccounts).2] at ha
    split_ifs at ha with hname
    · exact .inl hname
    · exact .inr ha
  · change (tokens.find? a).isSome = true
    rw [(Table.create?_eq_some htokens).2]
    split_ifs with hname
    · rfl
    · simpa using ha.resolve_left hname

theorem addAuthority_rows {owner : AccountName} {name : AuthorityName} {parent : ℕ}
    {auth : Types.Authority} (h : addAuthority ctx db owner name parent auth = .ok db')
    (k : AccountName × AuthorityName)
    (hk : k = (owner, name) ∨ (db.authorities.find? k).isSome) :
    (db'.authorities.find? k).isSome := by
  simp only [addAuthority, bind_eq_ok, dbCreate_eq_ok] at h
  obtain ⟨authorities, hcreate, h⟩ := h
  cases h
  change (authorities.find? k).isSome = true
  rw [(Table.create?_eq_some hcreate).2]
  split_ifs with heq
  · rfl
  · exact hk.resolve_left heq

theorem PersonalRows.handler {scope : NativeScope} {type : FuncName} {f : NativeHandler}
    {s r : DbState} (found : findNativeHandler env scope type = some f) (ran : f ctx s = .ok r)
    (h : PersonalRows s.db) : PersonalRows r.db := by
  unfold findNativeHandler at found
  split at found
  · cases found
    simp only [xmaxSystemAddaccount, bind_eq_ok] at ran
    obtain ⟨create, -, l, hl, db₁, h₁, db₂, h₂, ran⟩ := ran
    cases ran
    obtain ⟨hpersonal, htokens, hresources⟩ := addaccountTokens_rows hl
    have hledger : db₂.toLedger = l := (addAuthority_ledger h₂).trans (addAuthority_ledger h₁)
    -- the authorities of the new account, and of those that were there
    have hauth : ∀ a name, a = create.name ∧ (name = xmaxOwnerName ∨ name = xmaxActiveName) ∨
        (s.db.authorities.find? (a, name)).isSome → (db₂.authorities.find? (a, name)).isSome := by
      rintro a name (⟨rfl, rfl | rfl⟩ | hold)
      · exact addAuthority_rows h₂ _ (.inr (addAuthority_rows h₁ _ (.inl rfl)))
      · exact addAuthority_rows h₂ _ (.inl rfl)
      · exact addAuthority_rows h₂ _ (.inr (addAuthority_rows h₁ _ (.inr hold)))
    refine ⟨fun a acc hacc ht => ?_, fun a acc hacc ht => hauth a _ ?_,
      fun a acc hacc ht => hauth a _ ?_, fun a => ?_⟩
    · change (db₂.tokens.find? a).isSome = true
      rw [hledger]
      refine htokens a ((hpersonal a acc (hledger ▸ hacc) ht).imp_right fun hold => ?_)
      exact h.tokens a acc hold ht
    · refine (hpersonal a acc (hledger ▸ hacc) ht).imp (fun hname => ⟨hname, .inl rfl⟩) fun hold => ?_
      exact h.owner a acc hold ht
    · refine (hpersonal a acc (hledger ▸ hacc) ht).imp (fun hname => ⟨hname, .inr rfl⟩) fun hold => ?_
      exact h.active a acc hold ht
    · change db₂.resources.find? a = none
      rw [hledger, hresources]
      exact h.noResource a
  · obtain ⟨g, hg, rfl⟩ := Option.map_eq_some_iff.1 found
    obtain ⟨r', hr', ran⟩ := bind_eq_ok.1 ran
    cases ran
    exact h.of_keeps (ledgerHandler_keepsRows hg hr') rfl

theorem PersonalRows.execOneMessage {isNotify : Bool} {s s' : ExecState}
    (hrun : execOneMessage env ctx isNotify s = .ok s') (h : PersonalRows s.db) :
    PersonalRows s'.db :=
  execOneMessage_keeps (fun hf hran h₀ => h₀.handler hf hran)
    (fun _ _ _ h₀ => h₀.of_keeps (.of_eq rfl rfl rfl) rfl) hrun h

end Rows

/-! ## Staking -/

/-- What `create_native_account` makes before the first message: the system account and all tokens. -/
def preparedData (initialTimestamp : ℕ) : AuthDb where
  accounts := .ofList [(xmaxContractName, { type := .system, creationDate := initialTimestamp })]
  tokens := .ofList [(xmaxContractName, initialTokenSupply)]

/-- The databases that messages and gas transfers lead to from the prepared one. What fails is undone,
back to a database that was reached before. -/
inductive StakingRun (env : Env) : AuthDb → Prop
  | prepared (initialTimestamp : ℕ) : StakingRun env (preparedData initialTimestamp)
  | message {ctx : MessageContext} {isNotify : Bool} {s s' : ExecState}
      (before : StakingRun env s.db) (run : execOneMessage env ctx isNotify s = .ok s') :
      StakingRun env s'.db
  | gas {db : AuthDb} {l : Ledger} {builder payer : AccountName} {gasUsed : ℕ}
      (before : StakingRun env db) (moved : transferGas builder db.toLedger payer gasUsed = .ok l) :
      StakingRun env { db with toLedger := l }

/-- A lock that is authorised, in scope, of a positive amount and covered. -/
structure LockAllowed (env : Env) (ctx : MessageContext) (db : AuthDb) (lock : Types.Lock) : Prop where
  data : env.codec.lock ctx.msg.data = some lock
  positive : 0 < lock.amount
  scope : lock.dest ∈ ctx.trx.scope ∧ lock.source ∈ ctx.trx.scope ∧ xmaxContractName ∈ ctx.trx.scope
  authorized : lock.source ∈ ctx.authorized
  covered : lock.amount ≤ mainToken db.toLedger lock.source

/-- A personal account has one row of tokens, one of locked tokens and both authorities, and every
allowed lock for it goes through and leaves it with as much staked as locked. -/
structure CanStake (env : Env) (db : AuthDb) (a : AccountName) : Prop where
  token : ∃ token, db.tokens.find? a = some token
  resource : ∃ resource, db.resources.find? a = some resource
  owner : ∃ obj, db.authorities.find? (a, xmaxOwnerName) = some obj
  active : ∃ obj, db.authorities.find? (a, xmaxActiveName) = some obj
  lock : ∀ ctx lock notified, LockAllowed env ctx db lock → lock.dest = a →
    ∃ r, xmaxSystemLock env ctx ⟨db.toLedger, notified⟩ = .ok r ∧
      staked r.ledger a = lockedToken r.ledger a

section Accounts

variable {env : Env} {db : AuthDb}

theorem preparedData_not_personal {t : ℕ} {a : AccountName} {acc : AccountObject}
    (h : (preparedData t).accounts.find? a = some acc) : acc.type ≠ .personal := by
  have hmem := Table.mem_rows_of_find? h
  have hrows : (preparedData t).accounts.rows
      = [(xmaxContractName, { type := .system, creationDate := t })] := rfl
  rw [hrows, List.mem_singleton] at hmem
  cases hmem
  simp

theorem StakingRun.rows (h : StakingRun env db) : PersonalRows db := by
  induction h with
  | prepared initialTimestamp =>
    have hnone : ∀ a acc, (preparedData initialTimestamp).accounts.find? a = some acc →
        acc.type ≠ .personal := fun a acc => preparedData_not_personal
    exact ⟨fun a acc ha ht => absurd ht (hnone a acc ha), fun a acc ha ht => absurd ht (hnone a acc ha),
      fun a acc ha ht => absurd ht (hnone a acc ha), fun _ => rfl⟩
  | message _ run ih => exact ih.execOneMessage run
  | gas _ moved ih => exact ih.of_keeps (transferGas_keepsRows moved) rfl

/-- In every database that is reached personal accounts have their tokens and authorities, but no row
of locked tokens. So all of them can stake just if there are none. -/
theorem every_account_can_stake_iff (h : StakingRun env db) :
    PersonalRows db ∧
      ((∀ a acc, db.accounts.find? a = some acc → acc.type = .personal → CanStake env db a) ↔
        ∀ a acc, db.accounts.find? a = some acc → acc.type ≠ .personal) := by
  have hrows := h.rows
  refine ⟨hrows, fun hstake a acc ha ht => ?_, fun hnone a acc ha ht => absurd ht (hnone a acc ha)⟩
  obtain ⟨resource, hresource⟩ := (hstake a acc ha ht).resource
  rw [hrows.noResource a] at hresource
  cases hresource

end Accounts

/-- The system account issues token 9. -/
def issueNine : MessageContext :=
  ⟨{ scope := [xmaxContractName] },
    ⟨xmaxContractName, .adderc721, [⟨xmaxContractName, xmaxActiveName⟩], [xmaxContractName, 9]⟩,
    xmaxContractName, 0⟩

/-- The token has an account, but not a personal one. -/
theorem can_stake_issued :
    ∃ s, execOneMessage fieldEnv issueNine false ⟨preparedData 0, [xmaxContractName], 0⟩ = .ok s ∧
      (s.db.accounts.find? 9).isSome ∧ PersonalRows s.db ∧
      ∀ a acc, s.db.accounts.find? a = some acc → acc.type = .personal → CanStake fieldEnv s.db a := by
  obtain ⟨s, hrun, hnine, htypes⟩ := exists_ok_of_eval
    (x := execOneMessage fieldEnv issueNine false ⟨preparedData 0, [xmaxContractName], 0⟩)
    (P := fun s => (s.db.accounts.find? 9).isSome = true ∧
      ∀ r ∈ s.db.accounts.rows, r.2.type ≠ .personal) (by decide)
  have hreached : StakingRun fieldEnv s.db :=
    .message (s := ⟨preparedData 0, [xmaxContractName], 0⟩) (.prepared 0) hrun
  obtain ⟨hrows, hstake⟩ := every_account_can_stake_iff hreached
  exact ⟨s, hrun, hnine, hrows, hstake.2 fun a acc ha => htypes _ (Table.mem_rows_of_find? ha)⟩

/-- An environment in which every `addaccount` makes account 5 for the system account. -/
def newAccountEnv : Env :=
  { fieldEnv with codec := { fieldCodec with
    addaccount := fun _ => some ⟨xmaxContractName, 5, ⟨1, [⟨21, 1⟩], []⟩, ⟨1, [⟨21, 1⟩], []⟩, 100⟩ } }

def newAccountContext : MessageContext :=
  ⟨{}, ⟨xmaxContractName, .addaccount, [⟨xmaxContractName, xmaxActiveName⟩], []⟩, xmaxContractName, 0⟩

/-- The system account locks seven tokens for account 5. -/
def lockSevenForFive : MessageContext :=
  ⟨{ scope := [5, xmaxContractName] },
    ⟨xmaxContractName, .lock, [⟨xmaxContractName, xmaxActiveName⟩], [xmaxContractName, 5, 7]⟩,
    xmaxContractName, 0⟩

/-- An account that was just made, and a lock for it that is allowed and fails. -/
theorem new_account_cannot_stake :
    ∃ s, execOneMessage newAccountEnv newAccountContext false ⟨preparedData 0, [xmaxContractName], 0⟩
        = .ok s ∧ StakingRun newAccountEnv s.db ∧
      (∃ acc, s.db.accounts.find? 5 = some acc ∧ acc.type = .personal) ∧
      LockAllowed newAccountEnv lockSevenForFive s.db ⟨xmaxContractName, 5, 7⟩ ∧
      ∀ r, xmaxSystemLock newAccountEnv lockSevenForFive ⟨s.db.toLedger, [xmaxContractName]⟩
        ≠ .ok r := by
  obtain ⟨s, hrun, htype, hcovered, hlock⟩ := exists_ok_of_eval
    (x := execOneMessage newAccountEnv newAccountContext false ⟨preparedData 0, [xmaxContractName], 0⟩)
    (P := fun s => (s.db.accounts.find? 5).map (·.type) = some .personal ∧
      (7 : ℤ) ≤ mainToken s.db.toLedger xmaxContractName ∧
      (xmaxSystemLock newAccountEnv lockSevenForFive ⟨s.db.toLedger, [xmaxContractName]⟩).isOk = false)
    (by decide)
  obtain ⟨acc, hacc, hpersonal⟩ := Option.map_eq_some_iff.1 htype
  refine ⟨s, hrun, .message (s := ⟨preparedData 0, [xmaxContractName], 0⟩) (.prepared 0) hrun,
    ⟨acc, hacc, hpersonal⟩, ⟨rfl, by decide, by decide, by decide, hcovered⟩, fun r hr => ?_⟩
  rw [hr] at hlock
  cases hlock

end XmaxChain
