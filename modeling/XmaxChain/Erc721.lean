import Mathlib.Logic.Relation
import XmaxChain.TrxContext

/-!
# ERC721 tokens

A minted id has one row, whose owner a transfer changes. The rows are unique by token and owner
too, so an account can hold one id of a token: a second one is refused, by an exception for a mint,
and for a transfer by erasing the row that was to change.
-/

namespace XmaxChain

variable {env : Env} {ctx : MessageContext} {s r : HandlerState} {l l' : Ledger}

/-- The account holds no id of the token but, perhaps, the given one. -/
def HoldsNoOther (l : Ledger) (token : AssetSymbol) (owner : AccountName) (id : TokenId) : Prop :=
  ∀ id', id' ≠ id → l.erc721Accounts.find? (token, id') ≠ some owner

theorem erc721OwnerTaken_eq_false {token : AssetSymbol} {owner : AccountName} {id : TokenId} :
    erc721OwnerTaken l token owner id = false ↔ HoldsNoOther l token owner id := by
  simp only [erc721OwnerTaken, List.any_eq_false, Bool.and_eq_true, decide_eq_true_eq, not_and]
  constructor
  · intro h id' hne hrow
    exact h _ (Table.mem_rows_of_find? hrow) ⟨rfl, hne⟩ rfl
  · rintro h ⟨⟨token', id'⟩, owner'⟩ hmem ⟨rfl, hne⟩ rfl
    exact h id' hne (Table.find?_of_mem_rows hmem)

/-! ## One mint, one transfer -/

section Mint

variable {t : Types.MintErc721} {token : Erc721Token}

/-- A mint that the owner of the token has signed, in scope, of a token that is neither stopped nor
revoked. -/
structure MintReady (env : Env) (ctx : MessageContext) (l : Ledger) (t : Types.MintErc721)
    (token : Erc721Token) : Prop where
  data : env.codec.minterc721 ctx.msg.data = some t
  issued : l.erc721s.find? t.tokenName = some token
  revoked : token.revoked = 0
  stopmint : token.stopmint = 0
  scope : token.ownerName ∈ ctx.trx.scope
  auth : token.ownerName ∈ ctx.authorized

/-- What a mint should do: go through exactly where the id is not minted yet, and then give it to
the owner of the token. -/
def MintSound (env : Env) (ctx : MessageContext) (s : HandlerState) (t : Types.MintErc721)
    (token : Erc721Token) : Prop :=
  ((∃ r, xmaxErc721Mint env ctx s = .ok r) ↔
    s.ledger.erc721Accounts.find? (t.tokenName, t.tokenId) = none) ∧
  ∀ r, xmaxErc721Mint env ctx s = .ok r → ∀ k, r.ledger.erc721Accounts.find? k
    = if k = (t.tokenName, t.tokenId) then some token.ownerName else s.ledger.erc721Accounts.find? k

theorem MintReady.succeeds_iff (h : MintReady env ctx s.ledger t token) :
    (∃ r, xmaxErc721Mint env ctx s = .ok r) ↔
      s.ledger.erc721Accounts.find? (t.tokenName, t.tokenId) = none ∧
        HoldsNoOther s.ledger t.tokenName token.ownerName t.tokenId := by
  rw [← erc721OwnerTaken_eq_false]
  constructor
  · rintro ⟨r, hr⟩
    obtain ⟨t', token', rows, N, ht', htoken', hfree, hrows, -⟩ := xmaxErc721Mint_ok hr
    obtain rfl : t = t' := Option.some_inj.1 (h.data.symm.trans ht')
    obtain rfl : token = token' := Option.some_inj.1 (h.issued.symm.trans htoken')
    exact ⟨(Table.create?_eq_some hrows).1, hfree⟩
  · rintro ⟨hnone, hfree⟩
    obtain ⟨rows, hrows⟩ := Table.exists_create? token.ownerName hnone
    have hresult : xmaxErc721Mint env ctx s = .ok ⟨{ s.ledger with erc721Accounts := rows },
        requireRecipient ctx token.ownerName s.notified⟩ := by
      simp only [xmaxErc721Mint, validateTokenNotRevoke, validateTokenCanmint, bind_eq_ok,
        unpackAs_eq_ok, requireAuthorization_eq_ok, requireScope_eq_ok, dbGet_eq_ok, fcAssert_eq_ok,
        decide_eq_true_eq]
      refine ⟨t, h.data, token, h.issued, (), h.revoked, (), h.stopmint, (), h.scope, (), h.auth, (),
        by simp [hnone], ?_⟩
      rw [if_neg (by simp [hfree])]
      simp only [bind_eq_ok, dbCreate_eq_ok]
      exact ⟨rows, hrows, rfl⟩
    exact ⟨_, hresult⟩

theorem MintReady.sound_iff (h : MintReady env ctx s.ledger t token) :
    MintSound env ctx s t token ↔
      (s.ledger.erc721Accounts.find? (t.tokenName, t.tokenId) = none →
        HoldsNoOther s.ledger t.tokenName token.ownerName t.tokenId) := by
  unfold MintSound
  rw [h.succeeds_iff]
  constructor
  · rintro ⟨hiff, -⟩ hnone
    exact (hiff.2 hnone).2
  · intro hcond
    refine ⟨⟨fun hboth => hboth.1, fun hnone => ⟨hnone, hcond hnone⟩⟩, fun r hr k => ?_⟩
    obtain ⟨t', token', rows, N, ht', htoken', -, hrows, rfl⟩ := xmaxErc721Mint_ok hr
    obtain rfl : t = t' := Option.some_inj.1 (h.data.symm.trans ht')
    obtain rfl : token = token' := Option.some_inj.1 (h.issued.symm.trans htoken')
    exact (Table.create?_eq_some hrows).2 k

end Mint

section Transfer

variable {t : Types.TransferFromErc721}

/-- A transfer that the owner of the id has signed, in scope, of a token that is not revoked. -/
structure Transfer721Ready (env : Env) (ctx : MessageContext) (l : Ledger)
    (t : Types.TransferFromErc721) : Prop where
  data : env.codec.transferfromerc721 ctx.msg.data = some t
  auth : t.source ∈ ctx.authorized
  scopeSource : t.source ∈ ctx.trx.scope
  scopeDest : t.dest ∈ ctx.trx.scope
  token : ∃ token, l.erc721s.find? t.tokenName = some token ∧ token.revoked = 0
  owner : l.erc721Accounts.find? (t.tokenName, t.tokenId) = some t.source

/-- What a transfer should do: go through, and change the owner of its id alone. -/
def Transfer721Sound (env : Env) (ctx : MessageContext) (s : HandlerState)
    (t : Types.TransferFromErc721) : Prop :=
  ∃ r, xmaxErc721Transferfrom env ctx s = .ok r ∧ ∀ k, r.ledger.erc721Accounts.find? k
    = if k = (t.tokenName, t.tokenId) then some t.dest else s.ledger.erc721Accounts.find? k

theorem Transfer721Ready.sound_iff (h : Transfer721Ready env ctx s.ledger t) :
    Transfer721Sound env ctx s t ↔ HoldsNoOther s.ledger t.tokenName t.dest t.tokenId := by
  rw [← erc721OwnerTaken_eq_false]
  constructor
  · rintro ⟨r, hr, -⟩
    obtain ⟨t', N, ht', -, -, hfree, -⟩ := xmaxErc721Transferfrom_ok hr
    obtain rfl : t = t' := Option.some_inj.1 (h.data.symm.trans ht')
    exact hfree
  · intro hfree
    obtain ⟨token, htoken, hzero⟩ := h.token
    have hresult : xmaxErc721Transferfrom env ctx s = .ok
        ⟨{ s.ledger with
            erc721Accounts :=
              s.ledger.erc721Accounts.modify (t.tokenName, t.tokenId) fun _ => t.dest },
          requireRecipient ctx t.dest (requireRecipient ctx t.source s.notified)⟩ := by
      simp only [xmaxErc721Transferfrom, validateTokenNotRevoke, bind_eq_ok, unpackAs_eq_ok,
        requireAuthorization_eq_ok, requireScope_eq_ok, dbGet_eq_ok, fcAssert_eq_ok,
        decide_eq_true_eq]
      refine ⟨t, h.data, (), h.auth, (), h.scopeSource, (), h.scopeDest, token, htoken, (), hzero, (),
        by simp [h.owner], t.source, h.owner, (), rfl, ?_⟩
      rw [if_neg (by simp [hfree])]
      rfl
    refine ⟨_, hresult, fun k => ?_⟩
    rw [Table.find?_modify]
    split_ifs with hk
    · rw [hk, h.owner]
      rfl
    · simp

end Transfer

/-! ## Sequences of messages -/

section Runs

/-- No id that is minted is lost. -/
def KeepsIds (l l' : Ledger) : Prop :=
  ∀ k, (l.erc721Accounts.find? k).isSome → (l'.erc721Accounts.find? k).isSome

theorem KeepsIds.of_eq (h : l'.erc721Accounts = l.erc721Accounts) : KeepsIds l l' := by
  intro k hk
  rwa [h]

theorem KeepsIds.trans {l₁ l₂ : Ledger} (h : KeepsIds l l₁) (h' : KeepsIds l₁ l₂) : KeepsIds l l₂ :=
  fun k hk => h' k (h k hk)

theorem ledgerHandler_keepsIds {scope : NativeScope} {type : FuncName} {f : LedgerHandler}
    (found : ledgerHandler env scope type = some f) (ran : f ctx s = .ok r) :
    KeepsIds s.ledger r.ledger := by
  cases scope with
  | invalid => simp [ledgerHandler] at found
  | system =>
    by_cases h20 : type = .adderc20
    · subst h20
      cases found
      obtain ⟨_, -, -, _, _, -, -, hr⟩ := xmaxSystemAdderc20_ok ran
      rw [hr]
      exact .of_eq rfl
    by_cases h721 : type = .adderc721
    · subst h721
      cases found
      obtain ⟨_, -, _, -, hr⟩ := xmaxSystemAdderc721_ok ran
      rw [hr]
      exact .of_eq rfl
    · exact .of_eq (systemHandler_sameTokens found h20 h721 ran).erc721Accounts
  | erc20 =>
    rw [erc20Handler_rest found ran]
    exact .of_eq rfl
  | erc721 =>
    cases type <;> simp only [ledgerHandler, reduceCtorEq] at found <;> cases found
    case erc721.mint.refl =>
      obtain ⟨t, _, rows, _, -, -, -, hrows, rfl⟩ := xmaxErc721Mint_ok ran
      intro k hk
      dsimp only
      rw [(Table.create?_eq_some hrows).2]
      split_ifs
      · rfl
      · exact hk
    case erc721.stopmint.refl =>
      obtain ⟨_, _, rfl⟩ := xmaxErc721Stopmint_ok ran
      exact .of_eq rfl
    case erc721.transferfrom.refl =>
      obtain ⟨t, _, -, -, -, -, rfl⟩ := xmaxErc721Transferfrom_ok ran
      intro k hk
      simpa using hk
    case erc721.revoke.refl =>
      obtain ⟨_, _, -, -, -, rfl⟩ := xmaxErc721Revoke_ok ran
      exact .of_eq rfl

theorem RunOn.keepsIds {N N' : List AccountName} {n : Bool} (h : RunOn env ctx l N n l' N') :
    KeepsIds l l' := by
  cases h with
  | handler acc f r l' account found ran same =>
    exact (ledgerHandler_keepsIds found ran).trans (.of_eq same.erc721Accounts)
  | addaccount acc create r l' account scope type data ran same =>
    exact (KeepsIds.of_eq (addaccountTokens_sameTokens ran).erc721Accounts).trans
      (.of_eq same.erc721Accounts)
  | silent acc l' account unknown same => exact .of_eq same.erc721Accounts

/-- One message runs on one account. -/
def MessageRun (env : Env) (l l' : Ledger) : Prop :=
  ∃ ctx N isNotify N', RunOn env ctx l N isNotify l' N'

theorem keepsIds_of_runs (h : Relation.ReflTransGen (MessageRun env) l l') : KeepsIds l l' := by
  induction h with
  | refl => exact fun _ hk => hk
  | tail _ hrun ih =>
    obtain ⟨_, _, _, _, hrun⟩ := hrun
    exact ih.trans hrun.keepsIds

end Runs

/-- An id that is minted has one owner from then on; and a mint by the owner of the token gives it a
new id, and a transfer by the owner of an id gives that to any account, if and only if the account
that is to have it holds no other id of the token. -/
theorem erc721_owned (env : Env) :
    (∀ l l', Relation.ReflTransGen (MessageRun env) l l' →
      ∀ k, (l.erc721Accounts.find? k).isSome → ∃! owner, l'.erc721Accounts.find? k = some owner) ∧
    (∀ ctx s t token, MintReady env ctx s.ledger t token →
      (MintSound env ctx s t token ↔
        (s.ledger.erc721Accounts.find? (t.tokenName, t.tokenId) = none →
          HoldsNoOther s.ledger t.tokenName token.ownerName t.tokenId))) ∧
    ∀ ctx s t, Transfer721Ready env ctx s.ledger t →
      (Transfer721Sound env ctx s t ↔ HoldsNoOther s.ledger t.tokenName t.dest t.tokenId) := by
  refine ⟨fun l l' h k hk => ?_, fun _ _ _ _ h => h.sound_iff, fun _ _ _ h => h.sound_iff⟩
  obtain ⟨owner, howner⟩ := Option.isSome_iff_exists.1 (keepsIds_of_runs h k hk)
  exact ⟨owner, howner, fun _ h' => Option.some_inj.1 (h'.symm.trans howner)⟩

/-- Token 9 is account 1's, which has minted id 100 of it. -/
def oneMinted : Ledger where
  accounts := .ofList [(1, { type := .personal }), (9, { type := .erc721 })]
  erc721s := .ofList [(9, { ownerName := 1 })]
  erc721Accounts := .ofList [((9, 100), 1)]

/-- The call that mints an id of token 9. -/
def mintId (id : TokenId) : MessageContext where
  trx := { scope := [1] }
  msg := ⟨9, .mint, [⟨1, xmaxActiveName⟩], [9, id]⟩
  code := 9
  currentTime := 0

/-- The call of account 1 that issues token 9. -/
def issueErc721 : MessageContext where
  trx := { scope := [1] }
  msg := ⟨1, .adderc721, [⟨1, xmaxActiveName⟩], [1, 9]⟩
  code := 1
  currentTime := 0

def noErc721 : Ledger where
  accounts := .ofList [(1, { type := .personal })]

theorem oneMinted_reached : Relation.ReflTransGen (MessageRun fieldEnv) noErc721 oneMinted := by
  have hissue : MessageRun fieldEnv noErc721 { oneMinted with erc721Accounts := .empty } :=
    ⟨issueErc721, [], false, [], .handler { type := .personal } (xmaxSystemAdderc721 fieldEnv)
      ⟨{ oneMinted with erc721Accounts := .empty }, []⟩ _ rfl rfl rfl (.refl _)⟩
  have hmint : MessageRun fieldEnv { oneMinted with erc721Accounts := .empty } oneMinted :=
    ⟨mintId 100, [], false, [1], .handler { type := .erc721 } (xmaxErc721Mint fieldEnv)
      ⟨oneMinted, [1]⟩ _ rfl rfl rfl (.refl _)⟩
  exact (Relation.ReflTransGen.single hissue).tail hmint

theorem mintId_ready (id : TokenId) :
    MintReady fieldEnv (mintId id) oneMinted ⟨9, id⟩ { ownerName := 1 } :=
  ⟨rfl, rfl, rfl, rfl, List.mem_cons_self, List.mem_cons_self⟩

theorem erc721_owned_hundred :
    MintSound fieldEnv (mintId 100) ⟨oneMinted, []⟩ ⟨9, 100⟩ { ownerName := 1 } ∧
      ∃! owner, oneMinted.erc721Accounts.find? (9, 100) = some owner :=
  ⟨((erc721_owned fieldEnv).2.1 _ _ _ _ (mintId_ready 100)).2 fun hnone => absurd hnone (by decide),
    (erc721_owned fieldEnv).1 _ _ .refl _ rfl⟩

/-- The owner of the token mints a second id of it. -/
theorem second_mint_refused :
    Relation.ReflTransGen (MessageRun fieldEnv) noErc721 oneMinted ∧
      MintReady fieldEnv (mintId 101) oneMinted ⟨9, 101⟩ { ownerName := 1 } ∧
      ¬ MintSound fieldEnv (mintId 101) ⟨oneMinted, []⟩ ⟨9, 101⟩ { ownerName := 1 } := by
  refine ⟨oneMinted_reached, mintId_ready 101, fun hsound => ?_⟩
  have hcond := (MintReady.sound_iff (s := ⟨oneMinted, []⟩) (mintId_ready 101)).1 hsound rfl
  exact hcond 100 (by decide) rfl

end XmaxChain
