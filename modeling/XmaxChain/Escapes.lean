import XmaxChain.LinkedAuth

/-!
# What gets past the answer to a transaction

A message names few recipients, so the loop that notifies them ends, and the walk up the authorities
ends because every authority is made after its parent. What is left is one run of a message, the
transfer of an ERC721 id to an account that holds another, and the look-ups of the gas and of the
record of the transaction.
-/

namespace XmaxChain

/-! ## Who is notified -/

section Recipients

/-- The list grew by names out of `R`, none of them twice. -/
structure AddsFrom (R N N' : List AccountName) : Prop where
  mem : ∀ a ∈ N', a ∈ N ∨ a ∈ R
  nodup : N.Nodup → N'.Nodup

variable {env : Env} {ctx : MessageContext} {R N N' N'' : List AccountName} {a : AccountName}

theorem AddsFrom.refl (R N : List AccountName) : AddsFrom R N N := ⟨fun _ h => .inl h, id⟩

theorem AddsFrom.requireRecipient (h : AddsFrom R N N') (ha : a ∈ R) :
    AddsFrom R N (requireRecipient ctx a N') := by
  unfold XmaxChain.requireRecipient
  split_ifs with hold
  · exact h
  · rw [not_or] at hold
    refine ⟨fun b hb => ?_, fun hN => ?_⟩
    · rcases List.mem_append.1 hb with hb | hb
      · exact h.mem b hb
      · rw [List.mem_singleton.1 hb]
        exact .inr ha
    · refine List.Nodup.append (h.nodup hN) (List.nodup_singleton a) ?_
      rw [List.disjoint_singleton]
      exact hold.2

/-- The owner of the token of a name, if there is one. -/
def ownerIn {V : Type} (tokens : Table AssetSymbol V) (owner : V → AccountName)
    (name : Option AssetSymbol) : List AccountName :=
  ((name.bind tokens.find?).map owner).toList

/-- Whom a message may name as a recipient, on whatever account it runs. -/
def recipientsOf (env : Env) (msg : Message) (l : Ledger) : List AccountName :=
  match msg.type with
  | .transfer => (env.codec.transfer msg.data).elim [] fun t => [t.dest, t.source]
  | .lock => (env.codec.lock msg.data).elim [] fun t => [t.dest, t.source]
  | .votebuilder => (env.codec.votebuilder msg.data).elim [] fun t => [t.proxy]
  | .transferfrom => (env.codec.transferfromerc20 msg.data).elim [] (fun t => [t.source, t.dest]) ++
      (env.codec.transferfromerc721 msg.data).elim [] fun t => [t.source, t.dest]
  | .mint => ownerIn l.erc20s (·.ownerName) ((env.codec.minterc20 msg.data).map (·.tokenName)) ++
      ownerIn l.erc721s (·.ownerName) ((env.codec.minterc721 msg.data).map (·.tokenName))
  | .stopmint => ownerIn l.erc20s (·.ownerName) (env.codec.stopminterc20 msg.data) ++
      ownerIn l.erc721s (·.ownerName) (env.codec.stopminterc721 msg.data)
  | _ => []

theorem recipientsOf_length (env : Env) (msg : Message) (l : Ledger) :
    (recipientsOf env msg l).length ≤ 4 := by
  have htwo : ∀ {α : Type} (o : Option α) (f : α → List AccountName) (n : ℕ),
      (∀ x, (f x).length ≤ n) → (o.elim [] f).length ≤ n := by
    intro α o f n hf
    cases o with
    | none => exact Nat.zero_le _
    | some x => exact hf x
  have hone : ∀ o : Option AccountName, o.toList.length ≤ 1 := by
    intro o
    cases o <;> simp
  unfold recipientsOf
  split
  · exact (htwo _ _ 2 fun _ => le_rfl).trans (by decide)
  · exact (htwo _ _ 2 fun _ => le_rfl).trans (by decide)
  · exact (htwo _ _ 1 fun _ => le_rfl).trans (by decide)
  · rw [List.length_append]
    exact Nat.add_le_add (htwo _ _ 2 fun _ => le_rfl) (htwo _ _ 2 fun _ => le_rfl)
  · rw [List.length_append]
    exact (Nat.add_le_add (hone _) (hone _)).trans (by decide)
  · rw [List.length_append]
    exact (Nat.add_le_add (hone _) (hone _)).trans (by decide)
  · simp

theorem ownerIn_modify {V : Type} (tokens : Table AssetSymbol V) (k : AssetSymbol) {f : V → V}
    {owner : V → AccountName} (hf : ∀ v, owner (f v) = owner v) (name : Option AssetSymbol) :
    ownerIn (tokens.modify k f) owner name = ownerIn tokens owner name := by
  cases name with
  | none => rfl
  | some n =>
    simp only [ownerIn, Option.bind_some, Table.find?_modify]
    cases tokens.find? n with
    | none => rfl
    | some t =>
      simp only [Option.map_some]
      split_ifs
      · rw [hf]
      · rfl

theorem mem_ownerIn {V : Type} {tokens : Table AssetSymbol V} {owner : V → AccountName}
    {name : AssetSymbol} {v : V} (h : tokens.find? name = some v) :
    owner v ∈ ownerIn tokens owner (some name) := by
  simp [ownerIn, h]

variable {s r : HandlerState} {scope : NativeScope} {f : LedgerHandler}

theorem voteBuilder_recipients {codec : Codec} (ran : voteBuilder codec ctx s = .ok r) :
    ∃ vp, codec.votebuilder ctx.msg.data = some vp ∧ AddsFrom [vp.proxy] s.notified r.notified := by
  simp only [voteBuilder, bind_eq_ok, unpackAs_eq_ok] at ran
  obtain ⟨vp, hvp, N, hN, -, -, voter, -, -, -, ran⟩ := ran
  have hadds : AddsFrom [vp.proxy] s.notified N := by
    unfold checkVote at hN
    split at hN
    · obtain ⟨-, -, hN⟩ := bind_eq_ok.1 hN
      cases hN
      exact (AddsFrom.refl _ _).requireRecipient (by simp)
    · simp only [bind_eq_ok] at hN
      obtain ⟨-, -, -, -, hN⟩ := hN
      cases hN
      exact .refl _ _
  refine ⟨vp, hvp, ?_⟩
  split at ran
  · cases ran
    exact hadds
  · obtain ⟨l, -, ran⟩ := bind_eq_ok.1 ran
    cases ran
    exact hadds

/-- The handlers of the system contract that name a recipient. -/
theorem systemHandler_recipients (found : ledgerHandler env .system ctx.msg.type = some f)
    (ran : f ctx s = .ok r) : AddsFrom (recipientsOf env ctx.msg s.ledger) s.notified r.notified := by
  have hquiet : r.notified = s.notified → ∀ R, AddsFrom R s.notified r.notified := by
    intro h R
    rw [h]
    exact .refl R _
  unfold recipientsOf
  cases htype : ctx.msg.type <;> simp only [htype, ledgerHandler, reduceCtorEq] at found <;>
    cases found <;> dsimp only
  case transfer =>
    obtain ⟨t, _, ht, -, -, -, -, rfl⟩ := xmaxSystemTransfer_ok ran
    rw [ht]
    exact ((AddsFrom.refl _ _).requireRecipient (by simp)).requireRecipient (by simp)
  case lock =>
    obtain ⟨t, _, ht, -, -, -, -, -, -, hN⟩ := xmaxSystemLock_ok ran
    rw [ht, hN]
    exact ((AddsFrom.refl _ _).requireRecipient (by simp)).requireRecipient (by simp)
  case votebuilder =>
    obtain ⟨vp, hvp, hadds⟩ := voteBuilder_recipients ran
    rw [hvp]
    exact hadds
  case addcontract => exact hquiet (by rw [xmaxSystemAddcontract_ok ran]) _
  case setcode => exact hquiet (by rw [xmaxSystemSetjscode_ok ran]) _
  case adderc20 =>
    obtain ⟨_, -, -, _, _, -, -, hr⟩ := xmaxSystemAdderc20_ok ran
    exact hquiet (by rw [hr]) _
  case adderc721 =>
    obtain ⟨_, -, _, -, hr⟩ := xmaxSystemAdderc721_ok ran
    exact hquiet (by rw [hr]) _
  case unlock =>
    obtain ⟨_, _, -, -, -, -, -, -, hN⟩ := xmaxSystemUnlock_ok ran
    exact hquiet hN _
  case regbuilder =>
    obtain ⟨_, -, hN, -⟩ := regBuilder_ok ran
    exact hquiet hN _
  case unregbuilder =>
    obtain ⟨_, -, hN, -⟩ := unregBuilder_ok ran
    exact hquiet hN _
  case regproxy =>
    obtain ⟨_, -, hN, -⟩ := regProxy_ok ran
    exact hquiet hN _
  case unregproxy =>
    obtain ⟨_, -, hN, -⟩ := unregProxy_ok ran
    exact hquiet hN _

/-- The handlers of the token contracts, which name the owner of a token or both sides of a
transfer. -/
theorem ercHandler_recipients (found : ledgerHandler env scope ctx.msg.type = some f)
    (hscope : scope ≠ .system) (ran : f ctx s = .ok r) :
    AddsFrom (recipientsOf env ctx.msg s.ledger) s.notified r.notified := by
  unfold recipientsOf
  cases scope <;> cases htype : ctx.msg.type <;>
    simp only [htype, ledgerHandler, reduceCtorEq, ne_eq, not_true_eq_false] at found hscope <;>
    cases found <;> dsimp only
  case erc20.transferfrom =>
    obtain ⟨t, _, _, _, _, _, ht, -, -, -, -, -, -, -, -, -, rfl⟩ := xmaxErc20Transferfrom_ok ran
    rw [ht]
    exact ((AddsFrom.refl _ _).requireRecipient (by simp)).requireRecipient (by simp)
  case erc721.transferfrom =>
    simp only [xmaxErc721Transferfrom, bind_eq_ok, unpackAs_eq_ok] at ran
    obtain ⟨t, ht, -, -, -, -, -, -, token, -, -, -, -, -, owner, -, -, -, ran⟩ := ran
    split_ifs at ran
    cases ran
    rw [ht]
    exact ((AddsFrom.refl _ _).requireRecipient (by simp)).requireRecipient (by simp)
  case erc20.mint =>
    obtain ⟨t, token, _, _, _, ht, htoken, -, -, -, rfl⟩ := xmaxErc20Mint_ok ran
    rw [ht]
    exact (AddsFrom.refl _ _).requireRecipient (List.mem_append_left _ (mem_ownerIn htoken))
  case erc20.stopmint =>
    simp only [xmaxErc20Stopmint, bind_eq_ok, unpackAs_eq_ok, dbGet_eq_ok] at ran
    obtain ⟨name, hname, token, htoken, -, -, -, -, -, -, -, -, ran⟩ := ran
    cases ran
    rw [hname]
    exact (AddsFrom.refl _ _).requireRecipient (List.mem_append_left _ (mem_ownerIn htoken))
  case erc721.mint =>
    simp only [xmaxErc721Mint, bind_eq_ok, unpackAs_eq_ok, dbGet_eq_ok] at ran
    obtain ⟨t, ht, token, htoken, -, -, -, -, -, -, -, -, -, -, ran⟩ := ran
    split_ifs at ran
    obtain ⟨rows, -, ran⟩ := bind_eq_ok.1 ran
    cases ran
    rw [ht]
    exact (AddsFrom.refl _ _).requireRecipient (List.mem_append_right _ (mem_ownerIn htoken))
  case erc721.stopmint =>
    simp only [xmaxErc721Stopmint, bind_eq_ok, unpackAs_eq_ok, dbGet_eq_ok] at ran
    obtain ⟨name, hname, token, htoken, -, -, -, -, -, -, -, -, ran⟩ := ran
    cases ran
    rw [hname]
    exact (AddsFrom.refl _ _).requireRecipient (List.mem_append_right _ (mem_ownerIn htoken))
  case erc20.revoke =>
    obtain ⟨_, _, -, -, -, rfl⟩ := xmaxErc20Revoke_ok ran
    exact .refl _ _
  case erc721.revoke =>
    obtain ⟨_, _, -, -, -, rfl⟩ := xmaxErc721Revoke_ok ran
    exact .refl _ _

/-- A message that names the owner of a token leaves the owners as they are. -/
theorem ledgerHandler_sameRecipients (found : ledgerHandler env scope ctx.msg.type = some f)
    (ran : f ctx s = .ok r) :
    recipientsOf env ctx.msg r.ledger = recipientsOf env ctx.msg s.ledger := by
  unfold recipientsOf
  split
  case h_5 htype =>
    cases scope <;> simp only [htype, ledgerHandler, reduceCtorEq] at found <;> cases found
    case erc20.refl =>
      obtain ⟨t, token, _, _, _, -, -, -, -, -, rfl⟩ := xmaxErc20Mint_ok ran
      dsimp only
      rw [ownerIn_modify]
      exact fun _ => rfl
    case erc721.refl =>
      obtain ⟨_, _, _, _, -, -, -, -, rfl⟩ := xmaxErc721Mint_ok ran
      rfl
  case h_6 htype =>
    cases scope <;> simp only [htype, ledgerHandler, reduceCtorEq] at found <;> cases found
    case erc20.refl =>
      obtain ⟨_, _, rfl⟩ := xmaxErc20Stopmint_ok ran
      dsimp only
      rw [ownerIn_modify]
      exact fun _ => rfl
    case erc721.refl =>
      obtain ⟨_, _, rfl⟩ := xmaxErc721Stopmint_ok ran
      dsimp only
      rw [ownerIn_modify]
      exact fun _ => rfl
  all_goals rfl

theorem recipientsOf_congr {l l' : Ledger} (h : SameTables l l') (msg : Message) :
    recipientsOf env msg l' = recipientsOf env msg l := by
  simp only [recipientsOf, h.erc20s, h.erc721s]

/-- Whatever account a message runs on, it names recipients of the message only. -/
theorem RunOn.recipients {l l' : Ledger} {isNotify : Bool} (h : RunOn env ctx l N isNotify l' N') :
    AddsFrom (recipientsOf env ctx.msg l) N N' ∧
      recipientsOf env ctx.msg l' = recipientsOf env ctx.msg l := by
  cases h with
  | handler acc f r l' account found ran same =>
    rw [recipientsOf_congr same]
    refine ⟨?_, ledgerHandler_sameRecipients found ran⟩
    by_cases hscope : getNativeScope acc.type = .system
    · rw [hscope] at found
      exact systemHandler_recipients found ran
    · exact ercHandler_recipients found hscope ran
  | addaccount acc create r l' account scope type data ran same =>
    refine ⟨.refl _ _, ?_⟩
    simp only [recipientsOf, type]
  | silent acc l' account unknown same => exact ⟨.refl _ _, recipientsOf_congr same _⟩

end Recipients

/-! ## Running messages -/

section Kept

variable {env : Env} {ctx : MessageContext} {s r : HandlerState}

theorem regProxy_proxies {codec : Codec} (h : ProxiesKnown s.ledger.voters)
    (ran : regProxy codec ctx s = .ok r) : ProxiesKnown r.ledger.voters := by
  simp only [regProxy, bind_eq_ok] at ran
  obtain ⟨name, -, ran⟩ := ran
  split at ran
  · simp only [bind_eq_ok] at ran
    obtain ⟨-, -, -, -, l, hl, ran⟩ := ran
    cases ran
    rw [(tallyProxied_ok hl).2]
    exact h.congr (proxyOf_modify fun _ => rfl)
  · obtain ⟨voters, hc, ran⟩ := bind_eq_ok.1 ran
    cases ran
    exact h.update (proxyOf_create (dbCreate_eq_ok.1 hc)) fun hp => absurd rfl hp

theorem unregProxy_proxies {codec : Codec} (h : ProxiesKnown s.ledger.voters)
    (ran : unregProxy codec ctx s = .ok r) : ProxiesKnown r.ledger.voters := by
  simp only [unregProxy, bind_eq_ok] at ran
  obtain ⟨name, -, -, -, proxy, -, -, -, l, hl, ran⟩ := ran
  cases ran
  rw [(tallyProxied_ok hl).2]
  exact h.congr (proxyOf_modify fun _ => rfl)

theorem addaccountTokens_voters {create : Types.AddAccount} {l l' : Ledger}
    (h : addaccountTokens ctx create l = .ok l') : l'.voters = l.voters := by
  simp only [addaccountTokens, xmaxNewAccount, bind_eq_ok] at h
  obtain ⟨-, -, -, -, -, -, l₁, ⟨accounts, -, h₁⟩, b, -, -, -, tokens, -, h⟩ := h
  cases h₁
  cases h
  rfl

theorem ledgerHandler_proxies {scope : NativeScope} {type : FuncName} {f : LedgerHandler}
    (found : ledgerHandler env scope type = some f) (ran : f ctx s = .ok r)
    (h : ProxiesKnown s.ledger.voters) : ProxiesKnown r.ledger.voters := by
  cases scope with
  | invalid => simp [ledgerHandler] at found
  | erc20 =>
    rw [erc20Handler_rest found ran]
    exact h
  | erc721 =>
    rw [erc721Handler_rest found ran]
    exact h
  | system =>
    cases type <;> simp only [ledgerHandler, reduceCtorEq] at found <;> cases found
    case system.lock.refl =>
      obtain ⟨_, _, -, -, -, -, -, -, hvotes, -⟩ := xmaxSystemLock_ok ran
      exact increaseVotes_proxies hvotes h
    case system.unlock.refl =>
      obtain ⟨_, _, -, -, -, -, -, hvotes, -⟩ := xmaxSystemUnlock_ok ran
      exact decreaseVotes_proxies hvotes h
    case system.votebuilder.refl =>
      obtain ⟨_, -, ⟨-, -, hsame⟩ | ⟨-, _, hmove⟩⟩ := voteBuilder_ok ran
      · rw [hsame]
        exact h
      · exact moveVotes_proxies h hmove
    case system.regproxy.refl => exact regProxy_proxies h ran
    case system.unregproxy.refl => exact unregProxy_proxies h ran
    case system.addcontract.refl =>
      rw [xmaxSystemAddcontract_ok ran]
      exact h
    case system.setcode.refl =>
      rw [xmaxSystemSetjscode_ok ran]
      exact h
    case system.adderc20.refl =>
      obtain ⟨_, -, -, _, _, -, -, hr⟩ := xmaxSystemAdderc20_ok ran
      rw [hr]
      exact h
    case system.adderc721.refl =>
      obtain ⟨_, -, _, -, hr⟩ := xmaxSystemAdderc721_ok ran
      rw [hr]
      exact h
    case system.transfer.refl =>
      obtain ⟨_, _, -, -, -, -, -, rfl⟩ := xmaxSystemTransfer_ok ran
      exact h
    case system.regbuilder.refl =>
      obtain ⟨_, -, -, hrest, -⟩ := regBuilder_ok ran
      rw [hrest]
      exact h
    case system.unregbuilder.refl =>
      obtain ⟨_, -, -, hrest, -⟩ := unregBuilder_ok ran
      rw [hrest]
      exact h

theorem RunOn.proxies {l l' : Ledger} {N N' : List AccountName} {isNotify : Bool}
    (hrun : RunOn env ctx l N isNotify l' N') (h : ProxiesKnown l.voters) :
    ProxiesKnown l'.voters := by
  cases hrun with
  | handler acc f r l' account found ran same =>
    rw [same.voters]
    exact ledgerHandler_proxies found ran h
  | addaccount acc create r l' account scope type data ran same =>
    rw [same.voters, addaccountTokens_voters ran]
    exact h
  | silent acc l' account unknown same =>
    rw [same.voters]
    exact h

end Kept

/-- The run reaches a transfer of an ERC721 id to an account that holds another id of the token. -/
structure Run.Collides (env : Env) (run : Run) : Prop where
  account : ∃ acc, run.start.db.accounts.find? run.ctx.code = some acc ∧ acc.type = .erc721
  type : run.ctx.msg.type = .transferfrom
  gas : run.isNotify = false →
    u64 (run.start.usedGas + u64 (5 * run.ctx.trx.gas)) ≤ run.ctx.trx.gaslimit
  transfer : XmaxChain.Collides env run.ctx run.start.db.toLedger

section Runs

variable {env : Env} {ctx : MessageContext} {s s' : ExecState} {isNotify : Bool}

theorem nativeHandler_exception {scope : NativeScope} {f : NativeHandler}
    (found : findNativeHandler env scope ctx.msg.type = some f) (h : ProxiesKnown s.db.voters) :
    Throws Fault.isException (runHandler f ctx s) ↔
      ¬ (scope = .erc721 ∧ ctx.msg.type = .transferfrom ∧ Collides env ctx s.db.toLedger) := by
  simp only [runHandler, throws_bind, throws_pure, implies_true, and_true]
  unfold findNativeHandler at found
  split at found
  · rename_i hadd
    cases found
    simp [xmaxSystemAddaccount, addaccountTokens, requireAuthorization, xmaxNewAccount, addAuthority,
      hadd.1]
  · obtain ⟨g, hg, rfl⟩ := Option.map_eq_some_iff.1 found
    simp only [onLedger, throws_bind, throws_pure, implies_true, and_true]
    by_cases hother : scope = .erc721 ∧ ctx.msg.type = .transferfrom
    · rw [hother.1, hother.2] at hg
      cases hg
      rw [xmaxErc721Transferfrom_exception]
      simp [hother]
    · have hthrows : Throws Fault.isException (g ctx ⟨s.db.toLedger, s.notified⟩) :=
        ledgerHandler_exception hg h hother
      simp only [hthrows, true_iff]
      exact fun hc => hother ⟨hc.1, hc.2.1⟩

theorem runNative_exception {acc : AccountObject} (hacc : s.db.accounts.find? ctx.code = some acc)
    (h : ProxiesKnown s.db.voters) :
    Throws Fault.isException (runNative env (getNativeScope acc.type) ctx isNotify s) ↔
      ¬ Run.Collides env ⟨ctx, isNotify, s⟩ := by
  have hscope : getNativeScope acc.type = .erc721 ↔ acc.type = .erc721 := by
    cases acc.type <;> simp [getNativeScope]
  by_cases hreach : acc.type = .erc721 ∧ ctx.msg.type = .transferfrom
  · have hfound : findNativeHandler env (getNativeScope acc.type) ctx.msg.type
        = some (onLedger (xmaxErc721Transferfrom env)) := by
      rw [hreach.1, hreach.2]
      rfl
    have hstep : getNativeHandlerGasstep (getNativeScope acc.type) ctx.msg.type = 5 := by
      rw [hreach.1, hreach.2]
      rfl
    have hrun : Run.Collides env ⟨ctx, isNotify, s⟩ ↔
        (isNotify = false → u64 (s.usedGas + u64 (5 * ctx.trx.gas)) ≤ ctx.trx.gaslimit) ∧
          Collides env ctx s.db.toLedger :=
      ⟨fun hc => ⟨hc.gas, hc.transfer⟩, fun hc => ⟨⟨acc, hacc, hreach.1⟩, hreach.2, hc.1, hc.2⟩⟩
    have hhandler : ∀ gas, Throws Fault.isException
        (runHandler (onLedger (xmaxErc721Transferfrom env)) ctx { s with usedGas := gas }) ↔
          ¬ Collides env ctx s.db.toLedger := by
      intro gas
      refine (nativeHandler_exception (s := { s with usedGas := gas }) hfound h).trans ?_
      simp [hscope.2 hreach.1, hreach.2]
    rw [hrun]
    unfold runNative
    cases isNotify with
    | true => simp [hfound, hhandler s.usedGas]
    | false => simp [hfound, hhandler, hstep]
  · have hquiet : ¬ Run.Collides env ⟨ctx, isNotify, s⟩ := by
      rintro ⟨⟨acc', hacc', htype⟩, hmsg, -, -⟩
      obtain rfl : acc = acc' := Option.some.inj (hacc.symm.trans hacc')
      exact hreach ⟨htype, hmsg⟩
    simp only [hquiet, not_false_eq_true, iff_true]
    have hhandler : ∀ f gas, findNativeHandler env (getNativeScope acc.type) ctx.msg.type = some f →
        Throws Fault.isException (runHandler f ctx { s with usedGas := gas }) := by
      intro f gas hf
      refine (nativeHandler_exception (s := { s with usedGas := gas }) hf h).2 ?_
      rintro ⟨hs, hm, -⟩
      exact hreach ⟨hscope.1 hs, hm⟩
    unfold runNative
    cases hf : findNativeHandler env (getNativeScope acc.type) ctx.msg.type with
    | none => simp [Fault.isException]
    | some f => simp [hhandler f s.usedGas hf, hhandler f _ hf]

/-- Of all runs only such a one is not answered. -/
theorem execOneMessage_fc (h : ProxiesKnown s.db.voters) :
    Throws Fault.isFc (execOneMessage env ctx isNotify s) ↔ ¬ Run.Collides env ⟨ctx, isNotify, s⟩ := by
  simp only [execOneMessage, throws_bind, throws_captureRethrow, throws_pure, implies_true, and_true,
    runCode, dbGet_exception, true_and, dbGet_eq_ok]
  constructor
  · rintro hthrows ⟨⟨acc, hacc, htype⟩, hmsg, hgas, hcollides⟩
    have hnative := hthrows acc hacc
    rw [if_pos (by simp [htype]), throws_bind] at hnative
    have hvalid : fcAssert (getNativeScope acc.type ≠ .invalid)
        "Unknown native scope type of account" = .ok () := by simp [htype, getNativeScope]
    exact (runNative_exception hacc h).1 (hnative.2 () hvalid)
      ⟨⟨acc, hacc, htype⟩, hmsg, hgas, hcollides⟩
  · intro hnot acc hacc
    rw [throws_ite]
    refine ⟨fun _ => ?_, fun _ => by simp⟩
    rw [throws_bind]
    exact ⟨fcAssert_exception _ _, fun _ _ => (runNative_exception hacc h).2 hnot⟩

/-- What holds between the runs of a message. -/
structure Notifying (env : Env) (ctx : MessageContext) (s : ExecState) : Prop where
  known : ProxiesKnown s.db.voters
  nodup : s.notified.Nodup
  named : ∀ a ∈ s.notified, a ∈ ctx.msg.code :: recipientsOf env ctx.msg s.db.toLedger

theorem Notifying.length_le (h : Notifying env ctx s) : s.notified.length ≤ 5 := by
  have hlen : s.notified.length
      ≤ (ctx.msg.code :: recipientsOf env ctx.msg s.db.toLedger).length :=
    (h.nodup.subperm h.named).length_le
  have := recipientsOf_length env ctx.msg s.db.toLedger
  rw [List.length_cons] at hlen
  omega

theorem Notifying.execOneMessage (h : Notifying env ctx s) {account : AccountName}
    (hrun : execOneMessage env { ctx with code := account } isNotify s = .ok s') :
    Notifying env ctx s' := by
  have hrun := execOneMessage_runOn hrun
  obtain ⟨hadds, hsame⟩ := hrun.recipients
  refine ⟨hrun.proxies h.known, hadds.nodup h.nodup, fun a ha => ?_⟩
  rw [show recipientsOf env ctx.msg s'.db.toLedger = recipientsOf env ctx.msg s.db.toLedger from hsame]
  rcases hadds.mem a ha with ha | ha
  · exact h.named a ha
  · exact List.mem_cons_of_mem _ ha

/-- The loop ends, and no run escapes it but one that collides. -/
theorem notifyLoop_fc {fuel i : ℕ} (h : Notifying env ctx s) (hi : i ≤ 5) (hfuel : 6 ≤ fuel + i) :
    Throws Fault.isFc (notifyLoop env ctx fuel i s) ↔
      ∀ run ∈ notifyRuns env ctx fuel i s, ¬ run.Collides env := by
  induction fuel generalizing i s with
  | zero => omega
  | succ fuel ih =>
    unfold notifyLoop notifyRuns
    cases hrec : s.notified[i]? with
    | none => simp
    | some account =>
      have hlt : i < s.notified.length := (List.getElem?_eq_some_iff.1 hrec).1
      have hle := h.length_le
      have hone : Throws Fault.isFc (execOneMessage env { ctx with code := account } true s) ↔ _ :=
        execOneMessage_fc h.known
      simp only [throws_bind, hone, List.forall_mem_cons]
      refine and_congr_right fun _ => ?_
      cases hrun : execOneMessage env { ctx with code := account } true s with
      | error e => simp
      | ok s' =>
        simp only [Except.ok.injEq, forall_eq']
        exact ih (h.execOneMessage hrun) (by omega) (by omega)

variable {trx : SignedTransaction} {t : ℕ}

theorem Notifying.first {msg : Message} {db : AuthDb} (h : ProxiesKnown db.voters) (usedGas : ℕ) :
    Notifying env ⟨trx, msg, msg.code, t⟩ ⟨db, [msg.code], usedGas⟩ :=
  ⟨h, List.nodup_singleton _, fun a ha => by simp [List.mem_singleton.1 ha]⟩

theorem execMessage_fc {msg : Message} {db : AuthDb} {usedGas : ℕ} (h : ProxiesKnown db.voters) :
    Throws Fault.isFc (execMessage env trx t msg db usedGas) ↔
      ∀ run ∈ messageRuns env trx t msg db usedGas, ¬ run.Collides env := by
  have hfirst : Notifying env ⟨trx, msg, msg.code, t⟩ ⟨db, [msg.code], usedGas⟩ := .first h usedGas
  simp only [execMessage, messageRuns, throws_bind, List.forall_mem_cons]
  rw [execOneMessage_fc h]
  refine and_congr_right fun _ => ?_
  cases hrun : execOneMessage env ⟨trx, msg, msg.code, t⟩ false ⟨db, [msg.code], usedGas⟩ with
  | error e => simp
  | ok s =>
    have hs : Notifying env ⟨trx, msg, msg.code, t⟩ s := hfirst.execOneMessage hrun
    have hfew : s.notified.length < maxRecipients := hs.length_le.trans_lt (by decide)
    simp only [Except.ok.injEq, forall_eq', fcAssert_fc, true_and, fcAssert_eq_ok, decide_eq_true_eq,
      hfew, forall_const]
    exact notifyLoop_fc hs (by decide) (by decide)

/-- What every run keeps, a message keeps. -/
theorem execMessage_keeps {P : AuthDb → Prop}
    (step : ∀ {ctx n s s'}, execOneMessage env ctx n s = .ok s' → P s.db → P s'.db) {msg : Message}
    {db : AuthDb} {usedGas : ℕ} (hrun : execMessage env trx t msg db usedGas = .ok s') (h : P db) :
    P s'.db := by
  obtain ⟨s₁, h₁, hloop⟩ := execMessage_run hrun
  have hnotify := notifyLoop_run hloop
  clear hrun hloop
  induction hnotify with
  | refl => exact step h₁ h
  | tail _ hn ih =>
    obtain ⟨account, hn⟩ := hn
    exact step hn ih

theorem execMessages_keeps {P : AuthDb → Prop}
    (step : ∀ {ctx n s s'}, execOneMessage env ctx n s = .ok s' → P s.db → P s'.db)
    {msgs : List Message} {db : AuthDb} {usedGas : ℕ} {r : AuthDb × ℕ}
    (hrun : execMessages env trx t msgs db usedGas = .ok r) (h : P db) : P r.1 := by
  induction msgs generalizing db usedGas with
  | nil =>
    cases hrun
    exact h
  | cons msg msgs ih =>
    simp only [execMessages, bind_eq_ok] at hrun
    obtain ⟨s, hs, hrun⟩ := hrun
    exact ih hrun (execMessage_keeps step hs h)

theorem execOneMessage_proxies (hrun : execOneMessage env ctx isNotify s = .ok s')
    (h : ProxiesKnown s.db.voters) : ProxiesKnown s'.db.voters :=
  (execOneMessage_runOn hrun).proxies h

theorem execMessages_fc {msgs : List Message} {db : AuthDb} {usedGas : ℕ} (h : ProxiesKnown db.voters) :
    Throws Fault.isFc (execMessages env trx t msgs db usedGas) ↔
      ∀ run ∈ trxRuns env trx t msgs db usedGas, ¬ run.Collides env := by
  induction msgs generalizing db usedGas with
  | nil => simp [execMessages, trxRuns]
  | cons msg msgs ih =>
    simp only [execMessages, trxRuns, throws_bind, execMessage_fc h, List.forall_mem_append]
    refine and_congr_right fun _ => ?_
    cases hrun : execMessage env trx t msg db usedGas with
    | error e => simp
    | ok s =>
      simp only [Except.ok.injEq, forall_eq']
      exact ih (execMessage_keeps (P := fun db => ProxiesKnown db.voters) execOneMessage_proxies hrun h)

end Runs

/-! ## The authorities -/

/-- No permission is linked to a function, and an authority is made after the one above it. -/
structure AuthoritiesOk (db : AuthDb) : Prop where
  links : db.links = .empty
  parents : ∀ k obj, db.authorities.find? k = some obj → obj.parent = 0 ∨ obj.parent < obj.id

section Authorities

variable {db : AuthDb}

theorem countP_lt_of_imp {α : Type} {p q : α → Bool} (h : ∀ x, p x = true → q x = true) {l : List α}
    {a : α} (ha : a ∈ l) (hq : q a = true) (hp : p a = false) : l.countP p < l.countP q := by
  induction l with
  | nil => cases ha
  | cons b l ih =>
    have hmono : l.countP p ≤ l.countP q := List.countP_mono_left fun x _ => h x
    rcases List.mem_cons.1 ha with rfl | ha
    · rw [List.countP_cons_of_neg (by simp [hp]), List.countP_cons_of_pos hq]
      omega
    · have hlt := ih ha
      by_cases hb : p b = true
      · rw [List.countP_cons_of_pos hb, List.countP_cons_of_pos (h b hb)]
        omega
      · rw [List.countP_cons_of_neg hb, List.countP_cons]
        omega

/-- The walk goes on to older authorities, so it ends. -/
theorem parentWalk_fc
    (parents : ∀ k obj, db.authorities.find? k = some obj → obj.parent = 0 ∨ obj.parent < obj.id)
    {editor fuel parent : ℕ}
    (hfuel : (db.authorities.rows.countP fun r => decide (r.2.id ≤ parent)) < fuel) :
    Throws Fault.isFc (parentWalk db editor fuel parent) := by
  induction fuel generalizing parent with
  | zero => exact absurd hfuel (Nat.not_lt_zero _)
  | succ fuel ih =>
    unfold parentWalk
    cases hfind : findById db parent with
    | none => simp
    | some obj =>
      simp only [throws_ite, throws_ok, implies_true, true_and]
      intro _ hzero
      obtain ⟨r, hr, rfl⟩ := Option.map_eq_some_iff.1 hfind
      have hid : r.2.id = parent := by simpa using List.find?_some hr
      have hmem := List.mem_of_find?_eq_some hr
      have hlt : r.2.parent < r.2.id :=
        (parents r.1 r.2 (Table.find?_of_mem_rows hmem)).resolve_left hzero
      refine ih ((countP_lt_of_imp (fun x hx => ?_) hmem ?_ ?_).trans_le (Nat.le_of_lt_succ hfuel))
      · have := of_decide_eq_true hx
        exact decide_eq_true (by omega)
      · exact decide_eq_true (by omega)
      · exact decide_eq_false (by omega)

theorem checkLinked_fc (h : AuthoritiesOk db) (special : Bool) (msg : Message) (auth : AccountAuth) :
    Throws Fault.isFc (checkLinked db special msg auth) := by
  have hactive : minLinkedPermission db auth.account msg.code msg.type = some xmaxActiveName := by
    simp [minLinkedPermission, findLinkedPermission, h.links]
  simp only [checkLinked, hactive, throws_ite, throws_ok, throws_bind, getAuthorityObject_fc,
    fcAssert_fc, implies_true, true_and, and_true, parentPermissionValid]
  intros
  refine parentWalk_fc h.parents (Nat.lt_succ_of_le ?_)
  exact List.countP_le_length

/-- An exception of `fc` or an undefined access. -/
def Fault.isFcOrUndefined : Fault → Bool
  | .fc _ | .undefined _ => true
  | _ => false

theorem Throws.orUndefined {α : Type} {x : Except Fault α} (h : Throws Fault.isFc x) :
    Throws Fault.isFcOrUndefined x := fun e he => by
  cases e with
  | fc msg => rfl
  | _ => cases h _ he

theorem Throws.isFc_iff {α : Type} {x : Except Fault α} (h : Throws Fault.isFcOrUndefined x) :
    Throws Fault.isFc x ↔ ¬ ReadsUndefined x := by
  refine ⟨Throws.not_readsUndefined, fun hno e he => ?_⟩
  cases e with
  | fc msg => rfl
  | undefined what => exact absurd ⟨what, he⟩ hno
  | _ => cases h _ he

theorem checkSpecial_throws (codec : Codec) (msg : Message) :
    Throws Fault.isFcOrUndefined (checkSpecial codec db msg) := by
  have hown : ∀ account auths, Throws Fault.isFcOrUndefined (checkOwnAuth account auths) := by
    intro account auths
    unfold checkOwnAuth
    split
    · simp [Fault.isFcOrUndefined]
    · exact Throws.orUndefined (by simp)
  have hassert : ∀ b msg, Throws Fault.isFcOrUndefined (fcAssert b msg) := fun b msg =>
    (fcAssert_fc b msg).orUndefined
  have hunpack : ∀ {α : Type} (o : Option α), Throws Fault.isFcOrUndefined (unpackAs o) := fun o =>
    (unpackAs_fc o).orUndefined
  unfold checkSpecial
  split_ifs
  · simp
  · split
    all_goals simp [hown, hassert, hunpack, checkUpdateauth]

/-- With the authorities as they should be the check throws exceptions of `fc`, unless it reads
what is not there. -/
theorem checkAuthorization_fc (h : AuthoritiesOk db) (codec : Codec) (keys : List PublicKey)
    (messages : List Message) :
    Throws Fault.isFc (checkAuthorization codec db keys messages) ↔
      ¬ ReadsEmpty codec db messages := by
  refine Iff.trans (Throws.isFc_iff ?_) (not_congr checkAuthorization_reads)
  simp only [checkAuthorization, throws_bind, throws_pure, implies_true, and_true]
  refine ⟨throws_foldlM (fun satisfys msg => ?_) _ _, fun satisfys _ => throws_foldlM (fun c a => ?_) _ _⟩
  · simp only [declareAll, throws_bind, checkSpecial_throws, true_and]
    rintro special -
    refine throws_foldlM (fun satisfys auth => ?_) _ _
    simp only [declareAuth, throws_bind, (checkLinked_fc h _ _ _).orUndefined, throws_pure,
      implies_true, and_self]
  · refine Throws.orUndefined ?_
    simp only [checkDeclared, throws_bind, getAuthorityObject_fc, checkWithDepth_fc, implies_true,
      and_self]

theorem throws_mapM {α β : Type} {P : Fault → Bool} {f : α → Except Fault β}
    (h : ∀ a, Throws P (f a)) (xs : List α) : Throws P (xs.mapM f) := by
  induction xs with
  | nil => simp
  | cons x xs ih =>
    rw [List.mapM_cons]
    simp [h x, ih]

theorem checkAuth_fc {cfg : ChainConfig} (h : AuthoritiesOk db) (trx : SignedTransaction) :
    Throws Fault.isFc (checkAuth cfg true db trx) ↔
      ∀ keys, getSignatureKeys cfg trx = .ok keys → ¬ ReadsEmpty cfg.env.codec db trx.messages := by
  simp only [checkAuth, if_true, throws_bind, checkAuthorization_fc h, and_iff_right_iff_imp]
  rintro -
  refine throws_mapM (fun sig => ?_) _
  split <;> simp [Fault.isFc]

theorem AuthoritiesOk.addAuthority {ctx : MessageContext} {db' : AuthDb} {owner : AccountName}
    {name : AuthorityName} {parent : ℕ} {auth : Types.Authority} (h : AuthoritiesOk db)
    (hadd : addAuthority ctx db owner name parent auth = .ok db')
    (hparent : parent = 0 ∨ parent < db.nextAuthority) :
    AuthoritiesOk db' ∧ db'.nextAuthority = db.nextAuthority + 1 := by
  simp only [XmaxChain.addAuthority, bind_eq_ok, dbCreate_eq_ok] at hadd
  obtain ⟨authorities, hc, hadd⟩ := hadd
  cases hadd
  refine ⟨⟨h.links, fun k obj hk => ?_⟩, rfl⟩
  dsimp only at hk
  rw [(Table.create?_eq_some hc).2] at hk
  split_ifs at hk
  · cases hk
    exact hparent
  · exact h.parents k obj hk

variable {env : Env} {ctx : MessageContext}

/-- Only `addaccount` makes authorities: the owner's, and the active one below it. -/
theorem AuthoritiesOk.handler {scope : NativeScope} {type : FuncName} {f : NativeHandler}
    {s r : DbState} (found : findNativeHandler env scope type = some f) (ran : f ctx s = .ok r)
    (h : AuthoritiesOk s.db) : AuthoritiesOk r.db := by
  unfold findNativeHandler at found
  split at found
  · cases found
    simp only [xmaxSystemAddaccount, bind_eq_ok] at ran
    obtain ⟨create, -, l, -, db₁, h₁, db₂, h₂, ran⟩ := ran
    cases ran
    have hstart : AuthoritiesOk { s.db with toLedger := l } := ⟨h.links, h.parents⟩
    obtain ⟨hok₁, hnext⟩ := hstart.addAuthority h₁ (.inl rfl)
    exact (hok₁.addAuthority h₂ (.inr (by rw [hnext]; exact Nat.lt_succ_self _))).1
  · obtain ⟨g, -, rfl⟩ := Option.map_eq_some_iff.1 found
    obtain ⟨r', -, ran⟩ := bind_eq_ok.1 ran
    cases ran
    exact ⟨h.links, h.parents⟩

theorem AuthoritiesOk.execOneMessage {isNotify : Bool} {s s' : ExecState}
    (hrun : execOneMessage env ctx isNotify s = .ok s') (h : AuthoritiesOk s.db) :
    AuthoritiesOk s'.db :=
  execOneMessage_keeps (fun hf hran h₀ => h₀.handler hf hran)
    (fun _ _ _ h₀ => ⟨h₀.links, h₀.parents⟩) hrun h

end Authorities

/-! ## A transaction -/

/-- What holds of every database that is reached. -/
structure DbOk (db : ChainDb) : Prop where
  authorities : AuthoritiesOk db.toAuthDb
  proxies : ProxiesKnown db.voters

section Transaction

variable {cfg : ChainConfig} {t : ℕ} {builder : AccountName} {check : Bool} {trx : SignedTransaction}
  {db : ChainDb}

/-- A transaction that goes through leaves such a database. -/
theorem DbOk.applyTransactionBody (h : DbOk db) {r : ChainDb × ℕ}
    (hbody : applyTransactionBody cfg t builder check trx db = .ok r) : DbOk r.1 := by
  obtain ⟨-, -, auth, l, transactions, hexec, hgas, -, hdb⟩ := applyTransactionBody_ok hbody
  have hauth : AuthoritiesOk auth := execMessages_keeps AuthoritiesOk.execOneMessage hexec h.authorities
  have hproxies : ProxiesKnown auth.voters :=
    execMessages_keeps (P := fun db => ProxiesKnown db.voters) execOneMessage_proxies hexec h.proxies
  obtain ⟨tokens, rfl⟩ := transferGas_ok hgas
  rw [hdb]
  exact ⟨⟨hauth.links, hauth.parents⟩, hproxies⟩

theorem checkGaspayer_fc (l : Ledger) : Throws Fault.isFc (checkGaspayer l trx) ↔
    (trx.gaslimit ≠ 0 → ∃ token, l.tokens.find? trx.gasPayer = some token) := by
  simp only [checkGaspayer, throws_ite, throws_ok, throws_bind, dbGet_fc, fcAssert_fc, implies_true,
    true_and, and_true, ne_eq]

theorem transferGas_fc (l : Ledger) (payer : AccountName) (gasUsed : ℕ) :
    Throws Fault.isFc (transferGas builder l payer gasUsed) ↔
      (gasUsed ≠ 0 → (∃ token, l.tokens.find? payer = some token) ∧
        ∃ token, l.tokens.find? builder = some token) := by
  simp only [transferGas, throws_ite, throws_ok, throws_bind, dbGet_fc, fcAssert_fc, throws_pure,
    dbGet_eq_ok, implies_true, true_and, and_true, ne_eq]
  refine imp_congr_right fun _ => and_congr_right fun hpayer => ?_
  obtain ⟨token, htoken⟩ := hpayer
  exact ⟨fun h => h token htoken, fun h _ _ => h⟩

theorem dbCreate_fc {K V : Type} [DecidableEq K] (table : Table K V) (k : K) (v : V) :
    Throws Fault.isFc (dbCreate table k v) ↔ table.find? k = none := by
  cases hrow : table.find? k with
  | none =>
    obtain ⟨table', hc⟩ := Table.exists_create? v hrow
    simp [dbCreate, hc]
  | some w =>
    have hc : table.create? k v = none := by
      cases hc : table.create? k v with
      | none => rfl
      | some table' => simp [(Table.create?_eq_some hc).1] at hrow
    simp [dbCreate, hc, Fault.isFc]

/-- When nothing gets past the answer: the payer can be looked up, and, as far as the transaction
gets, the check of the authorizations reads nothing that is not there, no run collides, the gas that was
used can be moved, and the transaction is a new one. -/
structure Contained (cfg : ChainConfig) (t : ℕ) (builder : AccountName) (trx : SignedTransaction)
    (db : ChainDb) : Prop where
  payer : trx.gaslimit ≠ 0 → ∃ token, db.tokens.find? trx.gasPayer = some token
  declared : checkGaspayer db.toLedger trx = .ok () → ∀ keys, getSignatureKeys cfg trx = .ok keys →
    ¬ ReadsEmpty cfg.env.codec db.toAuthDb trx.messages
  runs : checkGaspayer db.toLedger trx = .ok () → checkAuth cfg true db.toAuthDb trx = .ok () →
    ∀ run ∈ trxRuns cfg.env trx t trx.messages db.toAuthDb 0, ¬ run.Collides cfg.env
  gas : checkGaspayer db.toLedger trx = .ok () → checkAuth cfg true db.toAuthDb trx = .ok () →
    ∀ auth gasUsed, exec cfg.env trx t db.toAuthDb = .ok (auth, gasUsed) → gasUsed ≠ 0 →
      (∃ token, auth.tokens.find? trx.gasPayer = some token) ∧
        ∃ token, auth.tokens.find? builder = some token
  fresh : checkGaspayer db.toLedger trx = .ok () → checkAuth cfg true db.toAuthDb trx = .ok () →
    ∀ auth gasUsed l, exec cfg.env trx t db.toAuthDb = .ok (auth, gasUsed) →
      transferGas builder auth.toLedger trx.gasPayer gasUsed = .ok l →
        db.transactions.find? (trx.id cfg.crypto) = none

/-- A transaction without gas, of messages that each declare somebody, that hands over no ERC721 id
and is not recorded yet. -/
theorem Contained.of_plain (hgas : trx.gaslimit = 0)
    (hdeclared : ∀ msg ∈ trx.messages, ¬ (msg.authorization = [] ∨ ∃ auth ∈ msg.authorization,
      minLinkedPermission db.toAuthDb auth.account msg.code msg.type = none))
    (htypes : ∀ run ∈ trxRuns cfg.env trx t trx.messages db.toAuthDb 0,
      run.ctx.msg.type ≠ .transferfrom)
    (hzero : (exec cfg.env trx t db.toAuthDb).map Prod.snd = .ok 0)
    (hfresh : db.transactions.find? (trx.id cfg.crypto) = none) : Contained cfg t builder trx db := by
  refine ⟨fun h => absurd hgas h, fun _ _ _ hreads => ?_, fun _ _ run hrun hc => ?_,
    fun _ _ auth gas hexec h => ?_, fun _ _ _ _ _ _ _ => hfresh⟩
  · obtain ⟨msg, hmsg, hno⟩ := hreads.mem
    exact hdeclared msg hmsg hno
  · exact htypes run hrun hc.type
  · rw [hexec] at hzero
    exact absurd (Except.ok.inj hzero) h

theorem applyTransactionBody_fc (h : DbOk db) :
    Throws Fault.isFc (applyTransactionBody cfg t builder true trx db) ↔
      Contained cfg t builder trx db := by
  simp only [applyTransactionBody, throws_bind, checkGaspayer_fc, checkAuth_fc h.authorities, exec,
    execMessages_fc h.proxies, transferGas_fc, dbCreate_fc, throws_pure, implies_true, and_true,
    Prod.forall]
  constructor
  · rintro ⟨hpayer, hrest⟩
    refine ⟨hpayer, fun h₁ => (hrest () h₁).1, fun h₁ h₂ => ((hrest () h₁).2 () h₂).1,
      fun h₁ h₂ auth gas hexec => ?_, fun h₁ h₂ auth gas l hexec hgas => ?_⟩
    · exact (((hrest () h₁).2 () h₂).2 auth gas hexec).1
    · exact (((hrest () h₁).2 () h₂).2 auth gas hexec).2 l hgas
  · rintro ⟨hpayer, hdeclared, hruns, hgas, hfresh⟩
    refine ⟨hpayer, fun _ h₁ => ⟨hdeclared h₁, fun _ h₂ => ⟨hruns h₁ h₂, fun auth gas hexec => ?_⟩⟩⟩
    exact ⟨hgas h₁ h₂ auth gas hexec, fun l hl => hfresh h₁ h₂ auth gas l hexec hl⟩

end Transaction

end XmaxChain
