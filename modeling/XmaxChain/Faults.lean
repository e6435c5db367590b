import XmaxChain.Erc721
import XmaxChain.Transaction

/-!
# What a transaction throws

`apply_transaction` answers exceptions of `fc`. While a message runs, what the standard library
throws becomes one of them, so that only an undefined access or a loop without end gets past the
answer there; the look-ups around the messages are not wrapped.
-/

namespace XmaxChain

/-- Neither an undefined access nor the end of the process nor a loop without end. -/
def Fault.isException : Fault → Bool
  | .fc _ | .std _ => true
  | .undefined _ | .terminated | .diverged => false

def Fault.isFc : Fault → Bool
  | .fc _ => true
  | _ => false

/-- Whatever the call throws has the property. -/
def Throws {α : Type} (P : Fault → Bool) (x : Except Fault α) : Prop := ∀ e, x = .error e → P e = true

section Throws

variable {α β : Type} {P : Fault → Bool}

@[simp] theorem throws_ok (a : α) : Throws P (.ok a) := fun _ h => by cases h

@[simp] theorem throws_pure (a : α) : Throws P (pure a : Except Fault α) := throws_ok a

@[simp] theorem throws_error {e : Fault} : Throws P (.error e : Except Fault α) ↔ P e = true := by
  simp [Throws]

/-- A call that goes on after another throws what the first throws, or what it throws itself. -/
@[simp] theorem throws_bind {x : Except Fault α} {f : α → Except Fault β} :
    Throws P (x >>= f) ↔ Throws P x ∧ ∀ a, x = .ok a → Throws P (f a) := by
  cases x with
  | error e => simp [bind, Except.bind]
  | ok a => simp [bind, Except.bind]

@[simp] theorem throws_map {x : Except Fault α} {f : α → β} :
    Throws P (f <$> x) ↔ Throws P x := by
  cases x <;> simp [Functor.map, Except.map]

@[simp] theorem throws_ite {c : Prop} [Decidable c] {x y : Except Fault α} :
    Throws P (if c then x else y) ↔ (c → Throws P x) ∧ (¬ c → Throws P y) := by
  split_ifs with h <;> simp [h]

theorem throws_foldlM {f : β → α → Except Fault β} (h : ∀ b a, Throws P (f b a)) (xs : List α)
    (b : β) : Throws P (xs.foldlM f b) := by
  induction xs generalizing b with
  | nil => simp
  | cons x xs ih =>
    rw [List.foldlM_cons, throws_bind]
    exact ⟨h b x, fun b' _ => ih b'⟩

@[simp] theorem throws_captureRethrow {x : Except Fault α} :
    Throws Fault.isFc (captureRethrow x) ↔ Throws Fault.isException x := by
  cases x with
  | error e => cases e <;> simp [captureRethrow, Fault.isFc, Fault.isException]
  | ok a => simp [captureRethrow]

@[simp] theorem fcAssert_exception (b : Bool) (msg : String) :
    Throws Fault.isException (fcAssert b msg) := by
  cases b <;> simp [fcAssert, Fault.isException]

@[simp] theorem fcAssert_fc (b : Bool) (msg : String) : Throws Fault.isFc (fcAssert b msg) := by
  cases b <;> simp [fcAssert, Fault.isFc]

@[simp] theorem unpackAs_exception (o : Option α) : Throws Fault.isException (unpackAs o) := by
  cases o <;> simp [unpackAs, Fault.isException]

@[simp] theorem unpackAs_fc (o : Option α) : Throws Fault.isFc (unpackAs o) := by
  cases o <;> simp [unpackAs, Fault.isFc]

variable {K V : Type} [DecidableEq K] (t : Table K V) (k : K)

@[simp] theorem dbGet_exception : Throws Fault.isException (dbGet t k) := by
  unfold dbGet
  split <;> simp [Fault.isException]

@[simp] theorem dbGet_fc : Throws Fault.isFc (dbGet t k) ↔ ∃ v, t.find? k = some v := by
  unfold dbGet
  split <;> simp_all [Fault.isFc]

@[simp] theorem dbCreate_exception (v : V) : Throws Fault.isException (dbCreate t k v) := by
  unfold dbCreate
  split <;> simp [Fault.isException]

@[simp] theorem dbDeref_exception :
    Throws Fault.isException (dbDeref t k) ↔ ∃ v, t.find? k = some v := by
  unfold dbDeref
  split <;> simp_all [Fault.isException]

end Throws

/-! ## The votes -/

/-- The proxy in a voter's row, 0 for none. -/
def proxyOf (V : Table AccountName VoterInfo) (a : AccountName) : Option AccountName :=
  (V.find? a).map (·.proxy)

/-- Whoever has a proxy has one with a row. -/
def ProxiesKnown (V : Table AccountName VoterInfo) : Prop :=
  ∀ a p, proxyOf V a = some p → p ≠ 0 → (proxyOf V p).isSome

section Proxies

variable {V V' : Table AccountName VoterInfo} {a k : AccountName} {v : VoterInfo}

theorem proxyOf_isSome : (proxyOf V a).isSome ↔ ∃ v, V.find? a = some v := by
  rw [proxyOf, Option.isSome_map, Option.isSome_iff_exists]

theorem proxyOf_modify {f : VoterInfo → VoterInfo} (hf : ∀ v, (f v).proxy = v.proxy) :
    proxyOf (V.modify k f) = proxyOf V := by
  funext a
  simp only [proxyOf, Table.find?_modify, Option.map_map]
  congr 1
  funext v
  simp only [Function.comp_apply]
  split_ifs
  · exact hf v
  · rfl

theorem ProxiesKnown.congr (h : ProxiesKnown V) (hsame : proxyOf V' = proxyOf V) :
    ProxiesKnown V' := by
  unfold ProxiesKnown
  rw [hsame]
  exact h

/-- A row gets a proxy that has a row, or none. -/
theorem ProxiesKnown.update (h : ProxiesKnown V) {p : AccountName}
    (hnew : proxyOf V' = Function.update (proxyOf V) k (some p))
    (hp : p ≠ 0 → (proxyOf V p).isSome) : ProxiesKnown V' := by
  intro a q ha hq
  have hrow : (proxyOf V q).isSome := by
    rw [hnew] at ha
    by_cases hak : a = k
    · rw [hak, Function.update_self] at ha
      cases ha
      exact hp hq
    · rw [Function.update_of_ne hak] at ha
      exact h a q ha hq
  rw [hnew]
  by_cases hqk : q = k
  · rw [hqk, Function.update_self]
    rfl
  · rw [Function.update_of_ne hqk]
    exact hrow

theorem proxyOf_create (h : V.create? k v = some V') :
    proxyOf V' = Function.update (proxyOf V) k (some v.proxy) := by
  obtain ⟨-, hfind⟩ := Table.create?_eq_some h
  funext a
  rw [proxyOf, hfind]
  split_ifs with ha
  · rw [ha, Function.update_self]
    rfl
  · rw [Function.update_of_ne ha]
    rfl

theorem proxyOf_choose {f : VoterInfo → VoterInfo} {p : AccountName} (hf : ∀ v, (f v).proxy = p)
    (hv : V.find? k = some v) : proxyOf (V.modify k f) = Function.update (proxyOf V) k (some p) := by
  funext a
  rw [proxyOf, Table.find?_modify]
  by_cases ha : a = k
  · rw [ha, hv, Function.update_self]
    simp [hf]
  · rw [Function.update_of_ne ha, proxyOf]
    cases V.find? a <;> simp [ha]

end Proxies

section Votes

variable {ctx : MessageContext} {l l' : Ledger} {acnt : AccountName} {amount : ℕ}
  {V : Table AccountName VoterInfo}

theorem tally_exception (f : ℕ → ℕ) (missing : String) (l : Ledger) (builders : List AccountName) :
    Throws Fault.isException (tally f missing l builders) :=
  throws_foldlM (by simp) _ _

theorem elect_exception (direct : Bool) (votes : ℕ) (l : Ledger) (elected : List AccountName) :
    Throws Fault.isException (elect direct votes l elected) := by
  refine throws_foldlM (fun l p => ?_) _ _
  simp only [throws_bind, fcAssert_exception, dbDeref_exception, fcAssert_eq_ok, true_and,
    throws_pure, implies_true, and_true]
  exact fun _ h => Option.isSome_iff_exists.1 h

theorem votedBuilders_exception (h : ProxiesKnown l.voters) (hv : (proxyOf l.voters acnt).isSome) :
    Throws Fault.isException (votedBuilders l acnt) := by
  simp only [votedBuilders, throws_bind, dbDeref_exception, throws_ite, dbDeref_eq_ok, throws_pure,
    implies_true, and_true]
  refine ⟨proxyOf_isSome.1 hv, fun w hw hproxy => proxyOf_isSome.1 (h acnt w.proxy ?_ hproxy)⟩
  rw [proxyOf, hw]
  rfl

theorem addStake_proxies (h : ProxiesKnown l.voters) (hadd : addStake ctx l acnt amount = .ok V) :
    ProxiesKnown V ∧ (proxyOf V acnt).isSome := by
  unfold addStake at hadd
  split at hadd
  · have hnew := proxyOf_create (dbCreate_eq_ok.1 hadd)
    refine ⟨h.update hnew fun hp => absurd rfl hp, ?_⟩
    rw [hnew, Function.update_self]
    rfl
  · rename_i v hv
    cases hadd
    have hsame : proxyOf (l.voters.modify acnt fun v =>
        { v with lastUpdate := ctx.currentTime, staked := v.staked + amount }) = proxyOf l.voters :=
      proxyOf_modify fun _ => rfl
    refine ⟨h.congr hsame, ?_⟩
    rw [hsame]
    exact proxyOf_isSome.2 ⟨v, hv⟩

theorem addProxied_proxies (hadd : addProxied l acnt amount = .ok V) :
    proxyOf V = proxyOf l.voters := by
  simp only [addProxied, bind_eq_ok] at hadd
  obtain ⟨voter, -, hadd⟩ := hadd
  split at hadd
  · obtain ⟨-, -, hadd⟩ := bind_eq_ok.1 hadd
    cases hadd
    exact proxyOf_modify fun _ => rfl
  · cases hadd
    rfl

theorem increaseVotes_exception (h : ProxiesKnown l.voters) :
    Throws Fault.isException (increaseVotes ctx l acnt amount) := by
  simp only [increaseVotes, throws_bind]
  refine ⟨?_, fun V hV => ⟨?_, fun V' hV' => ⟨?_, fun bs _ => tally_exception _ _ _ _⟩⟩⟩
  · unfold addStake
    split <;> simp
  · obtain ⟨-, hrow⟩ := addStake_proxies h hV
    simp only [addProxied, throws_bind, dbDeref_exception, throws_ite, fcAssert_exception, throws_pure,
      implies_true, and_true]
    exact proxyOf_isSome.1 hrow
  · obtain ⟨hknown, hrow⟩ := addStake_proxies h hV
    have hsame := addProxied_proxies hV'
    refine votedBuilders_exception (hknown.congr hsame) ?_
    rw [hsame]
    exact hrow

theorem increaseVotes_proxies (hvotes : increaseVotes ctx l acnt amount = .ok l')
    (h : ProxiesKnown l.voters) : ProxiesKnown l'.voters := by
  simp only [increaseVotes, bind_eq_ok] at hvotes
  obtain ⟨V, hV, V', hV', bs, -, htally⟩ := hvotes
  rw [(tally_ok htally).2]
  exact (addStake_proxies h hV).1.congr (addProxied_proxies hV')

/-- The rows that unstaking changes keep their proxies. -/
theorem unstaked_proxies (l : Ledger) (ctx : MessageContext) (acnt : AccountName) (amount : ℕ)
    (voter : VoterInfo) :
    let l₁ := { l with voters := l.voters.modify acnt fun v =>
      { v with staked := v.staked - amount, lastUpdate := ctx.currentTime } }
    proxyOf (if voter.proxy ≠ 0 then
        { l₁ with voters := l₁.voters.modify voter.proxy fun p =>
          { p with proxiedVotes := subU128 p.proxiedVotes amount } }
      else l₁).voters = proxyOf l.voters := by
  intro l₁
  have hstake : proxyOf l₁.voters = proxyOf l.voters := proxyOf_modify fun _ => rfl
  by_cases hproxy : voter.proxy ≠ 0
  · rw [if_pos hproxy]
    exact Eq.trans (proxyOf_modify fun _ => rfl) hstake
  · rw [if_neg hproxy]
    exact hstake

theorem decreaseVotes_exception (h : ProxiesKnown l.voters) :
    Throws Fault.isException (decreaseVotes ctx l acnt amount) := by
  simp only [decreaseVotes, throws_bind, fcAssert_exception, true_and, fcAssert_eq_ok,
    dbDeref_exception, throws_ite, throws_pure, implies_true, and_true]
  intro _ hsome
  have hrow := Option.isSome_iff_exists.1 hsome
  refine ⟨hrow, fun voter _ _ _ _ => ⟨?_, fun bs _ => tally_exception _ _ _ _⟩⟩
  have hsame := unstaked_proxies l ctx acnt amount voter
  refine votedBuilders_exception (h.congr hsame) ?_
  rw [hsame]
  exact proxyOf_isSome.2 hrow

theorem decreaseVotes_proxies (hvotes : decreaseVotes ctx l acnt amount = .ok l')
    (h : ProxiesKnown l.voters) : ProxiesKnown l'.voters := by
  simp only [decreaseVotes, bind_eq_ok] at hvotes
  obtain ⟨-, -, voter, -, hvotes⟩ := hvotes
  split at hvotes
  · simp only [bind_eq_ok] at hvotes
    obtain ⟨-, -, bs, -, htally⟩ := hvotes
    rw [(tally_ok htally).2]
    exact h.congr (unstaked_proxies l ctx acnt amount voter)
  · cases hvotes
    exact h.congr (proxyOf_modify fun _ => rfl)

theorem leaveOldProxy_proxies {name : AccountName} {voter : VoterInfo} {bs : List AccountName}
    (h : leaveOldProxy l name voter = .ok (l', bs)) : proxyOf l'.voters = proxyOf l.voters := by
  unfold leaveOldProxy at h
  split at h
  · simp only [bind_eq_ok] at h
    obtain ⟨-, -, _, -, h⟩ := h
    cases h
    exact proxyOf_modify fun _ => rfl
  · obtain ⟨_, -, h⟩ := bind_eq_ok.1 h
    cases h
    rfl

theorem joinNewProxy_proxies {vp : Types.VoteBuilder} {n : ℕ} {bs : List AccountName}
    (h : joinNewProxy l vp n = .ok (l', bs)) :
    proxyOf l'.voters = proxyOf l.voters ∧ (vp.proxy ≠ 0 → (proxyOf l.voters vp.proxy).isSome) := by
  unfold joinNewProxy at h
  split at h
  · simp only [bind_eq_ok, fcAssert_eq_ok, Option.any_eq_true] at h
    obtain ⟨-, ⟨v, hv, -⟩, _, -, h⟩ := h
    cases h
    exact ⟨proxyOf_modify fun _ => rfl, fun _ => proxyOf_isSome.2 ⟨v, hv⟩⟩
  · rename_i hzero
    cases h
    exact ⟨rfl, fun hp => absurd hp hzero⟩

theorem moveVotes_exception {vp : Types.VoteBuilder} {voter : VoterInfo}
    (hv : l.voters.find? vp.voter = some voter) :
    Throws Fault.isException (moveVotes ctx l vp voter) := by
  simp only [moveVotes, throws_bind]
  refine ⟨?_, ?_⟩
  · simp only [leaveOldProxy, throws_ite, throws_bind, fcAssert_exception, dbDeref_exception,
      throws_pure, implies_true, and_true, true_and, fcAssert_eq_ok]
    refine ⟨fun _ _ hsome => ?_, fun _ => ⟨voter, hv⟩⟩
    refine proxyOf_isSome.1 ?_
    rw [proxyOf_modify]
    · exact proxyOf_isSome.2 (Option.isSome_iff_exists.1 hsome)
    · exact fun _ => rfl
  · rintro ⟨l₁, old⟩ h₁
    refine ⟨?_, ?_⟩
    · simp only [joinNewProxy, throws_ite, throws_bind, fcAssert_exception, dbDeref_exception,
        throws_pure, implies_true, and_true, true_and, fcAssert_eq_ok, Option.any_eq_true]
      rintro - - ⟨w, hw, -⟩
      refine proxyOf_isSome.1 ?_
      rw [proxyOf_modify]
      · exact proxyOf_isSome.2 ⟨w, hw⟩
      · exact fun _ => rfl
    · rintro ⟨l₂, new⟩ h₂
      refine ⟨?_, fun _ _ => ⟨tally_exception _ _ _ _, fun _ _ => ⟨elect_exception _ _ _ _, ?_⟩⟩⟩
      · rw [dbDeref_exception, ← proxyOf_isSome, (joinNewProxy_proxies h₂).1, leaveOldProxy_proxies h₁]
        exact proxyOf_isSome.2 ⟨voter, hv⟩
      · simp

theorem moveVotes_proxies {vp : Types.VoteBuilder} {voter : VoterInfo} (h : ProxiesKnown l.voters)
    (hmove : moveVotes ctx l vp voter = .ok l') : ProxiesKnown l'.voters := by
  simp only [moveVotes, bind_eq_ok, Prod.exists, dbDeref_eq_ok] at hmove
  obtain ⟨l₁, old, h₁, l₂, new, h₂, v, hv, l₃, h₃, l₄, h₄, hmove⟩ := hmove
  cases hmove
  obtain ⟨hsame₂, hproxy⟩ := joinNewProxy_proxies h₂
  have hsame₁ := leaveOldProxy_proxies h₁
  have hvoters : l₄.voters = l₂.voters := (elect_ok h₄).2.trans (tally_ok h₃).2
  have hsame : proxyOf l₄.voters = proxyOf l.voters := by rw [hvoters, hsame₂, hsame₁]
  have hrow : l₄.voters.find? vp.voter = some v := by rw [hvoters, hv]
  refine (h.congr hsame).update (p := vp.proxy) (proxyOf_choose (fun _ => rfl) hrow) fun hp => ?_
  rw [hsame, ← hsame₁]
  exact hproxy hp

end Votes

section Handlers

variable {env : Env} {ctx : MessageContext} {s r : HandlerState}

theorem voteBuilder_exception (codec : Codec) :
    Throws Fault.isException (voteBuilder codec ctx s) := by
  simp only [voteBuilder, throws_bind, unpackAs_exception, fcAssert_exception, fcAssert_eq_ok,
    Option.any_eq_true, dbDeref_exception, dbDeref_eq_ok, throws_ite, throws_pure, implies_true,
    and_true, true_and]
  rintro vp -
  refine ⟨?_, ?_⟩
  · unfold checkVote
    simp
  · rintro N - - ⟨v, hv, -⟩
    exact ⟨⟨v, hv⟩, fun voter hvoter _ _ _ => moveVotes_exception hvoter⟩

theorem regProxy_exception (codec : Codec) : Throws Fault.isException (regProxy codec ctx s) := by
  simp only [regProxy, throws_bind, unpackAs_exception, true_and]
  rintro name -
  split
  · simp only [throws_bind, fcAssert_exception, throws_pure, implies_true, and_true, true_and]
    rintro - - - -
    unfold tallyProxied
    split
    · exact tally_exception _ _ _ _
    · simp
  · simp

theorem unregProxy_exception (codec : Codec) : Throws Fault.isException (unregProxy codec ctx s) := by
  simp only [unregProxy, throws_bind, unpackAs_exception, fcAssert_exception, dbDeref_exception,
    fcAssert_eq_ok, throws_pure, implies_true, and_true, true_and]
  rintro name - - hsome
  refine ⟨Option.isSome_iff_exists.1 hsome, fun proxy _ _ _ => ?_⟩
  unfold tallyProxied
  split
  · exact tally_exception _ _ _ _
  · simp

theorem installContract_exception (l : Ledger) (name : AccountName) (code codeAbi : Bytes) :
    Throws Fault.isException (installContract env ctx l name code codeAbi) := by
  simp only [installContract, throws_bind, fcAssert_exception, dbGet_exception, true_and]
  rintro - - - -
  split <;> simp [Fault.isException]

theorem openErc20Account_exception (l : Ledger) (row : AssetSymbol × AccountName) :
    Throws Fault.isException (openErc20Account l row) := by
  unfold openErc20Account
  split <;> simp

/-- The message hands an ERC721 id to an account that holds another id of the token. -/
def Collides (env : Env) (ctx : MessageContext) (l : Ledger) : Prop :=
  ∃ t, Transfer721Ready env ctx l t ∧ ¬ HoldsNoOther l t.tokenName t.dest t.tokenId

/-- The row of such an id is erased while it is modified, and undoing that looks for it in vain. -/
theorem xmaxErc721Transferfrom_exception :
    Throws Fault.isException (xmaxErc721Transferfrom env ctx s) ↔ ¬ Collides env ctx s.ledger := by
  simp only [xmaxErc721Transferfrom, validateTokenNotRevoke, requireAuthorization, requireScope,
    throws_bind, unpackAs_exception, fcAssert_exception, dbGet_exception, unpackAs_eq_ok,
    fcAssert_eq_ok, dbGet_eq_ok, decide_eq_true_eq, true_and, throws_ite, throws_error, throws_pure,
    implies_true, and_true]
  simp only [Collides, ← erc721OwnerTaken_eq_false, Bool.not_eq_false]
  constructor
  · rintro h ⟨t, ⟨hdata, hauth, hsource, hdest, ⟨token, htoken, hrevoked⟩, howner⟩, htaken⟩
    have := h t hdata () hauth () hsource () hdest token htoken () hrevoked () (by simp [howner])
      t.source howner () rfl htaken
    simp [Fault.isException] at this
  · intro h t hdata _ hauth _ hsource _ hdest token htoken _ hrevoked _ _ owner howner _ hown htaken
    subst hown
    exact absurd ⟨t, ⟨hdata, hauth, hsource, hdest, ⟨token, htoken, hrevoked⟩, howner⟩, htaken⟩ h

/-- Every handler but that one only throws exceptions. -/
theorem ledgerHandler_exception {scope : NativeScope} {type : FuncName} {f : LedgerHandler}
    (found : ledgerHandler env scope type = some f) (hknown : ProxiesKnown s.ledger.voters)
    (hother : ¬ (scope = .erc721 ∧ type = .transferfrom)) : Throws Fault.isException (f ctx s) := by
  cases scope <;> cases type <;> simp only [ledgerHandler, reduceCtorEq] at found <;> cases found
  case erc721.transferfrom => exact absurd ⟨rfl, rfl⟩ hother
  case system.votebuilder => exact voteBuilder_exception _
  case system.regproxy => exact regProxy_exception _
  case system.unregproxy => exact unregProxy_exception _
  case system.addcontract =>
    simp [xmaxSystemAddcontract, requireAuthorization, xmaxNewAccount, installContract_exception]
  case system.setcode =>
    simp [xmaxSystemSetjscode, requireAuthorization, installContract_exception]
  case system.lock =>
    simp only [xmaxSystemLock, requireScope, requireAuthorization, throws_bind, unpackAs_exception,
      fcAssert_exception, dbGet_exception, throws_pure, implies_true, and_true, true_and]
    intros
    exact increaseVotes_exception hknown
  case system.unlock =>
    simp only [xmaxSystemUnlock, requireAuthorization, throws_bind, unpackAs_exception,
      fcAssert_exception, dbGet_exception, throws_pure, implies_true, and_true, true_and]
    intros
    exact decreaseVotes_exception hknown
  case system.regbuilder =>
    simp only [regBuilder, setBuilderKey, throws_bind, unpackAs_exception, throws_pure, implies_true,
      and_true, true_and]
    intros
    split <;> simp
  case erc20.transferfrom =>
    simp [xmaxErc20Transferfrom, requireAuthorization, requireScope, validateTokenNotRevoke, safeSub,
      safeAdd, openErc20Account_exception]
  case erc721.mint =>
    simp [xmaxErc721Mint, requireAuthorization, requireScope, validateTokenNotRevoke,
      validateTokenCanmint, Fault.isException]
  all_goals
    simp [xmaxSystemAdderc20, xmaxSystemAdderc721, xmaxSystemTransfer, unregBuilder, xmaxErc20Mint,
      xmaxErc20Stopmint, xmaxErc20Revoke, xmaxErc721Stopmint, xmaxErc721Revoke, requireAuthorization,
      requireScope, xmaxNewAccount, validateTokenNotRevoke, validateTokenCanmint, safeAdd]

end Handlers

end XmaxChain
