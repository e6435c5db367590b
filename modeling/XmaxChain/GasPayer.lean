import XmaxChain.Spending

/-!
# Who pays for a transaction

The account that pays the gas is a field of the transaction of its own. Only what the messages
declare is checked, so the payer's authorities are looked at only where a declared authority leads
to one of them: otherwise the transaction goes through whatever they ask for.
-/

namespace XmaxChain

/-- The active authority of `payer` and those above it. -/
inductive Ancestor (db : AuthDb) (payer : AccountName) : AuthorityName → Prop
  | active {obj : AuthorityObject}
      (row : db.authorities.find? (payer, xmaxActiveName) = some obj) :
      Ancestor db payer xmaxActiveName
  | parent {name name' : AuthorityName} {obj obj' : AuthorityObject} (below : Ancestor db payer name)
      (row : db.authorities.find? (payer, name) = some obj)
      (row' : db.authorities.find? (payer, name') = some obj') (id : obj'.id = obj.parent) :
      Ancestor db payer name'

/-- The keys satisfy the active authority of the payer or one above it. -/
def GasConsent (db : AuthDb) (keys : List PublicKey) (payer : AccountName) : Prop :=
  ∃ name, Ancestor db payer name ∧ Satisfies db keys ⟨payer, name⟩

/-- An authority that a message declares leads to the payer's active one or one above it. -/
def PayerChecked (db : AuthDb) (trx : SignedTransaction) : Prop :=
  ∃ msg ∈ trx.messages, ∃ auth ∈ msg.authorization, ∃ name,
    Ancestor db trx.gasPayer name ∧ Reaches db auth ⟨trx.gasPayer, name⟩

/-- What some authorities are to ask for instead. -/
abbrev Contents := AccountName × AuthorityName → Option Types.Authority

/-- The database in which the authorities ask for something else; the rows, their ids and parents
stay. -/
def AuthDb.replaced (db : AuthDb) (c : Contents) : AuthDb :=
  { db with authorities := db.authorities.mapRows fun k obj =>
      { obj with authoritys := (c k).getD obj.authoritys } }

/-- Only authorities of the payer, active or above, ask for something else. -/
def Contents.OfPayer (c : Contents) (db : AuthDb) (payer : AccountName) : Prop :=
  ∀ k, (c k).isSome → k.1 = payer ∧ Ancestor db payer k.2

section Replaced

variable {db : AuthDb} {c : Contents}

theorem find?_replaced (k : AccountName × AuthorityName) :
    (db.replaced c).authorities.find? k
      = (db.authorities.find? k).map fun obj => { obj with authoritys := (c k).getD obj.authoritys } :=
  Table.find?_mapRows ..

theorem find?_replaced_some {k : AccountName × AuthorityName} {obj : AuthorityObject}
    (h : db.authorities.find? k = some obj) :
    (db.replaced c).authorities.find? k
      = some { obj with authoritys := (c k).getD obj.authoritys } := by
  rw [find?_replaced, h, Option.map_some]

theorem find?_replaced_of_none {k : AccountName × AuthorityName} (hk : c k = none) :
    (db.replaced c).authorities.find? k = db.authorities.find? k := by
  rw [find?_replaced, hk]
  cases db.authorities.find? k <;> rfl

/-- Whatever the rows ask for, they have the ids and parents they had. -/
theorem Ancestor.replaced {payer : AccountName} {name : AuthorityName} (h : Ancestor db payer name) :
    Ancestor (db.replaced c) payer name := by
  induction h with
  | active row => exact .active (find?_replaced_some row)
  | parent _ row row' id ih =>
    exact .parent ih (find?_replaced_some row) (find?_replaced_some row') id

theorem Ancestor.of_replaced {payer : AccountName} {name : AuthorityName}
    (h : Ancestor (db.replaced c) payer name) : Ancestor db payer name := by
  induction h with
  | active row =>
    rw [find?_replaced, Option.map_eq_some_iff] at row
    obtain ⟨_, row, -⟩ := row
    exact .active row
  | parent _ row row' id ih =>
    rw [find?_replaced, Option.map_eq_some_iff] at row row'
    obtain ⟨_, row, rfl⟩ := row
    obtain ⟨_, row', rfl⟩ := row'
    exact .parent ih row row' id

/-- On the way from `auth` to an authority of the payer there is a first one of which the contents
may differ; up to it the two databases agree. -/
theorem Reaches.replaced {auth other : AccountAuth} (h : Reaches db auth other) :
    Reaches (db.replaced c) auth other ∨
      ∃ mid, (c mid.key).isSome ∧ Reaches (db.replaced c) auth mid := by
  induction h with
  | refl => exact .inl .refl
  | tail _ hn ih =>
    rename_i mid _ _
    rcases ih with ih | ih
    · cases hc : c mid.key with
      | some a => exact .inr ⟨mid, by simp [hc], ih⟩
      | none =>
        obtain ⟨obj, hobj, a, ha, rfl⟩ := hn
        exact .inl (ih.tail ⟨obj, (find?_replaced_of_none hc).trans hobj, a, ha, rfl⟩)
    · exact .inr ih

/-! ## What the check reads of the payer -/

theorem getAuthorityObject_replaced (auth : AccountAuth) :
    getAuthorityObject (db.replaced c) auth = (getAuthorityObject db auth).map fun obj =>
      { obj with authoritys := (c auth.key).getD obj.authoritys } := by
  simp only [getAuthorityObject, dbGet, find?_replaced]
  cases fcAssert (decide (auth.account ≠ 0) && decide (auth.authority ≠ 0)) "Invalid authority" with
  | error e => cases e <;> rfl
  | ok _ => cases db.authorities.find? auth.key <;> rfl

theorem findById_replaced (db : AuthDb) (c : Contents) (id : ℕ) :
    (findById (db.replaced c) id).map (·.parent) = (findById db id).map (·.parent) := by
  simp only [findById, AuthDb.replaced, Table.mapRows, List.find?_map, Option.map_map]
  rfl

theorem parentWalk_replaced (editor : ℕ) (fuel parent : ℕ) :
    parentWalk (db.replaced c) editor fuel parent = parentWalk db editor fuel parent := by
  induction fuel generalizing parent with
  | zero => rfl
  | succ fuel ih =>
    have hfind := findById_replaced db c parent
    unfold parentWalk
    cases h : findById db parent with
    | none =>
      rw [h, Option.map_none, Option.map_eq_none_iff] at hfind
      simp [hfind]
    | some obj =>
      rw [h, Option.map_some, Option.map_eq_some_iff] at hfind
      obtain ⟨obj', hobj', hparent⟩ := hfind
      simp only [hobj', hparent, ih]

theorem checkLinked_replaced (special : Bool) (msg : Message) (auth : AccountAuth) :
    checkLinked (db.replaced c) special msg auth = checkLinked db special msg auth := by
  simp only [checkLinked, getAuthorityObject_replaced, parentPermissionValid, parentWalk_replaced]
  have hlink : minLinkedPermission (db.replaced c) auth.account msg.code msg.type
      = minLinkedPermission db auth.account msg.code msg.type := rfl
  rw [hlink]
  cases minLinkedPermission db auth.account msg.code msg.type with
  | none => rfl
  | some permission =>
    have hlen : (db.replaced c).authorities.rows.length = db.authorities.rows.length :=
      List.length_map _
    dsimp only
    cases getAuthorityObject db auth with
    | error e => rfl
    | ok origin =>
      cases getAuthorityObject db ⟨auth.account, permission⟩ with
      | error e => rfl
      | ok sub =>
        simp only [Except.map, hlen]
        rfl

theorem checkSpecial_replaced (codec : Codec) (msg : Message) :
    checkSpecial codec (db.replaced c) msg = checkSpecial codec db msg := by
  simp only [checkSpecial, checkUpdateauth, find?_replaced, Option.isSome_map]

theorem declareAll_replaced (codec : Codec) :
    declareAll codec (db.replaced c) = declareAll codec db := by
  funext satisfys msg
  have hauth : ∀ special, declareAuth (db.replaced c) special msg = declareAuth db special msg := by
    intro special
    funext satisfys auth
    simp only [declareAuth, checkLinked_replaced]
  simp only [declareAll, checkSpecial_replaced, hauth]

/-- Where no authority on the way asks for something else the check goes the same way. -/
theorem checkWithDepth_replaced {keys : List PublicKey} {left : ℕ} {auth : AccountAuth}
    {cache cache' : List AccountAuth} (h : checkWithDepth db keys left auth cache = .ok cache')
    (hsame : ∀ other, Reaches db auth other → c other.key = none) :
    checkWithDepth (db.replaced c) keys left auth cache = .ok cache' := by
  induction left generalizing auth cache cache' with
  | zero => cases h
  | succ left ih =>
    simp only [checkWithDepth, bind_eq_ok] at h ⊢
    obtain ⟨obj, hobj, r, hr, henough⟩ := h
    refine ⟨obj, ?_, r, ?_, henough⟩
    · rw [getAuthorityObject_replaced, hobj, hsame auth .refl]
      rfl
    · have hrow := getAuthorityObject_ok hobj
      have hnamed : ∀ a ∈ obj.authoritys.accounts, ∀ other, Reaches db a.permission other →
          c other.key = none := fun a ha other hreach =>
        hsame other (.head ⟨obj, hrow, a, ha, rfl⟩ hreach)
      revert hr
      generalize obj.authoritys.accounts = accounts at hnamed
      generalize (cache, addKeys keys obj.authoritys 0) = r₀
      intro hr
      induction accounts generalizing r₀ with
      | nil => exact hr
      | cons a accounts ihs =>
        rw [List.foldlM_cons, bind_eq_ok] at hr ⊢
        obtain ⟨r₁, h₁, hr⟩ := hr
        refine ⟨r₁, ?_, ihs (fun a ha => hnamed a (List.mem_cons_of_mem _ ha)) _ hr⟩
        unfold checkOther at h₁ ⊢
        split
        · rwa [if_pos ‹_›] at h₁
        · rw [if_neg ‹_›] at h₁
          simp only [bind_eq_ok] at h₁ ⊢
          obtain ⟨cache₁, hc, h₁⟩ := h₁
          exact ⟨cache₁, ih hc (hnamed a List.mem_cons_self), h₁⟩

theorem checkAuthorization_replaced {codec : Codec} {keys : List PublicKey} {messages : List Message}
    (h : checkAuthorization codec db keys messages = .ok ())
    (hsame : ∀ msg ∈ messages, ∀ auth ∈ msg.authorization, ∀ other, Reaches db auth other →
      c other.key = none) : checkAuthorization codec (db.replaced c) keys messages = .ok () := by
  simp only [checkAuthorization, bind_eq_ok, declareAll_replaced] at h ⊢
  obtain ⟨satisfys, hs, cache, hc, -⟩ := h
  refine ⟨satisfys, hs, cache, ?_, rfl⟩
  have hall : ∀ auth ∈ satisfys, ∀ other, Reaches db auth other → c other.key = none := by
    intro auth hauth
    obtain hnil | ⟨msg, hmsg, hauth⟩ := (declared_mem hs).1 hauth
    · cases hnil
    · exact hsame msg hmsg auth hauth
  clear hs hsame
  generalize ([] : List AccountAuth) = start at hc ⊢
  induction satisfys generalizing start with
  | nil => exact hc
  | cons auth satisfys ih =>
    rw [List.foldlM_cons, bind_eq_ok] at hc ⊢
    obtain ⟨c₁, h₁, hc⟩ := hc
    refine ⟨c₁, ?_, ih (fun a ha => hall a (List.mem_cons_of_mem _ ha)) _ hc⟩
    simp only [checkDeclared, bind_eq_ok] at h₁ ⊢
    obtain ⟨obj, hobj, h₁⟩ := h₁
    refine ⟨obj, ?_, checkWithDepth_replaced h₁ (hall auth List.mem_cons_self)⟩
    rw [getAuthorityObject_replaced, hobj, hall auth List.mem_cons_self auth .refl]
    rfl

/-! ## What running the messages reads of the payer -/

/-- All that the handlers see of the authorities is which keys are taken and the next id. -/
structure SameKeys (db db' : AuthDb) : Prop where
  ledger : db'.toLedger = db.toLedger
  keys : db'.authorities.rows.map Prod.fst = db.authorities.rows.map Prod.fst
  next : db'.nextAuthority = db.nextAuthority

theorem sameKeys_replaced (db : AuthDb) (c : Contents) : SameKeys db (db.replaced c) :=
  ⟨rfl, by simp [AuthDb.replaced, Table.mapRows, Function.comp_def], rfl⟩

variable {env : Env} {ctx : MessageContext} {db₁ db' : AuthDb}

theorem SameKeys.withLedger (h : SameKeys db db') (l : Ledger) :
    SameKeys { db with toLedger := l } { db' with toLedger := l } :=
  ⟨rfl, h.keys, h.next⟩

theorem SameKeys.addAuthority {owner : AccountName} {name : AuthorityName} {parent : ℕ}
    {auth : Types.Authority} (h : SameKeys db db')
    (hadd : addAuthority ctx db owner name parent auth = .ok db₁) :
    ∃ db₁', XmaxChain.addAuthority ctx db' owner name parent auth = .ok db₁' ∧ SameKeys db₁ db₁' := by
  simp only [XmaxChain.addAuthority, bind_eq_ok, dbCreate_eq_ok, Table.create?] at hadd ⊢
  obtain ⟨authorities, hauth, hadd⟩ := hadd
  cases hadd
  split at hauth
  · cases hauth
  · rename_i hkey
    cases hauth
    rw [← h.keys] at hkey
    refine ⟨_, ⟨_, dif_neg hkey, rfl⟩, h.ledger, ?_, ?_⟩
    · simp [h.keys]
    · simp [h.next]

theorem SameKeys.nativeHandler {scope : NativeScope} {type : FuncName} {nh : NativeHandler}
    {notified : List AccountName} {r : DbState} (h : SameKeys db db')
    (hnh : findNativeHandler env scope type = some nh) (hr : nh ctx ⟨db, notified⟩ = .ok r) :
    ∃ r', nh ctx ⟨db', notified⟩ = .ok r' ∧ r'.notified = r.notified ∧ SameKeys r.db r'.db := by
  unfold findNativeHandler at hnh
  split at hnh
  · cases hnh
    simp only [xmaxSystemAddaccount, bind_eq_ok, h.ledger] at hr ⊢
    obtain ⟨create, hcreate, l, hl, dbo, howner, dba, hactive, hr⟩ := hr
    cases hr
    obtain ⟨dbo', howner', ho⟩ := (h.withLedger l).addAuthority howner
    obtain ⟨dba', hactive', ha⟩ := ho.addAuthority hactive
    rw [← h.next] at hactive'
    exact ⟨_, ⟨create, hcreate, l, hl, dbo', howner', dba', hactive', rfl⟩, rfl, ha⟩
  · obtain ⟨lh, -, rfl⟩ := Option.map_eq_some_iff.1 hnh
    simp only [onLedger, bind_eq_ok, h.ledger] at hr ⊢
    obtain ⟨s, hs, hr⟩ := hr
    cases hr
    exact ⟨_, ⟨s, hs, rfl⟩, rfl, h.withLedger s.ledger⟩

/-- Two states of a run that differ in what the authorities ask for. -/
structure SameRun (s s' : ExecState) : Prop where
  db : SameKeys s.db s'.db
  notified : s'.notified = s.notified
  usedGas : s'.usedGas = s.usedGas

variable {s s₁ s' : ExecState}

theorem SameRun.runHandler {scope : NativeScope} {type : FuncName} {nh : NativeHandler}
    (h : SameRun s s') (hnh : findNativeHandler env scope type = some nh)
    (hr : runHandler nh ctx s = .ok s₁) :
    ∃ s₁', XmaxChain.runHandler nh ctx s' = .ok s₁' ∧ SameRun s₁ s₁' := by
  obtain ⟨r, hran, rfl⟩ := runHandler_eq_ok.1 hr
  obtain ⟨r', hr', hN, hdb⟩ := h.db.nativeHandler hnh hran
  refine ⟨_, runHandler_eq_ok.2 ⟨r', ?_, rfl⟩, hdb, hN, h.usedGas⟩
  rw [h.notified]
  exact hr'

theorem SameRun.runNative {scope : NativeScope} {isNotify : Bool} (h : SameRun s s')
    (hr : runNative env scope ctx isNotify s = .ok s₁) :
    ∃ s₁', XmaxChain.runNative env scope ctx isNotify s' = .ok s₁' ∧ SameRun s₁ s₁' := by
  unfold XmaxChain.runNative at hr ⊢
  split
  · rw [if_pos ‹_›] at hr
    cases hnh : findNativeHandler env scope ctx.msg.type with
    | none =>
      simp only [hnh] at hr ⊢
      cases hr
      exact ⟨s', rfl, h⟩
    | some nh =>
      simp only [hnh] at hr ⊢
      exact h.runHandler hnh hr
  · rw [if_neg ‹_›] at hr
    simp only [bind_eq_ok] at hr ⊢
    obtain ⟨u, hu, hr⟩ := hr
    cases hnh : findNativeHandler env scope ctx.msg.type with
    | none =>
      simp only [hnh] at hr
      cases hr
    | some nh =>
      simp only [hnh] at hr ⊢
      rw [h.usedGas]
      have hcharged : ∀ gas, SameRun { s with usedGas := gas } { s' with usedGas := gas } :=
        fun gas => ⟨h.db, h.notified, rfl⟩
      obtain ⟨s₁', hs₁', h₁⟩ := (hcharged _).runHandler hnh hr
      exact ⟨s₁', ⟨u, hu, hs₁'⟩, h₁⟩

theorem SameRun.execOneMessage {isNotify : Bool} (h : SameRun s s')
    (hr : execOneMessage env ctx isNotify s = .ok s₁) :
    ∃ s₁', XmaxChain.execOneMessage env ctx isNotify s' = .ok s₁' ∧ SameRun s₁ s₁' := by
  simp only [XmaxChain.execOneMessage, bind_eq_ok, captureRethrow_eq_ok, runCode, dbGet_eq_ok,
    h.db.ledger] at hr ⊢
  obtain ⟨s₂, ⟨acc, hacc, hr⟩, hs₁⟩ := hr
  cases hs₁
  have hcode : ∃ s₂', SameRun s₂ s₂' ∧
      (if acc.type ≠ .contract then (do
          fcAssert (getNativeScope acc.type ≠ .invalid) "Unknown native scope type of account"
          XmaxChain.runNative env (getNativeScope acc.type) ctx isNotify s')
        else (do
          fcAssert acc.contract.isSome "contract is not found"
          pure (runContract env ctx s'))) = .ok s₂' := by
    split
    · rw [if_pos ‹_›] at hr
      simp only [bind_eq_ok] at hr ⊢
      obtain ⟨u, hu, hr⟩ := hr
      obtain ⟨s₂', hs₂', h₂⟩ := h.runNative hr
      exact ⟨s₂', h₂, u, hu, hs₂'⟩
    · rw [if_neg ‹_›] at hr
      simp only [bind_eq_ok] at hr ⊢
      obtain ⟨u, hu, hr⟩ := hr
      cases hr
      refine ⟨runContract env ctx s', ?_, u, hu, rfl⟩
      have hl := h.db.ledger
      exact ⟨⟨by simp [runContract, hl], h.db.keys, h.db.next⟩, h.notified,
        by simp [runContract, hl, h.usedGas]⟩
  obtain ⟨s₂', h₂, hs₂'⟩ := hcode
  refine ⟨_, ⟨s₂', ⟨acc, hacc, hs₂'⟩, rfl⟩, ⟨?_, h₂.db.keys, h₂.db.next⟩, h₂.notified, h₂.usedGas⟩
  simp [h₂.db.ledger]

theorem SameRun.notifyLoop {fuel i : ℕ} (h : SameRun s s')
    (hr : notifyLoop env ctx fuel i s = .ok s₁) :
    ∃ s₁', XmaxChain.notifyLoop env ctx fuel i s' = .ok s₁' ∧ SameRun s₁ s₁' := by
  induction fuel generalizing i s s' with
  | zero => cases hr
  | succ fuel ih =>
    simp only [XmaxChain.notifyLoop, h.notified] at hr ⊢
    split at hr
    · cases hr
      exact ⟨s', rfl, h⟩
    · simp only [bind_eq_ok] at hr ⊢
      obtain ⟨s₂, hs₂, hr⟩ := hr
      obtain ⟨s₂', hs₂', h₂⟩ := h.execOneMessage hs₂
      obtain ⟨s₁', hs₁', h₁⟩ := ih h₂ hr
      exact ⟨s₁', ⟨s₂', hs₂', hs₁'⟩, h₁⟩

theorem SameKeys.execMessages {trx : SignedTransaction} {t : ℕ} {msgs : List Message} {gas : ℕ}
    {r : AuthDb × ℕ} (h : SameKeys db db') (hr : execMessages env trx t msgs db gas = .ok r) :
    ∃ auth', XmaxChain.execMessages env trx t msgs db' gas = .ok (auth', r.2) ∧ SameKeys r.1 auth' := by
  induction msgs generalizing db db' gas with
  | nil =>
    cases hr
    exact ⟨db', rfl, h⟩
  | cons msg msgs ih =>
    simp only [XmaxChain.execMessages, execMessage, bind_eq_ok] at hr ⊢
    obtain ⟨s, ⟨s₁, hs₁, u, hu, hloop⟩, hr⟩ := hr
    have hstart : SameRun ⟨db, [msg.code], gas⟩ ⟨db', [msg.code], gas⟩ := ⟨h, rfl, rfl⟩
    obtain ⟨s₁', hs₁', h₁⟩ := hstart.execOneMessage hs₁
    obtain ⟨s', hloop', h₂⟩ := h₁.notifyLoop hloop
    obtain ⟨auth', hauth', h₃⟩ := ih h₂.db hr
    refine ⟨auth', ⟨s', ⟨s₁', hs₁', u, ?_, hloop'⟩, ?_⟩, h₃⟩
    · rw [h₁.notified]
      exact hu
    · rw [h₂.usedGas]
      exact hauth'

end Replaced

section Gas

variable {cfg : ChainConfig} {t : ℕ} {builder : AccountName} {trx : SignedTransaction} {db : ChainDb}

def ChainDb.replaced (db : ChainDb) (c : Contents) : ChainDb :=
  { db with toAuthDb := db.toAuthDb.replaced c }

/-- What nobody checks may ask for anything: the transaction goes through and costs the same. -/
theorem applyTransactionBody_replaced {c : Contents} {r : ChainDb × ℕ}
    (h : applyTransactionBody cfg t builder true trx db = .ok r)
    (hsame : ∀ msg ∈ trx.messages, ∀ auth ∈ msg.authorization, ∀ other,
      Reaches db.toAuthDb auth other → c other.key = none) :
    ∃ db', applyTransactionBody cfg t builder true trx (db.replaced c) = .ok (db', r.2) := by
  obtain ⟨hpayer, hauth, auth, l, transactions, hexec, hl, htrx, -⟩ := applyTransactionBody_ok h
  obtain ⟨auth', hexec', hkeys⟩ := (sameKeys_replaced db.toAuthDb c).execMessages hexec
  have hauth' : checkAuth cfg true (db.replaced c).toAuthDb trx = .ok () := by
    simp only [checkAuth, if_true, bind_eq_ok] at hauth ⊢
    obtain ⟨keys, hkeys, hcheck⟩ := hauth
    exact ⟨keys, hkeys, checkAuthorization_replaced hcheck hsame⟩
  refine ⟨{ db.replaced c with
    toAuthDb := { auth' with toLedger := l }
    transactions := transactions
    trxCounter := u64 (db.trxCounter + 1) }, ?_⟩
  simp only [applyTransactionBody, bind_eq_ok]
  refine ⟨⟨⟩, hpayer, ⟨⟩, hauth', (auth', r.2), hexec', l, ?_, transactions, htrx, rfl⟩
  rw [hkeys.ledger]
  exact hl

/-- An authority that nobody can satisfy. -/
def unsatisfiable : Types.Authority := ⟨1, [], []⟩

theorem not_satisfies_unsatisfiable {db : AuthDb} {keys : List PublicKey} {auth : AccountAuth}
    {obj : AuthorityObject} (hrow : db.authorities.find? auth.key = some obj)
    (hobj : obj.authoritys = unsatisfiable) : ¬ Satisfies db keys auth := by
  rintro ⟨obj', others, hrow', hnamed, -, henough⟩
  rw [hrow] at hrow'
  cases hrow'
  rw [hobj] at hnamed henough
  obtain rfl : others = [] := List.sublist_nil.1 hnamed
  revert henough
  simp [unsatisfiable, keyWeight, accountWeight, intOf]

theorem Ancestor.row {db : AuthDb} {payer : AccountName} {name : AuthorityName}
    (h : Ancestor db payer name) : ∃ obj, db.authorities.find? (payer, name) = some obj := by
  cases h with
  | active row => exact ⟨_, row⟩
  | parent _ _ row' _ => exact ⟨_, row'⟩

/-- Take a transaction that goes through and costs gas. Whatever the payer's active authority and
those above it ask for, it only goes through at the payer's cost if its keys satisfy one of them:
this is so if and only if an authority that it declares leads to one of them. -/
theorem gas_consent_iff {r : ChainDb × ℕ} {keys : List PublicKey}
    (h : applyTransactionBody cfg t builder true trx db = .ok r) (hgas : r.2 ≠ 0)
    (hkeys : getSignatureKeys cfg trx = .ok keys) :
    (∀ (c : Contents) (r' : ChainDb × ℕ), c.OfPayer db.toAuthDb trx.gasPayer →
        applyTransactionBody cfg t builder true trx (db.replaced c) = .ok r' → r'.2 ≠ 0 →
        GasConsent (db.replaced c).toAuthDb keys trx.gasPayer) ↔
      PayerChecked db.toAuthDb trx := by
  classical
  constructor
  · intro hall
    by_contra hunchecked
    let c : Contents := fun k =>
      if k.1 = trx.gasPayer ∧ Ancestor db.toAuthDb trx.gasPayer k.2 then some unsatisfiable else none
    have hc : c.OfPayer db.toAuthDb trx.gasPayer := by
      intro k hk
      by_contra hne
      simp [c, hne] at hk
    have hsame : ∀ msg ∈ trx.messages, ∀ auth ∈ msg.authorization, ∀ other,
        Reaches db.toAuthDb auth other → c other.key = none := by
      intro msg hmsg auth hauth other hreach
      refine if_neg fun hfree => hunchecked ⟨msg, hmsg, auth, hauth, other.authority, hfree.2, ?_⟩
      rw [← show other.account = trx.gasPayer from hfree.1]
      exact hreach
    obtain ⟨db', happlied⟩ := applyTransactionBody_replaced h hsame
    obtain ⟨name, hname, hsat⟩ := hall c (db', r.2) hc happlied hgas
    obtain ⟨obj, hobj⟩ := hname.of_replaced.row
    have hblank : c (trx.gasPayer, name) = some unsatisfiable := if_pos ⟨rfl, hname.of_replaced⟩
    refine not_satisfies_unsatisfiable (find?_replaced_some hobj) ?_ hsat
    rw [show AccountAuth.key ⟨trx.gasPayer, name⟩ = (trx.gasPayer, name) from rfl, hblank]
    rfl
  · rintro ⟨msg, hmsg, auth, hauth, name, hname, hreach⟩ c r' hc happlied -
    obtain ⟨-, hcheck, -⟩ := applyTransactionBody_ok happlied
    simp only [checkAuth, if_true, bind_eq_ok, hkeys, Except.ok.injEq, exists_eq_left'] at hcheck
    have hsat := checkAuthorization_sound hcheck hmsg hauth
    rcases hreach.replaced (c := c) with hreach | ⟨mid, hmid, hreach⟩
    · exact ⟨name, hname.replaced, hsat _ hreach⟩
    · obtain ⟨hpayer, hanc⟩ := hc _ hmid
      refine ⟨mid.authority, hanc.replaced, ?_⟩
      rw [← show mid.account = trx.gasPayer from hpayer]
      exact hsat mid hreach

end Gas

/-- Five tokens that account 1 sends to itself, by a message to its own account. -/
def sendSelf : Message := ⟨1, .transfer, [⟨1, xmaxActiveName⟩], [1, 1, 5]⟩

/-- Two tokens a step, paid by account 1. -/
def sendSelfPaid : SignedTransaction :=
  { scope := [1], messages := [sendSelf], gas := 2, gaslimit := 50, gasPayer := 1,
    signatures := [21] }

theorem gas_consent_sendSelf :
    ∃ r, applyTransactionBody stampConfig 0 2 true sendSelfPaid signingPair = .ok r ∧ r.2 = 10 ∧
      GasConsent signingPair.toAuthDb [21] 1 := by
  obtain ⟨r, h, hgas⟩ := exists_ok_of_eval (P := fun r : ChainDb × ℕ => r.2 = 10)
    (x := applyTransactionBody stampConfig 0 2 true sendSelfPaid signingPair) (by decide)
  have hrow : signingPair.authorities.find? (1, xmaxActiveName) = some ⟨2, 1, oneKey 21, 0⟩ := by
    decide
  have hactive : Ancestor signingPair.toAuthDb 1 xmaxActiveName := .active hrow
  have hchecked : PayerChecked signingPair.toAuthDb sendSelfPaid :=
    ⟨sendSelf, List.mem_singleton_self _, ⟨1, xmaxActiveName⟩, List.mem_singleton_self _,
      xmaxActiveName, hactive, .refl⟩
  have hconsent := (gas_consent_iff h (by omega) rfl).2 hchecked (fun _ => none) r (by simp [Contents.OfPayer])
    h (by omega)
  exact ⟨r, h, hgas, hconsent⟩

/-- The same with tokens for account 2, which pays and of which nobody asks anything. -/
def fundedPair : ChainDb := { signingPair with tokens := .ofList [(1, 100), (2, 100)] }

def sendSelfPaidByTwo : SignedTransaction := { sendSelfPaid with gasPayer := 2 }

/-- Both authorities of account 2 ask for its key. -/
theorem fundedPair_not_satisfied (name : AuthorityName) :
    ¬ Satisfies fundedPair.toAuthDb [21] ⟨2, name⟩ := by
  rintro ⟨obj, others, hrow, hnamed, -, henough⟩
  have hrows : ∀ r ∈ fundedPair.authorities.rows, r.1.1 = 2 → r.2.authoritys = oneKey 22 := by
    decide
  have hobj : obj.authoritys = oneKey 22 := hrows _ (Table.mem_rows_of_find? hrow) rfl
  rw [hobj] at hnamed henough
  obtain rfl : others = [] := List.sublist_nil.1 hnamed
  revert henough
  decide

theorem gas_taken_without_consent :
    ∃ r, applyTransactionBody stampConfig 0 1 true sendSelfPaidByTwo fundedPair = .ok r ∧
      mainToken fundedPair.toLedger 2 = 100 ∧ mainToken r.1.toLedger 2 = 90 ∧ r.2 = 10 ∧
      getSignatureKeys stampConfig sendSelfPaidByTwo = .ok [21] ∧
      ¬ GasConsent fundedPair.toAuthDb [21] sendSelfPaidByTwo.gasPayer := by
  obtain ⟨r, h, hmain, hgas⟩ := exists_ok_of_eval
    (P := fun r : ChainDb × ℕ => mainToken r.1.toLedger 2 = 90 ∧ r.2 = 10)
    (x := applyTransactionBody stampConfig 0 1 true sendSelfPaidByTwo fundedPair) (by decide)
  refine ⟨r, h, by decide, hmain, hgas, rfl, ?_⟩
  rintro ⟨name, -, hsat⟩
  exact fundedPair_not_satisfied name hsat

end XmaxChain
