import Mathlib.Logic.Relation
import XmaxChain.Contract

/-!
# Running a transaction's messages

A message runs on the account it is sent to and then, as a notification, on every account that
the handlers added while it ran. Contracts cannot queue inline messages, so nothing runs deeper.
-/

namespace XmaxChain

/-- What running a message changes: the database, the accounts notified and the gas used. -/
structure ExecState where
  db : AuthDb
  notified : List AccountName
  usedGas : ℕ

section Exec

variable (env : Env)

def runHandler (h : NativeHandler) (ctx : MessageContext) (s : ExecState) :
    Except Fault ExecState := do
  let r ← h ctx ⟨s.db, s.notified⟩
  pure ⟨r.db, r.notified, s.usedGas⟩

/-- A handler is only looked up for a notification, and not charged. -/
def runNative (scope : NativeScope) (ctx : MessageContext) (isNotify : Bool) (s : ExecState) :
    Except Fault ExecState :=
  if isNotify then
    match findNativeHandler env scope ctx.msg.type with
    | some h => runHandler h ctx s
    | none => pure s
  else do
    let step := getNativeHandlerGasstep scope ctx.msg.type
    let usedGas := u64 (s.usedGas + u64 (step * ctx.trx.gas))
    fcAssert (usedGas ≤ ctx.trx.gaslimit) "transaction out of gas"
    match findNativeHandler env scope ctx.msg.type with
    | some h => runHandler h ctx { s with usedGas := usedGas }
    | none => .error (.fc "There is not function in account")

/-- `GetExecutedInsCount`, with which `gas` is multiplied: a 32-bit count that is returned as an
`int`. -/
def getExecutedInsCount (executed : ℕ) : ℕ :=
  let count := u32 executed
  if count < 2 ^ 31 then count else 2 ^ 64 - 2 ^ 32 + count

/-- An exception in the script is only logged: what it stored before stays, and is not charged. -/
def runContract (ctx : MessageContext) (s : ExecState) : ExecState :=
  let limit := if ctx.trx.gas ≠ 0 then ctx.trx.gaslimit / ctx.trx.gas else 1000
  let out := env.vm.apply s.db.toLedger ctx (u32 limit)
  { s with
    db := { s.db with records := out.records }
    usedGas :=
      if out.threw then s.usedGas
      else u64 (s.usedGas + u64 (getExecutedInsCount out.executed * ctx.trx.gas)) }

def runCode (ctx : MessageContext) (isNotify : Bool) (s : ExecState) : Except Fault ExecState := do
  let acc ← dbGet s.db.accounts ctx.code
  if acc.type ≠ .contract then do
    fcAssert (getNativeScope acc.type ≠ .invalid) "Unknown native scope type of account"
    runNative env (getNativeScope acc.type) ctx isNotify s
  else do
    fcAssert acc.contract.isSome "contract is not found"
    pure (runContract env ctx s)

def execOneMessage (ctx : MessageContext) (isNotify : Bool) (s : ExecState) :
    Except Fault ExecState := do
  let s ← captureRethrow (runCode env ctx isNotify s)
  pure { s with db := { s.db with msgCounter := u64 (s.db.msgCounter + 1) } }

/-- The loop over `notified`, which may grow while it runs. -/
def notifyLoop (ctx : MessageContext) : ℕ → ℕ → ExecState → Except Fault ExecState
  | 0, _, _ => .error .diverged
  | fuel + 1, i, s =>
    match s.notified[i]? with
    | none => pure s
    | some account => do
      let s ← execOneMessage env { ctx with code := account } true s
      notifyLoop ctx fuel (i + 1) s

/-- No message has as many recipients. -/
def maxRecipients : ℕ := 1000

def execMessage (trx : SignedTransaction) (currentTime : ℕ) (msg : Message) (db : AuthDb)
    (usedGas : ℕ) : Except Fault ExecState := do
  let ctx : MessageContext := ⟨trx, msg, msg.code, currentTime⟩
  let s ← execOneMessage env ctx false ⟨db, [msg.code], usedGas⟩
  fcAssert (s.notified.length < maxRecipients) "to many recipient."
  notifyLoop env ctx maxRecipients 1 s

/-- `exec`, from a list of messages left to run. -/
def execMessages (trx : SignedTransaction) (currentTime : ℕ) :
    List Message → AuthDb → ℕ → Except Fault (AuthDb × ℕ)
  | [], db, usedGas => .ok (db, usedGas)
  | msg :: msgs, db, usedGas => do
    let s ← execMessage env trx currentTime msg db usedGas
    execMessages trx currentTime msgs s.db s.usedGas

def exec (trx : SignedTransaction) (currentTime : ℕ) (db : AuthDb) : Except Fault (AuthDb × ℕ) :=
  execMessages env trx currentTime trx.messages db 0

/-- One call of `exec_one_message`: the account and message it is for, whether it is a notification,
and what it starts from. -/
structure Run where
  ctx : MessageContext
  isNotify : Bool
  start : ExecState

/-- The runs that the loop over the recipients makes, up to one that throws. -/
def notifyRuns (ctx : MessageContext) : ℕ → ℕ → ExecState → List Run
  | 0, _, _ => []
  | fuel + 1, i, s =>
    match s.notified[i]? with
    | none => []
    | some account =>
      ⟨{ ctx with code := account }, true, s⟩ ::
        match execOneMessage env { ctx with code := account } true s with
        | .ok s => notifyRuns ctx fuel (i + 1) s
        | .error _ => []

/-- The runs of a message, first on the account it is sent to. -/
def messageRuns (trx : SignedTransaction) (currentTime : ℕ) (msg : Message) (db : AuthDb)
    (usedGas : ℕ) : List Run :=
  let ctx : MessageContext := ⟨trx, msg, msg.code, currentTime⟩
  ⟨ctx, false, ⟨db, [msg.code], usedGas⟩⟩ ::
    match execOneMessage env ctx false ⟨db, [msg.code], usedGas⟩ with
    | .ok s => notifyRuns env ctx maxRecipients 1 s
    | .error _ => []

/-- The runs of a transaction's messages, up to one that throws. -/
def trxRuns (trx : SignedTransaction) (currentTime : ℕ) : List Message → AuthDb → ℕ → List Run
  | [], _, _ => []
  | msg :: msgs, db, usedGas =>
    messageRuns env trx currentTime msg db usedGas ++
      match execMessage env trx currentTime msg db usedGas with
      | .ok s => trxRuns trx currentTime msgs s.db s.usedGas
      | .error _ => []

end Exec

/-! ## What one run does, and what a message does -/

section Runs

variable {env : Env} {ctx : MessageContext} {s s' : ExecState}

/-- The records that contracts store and the count of messages are all that running an account
changes by itself. -/
structure SameTables (l l' : Ledger) : Prop where
  accounts : l'.accounts = l.accounts
  tokens : l'.tokens = l.tokens
  resources : l'.resources = l.resources
  voters : l'.voters = l.voters
  builders : l'.builders = l.builders
  erc20s : l'.erc20s = l.erc20s
  erc20Accounts : l'.erc20Accounts = l.erc20Accounts
  erc721s : l'.erc721s = l.erc721s
  erc721Accounts : l'.erc721Accounts = l.erc721Accounts

theorem SameTables.refl (l : Ledger) : SameTables l l := by constructor <;> rfl

/-- What one run does to the ledger: the handler of the account's scope writes it, or none does. -/
inductive RunOn (env : Env) (ctx : MessageContext) (l : Ledger) (notified : List AccountName)
    (isNotify : Bool) : Ledger → List AccountName → Prop
  | handler (acc : AccountObject) (h : LedgerHandler) (r : HandlerState) (l' : Ledger)
      (account : l.accounts.find? ctx.code = some acc)
      (found : ledgerHandler env (getNativeScope acc.type) ctx.msg.type = some h)
      (ran : h ctx ⟨l, notified⟩ = .ok r) (same : SameTables r.ledger l') :
      RunOn env ctx l notified isNotify l' r.notified
  | addaccount (acc : AccountObject) (create : Types.AddAccount) (r l' : Ledger)
      (account : l.accounts.find? ctx.code = some acc)
      (scope : getNativeScope acc.type = .system) (type : ctx.msg.type = .addaccount)
      (data : env.codec.addaccount ctx.msg.data = some create)
      (ran : addaccountTokens ctx create l = .ok r) (same : SameTables r l') :
      RunOn env ctx l notified isNotify l' notified
  | silent (acc : AccountObject) (l' : Ledger)
      (account : l.accounts.find? ctx.code = some acc)
      (unknown : acc.type = .contract ∨
        isNotify = true ∧ findNativeHandler env (getNativeScope acc.type) ctx.msg.type = none)
      (same : SameTables l l') :
      RunOn env ctx l notified isNotify l' notified

theorem addAuthority_ledger {db db' : AuthDb} {owner : AccountName} {name : AuthorityName}
    {parent : ℕ} {auth : Types.Authority} (h : addAuthority ctx db owner name parent auth = .ok db') :
    db'.toLedger = db.toLedger := by
  simp only [addAuthority, bind_eq_ok] at h
  obtain ⟨_, -, h⟩ := h
  cases h
  rfl

private theorem RunOn.of_native {acc : AccountObject} {h : NativeHandler} {r : DbState} {l' : Ledger}
    {isNotify : Bool} (account : s.db.accounts.find? ctx.code = some acc)
    (found : findNativeHandler env (getNativeScope acc.type) ctx.msg.type = some h)
    (ran : h ctx ⟨s.db, s.notified⟩ = .ok r) (same : SameTables r.db.toLedger l') :
    RunOn env ctx s.db.toLedger s.notified isNotify l' r.notified := by
  unfold findNativeHandler at found
  split at found
  · rename_i hadd
    cases found
    simp only [xmaxSystemAddaccount, bind_eq_ok, unpackAs_eq_ok] at ran
    obtain ⟨create, hdata, l, hl, db₁, h₁, db₂, h₂, ran⟩ := ran
    cases ran
    have hledger : db₂.toLedger = l := (addAuthority_ledger h₂).trans (addAuthority_ledger h₁)
    exact .addaccount acc create l l' account hadd.1 hadd.2 hdata hl (hledger ▸ same)
  · obtain ⟨h', hh', rfl⟩ := Option.map_eq_some_iff.1 found
    simp only [onLedger, bind_eq_ok] at ran
    obtain ⟨r', hr', ran⟩ := ran
    cases ran
    exact .handler acc h' r' l' account hh' hr' same

theorem runHandler_eq_ok {h : NativeHandler} :
    runHandler h ctx s = .ok s' ↔
      ∃ r, h ctx ⟨s.db, s.notified⟩ = .ok r ∧ s' = ⟨r.db, r.notified, s.usedGas⟩ := by
  simp only [runHandler, bind_eq_ok]
  exact exists_congr fun r => and_congr_right fun _ => by simp [pure, Except.pure, eq_comm]

/-- One call of `exec_one_message` is one run. -/
theorem execOneMessage_runOn {isNotify : Bool} (h : execOneMessage env ctx isNotify s = .ok s') :
    RunOn env ctx s.db.toLedger s.notified isNotify s'.db.toLedger s'.notified := by
  simp only [execOneMessage, bind_eq_ok, captureRethrow_eq_ok, runCode, dbGet_eq_ok] at h
  obtain ⟨s₁, ⟨acc, account, h⟩, hs'⟩ := h
  cases hs'
  split at h
  · simp only [bind_eq_ok] at h
    obtain ⟨-, -, h⟩ := h
    unfold runNative at h
    split at h
    · rename_i hnotify
      cases hf : findNativeHandler env (getNativeScope acc.type) ctx.msg.type with
      | none =>
        simp only [hf] at h
        cases h
        exact .silent acc _ account (.inr ⟨hnotify, hf⟩) (by constructor <;> rfl)
      | some nh =>
        simp only [hf] at h
        obtain ⟨r, hr, rfl⟩ := runHandler_eq_ok.1 h
        exact .of_native account hf hr (by constructor <;> rfl)
    · simp only [bind_eq_ok] at h
      obtain ⟨-, -, h⟩ := h
      cases hf : findNativeHandler env (getNativeScope acc.type) ctx.msg.type with
      | none => simp [hf] at h
      | some nh =>
        simp only [hf] at h
        obtain ⟨r, hr, rfl⟩ := runHandler_eq_ok.1 h
        exact .of_native account hf hr (by constructor <;> rfl)
  · rename_i hcontract
    simp only [bind_eq_ok] at h
    obtain ⟨-, -, h⟩ := h
    cases h
    exact .silent acc _ account (.inl (by simpa using hcontract)) (by constructor <;> rfl)

/-- What the handlers keep, and what contracts and the counter do not touch, a run keeps. -/
theorem execOneMessage_keeps {P : AuthDb → Prop} {isNotify : Bool}
    (handler : ∀ {scope type f} {s r : DbState}, findNativeHandler env scope type = some f →
      f ctx s = .ok r → P s.db → P r.db)
    (frame : ∀ db records counter, P db → P { db with records := records, msgCounter := counter })
    (hrun : execOneMessage env ctx isNotify s = .ok s') (h : P s.db) : P s'.db := by
  simp only [execOneMessage, bind_eq_ok, captureRethrow_eq_ok, runCode] at hrun
  obtain ⟨s₁, ⟨acc, -, hcode⟩, hs'⟩ := hrun
  cases hs'
  suffices h₁ : P s₁.db from frame _ _ _ h₁
  split at hcode
  · obtain ⟨-, -, hnative⟩ := bind_eq_ok.1 hcode
    have hhandler : ∀ {f s₀ s₂}, findNativeHandler env (getNativeScope acc.type) ctx.msg.type = some f →
        runHandler f ctx s₀ = .ok s₂ → P s₀.db → P s₂.db := by
      intro f s₀ s₂ hf hran h₀
      obtain ⟨r, hr, rfl⟩ := runHandler_eq_ok.1 hran
      exact handler hf hr h₀
    unfold runNative at hnative
    cases hf : findNativeHandler env (getNativeScope acc.type) ctx.msg.type with
    | none =>
      simp only [hf] at hnative
      split at hnative
      · cases hnative
        exact h
      · obtain ⟨-, -, hnative⟩ := bind_eq_ok.1 hnative
        cases hnative
    | some f =>
      simp only [hf] at hnative
      split at hnative
      · exact hhandler hf hnative h
      · obtain ⟨-, -, hnative⟩ := bind_eq_ok.1 hnative
        exact hhandler hf hnative h
  · obtain ⟨-, -, hcode⟩ := bind_eq_ok.1 hcode
    cases hcode
    exact frame _ _ s.db.msgCounter h

/-- Whether a message sent or notified to `a` runs the system handlers. -/
def runsSystem (l : Ledger) (a : AccountName) : Bool :=
  (l.accounts.find? a).any fun acc => getNativeScope acc.type = .system

/-- The functions of the system contract are not functions of the token contracts. -/
theorem onlySystem {type : FuncName} {h : LedgerHandler}
    (hh : ledgerHandler env .system type = some h) (scope : NativeScope) :
    ledgerHandler env scope type = if scope = .system then some h else none := by
  cases scope with
  | system => exact hh
  | _ => cases type <;> first | rfl | cases hh

/-- A function that only the system scope has runs its handler on accounts of that scope and
nothing elsewhere. -/
theorem RunOn.system {h : LedgerHandler} {type : FuncName} {l l' : Ledger}
    {N N' : List AccountName} {n : Bool}
    (hh : ledgerHandler env .system type = some h) (hrun : RunOn env ctx l N n l' N')
    (ht : ctx.msg.type = type) :
    (runsSystem l ctx.code = true ∧ ∃ r, h ctx ⟨l, N⟩ = .ok r ∧ SameTables r.ledger l' ∧
      N' = r.notified) ∨
    (runsSystem l ctx.code = false ∧ SameTables l l' ∧ N' = N) := by
  subst ht
  have hadd : ctx.msg.type ≠ .addaccount := by
    intro hadd
    rw [hadd] at hh
    cases hh
  cases hrun with
  | handler acc h' r l' account found ran same =>
    rw [onlySystem hh] at found
    split at found
    · rename_i hscope
      cases found
      exact .inl ⟨by simp [runsSystem, account, hscope], r, ran, same, rfl⟩
    · cases found
  | addaccount acc create r l' account scope type data ran same => exact absurd type hadd
  | silent acc l' account unknown same =>
    refine .inr ⟨?_, same, rfl⟩
    rcases unknown with htype | ⟨-, hnone⟩
    · simp [runsSystem, account, htype, getNativeScope]
    · have hscope : getNativeScope acc.type ≠ .system := by
        intro hscope
        simp [findNativeHandler, hscope, hadd, hh] at hnone
      simp [runsSystem, account, hscope]

/-- One run of `msg` as a notification, on whichever account. -/
def Notifies (env : Env) (ctx : MessageContext) (s s' : ExecState) : Prop :=
  ∃ account, execOneMessage env { ctx with code := account } true s = .ok s'

theorem notifyLoop_run {fuel i : ℕ} (h : notifyLoop env ctx fuel i s = .ok s') :
    Relation.ReflTransGen (Notifies env ctx) s s' := by
  induction fuel generalizing i s with
  | zero => cases h
  | succ fuel ih =>
    simp only [notifyLoop] at h
    split at h
    · cases h
      exact .refl
    · simp only [bind_eq_ok] at h
      obtain ⟨s₁, h₁, h⟩ := h
      exact .head ⟨_, h₁⟩ (ih h)

/-- A message that goes through first runs on the account it is sent to, then notifies. -/
theorem execMessage_run {trx : SignedTransaction} {currentTime : ℕ} {msg : Message} {db : AuthDb}
    {usedGas : ℕ} (h : execMessage env trx currentTime msg db usedGas = .ok s') :
    ∃ s₁, execOneMessage env ⟨trx, msg, msg.code, currentTime⟩ false ⟨db, [msg.code], usedGas⟩
        = .ok s₁ ∧
      notifyLoop env ⟨trx, msg, msg.code, currentTime⟩ maxRecipients 1 s₁ = .ok s' := by
  simp only [execMessage, bind_eq_ok] at h
  obtain ⟨s₁, h₁, -, -, h⟩ := h
  exact ⟨s₁, h₁, h⟩

/-- A message that names no recipient runs once. -/
theorem execMessage_single {trx : SignedTransaction} {currentTime : ℕ} {msg : Message} {db : AuthDb}
    {usedGas : ℕ} (h : execMessage env trx currentTime msg db usedGas = .ok s')
    (hN : ∀ {l' N'}, RunOn env ⟨trx, msg, msg.code, currentTime⟩ db.toLedger [msg.code] false l' N' →
      N' = [msg.code]) :
    RunOn env ⟨trx, msg, msg.code, currentTime⟩ db.toLedger [msg.code] false s'.db.toLedger
      s'.notified := by
  obtain ⟨s₁, h₁, hloop⟩ := execMessage_run h
  have hrun := execOneMessage_runOn h₁
  have hone : s₁.notified[1]? = none := by simp [hN hrun]
  simp only [maxRecipients, notifyLoop, hone] at hloop
  cases hloop
  exact hrun

/-- What holds after the first run and is kept by every notification holds in the end. -/
theorem execMessage_invariant {trx : SignedTransaction} {currentTime : ℕ} {msg : Message}
    {db : AuthDb} {usedGas : ℕ} {P : Ledger → Prop}
    (h : execMessage env trx currentTime msg db usedGas = .ok s')
    (first : ∀ {l' notified'}, RunOn env ⟨trx, msg, msg.code, currentTime⟩ db.toLedger [msg.code]
      false l' notified' → P l')
    (next : ∀ {account l notified l' notified'}, P l →
      RunOn env ⟨trx, msg, account, currentTime⟩ l notified true l' notified' → P l') :
    P s'.db.toLedger := by
  obtain ⟨s₁, h₁, hloop⟩ := execMessage_run h
  have hrun := notifyLoop_run hloop
  clear h hloop
  induction hrun with
  | refl => exact first (execOneMessage_runOn h₁)
  | tail _ hn ih =>
    obtain ⟨account, hn⟩ := hn
    exact next ih (execOneMessage_runOn hn)

end Runs

end XmaxChain
