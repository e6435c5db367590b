import XmaxChain.Consent
import XmaxChain.Dpos
import XmaxChain.ExactlyOnce
import XmaxChain.Transaction

/-!
# A transaction and the consent of those it takes from

The check of a transaction's signatures only says that what its messages declare was signed.
Whether the account that a message takes from is among the declared ones is left to the handlers,
so a transaction takes with consent if and only if each of its messages had it where it ran.
-/

namespace XmaxChain

/-- A message that went through: the ledger it ran on and the one it left. -/
structure MessageStep where
  msg : Message
  before : Ledger
  after : Ledger

/-- The steps of a transaction's messages, up to the first that fails. -/
def messageSteps (env : Env) (trx : SignedTransaction) (currentTime : ℕ) :
    List Message → AuthDb → ℕ → List MessageStep
  | [], _, _ => []
  | msg :: msgs, db, usedGas =>
    match execMessage env trx currentTime msg db usedGas with
    | .ok s =>
      ⟨msg, db.toLedger, s.db.toLedger⟩ :: messageSteps env trx currentTime msgs s.db s.usedGas
    | .error _ => []

section Spending

variable {env : Env} {trx : SignedTransaction} {t : ℕ}

theorem messageSteps_cons {msg : Message} {msgs : List Message} {db : AuthDb} {usedGas : ℕ}
    {s : ExecState} (h : execMessage env trx t msg db usedGas = .ok s) :
    messageSteps env trx t (msg :: msgs) db usedGas
      = ⟨msg, db.toLedger, s.db.toLedger⟩ :: messageSteps env trx t msgs s.db s.usedGas := by
  simp only [messageSteps, h]

/-- Of messages that all go through each is a step, and had consent exactly if it was given. -/
theorem execMessages_steps {msgs : List Message} {db : AuthDb} {usedGas : ℕ} {r : AuthDb × ℕ}
    (h : execMessages env trx t msgs db usedGas = .ok r) :
    (messageSteps env trx t msgs db usedGas).map (·.msg) = msgs ∧
      ∀ step ∈ messageSteps env trx t msgs db usedGas,
        (Consented step.msg.authorized step.before step.after ↔
          ConsentGiven env step.before step.msg) := by
  induction msgs generalizing db usedGas with
  | nil => simp [messageSteps]
  | cons msg msgs ih =>
    simp only [execMessages, bind_eq_ok] at h
    obtain ⟨s, hs, h⟩ := h
    obtain ⟨hmap, hiff⟩ := ih h
    rw [messageSteps_cons hs]
    refine ⟨by simp [hmap], fun step hstep => ?_⟩
    rcases List.mem_cons.1 hstep with rfl | hstep
    · exact execMessage_consented_iff hs
    · exact hiff step hstep

/-- A transaction that goes through takes only from accounts that its messages list if and only if
each of its messages had the consent it needs when it ran. -/
theorem spending_consented_iff {cfg : ChainConfig} {builder : AccountName} {db : ChainDb}
    {r : ChainDb × ℕ} (h : applyTransactionBody cfg t builder true trx db = .ok r) :
    (messageSteps cfg.env trx t trx.messages db.toAuthDb 0).map (·.msg) = trx.messages ∧
      ((∀ step ∈ messageSteps cfg.env trx t trx.messages db.toAuthDb 0,
          Consented step.msg.authorized step.before step.after) ↔
        ∀ step ∈ messageSteps cfg.env trx t trx.messages db.toAuthDb 0,
          ConsentGiven cfg.env step.before step.msg) := by
  obtain ⟨-, -, auth, -, -, hexec, -⟩ := applyTransactionBody_ok h
  obtain ⟨hmap, hiff⟩ := execMessages_steps hexec
  exact ⟨hmap, forall₂_congr hiff⟩

end Spending

/-- An authority that one key satisfies. -/
def oneKey (key : PublicKey) : Types.Authority := ⟨1, [⟨key, 1⟩], []⟩

/-- The two personal accounts, with the keys 21 and 22. -/
def signingPair : ChainDb where
  toAuthDb := { twoPersonal with
    authorities := .ofList [((1, xmaxOwnerName), ⟨1, 0, oneKey 21, 0⟩),
      ((1, xmaxActiveName), ⟨2, 1, oneKey 21, 0⟩), ((2, xmaxOwnerName), ⟨3, 0, oneKey 22, 0⟩),
      ((2, xmaxActiveName), ⟨4, 3, oneKey 22, 0⟩)]
    nextAuthority := 5 }

def stampConfig : ChainConfig :=
  { crypto := stampCrypto, env := fieldEnv, chainId := default, xmaxBuildPublicKey := 7 }

theorem spending_consented_signed :
    ∃ r, applyTransactionBody stampConfig 0 1 true { sendFiveTrx with signatures := [21] } signingPair
        = .ok r ∧
      ∀ step ∈ messageSteps fieldEnv { sendFiveTrx with signatures := [21] } 0 [sendFive]
        signingPair.toAuthDb 0, Consented step.msg.authorized step.before step.after := by
  obtain ⟨r, h, -⟩ := exists_ok_of_eval (P := fun _ => True)
    (x := applyTransactionBody stampConfig 0 1 true { sendFiveTrx with signatures := [21] } signingPair)
    (by decide)
  refine ⟨r, h, (spending_consented_iff h).2.2 fun step hstep => ?_⟩
  have hmsg : step.msg = sendFive := by
    have := List.mem_map_of_mem (f := (·.msg)) hstep
    rw [(spending_consented_iff h).1] at this
    simpa [sendFiveTrx] using this
  rw [hmsg]
  intro _ transfer htransfer
  cases htransfer
  exact .inr (by decide)

/-- The transfer of account 1's tokens, listed and signed by account 2 alone. -/
def takeFive : Message := { sendFive with authorization := [⟨2, xmaxActiveName⟩] }

def takeFiveTrx : SignedTransaction :=
  { scope := [1, 2], messages := [takeFive], signatures := [22] }

theorem transfer_taken_without_consent :
    ∃ r, applyTransactionBody stampConfig 0 1 true takeFiveTrx signingPair = .ok r ∧
      ∃ step ∈ messageSteps fieldEnv takeFiveTrx 0 [takeFive] signingPair.toAuthDb 0,
        ¬ Consented step.msg.authorized step.before step.after := by
  obtain ⟨r, h, -⟩ := exists_ok_of_eval (P := fun _ => True)
    (x := applyTransactionBody stampConfig 0 1 true takeFiveTrx signingPair) (by decide)
  obtain ⟨s, hs, hless⟩ := exists_ok_of_eval
    (x := execMessage fieldEnv takeFiveTrx 0 takeFive signingPair.toAuthDb 0)
    (P := fun s => mainToken s.db.toLedger 1 < mainToken signingPair.toLedger 1) (by decide)
  refine ⟨r, h, ⟨takeFive, signingPair.toLedger, s.db.toLedger⟩, ?_, fun hcons => ?_⟩
  · rw [messageSteps_cons hs]
    exact List.mem_cons_self
  · exact absurd (hcons.main 1 hless) (show 1 ∉ takeFive.authorized by decide)

end XmaxChain
