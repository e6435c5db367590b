import XmaxChain.Escapes
import XmaxChain.Spending

/-!
# The gas of a transaction

Each message that a native handler runs costs the handler's step, each run of a contract the
instructions it executes, times the price that the transaction names. The counter has 64 bits. It is
compared with the limit after a native message and after no contract: a contract is given the whole limit
again, and one that ends with an exception is not charged at all.
-/

namespace XmaxChain

/-- The account that a run is on, if it is a contract. -/
def Run.isContract (run : Run) : Bool :=
  (run.start.db.accounts.find? run.ctx.code).any (·.type = .contract)

def Run.nativeScope (run : Run) : NativeScope :=
  ((run.start.db.accounts.find? run.ctx.code).map fun acc => getNativeScope acc.type).getD .invalid

def Run.outcome (env : Env) (run : Run) : VmOutcome :=
  let gas := run.ctx.trx.gas
  env.vm.apply run.start.db.toLedger run.ctx
    (u32 (if gas ≠ 0 then run.ctx.trx.gaslimit / gas else 1000))

/-- What a run costs: the step of a handler that is not only notified, or the instructions of a
contract. -/
def Run.cost (env : Env) (run : Run) : ℕ :=
  if run.isContract then (run.outcome env).executed * run.ctx.trx.gas
  else if run.isNotify then 0
  else getNativeHandlerGasstep run.nativeScope run.ctx.msg.type * run.ctx.trx.gas

/-- What is added for it. -/
def Run.charge (env : Env) (run : Run) : ℕ :=
  if run.isContract then
    if (run.outcome env).threw then 0
    else getExecutedInsCount (run.outcome env).executed * run.ctx.trx.gas
  else if run.isNotify then 0
  else getNativeHandlerGasstep run.nativeScope run.ctx.msg.type * run.ctx.trx.gas

/-- What transactions cost, over all runs of their messages. -/
def gasOwed (env : Env) (runs : List Run) : ℕ := (runs.map (·.cost env)).sum

section Metering

variable {env : Env} {run : Run} {s s' : ExecState} {ctx : MessageContext}

theorem u64_add_u64 (a b : ℕ) : u64 (a + u64 b) = u64 (a + b) := by
  unfold u64
  omega

/-- One run adds its charge to the counter. -/
theorem Run.usedGas_eq (h : execOneMessage env run.ctx run.isNotify run.start = .ok s')
    (hused : run.start.usedGas < 2 ^ 64) :
    s'.usedGas = u64 (run.start.usedGas + run.charge env) ∧
      (run.isContract = false → run.isNotify = false → s'.usedGas ≤ run.ctx.trx.gaslimit) := by
  have hkept : u64 (run.start.usedGas + 0) = run.start.usedGas := Nat.mod_eq_of_lt hused
  simp only [execOneMessage, bind_eq_ok, captureRethrow_eq_ok, runCode, dbGet_eq_ok] at h
  obtain ⟨s₁, ⟨acc, hacc, hcode⟩, hs'⟩ := h
  cases hs'
  unfold charge isContract nativeScope
  simp only [hacc, Option.any_some, Option.map_some, Option.getD_some, decide_eq_true_eq,
    decide_eq_false_iff_not]
  split at hcode
  · rename_i hnative
    obtain ⟨-, -, hcode⟩ := bind_eq_ok.1 hcode
    simp only [hnative, if_false]
    unfold runNative at hcode
    split at hcode
    · rename_i hnotify
      simp only [hnotify, if_true, hkept]
      refine ⟨?_, by simp⟩
      split at hcode
      · obtain ⟨r, -, rfl⟩ := runHandler_eq_ok.1 hcode
        rfl
      · cases hcode
        rfl
    · rename_i hnotify
      simp only [hnotify]
      obtain ⟨_, hlimit, hcode⟩ := bind_eq_ok.1 hcode
      rw [fcAssert_eq_ok, decide_eq_true_eq] at hlimit
      split at hcode
      · obtain ⟨r, -, rfl⟩ := runHandler_eq_ok.1 hcode
        exact ⟨u64_add_u64 _ _, fun _ _ => hlimit⟩
      · cases hcode
  · rename_i hcontract
    rw [not_not] at hcontract
    obtain ⟨-, -, hcode⟩ := bind_eq_ok.1 hcode
    cases hcode
    simp only [hcontract, if_true, not_true, false_imp_iff, and_true]
    cases hthrew : (run.outcome env).threw with
    | true =>
      simp only [runContract, show (env.vm.apply run.start.db.toLedger run.ctx _).threw = true from hthrew,
        if_true, hkept]
    | false =>
      simp only [runContract, show (env.vm.apply run.start.db.toLedger run.ctx _).threw = false from hthrew]
      exact u64_add_u64 _ _

/-- A list of runs that go through, with the counter before the first and after the last. -/
inductive Metered (env : Env) (trx : SignedTransaction) : ℕ → List Run → ℕ → Prop
  | nil (used : ℕ) : Metered env trx used [] used
  | cons {run : Run} {s : ExecState} {runs : List Run} {used : ℕ} (same : run.ctx.trx = trx)
      (ran : execOneMessage env run.ctx run.isNotify run.start = .ok s)
      (rest : Metered env trx s.usedGas runs used) :
      Metered env trx run.start.usedGas (run :: runs) used

variable {trx : SignedTransaction} {t u v w : ℕ} {runs runs' : List Run}

theorem Metered.append (h : Metered env trx u runs v) (h' : Metered env trx v runs' w) :
    Metered env trx u (runs ++ runs') w := by
  induction h with
  | nil => exact h'
  | cons same ran _ ih => exact .cons same ran (ih h')

theorem notifyLoop_metered {fuel i : ℕ} (htrx : ctx.trx = trx)
    (h : notifyLoop env ctx fuel i s = .ok s') :
    Metered env trx s.usedGas (notifyRuns env ctx fuel i s) s'.usedGas := by
  induction fuel generalizing i s with
  | zero => cases h
  | succ fuel ih =>
    unfold notifyLoop at h
    unfold notifyRuns
    cases hrec : s.notified[i]? with
    | none =>
      simp only [hrec] at h
      cases h
      exact .nil _
    | some account =>
      simp only [hrec, bind_eq_ok] at h
      obtain ⟨s₁, h₁, h⟩ := h
      simp only [h₁]
      exact @Metered.cons env trx ⟨{ ctx with code := account }, true, s⟩ _ _ _ htrx h₁ (ih h)

theorem execMessage_metered {msg : Message} {db : AuthDb} {used : ℕ}
    (h : execMessage env trx t msg db used = .ok s') :
    Metered env trx used (messageRuns env trx t msg db used) s'.usedGas := by
  simp only [execMessage, bind_eq_ok] at h
  obtain ⟨s₁, h₁, -, -, hloop⟩ := h
  unfold messageRuns
  simp only [h₁]
  exact @Metered.cons env trx ⟨⟨trx, msg, msg.code, t⟩, false, ⟨db, [msg.code], used⟩⟩ _ _ _ rfl h₁
    (notifyLoop_metered rfl hloop)

theorem execMessages_metered {msgs : List Message} {db : AuthDb} {used : ℕ} {r : AuthDb × ℕ}
    (h : execMessages env trx t msgs db used = .ok r) :
    Metered env trx used (trxRuns env trx t msgs db used) r.2 := by
  induction msgs generalizing db used with
  | nil =>
    cases h
    exact .nil _
  | cons msg msgs ih =>
    simp only [execMessages, bind_eq_ok] at h
    obtain ⟨s, hs, h⟩ := h
    unfold trxRuns
    simp only [hs]
    exact (execMessage_metered hs).append (ih h)

/-- The run neither gets past the counter nor past what is left of the limit, when `sum` has been used
before it. -/
structure Run.Within (env : Env) (sum : ℕ) (run : Run) : Prop where
  native : run.isContract = false → sum + run.cost env < 2 ^ 64
  contract : run.isContract = true → sum + run.cost env ≤ run.ctx.trx.gaslimit
  counted : run.isContract = true → run.ctx.trx.gas ≠ 0 →
    (run.outcome env).executed < 2 ^ 31 ∧
      ((run.outcome env).threw = true → (run.outcome env).executed = 0)

/-- Each run of a list is, with those before it counted. -/
def WithinLimit (env : Env) : ℕ → List Run → Prop
  | _, [] => True
  | sum, run :: runs => run.Within env sum ∧ WithinLimit env (sum + run.cost env) runs

theorem getExecutedInsCount_of_lt {n : ℕ} (h : n < 2 ^ 31) : getExecutedInsCount n = n := by
  have hn : u32 n = n := Nat.mod_eq_of_lt (h.trans (by decide))
  simp only [getExecutedInsCount, hn, if_pos h]

theorem Run.Within.charge_eq {sum : ℕ} (h : run.Within env sum) : run.charge env = run.cost env := by
  unfold charge cost
  cases hcontract : run.isContract with
  | false => rfl
  | true =>
    by_cases hgas : run.ctx.trx.gas = 0
    · simp [hgas]
    · obtain ⟨hlt, hthrew⟩ := h.counted hcontract hgas
      simp only [if_true]
      split_ifs with hthrow
      · simp [hthrew hthrow]
      · rw [getExecutedInsCount_of_lt hlt]

/-- Then what is charged is what is owed, and within the limit. -/
theorem Metered.exact_of_within (h : Metered env trx u runs v) (hlimit : trx.gaslimit < 2 ^ 64)
    (hu : u ≤ trx.gaslimit) (hwithin : WithinLimit env u runs) :
    v = u + gasOwed env runs ∧ v ≤ trx.gaslimit := by
  induction h with
  | nil => exact ⟨by simp [gasOwed], hu⟩
  | @cons run s runs used same ran rest ih =>
    obtain ⟨hrun, hrest⟩ := hwithin
    obtain ⟨hused, hnative⟩ := Run.usedGas_eq ran (hu.trans_lt hlimit)
    rw [hrun.charge_eq] at hused
    have hfits : run.start.usedGas + run.cost env < 2 ^ 64 := by
      cases hcontract : run.isContract with
      | false => exact hrun.native hcontract
      | true => exact (same ▸ hrun.contract hcontract).trans_lt hlimit
    rw [show u64 (run.start.usedGas + run.cost env) = _ from Nat.mod_eq_of_lt hfits] at hused
    have hle : s.usedGas ≤ trx.gaslimit := by
      cases hcontract : run.isContract with
      | true => exact hused ▸ same ▸ hrun.contract hcontract
      | false =>
        cases hnotify : run.isNotify with
        | false => exact same ▸ hnative hcontract hnotify
        | true =>
          rw [hused, show run.cost env = 0 by simp [Run.cost, hcontract, hnotify]]
          exact hu
    obtain ⟨hv, hvle⟩ := ih hle (hused ▸ hrest)
    refine ⟨?_, hvle⟩
    rw [hv, hused, gasOwed, gasOwed, List.map_cons, List.sum_cons, Nat.add_assoc]

theorem Run.charge_le_cost (h : (run.outcome env).executed < 2 ^ 31) : run.charge env ≤ run.cost env := by
  unfold charge cost
  rw [getExecutedInsCount_of_lt h]
  split_ifs
  · exact Nat.zero_le _
  · exact le_rfl
  · exact le_rfl
  · exact le_rfl

/-- If, as far as instruction counts fit an `int`, what is charged is what is owed and within the limit,
then so was each run. -/
theorem Metered.within_of_exact (h : Metered env trx u runs v) (hlimit : trx.gaslimit < 2 ^ 64)
    (hcounts : ∀ run ∈ runs, (run.outcome env).executed < 2 ^ 31) {n : ℕ} (hu : u ≤ n)
    (hv : v = n + gasOwed env runs) (hle : v ≤ trx.gaslimit) : u = n ∧ WithinLimit env n runs := by
  induction h generalizing n with
  | nil => exact ⟨by simpa [gasOwed] using hv, trivial⟩
  | @cons run s runs used same ran rest ih =>
    have hcount := hcounts run List.mem_cons_self
    have hcharge : run.charge env ≤ run.cost env := Run.charge_le_cost hcount
    rw [gasOwed, List.map_cons, List.sum_cons, ← Nat.add_assoc] at hv
    have hsum : n + run.cost env ≤ trx.gaslimit := by
      rw [hv] at hle
      exact (Nat.le_add_right _ _).trans hle
    obtain ⟨hused, -⟩ := Run.usedGas_eq ran (by omega)
    rw [show u64 (run.start.usedGas + run.charge env) = _ from Nat.mod_eq_of_lt (by omega)] at hused
    obtain ⟨heq, hrest⟩ := ih (fun r hr => hcounts r (List.mem_cons_of_mem _ hr)) (by omega) hv hle
    refine ⟨by omega, ⟨fun _ => by omega, fun _ => same ▸ hsum, fun hcontract hgas => ⟨hcount, ?_⟩⟩, hrest⟩
    intro hthrew
    have hzero : run.charge env = 0 := by simp [Run.charge, hcontract, hthrew]
    have hcost : run.cost env = 0 := by omega
    rw [Run.cost, if_pos hcontract] at hcost
    exact (Nat.mul_eq_zero.1 hcost).resolve_right hgas

end Metering

section Charged

variable {cfg : ChainConfig} {t : ℕ} {builder : AccountName} {check : Bool} {trx : SignedTransaction}
  {db : ChainDb} {r : ChainDb × ℕ}

/-- The runs of a transaction's messages. -/
def gasRuns (cfg : ChainConfig) (t : ℕ) (trx : SignedTransaction) (db : ChainDb) : List Run :=
  trxRuns cfg.env trx t trx.messages db.toAuthDb 0

/-- What is charged to the payer is the gas that is owed, and within the limit. -/
structure GasExact (cfg : ChainConfig) (t : ℕ) (builder : AccountName) (trx : SignedTransaction)
    (db : ChainDb) (r : ChainDb × ℕ) : Prop where
  charged : ∃ auth : AuthDb, exec cfg.env trx t db.toAuthDb = .ok (auth, r.2) ∧
    transferGas builder auth.toLedger trx.gasPayer r.2 = .ok r.1.toLedger
  exact : r.2 = gasOwed cfg.env (gasRuns cfg t trx db)
  bounded : gasOwed cfg.env (gasRuns cfg t trx db) ≤ trx.gaslimit

/-- The gas of a transaction that goes through is exact if each run stays within what is left of the
limit and is counted; and only then, as far as instruction counts fit an `int`. -/
theorem gas_exact_iff (h : applyTransactionBody cfg t builder check trx db = .ok r)
    (hlimit : trx.gaslimit < 2 ^ 64) :
    (WithinLimit cfg.env 0 (gasRuns cfg t trx db) → GasExact cfg t builder trx db r) ∧
      ((∀ run ∈ gasRuns cfg t trx db, (run.outcome cfg.env).executed < 2 ^ 31) →
        GasExact cfg t builder trx db r → WithinLimit cfg.env 0 (gasRuns cfg t trx db)) := by
  obtain ⟨-, -, auth, l, transactions, hexec, htransfer, -, hdb⟩ := applyTransactionBody_ok h
  have hmetered : Metered cfg.env trx 0 (gasRuns cfg t trx db) r.2 := execMessages_metered hexec
  refine ⟨fun hwithin => ?_, fun hcounts hexact => ?_⟩
  · obtain ⟨hcharged, hle⟩ := hmetered.exact_of_within hlimit (Nat.zero_le _) hwithin
    rw [Nat.zero_add] at hcharged
    refine ⟨⟨auth, hexec, ?_⟩, hcharged, hcharged ▸ hle⟩
    rw [hdb]
    exact htransfer
  · refine (hmetered.within_of_exact hlimit hcounts le_rfl ?_ ?_).2
    · rw [hexact.exact, Nat.zero_add]
    · rw [hexact.exact]
      exact hexact.bounded

end Charged

/-! ## Two transactions with a price -/

instance (env : Env) (sum : ℕ) (run : Run) : Decidable (run.Within env sum) :=
  decidable_of_iff ((run.isContract = false → sum + run.cost env < 2 ^ 64) ∧
      (run.isContract = true → sum + run.cost env ≤ run.ctx.trx.gaslimit) ∧
      (run.isContract = true → run.ctx.trx.gas ≠ 0 → (run.outcome env).executed < 2 ^ 31 ∧
        ((run.outcome env).threw = true → (run.outcome env).executed = 0)))
    ⟨fun ⟨hn, hc, hi⟩ => ⟨hn, hc, hi⟩, fun ⟨hn, hc, hi⟩ => ⟨hn, hc, hi⟩⟩

instance (env : Env) : ∀ sum runs, Decidable (WithinLimit env sum runs)
  | _, [] => .isTrue trivial
  | sum, run :: runs =>
    haveI : Decidable (WithinLimit env (sum + run.cost env) runs) :=
      instDecidableWithinLimit env _ runs
    inferInstanceAs (Decidable (run.Within env sum ∧ WithinLimit env (sum + run.cost env) runs))

/-- The five tokens at a price of two for each step, which account 1 pays. -/
def paidFive : SignedTransaction :=
  { sendFiveTrx with signatures := [21], gas := 2, gaslimit := 50, gasPayer := 1 }

theorem gas_exact_five :
    ∃ r, applyTransactionBody stampConfig 0 2 true paidFive signingPair = .ok r ∧ r.2 = 10 ∧
      GasExact stampConfig 0 2 paidFive signingPair r := by
  obtain ⟨r, h, hr⟩ := exists_ok_of_eval (P := fun r : ChainDb × ℕ => r.2 = 10)
    (x := applyTransactionBody stampConfig 0 2 true paidFive signingPair) (by decide)
  exact ⟨r, h, hr, (gas_exact_iff h (by decide)).1 (by decide)⟩

/-- A script engine whose contracts execute thirty instructions. -/
def busyVm : Vm where
  apply l _ _ := { records := l.records, executed := 30 }
  init l _ := some l.records

def busyConfig : ChainConfig := { stampConfig with env := ⟨fieldCodec, busyVm⟩ }

/-- The two accounts, and a contract. -/
def pairWithContract : ChainDb :=
  { signingPair with
    accounts := .ofList [(xmaxContractName, ⟨.system, 0, none⟩), (1, ⟨.personal, 0, none⟩),
      (2, ⟨.personal, 0, none⟩), (3, ⟨.contract, 0, some ⟨[], []⟩⟩)] }

def callContract : Message := ⟨3, .transfer, [⟨1, xmaxActiveName⟩], []⟩

def callTwice : SignedTransaction :=
  { scope := [1, 3], messages := [callContract, callContract], signatures := [21]
    gas := 1, gaslimit := 50, gasPayer := 1 }

/-- Either call is within the limit, and both are charged: sixty, where fifty is the limit. -/
theorem contract_gas_past_limit :
    ∃ r, applyTransactionBody busyConfig 0 2 true callTwice pairWithContract = .ok r ∧ r.2 = 60 ∧
      ¬ GasExact busyConfig 0 2 callTwice pairWithContract r := by
  obtain ⟨r, h, hr⟩ := exists_ok_of_eval (P := fun r : ChainDb × ℕ => r.2 = 60)
    (x := applyTransactionBody busyConfig 0 2 true callTwice pairWithContract) (by decide)
  refine ⟨r, h, hr, fun hexact => ?_⟩
  have hbounded := hexact.bounded
  rw [← hexact.exact, hr] at hbounded
  exact absurd hbounded (by decide)

end XmaxChain
