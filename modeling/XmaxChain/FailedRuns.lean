import XmaxChain.Atomic
import XmaxChain.JsVm

/-!
# Contracts that fail

What a script throws is logged and the transaction goes on; no session is opened around the script,
so what it has stored by then stays. It is gone from the database only if the transaction as a whole
is refused, or if a later run stores to the same record.
-/

namespace XmaxChain

/-! ## Records -/

/-- What tells the records of all contracts apart. -/
abbrev RecordKey := AccountName × AccountName × AccountName × ℕ

def KeyValue.key (r : KeyValue) : RecordKey := (r.scope, r.code, r.table, r.primaryKey)

def recordAt (records : List KeyValue) (k : RecordKey) : Option Bytes :=
  (records.find? (·.key = k)).map (·.value)

/-- What is under a key after some stores. -/
def afterStores (stores : List KeyValue) (k : RecordKey) (before : Option Bytes) : Option Bytes :=
  stores.foldl (fun v r => if r.key = k then some r.value else v) before

section Records

variable {records : List KeyValue} {k : RecordKey} {stores stores' : List KeyValue}
  {before : Option Bytes}

theorem afterStores_append : afterStores (stores ++ stores') k before
    = afterStores stores' k (afterStores stores k before) := List.foldl_append

theorem afterStores_of_not_mem (h : ∀ w ∈ stores, w.key ≠ k) : afterStores stores k before = before := by
  induction stores generalizing before with
  | nil => rfl
  | cons w stores ih =>
    obtain ⟨hw, hrest⟩ := List.forall_mem_cons.1 h
    unfold afterStores at ih ⊢
    rw [List.foldl_cons, if_neg hw]
    exact ih hrest

/-- Under a key that was stored to is what was stored last. -/
theorem exists_afterStores (h : ∃ w ∈ stores, w.key = k) :
    ∃ w ∈ stores, w.key = k ∧ afterStores stores k before = some w.value := by
  induction stores generalizing before with
  | nil => simp at h
  | cons w stores ih =>
    by_cases hlater : ∃ w' ∈ stores, w'.key = k
    · obtain ⟨w', hw', hk, hafter⟩ := @ih (if w.key = k then some w.value else before) hlater
      exact ⟨w', List.mem_cons_of_mem _ hw', hk, hafter⟩
    · obtain ⟨w', hw', hk⟩ := h
      obtain rfl | hw' := List.mem_cons.1 hw'
      · refine ⟨w', List.mem_cons_self, hk, ?_⟩
        have hnone : ∀ x ∈ stores, x.key ≠ k := fun x hx hxk => hlater ⟨x, hx, hxk⟩
        change afterStores stores k (if w'.key = k then some w'.value else before) = _
        rw [afterStores_of_not_mem hnone, if_pos hk]
      · exact absurd ⟨w', hw', hk⟩ hlater

theorem recordAt_append (r : KeyValue) :
    recordAt (records ++ [r]) k
      = if r.key = k ∧ recordAt records k = none then some r.value else recordAt records k := by
  unfold recordAt
  rw [List.find?_append]
  cases hfind : records.find? (·.key = k) with
  | some r' => simp
  | none => by_cases hk : r.key = k <;> simp [hk]

/-- The records under other keys keep their values when those under one key get a new one. -/
theorem recordAt_map (key : RecordKey) (value : Bytes) :
    recordAt (records.map fun r => if r.key = key then { r with value } else r) k
      = if key = k then (recordAt records k).map fun _ => value else recordAt records k := by
  induction records with
  | nil => simp [recordAt]
  | cons r records ih =>
    unfold recordAt at ih ⊢
    have hkey : (if r.key = key then { r with value } else r : KeyValue).key = r.key := by
      split_ifs <;> rfl
    rw [List.map_cons, List.find?_cons, List.find?_cons, hkey]
    by_cases hk : r.key = k
    · by_cases hset : r.key = key
      · simp [hk, ← hset]
      · have hne : key ≠ k := fun h => hset (hk.trans h.symm)
        simp [hk, hne, hne.symm]
    · simp only [hk, decide_false]
      exact ih

variable {ctx : MessageContext}

theorem isAt_iff {scope code table : AccountName} {key : ℕ} {r : KeyValue} :
    r.isAt scope code table key = true ↔ r.key = (scope, code, table, key) := by
  simp [KeyValue.isAt, KeyValue.key]

theorem recordAt_storeRecord {scope table : AccountName} {key : ℕ} {value : Bytes}
    {r : List KeyValue × Option ℕ} (h : storeRecord ctx scope table key value records = .ok r) :
    recordAt r.1 k = afterStores [⟨scope, ctx.code, table, key, value⟩] k (recordAt records k) := by
  have hat : KeyValue.isAt scope ctx.code table key
      = fun r => decide (r.key = (scope, ctx.code, table, key)) := by
    funext r
    rw [Bool.eq_iff_iff, isAt_iff, decide_eq_true_eq]
  change _ = if (scope, ctx.code, table, key) = k then some value else recordAt records k
  simp only [storeRecord, bind_eq_ok, hat] at h
  obtain ⟨-, -, h⟩ := h
  cases hfind : records.find? fun r => decide (r.key = (scope, ctx.code, table, key)) with
  | some old =>
    rw [hfind] at h
    cases h
    simp only [decide_eq_true_eq, recordAt_map]
    split_ifs with hk
    · subst hk
      simp [recordAt, hfind]
    · rfl
  | none =>
    rw [hfind] at h
    cases h
    rw [recordAt_append]
    change (if (scope, ctx.code, table, key) = k ∧ _ then some value else _) = _
    by_cases hk : (scope, ctx.code, table, key) = k
    · have hnone : recordAt records k = none := by
        rw [← hk, recordAt, hfind, Option.map_none]
      simp [hk, hnone]
    · simp [hk]

end Records

/-! ## What a script stores -/

section Scripts

variable (ctx : MessageContext)

/-- What a call stores once it returns. -/
def TableCall.stored : TableCall → List KeyValue
  | .load .. => []
  | .store scope table key value => [⟨scope, ctx.code, table, key, value⟩]

/-- What a script has stored when it ends, in order. -/
def completedStores (fixed : Bool) : Script → ScriptState → List KeyValue
  | .finish _ _, _ => []
  | .swallowed next, st => completedStores fixed next st
  | .call _ c next, st =>
    match verifyTable .i128 fixed c.table st.tableKeyTypes with
    | .error _ => []
    | .ok types =>
      match c.run ctx (st.residues 0) st.records with
      | .error _ => []
      | .ok (records, answer, storage) =>
        c.stored ctx ++ completedStores fixed (next answer)
          ⟨records, types, st.tableStorage + storage, laterResidues st.residues⟩

/-- The script fails: something throws, be it at the top level, where it is swallowed. -/
def fails (fixed : Bool) : Script → ScriptState → Bool
  | .finish _ threw, _ => threw
  | .swallowed _, _ => true
  | .call _ c next, st =>
    match verifyTable .i128 fixed c.table st.tableKeyTypes with
    | .error _ => true
    | .ok types =>
      match c.run ctx (st.residues 0) st.records with
      | .error _ => true
      | .ok (records, answer, storage) =>
        fails fixed (next answer) ⟨records, types, st.tableStorage + storage, laterResidues st.residues⟩

variable {ctx} {fixed : Bool} {records : List KeyValue} {k : RecordKey}

theorem recordAt_call {c : TableCall} {residue : Residue} {r : List KeyValue × Option Bytes × ℤ}
    (h : c.run ctx residue records = .ok r) :
    recordAt r.1 k = afterStores (c.stored ctx) k (recordAt records k) := by
  cases c with
  | load scope code table i64key =>
    obtain ⟨value, -, h⟩ := bind_eq_ok.1 h
    cases h
    rfl
  | store scope table key value =>
    obtain ⟨stored, hstored, h⟩ := bind_eq_ok.1 h
    cases h
    exact recordAt_storeRecord hstored

/-- What a script has stored when it ends stays, whether it failed or not. -/
theorem recordAt_runScript (script : Script) (st : ScriptState) :
    recordAt (runScript ctx fixed script st).1.records k
      = afterStores (completedStores ctx fixed script st) k (recordAt st.records k) := by
  induction script generalizing st with
  | finish executed threw => rfl
  | swallowed next ih => exact ih st
  | call executed c next ih =>
    unfold runScript completedStores
    cases verifyTable .i128 fixed c.table st.tableKeyTypes with
    | error e => rfl
    | ok types =>
      simp only []
      cases hrun : c.run ctx (st.residues 0) st.records with
      | error e => rfl
      | ok r =>
        simp only [ih, afterStores_append]
        rw [recordAt_call hrun]

variable (js : JsEngine) (vm : JsVm)

/-- What the script of a message does, if it is run at all, from the state that the engine runs it in. -/
def JsVm.ofScript {α : Type} (unrun : α) (f : Bool → Script → ScriptState → α) (l : Ledger)
    (ctx : MessageContext) (limit : ℕ) : α :=
  match contractOf l ctx.code with
  | none => unrun
  | some k =>
    let r := ({ vm with instructionLimit := limit, tableKeyTypes := none } : JsVm).load js ctx.code k
    if r.2 then
      f r.1.tablesFixed (js.script k.code ctx limit)
        ⟨l.records, r.1.tableKeyTypes.map fun name => (r.1.instances name).tableKeyTypes,
          r.1.tableStorage, r.1.residues⟩
    else unrun

/-- What the contract of a message stores. -/
def JsVm.applyStores (l : Ledger) (ctx : MessageContext) (limit : ℕ) : List KeyValue :=
  vm.ofScript js [] (completedStores ctx) l ctx limit

/-- Without a contract and without an interface that is supported it fails at once. -/
def JsVm.applyFails (l : Ledger) (ctx : MessageContext) (limit : ℕ) : Bool :=
  vm.ofScript js true (fails ctx) l ctx limit

variable {js vm}

theorem recordAt_apply (l : Ledger) (limit : ℕ) :
    recordAt (vm.apply js l ctx limit).2.records k
      = afterStores (vm.applyStores js l ctx limit) k (recordAt l.records k) := by
  unfold JsVm.apply JsVm.loadAndRun JsVm.applyStores JsVm.ofScript
  cases contractOf l ctx.code with
  | none => rfl
  | some code =>
    simp only []
    split_ifs
    · exact recordAt_runScript _ _
    · rfl

/-- A script that throws fails. -/
theorem fails_of_threw (script : Script) (st : ScriptState) (h : (runScript ctx fixed script st).2.2 = true) :
    fails ctx fixed script st = true := by
  induction script generalizing st with
  | finish executed threw => exact h
  | swallowed next ih => rfl
  | call executed c next ih =>
    unfold runScript at h
    unfold fails
    cases hverify : verifyTable .i128 fixed c.table st.tableKeyTypes with
    | error e => rfl
    | ok types =>
      simp only [hverify] at h ⊢
      cases hrun : c.run ctx (st.residues 0) st.records with
      | error e => rfl
      | ok r =>
        simp only [hrun] at h ⊢
        exact ih _ _ h

theorem applyFails_of_threw {l : Ledger} {limit : ℕ} (h : (vm.apply js l ctx limit).2.threw = true) :
    vm.applyFails js l ctx limit = true := by
  unfold JsVm.apply JsVm.loadAndRun at h
  unfold JsVm.applyFails JsVm.ofScript
  cases hk : contractOf l ctx.code with
  | none => rfl
  | some code =>
    simp only [hk] at h ⊢
    split_ifs at h ⊢
    · exact fails_of_threw _ _ h
    · rfl

end Scripts

/-! ## The runs of a transaction -/

section Runs

variable (js : JsEngine) (caches : Ledger → MessageContext → JsVm) (env : Env)

/-- The run is of a contract. -/
def Run.onContract (run : Run) : Prop :=
  ∃ acc, run.start.db.accounts.find? run.ctx.code = some acc ∧ acc.type = .contract

/-- The cache that a run starts from. -/
def Run.cache (run : Run) : JsVm := caches run.start.db.toLedger run.ctx

/-- What the script of a contract stores in a run. -/
def Run.stores (run : Run) : List KeyValue :=
  (run.cache caches).applyStores js run.start.db.toLedger run.ctx (instructionLimit run.ctx)

/-- The script of a contract fails in a run. -/
def Run.Failed (run : Run) : Prop :=
  run.onContract ∧
    (run.cache caches).applyFails js run.start.db.toLedger run.ctx (instructionLimit run.ctx) = true

/-- The run writes the record under a key: the contract stores to it, or a handler leaves another
value. -/
def Run.Writes (run : Run) (k : RecordKey) : Prop :=
  (run.onContract ∧ ∃ w ∈ run.stores js caches, w.key = k) ∨
    ¬ run.onContract ∧ ∃ s', execOneMessage env run.ctx run.isNotify run.start = .ok s' ∧
      recordAt s'.db.records k ≠ recordAt run.start.db.records k

/-- Runs that follow one another, from some records to others. -/
inductive RunsFrom : List KeyValue → List Run → List KeyValue → Prop
  | done (records : List KeyValue) : RunsFrom records [] records
  | run {r : Run} {s' : ExecState} {runs : List Run} {records : List KeyValue}
      (ran : execOneMessage env r.ctx r.isNotify r.start = .ok s')
      (rest : RunsFrom s'.db.records runs records) :
      RunsFrom r.start.db.records (r :: runs) records

variable {env} {ctx : MessageContext} {s s' : ExecState} {records records' : List KeyValue}
  {runs runs' : List Run}

theorem RunsFrom.append {records'' : List KeyValue} (h : RunsFrom env records runs records')
    (h' : RunsFrom env records' runs' records'') : RunsFrom env records (runs ++ runs') records'' := by
  induction h with
  | done _ => exact h'
  | run ran _ ih => exact .run ran (ih h')

theorem RunsFrom.of_append {pre post : List Run} (h : RunsFrom env records (pre ++ post) records') :
    ∃ middle, RunsFrom env records pre middle ∧ RunsFrom env middle post records' := by
  induction pre generalizing records with
  | nil => exact ⟨records, .done _, h⟩
  | cons run pre ih =>
    cases h with
    | run ran rest =>
      obtain ⟨middle, hpre, hpost⟩ := ih rest
      exact ⟨middle, .run ran hpre, hpost⟩

theorem runsFrom_notifyLoop {fuel i : ℕ} (h : notifyLoop env ctx fuel i s = .ok s') :
    RunsFrom env s.db.records (notifyRuns env ctx fuel i s) s'.db.records := by
  induction fuel generalizing i s with
  | zero => cases h
  | succ fuel ih =>
    unfold notifyLoop at h
    unfold notifyRuns
    cases hrec : s.notified[i]? with
    | none =>
      rw [hrec] at h
      cases h
      exact .done _
    | some account =>
      simp only [hrec, bind_eq_ok] at h
      obtain ⟨s₁, hone, hrest⟩ := h
      simp only [hone]
      exact .run (r := ⟨{ ctx with code := account }, true, s⟩) hone (ih hrest)

variable {trx : SignedTransaction} {t : ℕ}

theorem runsFrom_execMessage {msg : Message} {db : AuthDb} {usedGas : ℕ}
    (h : execMessage env trx t msg db usedGas = .ok s') :
    RunsFrom env db.records (messageRuns env trx t msg db usedGas) s'.db.records := by
  unfold execMessage at h
  unfold messageRuns
  simp only [bind_eq_ok] at h
  obtain ⟨s₁, hone, -, -, hloop⟩ := h
  simp only [hone]
  exact .run (r := ⟨⟨trx, msg, msg.code, t⟩, false, ⟨db, [msg.code], usedGas⟩⟩) hone
    (runsFrom_notifyLoop hloop)

theorem runsFrom_execMessages {msgs : List Message} {db : AuthDb} {usedGas : ℕ}
    {r : AuthDb × ℕ} (h : execMessages env trx t msgs db usedGas = .ok r) :
    RunsFrom env db.records (trxRuns env trx t msgs db usedGas) r.1.records := by
  induction msgs generalizing db usedGas with
  | nil =>
    cases h
    exact .done _
  | cons msg msgs ih =>
    unfold execMessages at h
    unfold trxRuns
    obtain ⟨s₁, hmsg, hrest⟩ := bind_eq_ok.1 h
    simp only [hmsg]
    exact (runsFrom_execMessage hmsg).append (ih hrest)

variable {js} {caches} {run : Run} {k : RecordKey}

theorem Run.records_of_onContract (hvm : env.vm = js.vm caches)
    (h : execOneMessage env run.ctx run.isNotify run.start = .ok s') (hc : run.onContract) :
    recordAt s'.db.records k
      = afterStores (run.stores js caches) k (recordAt run.start.db.records k) := by
  obtain ⟨acc, hacc, htype⟩ := hc
  simp only [execOneMessage, bind_eq_ok, captureRethrow_eq_ok, runCode, dbGet_eq_ok] at h
  obtain ⟨s₁, ⟨acc', hacc', hcode⟩, hs'⟩ := h
  cases hs'
  obtain rfl : acc = acc' := Option.some.inj (hacc.symm.trans hacc')
  rw [if_neg (not_not.2 htype)] at hcode
  obtain ⟨-, -, hcode⟩ := bind_eq_ok.1 hcode
  cases hcode
  change recordAt (env.vm.apply run.start.db.toLedger run.ctx (instructionLimit run.ctx)).records k = _
  rw [hvm]
  exact recordAt_apply _ _

/-- A record that a run does not write stays as it is. -/
theorem Run.records_of_not_writes (hvm : env.vm = js.vm caches)
    (h : execOneMessage env run.ctx run.isNotify run.start = .ok s')
    (hk : ¬ run.Writes js caches env k) :
    recordAt s'.db.records k = recordAt run.start.db.records k := by
  unfold Run.Writes at hk
  by_cases hc : run.onContract
  · rw [Run.records_of_onContract hvm h hc, afterStores_of_not_mem]
    exact fun w hw hwk => hk (.inl ⟨hc, w, hw, hwk⟩)
  · by_contra hne
    exact hk (.inr ⟨hc, s', h, hne⟩)

theorem RunsFrom.records_of_not_writes (hvm : env.vm = js.vm caches)
    (h : RunsFrom env records runs records') (hk : ∀ run ∈ runs, ¬ run.Writes js caches env k) :
    recordAt records' k = recordAt records k := by
  induction h with
  | done _ => rfl
  | run ran _ ih =>
    obtain ⟨hrun, hrest⟩ := List.forall_mem_cons.1 hk
    rw [ih hrest, Run.records_of_not_writes hvm ran hrun]

/-- Of a list with an element that has a property, the last one that has it. -/
theorem exists_last_of_mem {α : Type} {P : α → Prop} {l : List α} (h : ∃ x ∈ l, P x) :
    ∃ pre x post, l = pre ++ x :: post ∧ P x ∧ ∀ y ∈ post, ¬ P y := by
  induction l with
  | nil => simp at h
  | cons a l ih =>
    by_cases hlater : ∃ x ∈ l, P x
    · obtain ⟨pre, x, post, rfl, hx, hpost⟩ := ih hlater
      exact ⟨a :: pre, x, post, rfl, hx, hpost⟩
    · obtain ⟨x, hx, hP⟩ := h
      rcases List.mem_cons.1 hx with rfl | hx
      · exact ⟨[], x, l, rfl, hP, fun y hy hPy => hlater ⟨y, hy, hPy⟩⟩
      · exact absurd ⟨x, hx, hP⟩ hlater

/-! ## What a failed run leaves -/

variable (js) (caches) (env)

/-- Something that a failed run stored is in the database at the end, where no later run has written
the record. -/
def LeftBehind (runs : List Run) (records : List KeyValue) : Prop :=
  ∃ pre run post w, runs = pre ++ run :: post ∧ run.Failed js caches ∧ w ∈ run.stores js caches ∧
    recordAt records w.key = some w.value ∧ ∀ later ∈ post, ¬ later.Writes js caches env w.key

/-- Whatever a script has stored when it fails, a later run that does not fail writes again. -/
def StoredOver (runs : List Run) : Prop :=
  ∀ pre run post, runs = pre ++ run :: post → run.Failed js caches → ∀ w ∈ run.stores js caches,
    ∃ later ∈ post, ¬ later.Failed js caches ∧ later.Writes js caches env w.key

variable {js} {caches} {env}

theorem leftBehind_iff (hvm : env.vm = js.vm caches) (h : RunsFrom env records runs records') :
    ¬ LeftBehind js caches env runs records' ↔ StoredOver js caches env runs := by
  constructor
  · intro hleft pre run post hsplit hfailed w hw
    by_contra hnone
    -- the last run that writes the record is this one or one that fails as well
    have hwrites : run.Writes js caches env w.key := .inl ⟨hfailed.1, w, hw, rfl⟩
    obtain ⟨pre', last, post', hsplit', hlast, hpost⟩ :=
      exists_last_of_mem (P := fun r => Run.Writes js caches env r w.key)
        ⟨run, List.mem_cons_self (l := post), hwrites⟩
    have hlastFailed : last.Failed js caches := by
      cases pre' with
      | nil =>
        obtain ⟨rfl, rfl⟩ := List.cons.inj hsplit'
        exact hfailed
      | cons x pre' =>
        obtain ⟨rfl, rfl⟩ := List.cons.inj hsplit'
        by_contra hno
        exact hnone ⟨last, by simp, hno, hlast⟩
    obtain ⟨w', hw', hkey⟩ : ∃ w' ∈ last.stores js caches, w'.key = w.key := by
      rcases hlast with ⟨-, hstored⟩ | ⟨hno, -⟩
      · exact hstored
      · exact absurd hlastFailed.1 hno
    have hall : runs = (pre ++ pre') ++ last :: post' := by
      rw [hsplit, hsplit', List.append_assoc]
    rw [hall] at h
    obtain ⟨middle, -, hrest⟩ := h.of_append
    cases hrest with
    | run ran rest =>
      obtain ⟨v, hv, hvkey, hafter⟩ : ∃ v ∈ last.stores js caches, v.key = w.key ∧
          afterStores (last.stores js caches) w.key (recordAt last.start.db.records w.key)
            = some v.value := exists_afterStores ⟨w', hw', hkey⟩
      refine hleft ⟨pre ++ pre', last, post', v, hall, hlastFailed, hv, ?_, by rwa [hvkey]⟩
      rw [hvkey, rest.records_of_not_writes hvm hpost,
        Run.records_of_onContract hvm ran hlastFailed.1]
      exact hafter
  · rintro hover ⟨pre, run, post, w, hsplit, hfailed, hw, -, hnone⟩
    obtain ⟨later, hlater, -, hwrites⟩ := hover pre run post hsplit hfailed w hw
    exact hnone later hlater hwrites

end Runs

section Transaction

variable (js : JsEngine) (caches : Ledger → MessageContext → JsVm) (cfg : ChainConfig) (t : ℕ)
  (builder : AccountName)
  (left : ChainDb) (trx : SignedTransaction) (b : BuildState)

/-- The transaction changes nothing in the database, or nothing of what failed runs stored is left in
it. Where the process ends while it is undone, the records are those before. -/
def FailuresGone : Prop :=
  match applyTransactionIn cfg t builder left trx b with
  | .error .terminated b' => b'.blockDb.cur.records = b.blockDb.cur.records
  | r => (stateOf r).blockDb = b.blockDb ∨
    ¬ LeftBehind js caches cfg.env (trxRuns cfg.env trx t trx.messages b.blockDb.cur.toAuthDb 0)
      (stateOf r).blockDb.cur.records

variable {js} {caches} {cfg} {t} {builder} {left} {trx} {b}

theorem applyTransactionBody_runs {r : ChainDb × ℕ} {db : ChainDb} {check : Bool}
    (h : applyTransactionBody cfg t builder check trx db = .ok r) :
    RunsFrom cfg.env db.records (trxRuns cfg.env trx t trx.messages db.toAuthDb 0) r.1.records := by
  obtain ⟨-, -, auth, l, transactions, hexec, hgas, -, hdb⟩ := applyTransactionBody_ok h
  have hrecords : r.1.records = auth.records := by
    obtain ⟨tokens, rfl⟩ := transferGas_ok hgas
    rw [hdb]
  rw [hrecords]
  exact runsFrom_execMessages hexec

/-- A transaction that goes through is recorded in the database. -/
theorem applyTransactionBody_changes {r : ChainDb × ℕ} {db : ChainDb} {check : Bool}
    (h : applyTransactionBody cfg t builder check trx db = .ok r) : r.1 ≠ db := by
  obtain ⟨-, -, auth, l, transactions, -, -, hrecord, hdb⟩ := applyTransactionBody_ok h
  intro heq
  have htable : transactions = db.transactions := by rw [← heq, hdb]
  obtain ⟨hnew, hafter⟩ := Table.create?_eq_some (dbCreate_eq_ok.1 hrecord)
  have hfound := hafter (trx.id cfg.crypto)
  rw [htable, hnew, if_pos rfl] at hfound
  cases hfound

/-- Failed contracts leave nothing behind just if the transaction does not go through or whatever they
have stored when they fail is written again by a later run of it that does not fail. -/
theorem failures_gone_iff (hvm : cfg.env.vm = js.vm caches) (hopen : b.blockDb.stack ≠ []) :
    FailuresGone js caches cfg t builder left trx b ↔
      (checkTrx cfg t b.blockDb.cur trx = true →
        ∀ r, applyTransactionBody cfg t builder true trx b.blockDb.cur = .ok r →
          StoredOver js caches cfg.env
            (trxRuns cfg.env trx t trx.messages b.blockDb.cur.toAuthDb 0)) := by
  unfold FailuresGone applyTransactionIn
  by_cases hcheck : checkTrx cfg t b.blockDb.cur trx = true
  · simp only [hcheck, if_true, forall_const]
    cases hbody : applyTransactionBody cfg t builder true trx b.blockDb.cur with
    | error e =>
      refine iff_of_true ?_ (fun r hr => by cases hr)
      by_cases hback : GivesBack b.blockDb.cur.erc721Accounts (erc721Left cfg t true trx b.blockDb.cur)
      · cases e with
        | fc msg =>
          rw [applyTransactionImplIn_fc hbody rfl hback]
          exact .inl rfl
        | terminated =>
          rw [applyTransactionImplIn_escapes hbody rfl hback]
        | _ =>
          rw [applyTransactionImplIn_escapes hbody rfl hback]
          exact .inl rfl
      · obtain ⟨rows, hends⟩ := applyTransactionImplIn_ends hbody left hback
        rw [hends]
        rfl
    | ok r =>
      rw [applyTransactionImplIn_ok hopen hbody]
      have hcur : (b.withTrx cfg t trx r.1).blockDb.cur = r.1 := rfl
      have hchanged : (b.withTrx cfg t trx r.1).blockDb ≠ b.blockDb := fun heq =>
        applyTransactionBody_changes hbody (hcur.symm.trans (congrArg Undo.cur heq))
      simp only [stateOf, hchanged, false_or, hcur, Except.ok.injEq, forall_eq',
        leftBehind_iff hvm (applyTransactionBody_runs hbody)]
  · simp only [Bool.not_eq_true] at hcheck
    simp [hcheck, stateOf]

end Transaction

/-- Code 0 fails at once; any other code stores a value first. -/
def failingEngine : JsEngine where
  script code _ _ :=
    if code.headD 0 = 0 then .finish 1 true
    else .call 1 (.store 8 7 1 [42]) fun _ => .finish 2 true
  initScript _ _ _ := .finish 0 false
  codeHash code := ⟨1, code.headD 0⟩
  unpackAbi _ := none

def failingConfig : ChainConfig :=
  { stampConfig with env := ⟨fieldCodec, failingEngine.vm fun _ _ => {}⟩ }

/-- A block being built over the two personal accounts and the contract 8. -/
def failingBlock (code : Bytes) : BuildState :=
  let db : ChainDb := { signingPair with
    accounts := .ofList [(xmaxContractName, ⟨.system, 0, none⟩), (1, ⟨.personal, 0, none⟩),
      (2, ⟨.personal, 0, none⟩), (8, ⟨.contract, 0, some ⟨code, []⟩⟩)] }
  { blockDb := { cur := db, stack := [(1, db)], revision := 1 } }

/-- Account 1 calls the contract 8. -/
def callEight : SignedTransaction :=
  { scope := [8], messages := [⟨8, .other 5, [⟨1, xmaxActiveName⟩], []⟩], signatures := [21] }

/-- A contract that fails before it has stored anything. -/
theorem failures_gone_at_once :
    FailuresGone failingEngine (fun _ _ => {}) failingConfig 0 1 signingPair callEight (failingBlock [0]) := by
  refine (failures_gone_iff rfl (List.cons_ne_nil _ _)).2 fun _ r _ pre run post hsplit _ w hw => ?_
  have hnone : ∀ run ∈ trxRuns failingConfig.env callEight 0 callEight.messages
      (failingBlock [0]).blockDb.cur.toAuthDb 0, run.stores failingEngine (fun _ _ => {}) = [] := by
    decide
  rw [hnone run (by rw [hsplit]; simp)] at hw
  cases hw

/-- The value that a contract stored before it failed is in the database after the transaction. -/
theorem failed_store_stays :
    checkTrx failingConfig 0 (failingBlock [1]).blockDb.cur callEight = true ∧
      ∀ left, ¬ FailuresGone failingEngine (fun _ _ => {}) failingConfig 0 1 left callEight (failingBlock [1]) := by
  refine ⟨by decide, fun left => ?_⟩
  unfold FailuresGone applyTransactionIn
  rw [if_pos (by decide)]
  obtain ⟨r, hbody, hrecords⟩ : ∃ r, applyTransactionBody failingConfig 0 1 true callEight
      (failingBlock [1]).blockDb.cur = .ok r ∧ r.1.records = [⟨8, 8, 7, 1, [42]⟩] :=
    exists_ok_of_eval (by decide)
  rw [applyTransactionImplIn_ok (List.cons_ne_nil _ _) hbody]
  have hcur : ((failingBlock [1]).withTrx failingConfig 0 callEight r.1).blockDb.cur = r.1 := rfl
  rintro (heq | hno)
  · exact applyTransactionBody_changes hbody (hcur.symm.trans (congrArg Undo.cur heq))
  · refine hno ⟨[], ⟨⟨callEight, ⟨8, .other 5, [⟨1, xmaxActiveName⟩], []⟩, 8, 0⟩, false,
      ⟨(failingBlock [1]).blockDb.cur.toAuthDb, [8], 0⟩⟩, [], ⟨8, 8, 7, 1, [42]⟩, ?_, ?_, ?_, ?_, ?_⟩
    · rfl
    · exact ⟨⟨_, rfl, rfl⟩, applyFails_of_threw (by decide)⟩
    · exact List.mem_singleton_self _
    · change recordAt r.1.records _ = _
      rw [hrecords]
      rfl
    · simp

end XmaxChain
