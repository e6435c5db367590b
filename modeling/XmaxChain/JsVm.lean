import XmaxChain.TrxContext
import Mathlib.Logic.Function.Basic

/-!
# The cache of the script engine

For each account the engine remembers which code it has loaded and the tables that the interface of
the code declares, with the types of their keys. The tables are looked at when a contract reads or
writes one, but only in the run that loads the code: `apply` first forgets which tables are in force, and
loading, which sets them again, is skipped for code that is known.
-/

namespace XmaxChain

inductive KeyType
  | str | i128 | i128i128 | i128i128i128
deriving DecidableEq, Repr

def toKeyType (typeName : String) : Option KeyType :=
  if typeName = "str" then some .str
  else if typeName = "i128" then some .i128
  else if typeName = "i128i128" then some .i128i128
  else if typeName = "i128i128i128" then some .i128i128i128
  else none

abbrev TableMap := List (AccountName × KeyType)

/-- What a contract asks of the database. Both bindings ask for keys of 128 bits, but of the key of a
load, which is read from the argument that says the table, there are only 64. -/
inductive TableCall
  | load (scope code table : AccountName) (i64key : BitVec 64)
  | store (scope table : AccountName) (key : ℕ) (value : Bytes)
deriving DecidableEq

def TableCall.table : TableCall → AccountName
  | .load _ _ table _ => table
  | .store _ table _ _ => table

/-- What a call finds on the stack: behind the 64 bits of the key, and in the value that it returns. -/
structure Residue where
  behindKey : BitVec 64
  value : BitVec 64

def bytesOf (v : BitVec 64) : Bytes := (List.range 8).map fun i => v.toNat / 256 ^ i % 256

/-- A run of a script, first of its top level and then of the function that is called in it: it ends, with
an exception or without, or the top level ends with an exception, which is printed and no more, or it has
executed so many instructions and asks the database, and goes on with the answer. -/
inductive Script
  | finish (executed : ℕ) (threw : Bool)
  | swallowed (next : Script)
  | call (executed : ℕ) (c : TableCall) (next : Option Bytes → Script)

/-- What executes the code, which is a function of the code, the message, the instruction limit and what
the bindings answer; with the hash of a code and how the tables of an interface are packed. -/
structure JsEngine where
  script : Bytes → MessageContext → ℕ → Script
  initScript : Bytes → MessageContext → ℕ → Script
  codeHash : Bytes → Summary
  unpackAbi : Bytes → Option (List (AccountName × String))

/-! ## The bindings -/

section Bindings

variable (ctx : MessageContext)

def KeyValue.isAt (scope code table : AccountName) (key : ℕ) (r : KeyValue) : Bool :=
  r.scope = scope ∧ r.code = code ∧ r.table = table ∧ r.primaryKey = key

/-- `store_record`, with the length of the value that was there. -/
def storeRecord (scope table : AccountName) (key : ℕ) (value : Bytes) (records : List KeyValue) :
    Except Fault (List KeyValue × Option ℕ) := do
  requireScope ctx scope
  match records.find? (KeyValue.isAt scope ctx.code table key) with
  | some r =>
    pure (records.map fun r => if r.isAt scope ctx.code table key then { r with value } else r,
      some r.value.length)
  | none => pure (records ++ [⟨scope, ctx.code, table, key, value⟩], none)

/-- `load_record` into the eight bytes of the value. Where there is no record nothing is copied. -/
def loadRecord (residue : Residue) (scope code table : AccountName) (i64key : BitVec 64)
    (records : List KeyValue) : Except Fault Bytes := do
  requireScope ctx scope
  let key := (residue.behindKey ++ i64key).toNat
  let copied := ((records.find? (KeyValue.isAt scope code table key)).map (·.value.take 8)).getD []
  pure (copied ++ (bytesOf residue.value).drop copied.length)

def rowOverheadDbLimitBytes : ℕ := 32

def dbRoundToByteBoundary (bytes : ℤ) : ℤ :=
  if bytes.tmod 8 > 0 then bytes + (8 - bytes.tmod 8) else bytes

/-- `VERIFY_TABLE`, with the tables in force. A null pointer is no table map. -/
def verifyTable (type : KeyType) (fixed : Bool) (table : AccountName) :
    Option TableMap → Except Fault (Option TableMap)
  | none => .ok none
  | some types =>
    match types.lookup table with
    | none =>
      if fixed then .error (.fc "abi did not define table")
      else .ok (some (types ++ [(table, type)]))
    | some key =>
      if key = type then .ok (some types) else .error (.fc "abi definition expects another type")

/-- What a script changes while it runs, and what its calls find on the stack. -/
structure ScriptState where
  records : List KeyValue
  tableKeyTypes : Option TableMap
  tableStorage : ℤ
  residues : ℕ → Residue

def laterResidues (residues : ℕ → Residue) : ℕ → Residue := fun n => residues (n + 1)

/-- The bindings' bodies: the records, the answer, and what is added to the storage used. -/
def TableCall.run (residue : Residue) (records : List KeyValue) :
    TableCall → Except Fault (List KeyValue × Option Bytes × ℤ)
  | .load scope code table i64key => do
    let value ← loadRecord ctx residue scope code table i64key records
    pure (records, some value, 0)
  | .store scope table key value => do
    let (records, previous) ← storeRecord ctx scope table key value records
    pure (records, none, match previous with
      | none => dbRoundToByteBoundary 8 + rowOverheadDbLimitBytes
      | some ret => dbRoundToByteBoundary 8 - dbRoundToByteBoundary (8 + ret))

/-- An exception in a binding ends the run. -/
def runScript (fixed : Bool) : Script → ScriptState → ScriptState × ℕ × Bool
  | .finish executed threw, st => (st, executed, threw)
  | .swallowed next, st => runScript fixed next st
  | .call executed c next, st =>
    match verifyTable .i128 fixed c.table st.tableKeyTypes with
    | .error _ => (st, executed, true)
    | .ok types =>
      match c.run ctx (st.residues 0) st.records with
      | .error _ => ({ st with tableKeyTypes := types }, executed, true)
      | .ok (records, answer, storage) =>
        runScript fixed (next answer)
          ⟨records, types, st.tableStorage + storage, laterResidues st.residues⟩

end Bindings

/-! ## The cache -/

structure ModuleState where
  codeVersion : Summary := default
  tableKeyTypes : TableMap := []
  tablesFixed : Bool := false

/-- `table_key_types` points into the state of an account, or nowhere. With what lies on the stack where
the bindings have variables that they do not set. -/
structure JsVm where
  instances : AccountName → ModuleState := fun _ => {}
  tableKeyTypes : Option AccountName := none
  tablesFixed : Bool := false
  tableStorage : ℤ := 0
  instructionCount : ℕ := 0
  instructionLimit : ℕ := 1000
  residues : ℕ → Residue := fun _ => ⟨0, 0⟩

/-- `emplace` for each table, up to a key type that is not supported; whether there was none. -/
def emplaceTables : List (AccountName × String) → TableMap → TableMap × Bool
  | [], types => (types, true)
  | (table, typeName) :: tables, types =>
    match toKeyType typeName with
    | none => (types, false)
    | some key =>
      emplaceTables tables (if (types.lookup table).isSome then types else types ++ [(table, key)])

def contractOf (l : Ledger) (name : AccountName) : Option AccountContract :=
  (l.accounts.find? name).bind (·.contract)

section Cache

variable (js : JsEngine)

def isEmptyAbi (abi : Bytes) : Bool := abi.length ≤ 4

/-- The state of an account whose code is new, and whether its interface is supported. -/
def ModuleState.loadAbi (state : ModuleState) (k : AccountContract) : ModuleState × Bool :=
  let state := { state with codeVersion := js.codeHash k.code, tableKeyTypes := [] }
  if isEmptyAbi k.abi then (state, true)
  else
    match js.unpackAbi k.abi with
    | none => (state, false)
    | some tables =>
      let r := emplaceTables tables []
      ({ state with tablesFixed := true, tableKeyTypes := r.1 }, r.2)

namespace JsVm

def load (vm : JsVm) (name : AccountName) (k : AccountContract) : JsVm × Bool :=
  if (vm.instances name).codeVersion = js.codeHash k.code then (vm, true)
  else
    let r := (vm.instances name).loadAbi js k
    let loaded := { vm with instances := Function.update vm.instances name r.1 }
    if r.2 then
      ({ loaded with
          tableKeyTypes := some name
          tablesFixed := r.1.tablesFixed
          tableStorage := 0 }, true)
    else (loaded, false)

/-- The part of `load` that runs the code. -/
def runCode (vm : JsVm) (l : Ledger) (ctx : MessageContext) (script : Script) : JsVm × VmOutcome :=
  let types := vm.tableKeyTypes.map fun name => (vm.instances name).tableKeyTypes
  let r := runScript ctx vm.tablesFixed script ⟨l.records, types, vm.tableStorage, vm.residues⟩
  let instances := match vm.tableKeyTypes, r.1.tableKeyTypes with
    | some name, some types =>
      Function.update vm.instances name { vm.instances name with tableKeyTypes := types }
    | _, _ => vm.instances
  ({ vm with instances, tableStorage := r.1.tableStorage, instructionCount := r.2.1 },
    ⟨r.1.records, r.2.1, r.2.2⟩)

def loadAndRun (vm : JsVm) (l : Ledger) (ctx : MessageContext)
    (script : Bytes → MessageContext → ℕ → Script) : JsVm × VmOutcome :=
  match contractOf l ctx.code with
  | none => (vm, ⟨l.records, 0, true⟩)
  | some k =>
    let r := vm.load js ctx.code k
    if r.2 then r.1.runCode l ctx (script k.code ctx vm.instructionLimit)
    else (r.1, ⟨l.records, 0, true⟩)

/-- `SetInstructionLimit` and `apply`. The flag that is given to `apply` is always set. -/
def apply (vm : JsVm) (l : Ledger) (ctx : MessageContext) (limit : ℕ) : JsVm × VmOutcome :=
  loadAndRun js { vm with instructionLimit := limit, tableKeyTypes := none } l ctx js.script

def init (vm : JsVm) (l : Ledger) (ctx : MessageContext) : JsVm × VmOutcome :=
  loadAndRun js vm l ctx js.initScript

/-- The stack has been written by something else. -/
def withStack (vm : JsVm) (residues : ℕ → Residue) : JsVm := { vm with residues }

@[simp] theorem withStack_residues (vm : JsVm) (residues : ℕ → Residue) :
    (vm.withStack residues).residues = residues := rfl

/-- What earlier executions can have left, on any databases, and anything at all on the stack. -/
inductive Reached : JsVm → Prop
  | fresh : Reached {}
  | stack {vm : JsVm} (h : Reached vm) (residues : ℕ → Residue) : Reached (vm.withStack residues)
  | apply {vm : JsVm} (h : Reached vm) (l : Ledger) (ctx : MessageContext) (limit : ℕ) :
      Reached (vm.apply js l ctx limit).1
  | init {vm : JsVm} (h : Reached vm) (l : Ledger) (ctx : MessageContext) :
      Reached (vm.init js l ctx).1

end JsVm

/-- The engine of a node, with the cache that each run starts from. A run leaves another cache to the next
one, and no two runs of a transaction have the same ledger, since it counts the messages. -/
def JsEngine.vm (caches : Ledger → MessageContext → JsVm) : Vm where
  apply l ctx limit := ((caches l ctx).apply js l ctx limit).2
  init l ctx :=
    let out := ((caches l ctx).init js l ctx).2
    if out.threw then none else some out.records

end Cache

/-! ## Two nodes -/

section Nodes

variable (js : JsEngine) (codec : Codec)

/-- The message has the same result on all nodes, whatever they have executed before. -/
def CacheFree (ctx : MessageContext) (isNotify : Bool) (s : ExecState) : Prop :=
  ∀ vm₁ vm₂ : JsVm, vm₁.Reached js → vm₂.Reached js →
    execOneMessage ⟨codec, js.vm fun _ _ => vm₁⟩ ctx isNotify s =
      execOneMessage ⟨codec, js.vm fun _ _ => vm₂⟩ ctx isNotify s

section Condition

variable (ctx : MessageContext) (s : ExecState)

/-- A run that looks at no tables. -/
def freeRun (residues : ℕ → Residue) (script : Script) (records : List KeyValue) : VmOutcome :=
  let r := runScript ctx false script ⟨records, none, 0, residues⟩
  ⟨r.1.records, r.2.1, r.2.2⟩

def gasAfter (out : VmOutcome) : ℕ :=
  if out.threw then s.usedGas
  else u64 (s.usedGas + u64 (getExecutedInsCount out.executed * ctx.trx.gas))

def SameEffect (a b : VmOutcome) : Prop := a.records = b.records ∧ gasAfter ctx s a = gasAfter ctx s b

/-- Run from these records a script changes none of them and costs nothing. -/
def Idle (residues : ℕ → Residue) (script : Script) (records : List KeyValue) : Prop :=
  (freeRun ctx residues script records).records = records ∧
    gasAfter ctx s (freeRun ctx residues script records) = s.usedGas

/-- What loads find on the stack makes no difference. -/
def StackFree (script : Script) (records : List KeyValue) : Prop :=
  ∀ residues residues', SameEffect ctx s (freeRun ctx residues script records)
    (freeRun ctx residues' script records)

/-- Every table that a script asks for is one of these; or from the first one that is not, the script is
idle. -/
def Unhindered (declared : AccountName → Bool) : (ℕ → Residue) → Script → List KeyValue → Prop
  | _, .finish _ _, _ => True
  | residues, .swallowed next, records => Unhindered declared residues next records
  | residues, .call executed c next, records =>
    if declared c.table then
      match c.run ctx (residues 0) records with
      | .error _ => True
      | .ok (records, answer, _) => Unhindered declared (laterResidues residues) (next answer) records
    else Idle ctx s residues (.call executed c next) records

def tablesOf (abi : Bytes) : Option TableMap :=
  match js.unpackAbi abi with
  | none => none
  | some tables =>
    let r := emplaceTables tables []
    if r.2 then some r.1 else none

def instructionLimit : ℕ := u32 (if ctx.trx.gas ≠ 0 then ctx.trx.gaslimit / ctx.trx.gas else 1000)

/-- What the script loads makes no difference; and the interface of the contract is supported and declares
every table that the script asks for, with keys of 128 bits, or without an interface the script asks for no
table. Where the tables fail, the script is idle from there. -/
def Declares : Prop :=
  ∀ k, contractOf s.db.toLedger ctx.code = some k →
    let script := js.script k.code ctx (instructionLimit ctx)
    StackFree ctx s script s.db.records ∧ ∀ residues,
      if isEmptyAbi k.abi then Unhindered ctx s (fun _ => false) residues script s.db.records
      else
        match tablesOf js k.abi with
        | none => Idle ctx s residues script s.db.records
        | some types => Unhindered ctx s (fun t => types.lookup t = some .i128) residues script s.db.records

end Condition

section Runs

variable {ctx : MessageContext} {s : ExecState} {script : Script} {st : ScriptState}
  {records : List KeyValue} {residues : ℕ → Residue} {types : TableMap}

def ranAs (ctx : MessageContext) (fixed : Bool) (script : Script) (st : ScriptState) : VmOutcome :=
  let r := runScript ctx fixed script st
  ⟨r.1.records, r.2.1, r.2.2⟩

theorem ranAs_call {fixed : Bool} {executed : ℕ} {c : TableCall} {next : Option Bytes → Script}
    {found : Option TableMap} (h : verifyTable .i128 fixed c.table st.tableKeyTypes = .ok found) :
    ranAs ctx fixed (.call executed c next) st =
      match c.run ctx (st.residues 0) st.records with
      | .error _ => ⟨st.records, executed, true⟩
      | .ok (records, answer, storage) =>
        ranAs ctx fixed (next answer)
          ⟨records, found, st.tableStorage + storage, laterResidues st.residues⟩ := by
  simp only [ranAs, runScript, h]
  cases c.run ctx (st.residues 0) st.records with
  | error e => rfl
  | ok r => rfl

theorem ranAs_refused {fixed : Bool} {executed : ℕ} {c : TableCall} {next : Option Bytes → Script}
    {e : Fault}
    (h : verifyTable .i128 fixed c.table st.tableKeyTypes = .error e) :
    ranAs ctx fixed (.call executed c next) st = ⟨st.records, executed, true⟩ := by
  simp only [ranAs, runScript, h]

/-- Without tables in force nothing is looked at. -/
theorem ranAs_null {fixed : Bool} {storage : ℤ} :
    ranAs ctx fixed script ⟨records, none, storage, residues⟩ = freeRun ctx residues script records := by
  suffices h : ∀ (script : Script) (records : List KeyValue) (storage storage' : ℤ) (residues : ℕ → Residue),
      ranAs ctx fixed script ⟨records, none, storage, residues⟩ =
        ranAs ctx false script ⟨records, none, storage', residues⟩ from
    h script records storage 0 residues
  intro script
  induction script with
  | finish executed threw => intro records storage storage' residues; rfl
  | swallowed next ih => exact ih
  | call executed c next ih =>
    intro records storage storage' residues
    have hnull : ∀ fixed, verifyTable .i128 fixed c.table none = .ok none := fun _ => rfl
    rw [ranAs_call (hnull fixed), ranAs_call (hnull false)]
    cases c.run ctx (residues 0) records with
    | error e => rfl
    | ok r => exact ih _ _ _ _ _

theorem freeRun_call {executed : ℕ} {c : TableCall} {next : Option Bytes → Script} :
    freeRun ctx residues (.call executed c next) records =
      match c.run ctx (residues 0) records with
      | .error _ => ⟨records, executed, true⟩
      | .ok (records, answer, _) => freeRun ctx (laterResidues residues) (next answer) records := by
  have hnull : verifyTable .i128 false c.table none = .ok none := rfl
  calc freeRun ctx residues (.call executed c next) records
      = ranAs ctx false (.call executed c next) ⟨records, none, 0, residues⟩ := ranAs_null.symm
    _ = _ := by
      rw [ranAs_call hnull]
      cases c.run ctx (residues 0) records with
      | error e => rfl
      | ok r => exact ranAs_null

/-- Tables that are not fixed are added as they are asked for, all with keys of 128 bits. -/
theorem ranAs_growing {storage : ℤ} (htypes : ∀ r ∈ types, r.2 = KeyType.i128) :
    ranAs ctx false script ⟨records, some types, storage, residues⟩ =
      freeRun ctx residues script records := by
  induction script generalizing records types storage residues with
  | finish executed threw => rfl
  | swallowed next ih => exact ih htypes
  | call executed c next ih =>
    have hfound : ∃ types', verifyTable .i128 false c.table (some types) = .ok (some types') ∧
        ∀ r ∈ types', r.2 = KeyType.i128 := by
      cases hlookup : types.lookup c.table with
      | none =>
        refine ⟨types ++ [(c.table, .i128)], by simp [verifyTable, hlookup], fun r hr => ?_⟩
        rcases List.mem_append.1 hr with hr | hr
        · exact htypes r hr
        · rw [List.mem_singleton.1 hr]
      | some key =>
        obtain ⟨before, after, hsplit, -⟩ := List.lookup_eq_some_iff.1 hlookup
        have hkey : key = .i128 := htypes (c.table, key) (by rw [hsplit]; simp)
        exact ⟨types, by simp [verifyTable, hlookup, hkey], htypes⟩
    obtain ⟨types', hverify, htypes'⟩ := hfound
    rw [ranAs_call hverify, freeRun_call]
    cases c.run ctx (residues 0) records with
    | error e => rfl
    | ok r => exact ih _ htypes'

theorem SameEffect.symm {a b : VmOutcome} (h : SameEffect ctx s a b) : SameEffect ctx s b a :=
  ⟨h.1.symm, h.2.symm⟩

theorem SameEffect.trans {a b c : VmOutcome} (h : SameEffect ctx s a b) (h' : SameEffect ctx s b c) :
    SameEffect ctx s a c := ⟨h.1.trans h'.1, h.2.trans h'.2⟩

/-- A run that is held to the declared tables has the effect of one that is not, exactly when it is
unhindered. -/
theorem ranAs_checked_iff {storage : ℤ} :
    SameEffect ctx s (ranAs ctx true script ⟨records, some types, storage, residues⟩)
        (freeRun ctx residues script records) ↔
      Unhindered ctx s (fun t => types.lookup t = some .i128) residues script records := by
  induction script generalizing records storage residues with
  | finish executed threw => exact iff_of_true ⟨rfl, rfl⟩ trivial
  | swallowed next ih => exact ih
  | call executed c next ih =>
    rw [Unhindered]
    by_cases hdeclared : types.lookup c.table = some .i128
    · have hverify : verifyTable .i128 true c.table (some types) = .ok (some types) := by
        simp [verifyTable, hdeclared]
      rw [if_pos (by simpa using hdeclared), ranAs_call hverify, freeRun_call]
      cases c.run ctx (residues 0) records with
      | error e => exact iff_of_true ⟨rfl, rfl⟩ trivial
      | ok r => exact ih _
    · obtain ⟨e, hverify⟩ : ∃ e, verifyTable .i128 true c.table (some types) = .error e := by
        cases hlookup : types.lookup c.table with
        | none => exact ⟨_, by simp [verifyTable, hlookup]; rfl⟩
        | some key =>
          have hkey : key ≠ .i128 := fun h => hdeclared (h ▸ hlookup)
          exact ⟨_, by simp [verifyTable, hlookup, hkey]; rfl⟩
      rw [if_neg (by simpa using hdeclared), ranAs_refused hverify]
      exact ⟨fun h => ⟨h.1.symm, h.2.symm⟩, fun h => ⟨h.1.symm, h.2.symm⟩⟩

end Runs

/-! ## What the cache decides -/

section Modes

variable {js : JsEngine} {codec : Codec} {ctx : MessageContext} {s : ExecState}
  {k : AccountContract}
  {vm : JsVm} {l : Ledger} {limit : ℕ}

theorem JsVm.runCode_outcome (vm : JsVm) (l : Ledger) (ctx : MessageContext) (script : Script) :
    (vm.runCode l ctx script).2 = ranAs ctx vm.tablesFixed script
      ⟨l.records, vm.tableKeyTypes.map fun name => (vm.instances name).tableKeyTypes,
        vm.tableStorage, vm.residues⟩ :=
  rfl

/-- Code that is known is run without a look at its tables. -/
theorem JsVm.apply_known (hk : contractOf l ctx.code = some k)
    (hknown : (vm.instances ctx.code).codeVersion = js.codeHash k.code) :
    (vm.apply js l ctx limit).2 = freeRun ctx vm.residues (js.script k.code ctx limit) l.records := by
  simp only [apply, loadAndRun, hk, load, hknown, if_true]
  rw [runCode_outcome]
  exact ranAs_null

theorem JsVm.apply_loaded {state : ModuleState} (hk : contractOf l ctx.code = some k)
    (hnew : (vm.instances ctx.code).codeVersion ≠ js.codeHash k.code)
    (hload : (vm.instances ctx.code).loadAbi js k = (state, true)) :
    (vm.apply js l ctx limit).2 = ranAs ctx state.tablesFixed (js.script k.code ctx limit)
      ⟨l.records, some state.tableKeyTypes, 0, vm.residues⟩ := by
  simp only [apply, loadAndRun, hk, load, hnew, if_false, hload, if_true]
  rw [runCode_outcome]
  simp

theorem JsVm.apply_unloaded {state : ModuleState} (hk : contractOf l ctx.code = some k)
    (hnew : (vm.instances ctx.code).codeVersion ≠ js.codeHash k.code)
    (hload : (vm.instances ctx.code).loadAbi js k = (state, false)) :
    (vm.apply js l ctx limit).2 = ⟨l.records, 0, true⟩ := by
  simp [apply, loadAndRun, hk, load, hnew, hload]

/-- Code that is new is held to the tables of its interface; without one, to what an earlier interface
of the account has left fixed. -/
theorem JsVm.apply_new (hk : contractOf l ctx.code = some k)
    (hnew : (vm.instances ctx.code).codeVersion ≠ js.codeHash k.code) :
    (vm.apply js l ctx limit).2 =
      if isEmptyAbi k.abi then
        if (vm.instances ctx.code).tablesFixed then
          ranAs ctx true (js.script k.code ctx limit) ⟨l.records, some [], 0, vm.residues⟩
        else freeRun ctx vm.residues (js.script k.code ctx limit) l.records
      else
        match tablesOf js k.abi with
        | none => ⟨l.records, 0, true⟩
        | some types =>
          ranAs ctx true (js.script k.code ctx limit) ⟨l.records, some types, 0, vm.residues⟩ := by
  cases hempty : isEmptyAbi k.abi with
  | true =>
    rw [apply_loaded hk hnew (by simp only [ModuleState.loadAbi, hempty, if_true]; rfl), if_pos rfl]
    cases (vm.instances ctx.code).tablesFixed with
    | true => rfl
    | false => exact ranAs_growing (fun r hr => by cases hr)
  | false =>
    rw [if_neg (by simp), tablesOf]
    cases hunpack : js.unpackAbi k.abi with
    | none => exact apply_unloaded hk hnew (by simp [ModuleState.loadAbi, hempty, hunpack]; rfl)
    | some tables =>
      cases hall : (emplaceTables tables []).2 with
      | true =>
        rw [apply_loaded hk hnew (by simp [ModuleState.loadAbi, hempty, hunpack, hall]; rfl)]
        simp [hall]
      | false =>
        rw [apply_unloaded hk hnew (by simp [ModuleState.loadAbi, hempty, hunpack, hall]; rfl)]
        simp [hall]

theorem ModuleState.loadAbi_version (state : ModuleState) :
    (state.loadAbi js k).1.codeVersion = js.codeHash k.code := by
  unfold loadAbi
  split_ifs
  · rfl
  · cases js.unpackAbi k.abi <;> rfl

theorem ModuleState.loadAbi_fixed (state : ModuleState) {tables : List (AccountName × String)}
    (hempty : isEmptyAbi k.abi = false) (hunpack : js.unpackAbi k.abi = some tables) :
    (state.loadAbi js k).1.tablesFixed = true := by
  simp [loadAbi, hempty, hunpack]

theorem JsVm.runCode_instances (vm : JsVm) (l : Ledger) (ctx : MessageContext) (script : Script)
    (name : AccountName) :
    ((vm.runCode l ctx script).1.instances name).codeVersion = (vm.instances name).codeVersion ∧
      ((vm.runCode l ctx script).1.instances name).tablesFixed =
        (vm.instances name).tablesFixed := by
  simp only [runCode]
  split
  · rename_i pointed types hpointed htypes
    by_cases hname : name = pointed
    · subst hname
      simp
    · simp [Function.update_of_ne hname]
  · exact ⟨rfl, rfl⟩

theorem JsVm.loadAndRun_instances {script : Bytes → MessageContext → ℕ → Script}
    (hk : contractOf l ctx.code = some k) :
    ((vm.loadAndRun js l ctx script).1.instances ctx.code).codeVersion =
        ((vm.load js ctx.code k).1.instances ctx.code).codeVersion ∧
      ((vm.loadAndRun js l ctx script).1.instances ctx.code).tablesFixed =
        ((vm.load js ctx.code k).1.instances ctx.code).tablesFixed := by
  simp only [loadAndRun, hk]
  cases (vm.load js ctx.code k).2 with
  | true => exact runCode_instances ..
  | false => exact ⟨rfl, rfl⟩

theorem JsVm.load_new (vm : JsVm)
    (hnew : (vm.instances ctx.code).codeVersion ≠ js.codeHash k.code) :
    (vm.load js ctx.code k).1.instances ctx.code = ((vm.instances ctx.code).loadAbi js k).1 := by
  simp only [load, hnew, if_false]
  split_ifs <;> simp

theorem JsVm.apply_version (hk : contractOf l ctx.code = some k) :
    ((vm.apply js l ctx limit).1.instances ctx.code).codeVersion = js.codeHash k.code := by
  rw [apply, (loadAndRun_instances hk).1]
  by_cases hnew : (vm.instances ctx.code).codeVersion = js.codeHash k.code
  · simp [load, hnew]
  · rw [load_new { vm with instructionLimit := limit, tableKeyTypes := none } hnew,
      ModuleState.loadAbi_version]

theorem JsVm.apply_fixed {tables : List (AccountName × String)}
    (hk : contractOf l ctx.code = some k)
    (hnew : (vm.instances ctx.code).codeVersion ≠ js.codeHash k.code)
    (hempty : isEmptyAbi k.abi = false)
    (hunpack : js.unpackAbi k.abi = some tables) :
    ((vm.apply js l ctx limit).1.instances ctx.code).tablesFixed = true := by
  rw [apply, (loadAndRun_instances hk).2,
    load_new { vm with instructionLimit := limit, tableKeyTypes := none } hnew,
    ModuleState.loadAbi_fixed _ hempty hunpack]

end Modes

/-! ## When the cache does not matter -/

section CacheFree

variable {js : JsEngine} {codec : Codec} {ctx : MessageContext} {s : ExecState}
  {acc : AccountObject}
  {isNotify : Bool}

/-- The records and the gas after a message to a contract are all that its run decides. -/
theorem execOneMessage_contract (vm : JsVm) {k : AccountContract}
    (hacc : s.db.accounts.find? ctx.code = some acc) (htype : acc.type = .contract)
    (hk : acc.contract = some k) :
    execOneMessage ⟨codec, js.vm fun _ _ => vm⟩ ctx isNotify s =
      .ok { s with
        db := { s.db with
          records := (vm.apply js s.db.toLedger ctx (instructionLimit ctx)).2.records
          msgCounter := u64 (s.db.msgCounter + 1) }
        usedGas := gasAfter ctx s (vm.apply js s.db.toLedger ctx (instructionLimit ctx)).2 } := by
  have hget : dbGet s.db.accounts ctx.code = .ok acc := dbGet_eq_ok.2 hacc
  have hrun : runCode ⟨codec, js.vm fun _ _ => vm⟩ ctx isNotify s =
      .ok (runContract ⟨codec, js.vm fun _ _ => vm⟩ ctx s) := by
    simp [runCode, hget, htype, hk, bind, Except.bind, fcAssert, pure, Except.pure]
  rw [execOneMessage, hrun]
  rfl

theorem contractOf_of_find {k : AccountContract} (hacc : s.db.accounts.find? ctx.code = some acc)
    (hk : acc.contract = some k) : contractOf s.db.toLedger ctx.code = some k := by
  simp [contractOf, hacc, hk]

theorem execOneMessage_eq_iff (vm vm' : JsVm) {k : AccountContract}
    (hacc : s.db.accounts.find? ctx.code = some acc) (htype : acc.type = .contract)
    (hk : acc.contract = some k) :
    execOneMessage ⟨codec, js.vm fun _ _ => vm⟩ ctx isNotify s =
        execOneMessage ⟨codec, js.vm fun _ _ => vm'⟩ ctx isNotify s ↔
      SameEffect ctx s (vm.apply js s.db.toLedger ctx (instructionLimit ctx)).2
        (vm'.apply js s.db.toLedger ctx (instructionLimit ctx)).2 := by
  rw [execOneMessage_contract vm hacc htype hk, execOneMessage_contract vm' hacc htype hk,
    SameEffect]
  constructor
  · intro h
    injection h with h
    exact ⟨congrArg (·.db.records) h, congrArg (·.usedGas) h⟩
  · rintro ⟨hrecords, hgas⟩
    rw [hrecords, hgas]

/-- Where the condition holds every run of the message has the effect of the one that looks at no
tables. -/
theorem Declares.sameEffect {k : AccountContract} (hk : contractOf s.db.toLedger ctx.code = some k)
    (h : Declares js ctx s) (vm : JsVm) :
    SameEffect ctx s (vm.apply js s.db.toLedger ctx (instructionLimit ctx)).2
      (freeRun ctx vm.residues (js.script k.code ctx (instructionLimit ctx)) s.db.records) := by
  by_cases hknown : (vm.instances ctx.code).codeVersion = js.codeHash k.code
  · rw [JsVm.apply_known hk hknown]
    exact ⟨rfl, rfl⟩
  · have hcond := (h k hk).2 vm.residues
    rw [JsVm.apply_new hk hknown]
    split_ifs with hempty hfixed
    · rw [if_pos hempty] at hcond
      exact ranAs_checked_iff.2 (by simpa using hcond)
    · exact ⟨rfl, rfl⟩
    · rw [if_neg hempty] at hcond
      cases htables : tablesOf js k.abi with
      | none =>
        rw [htables] at hcond
        exact ⟨hcond.1.symm, hcond.2.symm⟩
      | some types =>
        rw [htables] at hcond
        exact ranAs_checked_iff.2 hcond

/-- A node that has run the code is one that looks at no tables, with anything on its stack. -/
theorem CacheFree.sameEffect {k : AccountContract} (hfree : CacheFree js codec ctx isNotify s)
    (hacc : s.db.accounts.find? ctx.code = some acc) (htype : acc.type = .contract)
    (hcontract : acc.contract = some k) {vm : JsVm} (hvm : vm.Reached js) (residues : ℕ → Residue) :
    SameEffect ctx s (vm.apply js s.db.toLedger ctx (instructionLimit ctx)).2
      (freeRun ctx residues (js.script k.code ctx (instructionLimit ctx)) s.db.records) := by
  have hk := contractOf_of_find hacc hcontract
  have hsame := (execOneMessage_eq_iff vm _ hacc htype hcontract).1
    (hfree vm _ hvm ((JsVm.Reached.fresh.apply s.db.toLedger ctx (instructionLimit ctx)).stack residues))
  have hknown : (((({} : JsVm).apply js s.db.toLedger ctx (instructionLimit ctx)).1.withStack
      residues).instances ctx.code).codeVersion = js.codeHash k.code := JsVm.apply_version hk
  rwa [JsVm.apply_known hk hknown] at hsame

theorem CacheFree.declares {k : AccountContract} (hfree : CacheFree js codec ctx isNotify s)
    (hacc : s.db.accounts.find? ctx.code = some acc) (htype : acc.type = .contract)
    (hcontract : acc.contract = some k) (hhash : js.codeHash k.code ≠ default)
    (hother : ∃ k' : AccountContract, ∃ tables, js.codeHash k'.code ≠ default ∧
      js.codeHash k'.code ≠ js.codeHash k.code ∧ isEmptyAbi k'.abi = false ∧
        js.unpackAbi k'.abi = some tables) :
    Declares js ctx s := by
  intro k₁ hk₁
  have hk := contractOf_of_find hacc hcontract
  obtain rfl : k = k₁ := Option.some.inj (hk.symm.trans hk₁)
  refine ⟨fun residues residues' => (hfree.sameEffect hacc htype hcontract .fresh residues).symm.trans
    (hfree.sameEffect hacc htype hcontract .fresh residues'), fun residues => ?_⟩
  cases hempty : isEmptyAbi k.abi with
  | true =>
    -- a node on which the account had other code with an interface
    obtain ⟨k', tables, hhash', hne, hempty', hunpack⟩ := hother
    let l : Ledger := { s.db.toLedger with
      accounts := s.db.accounts.modify ctx.code fun a => { a with contract := some k' } }
    have hl : contractOf l ctx.code = some k' := by
      simp [contractOf, l, hacc]
    have hnew : (({} : JsVm).instances ctx.code).codeVersion ≠ js.codeHash k'.code := hhash'.symm
    have hsame := hfree.sameEffect hacc htype hcontract
      ((JsVm.Reached.fresh.apply l ctx 0).stack residues) residues
    have hversion : (((({} : JsVm).apply js l ctx 0).1.withStack residues).instances ctx.code).codeVersion ≠
        js.codeHash k.code := (JsVm.apply_version hl).trans_ne hne
    have hfixed : (((({} : JsVm).apply js l ctx 0).1.withStack residues).instances ctx.code).tablesFixed =
        true := JsVm.apply_fixed hl hnew hempty' hunpack
    rw [JsVm.apply_new hk hversion, if_pos hempty, if_pos hfixed] at hsame
    simpa using ranAs_checked_iff.1 hsame
  | false =>
    have hnew : ((({} : JsVm).withStack residues).instances ctx.code).codeVersion ≠ js.codeHash k.code :=
      hhash.symm
    have hsame := hfree.sameEffect hacc htype hcontract (JsVm.Reached.fresh.stack residues) residues
    rw [JsVm.apply_new hk hnew, if_neg (by simp [hempty])] at hsame
    rw [if_neg (by simp)]
    cases htables : tablesOf js k.abi with
    | none =>
      rw [htables] at hsame
      exact ⟨hsame.1.symm, hsame.2.symm⟩
    | some types =>
      rw [htables] at hsame
      exact ranAs_checked_iff.1 hsame

/-- Code that is one letter, the table in which it loads a value and then stores another. The first byte of
an interface is the table that it declares. -/
def tableEngine : JsEngine where
  script code _ _ := .call 1 (.load 3 3 (code.headD 0) 0) fun _ =>
    .call 2 (.store 3 (code.headD 0) 1 [42]) fun _ => .finish 3 false
  initScript _ _ _ := .finish 0 false
  codeHash code := ⟨1, code.headD 0⟩
  unpackAbi abi := some [(abi.headD 0, "i128")]

def contractState (k : AccountContract) : ExecState :=
  ⟨{ accounts := .ofList [(3, ⟨.contract, 0, some k⟩)] }, [3], 0⟩

def contractContext : MessageContext :=
  ⟨{ scope := [3], gas := 1, gaslimit := 50 }, ⟨3, .transfer, [], []⟩, 3, 0⟩

end CacheFree

end Nodes

end XmaxChain
