import XmaxChain.Authority
import XmaxChain.RecordMap

/-!
# What a contract's records take

Storing, updating and removing a record change the storage that the contract that runs is charged for, by
rounded sizes. The size before is told by what the record function returns, which is the size of the value, and the
size of the keys is a constant for each type of record or the length of the key that was passed.
-/

namespace XmaxChain

/-! ## The functions that a contract calls -/

/-- The tables, and what the virtual machine keeps while a contract runs. -/
structure VmStorage where
  tables : (type : ObjectType) → RecordIndex type
  tableKeyTypes : Option (Table AccountName ObjectType)
  tableStorage : ℤ

/-- What does not change meanwhile. -/
structure VmEnv where
  ctx : MessageContext
  tablesFixed : Bool := false
  perCodeAccountMaxDbLimitMbytes : ℕ := 5
  rowOverheadDbLimitBytes : ℕ := 32

/-- `vm_xmax::load`, and for a block that was received `apply` forgets the types of the tables. -/
def VmStorage.load (tableKeyTypes : Option (Table AccountName ObjectType)) (s : VmStorage) : VmStorage :=
  { s with tableKeyTypes, tableStorage := 0 }

abbrev VmM := EStateM Fault VmStorage

def roundToByteBoundary (bytes : ℤ) : ℤ :=
  let remainder := bytes.tmod 8
  if remainder > 0 then bytes + (8 - remainder) else bytes

/-- `number_of_keys` times the size of a key. -/
def ObjectType.keylen : ObjectType → ℕ
  | .keyValue => 16
  | .keystrValue => 0
  | .key128x128Value => 32
  | .key128x128x128Value => 48

def keyAt (buffer : Bytes) (i : ℕ) : Uint128 :=
  Fin.ofNat _ (Nat.ofDigits 256 ((buffer.drop (16 * i)).take 16))

def keysAt : (type : ObjectType) → Bytes → type.Keys
  | .keyValue, buffer => keyAt buffer 0
  | .keystrValue, buffer => buffer
  | .key128x128Value, buffer => (keyAt buffer 0, keyAt buffer 1)
  | .key128x128x128Value, buffer => (keyAt buffer 0, keyAt buffer 1, keyAt buffer 2)

/-- What a record function returns. -/
def sizeOrMinusOne : Option ℕ → ℤ
  | none => -1
  | some size => i32 size

namespace VmDatabase

variable (env : VmEnv) (type : ObjectType)

/-- `VERIFY_TABLE`. -/
def verifyTable (table : AccountName) : VmM Unit := fun s =>
  match s.tableKeyTypes with
  | none => .ok () s
  | some types =>
    match types.find? table with
    | none =>
      if env.tablesFixed then .error (.fc "abi did not define table ${t}") s
      else .ok () { s with tableKeyTypes := some (types.assign table type) }
    | some defined =>
      if type = defined then .ok () s
      else .error (.fc "abi definition for ${table} expects \"${type}\"") s

/-- The buffer is the memory of the contract from the pointer on, as long as the length that is passed. -/
def validate (buffer : Bytes) : VmM (type.Keys × Bytes) := fun s =>
  if type.keylen ≤ buffer.length then .ok (keysAt type (buffer.take type.keylen), buffer.drop type.keylen) s
  else .error (.fc "insufficient data passed") s

def onRecords (f : RecordIndex type → Except Fault (RecordIndex type × Option ℕ)) : VmM ℤ := fun s =>
  match f (s.tables type) with
  | .error e => .error e s
  | .ok (idx, previous) => .ok (sizeOrMinusOne previous) { s with tables := Function.update s.tables type idx }

/-- What is added stays added when it is too much. -/
def addStorage (bytes : ℤ) : VmM Unit := fun s =>
  let s := { s with tableStorage := s.tableStorage + bytes }
  if s.tableStorage ≤ (u32 (env.perCodeAccountMaxDbLimitMbytes * (1024 * 1024)) : ℤ) then .ok () s
  else .error (.fc "Database limit exceeded for account=${name}") s

variable (keySize : ℕ) (scope table : AccountName) (buffer : Bytes)

/-- The functions of `DEFINE_RECORD_UPDATE_FUNCTIONS`. -/
def store : VmM ℤ := do
  verifyTable env type table
  let (keys, value) ← validate type buffer
  let ret ← onRecords type (·.storeRecord env.ctx ⟨⟨scope, env.ctx.code, table⟩, keys⟩ value)
  let valuelen := i32 buffer.length
  if ret = -1 then
    addStorage env (roundToByteBoundary valuelen + env.rowOverheadDbLimitBytes)
    pure 1
  else
    addStorage env (roundToByteBoundary valuelen - roundToByteBoundary (i32 (keySize + ret)))
    pure 0

def update : VmM ℤ := do
  verifyTable env type table
  let (keys, value) ← validate type buffer
  let ret ← onRecords type (·.updateRecord env.ctx ⟨⟨scope, env.ctx.code, table⟩, keys⟩ value)
  if ret = -1 then pure 0
  else
    addStorage env (roundToByteBoundary (i32 buffer.length) - roundToByteBoundary (i32 (keySize + ret)))
    pure 1

/-- The length is that of the keys. -/
def remove : VmM ℤ := do
  verifyTable env type table
  let (keys, _) ← validate type (buffer.take type.keylen)
  let ret ← onRecords type (·.removeRecord env.ctx ⟨⟨scope, env.ctx.code, table⟩, keys⟩)
  if ret = -1 then pure 0
  else
    addStorage env (-(roundToByteBoundary (i32 (keySize + ret)) + env.rowOverheadDbLimitBytes))
    pure 1

def storeI64 : VmM ℤ := store env .keyValue 8 scope table buffer

def updateI64 : VmM ℤ := update env .keyValue 8 scope table buffer

def removeI64 : VmM ℤ := remove env .keyValue 8 scope table buffer

def storeI128i128 : VmM ℤ := store env .key128x128Value 32 scope table buffer

def updateI128i128 : VmM ℤ := update env .key128x128Value 32 scope table buffer

def removeI128i128 : VmM ℤ := remove env .key128x128Value 32 scope table buffer

def storeI128i128i128 : VmM ℤ := store env .key128x128x128Value 48 scope table buffer

def updateI128i128i128 : VmM ℤ := update env .key128x128x128Value 48 scope table buffer

def removeI128i128i128 : VmM ℤ := remove env .key128x128x128Value 48 scope table buffer

variable (key value : Bytes)

def storeStr : VmM ℤ := do
  verifyTable env .keystrValue table
  let ret ← onRecords .keystrValue (·.storeRecord env.ctx ⟨⟨scope, env.ctx.code, table⟩, key⟩ value)
  let keylen := i32 key.length
  let valuelen := i32 value.length
  if ret = -1 then
    addStorage env (roundToByteBoundary (i32 (keylen + valuelen)) + env.rowOverheadDbLimitBytes)
    pure 1
  else
    addStorage env (roundToByteBoundary (i32 (keylen + valuelen)) - roundToByteBoundary (i32 (keylen + ret)))
    pure 0

def updateStr : VmM ℤ := do
  verifyTable env .keystrValue table
  let ret ← onRecords .keystrValue (·.updateRecord env.ctx ⟨⟨scope, env.ctx.code, table⟩, key⟩ value)
  let keylen := i32 key.length
  let valuelen := i32 value.length
  if ret = -1 then pure 0
  else
    addStorage env (roundToByteBoundary (i32 (keylen + valuelen)) - roundToByteBoundary (i32 (keylen + ret)))
    pure 1

def removeStr : VmM ℤ := do
  verifyTable env .keystrValue table
  let ret ← onRecords .keystrValue (·.removeRecord env.ctx ⟨⟨scope, env.ctx.code, table⟩, key⟩)
  let keylen := i32 key.length
  if ret = -1 then pure 0
  else
    addStorage env (-(roundToByteBoundary (i32 (keylen + ret)) + env.rowOverheadDbLimitBytes))
    pure 1

end VmDatabase

open VmDatabase

/-! ## Calls -/

inductive RecordOp
  | store
  | update
  | remove

/-- A call of one of the functions. For strings the key is passed by itself, and else the keys are the
beginning of the buffer. -/
structure DbCall where
  type : ObjectType
  op : RecordOp
  scope : AccountName
  table : AccountName
  key : Bytes := []
  buffer : Bytes := []

namespace DbCall

def run (env : VmEnv) : DbCall → VmM ℤ
  | ⟨.keyValue, .store, scope, table, _, buffer⟩ => storeI64 env scope table buffer
  | ⟨.keyValue, .update, scope, table, _, buffer⟩ => updateI64 env scope table buffer
  | ⟨.keyValue, .remove, scope, table, _, buffer⟩ => removeI64 env scope table buffer
  | ⟨.key128x128Value, .store, scope, table, _, buffer⟩ => storeI128i128 env scope table buffer
  | ⟨.key128x128Value, .update, scope, table, _, buffer⟩ => updateI128i128 env scope table buffer
  | ⟨.key128x128Value, .remove, scope, table, _, buffer⟩ => removeI128i128 env scope table buffer
  | ⟨.key128x128x128Value, .store, scope, table, _, buffer⟩ => storeI128i128i128 env scope table buffer
  | ⟨.key128x128x128Value, .update, scope, table, _, buffer⟩ => updateI128i128i128 env scope table buffer
  | ⟨.key128x128x128Value, .remove, scope, table, _, buffer⟩ => removeI128i128i128 env scope table buffer
  | ⟨.keystrValue, .store, scope, table, key, value⟩ => storeStr env scope table key value
  | ⟨.keystrValue, .update, scope, table, key, value⟩ => updateStr env scope table key value
  | ⟨.keystrValue, .remove, scope, table, key, _⟩ => removeStr env scope table key

variable (env : VmEnv) (call : DbCall)

def keysOf : (type : ObjectType) → (key buffer : Bytes) → type.Keys
  | .keystrValue, key, _ => key
  | .keyValue, _, buffer => keysAt .keyValue (buffer.take 16)
  | .key128x128Value, _, buffer => keysAt .key128x128Value (buffer.take 32)
  | .key128x128x128Value, _, buffer => keysAt .key128x128x128Value (buffer.take 48)

/-- The row that the call is about. -/
def row : RowKey call.type := ⟨⟨call.scope, env.ctx.code, call.table⟩, keysOf call.type call.key call.buffer⟩

def newValue : Bytes := call.buffer.drop call.type.keylen

/-- The record function that is called. -/
def record (idx : RecordIndex call.type) : Except Fault (RecordIndex call.type × Option ℕ) :=
  match call.op with
  | .store => idx.storeRecord env.ctx (call.row env) call.newValue
  | .update => idx.updateRecord env.ctx (call.row env) call.newValue
  | .remove => idx.removeRecord env.ctx (call.row env)

/-- The size of the keys that is charged. -/
def keySize : ℤ :=
  match call.type with
  | .keyValue => 8
  | .keystrValue => i32 call.key.length
  | .key128x128Value => 32
  | .key128x128x128Value => 48

/-- The size of the keys and the value that is charged. -/
def newSize : ℤ :=
  match call.type with
  | .keystrValue => i32 (i32 call.key.length + i32 call.buffer.length)
  | _ => i32 call.buffer.length

/-- What is charged, by what the record function returns. -/
def charge (ret : ℤ) : ℤ :=
  match call.op with
  | .store =>
    if ret = -1 then roundToByteBoundary call.newSize + env.rowOverheadDbLimitBytes
    else roundToByteBoundary call.newSize - roundToByteBoundary (i32 (call.keySize + ret))
  | .update =>
    if ret = -1 then 0 else roundToByteBoundary call.newSize - roundToByteBoundary (i32 (call.keySize + ret))
  | .remove =>
    if ret = -1 then 0 else -(roundToByteBoundary (i32 (call.keySize + ret)) + env.rowOverheadDbLimitBytes)

end DbCall

def runDbCalls (env : VmEnv) : List DbCall → VmM Unit
  | [] => pure ()
  | call :: calls => do
    let _ ← call.run env
    runDbCalls env calls

/-! ## What a call does -/

section Charged

variable {env : VmEnv} {type : ObjectType} {s s' : VmStorage} {n : ℤ}

/-- A record function is called, and what is charged goes by what it returns. -/
def Charged (type : ObjectType) (f : RecordIndex type → Except Fault (RecordIndex type × Option ℕ)) (charge : ℤ → ℤ)
    (s s' : VmStorage) : Prop :=
  ∃ idx previous, f (s.tables type) = .ok (idx, previous) ∧ s'.tables = Function.update s.tables type idx ∧
    s'.tableStorage = s.tableStorage + charge (sizeOrMinusOne previous)

theorem verifyTable_ok {table : AccountName} {u : Unit} (h : VmDatabase.verifyTable env type table s = .ok u s') :
    s'.tables = s.tables ∧ s'.tableStorage = s.tableStorage := by
  unfold VmDatabase.verifyTable at h
  split at h
  · cases h
    exact ⟨rfl, rfl⟩
  · split at h
    · split_ifs at h
      cases h
      exact ⟨rfl, rfl⟩
    · split_ifs at h
      cases h
      exact ⟨rfl, rfl⟩

theorem validate_ok {buffer : Bytes} {r : type.Keys × Bytes} (h : validate type buffer s = .ok r s') :
    type.keylen ≤ buffer.length ∧ r = (keysAt type (buffer.take type.keylen), buffer.drop type.keylen) ∧ s' = s := by
  unfold validate at h
  split_ifs at h with hlength
  cases h
  exact ⟨hlength, rfl, rfl⟩

theorem addStorage_ok {bytes : ℤ} {u : Unit} (h : addStorage env bytes s = .ok u s') :
    s' = { s with tableStorage := s.tableStorage + bytes } := by
  unfold addStorage at h
  dsimp only at h
  split_ifs at h
  cases h
  rfl

theorem addStorage_pure {bytes a b : ℤ} (h : (addStorage env bytes >>= fun _ => pure a) s = .ok b s') :
    s' = { s with tableStorage := s.tableStorage + bytes } := by
  obtain ⟨u, s₁, hadd, hpure⟩ := run_bind_eq_ok.1 h
  cases hpure
  exact addStorage_ok hadd

/-- The end of each function: a record function, and then what it returns is charged. -/
theorem charged_of_onRecords {f : RecordIndex type → Except Fault (RecordIndex type × Option ℕ)} {g : ℤ → VmM ℤ}
    {charge : ℤ → ℤ}
    (hg : ∀ ret s n s', g ret s = .ok n s' → s' = { s with tableStorage := s.tableStorage + charge ret })
    (h : (onRecords type f >>= g) s = .ok n s') : Charged type f charge s s' := by
  obtain ⟨ret, s₁, hrecords, hrest⟩ := run_bind_eq_ok.1 h
  unfold onRecords at hrecords
  split at hrecords
  · cases hrecords
  · rename_i idx previous hf
    cases hrecords
    rw [hg _ _ _ _ hrest]
    exact ⟨idx, previous, hf, rfl, rfl⟩

/-- It is charged for a row that is new and for one that is found. -/
theorem charged_of_either {f : RecordIndex type → Except Fault (RecordIndex type × Option ℕ)} {new : ℤ} {found : ℤ → ℤ}
    (h : (onRecords type f >>= fun ret =>
      if ret = -1 then addStorage env new >>= fun _ => pure 1 else addStorage env (found ret) >>= fun _ => pure 0) s =
        .ok n s') :
    Charged type f (fun ret => if ret = -1 then new else found ret) s s' := by
  refine charged_of_onRecords (fun ret s n s' hg => ?_) h
  split_ifs at hg ⊢ with hret
  · exact addStorage_pure hg
  · exact addStorage_pure hg

/-- Only for one that is found. -/
theorem charged_of_found {f : RecordIndex type → Except Fault (RecordIndex type × Option ℕ)} {found : ℤ → ℤ}
    (h : (onRecords type f >>= fun ret =>
      if ret = -1 then pure 0 else addStorage env (found ret) >>= fun _ => pure 1) s = .ok n s') :
    Charged type f (fun ret => if ret = -1 then 0 else found ret) s s' := by
  refine charged_of_onRecords (fun ret s n s' hg => ?_) h
  split_ifs at hg ⊢ with hret
  · cases hg
    rw [add_zero]
  · exact addStorage_pure hg

theorem Charged.of_verified {f : RecordIndex type → Except Fault (RecordIndex type × Option ℕ)} {charge : ℤ → ℤ}
    {s₁ : VmStorage} {table : AccountName} {u : Unit} (hverify : VmDatabase.verifyTable env type table s = .ok u s₁)
    (h : Charged type f charge s₁ s') : Charged type f charge s s' := by
  obtain ⟨htables, hstorage⟩ := verifyTable_ok hverify
  obtain ⟨idx, previous, hf, hidx, hcharge⟩ := h
  rw [htables] at hf hidx
  rw [hstorage] at hcharge
  exact ⟨idx, previous, hf, hidx, hcharge⟩

variable {keySize : ℕ} {scope table : AccountName} {buffer : Bytes}

theorem store_charged (h : store env type keySize scope table buffer s = .ok n s') :
    type.keylen ≤ buffer.length ∧
      Charged type (·.storeRecord env.ctx ⟨⟨scope, env.ctx.code, table⟩, keysAt type (buffer.take type.keylen)⟩
          (buffer.drop type.keylen))
        (fun ret =>
          if ret = -1 then roundToByteBoundary (i32 buffer.length) + env.rowOverheadDbLimitBytes
          else roundToByteBoundary (i32 buffer.length) - roundToByteBoundary (i32 (keySize + ret))) s s' := by
  obtain ⟨u, s₁, hverify, hrun⟩ := run_bind_eq_ok.1 h
  obtain ⟨r, s₂, hvalidate, hrest⟩ := run_bind_eq_ok.1 hrun
  obtain ⟨hlength, rfl, rfl⟩ := validate_ok hvalidate
  exact ⟨hlength, .of_verified hverify (charged_of_either hrest)⟩

theorem update_charged (h : update env type keySize scope table buffer s = .ok n s') :
    type.keylen ≤ buffer.length ∧
      Charged type (·.updateRecord env.ctx ⟨⟨scope, env.ctx.code, table⟩, keysAt type (buffer.take type.keylen)⟩
          (buffer.drop type.keylen))
        (fun ret =>
          if ret = -1 then 0
          else roundToByteBoundary (i32 buffer.length) - roundToByteBoundary (i32 (keySize + ret))) s s' := by
  obtain ⟨u, s₁, hverify, hrun⟩ := run_bind_eq_ok.1 h
  obtain ⟨r, s₂, hvalidate, hrest⟩ := run_bind_eq_ok.1 hrun
  obtain ⟨hlength, rfl, rfl⟩ := validate_ok hvalidate
  exact ⟨hlength, .of_verified hverify (charged_of_found hrest)⟩

theorem remove_charged (h : remove env type keySize scope table buffer s = .ok n s') :
    Charged type (·.removeRecord env.ctx ⟨⟨scope, env.ctx.code, table⟩, keysAt type (buffer.take type.keylen)⟩)
      (fun ret =>
        if ret = -1 then 0
        else -(roundToByteBoundary (i32 (keySize + ret)) + env.rowOverheadDbLimitBytes)) s s' := by
  obtain ⟨u, s₁, hverify, hrun⟩ := run_bind_eq_ok.1 h
  obtain ⟨r, s₂, hvalidate, hrest⟩ := run_bind_eq_ok.1 hrun
  obtain ⟨-, rfl, rfl⟩ := validate_ok hvalidate
  rw [List.take_take, min_self] at hrest
  exact .of_verified hverify (charged_of_found hrest)

theorem storeStr_charged {key value : Bytes} (h : storeStr env scope table key value s = .ok n s') :
    Charged .keystrValue (·.storeRecord env.ctx ⟨⟨scope, env.ctx.code, table⟩, key⟩ value)
      (fun ret =>
        if ret = -1 then
          roundToByteBoundary (i32 (i32 key.length + i32 value.length)) + env.rowOverheadDbLimitBytes
        else
          roundToByteBoundary (i32 (i32 key.length + i32 value.length)) -
            roundToByteBoundary (i32 (i32 key.length + ret))) s s' := by
  obtain ⟨u, s₁, hverify, hrest⟩ := run_bind_eq_ok.1 h
  exact .of_verified hverify (charged_of_either hrest)

theorem updateStr_charged {key value : Bytes} (h : updateStr env scope table key value s = .ok n s') :
    Charged .keystrValue (·.updateRecord env.ctx ⟨⟨scope, env.ctx.code, table⟩, key⟩ value)
      (fun ret =>
        if ret = -1 then 0
        else
          roundToByteBoundary (i32 (i32 key.length + i32 value.length)) -
            roundToByteBoundary (i32 (i32 key.length + ret))) s s' := by
  obtain ⟨u, s₁, hverify, hrest⟩ := run_bind_eq_ok.1 h
  exact .of_verified hverify (charged_of_found hrest)

theorem removeStr_charged {key : Bytes} (h : removeStr env scope table key s = .ok n s') :
    Charged .keystrValue (·.removeRecord env.ctx ⟨⟨scope, env.ctx.code, table⟩, key⟩)
      (fun ret =>
        if ret = -1 then 0
        else -(roundToByteBoundary (i32 (i32 key.length + ret)) + env.rowOverheadDbLimitBytes)) s s' := by
  obtain ⟨u, s₁, hverify, hrest⟩ := run_bind_eq_ok.1 h
  exact .of_verified hverify (charged_of_found hrest)

/-- There is room for the keys where they are needed. -/
def DbCall.HasKeys (call : DbCall) : Prop := call.op = .remove ∨ call.type.keylen ≤ call.buffer.length

theorem run_charged {call : DbCall} (h : call.run env s = .ok n s') :
    call.HasKeys ∧ Charged call.type (call.record env) (call.charge env) s s' := by
  obtain ⟨type, op, scope, table, key, buffer⟩ := call
  cases type <;> cases op
  · exact ⟨.inr (store_charged h).1, (store_charged h).2⟩
  · exact ⟨.inr (update_charged h).1, (update_charged h).2⟩
  · exact ⟨.inl rfl, remove_charged h⟩
  · exact ⟨.inr (Nat.zero_le _), storeStr_charged h⟩
  · exact ⟨.inr (Nat.zero_le _), updateStr_charged h⟩
  · exact ⟨.inl rfl, removeStr_charged h⟩
  · exact ⟨.inr (store_charged h).1, (store_charged h).2⟩
  · exact ⟨.inr (update_charged h).1, (update_charged h).2⟩
  · exact ⟨.inl rfl, remove_charged h⟩
  · exact ⟨.inr (store_charged h).1, (store_charged h).2⟩
  · exact ⟨.inr (update_charged h).1, (update_charged h).2⟩
  · exact ⟨.inl rfl, remove_charged h⟩

end Charged

/-! ## What the rows take -/

/-- The bytes of the keys of a row. -/
def keyBytes : {type : ObjectType} → type.Keys → ℕ
  | .keystrValue, key => key.length
  | .keyValue, _ => 16
  | .key128x128Value, _ => 32
  | .key128x128x128Value, _ => 48

/-- Eight bytes are a word. -/
def words (bytes : ℕ) : ℕ := (bytes + 7) / 8

theorem roundToByteBoundary_natCast (n : ℕ) : roundToByteBoundary n = 8 * words n := by
  have hrem : (n : ℤ).tmod 8 = ((n % 8 : ℕ) : ℤ) := by
    rw [Int.tmod_eq_emod_of_nonneg (by omega)]
    omega
  simp only [roundToByteBoundary, hrem, words]
  split_ifs <;> omega

section Usage

variable (env : VmEnv) {type : ObjectType}

def rowSize (r : RecordObject type) : ℤ :=
  roundToByteBoundary (keyBytes r.keys + r.value.length) + env.rowOverheadDbLimitBytes

/-- The rows of the contract that runs. -/
def ownRows (rows : List (RecordObject type)) : List (RecordObject type) := rows.filter (·.code = env.ctx.code)

def usageOf (rows : List (RecordObject type)) : ℤ := ((ownRows env rows).map (rowSize env)).sum

def VmStorage.usage (s : VmStorage) : ℤ :=
  usageOf env ((s.tables .keyValue).getD []) + usageOf env ((s.tables .keystrValue).getD []) +
    usageOf env ((s.tables .key128x128Value).getD []) + usageOf env ((s.tables .key128x128x128Value).getD [])

variable {env} {rows rows' : List (RecordObject type)} {r : RecordObject type}

theorem usageOf_perm (h : rows.Perm rows') : usageOf env rows = usageOf env rows' :=
  ((h.filter _).map _).sum_eq

theorem usageOf_cons (hcode : r.code = env.ctx.code) :
    usageOf env (r :: rows) = rowSize env r + usageOf env rows := by
  rw [usageOf, ownRows, List.filter_cons_of_pos (by simpa using hcode), List.map_cons, List.sum_cons]
  rfl

theorem usageOf_append (hcode : r.code = env.ctx.code) :
    usageOf env (rows ++ [r]) = usageOf env rows + rowSize env r := by
  rw [usageOf_perm (List.perm_append_singleton r rows), usageOf_cons hcode, add_comm]

theorem usageOf_erase (hmem : r ∈ rows) (hcode : r.code = env.ctx.code) :
    usageOf env (rows.erase r) = usageOf env rows - rowSize env r := by
  have hsum : usageOf env rows = _ := usageOf_perm (List.perm_cons_erase hmem)
  rw [usageOf_cons hcode] at hsum
  omega

theorem usageOf_modify (hrows : RowsOk rows) (hmem : r ∈ rows) (hcode : r.code = env.ctx.code) (value : Bytes) :
    usageOf env (modifyRecord r value rows) =
      usageOf env rows - rowSize env r + rowSize env { r with value } := by
  have hnodup : rows.Nodup := hrows.found.imp fun {a b} hne heq => hne (congrArg (fun r => r.findKey) heq)
  have hrest : modifyRecord r value (rows.erase r) = rows.erase r := by
    refine (List.map_congr_left fun r' hr' => if_neg ?_).trans (List.map_id _)
    rintro rfl
    exact hnodup.not_mem_erase hr'
  have hperm : (modifyRecord r value rows).Perm ({ r with value } :: rows.erase r) := by
    have hmap := (List.perm_cons_erase hmem).map fun r' => if r' = r then { r with value } else r'
    rw [List.map_cons, if_pos rfl] at hmap
    exact hmap.trans (by rw [← modifyRecord, hrest])
  have hsame : usageOf env ({ r with value } :: rows.erase r) =
      rowSize env { r with value } + usageOf env (rows.erase r) := usageOf_cons hcode
  rw [usageOf_perm hperm, hsame, usageOf_erase hmem hcode, add_comm]

end Usage

/-! ## Whether it is what is charged -/

/-- The sizes that the charge of a call is right for, when it finds a row: `k` is the length of the key that is
passed and `k'` of that of the row, `v` of the value that is passed and `p` of that of the row. -/
def FairSizes : ObjectType → RecordOp → (k k' v p : ℕ) → Prop
  | .keystrValue, .store, k, k', v, p => words (k + v) + words (k' + p) = words (k' + v) + words (k + p)
  | .keystrValue, .update, k, k', v, p => words (k + v) + words (k' + p) = words (k' + max v p) + words (k + p)
  | .keystrValue, .remove, k, k', _, p => words (k + p) = words (k' + p)
  | .keyValue, .update, _, _, v, p => words p = words v + 1
  | .keyValue, _, _, _, _, _ => False
  | _, .update, _, _, v, p => words p ≤ words v
  | _, _, _, _, _, _ => True

instance : ∀ type op k k' v p, Decidable (FairSizes type op k k' v p)
  | .keystrValue, .store, _, _, _, _ => Nat.decEq _ _
  | .keystrValue, .update, _, _, _, _ => Nat.decEq _ _
  | .keystrValue, .remove, _, _, _, _ => Nat.decEq _ _
  | .keyValue, .update, _, _, _, _ => Nat.decEq _ _
  | .keyValue, .store, _, _, _, _ => .isFalse id
  | .keyValue, .remove, _, _, _, _ => .isFalse id
  | .key128x128Value, .update, _, _, _, _ => Nat.decLe _ _
  | .key128x128Value, .store, _, _, _, _ => .isTrue trivial
  | .key128x128Value, .remove, _, _, _, _ => .isTrue trivial
  | .key128x128x128Value, .update, _, _, _, _ => Nat.decLe _ _
  | .key128x128x128Value, .store, _, _, _, _ => .isTrue trivial
  | .key128x128x128Value, .remove, _, _, _, _ => .isTrue trivial

/-- Lengths of which two together are no negative numbers yet. -/
def DbCall.Small (call : DbCall) : Prop := call.key.length < 2 ^ 30 ∧ call.buffer.length < 2 ^ 30

def RecordObject.Small {type : ObjectType} (r : RecordObject type) : Prop :=
  keyBytes r.keys < 2 ^ 30 ∧ r.value.length < 2 ^ 30

namespace DbCall

variable (env : VmEnv) (call : DbCall) (s : VmStorage)

/-- What holds of the row that a call finds, if it does. -/
def OnFound (P : RecordObject call.type → Prop) : Prop :=
  ∀ rows r, s.tables call.type = some rows → findRecord (call.row env) rows = some r → P r

def Short : Prop := call.Small ∧ call.OnFound env s RecordObject.Small

def Fair : Prop :=
  call.OnFound env s fun r =>
    FairSizes call.type call.op call.key.length (keyBytes r.keys) call.newValue.length r.value.length

instance {P : RecordObject call.type → Prop} [DecidablePred P] : Decidable (call.OnFound env s P) :=
  decidable_of_iff (∀ rows ∈ s.tables call.type, ∀ r ∈ findRecord (call.row env) rows, P r)
    ⟨fun h rows r hrows hr => h rows hrows r hr, fun h rows hrows r hr => h rows r hrows hr⟩

instance : Decidable (call.Short env s) :=
  inferInstanceAs (Decidable ((_ < _ ∧ _ < _) ∧ call.OnFound env s fun _ => _ < _ ∧ _ < _))

instance : Decidable (call.Fair env s) := inferInstanceAs (Decidable (call.OnFound env s _))

end DbCall

section Step

variable {env : VmEnv} {s s' : VmStorage} {call : DbCall} {n : ℤ}

theorem i32_natCast {n : ℕ} (h : n < 2 ^ 31) : i32 n = n :=
  Int.bmod_eq_of_le (by omega) (by omega)

theorem sizeOrMinusOne_some {p : ℕ} (h : p < 2 ^ 30) : sizeOrMinusOne (some p) = p := i32_natCast (by omega)

/-- The bytes of the keys that the call brings, and those that are charged for a row it finds. -/
def DbCall.ownKeyBytes (call : DbCall) : ℕ :=
  match call.type with
  | .keystrValue => call.key.length
  | type => type.keylen

def DbCall.chargedKeyBytes (call : DbCall) : ℕ :=
  match call.type with
  | .keyValue => 8
  | .keystrValue => call.key.length
  | type => type.keylen

theorem keyBytes_row : keyBytes (call.row env).keys = call.ownKeyBytes := by
  obtain ⟨type, op, scope, table, key, buffer⟩ := call
  cases type <;> rfl

theorem chargedKeyBytes_lt (h : call.Small) : call.chargedKeyBytes < 2 ^ 30 := by
  obtain ⟨type, op, scope, table, key, buffer⟩ := call
  have hkey : key.length < 2 ^ 30 := h.1
  cases type <;> simp only [DbCall.chargedKeyBytes, ObjectType.keylen] <;> omega

theorem keySize_eq (h : call.Small) : call.keySize = call.chargedKeyBytes := by
  obtain ⟨type, op, scope, table, key, buffer⟩ := call
  have hkey : key.length < 2 ^ 30 := h.1
  cases type
  · rfl
  · exact i32_natCast (show key.length < 2 ^ 31 by omega)
  · rfl
  · rfl

theorem newSize_eq (h : call.Small) (hkeys : call.type.keylen ≤ call.buffer.length) :
    call.newSize = ((call.ownKeyBytes + call.newValue.length : ℕ) : ℤ) := by
  obtain ⟨type, op, scope, table, key, buffer⟩ := call
  have hkey : key.length < 2 ^ 30 := h.1
  have hbuffer : buffer.length < 2 ^ 30 := h.2
  have hnumeric : ∀ {k : ℕ}, k ≤ buffer.length → i32 buffer.length = ((k + (buffer.drop k).length : ℕ) : ℤ) := by
    intro k hk
    rw [i32_natCast (by omega), List.length_drop, Nat.add_sub_cancel' hk]
  cases type
  · exact hnumeric hkeys
  · change i32 (i32 key.length + i32 buffer.length) = ((key.length + (buffer.drop 0).length : ℕ) : ℤ)
    rw [i32_natCast (by omega), i32_natCast (by omega), ← Nat.cast_add, i32_natCast (by omega), List.drop_zero]
  · exact hnumeric hkeys
  · exact hnumeric hkeys

/-- What is charged for a row that is found, in words. -/
theorem charge_found (h : call.Small) (hkeys : call.HasKeys) {p : ℕ} (hp : p < 2 ^ 30) :
    call.charge env (sizeOrMinusOne (some p)) =
      match call.op with
      | .remove => -(8 * words (call.chargedKeyBytes + p) + env.rowOverheadDbLimitBytes)
      | _ => 8 * words (call.ownKeyBytes + call.newValue.length) - 8 * words (call.chargedKeyBytes + p) := by
  have hret : ((p : ℤ) = -1) = False := by simp only [eq_iff_iff, iff_false]; omega
  have hold : roundToByteBoundary (i32 (call.keySize + p)) = 8 * words (call.chargedKeyBytes + p) := by
    have hcharged := chargedKeyBytes_lt h
    rw [keySize_eq h, ← Nat.cast_add, i32_natCast (by omega), roundToByteBoundary_natCast]
  rw [sizeOrMinusOne_some hp, DbCall.charge]
  rcases hop : call.op
  all_goals simp only [hret, if_false, hold]
  · rw [newSize_eq h (hkeys.resolve_left (by rw [hop]; exact nofun)), roundToByteBoundary_natCast]
  · rw [newSize_eq h (hkeys.resolve_left (by rw [hop]; exact nofun)), roundToByteBoundary_natCast]

theorem charge_none (h : call.Small) (hkeys : call.HasKeys) :
    call.charge env (sizeOrMinusOne none) =
      match call.op with
      | .store => 8 * words (call.ownKeyBytes + call.newValue.length) + env.rowOverheadDbLimitBytes
      | _ => 0 := by
  rw [sizeOrMinusOne, DbCall.charge]
  rcases hop : call.op
  all_goals simp only [if_true]
  rw [newSize_eq h (hkeys.resolve_left (by rw [hop]; exact nofun)), roundToByteBoundary_natCast]

theorem rowSize_eq {type : ObjectType} (r : RecordObject type) :
    rowSize env r = 8 * words (keyBytes r.keys + r.value.length) + env.rowOverheadDbLimitBytes := by
  rw [rowSize, ← Nat.cast_add, roundToByteBoundary_natCast]

/-- How the size of a row that is found changes. -/
def sizeChange (env : VmEnv) : RecordOp → (k v p : ℕ) → ℤ
  | .store, k, v, p => 8 * words (k + v) - 8 * words (k + p)
  | .update, k, v, p => 8 * words (k + max v p) - 8 * words (k + p)
  | .remove, k, _, p => -(8 * words (k + p) + env.rowOverheadDbLimitBytes)

theorem fairSizes_iff {r : RecordObject call.type} (h : call.Small) (hkeys : call.HasKeys) (hr : r.Small) :
    call.charge env (sizeOrMinusOne (some r.value.length)) =
        sizeChange env call.op (keyBytes r.keys) call.newValue.length r.value.length ↔
      FairSizes call.type call.op call.key.length (keyBytes r.keys) call.newValue.length r.value.length := by
  rw [charge_found h hkeys hr.2]
  generalize r.value.length = p, call.newValue.length = v
  obtain ⟨type, op, scope, table, key, buffer⟩ := call
  cases type <;> cases op <;>
    simp only [sizeChange, FairSizes, DbCall.ownKeyBytes, DbCall.chargedKeyBytes, keyBytes, ObjectType.keylen, words,
      iff_false] <;>
    omega

/-! ## One call -/

section Record

variable {type : ObjectType} {ctx : MessageContext} {row : RowKey type} {value : Bytes} {idx idx' : RecordIndex type}
  {previous : Option ℕ}

theorem storeRecord_ok (h : idx.storeRecord ctx row value = .ok (idx', previous)) : ∃ rows, idx = some rows ∧
    ((findRecord row rows = none ∧ previous = none ∧ idx' = some (rows ++ [⟨row, value⟩]) ∧
        ∀ r ∈ rows, ∀ tag : ByScope type, r.indexKey tag ≠ row.indexKey tag) ∨
      ∃ r, findRecord row rows = some r ∧ previous = some r.value.length ∧
        idx' = some (modifyRecord r value rows)) := by
  obtain ⟨-, -, hrest⟩ := bind_eq_ok.1 h
  obtain ⟨rows, hrows, hfound⟩ := bind_eq_ok.1 hrest
  rcases idx with _ | rows' <;> cases hrows
  refine ⟨rows, rfl, ?_⟩
  rcases hfind : findRecord row rows with _ | r <;> simp only [hfind] at hfound
  · obtain ⟨rows', hcreate, hpure⟩ := bind_eq_ok.1 hfound
    obtain ⟨hindex, rfl⟩ := createRecord_eq_ok.1 hcreate
    cases hpure
    exact .inl ⟨rfl, rfl, rfl, hindex⟩
  · cases hfound
    exact .inr ⟨r, rfl, rfl, rfl⟩

theorem updateRecord_ok (h : idx.updateRecord ctx row value = .ok (idx', previous)) : ∃ rows, idx = some rows ∧
    ((findRecord row rows = none ∧ previous = none ∧ idx' = some rows) ∨
      ∃ r, findRecord row rows = some r ∧ previous = some r.value.length ∧
        idx' = some (modifyRecord r (value ++ r.value.drop value.length) rows)) := by
  obtain ⟨-, -, hrest⟩ := bind_eq_ok.1 h
  obtain ⟨rows, hrows, hfound⟩ := bind_eq_ok.1 hrest
  rcases idx with _ | rows' <;> cases hrows
  refine ⟨rows, rfl, ?_⟩
  rcases hfind : findRecord row rows with _ | r <;> simp only [hfind] at hfound
  · cases hfound
    exact .inl ⟨rfl, rfl, rfl⟩
  · cases hfound
    exact .inr ⟨r, rfl, rfl, rfl⟩

theorem removeRecord_ok (h : idx.removeRecord ctx row = .ok (idx', previous)) : ∃ rows, idx = some rows ∧
    ((findRecord row rows = none ∧ previous = none ∧ idx' = some rows) ∨
      ∃ r, findRecord row rows = some r ∧ previous = some r.value.length ∧ idx' = some (rows.erase r)) := by
  obtain ⟨-, -, hrest⟩ := bind_eq_ok.1 h
  obtain ⟨rows, hrows, hfound⟩ := bind_eq_ok.1 hrest
  rcases idx with _ | rows' <;> cases hrows
  refine ⟨rows, rfl, ?_⟩
  rcases hfind : findRecord row rows with _ | r <;> simp only [hfind] at hfound
  · cases hfound
    exact .inl ⟨rfl, rfl, rfl⟩
  · cases hfound
    exact .inr ⟨r, rfl, rfl, rfl⟩

end Record

/-- The row that a call finds is the contract's. -/
theorem mem_of_findRecord {rows : List (RecordObject call.type)} {r : RecordObject call.type} (h : RowsOk rows)
    (hfind : findRecord (call.row env) rows = some r) : r ∈ rows ∧ r.code = env.ctx.code := by
  obtain ⟨hr, hkey⟩ := (findRecord_eq_some h).1 hfind
  refine ⟨hr, ?_⟩
  have htuple := (List.append_inj hkey rfl).1
  rw [tuple_inj] at htuple
  exact congrArg TableKey.code htuple

/-- What a call does to the table: it adds a row whose size is charged, or it changes the size of the row it finds. -/
theorem record_usage {rows : List (RecordObject call.type)} {idx' : RecordIndex call.type} {previous : Option ℕ}
    (h : RowsOk rows) (hsmall : call.Small) (hkeys : call.HasKeys)
    (hrecord : call.record env (some rows) = .ok (idx', previous)) :
    ∃ rows', idx' = some rows' ∧
      ((findRecord (call.row env) rows = none ∧ previous = none ∧
          call.charge env (sizeOrMinusOne none) = usageOf env rows' - usageOf env rows) ∨
        ∃ r, findRecord (call.row env) rows = some r ∧ previous = some r.value.length ∧
          usageOf env rows' - usageOf env rows =
            sizeChange env call.op (keyBytes r.keys) call.newValue.length r.value.length) := by
  rw [DbCall.record] at hrecord
  rcases hop : call.op <;> simp only [hop] at hrecord
  · obtain ⟨_, hrows, ⟨hfind, rfl, rfl, -⟩ | ⟨r, hfind, rfl, rfl⟩⟩ := storeRecord_ok hrecord <;> cases hrows
    · refine ⟨_, rfl, .inl ⟨hfind, rfl, ?_⟩⟩
      rw [usageOf_append rfl, rowSize_eq, charge_none hsmall hkeys, hop, add_sub_cancel_left]
      simp only [keyBytes_row]
    · obtain ⟨hr, hcode⟩ := mem_of_findRecord h hfind
      refine ⟨_, rfl, .inr ⟨r, hfind, rfl, ?_⟩⟩
      rw [usageOf_modify h hr hcode, rowSize_eq, rowSize_eq, sizeChange]
      ring
  · obtain ⟨_, hrows, ⟨hfind, rfl, rfl⟩ | ⟨r, hfind, rfl, rfl⟩⟩ := updateRecord_ok hrecord <;> cases hrows
    · refine ⟨_, rfl, .inl ⟨hfind, rfl, ?_⟩⟩
      rw [charge_none hsmall hkeys, hop, sub_self]
    · obtain ⟨hr, hcode⟩ := mem_of_findRecord h hfind
      have hlength : (call.newValue ++ r.value.drop call.newValue.length).length =
          max call.newValue.length r.value.length := by
        rw [List.length_append, List.length_drop]
        omega
      refine ⟨_, rfl, .inr ⟨r, hfind, rfl, ?_⟩⟩
      rw [usageOf_modify h hr hcode, rowSize_eq, rowSize_eq, hlength, sizeChange]
      ring
  · obtain ⟨_, hrows, ⟨hfind, rfl, rfl⟩ | ⟨r, hfind, rfl, rfl⟩⟩ := removeRecord_ok hrecord <;> cases hrows
    · refine ⟨_, rfl, .inl ⟨hfind, rfl, ?_⟩⟩
      rw [charge_none hsmall hkeys, hop, sub_self]
    · obtain ⟨hr, hcode⟩ := mem_of_findRecord h hfind
      refine ⟨_, rfl, .inr ⟨r, hfind, rfl, ?_⟩⟩
      rw [usageOf_erase hr hcode, rowSize_eq, sizeChange]
      ring

/-- So what it charges is the change of what the rows take just if the sizes of the row it finds are fair. -/
theorem record_step {rows : List (RecordObject call.type)} {idx' : RecordIndex call.type} {previous : Option ℕ}
    (h : RowsOk rows) (hsmall : call.Small) (hkeys : call.HasKeys)
    (hshort : ∀ r, findRecord (call.row env) rows = some r → r.Small)
    (hrecord : call.record env (some rows) = .ok (idx', previous)) :
    ∃ rows', idx' = some rows' ∧
      (call.charge env (sizeOrMinusOne previous) = usageOf env rows' - usageOf env rows ↔
        ∀ r, findRecord (call.row env) rows = some r →
          FairSizes call.type call.op call.key.length (keyBytes r.keys) call.newValue.length r.value.length) := by
  obtain ⟨rows', rfl, ⟨hfind, rfl, hcharge⟩ | ⟨r, hfind, rfl, hchange⟩⟩ := record_usage h hsmall hkeys hrecord
  · refine ⟨rows', rfl, ?_⟩
    rw [hfind]
    exact ⟨fun _ r hr => (by cases hr), fun _ => hcharge⟩
  · refine ⟨rows', rfl, ?_⟩
    rw [hchange, fairSizes_iff hsmall hkeys (hshort r hfind), hfind]
    exact ⟨fun hfair r' hr' => Option.some.inj hr' ▸ hfair, fun hfair => hfair r rfl⟩

theorem record_ok {rows : List (RecordObject call.type)} {idx' : RecordIndex call.type} {previous : Option ℕ}
    (h : RowsOk rows) (hrecord : call.record env (some rows) = .ok (idx', previous)) :
    ∃ rows', idx' = some rows' ∧ RowsOk rows' := by
  rw [DbCall.record] at hrecord
  rcases hop : call.op <;> simp only [hop] at hrecord
  · have hrun : (RecordCall.store (call.row env) call.newValue).run env.ctx (some rows) = .ok (idx', .size previous) :=
      bind_eq_ok.2 ⟨_, hrecord, rfl⟩
    exact h.run hrun
  · have hrun : (RecordCall.update (call.row env) call.newValue).run env.ctx (some rows) = .ok (idx', .size previous) :=
      bind_eq_ok.2 ⟨_, hrecord, rfl⟩
    exact h.run hrun
  · have hrun : (RecordCall.remove (call.row env)).run env.ctx (some rows) = .ok (idx', .size previous) :=
      bind_eq_ok.2 ⟨_, hrecord, rfl⟩
    exact h.run hrun

theorem record_none {r : RecordIndex call.type × Option ℕ} : call.record env none ≠ .ok r := by
  intro hrecord
  rw [DbCall.record] at hrecord
  rcases hop : call.op <;> simp only [hop] at hrecord
  · obtain ⟨rows, hrows, -⟩ := storeRecord_ok hrecord
    cases hrows
  · obtain ⟨rows, hrows, -⟩ := updateRecord_ok hrecord
    cases hrows
  · obtain ⟨rows, hrows, -⟩ := removeRecord_ok hrecord
    cases hrows

/-! ## Runs -/

def VmStorage.Ok (s : VmStorage) : Prop := ∀ type rows, s.tables type = some rows → RowsOk rows

theorem VmStorage.usage_update {type : ObjectType} {idx' : RecordIndex type}
    (htables : s'.tables = Function.update s.tables type idx') :
    s'.usage env - s.usage env = usageOf env (idx'.getD []) - usageOf env ((s.tables type).getD []) := by
  simp only [VmStorage.usage, htables]
  cases type <;> simp [Function.update]

/-- A call: the containers stay as they should be, and what it charges is what the rows take more just if
the sizes are right. -/
theorem run_step (h : s.Ok) (hrun : call.run env s = .ok n s') : s'.Ok ∧ (call.Short env s →
    (s'.tableStorage - s.tableStorage = s'.usage env - s.usage env ↔ call.Fair env s)) := by
  obtain ⟨hkeys, idx', previous, hrecord, htables, hcharge⟩ := run_charged hrun
  rcases hrows : s.tables call.type with _ | rows
  · rw [hrows] at hrecord
    exact absurd hrecord record_none
  rw [hrows] at hrecord
  refine ⟨fun type rows' hrows' => ?_, fun hshort => ?_⟩
  · rw [htables] at hrows'
    by_cases htype : type = call.type
    · subst htype
      obtain ⟨rows'', rfl, hok⟩ := record_ok (h _ _ hrows) hrecord
      rw [Function.update_self] at hrows'
      cases hrows'
      exact hok
    · rw [Function.update_of_ne htype] at hrows'
      exact h type rows' hrows'
  · obtain ⟨rows', rfl, hiff⟩ :=
      record_step (h _ _ hrows) hshort.1 hkeys (fun r hr => hshort.2 rows r hrows hr) hrecord
    rw [VmStorage.usage_update htables, hrows, hcharge, add_sub_cancel_left]
    refine hiff.trans ⟨fun hfair rows'' r hrows'' hr => ?_, fun hfair r hr => hfair rows r hrows hr⟩
    cases hrows.symm.trans hrows''
    exact hfair r hr

end Step

section Runs

variable (env : VmEnv)

/-- What holds of each of some calls that does not throw, and of the states before and after it. -/
def EachCall (P : VmStorage → DbCall → VmStorage → Prop) : VmStorage → List DbCall → Prop
  | _, [] => True
  | s, call :: calls => ∀ n s', call.run env s = .ok n s' → P s call s' ∧ EachCall P s' calls

/-- After each call the storage is what the rows take more than at the load. -/
def AllAccounted (atLoad : ℤ) : VmStorage → List DbCall → Prop :=
  EachCall env fun _ _ s' => s'.tableStorage = s'.usage env - atLoad

def AllShort : VmStorage → List DbCall → Prop := EachCall env fun s call _ => call.Short env s

def AllFair : VmStorage → List DbCall → Prop := EachCall env fun s call _ => call.Fair env s

/-- Such a statement is decided by running the calls. -/
instance EachCall.decidable {P : VmStorage → DbCall → VmStorage → Prop} [∀ s call s', Decidable (P s call s')] :
    ∀ s calls, Decidable (EachCall env P s calls)
  | _, [] => .isTrue trivial
  | s, call :: calls =>
    match hrun : call.run env s with
    | .error _ _ => .isTrue fun _ _ hok => nomatch hrun.symm.trans hok
    | .ok n s' =>
      have := EachCall.decidable (P := P) s' calls
      decidable_of_iff (P s call s' ∧ EachCall env P s' calls)
        ⟨fun h _ _ hok => by cases hrun.symm.trans hok; exact h, fun h => h n s' hrun⟩

instance (atLoad : ℤ) (s : VmStorage) (calls : List DbCall) : Decidable (AllAccounted env atLoad s calls) :=
  EachCall.decidable env s calls

instance (s : VmStorage) (calls : List DbCall) : Decidable (AllShort env s calls) := EachCall.decidable env s calls

instance (s : VmStorage) (calls : List DbCall) : Decidable (AllFair env s calls) := EachCall.decidable env s calls

variable {env} {s s' : VmStorage} {atLoad : ℤ} {calls : List DbCall}

theorem allAccounted_iff (h : s.Ok) (hstorage : s.tableStorage = s.usage env - atLoad) (hshort : AllShort env s calls) :
    AllAccounted env atLoad s calls ↔ AllFair env s calls := by
  induction calls generalizing s with
  | nil => exact Iff.rfl
  | cons call calls ih =>
    refine forall₃_congr fun n s' hrun => ?_
    obtain ⟨hcall, hcalls⟩ := hshort n s' hrun
    obtain ⟨hok, hstep⟩ := run_step h hrun
    have hiff := hstep hcall
    constructor
    · rintro ⟨hnow, hrest⟩
      exact ⟨hiff.1 (by omega), (ih hok hnow hcalls).1 hrest⟩
    · rintro ⟨hfair, hrest⟩
      have hchange := hiff.2 hfair
      have hnow : s'.tableStorage = s'.usage env - atLoad := by omega
      exact ⟨hnow, (ih hok hnow hcalls).2 hrest⟩

/-- What holds after each call holds at the end. -/
theorem AllAccounted.last (h : AllAccounted env atLoad s calls) (hstorage : s.tableStorage = s.usage env - atLoad)
    (hrun : runDbCalls env calls s = .ok () s') : s'.tableStorage = s'.usage env - atLoad := by
  induction calls generalizing s with
  | nil =>
    cases hrun
    exact hstorage
  | cons call calls ih =>
    obtain ⟨n, s₁, hcall, hrest⟩ := run_bind_eq_ok.1 hrun
    obtain ⟨hnow, hcalls⟩ := h n s₁ hcall
    exact ih hcalls hnow hrest

theorem VmStorage.usage_congr (h : ∀ type, ((s'.tables type).getD []).Perm ((s.tables type).getD [])) :
    s'.usage env = s.usage env := by
  simp only [VmStorage.usage, usageOf_perm (h _)]

/-- From the load on, the storage is what the rows take more, and so it is 0 again when the rows are what they
were, if each call is fair, and just then. -/
theorem table_storage_iff (env : VmEnv) (types : Option (Table AccountName ObjectType)) (s : VmStorage)
    (calls : List DbCall) (hok : s.Ok) :
    (AllShort env (s.load types) calls ∧ AllFair env (s.load types) calls →
      AllAccounted env (s.usage env) (s.load types) calls ∧
        ∀ s', runDbCalls env calls (s.load types) = .ok () s' →
          (∀ type, ((s'.tables type).getD []).Perm ((s.tables type).getD [])) → s'.tableStorage = 0) ∧
    (AllShort env (s.load types) calls → AllAccounted env (s.usage env) (s.load types) calls →
      AllFair env (s.load types) calls) := by
  have hload : (s.load types).tableStorage = (s.load types).usage env - s.usage env := (sub_self _).symm
  refine ⟨fun ⟨hshort, hfair⟩ => ?_, fun hshort => (allAccounted_iff (s := s.load types) hok hload hshort).1⟩
  have haccounted := (allAccounted_iff (s := s.load types) hok hload hshort).2 hfair
  refine ⟨haccounted, fun s' hrun hsame => ?_⟩
  rw [haccounted.last hload hrun, VmStorage.usage_congr hsame, sub_self]

/-- The tables are empty. -/
def emptyStorage : VmStorage := ⟨fun _ => some [], none, 0⟩

theorem emptyStorage_ok : emptyStorage.Ok := fun _ _ hrows => Option.some.inj hrows ▸ RowsOk.nil

/-- A row with keys of zeros is stored and removed again. -/
def storedAndRemoved (type : ObjectType) (value : Bytes) : List DbCall :=
  [⟨type, .store, 1, 3, [], List.replicate type.keylen 0 ++ value⟩,
    ⟨type, .remove, 1, 3, [], List.replicate type.keylen 0⟩]

def envInScopeOne : VmEnv := { ctx := inScopeOne }

theorem table_storage_two_keys :
    AllAccounted envInScopeOne (emptyStorage.usage envInScopeOne) (emptyStorage.load none)
        (storedAndRemoved .key128x128Value [5, 6]) ∧
      ∀ s', runDbCalls envInScopeOne (storedAndRemoved .key128x128Value [5, 6]) (emptyStorage.load none) = .ok () s' →
        (∀ type, ((s'.tables type).getD []).Perm ((emptyStorage.tables type).getD [])) → s'.tableStorage = 0 :=
  (table_storage_iff envInScopeOne none emptyStorage (storedAndRemoved .key128x128Value [5, 6]) emptyStorage_ok).1
    ⟨by decide, by decide⟩

/-- The key of one number is 16 bytes and is given back as 8, an update that leaves the end of the value gives it
back, and a string is given back by the length of another that ends at its zero. -/
theorem storage_of_rows_lost :
    ¬ AllAccounted envInScopeOne (emptyStorage.usage envInScopeOne) (emptyStorage.load none)
      (storedAndRemoved .keyValue [5, 6]) ∧
    ¬ AllAccounted envInScopeOne (emptyStorage.usage envInScopeOne) (emptyStorage.load none)
      [⟨.key128x128Value, .store, 1, 3, [], List.replicate 48 0⟩,
        ⟨.key128x128Value, .update, 1, 3, [], List.replicate 32 0⟩] ∧
    ¬ AllAccounted envInScopeOne (emptyStorage.usage envInScopeOne) (emptyStorage.load none)
      [⟨.keystrValue, .store, 1, 3, 97 :: List.replicate 8 0, [5]⟩, ⟨.keystrValue, .remove, 1, 3, [97], []⟩] := by
  refine ⟨?_, ?_, ?_⟩ <;> decide

end Runs

end XmaxChain
