import Mathlib.Data.Sum.Order
import Mathlib.Order.Fin.Basic
import XmaxChain.Lib.CompositeIndex
import XmaxChain.Ledger

/-!
# Records

The tables of a contract's records, one for each type of record. The functions that store and load are
written once for all types; what differs is which tuple a row is looked for with, and what the row that
is found is compared with.
-/

namespace XmaxChain

open CompositeIndex

/-- The types of records. -/
inductive ObjectType
  | keyValue
  | keystrValue
  | key128x128Value
  | key128x128x128Value
deriving DecidableEq

abbrev Uint128 := Fin (2 ^ 128)

/-- `key_type(-1)`. -/
def Uint128.max : Uint128 := Fin.last _

theorem Uint128.not_max_lt (k : Uint128) : ¬ (Uint128.max : ℕ) < k := not_lt.2 (Fin.le_last k)

/-- The array of keys that a row has. -/
abbrev ObjectType.Keys : ObjectType → Type
  | .keyValue => Uint128
  | .keystrValue => Bytes
  | .key128x128Value => Uint128 × Uint128
  | .key128x128x128Value => Uint128 × Uint128 × Uint128

instance : (type : ObjectType) → DecidableEq type.Keys
  | .keyValue => inferInstanceAs (DecidableEq Uint128)
  | .keystrValue => inferInstanceAs (DecidableEq Bytes)
  | .key128x128Value => inferInstanceAs (DecidableEq (Uint128 × Uint128))
  | .key128x128x128Value => inferInstanceAs (DecidableEq (Uint128 × Uint128 × Uint128))

/-- The indices of a type of records. -/
inductive ByScope : ObjectType → Type
  | primary (type : ObjectType) : ByScope type
  | secondary128 : ByScope .key128x128Value
  | secondary : ByScope .key128x128x128Value
  | tertiary : ByScope .key128x128x128Value

@[ext] structure TableKey where
  scope : AccountName
  code : AccountName
  table : AccountName
deriving DecidableEq

/-- All that tells a row from another. -/
structure RowKey (type : ObjectType) extends TableKey where
  keys : type.Keys
deriving DecidableEq

structure RecordObject (type : ObjectType) extends RowKey type where
  value : Bytes
deriving DecidableEq

/-! ## Composite keys -/

/-- A component is a number or a string. -/
abbrev KeyPart := Lex (ℕ ⊕ Bytes)

def num (n : ℕ) : KeyPart := toLex (.inl n)

def cstr (s : Bytes) : KeyPart := toLex (.inr (cString s))

section Tuples

variable {type : ObjectType}

/-- What the rows are ordered by within their tables. -/
def indexTuple : {type : ObjectType} → ByScope type → type.Keys → List KeyPart
  | _, .primary .keyValue, k => [num k]
  | _, .primary .keystrValue, k => [cstr k]
  | _, .primary .key128x128Value, (k, k₁) => [num k, num k₁]
  | _, .primary .key128x128x128Value, (k, k₁, k₂) => [num k, num k₁, num k₂]
  | _, .secondary128, (k, k₁) => [num k₁, num k]
  | _, .secondary, (_, k₁, k₂) => [num k₁, num k₂]
  | _, .tertiary, (_, _, k₂) => [num k₂]

/-- `find_tuple`. Of three keys it takes two. -/
def findTuple : {type : ObjectType} → type.Keys → List KeyPart
  | .keyValue, k => [num k]
  | .keystrValue, k => [cstr k]
  | .key128x128Value, (k, k₁) => [num k, num k₁]
  | .key128x128x128Value, (k, k₁, _) => [num k, num k₁]

def loadRecordTuple : {type : ObjectType} → ByScope type → type.Keys → List KeyPart
  | _, .primary .keyValue, k => [num k]
  | _, .primary .keystrValue, k => [cstr k]
  | _, .primary .key128x128Value, (k, _) => [num k, num 0]
  | _, .primary .key128x128x128Value, (k, _, _) => [num k, num 0, num 0]
  | _, .secondary128, (_, k₁) => [num k₁, num 0]
  | _, .secondary, (_, k₁, _) => [num k₁, num 0]
  | _, .tertiary, (_, _, k₂) => [num k₂]

def frontRecordTuple : ObjectType → List KeyPart
  | .keyValue => [num 0]
  | .keystrValue => []
  | .key128x128Value => [num 0, num 0, num 0]
  | .key128x128x128Value => [num 0, num 0, num 0]

def nextRecordTuple : {type : ObjectType} → type.Keys → List KeyPart
  | .keyValue, k => [num k]
  | .keystrValue, k => [cstr k]
  | .key128x128Value, (k, k₁) => [num k, num k₁]
  | .key128x128x128Value, (k, k₁, k₂) => [num k, num k₁, num k₂]

def lowerBoundTuple : {type : ObjectType} → ByScope type → type.Keys → List KeyPart
  | _, .primary .keyValue, k => [num k]
  | _, .primary .keystrValue, k => [cstr k]
  | _, .primary .key128x128Value, (k, _) => [num k, num 0, num 0]
  | _, .primary .key128x128x128Value, (k, _, _) => [num k, num 0, num 0]
  | _, .secondary128, (_, k₁) => [num k₁, num 0]
  | _, .secondary, (_, k₁, _) => [num k₁, num 0]
  | _, .tertiary, (_, _, k₂) => [num k₂]

def upperBoundTuple : {type : ObjectType} → ByScope type → type.Keys → List KeyPart
  | _, .primary .keyValue, k => [num k, num Uint128.max, num Uint128.max]
  | _, .primary .keystrValue, k => [cstr k]
  | _, .primary .key128x128Value, (k, _) => [num k, num Uint128.max, num Uint128.max]
  | _, .primary .key128x128x128Value, (k, _, _) => [num k, num Uint128.max, num Uint128.max]
  | _, .secondary128, (_, k₁) => [num k₁, num Uint128.max]
  | _, .secondary, (_, k₁, _) => [num k₁, num Uint128.max]
  | _, .tertiary, (_, _, k₂) => [num k₂]

/-- Whether `memcmp` over the length of `s` finds the memory at a string equal to it. Past the zero
behind the string the memory is not the string's. -/
def memcmpEqual : Bytes → Bytes → Except Fault Bool
  | _, [] => .ok true
  | [], _ :: _ => .error (.undefined "memcmp past the end of a string")
  | a :: as, b :: bs => if a = b then memcmpEqual as bs else .ok false

def loadRecordCompare : {type : ObjectType} → ByScope type → type.Keys → type.Keys → Except Fault Bool
  | _, .primary .keyValue, r, k => .ok (r = k)
  | _, .primary .keystrValue, r, k => memcmpEqual (r ++ [0]) k
  | _, .primary .key128x128Value, r, k => .ok (r.1 = k.1)
  | _, .primary .key128x128x128Value, r, k => .ok (r.1 = k.1)
  | _, .secondary128, r, k => .ok (r.2 = k.2)
  | _, .secondary, r, k => .ok (r.2.1 = k.2.1)
  | _, .tertiary, r, k => .ok (r.2.2 = k.2.2)

/-- `key_helper::compare`. A string is compared with the other up to its first zero. -/
def keyCompare : {type : ObjectType} → type.Keys → type.Keys → Bool
  | .keyValue, r, k => r = k
  | .keystrValue, r, k => k = cString r
  | .key128x128Value, r, k => r = k
  | .key128x128x128Value, r, k => r = k

end Tuples

/-! ## The tables -/

section Tables

variable {type : ObjectType}

def TableKey.tuple (t : TableKey) : List KeyPart := [num t.scope, num t.code, num t.table]

def RowKey.indexKey (tag : ByScope type) (row : RowKey type) : List KeyPart :=
  row.tuple ++ indexTuple tag row.keys

def RowKey.findKey (row : RowKey type) : List KeyPart := row.tuple ++ findTuple row.keys

/-- The tags of the indices of a type. -/
def ObjectType.tags : (type : ObjectType) → List (ByScope type)
  | .keyValue => [.primary _]
  | .keystrValue => [.primary _]
  | .key128x128Value => [.primary _, .secondary128]
  | .key128x128x128Value => [.primary _, .secondary, .tertiary]

/-- The rows of a type, if an index for the type has been added to the database. -/
abbrev RecordIndex (type : ObjectType) := Option (List (RecordObject type))

/-- `get_index`, where the assertion is all that looks whether there is one. -/
def getIndex : RecordIndex type → Except Fault (List (RecordObject type))
  | some rows => .ok rows
  | none => .error (.undefined "_index_map")

/-- The types that `setup_system_indexes` adds an index for. -/
def systemIndex (type : ObjectType) : RecordIndex type :=
  if type ∈ [.keyValue, .keystrValue, .key128x128Value] then some [] else none

def byTag (tag : ByScope type) (rows : List (RecordObject type)) : List (RecordObject type) :=
  index (·.indexKey tag) rows

def findRecord (row : RowKey type) (rows : List (RecordObject type)) : Option (RecordObject type) :=
  find (·.indexKey (.primary type)) row.findKey (byTag (.primary type) rows)

/-- A row is refused if it compares equal to another in one of the indices. -/
def createRecord (r : RecordObject type) (rows : List (RecordObject type)) :
    Except Fault (List (RecordObject type)) :=
  if rows.all fun r' => type.tags.all fun tag => r'.indexKey tag ≠ r.indexKey tag then
    .ok (rows ++ [r])
  else .error (.std "could not insert object, most likely a uniqueness constraint was violated")

/-- The row gets a new value, which is in no key. -/
def modifyRecord (r : RecordObject type) (value : Bytes) (rows : List (RecordObject type)) :
    List (RecordObject type) :=
  rows.map fun r' => if r' = r then { r with value } else r'

variable (ctx : MessageContext) (row : RowKey type)

/-- `store_record`, with the size that the row had. -/
def RecordIndex.storeRecord (value : Bytes) (idx : RecordIndex type) :
    Except Fault (RecordIndex type × Option ℕ) := do
  requireScope ctx row.scope
  let rows ← getIndex idx
  match findRecord row rows with
  | some r => pure (some (modifyRecord r value rows), some r.value.length)
  | none => do
    let rows ← createRecord ⟨row, value⟩ rows
    pure (some rows, none)

/-- `update_record`. A value that is longer than the new one keeps its end. -/
def RecordIndex.updateRecord (value : Bytes) (idx : RecordIndex type) :
    Except Fault (RecordIndex type × Option ℕ) := do
  requireScope ctx row.scope
  let rows ← getIndex idx
  match findRecord row rows with
  | some r =>
    pure (some (modifyRecord r (value ++ r.value.drop value.length) rows), some r.value.length)
  | none => pure (some rows, none)

def RecordIndex.removeRecord (idx : RecordIndex type) : Except Fault (RecordIndex type × Option ℕ) := do
  requireScope ctx row.scope
  let rows ← getIndex idx
  match findRecord row rows with
  | some r => pure (some (rows.erase r), some r.value.length)
  | none => pure (some rows, none)

/-- The row at an iterator, if it is in the table. -/
def TableKey.inTable (t : TableKey) (found : Option (RecordObject type)) : Option (RecordObject type) :=
  found.filter fun r => r.scope = t.scope ∧ r.code = t.code ∧ r.table = t.table

/-- The keys of a row and what fits of its value. -/
def RecordObject.read (size : ℕ) (r : RecordObject type) : type.Keys × Bytes :=
  (r.keys, r.value.take size)

/-- `load_record`, with no row for -1. -/
def RecordIndex.loadRecord (tag : ByScope type) (size : ℕ) (idx : RecordIndex type) :
    Except Fault (Option (type.Keys × Bytes)) := do
  requireScope ctx row.scope
  let rows ← getIndex idx
  let rows := byTag tag rows
  let itr := lowerBound (·.indexKey tag) (row.tuple ++ loadRecordTuple tag row.keys) rows
  match row.inTable rows[itr]? with
  | none => pure none
  | some r =>
    let same ← loadRecordCompare tag r.keys row.keys
    pure (if same then some (r.read size) else none)

end Tables

theorem requireScope_ok {ctx : MessageContext} {account : AccountName} (h : account ∈ ctx.trx.scope) :
    requireScope ctx account = .ok () := requireScope_eq_ok.2 h

/-! ## What is found -/

section Found

variable {type : ObjectType} {rows : List (RecordObject type)}

@[simp] theorem num_inj {m n : ℕ} : num m = num n ↔ m = n := by simp [num]

@[simp] theorem num_lt_num {m n : ℕ} : num m < num n ↔ m < n := by simp [num]

@[simp] theorem cstr_inj {s s' : Bytes} :
    cstr s = cstr s' ↔ cString s = cString s' := by simp [cstr]

@[simp] theorem cstr_lt_cstr {s s' : Bytes} :
    cstr s < cstr s' ↔ cString s < cString s' := by simp [cstr]

theorem tuple_inj {a b : TableKey} : a.tuple = b.tuple ↔ a = b := by
  simp [TableKey.tuple, TableKey.ext_iff]

def indexLength : {type : ObjectType} → ByScope type → ℕ
  | _, .primary .keyValue => 4
  | _, .primary .keystrValue => 4
  | _, .primary .key128x128Value => 5
  | _, .primary .key128x128x128Value => 6
  | _, .secondary128 => 5
  | _, .secondary => 5
  | _, .tertiary => 4

theorem indexTuple_length {tag : ByScope type} (k k' : type.Keys) :
    (indexTuple tag k).length = (indexTuple tag k').length := by
  cases tag with
  | primary => cases type <;> rfl
  | secondary128 | secondary | tertiary => rfl

theorem indexKey_length (tag : ByScope type) (row : RowKey type) :
    (row.indexKey tag).length = indexLength tag := by
  cases tag with
  | primary => cases type <;> rfl
  | secondary128 | secondary | tertiary => rfl

theorem tuple_length_le (tag : ByScope type) (t : TableKey) : t.tuple.length ≤ indexLength tag := by
  cases tag with
  | primary => cases type <;> simp [TableKey.tuple, indexLength]
  | secondary128 | secondary | tertiary => simp [TableKey.tuple, indexLength]

theorem tuple_prefix_iff {tag : ByScope type} {t : TableKey} {row : RowKey type} :
    t.tuple <+: row.indexKey tag ↔ row.toTableKey = t := by
  rw [RowKey.indexKey, eq_comm, ← tuple_inj]
  exact ⟨fun hpre => (List.prefix_of_prefix_length_le hpre (List.prefix_append _ _) le_rfl).eq_of_length rfl,
    fun heq => heq ▸ List.prefix_append _ _⟩

theorem inTable_eq (tag : ByScope type) (t : TableKey) (found : Option (RecordObject type)) :
    t.inTable found = found.filter (within (·.indexKey tag) t.tuple) := by
  refine congrArg found.filter (funext fun r => ?_)
  rw [Bool.eq_iff_iff, within_eq_true, tuple_prefix_iff, decide_eq_true_iff, TableKey.ext_iff]

/-- What the containers keep: no two rows have one place in an index, or are found by one tuple. -/
structure RowsOk (rows : List (RecordObject type)) : Prop where
  indexed : ∀ tag, rows.Pairwise fun a b => a.indexKey tag ≠ b.indexKey tag
  found : rows.Pairwise fun a b => a.findKey ≠ b.findKey

theorem RowsOk.sorted (h : RowsOk rows) (tag : ByScope type) :
    Sorted (·.indexKey tag) (indexLength tag) (byTag tag rows) :=
  ⟨fun r _ => indexKey_length tag r.toRowKey, index_sorted (h.indexed tag)⟩

theorem findKey_prefix_iff {a b : RowKey type} :
    a.findKey <+: b.indexKey (.primary type) ↔ b.findKey = a.findKey := by
  cases type <;>
    simp [RowKey.findKey, RowKey.indexKey, TableKey.tuple, findTuple, indexTuple,
      List.cons_prefix_cons, eq_comm]

theorem findKey_length_le {row : RowKey type} :
    row.findKey.length ≤ indexLength (.primary type) := by
  cases type <;> simp [RowKey.findKey, TableKey.tuple, findTuple, indexLength]

theorem RowsOk.eq_of_findKey (h : RowsOk rows) {a b : RecordObject type} (ha : a ∈ rows) (hb : b ∈ rows)
    (heq : a.findKey = b.findKey) : a = b :=
  List.inj_on_of_nodup_map (List.pairwise_map.2 h.found) ha hb heq

theorem RowsOk.eq_of_indexKey (h : RowsOk rows) {a b : RecordObject type} (ha : a ∈ rows) (hb : b ∈ rows)
    {tag : ByScope type} (heq : a.indexKey tag = b.indexKey tag) : a = b :=
  List.inj_on_of_nodup_map (List.pairwise_map.2 (h.indexed tag)) ha hb heq

theorem RowsOk.eq_of_key (h : RowsOk rows) {a b : RecordObject type} (ha : a ∈ rows) (hb : b ∈ rows)
    (heq : a.toRowKey = b.toRowKey) : a = b :=
  h.eq_of_findKey ha hb (congrArg RowKey.findKey heq)

theorem findRecord_eq_some (h : RowsOk rows) {row : RowKey type} {r : RecordObject type} :
    findRecord row rows = some r ↔ r ∈ rows ∧ r.findKey = row.findKey := by
  have hmem : ∀ r' : RecordObject type, r' ∈ under (·.indexKey (.primary type)) row.findKey
      (byTag (.primary type) rows) ↔ r' ∈ rows ∧ r'.findKey = row.findKey := fun r' => by
    rw [mem_under, findKey_prefix_iff, byTag, mem_index]
  unfold findRecord
  rw [(h.sorted _).find_eq_head? findKey_length_le]
  refine ⟨fun hr => (hmem r).1 (List.mem_of_head? hr), fun hr => ?_⟩
  cases hunder : under (·.indexKey (.primary type)) row.findKey (byTag (.primary type) rows) with
  | nil => simpa [hunder] using (hmem r).2 hr
  | cons r' l =>
    obtain ⟨hr', hkey⟩ := (hmem r').1 (by simp [hunder])
    rw [List.head?_cons, h.eq_of_findKey hr' hr.1 (hkey.trans hr.2.symm)]

theorem findRecord_eq_none (h : RowsOk rows) {row : RowKey type} :
    findRecord row rows = none ↔ ∀ r ∈ rows, r.findKey ≠ row.findKey := by
  rw [Option.eq_none_iff_forall_ne_some]
  exact ⟨fun hno r hr hkey => hno r ((findRecord_eq_some h).2 ⟨hr, hkey⟩),
    fun hno r hr => hno r ((findRecord_eq_some h).1 hr).1 ((findRecord_eq_some h).1 hr).2⟩

/-- Where a row not below a tuple is looked for, the first such row of the table is found. -/
theorem inTable_lowerBound (h : RowsOk rows) (tag : ByScope type) (t : TableKey) (tuple : List KeyPart) :
    t.inTable (byTag tag rows)[lowerBound (·.indexKey tag) (t.tuple ++ tuple) (byTag tag rows)]?
      = (under (·.indexKey tag) t.tuple (byTag tag rows)).find? fun r =>
          !below (r.indexKey tag) (t.tuple ++ tuple) := by
  rw [← (h.sorted tag).lowerBound_within (tuple_length_le tag t), inTable_eq tag]

end Found

end XmaxChain
