import XmaxChain.RecordStore
import XmaxChain.BlockPack

/-!
# The records as a map

The calls on the records of a type ought to do what they do to a map from whole keys to values. They do
while no row is found in another's place: strings count up to their first zero only, of three keys two
are looked at, and a row may be refused for one key that it shares. A load goes by the primary key alone,
and a string that a key begins with passes for the key.
-/

namespace XmaxChain

open CompositeIndex

variable {type : ObjectType} {rows rows' : List (RecordObject type)}

/-! ## What the containers keep -/

section Keeps

theorem mem_tags (tag : ByScope type) : tag ∈ type.tags := by
  cases tag with
  | primary => cases type <;> simp [ObjectType.tags]
  | secondary128 | secondary | tertiary => simp [ObjectType.tags]

theorem createRecord_eq_ok {r : RecordObject type} :
    createRecord r rows = .ok rows' ↔
      (∀ r' ∈ rows, ∀ tag : ByScope type, r'.indexKey tag ≠ r.indexKey tag) ∧
        rows' = rows ++ [r] := by
  have hall : (rows.all fun r' => type.tags.all fun tag => r'.indexKey tag ≠ r.indexKey tag) = true ↔
      ∀ r' ∈ rows, ∀ tag : ByScope type, r'.indexKey tag ≠ r.indexKey tag := by
    simp [mem_tags]
  unfold createRecord
  split_ifs with h
  · exact ⟨fun h' => ⟨hall.1 h, (Except.ok.inj h').symm⟩, fun h' => by rw [h'.2]⟩
  · exact ⟨nofun, fun h' => absurd (hall.2 h'.1) h⟩

theorem RowsOk.nil : RowsOk ([] : List (RecordObject type)) := ⟨fun _ => .nil, .nil⟩

theorem RowsOk.append {r : RecordObject type} (h : RowsOk rows)
    (hfind : ∀ r' ∈ rows, r'.findKey ≠ r.findKey)
    (hindex : ∀ r' ∈ rows, ∀ tag : ByScope type, r'.indexKey tag ≠ r.indexKey tag) :
    RowsOk (rows ++ [r]) where
  indexed tag := List.pairwise_append.2 ⟨h.indexed tag, List.pairwise_singleton _ _, fun a ha b hb => by
    obtain rfl := List.mem_singleton.1 hb
    exact hindex a ha tag⟩
  found := List.pairwise_append.2 ⟨h.found, List.pairwise_singleton _ _, fun a ha b hb => by
    obtain rfl := List.mem_singleton.1 hb
    exact hfind a ha⟩

theorem RowsOk.erase (h : RowsOk rows) (r : RecordObject type) : RowsOk (rows.erase r) where
  indexed tag := (h.indexed tag).sublist List.erase_sublist
  found := h.found.sublist List.erase_sublist

theorem RowsOk.modify (h : RowsOk rows) (r : RecordObject type) (value : Bytes) :
    RowsOk (modifyRecord r value rows) := by
  have hkey : ∀ r' : RecordObject type,
      (if r' = r then { r with value } else r').toRowKey = r'.toRowKey := fun r' => by
    split_ifs with heq
    · rw [heq]
    · rfl
  constructor
  · intro tag
    simpa only [modifyRecord, List.pairwise_map, hkey] using h.indexed tag
  · simpa only [modifyRecord, List.pairwise_map, hkey] using h.found

end Keeps

/-! ## The map -/

/-- The value stored under each whole key. -/
abbrev RecordMap (type : ObjectType) := RowKey type → Option Bytes

def toMap (rows : List (RecordObject type)) : RecordMap type := fun row =>
  (rows.find? (·.toRowKey = row)).map (·.value)

section Map

variable {row : RowKey type}

theorem toMap_eq_some (h : RowsOk rows) {v : Bytes} : toMap rows row = some v ↔ ⟨row, v⟩ ∈ rows := by
  unfold toMap
  rw [Option.map_eq_some_iff]
  constructor
  · rintro ⟨r, hr, rfl⟩
    obtain rfl : r.toRowKey = row := by simpa using List.find?_some hr
    exact List.mem_of_find?_eq_some hr
  · intro hmem
    cases hfind : rows.find? (·.toRowKey = row) with
    | none => simpa using List.find?_eq_none.1 hfind _ hmem
    | some r =>
      have hr : r.toRowKey = row := by simpa using List.find?_some hfind
      exact ⟨r, rfl, by rw [h.eq_of_key (List.mem_of_find?_eq_some hfind) hmem hr]⟩

theorem toMap_eq_none : toMap rows row = none ↔ ∀ r ∈ rows, r.toRowKey ≠ row := by
  simp [toMap, List.find?_eq_none]

theorem toMap_append {v : Bytes} (hnone : ∀ r ∈ rows, r.toRowKey ≠ row) :
    toMap (rows ++ [⟨row, v⟩]) = Function.update (toMap rows) row (some v) := by
  funext row'
  unfold toMap
  by_cases hrow : row' = row
  · subst hrow
    have hfind : rows.find? (·.toRowKey = row') = none := by simpa using hnone
    simp [hfind]
  · rw [Function.update_of_ne hrow]
    cases hfind : rows.find? (·.toRowKey = row') <;> simp [hfind, Ne.symm hrow]

theorem toMap_modify (h : RowsOk rows) {r : RecordObject type} (hr : r ∈ rows) (value : Bytes) :
    toMap (modifyRecord r value rows) = Function.update (toMap rows) r.toRowKey (some value) := by
  funext row
  refine Option.ext fun v => ?_
  rw [toMap_eq_some (h.modify r value), modifyRecord, List.mem_map]
  by_cases hrow : row = r.toRowKey
  · rw [hrow, Function.update_self, Option.some_inj]
    constructor
    · rintro ⟨r', hr', heq⟩
      split_ifs at heq with hsame
      · exact congrArg RecordObject.value heq
      · exact absurd (h.eq_of_key hr' hr (by rw [heq])) hsame
    · rintro rfl
      exact ⟨r, hr, by rw [if_pos rfl]⟩
  · rw [Function.update_of_ne hrow, toMap_eq_some h]
    constructor
    · rintro ⟨r', hr', heq⟩
      split_ifs at heq with hsame
      · exact absurd (congrArg RecordObject.toRowKey heq).symm hrow
      · exact heq ▸ hr'
    · intro hmem
      exact ⟨_, hmem, if_neg fun heq => hrow (congrArg RecordObject.toRowKey heq)⟩

theorem toMap_erase (h : RowsOk rows) {r : RecordObject type} (hr : r ∈ rows) :
    toMap (rows.erase r) = Function.update (toMap rows) r.toRowKey none := by
  have hnodup : rows.Nodup := h.found.imp fun hne heq => hne (congrArg (·.findKey) heq)
  funext row
  by_cases hrow : row = r.toRowKey
  · rw [hrow, Function.update_self, toMap_eq_none]
    intro r' hr' heq
    obtain ⟨hne, hmem⟩ := (hnodup.mem_erase_iff).1 hr'
    exact hne (h.eq_of_key hmem hr heq)
  · rw [Function.update_of_ne hrow]
    refine Option.ext fun v => ?_
    rw [toMap_eq_some (h.erase r), toMap_eq_some h, hnodup.mem_erase_iff]
    exact and_iff_right fun heq => hrow (congrArg RecordObject.toRowKey heq)

end Map

/-! ## Calls -/

/-- A call on the records of a type. Stores, updates and removals are of rows of the code that runs. -/
inductive RecordCall (type : ObjectType)
  | store (row : RowKey type) (value : Bytes)
  | update (row : RowKey type) (value : Bytes)
  | remove (row : RowKey type)
  | load (tag : ByScope type) (row : RowKey type) (size : ℕ)

/-- What a call returns: the size that the row had, or the row that was read. -/
inductive RecordAnswer (type : ObjectType)
  | size (previous : Option ℕ)
  | loaded (row : Option (type.Keys × Bytes))
deriving DecidableEq

def RecordCall.row : RecordCall type → RowKey type
  | .store row _ => row
  | .update row _ => row
  | .remove row => row
  | .load _ row _ => row

def RecordCall.run (ctx : MessageContext) (idx : RecordIndex type) :
    RecordCall type → Except Fault (RecordIndex type × RecordAnswer type)
  | .store row value => do
    let (idx, previous) ← idx.storeRecord ctx row value
    pure (idx, .size previous)
  | .update row value => do
    let (idx, previous) ← idx.updateRecord ctx row value
    pure (idx, .size previous)
  | .remove row => do
    let (idx, previous) ← idx.removeRecord ctx row
    pure (idx, .size previous)
  | .load tag row size => do
    let found ← idx.loadRecord ctx row tag size
    pure (idx, .loaded found)

/-- The primary key among the keys of a row. -/
def SamePrimaryKey : {type : ObjectType} → type.Keys → type.Keys → Prop
  | .keyValue, k, k' => k = k'
  | .keystrValue, k, k' => k = k'
  | .key128x128Value, k, k' => k.1 = k'.1
  | .key128x128x128Value, k, k' => k.1 = k'.1

def RowKey.SameTable (a b : RowKey type) : Prop := a.toTableKey = b.toTableKey

/-- What a call does to a map, and what it answers. -/
def RecordMap.Does (m m' : RecordMap type) (answer : RecordAnswer type) : RecordCall type → Prop
  | .store row value =>
    m' = Function.update m row (some value) ∧ answer = .size ((m row).map List.length)
  | .update row value =>
    m' = Function.update m row ((m row).map fun old => value ++ old.drop value.length) ∧
      answer = .size ((m row).map List.length)
  | .remove row => m' = Function.update m row none ∧ answer = .size ((m row).map List.length)
  | .load (.primary _) row size => m' = m ∧
    (∀ value, m row = some value → answer = .loaded (some (row.keys, value.take size))) ∧
    ((∀ row' : RowKey type, row'.SameTable row → SamePrimaryKey row'.keys row.keys → m row' = none) →
      answer = .loaded none)
  | .load _ _ _ => m' = m

/-- One call does to the records what it does to the map. -/
def RecordCall.AsMap (ctx : MessageContext) (idx : RecordIndex type) (call : RecordCall type) : Prop :=
  ∃ idx' answer, call.run ctx idx = .ok (idx', answer) ∧
    RecordMap.Does (toMap (idx.getD [])) (toMap (idx'.getD [])) answer call

/-! ## When a call is the map's -/

/-- Keys that `find_tuple` does not tell apart. -/
def KeysAlike : {type : ObjectType} → type.Keys → type.Keys → Prop
  | .keyValue, k, k' => k = k'
  | .keystrValue, k, k' => cString k = cString k'
  | .key128x128Value, k, k' => k = k'
  | .key128x128x128Value, k, k' => k.1 = k'.1 ∧ k.2.1 = k'.2.1

/-- Keys of which one table takes no two. -/
def KeysClash : {type : ObjectType} → type.Keys → type.Keys → Prop
  | .keyValue, k, k' => k = k'
  | .keystrValue, k, k' => cString k = cString k'
  | .key128x128Value, k, k' => k = k'
  | .key128x128x128Value, k, k' => k.1 = k'.1 ∧ k.2.1 = k'.2.1 ∨ k.2.2 = k'.2.2

/-- A load of the whole key finds its row first, and a load of a key that is not there finds none. -/
def LoadClear : {type : ObjectType} → List (RecordObject type) → RowKey type → Prop
  | .keyValue, _, _ => True
  | .keystrValue, rows, row => row ∈ rows.map (·.toRowKey) ∨
    ∀ r ∈ rows, r.SameTable row → ¬ row.keys <+: r.keys ++ [0] ∧ ¬ r.keys ++ [0] <+: row.keys
  | .key128x128Value, rows, row => row ∈ rows.map (·.toRowKey) →
    ∀ r ∈ rows, r.SameTable row → r.keys.1 = row.keys.1 → row.keys.2 ≤ r.keys.2
  | .key128x128x128Value, rows, row => row ∈ rows.map (·.toRowKey) →
    ∀ r ∈ rows, r.SameTable row → r.keys.1 = row.keys.1 → row.keys.2.1 ≤ r.keys.2.1

def RecordCall.Clear (rows : List (RecordObject type)) : RecordCall type → Prop
  | .store row _ => ∀ r ∈ rows, r.SameTable row → KeysClash r.keys row.keys → r.keys = row.keys
  | .update row _ => ∀ r ∈ rows, r.SameTable row → KeysAlike r.keys row.keys → r.keys = row.keys
  | .remove row => ∀ r ∈ rows, r.SameTable row → KeysAlike r.keys row.keys → r.keys = row.keys
  | .load (.primary _) row _ => LoadClear rows row
  | .load _ _ _ => True

section Writes

variable {ctx : MessageContext} {row : RowKey type} {value : Bytes}

theorem RowKey.SameTable.tuple {a b : RowKey type} (h : a.SameTable b) : a.tuple = b.tuple :=
  congrArg TableKey.tuple h

theorem findKey_inj {a b : RowKey type} :
    a.findKey = b.findKey ↔ a.SameTable b ∧ KeysAlike a.keys b.keys := by
  cases type <;>
    simp [RowKey.findKey, TableKey.tuple, findTuple, RowKey.SameTable, TableKey.ext_iff, KeysAlike, Prod.ext_iff,
      Fin.ext_iff, and_assoc]

theorem exists_indexKey_eq {a b : RowKey type} :
    (a.findKey = b.findKey ∨ ∃ tag : ByScope type, a.indexKey tag = b.indexKey tag) ↔
      a.SameTable b ∧ KeysClash a.keys b.keys := by
  have htags : (∃ tag : ByScope type, a.indexKey tag = b.indexKey tag) ↔
      ∃ tag ∈ type.tags, a.indexKey tag = b.indexKey tag := by simp [mem_tags]
  rw [htags, findKey_inj]
  cases type <;>
    simp [ObjectType.tags, RowKey.indexKey, TableKey.tuple, indexTuple, RowKey.SameTable, TableKey.ext_iff,
      KeysAlike, KeysClash, Prod.ext_iff, Fin.ext_iff] <;>
    tauto

theorem RowKey.SameTable.eq {a b : RowKey type} (h : a.SameTable b) (hkeys : a.keys = b.keys) :
    a = b := by
  cases a
  cases b
  cases h
  cases hkeys
  rfl

/-- What is found is the row itself, unless another is alike. -/
theorem findRecord_eq (h : RowsOk rows) (hclear : ∀ r ∈ rows, r.findKey = row.findKey → r.toRowKey = row) :
    findRecord row rows = (toMap rows row).map fun v => ⟨row, v⟩ := by
  cases hmap : toMap rows row with
  | some v => exact (findRecord_eq_some h).2 ⟨(toMap_eq_some h).1 hmap, rfl⟩
  | none => exact (findRecord_eq_none h).2 fun r hr hkey => toMap_eq_none.1 hmap r hr (hclear r hr hkey)

theorem size_eq_iff (h : RowsOk rows) :
    (findRecord row rows).map (·.value.length) = (toMap rows row).map List.length ↔
      ∀ r ∈ rows, r.findKey = row.findKey → r.toRowKey = row := by
  constructor
  · intro hsize r hr hkey
    have hfound := (findRecord_eq_some h).2 ⟨hr, hkey⟩
    cases hmap : toMap rows row with
    | none => simp [hfound, hmap] at hsize
    | some v =>
      exact congrArg RecordObject.toRowKey (h.eq_of_findKey hr ((toMap_eq_some h).1 hmap) hkey)
  · intro hclear
    rw [findRecord_eq h hclear, Option.map_map]
    rfl

theorem clear_alike_iff :
    (∀ r ∈ rows, r.SameTable row → KeysAlike r.keys row.keys → r.keys = row.keys) ↔
      ∀ r ∈ rows, r.findKey = row.findKey → r.toRowKey = row := by
  refine forall₂_congr fun r _ => ?_
  rw [findKey_inj, and_imp]
  exact ⟨fun hclear htable halike => htable.eq (hclear htable halike),
    fun hclear htable halike => congrArg RowKey.keys (hclear htable halike)⟩

theorem clear_clash_iff :
    (∀ r ∈ rows, r.SameTable row → KeysClash r.keys row.keys → r.keys = row.keys) ↔
      ∀ r ∈ rows, (r.findKey = row.findKey ∨ ∃ tag : ByScope type, r.indexKey tag = row.indexKey tag) →
        r.toRowKey = row := by
  refine forall₂_congr fun r _ => ?_
  rw [exists_indexKey_eq, and_imp]
  exact ⟨fun hclear htable hclash => htable.eq (hclear htable hclash),
    fun hclear htable hclash => congrArg RowKey.keys (hclear htable hclash)⟩

variable (hscope : row.scope ∈ ctx.trx.scope)
include hscope

theorem run_update : (RecordCall.update row value).run ctx (some rows)
    = .ok (some (match findRecord row rows with
        | some r => modifyRecord r (value ++ r.value.drop value.length) rows
        | none => rows), .size ((findRecord row rows).map (·.value.length))) := by
  simp only [RecordCall.run, RecordIndex.updateRecord, requireScope_ok hscope]
  cases hfind : findRecord row rows with
  | some r => simp [getIndex, hfind, bind, Except.bind, pure, Except.pure]
  | none => simp [getIndex, hfind, bind, Except.bind, pure, Except.pure]

theorem run_remove : (RecordCall.remove row).run ctx (some rows)
    = .ok (some (match findRecord row rows with
        | some r => rows.erase r
        | none => rows), .size ((findRecord row rows).map (·.value.length))) := by
  simp only [RecordCall.run, RecordIndex.removeRecord, requireScope_ok hscope]
  cases hfind : findRecord row rows with
  | some r => simp [getIndex, hfind, bind, Except.bind, pure, Except.pure]
  | none => simp [getIndex, hfind, bind, Except.bind, pure, Except.pure]

theorem run_store_found {r : RecordObject type} (hfind : findRecord row rows = some r) :
    (RecordCall.store row value).run ctx (some rows)
      = .ok (some (modifyRecord r value rows), .size (some r.value.length)) := by
  simp only [RecordCall.run, RecordIndex.storeRecord, requireScope_ok hscope]
  simp [getIndex, hfind, bind, Except.bind, pure, Except.pure]

theorem run_store_new (hfind : findRecord row rows = none) {idx' : RecordIndex type}
    {answer : RecordAnswer type} :
    (RecordCall.store row value).run ctx (some rows) = .ok (idx', answer) ↔
      ∃ rows', createRecord ⟨row, value⟩ rows = .ok rows' ∧ idx' = some rows' ∧ answer = .size none := by
  simp only [RecordCall.run, RecordIndex.storeRecord, requireScope_ok hscope]
  cases hcreate : createRecord ⟨row, value⟩ rows <;>
    simp [getIndex, hfind, hcreate, bind, Except.bind, pure, Except.pure, eq_comm]

theorem store_asMap_iff (h : RowsOk rows) :
    (RecordCall.store row value).AsMap ctx (some rows) ↔ (RecordCall.store row value).Clear rows := by
  refine Iff.trans ?_ clear_clash_iff.symm
  constructor
  · rintro ⟨idx', answer, hrun, -, hanswer⟩ r hr hshare
    cases hfind : findRecord row rows with
    | some r₀ =>
      rw [run_store_found hscope hfind] at hrun
      cases hrun
      cases hmap : toMap rows row with
      | none => simp [hmap] at hanswer
      | some v =>
        have hmem := (toMap_eq_some h).1 hmap
        obtain hkey | ⟨tag, hkey⟩ := hshare
        · exact congrArg RecordObject.toRowKey (h.eq_of_findKey hr hmem hkey)
        · exact congrArg RecordObject.toRowKey (h.eq_of_indexKey hr hmem hkey)
    | none =>
      obtain ⟨rows', hcreate, -, -⟩ := (run_store_new hscope hfind).1 hrun
      obtain hkey | ⟨tag, hkey⟩ := hshare
      · exact absurd hkey ((findRecord_eq_none h).1 hfind r hr)
      · exact absurd hkey ((createRecord_eq_ok.1 hcreate).1 r hr tag)
  · intro hclear
    have hfind := findRecord_eq h fun r hr hkey => hclear r hr (.inl hkey)
    cases hmap : toMap rows row with
    | some v =>
      rw [hmap] at hfind
      refine ⟨_, _, run_store_found hscope hfind, ?_, by simp [hmap]⟩
      exact toMap_modify h ((toMap_eq_some h).1 hmap) value
    | none =>
      rw [hmap] at hfind
      have hnone := toMap_eq_none.1 hmap
      have hcreate : createRecord ⟨row, value⟩ rows = .ok (rows ++ [⟨row, value⟩]) :=
        createRecord_eq_ok.2 ⟨fun r hr tag hkey => hnone r hr (hclear r hr (.inr ⟨tag, hkey⟩)), rfl⟩
      exact ⟨_, _, (run_store_new hscope hfind).2 ⟨_, hcreate, rfl, rfl⟩, toMap_append hnone,
        by simp [hmap]⟩

theorem update_asMap_iff (h : RowsOk rows) :
    (RecordCall.update row value).AsMap ctx (some rows) ↔ (RecordCall.update row value).Clear rows := by
  refine Iff.trans ?_ clear_alike_iff.symm
  constructor
  · rintro ⟨idx', answer, hrun, -, hanswer⟩ r hr hkey
    rw [run_update hscope] at hrun
    cases hrun
    exact (size_eq_iff h).1 (RecordAnswer.size.inj hanswer) r hr hkey
  · intro hclear
    have hfind := findRecord_eq h hclear
    refine ⟨_, _, run_update hscope, ?_, congrArg RecordAnswer.size ((size_eq_iff h).2 hclear)⟩
    cases hmap : toMap rows row with
    | some v =>
      rw [hmap] at hfind
      simp only [hfind, Option.map_some, Option.getD_some, hmap]
      exact toMap_modify h ((toMap_eq_some h).1 hmap) _
    | none => simp [hfind, hmap]

theorem remove_asMap_iff (h : RowsOk rows) :
    (RecordCall.remove row).AsMap ctx (some rows) ↔ (RecordCall.remove row).Clear rows := by
  refine Iff.trans ?_ clear_alike_iff.symm
  constructor
  · rintro ⟨idx', answer, hrun, -, hanswer⟩ r hr hkey
    rw [run_remove hscope] at hrun
    cases hrun
    exact (size_eq_iff h).1 (RecordAnswer.size.inj hanswer) r hr hkey
  · intro hclear
    have hfind := findRecord_eq h hclear
    refine ⟨_, _, run_remove hscope, ?_, congrArg RecordAnswer.size ((size_eq_iff h).2 hclear)⟩
    cases hmap : toMap rows row with
    | some v =>
      rw [hmap] at hfind
      simp only [hfind, Option.map_some, Option.getD_some]
      exact toMap_erase h ((toMap_eq_some h).1 hmap)
    | none => simp [hfind, hmap]

end Writes

/-! ## Loads -/

section Loads

/-- The first row of the table that is not below a tuple. -/
def firstFrom (tag : ByScope type) (row : RowKey type) (tuple : List KeyPart)
    (rows : List (RecordObject type)) : Option (RecordObject type) :=
  (under (·.indexKey tag) row.tuple (byTag tag rows)).find? fun r =>
    !below (r.indexKey tag) (row.tuple ++ tuple)

variable {tag : ByScope type} {row : RowKey type} {tuple : List KeyPart} {r r' : RecordObject type}

theorem mem_under_byTag :
    r ∈ under (·.indexKey tag) row.tuple (byTag tag rows) ↔ r ∈ rows ∧ r.SameTable row := by
  rw [mem_under, byTag, mem_index, tuple_prefix_iff]
  rfl

theorem below_indexKey (h : r.SameTable row) :
    below (r.indexKey tag) (row.tuple ++ tuple) = below (indexTuple tag r.keys) tuple := by
  rw [RowKey.indexKey, h.tuple, below_append]

theorem of_firstFrom (hfirst : firstFrom tag row tuple rows = some r) :
    r ∈ rows ∧ r.SameTable row ∧ below (indexTuple tag r.keys) tuple = false := by
  obtain ⟨hmem, htable⟩ := mem_under_byTag.1 (List.mem_of_find?_eq_some hfirst)
  have hbelow : below (r.indexKey tag) (row.tuple ++ tuple) = false := by
    simpa using List.find?_some hfirst
  rw [below_indexKey htable] at hbelow
  exact ⟨hmem, htable, hbelow⟩

theorem firstFrom_least (h : RowsOk rows) (hfirst : firstFrom tag row tuple rows = some r)
    (hr' : r' ∈ rows) (htable : r'.SameTable row) (hbelow : below (indexTuple tag r'.keys) tuple = false) :
    below (indexTuple tag r'.keys) (indexTuple tag r.keys) = false := by
  rw [← below_indexKey htable] at hbelow
  have hle := (h.sorted tag).le_of_find? hfirst (mem_under_byTag.2 ⟨hr', htable⟩) (by simp [hbelow])
  have hlength := (indexKey_length tag r'.toRowKey).trans (indexKey_length tag r.toRowKey).symm
  have htable' := (of_firstFrom hfirst).2.1
  have hnot : below (r'.indexKey tag) (r.indexKey tag) = false := by
    rw [← Bool.not_eq_true, below_iff_lt hlength]
    exact not_lt.2 hle
  rwa [RowKey.indexKey, RowKey.indexKey, htable.tuple, htable'.tuple,
    below_append] at hnot

theorem below_of_firstFrom (hfirst : firstFrom tag row tuple rows = none) (hr : r ∈ rows)
    (htable : r.SameTable row) : below (indexTuple tag r.keys) tuple = true := by
  have := List.find?_eq_none.1 hfirst r (mem_under_byTag.2 ⟨hr, htable⟩)
  rw [below_indexKey htable] at this
  simpa using this

variable {ctx : MessageContext} {size : ℕ} (hscope : row.scope ∈ ctx.trx.scope)
include hscope

variable (tag size) in
theorem run_load (h : RowsOk rows) : (RecordCall.load tag row size).run ctx (some rows)
    = match firstFrom tag row (loadRecordTuple tag row.keys) rows with
      | none => .ok (some rows, .loaded none)
      | some r => (loadRecordCompare tag r.keys row.keys).map fun same =>
          (some rows, .loaded (if same then some (r.read size) else none)) := by
  have hitr : row.inTable (byTag tag rows)[lowerBound (·.indexKey tag)
      (row.tuple ++ loadRecordTuple tag row.keys) (byTag tag rows)]?
        = firstFrom tag row (loadRecordTuple tag row.keys) rows := inTable_lowerBound h tag row.toTableKey _
  simp only [RecordCall.run, RecordIndex.loadRecord, requireScope_ok hscope, getIndex]
  cases hfirst : firstFrom tag row (loadRecordTuple tag row.keys) rows with
  | none =>
    rw [hfirst] at hitr
    simp [hitr, bind, Except.bind, pure, Except.pure]
  | some r =>
    rw [hfirst] at hitr
    cases hsame : loadRecordCompare tag r.keys row.keys <;>
      simp [hitr, hsame, bind, Except.bind, pure, Except.pure, Except.map]

/-- Loads of the types whose primary key is a number. -/
theorem load_numeric_iff (h : RowsOk rows) (lead : type.Keys → Uint128)
    (hbelow : ∀ k k' : type.Keys, below (indexTuple (.primary type) k)
      (loadRecordTuple (.primary type) k') = true ↔ lead k < lead k')
    (hcompare : ∀ k k', loadRecordCompare (.primary type) k k' = .ok (lead k = lead k'))
    (hsame : ∀ k k' : type.Keys, SamePrimaryKey k k' ↔ lead k = lead k')
    (hlead : ∀ k k', below (indexTuple (.primary type) k) (indexTuple (.primary type) k') = false →
      lead k' ≤ lead k) :
    (RecordCall.load (.primary type) row size).AsMap ctx (some rows) ↔
      (row ∈ rows.map (·.toRowKey) → ∀ r ∈ rows, r.SameTable row → lead r.keys = lead row.keys →
        below (indexTuple (.primary type) r.keys) (indexTuple (.primary type) row.keys) = false) := by
  have hreach : ∀ k : type.Keys, lead row.keys ≤ lead k →
      below (indexTuple (.primary type) k) (loadRecordTuple (.primary type) row.keys) = false :=
    fun k hk => by
      rw [← Bool.not_eq_true, hbelow]
      exact not_lt.2 hk
  have hrun := run_load (.primary type) size hscope h
  constructor
  · rintro ⟨idx', answer, hran, -, hfound, -⟩ hrow r hr htable hkey
    obtain ⟨⟨row', v⟩, hmem, rfl⟩ := List.mem_map.1 hrow
    have hanswer := hfound v ((toMap_eq_some h).2 hmem)
    rw [hran] at hrun
    cases hfirst : firstFrom (.primary type) row' (loadRecordTuple (.primary type) row'.keys) rows with
    | none => simp [hfirst, hanswer] at hrun
    | some r₀ =>
      have hleast := firstFrom_least h hfirst hr htable (hreach _ hkey.ge)
      have hkeys : r₀.keys = row'.keys := by
        rw [hfirst, hanswer] at hrun
        simp only [hcompare, Except.map, Except.ok.injEq, Prod.mk.injEq, RecordAnswer.loaded.injEq] at hrun
        split_ifs at hrun
        · exact (congrArg Prod.fst (Option.some.inj hrun.2)).symm
        · exact hrun.2.elim
      exact hkeys ▸ hleast
  · intro hclear
    cases hfirst : firstFrom (.primary type) row (loadRecordTuple (.primary type) row.keys) rows with
    | none =>
      rw [hfirst] at hrun
      refine ⟨_, _, hrun, rfl, fun v hv => ?_, fun _ => rfl⟩
      have hbelow' := below_of_firstFrom hfirst ((toMap_eq_some h).1 hv) rfl
      rw [hreach _ le_rfl] at hbelow'
      cases hbelow'
    | some r₀ =>
      obtain ⟨hr₀, htable, hnot⟩ := of_firstFrom hfirst
      rw [hfirst] at hrun
      simp only [hcompare, Except.map] at hrun
      refine ⟨_, _, hrun, rfl, fun v hv => ?_, fun hno => ?_⟩
      · have hmem := (toMap_eq_some h).1 hv
        have hleast := firstFrom_least h hfirst hmem rfl (hreach _ le_rfl)
        have hkey : lead r₀.keys = lead row.keys := by
          rw [← Bool.not_eq_true, hbelow] at hnot
          exact (hlead _ _ hleast).antisymm (not_lt.1 hnot)
        have hnext := hclear (List.mem_map.2 ⟨_, hmem, rfl⟩) r₀ hr₀ htable hkey
        have htuple : indexTuple (.primary type) r₀.keys = indexTuple (.primary type) row.keys :=
          eq_of_below_false (indexTuple_length _ _) hnext hleast
        have hindex : r₀.indexKey (.primary type) = row.indexKey (.primary type) :=
          congrArg₂ (· ++ ·) htable.tuple htuple
        have heq : r₀ = ⟨row, v⟩ := h.eq_of_indexKey hr₀ hmem hindex
        simp [heq, RecordObject.read]
      · have hne : lead r₀.keys ≠ lead row.keys := fun hkey => by
          have := hno r₀.toRowKey htable ((hsame _ _).2 hkey)
          exact toMap_eq_none.1 this r₀ hr₀ rfl
        simp [hne]

end Loads

/-! ## Strings -/

section Strings

theorem memcmpEqual_eq_true {a b : Bytes} : memcmpEqual a b = .ok true ↔ b <+: a := by
  induction a generalizing b with
  | nil => cases b <;> simp [memcmpEqual]
  | cons x a ih =>
    cases b with
    | nil => simp [memcmpEqual]
    | cons y b =>
      unfold memcmpEqual
      split_ifs with hxy <;> simp [hxy, ih, List.cons_prefix_cons, eq_comm]

theorem memcmpEqual_eq_false {a b : Bytes} : memcmpEqual a b = .ok false ↔ ¬ b <+: a ∧ ¬ a <+: b := by
  induction a generalizing b with
  | nil => cases b <;> simp [memcmpEqual]
  | cons x a ih =>
    cases b with
    | nil => simp [memcmpEqual]
    | cons y b =>
      unfold memcmpEqual
      split_ifs with hxy <;> simp [hxy, ih, List.cons_prefix_cons, eq_comm]

/-- Between a string and one that begins with it all strings begin with it. -/
theorem prefix_of_between : ∀ {a b c : Bytes}, a <+: c → ¬ b < a → ¬ c < b → a <+: b
  | [], _, _, _, _, _ => List.nil_prefix
  | _ :: _, _, [], hac, _, _ => by simp at hac
  | _ :: _, [], _ :: _, _, hba, _ => absurd (List.nil_lt_cons _ _) hba
  | x :: a, z :: b, y :: c, hac, hba, hcb => by
    rw [List.cons_prefix_cons] at hac ⊢
    obtain ⟨rfl, hac⟩ := hac
    simp only [List.cons_lt_cons_iff, not_or, not_and, not_lt] at hba hcb
    obtain rfl := hba.1.antisymm hcb.1
    exact ⟨rfl, prefix_of_between hac (hba.2 rfl).not_gt (hcb.2 rfl).not_gt⟩

/-- To `strcmp` a string goes on only up to the zero behind it. -/
theorem cString_eq_of_prefixed : ∀ {a b : Bytes}, a ++ [0] <+: b → cString a = cString b
  | [], _, ⟨_, rfl⟩ => rfl
  | _ :: _, [], h => by simp at h
  | x :: a, y :: b, h => by
    rw [List.cons_append, List.cons_prefix_cons] at h
    obtain ⟨rfl, h⟩ := h
    rw [cString_cons, cString_cons, cString_eq_of_prefixed h]

/-- A string with a zero in it is up to there what begins with it. -/
theorem cString_eq_of_mem : ∀ {a b : Bytes}, a <+: b → 0 ∈ a → cString a = cString b
  | [], _, _, h => by simp at h
  | _ :: _, [], h, _ => by simp at h
  | x :: a, y :: b, h, hmem => by
    rw [List.cons_prefix_cons] at h
    obtain ⟨rfl, h⟩ := h
    rw [cString_cons, cString_cons]
    split_ifs with hx
    · rfl
    · rw [cString_eq_of_mem h (by simpa [Ne.symm hx] using hmem)]

theorem cString_prefixed (a : Bytes) : cString a <+: a := List.takeWhile_prefix _

/-- A string without a zero that the memory at another begins with, begins the other. -/
theorem prefix_cString {a b : Bytes} (h : a <+: b ++ [0]) (hzero : 0 ∉ a) : a <+: cString b := by
  induction a generalizing b with
  | nil => exact List.nil_prefix
  | cons x a ih =>
    rw [List.mem_cons, not_or] at hzero
    cases b with
    | nil =>
      rw [List.nil_append, List.cons_prefix_cons] at h
      exact absurd h.1.symm hzero.1
    | cons y b =>
      rw [List.cons_append, List.cons_prefix_cons] at h
      obtain ⟨rfl, h⟩ := h
      rw [cString_cons, if_neg (Ne.symm hzero.1), List.cons_prefix_cons]
      exact ⟨rfl, ih h hzero.2⟩

variable {rows : List (RecordObject .keystrValue)} {row : RowKey .keystrValue} {ctx : MessageContext}
  {size : ℕ}

theorem below_str_iff {k k' : Bytes} :
    below (indexTuple (.primary .keystrValue) k) (loadRecordTuple (.primary .keystrValue) k') = false ↔
      ¬ cString k < cString k' := by
  simp [indexTuple, loadRecordTuple, below]

/-- The row a load comes to first is in the order between the key and every other row from there on. -/
theorem firstFrom_str (h : RowsOk rows) {r : RecordObject .keystrValue} (hr : r ∈ rows)
    (htable : r.SameTable row) (hnot : ¬ cString r.keys < cString row.keys) :
    ∃ r₀, firstFrom (.primary _) row (loadRecordTuple (.primary _) row.keys) rows = some r₀ ∧
      ¬ cString r₀.keys < cString row.keys ∧ ¬ cString r.keys < cString r₀.keys := by
  cases hfirst : firstFrom (.primary _) row (loadRecordTuple (.primary _) row.keys) rows with
  | none =>
    have hbelow := below_of_firstFrom hfirst hr htable
    rw [below_str_iff.2 hnot] at hbelow
    cases hbelow
  | some r₀ =>
    refine ⟨r₀, rfl, below_str_iff.1 (of_firstFrom hfirst).2.2, ?_⟩
    exact below_str_iff.1 (firstFrom_least h hfirst hr htable (below_str_iff.2 hnot))

theorem firstFrom_str_eq (h : RowsOk rows) {r : RecordObject .keystrValue} (hr : r ∈ rows)
    (htable : r.SameTable row) (heq : cString r.keys = cString row.keys) :
    firstFrom (.primary _) row (loadRecordTuple (.primary _) row.keys) rows = some r := by
  obtain ⟨r₀, hfirst, hge, hle⟩ := firstFrom_str h hr htable (heq ▸ lt_irrefl _)
  obtain ⟨hr₀, htable₀, -⟩ := of_firstFrom hfirst
  have hkeys : cString r₀.keys = cString r.keys :=
    (not_lt.1 hle).antisymm (not_lt.1 (heq ▸ hge))
  have halike : r₀.findKey = r.findKey :=
    findKey_inj.2 ⟨htable₀.trans htable.symm, hkeys⟩
  rw [hfirst, h.eq_of_findKey hr₀ hr halike]

/-- Of a key that is not there a load finds none, unless the key begins a string that is there, or
begins with one and a zero. -/
theorem load_keystr_iff (hscope : row.scope ∈ ctx.trx.scope) (h : RowsOk rows) :
    (RecordCall.load (.primary .keystrValue) row size).AsMap ctx (some rows) ↔ LoadClear rows row := by
  have hrun := run_load (.primary .keystrValue) size hscope h
  constructor
  · rintro ⟨idx', answer, hran, -, -, habsent⟩
    refine or_iff_not_imp_left.2 fun hrow r hr htable => ?_
    have hnone : answer = .loaded none := habsent fun row' htable' hkeys => by
      obtain rfl := htable'.eq hkeys
      exact toMap_eq_none.2 fun r hr hkey => hrow (List.mem_map.2 ⟨r, hr, hkey⟩)
    have hpassed : ∀ r₀, firstFrom (.primary _) row (loadRecordTuple (.primary _) row.keys) rows
        = some r₀ → ¬ row.keys <+: r₀.keys ++ [0] ∧ ¬ r₀.keys ++ [0] <+: row.keys := fun r₀ hfirst => by
      rw [hran, hnone, hfirst] at hrun
      refine memcmpEqual_eq_false.1 ?_
      cases hsame : memcmpEqual (r₀.keys ++ [0]) row.keys with
      | error e => simp [loadRecordCompare, hsame, Except.map] at hrun
      | ok same => cases same <;> simp [loadRecordCompare, hsame, Except.map] at hrun ⊢
    by_cases hcstr : cString r.keys = cString row.keys
    · exact hpassed r (firstFrom_str_eq h hr htable hcstr)
    refine ⟨fun hpre => ?_, fun hpre => hcstr (cString_eq_of_prefixed hpre)⟩
    have hend := cString_eq_of_prefixed (List.prefix_refl (r.keys ++ [0]))
    have hzero : 0 ∉ row.keys := fun hzero => hcstr (hend.trans (cString_eq_of_mem hpre hzero).symm)
    have hbegins := prefix_cString hpre hzero
    have hnot : ¬ cString r.keys < cString row.keys := by
      rw [cString_of_notMem hzero]
      exact List.IsPrefix.le hbegins
    obtain ⟨r₀, hfirst, hge, hle⟩ := firstFrom_str h hr htable hnot
    rw [cString_of_notMem hzero] at hge
    have hbegins₀ := prefix_of_between hbegins hge hle
    exact (hpassed r₀ hfirst).1
      ((hbegins₀.trans (cString_prefixed _)).trans (List.prefix_append _ _))
  · rintro (hrow | hclear)
    · obtain ⟨⟨row', v⟩, hmem, rfl⟩ := List.mem_map.1 hrow
      have hfirst : firstFrom (.primary _) row' (loadRecordTuple (.primary _) row'.keys) rows
          = some ⟨row', v⟩ := firstFrom_str_eq h hmem rfl rfl
      rw [hfirst] at hrun
      have hsame : memcmpEqual (row'.keys ++ [0]) row'.keys = .ok true :=
        memcmpEqual_eq_true.2 (List.prefix_append _ _)
      simp only [loadRecordCompare, hsame, Except.map] at hrun
      have hmap := (toMap_eq_some h).2 hmem
      refine ⟨_, _, hrun, rfl, fun v' hv' => ?_, fun hno => ?_⟩
      · obtain rfl := Option.some.inj (hmap.symm.trans hv')
        rfl
      · exact absurd (hmap.symm.trans (hno row' rfl rfl)) (by simp)
    · have habsent : toMap rows row = none := toMap_eq_none.2 fun r hr hkey => by
        subst hkey
        exact (hclear r hr rfl).1 (List.prefix_append _ _)
      have hanswer : (RecordCall.load (.primary .keystrValue) row size).run ctx (some rows)
          = .ok (some rows, .loaded none) := by
        rw [hrun]
        cases hfirst : firstFrom (.primary _) row (loadRecordTuple (.primary _) row.keys) rows with
        | none => rfl
        | some r₀ =>
          obtain ⟨hr₀, htable₀, -⟩ := of_firstFrom hfirst
          have hsame := memcmpEqual_eq_false.2 (hclear r₀ hr₀ htable₀)
          simp [loadRecordCompare, hsame, Except.map]
      exact ⟨_, _, hanswer, rfl, fun v hv => absurd (habsent.symm.trans hv) (by simp), fun _ => rfl⟩

end Strings

/-! ## Runs of calls -/

section MapRuns

variable {ctx : MessageContext} {row : RowKey type}

theorem load_primary_iff {size : ℕ} (hscope : row.scope ∈ ctx.trx.scope) (h : RowsOk rows) :
    (RecordCall.load (.primary type) row size).AsMap ctx (some rows) ↔ LoadClear rows row := by
  cases type with
  | keyValue =>
    rw [load_numeric_iff hscope h id (by simp [below, indexTuple, loadRecordTuple])
      (fun _ _ => rfl) (fun _ _ => Iff.rfl) (by simp [below, indexTuple])]
    refine ⟨fun _ => trivial, fun _ _ r _ _ hkey => ?_⟩
    simp only [id] at hkey
    simp [hkey]
  | keystrValue => exact load_keystr_iff hscope h
  | key128x128Value =>
    rw [load_numeric_iff hscope h Prod.fst (by simp [below, indexTuple, loadRecordTuple])
      (fun _ _ => rfl) (fun _ _ => Iff.rfl) (by simp +contextual [below, indexTuple])]
    refine forall_congr' fun _ => forall₄_congr fun r _ _ hkey => ?_
    simp [below, indexTuple, hkey]
  | key128x128x128Value =>
    rw [load_numeric_iff hscope h Prod.fst (by simp [below, indexTuple, loadRecordTuple])
      (fun _ _ => rfl) (fun _ _ => Iff.rfl) (by simp +contextual [below, indexTuple])]
    refine forall_congr' fun hrow => forall₄_congr fun r hr htable hkey => ?_
    obtain ⟨r', hr', rfl⟩ := List.mem_map.1 hrow
    -- rows with the same first two keys are one row
    have hthird : r.keys.2.1 = r'.keys.2.1 → r.keys.2.2 = r'.keys.2.2 := fun hsecond => by
      rw [h.eq_of_findKey hr hr' (findKey_inj.2 ⟨htable, hkey, hsecond⟩)]
    simp only [below, indexTuple, num_lt_num, num_inj, hkey, Fin.val_fin_lt, Fin.val_inj]
    grind

theorem load_other_asMap {tag : ByScope type} {size : ℕ} (hscope : row.scope ∈ ctx.trx.scope)
    (h : RowsOk rows) (htag : tag ≠ .primary type) :
    (RecordCall.load tag row size).AsMap ctx (some rows) := by
  have hrun := run_load tag size hscope h
  cases hfirst : firstFrom tag row (loadRecordTuple tag row.keys) rows with
  | none =>
    rw [hfirst] at hrun
    cases tag with
    | primary => exact absurd rfl htag
    | secondary128 | secondary | tertiary => exact ⟨_, _, hrun, rfl⟩
  | some r =>
    rw [hfirst] at hrun
    cases tag with
    | primary => exact absurd rfl htag
    | secondary128 | secondary | tertiary => exact ⟨_, _, hrun, rfl⟩

theorem asMap_iff (call : RecordCall type) (hscope : call.row.scope ∈ ctx.trx.scope) (h : RowsOk rows) :
    call.AsMap ctx (some rows) ↔ call.Clear rows := by
  cases call with
  | store row value => exact store_asMap_iff hscope h
  | update row value => exact update_asMap_iff hscope h
  | remove row => exact remove_asMap_iff hscope h
  | load tag row size =>
    cases tag with
    | primary => exact load_primary_iff hscope h
    | secondary128 | secondary | tertiary =>
      exact ⟨fun _ => trivial, fun _ => load_other_asMap hscope h (by simp)⟩

/-- Without an index every call is undefined. -/
theorem run_none_ne_ok (call : RecordCall type) {r : RecordIndex type × RecordAnswer type} :
    call.run ctx none ≠ .ok r := by
  intro hrun
  cases call <;>
    simp [RecordCall.run, RecordIndex.storeRecord, RecordIndex.updateRecord, RecordIndex.removeRecord,
      RecordIndex.loadRecord, getIndex, bind_eq_ok] at hrun

theorem not_asMap_none (call : RecordCall type) : ¬ call.AsMap ctx none := by
  rintro ⟨idx', answer, hrun, -⟩
  exact run_none_ne_ok call hrun

/-- What is undeclared is refused. -/
theorem scope_of_run {call : RecordCall type} {idx : RecordIndex type}
    {r : RecordIndex type × RecordAnswer type} (hrun : call.run ctx idx = .ok r) :
    call.row.scope ∈ ctx.trx.scope := by
  cases call <;>
    simp only [RecordCall.run, RecordIndex.storeRecord, RecordIndex.updateRecord,
      RecordIndex.removeRecord, RecordIndex.loadRecord, bind_eq_ok, requireScope_eq_ok] at hrun <;>
    obtain ⟨-, ⟨-, hscope, -⟩, -⟩ := hrun <;>
    exact hscope

/-- Whatever a call does, the containers stay as they should be. -/
theorem RowsOk.run {call : RecordCall type} {idx' : RecordIndex type} {answer : RecordAnswer type}
    (h : RowsOk rows) (hrun : call.run ctx (some rows) = .ok (idx', answer)) :
    ∃ rows', idx' = some rows' ∧ RowsOk rows' := by
  have hscope := scope_of_run hrun
  cases call with
  | store row value =>
    change row.scope ∈ ctx.trx.scope at hscope
    cases hfind : findRecord row rows with
    | some r =>
      rw [run_store_found hscope hfind] at hrun
      cases hrun
      exact ⟨_, rfl, h.modify r value⟩
    | none =>
      obtain ⟨rows', hcreate, rfl, -⟩ := (run_store_new hscope hfind).1 hrun
      obtain ⟨hindex, rfl⟩ := createRecord_eq_ok.1 hcreate
      exact ⟨_, rfl, h.append ((findRecord_eq_none h).1 hfind) hindex⟩
  | update row value =>
    change row.scope ∈ ctx.trx.scope at hscope
    rw [run_update hscope] at hrun
    cases hrun
    refine ⟨_, rfl, ?_⟩
    split
    · exact h.modify _ _
    · exact h
  | remove row =>
    change row.scope ∈ ctx.trx.scope at hscope
    rw [run_remove hscope] at hrun
    cases hrun
    refine ⟨_, rfl, ?_⟩
    split
    · exact h.erase _
    · exact h
  | load tag row size =>
    simp only [RecordCall.run, bind_eq_ok] at hrun
    obtain ⟨found, -, hrun⟩ := hrun
    cases hrun
    exact ⟨rows, rfl, h⟩

/-- Each of some calls does to the records what it does to the map. -/
def BehaveAsMap : RecordIndex type → List (MessageContext × RecordCall type) → Prop
  | _, [] => True
  | idx, (ctx, call) :: calls => call.AsMap ctx idx ∧
    ∀ idx' answer, call.run ctx idx = .ok (idx', answer) → BehaveAsMap idx' calls

/-- At each of some calls there is an index, and no row in the way. -/
def AllClear : RecordIndex type → List (MessageContext × RecordCall type) → Prop
  | _, [] => True
  | idx, (ctx, call) :: calls => (∃ rows, idx = some rows ∧ call.Clear rows) ∧
    ∀ idx' answer, call.run ctx idx = .ok (idx', answer) → AllClear idx' calls

theorem behaveAsMap_iff {idx : RecordIndex type} (h : ∀ rows, idx = some rows → RowsOk rows)
    {calls : List (MessageContext × RecordCall type)}
    (declared : ∀ c ∈ calls, c.2.row.scope ∈ c.1.trx.scope) : BehaveAsMap idx calls ↔ AllClear idx calls := by
  induction calls generalizing idx with
  | nil => exact Iff.rfl
  | cons c calls ih =>
    obtain ⟨ctx, call⟩ := c
    obtain ⟨hscope, hrest⟩ := List.forall_mem_cons.1 declared
    cases idx with
    | none =>
      exact ⟨fun hmap => absurd hmap.1 (not_asMap_none call), fun hclear => by
        obtain ⟨⟨rows, hrows, -⟩, -⟩ := hclear
        cases hrows⟩
    | some rows =>
      have hok := h rows rfl
      refine and_congr ?_ (forall₃_congr fun idx' answer hrun => ih (fun rows' hrows' => ?_) hrest)
      · rw [asMap_iff call hscope hok]
        exact ⟨fun hclear => ⟨rows, rfl, hclear⟩, fun ⟨_, hrows, hclear⟩ => by cases hrows; exact hclear⟩
      · obtain ⟨rows'', rfl, hok'⟩ := hok.run hrun
        cases hrows'
        exact hok'

/-- From a database without rows calls behave as on a map just if no row is ever in the way. -/
theorem records_behave_as_map_iff (idx : RecordIndex type) (hempty : ∀ rows, idx = some rows → rows = [])
    (calls : List (MessageContext × RecordCall type))
    (declared : ∀ c ∈ calls, c.2.row.scope ∈ c.1.trx.scope) :
    BehaveAsMap idx calls ↔ AllClear idx calls :=
  behaveAsMap_iff (fun rows hrows => hempty rows hrows ▸ RowsOk.nil) declared

/-- Code 7 runs in scope 1. -/
def inScopeOne : MessageContext := ⟨{ scope := [1] }, ⟨7, .transfer, [], []⟩, 7, 0⟩

/-- A row of code 7 in table 3. -/
def rowOfSeven (keys : type.Keys) : RowKey type := ⟨⟨1, 7, 3⟩, keys⟩

theorem records_behave_as_map_string :
    BehaveAsMap (systemIndex .keystrValue)
      [(inScopeOne, .store (rowOfSeven [97]) [5]), (inScopeOne, .load (.primary _) (rowOfSeven [97]) 8)] := by
  refine (records_behave_as_map_iff _ ?_ _ ?_).2
    ⟨⟨[], rfl, by simp [RecordCall.Clear]⟩, fun idx' answer hrun => ⟨?_, fun _ _ _ => trivial⟩⟩
  · intro rows hrows
    exact (Option.some.inj hrows).symm
  · decide
  · have hstored : (RecordCall.store (rowOfSeven [97]) [5]).run inScopeOne (systemIndex .keystrValue)
        = .ok (some [⟨rowOfSeven [97], [5]⟩], .size none) := by decide
    cases hstored.symm.trans hrun
    exact ⟨_, rfl, .inl (by simp)⟩

theorem not_behaveAsMap {idx idx' : RecordIndex type} {call call' : RecordCall type}
    {answer : RecordAnswer type} (hrun : call.run ctx idx = .ok (idx', answer))
    (hnot : ¬ call'.AsMap ctx idx') : ¬ BehaveAsMap idx [(ctx, call), (ctx, call')] :=
  fun hmap => hnot (hmap.2 _ _ hrun).1

/-- A string with a zero in it goes to the row of another, a string is read that is not there, three keys
go to the row of two of them, and a third key is refused. -/
theorem rows_in_others_places :
    (¬ BehaveAsMap (systemIndex .keystrValue)
      [(inScopeOne, .store (rowOfSeven [97]) [5]), (inScopeOne, .store (rowOfSeven [97, 0, 98]) [6])]) ∧
    (¬ BehaveAsMap (systemIndex .keystrValue)
      [(inScopeOne, .store (rowOfSeven [97, 98]) [5]),
        (inScopeOne, .load (.primary _) (rowOfSeven [97]) 8)]) ∧
    (¬ BehaveAsMap (some [] : RecordIndex .key128x128x128Value)
      [(inScopeOne, .store (rowOfSeven (1, 1, 1)) [5]), (inScopeOne, .store (rowOfSeven (1, 1, 2)) [6])]) ∧
    (¬ BehaveAsMap (some [] : RecordIndex .key128x128x128Value)
      [(inScopeOne, .store (rowOfSeven (1, 1, 1)) [5]), (inScopeOne, .store (rowOfSeven (2, 2, 1)) [6])]) ∧
    ¬ BehaveAsMap (systemIndex .key128x128x128Value)
      [(inScopeOne, .store (rowOfSeven (1, 1, 1)) [5])] := by
  have hone : ∀ {type : ObjectType} (r : RecordObject type), RowsOk [r] := fun r =>
    ⟨fun _ => List.pairwise_singleton _ _, List.pairwise_singleton _ _⟩
  refine ⟨?_, ?_, ?_, ?_, fun hmap => not_asMap_none _ hmap.1⟩
  · have hrun : (RecordCall.store (rowOfSeven [97]) [5]).run inScopeOne (systemIndex .keystrValue)
        = .ok (some [⟨rowOfSeven [97], [5]⟩], .size none) := by decide
    refine not_behaveAsMap hrun fun hmap => ?_
    have hclear := (asMap_iff _ (by decide) (hone _)).1 hmap
    exact absurd (hclear _ List.mem_cons_self rfl rfl) (by decide)
  · have hrun : (RecordCall.store (rowOfSeven [97, 98]) [5]).run inScopeOne (systemIndex .keystrValue)
        = .ok (some [⟨rowOfSeven [97, 98], [5]⟩], .size none) := by decide
    refine not_behaveAsMap hrun fun hmap => ?_
    obtain hstored | hclear := (asMap_iff _ (by decide) (hone _)).1 hmap
    · exact absurd hstored (by decide)
    · exact (hclear _ List.mem_cons_self rfl).1 (by decide)
  · have hrun : (RecordCall.store (rowOfSeven (1, 1, 1)) [5]).run inScopeOne
        (some [] : RecordIndex .key128x128x128Value)
        = .ok (some [⟨rowOfSeven (1, 1, 1), [5]⟩], .size none) := by decide
    refine not_behaveAsMap hrun fun hmap => ?_
    have hclear := (asMap_iff _ (by decide) (hone _)).1 hmap
    exact absurd (hclear _ List.mem_cons_self rfl (.inl ⟨rfl, rfl⟩)) (by decide)
  · have hrun : (RecordCall.store (rowOfSeven (1, 1, 1)) [5]).run inScopeOne
        (some [] : RecordIndex .key128x128x128Value)
        = .ok (some [⟨rowOfSeven (1, 1, 1), [5]⟩], .size none) := by decide
    refine not_behaveAsMap hrun fun hmap => ?_
    have hclear := (asMap_iff _ (by decide) (hone _)).1 hmap
    exact absurd (hclear _ List.mem_cons_self rfl (.inr rfl)) (by decide)

end MapRuns

end XmaxChain
