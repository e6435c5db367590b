import XmaxChain.RecordMap

/-!
# Going through the records

The functions that step through the rows of a table in the order of one of its indices. From the front
they visit all the rows, and from the back too, as far as the back is found: the bound behind a table is
made of its name as a truth value. And a step goes on only from a string without a zero in it.
-/

namespace XmaxChain

open CompositeIndex

variable {type : ObjectType}

section Functions

variable (ctx : MessageContext) (t : TableKey) (tag : ByScope type) (keys : type.Keys) (size : ℕ)

/-- `front_record`. As with the other functions, no row stands for -1. -/
def RecordIndex.frontRecord (idx : RecordIndex type) : Except Fault (Option (type.Keys × Bytes)) := do
  requireScope ctx t.scope
  let rows ← getIndex idx
  let rows := byTag tag rows
  let itr := lowerBound (·.indexKey tag) (t.tuple ++ frontRecordTuple type) rows
  pure ((t.inTable rows[itr]?).map (·.read size))

/-- `uint64_t` of a name. A name converts to `bool` and to the class of 128-bit numbers, and only the
first of these goes on to `uint64_t`. -/
def uint64OfName (n : AccountName) : ℕ := if n = 0 then 0 else 1

theorem uint64OfName_le {n : AccountName} : uint64OfName n ≤ 1 := by
  unfold uint64OfName
  split_ifs <;> decide

def RecordIndex.backRecord (idx : RecordIndex type) : Except Fault (Option (type.Keys × Bytes)) := do
  requireScope ctx t.scope
  let rows ← getIndex idx
  let rows := byTag tag rows
  let itr := lowerBound (·.indexKey tag) (TableKey.tuple ⟨t.scope, t.code, uint64OfName t.table + 1⟩) rows
  pure ((t.inTable (if itr = 0 then none else rows[itr - 1]?)).map (·.read size))

/-- The row that the keys belong to, as `next_record` and `previous_record` look for it. -/
def findNext (rows : List (RecordObject type)) : Option (RecordObject type) :=
  find (·.indexKey (.primary type)) (t.tuple ++ nextRecordTuple keys) (byTag (.primary type) rows)

def RecordIndex.nextRecord (idx : RecordIndex type) : Except Fault (Option (type.Keys × Bytes)) := do
  requireScope ctx t.scope
  let rows ← getIndex idx
  match findNext t keys rows with
  | none => pure none
  | some r =>
    let rows := byTag tag rows
    let itr := rows.idxOf r
    match t.inTable rows[itr]? with
    | none => pure none
    | some r =>
      if keyCompare r.keys keys then pure ((t.inTable rows[itr + 1]?).map (·.read size))
      else pure none

def RecordIndex.previousRecord (idx : RecordIndex type) :
    Except Fault (Option (type.Keys × Bytes)) := do
  requireScope ctx t.scope
  let rows ← getIndex idx
  match findNext t keys rows with
  | none => pure none
  | some r =>
    let rows := byTag tag rows
    let itr := rows.idxOf r
    match t.inTable rows[itr]? with
    | none => pure none
    | some r =>
      if keyCompare r.keys keys then
        pure ((t.inTable (if itr = 0 then none else rows[itr - 1]?)).map (·.read size))
      else pure none

def RecordIndex.lowerBoundRecord (idx : RecordIndex type) :
    Except Fault (Option (type.Keys × Bytes)) := do
  requireScope ctx t.scope
  let rows ← getIndex idx
  let rows := byTag tag rows
  let itr := lowerBound (·.indexKey tag) (t.tuple ++ lowerBoundTuple tag keys) rows
  pure ((t.inTable rows[itr]?).map (·.read size))

def RecordIndex.upperBoundRecord (idx : RecordIndex type) :
    Except Fault (Option (type.Keys × Bytes)) := do
  requireScope ctx t.scope
  let rows ← getIndex idx
  let rows := byTag tag rows
  let itr := upperBound (·.indexKey tag) (t.tuple ++ upperBoundTuple tag keys) rows
  pure ((t.inTable rows[itr]?).map (·.read size))

end Functions

/-! ## Visits -/

/-- Going on from a first answer, with the keys of each, gives the rows of the list and then none. -/
inductive Visits {K V : Type} (step : K → Except Fault (Option (K × V))) :
    Except Fault (Option (K × V)) → List (K × V) → Prop
  | done : Visits step (.ok none) []
  | row {keys : K} {value : V} {l : List (K × V)} (rest : Visits step (step keys) l) :
      Visits step (.ok (some (keys, value))) ((keys, value) :: l)

section Visits

variable {K V R : Type} {step : K → Except Fault (Option (K × V))} {read : R → K × V}
  {goesOn : R → Bool} {rows : List R}

theorem visits_cons_iff {a : K × V} {l : List (K × V)} :
    Visits step (.ok (some a)) (a :: l) ↔ Visits step (step a.1) l := by
  obtain ⟨keys, value⟩ := a
  exact ⟨fun h => by cases h with | row rest => exact rest, fun h => .row h⟩

/-- Where each step but from some rows comes to the next row, all are visited just if none of these
comes before the last. -/
theorem visits_iff (hstep : ∀ l x m, rows = l ++ x :: m →
      step (read x).1 = .ok (if goesOn x then m.head?.map read else none)) :
    ∀ {l m : List R}, rows = l ++ m →
      (Visits step (.ok (m.head?.map read)) (m.map read) ↔ ∀ x ∈ m.dropLast, goesOn x = true)
  | _, [], _ => ⟨fun _ => by simp, fun _ => .done⟩
  | l, x :: m, hrows => by
    refine visits_cons_iff.trans ?_
    rw [hstep l x m hrows]
    have ih := visits_iff hstep (l := l ++ [x]) (m := m) (by simp [hrows])
    cases m with
    | nil =>
      cases goesOn x <;> exact ⟨fun _ => by simp, fun _ => .done⟩
    | cons y m =>
      cases hx : goesOn x with
      | true => simpa [hx] using ih
      | false =>
        simp only [Bool.false_eq_true, if_false, List.map_cons, List.dropLast_cons_cons, List.forall_mem_cons,
          hx, false_and, iff_false]
        nofun

/-- Without the last and without the first row it is all of them, unless it is one at most. -/
theorem forall_dropLast_iff {p : R → Prop} :
    (∀ x ∈ rows.dropLast, p x) ∧ (∀ x ∈ rows.reverse.dropLast, p x) ↔
      rows.length ≤ 1 ∨ ∀ x ∈ rows, p x := by
  rw [List.dropLast_reverse]
  simp only [List.mem_reverse]
  match rows with
  | [] => simp
  | [x] => simp
  | x :: y :: l =>
    constructor
    · rintro ⟨hfront, hback⟩
      refine .inr (List.forall_mem_cons.2 ⟨hfront x (by simp), hback⟩)
    · rintro (hlength | hall)
      · simp at hlength
      · exact ⟨fun z hz => hall z (List.dropLast_subset _ hz), (List.forall_mem_cons.1 hall).2⟩

end Visits

/-! ## The rows of a table -/

/-- The rows of a table in the order of an index. -/
def tableRows (tag : ByScope type) (t : TableKey) (rows : List (RecordObject type)) :
    List (RecordObject type) :=
  (byTag tag rows).filter (·.toTableKey = t)

section Steps

variable {rows : List (RecordObject type)} {tag : ByScope type} {t : TableKey} {ctx : MessageContext}
  {size : ℕ}

theorem mem_tableRows {r : RecordObject type} : r ∈ tableRows tag t rows ↔ r ∈ rows ∧ r.toTableKey = t := by
  rw [tableRows, List.mem_filter, byTag, mem_index, decide_eq_true_iff]

theorem tableRows_sorted (h : RowsOk rows) :
    (tableRows tag t rows).Pairwise fun a b => a.indexKey tag < b.indexKey tag :=
  (h.sorted tag).lt.filter _

theorem tableRows_eq : tableRows tag t rows = under (·.indexKey tag) t.tuple (byTag tag rows) := by
  refine List.filter_congr fun r _ => ?_
  rw [Bool.eq_iff_iff, decide_eq_true_iff, within_eq_true, tuple_prefix_iff]

/-- Within a table the rows are told apart by what is in their keys. -/
theorem below_indexKey_of_mem {r : RecordObject type} {tuple : List KeyPart}
    (hr : r ∈ tableRows tag t rows) :
    below (r.indexKey tag) (t.tuple ++ tuple) = below (indexTuple tag r.keys) tuple := by
  rw [RowKey.indexKey, (mem_tableRows.1 hr).2, below_append]

theorem indexKey_below_of_mem {r : RecordObject type} {tuple : List KeyPart}
    (hr : r ∈ tableRows tag t rows) :
    below (t.tuple ++ tuple) (r.indexKey tag) = below tuple (indexTuple tag r.keys) := by
  rw [RowKey.indexKey, (mem_tableRows.1 hr).2, below_append]

variable (hscope : t.scope ∈ ctx.trx.scope)
include hscope

theorem frontRecord_eq (h : RowsOk rows) :
    RecordIndex.frontRecord ctx t tag size (some rows)
      = .ok ((tableRows tag t rows).head?.map (·.read size)) := by
  have hall : ∀ r ∈ tableRows tag t rows,
      (!below (r.indexKey tag) (t.tuple ++ frontRecordTuple type)) = true := fun r hr => by
    rw [below_indexKey_of_mem hr]
    cases tag with
    | primary => cases type <;> simp [below, indexTuple, frontRecordTuple]
    | secondary128 | secondary | tertiary => simp [below, indexTuple, frontRecordTuple]
  have hfirst : t.inTable (byTag tag rows)[lowerBound (·.indexKey tag)
      (t.tuple ++ frontRecordTuple type) (byTag tag rows)]? = (tableRows tag t rows).head? := by
    rw [inTable_lowerBound h, ← tableRows_eq]
    cases hrows : tableRows tag t rows with
    | nil => rfl
    | cons r l => rw [List.find?_cons, hall r (by simp [hrows]), List.head?_cons]
  unfold RecordIndex.frontRecord
  rw [requireScope_ok hscope]
  exact congrArg (fun found => Except.ok (found.map (·.read size))) hfirst

/-- The bound is behind a table of the name 0 or 1. -/
theorem backRecord_eq (h : RowsOk rows) (htable : t.table ≤ 1) :
    RecordIndex.backRecord ctx t tag size (some rows)
      = .ok ((tableRows tag t rows).getLast?.map (·.read size)) := by
  have hbound : uint64OfName t.table = t.table := by
    obtain hzero | hone := Nat.le_one_iff_eq_zero_or_eq_one.1 htable
    · rw [hzero]
      rfl
    · rw [hone]
      rfl
  have hlast : t.inTable (beforeBound (·.indexKey tag)
      (TableKey.tuple ⟨t.scope, t.code, t.table + 1⟩) (byTag tag rows))
        = (tableRows tag t rows).getLast? := by
    rw [inTable_eq tag, tableRows_eq]
    refine (h.sorted tag).beforeBound_within (tuple_length_le tag t) (fun r hr => ?_) fun r _ hr => ?_
    · rw [← tableRows_eq] at hr
      simp [RowKey.indexKey, (mem_tableRows.1 hr).2, TableKey.tuple, below]
    · rw [← Bool.not_eq_true]
      simp only [RowKey.indexKey, TableKey.tuple, List.cons_append, List.nil_append, below_cons,
        num_lt_num, num_inj, nil_below, below_nil] at hr ⊢
      grind
  unfold RecordIndex.backRecord
  rw [requireScope_ok hscope, hbound]
  exact congrArg (fun found => Except.ok (found.map (·.read size))) hlast

/-- In front of the bound is no row of another table. -/
theorem backRecord_eq_none (h : RowsOk rows) (htable : tableRows tag t rows = [] ∨ 1 < t.table) :
    RecordIndex.backRecord ctx t tag size (some rows) = .ok none := by
  have hnone : t.inTable (beforeBound (·.indexKey tag)
      (TableKey.tuple ⟨t.scope, t.code, uint64OfName t.table + 1⟩) (byTag tag rows)) = none := by
    rw [inTable_eq tag]
    refine (h.sorted tag).beforeBound_eq_none fun r hr => ?_
    rw [← tableRows_eq] at hr
    obtain hnil | htable := htable
    · simp [hnil] at hr
    · have hbound : uint64OfName t.table + 1 ≤ t.table :=
        (Nat.succ_le_succ uint64OfName_le).trans htable
      simpa [RowKey.indexKey, (mem_tableRows.1 hr).2, TableKey.tuple, below] using hbound
  unfold RecordIndex.backRecord
  rw [requireScope_ok hscope]
  exact congrArg (fun found => Except.ok (found.map (·.read size))) hnone

omit hscope in
theorem findNext_eq (h : RowsOk rows) {r : RecordObject type} (hr : r ∈ rows) :
    findNext r.toTableKey r.keys rows = some r := by
  have hkey : r.toTableKey.tuple ++ nextRecordTuple r.keys = r.indexKey (.primary type) := by
    unfold RowKey.indexKey
    cases type <;> rfl
  have hlength := (indexKey_length (.primary type) r.toRowKey).le
  unfold findNext
  rw [hkey, (h.sorted _).find_eq_head? hlength]
  have hmem : ∀ r' ∈ under (·.indexKey (.primary type)) (r.indexKey (.primary type))
      (byTag (.primary type) rows), r' = r := fun r' hr' => by
    obtain ⟨hr', hpre⟩ := mem_under.1 hr'
    have heq := hpre.eq_of_length ((indexKey_length _ _).trans (indexKey_length _ _).symm)
    exact (h.eq_of_indexKey hr (mem_index.1 hr') heq).symm
  have hself : r ∈ under (·.indexKey (.primary type)) (r.indexKey (.primary type))
      (byTag (.primary type) rows) := mem_under.2 ⟨mem_index.2 hr, List.prefix_refl _⟩
  cases hunder : under (·.indexKey (.primary type)) (r.indexKey (.primary type))
      (byTag (.primary type) rows) with
  | nil => simp [hunder] at hself
  | cons r' l => rw [List.head?_cons, hmem r' (by simp [hunder])]

omit hscope in
/-- A row of the table is found by its keys, and is where the index has it. -/
theorem find_place (h : RowsOk rows) {r : RecordObject type} (hr : r ∈ tableRows tag t rows) :
    findNext t r.keys rows = some r ∧
      t.inTable (byTag tag rows)[(byTag tag rows).idxOf r]? = some r := by
  obtain ⟨hmem, rfl⟩ := mem_tableRows.1 hr
  refine ⟨findNext_eq h hmem, ?_⟩
  have hindexed : r ∈ byTag tag rows := mem_index.2 hmem
  rw [List.getElem?_idxOf hindexed]
  simp [TableKey.inTable]

theorem nextRecord_eq (h : RowsOk rows) {l m : List (RecordObject type)} {r : RecordObject type}
    (hrows : tableRows tag t rows = l ++ r :: m) :
    RecordIndex.nextRecord ctx t tag r.keys size (some rows)
      = .ok (if keyCompare r.keys r.keys then m.head?.map (·.read size) else none) := by
  have hr : r ∈ tableRows tag t rows := by simp [hrows]
  obtain ⟨hfind, hplace⟩ := find_place h hr
  have hnext : t.inTable (byTag tag rows)[(byTag tag rows).idxOf r + 1]? = m.head? := by
    rw [inTable_eq tag]
    exact (h.sorted tag).next_within (tuple_length_le tag t) (tableRows_eq.symm.trans hrows)
  unfold RecordIndex.nextRecord
  rw [requireScope_ok hscope]
  simp only [getIndex, bind, Except.bind, hfind, hplace, hnext, pure, Except.pure]
  split_ifs <;> rfl

theorem previousRecord_eq (h : RowsOk rows) {l m : List (RecordObject type)} {r : RecordObject type}
    (hrows : tableRows tag t rows = l ++ r :: m) :
    RecordIndex.previousRecord ctx t tag r.keys size (some rows)
      = .ok (if keyCompare r.keys r.keys then l.getLast?.map (·.read size) else none) := by
  have hr : r ∈ tableRows tag t rows := by simp [hrows]
  obtain ⟨hfind, hplace⟩ := find_place h hr
  have hprevious : t.inTable (if (byTag tag rows).idxOf r = 0 then none
      else (byTag tag rows)[(byTag tag rows).idxOf r - 1]?) = l.getLast? := by
    rw [inTable_eq tag]
    exact (h.sorted tag).previous_within (tuple_length_le tag t) (tableRows_eq.symm.trans hrows)
  unfold RecordIndex.previousRecord
  rw [requireScope_ok hscope]
  simp only [getIndex, bind, Except.bind, hfind, hplace, hprevious, pure, Except.pure]
  split_ifs <;> rfl

/-- The key that an index is named after. -/
def tagKey : {type : ObjectType} → ByScope type → type.Keys → KeyPart
  | _, .primary .keyValue, k => num k
  | _, .primary .keystrValue, k => cstr k
  | _, .primary .key128x128Value, (k, _) => num k
  | _, .primary .key128x128x128Value, (k, _, _) => num k
  | _, .secondary128, (_, k₁) => num k₁
  | _, .secondary, (_, k₁, _) => num k₁
  | _, .tertiary, (_, _, k₂) => num k₂

theorem lowerBoundRecord_eq (h : RowsOk rows) (keys : type.Keys) :
    RecordIndex.lowerBoundRecord ctx t tag keys size (some rows)
      = .ok (((tableRows tag t rows).find? fun r => tagKey tag keys ≤ tagKey tag r.keys).map
          (·.read size)) := by
  have hfound : t.inTable (byTag tag rows)[lowerBound (·.indexKey tag)
      (t.tuple ++ lowerBoundTuple tag keys) (byTag tag rows)]?
        = (tableRows tag t rows).find? fun r => tagKey tag keys ≤ tagKey tag r.keys := by
    rw [inTable_lowerBound h, ← tableRows_eq]
    refine List.find?_congr fun r hr => ?_
    rw [below_indexKey_of_mem hr, Bool.eq_iff_iff, decide_eq_true_iff, Bool.not_eq_true',
      ← Bool.not_eq_true, ← not_lt, not_iff_not]
    cases tag with
    | primary => cases type <;> simp [below, indexTuple, lowerBoundTuple, tagKey]
    | secondary128 | secondary | tertiary => simp [below, indexTuple, lowerBoundTuple, tagKey]
  unfold RecordIndex.lowerBoundRecord
  rw [requireScope_ok hscope]
  exact congrArg (fun found => Except.ok (found.map (·.read size))) hfound

theorem upperBoundRecord_eq (h : RowsOk rows) (keys : type.Keys) :
    RecordIndex.upperBoundRecord ctx t tag keys size (some rows)
      = .ok (((tableRows tag t rows).find? fun r => tagKey tag keys < tagKey tag r.keys).map
          (·.read size)) := by
  have hfound : t.inTable (byTag tag rows)[upperBound (·.indexKey tag)
      (t.tuple ++ upperBoundTuple tag keys) (byTag tag rows)]?
        = (tableRows tag t rows).find? fun r => tagKey tag keys < tagKey tag r.keys := by
    rw [inTable_eq tag, (h.sorted tag).upperBound_within (tuple_length_le tag t), ← tableRows_eq]
    refine List.find?_congr fun r hr => ?_
    rw [indexKey_below_of_mem hr, Bool.eq_iff_iff, decide_eq_true_iff]
    cases tag with
    | primary =>
      cases type <;> simp [below, indexTuple, upperBoundTuple, tagKey, Uint128.not_max_lt, -Fin.val_fin_lt]
    | secondary128 | secondary | tertiary =>
      simp [below, indexTuple, upperBoundTuple, tagKey, Uint128.not_max_lt, -Fin.val_fin_lt]
  unfold RecordIndex.upperBoundRecord
  rw [requireScope_ok hscope]
  exact congrArg (fun found => Except.ok (found.map (·.read size))) hfound

end Steps

/-! ## Every row once -/

section EveryRow

/-- What some calls leave of a database without rows. -/
inductive RecordRun : RecordIndex type → Prop
  | start (idx : RecordIndex type) (empty : ∀ rows, idx = some rows → rows = []) : RecordRun idx
  | call {idx idx' : RecordIndex type} {answer : RecordAnswer type} {ctx : MessageContext}
      {c : RecordCall type} (run : RecordRun idx) (ran : c.run ctx idx = .ok (idx', answer)) :
      RecordRun idx'

variable {idx : RecordIndex type}

theorem RecordRun.rowsOk (h : RecordRun idx) : RowsOk (idx.getD []) := by
  induction h with
  | start idx empty =>
    cases idx with
    | none => exact .nil
    | some rows => exact empty rows rfl ▸ RowsOk.nil
  | @call idx idx' answer ctx c _ ran ih =>
    cases idx with
    | none => exact absurd ran (run_none_ne_ok c)
    | some rows =>
      obtain ⟨rows', rfl, hok⟩ := ih.run ran
      exact hok

/-- From the front all rows of the table in their order and then none, from the back in the reverse
order, and at a bound the first row from there on or behind it. -/
structure EveryRowOnce (ctx : MessageContext) (t : TableKey) (tag : ByScope type) (size : ℕ)
    (idx : RecordIndex type) : Prop where
  forward : Visits (fun keys => idx.nextRecord ctx t tag keys size) (idx.frontRecord ctx t tag size)
    ((tableRows tag t (idx.getD [])).map (·.read size))
  backward : Visits (fun keys => idx.previousRecord ctx t tag keys size)
    (idx.backRecord ctx t tag size) ((tableRows tag t (idx.getD [])).reverse.map (·.read size))
  lower : ∀ keys, idx.lowerBoundRecord ctx t tag keys size
    = .ok (((tableRows tag t (idx.getD [])).find? fun r => tagKey tag keys ≤ tagKey tag r.keys).map
        (·.read size))
  upper : ∀ keys, idx.upperBoundRecord ctx t tag keys size
    = .ok (((tableRows tag t (idx.getD [])).find? fun r => tagKey tag keys < tagKey tag r.keys).map
        (·.read size))

/-- A string without a zero byte. -/
def NoZero : {type : ObjectType} → type.Keys → Prop
  | .keystrValue, k => 0 ∉ k
  | .keyValue, _ => True
  | .key128x128Value, _ => True
  | .key128x128x128Value, _ => True

theorem keyCompare_self {keys : type.Keys} : keyCompare keys keys = true ↔ NoZero keys := by
  cases type with
  | keystrValue =>
    refine decide_eq_true_iff.trans ⟨fun heq hzero => ?_, fun hzero => (cString_of_notMem hzero).symm⟩
    rw [heq] at hzero
    exact notMem_cString hzero
  | keyValue | key128x128Value | key128x128x128Value => simp [keyCompare, NoZero]

variable {rows : List (RecordObject type)} {tag : ByScope type} {t : TableKey} {ctx : MessageContext}
  {size : ℕ} (hscope : t.scope ∈ ctx.trx.scope)
include hscope

theorem forward_iff (h : RowsOk rows) :
    Visits (fun keys => RecordIndex.nextRecord ctx t tag keys size (some rows))
        (RecordIndex.frontRecord ctx t tag size (some rows))
        ((tableRows tag t rows).map (·.read size)) ↔
      ∀ r ∈ (tableRows tag t rows).dropLast, NoZero r.keys := by
  rw [frontRecord_eq hscope h]
  refine (visits_iff (fun l r m hrows => nextRecord_eq hscope h hrows) (l := [])
    (m := tableRows tag t rows) rfl).trans ?_
  simp only [keyCompare_self]

theorem backward_iff (h : RowsOk rows) :
    Visits (fun keys => RecordIndex.previousRecord ctx t tag keys size (some rows))
        (RecordIndex.backRecord ctx t tag size (some rows))
        ((tableRows tag t rows).reverse.map (·.read size)) ↔
      (tableRows tag t rows = [] ∨ t.table ≤ 1) ∧
        ∀ r ∈ (tableRows tag t rows).reverse.dropLast, NoZero r.keys := by
  by_cases hnil : tableRows tag t rows = []
  · rw [backRecord_eq_none hscope h (.inl hnil), hnil]
    exact ⟨fun _ => ⟨.inl rfl, by simp⟩, fun _ => .done⟩
  · by_cases htable : t.table ≤ 1
    · have hstep : ∀ l r m, (tableRows tag t rows).reverse = l ++ r :: m →
          RecordIndex.previousRecord ctx t tag (r.read size).1 size (some rows)
            = .ok (if keyCompare r.keys r.keys then m.head?.map (·.read size) else none) := by
        intro l r m hrows
        have hrows' : tableRows tag t rows = m.reverse ++ r :: l.reverse := by
          rw [← List.reverse_reverse (tableRows tag t rows), hrows]
          simp
        rw [RecordObject.read, previousRecord_eq hscope h hrows', List.getLast?_reverse]
      rw [backRecord_eq hscope h htable, ← List.head?_reverse]
      refine (visits_iff hstep (l := []) rfl).trans ?_
      simp only [keyCompare_self, hnil, htable, or_true, true_and]
    · rw [backRecord_eq_none hscope h (.inr (not_le.1 htable))]
      refine ⟨fun hvisits => ?_, fun hback => absurd hback.1 (by simp [hnil, htable])⟩
      cases hrows : ((tableRows tag t rows).reverse.map (·.read size)) with
      | nil => simp [hnil] at hrows
      | cons a l =>
        rw [hrows] at hvisits
        cases hvisits

/-- In every database that is reached the rows of a table are gone through once in both directions just if
its name is 0 or 1, or it is empty, and no string of several has a zero byte. -/
theorem every_row_once_iff (h : RecordRun idx) :
    (∀ r, r ∈ tableRows tag t (idx.getD []) ↔ r ∈ idx.getD [] ∧ r.toTableKey = t) ∧
      ((tableRows tag t (idx.getD [])).Pairwise fun a b => a.indexKey tag < b.indexKey tag) ∧
      (EveryRowOnce ctx t tag size idx ↔ idx ≠ none ∧
        (tableRows tag t (idx.getD []) = [] ∨ t.table ≤ 1) ∧
        ((tableRows tag t (idx.getD [])).length ≤ 1 ∨
          ∀ r ∈ tableRows tag t (idx.getD []), NoZero r.keys)) := by
  have hok := h.rowsOk
  refine ⟨fun r => mem_tableRows, tableRows_sorted hok, ?_⟩
  cases idx with
  | none =>
    refine ⟨fun hrows => ?_, fun hrows => absurd rfl hrows.1⟩
    have hfront := hrows.forward
    simp [RecordIndex.frontRecord, getIndex, requireScope_ok hscope, bind, Except.bind, tableRows, byTag,
      index] at hfront
    cases hfront
  | some rows =>
    have hok' : RowsOk rows := hok
    rw [← forall_dropLast_iff]
    constructor
    · intro hrows
      have hforward := (forward_iff hscope hok').1 hrows.forward
      have hbackward := (backward_iff hscope hok').1 hrows.backward
      exact ⟨by simp, hbackward.1, hforward, hbackward.2⟩
    · rintro ⟨-, htable, hforward, hbackward⟩
      exact ⟨(forward_iff hscope hok').2 hforward, (backward_iff hscope hok').2 ⟨htable, hbackward⟩,
        lowerBoundRecord_eq hscope hok', upperBoundRecord_eq hscope hok'⟩

omit hscope

/-- A row of code 7 in table 1. -/
def rowOfTableOne (keys : type.Keys) : RowKey type := ⟨⟨1, 7, 1⟩, keys⟩

theorem every_row_once_tableOne :
    EveryRowOnce inScopeOne ⟨1, 7, 1⟩ (.primary .keyValue) 8 (some [⟨rowOfTableOne 5, [9]⟩]) := by
  have hstored : (RecordCall.store (rowOfTableOne 5) [9]).run inScopeOne (systemIndex .keyValue)
      = .ok (some [⟨rowOfTableOne 5, [9]⟩], .size none) := by decide
  have hrun := RecordRun.call (.start _ fun rows hrows => (Option.some.inj hrows).symm) hstored
  exact (every_row_once_iff (by decide) hrun).2.2.2 ⟨by simp, .inr le_rfl, .inl (by decide)⟩

/-- The back of table 3 is not found, and no row after a string that has a zero byte. -/
theorem rows_not_visited :
    (∃ idx : RecordIndex .keyValue, RecordRun idx ∧
      ¬ EveryRowOnce inScopeOne ⟨1, 7, 3⟩ (.primary _) 8 idx) ∧
    ∃ idx : RecordIndex .keystrValue, RecordRun idx ∧
      ¬ EveryRowOnce inScopeOne ⟨1, 7, 1⟩ (.primary _) 8 idx := by
  have hempty : ∀ {type : ObjectType}, RecordRun (some [] : RecordIndex type) :=
    .start _ fun rows hrows => (Option.some.inj hrows).symm
  constructor
  · have hstored : (RecordCall.store (rowOfSeven 5) [9]).run inScopeOne (some [] : RecordIndex .keyValue)
        = .ok (some [⟨rowOfSeven 5, [9]⟩], .size none) := by decide
    refine ⟨_, hempty.call hstored, fun hrows => ?_⟩
    have hback : RecordIndex.backRecord inScopeOne ⟨1, 7, 3⟩ (.primary .keyValue) 8
        (some [⟨rowOfSeven 5, [9]⟩]) = .ok none := by decide
    have hbackward := hrows.backward
    rw [hback] at hbackward
    cases hbackward
  · have hstored : (RecordCall.store (rowOfTableOne [97, 0]) [8]).run inScopeOne
        (some [] : RecordIndex .keystrValue)
        = .ok (some [⟨rowOfTableOne [97, 0], [8]⟩], .size none) := by decide
    have hstored' : (RecordCall.store (rowOfTableOne [98]) [9]).run inScopeOne
        (some [⟨rowOfTableOne [97, 0], [8]⟩] : RecordIndex .keystrValue)
        = .ok (some [⟨rowOfTableOne [97, 0], [8]⟩, ⟨rowOfTableOne [98], [9]⟩], .size none) := by
      decide
    have hrun := (hempty.call hstored).call hstored'
    refine ⟨_, hrun, fun hrows => ?_⟩
    have hclear : (0 : ℕ) ∉ [97, 0] :=
      (forward_iff (by decide) hrun.rowsOk).1 hrows.forward ⟨rowOfTableOne [97, 0], [8]⟩
        (by decide)
    exact hclear (by decide)

end EveryRow

end XmaxChain
