import XmaxChain.RecordStore

/-!
# A page of a table

`get_table_rows` shows the rows of a table from one key to below another, up to a limit, and says whether there are
more. It goes from one iterator towards another, and what says that there are more is where it has stopped.
-/

namespace XmaxChain

open CompositeIndex

/-! ## The call -/

section Call

variable {type : ObjectType} {V : Type}

/-- `key_type`, of which a bound is one. -/
abbrev ObjectType.BoundKey : ObjectType → Type
  | .keystrValue => Bytes
  | .keyValue | .key128x128Value | .key128x128x128Value => Uint128

def boundPart : {type : ObjectType} → type.BoundKey → KeyPart
  | .keyValue, k => num k
  | .keystrValue, k => cstr k
  | .key128x128Value, k => num k
  | .key128x128x128Value, k => num k

/-- The bounds are the keys that their texts stand for, and an empty text is no bound. -/
structure GetTableRowsParams (type : ObjectType) extends TableKey where
  json : Bool := false
  lowerBound : Option type.BoundKey := none
  upperBound : Option type.BoundKey := none
  limit : ℕ := 10

structure GetTableRowsResult (V : Type) where
  rows : List V
  more : Bool
deriving DecidableEq

namespace GetTableRowsParams

variable (p : GetTableRowsParams type)

def lowerTuple : List KeyPart :=
  match p.lowerBound with
  | none => p.tuple
  | some k => p.tuple ++ [boundPart k]

/-- The table after this one, by its name. -/
def nextTable : TableKey := { p.toTableKey with table := u128 (p.table + 1) }

/-- A row before the iterator that the page begins at, and one before the iterator that it is to end at. -/
def beforeLower (r : RecordObject type) : Bool := below (r.indexKey (.primary type)) p.lowerTuple

def beforeUpper (r : RecordObject type) : Bool :=
  match p.upperBound with
  | none => !below p.nextTable.tuple (r.indexKey (.primary type))
  | some k => below (r.indexKey (.primary type)) (p.tuple ++ [boundPart k])

def lower (idx : List (RecordObject type)) : ℕ := (idx.takeWhile p.beforeLower).length

def upper (idx : List (RecordObject type)) : ℕ := (idx.takeWhile p.beforeUpper).length

end GetTableRowsParams

variable (rowVariant : Bool → RecordObject type → Except Fault V) (p : GetTableRowsParams type)

/-- The loop over the rows from an iterator on, while the ten milliseconds are not over. It returns where the iterator
is then. -/
def pageLoop (upper : ℕ) : List (RecordObject type) → (itr count : ℕ) → Except Fault (List V × ℕ)
  | [], itr, _ => if itr = upper then .ok ([], itr) else .error (.undefined "itr past the end")
  | r :: rest, itr, count =>
    if itr ≠ upper ∧ r.table = p.table then do
      let row ← rowVariant p.json r
      if u32 (count + 1) = p.limit then pure ([row], itr)
      else do
        let (rows, last) ← pageLoop upper rest (itr + 1) (u32 (count + 1))
        pure (row :: rows, last)
    else .ok ([], itr)

/-- Nothing is written to `more` before the loop, so it is what the memory was. How a row is shown rests on how its
numbers lie in memory and on the format of the table, and it may be an exception. -/
def getTableRowsEx (more : Bool) (idx : RecordIndex type) : Except Fault (GetTableRowsResult V) := do
  let rows ← getIndex idx
  let idx := byTag (.primary type) rows
  let (rows, itr) ← pageLoop rowVariant p (p.upper idx) (idx.drop (p.lower idx)) (p.lower idx) 0
  pure ⟨rows, if itr ≠ p.upper idx then true else more⟩

end Call

/-! ## The loop -/

section Loop

variable {type : ObjectType} {V : Type} {rowVariant : Bool → RecordObject type → Except Fault V}
  {p : GetTableRowsParams type} {upper itr count last : ℕ} {front rest : List (RecordObject type)}

/-- The iterator moves over a row only when the row has been taken. -/
theorem pageLoop_last (h : pageLoop rowVariant p upper rest itr count = .ok ([], last)) : last = itr := by
  cases rest with
  | nil =>
    rw [pageLoop] at h
    split_ifs at h with hend
    cases h
    rfl
  | cons r rest =>
    rw [pageLoop] at h
    split_ifs at h with htake hcount
    · cases hrow : rowVariant p.json r <;> simp [hrow] at h
    · cases hrow : rowVariant p.json r with
      | error e => simp [hrow] at h; cases h
      | ok row =>
        cases hrest : pageLoop rowVariant p upper rest (itr + 1) (u32 (count + 1)) with
        | error e => simp [hrow, hrest] at h; cases h
        | ok found => simp [hrow, hrest] at h; cases h
    · cases h
      rfl

theorem pageLoop_end : pageLoop rowVariant p upper rest upper count = .ok ([], upper) := by
  cases rest <;> simp [pageLoop]

/-- The rows of the table that are in front of the upper iterator, and fewer than the limit, are all taken. -/
theorem pageLoop_append (htable : ∀ r ∈ front, r.table = p.table) (hupper : ∀ i < front.length, itr + i ≠ upper)
    (hcount : count + front.length < p.limit) (hlimit : p.limit < 2 ^ 32) :
    pageLoop rowVariant p upper (front ++ rest) itr count = (do
      let rows ← front.mapM (rowVariant p.json)
      let (later, last) ← pageLoop rowVariant p upper rest (itr + front.length) (count + front.length)
      pure (rows ++ later, last)) := by
  induction front generalizing itr count with
  | nil => simp
  | cons r front ih =>
    obtain ⟨hr, hfront⟩ := List.forall_mem_cons.1 htable
    rw [List.length_cons] at hcount
    have hitr : itr ≠ upper := hupper 0 (by simp)
    have hsmall : u32 (count + 1) = count + 1 := Nat.mod_eq_of_lt (by omega)
    have hlater : ∀ i < front.length, itr + 1 + i ≠ upper := fun i hi => by
      simpa [Nat.add_assoc, Nat.add_comm 1] using hupper (i + 1) (by simpa using hi)
    have hnext := ih hfront hlater (show count + 1 + front.length < p.limit by omega)
    have hshort : count + 1 ≠ p.limit := by omega
    rw [List.cons_append, pageLoop, if_pos ⟨hitr, hr⟩, hsmall]
    simp only [if_neg hshort, hnext]
    simp [Nat.add_assoc, Nat.add_comm 1, List.mapM_cons]

/-- The row that makes the limit full is taken, and the iterator stays at it. -/
theorem pageLoop_full {r : RecordObject type} (htable : r.table = p.table) (hupper : itr ≠ upper)
    (hcount : count + 1 = p.limit) (hlimit : p.limit < 2 ^ 32) :
    pageLoop rowVariant p upper (r :: rest) itr count = (do
      let row ← rowVariant p.json r
      pure ([row], itr)) := by
  have hfull : u32 (count + 1) = p.limit := by rw [hcount]; exact Nat.mod_eq_of_lt hlimit
  rw [pageLoop, if_pos ⟨hupper, htable⟩]
  simp only [if_pos hfull]

end Loop

/-! ## The rows in range -/

section Range

variable {type : ObjectType}

/-- The key that the bounds are about. -/
def primaryPart : {type : ObjectType} → type.Keys → KeyPart
  | .keyValue, k => num k
  | .keystrValue, k => cstr k
  | .key128x128Value, k => num k.1
  | .key128x128x128Value, k => num k.1

def otherParts : {type : ObjectType} → type.Keys → List KeyPart
  | .keyValue, _ => []
  | .keystrValue, _ => []
  | .key128x128Value, k => [num k.2]
  | .key128x128x128Value, k => [num k.2.1, num k.2.2]

theorem tuple_length_eq (a b : TableKey) : a.tuple.length = b.tuple.length := rfl

theorem indexTuple_eq (keys : type.Keys) :
    indexTuple (.primary type) keys = primaryPart keys :: otherParts keys := by
  cases type <;> rfl

namespace GetTableRowsParams

variable (p : GetTableRowsParams type)

/-- What the page is to show. -/
def InRange (r : RecordObject type) : Prop :=
  r.toTableKey = p.toTableKey ∧ (∀ k ∈ p.lowerBound, boundPart k ≤ primaryPart r.keys) ∧
    ∀ k ∈ p.upperBound, primaryPart r.keys < boundPart k

instance : DecidablePred p.InRange := fun r => by unfold InRange; infer_instance

def rowsInRange (rows : List (RecordObject type)) : List (RecordObject type) :=
  (byTag (.primary type) rows).filter fun r => p.InRange r

variable {p} {r r' : RecordObject type}

theorem below_bound_iff {b : KeyPart} : below (r.indexKey (.primary type)) (p.tuple ++ [b]) = true ↔
    below r.tuple p.tuple = true ∨ r.toTableKey = p.toTableKey ∧ primaryPart r.keys < b := by
  rw [RowKey.indexKey, below_append_iff (tuple_length_eq _ _), tuple_inj, indexTuple_eq, below_cons, below_nil]
  simp

theorem beforeLower_iff : p.beforeLower r = true ↔ below r.tuple p.tuple = true ∨
    r.toTableKey = p.toTableKey ∧ ∃ k ∈ p.lowerBound, primaryPart r.keys < boundPart k := by
  rw [beforeLower, lowerTuple]
  cases p.lowerBound with
  | none =>
    have happend := below_append_iff (u := indexTuple (.primary type) r.keys) (v := [])
      (tuple_length_eq r.toTableKey p.toTableKey)
    simpa [RowKey.indexKey] using happend
  | some k => simp [below_bound_iff]

theorem beforeLower_eq_false (h : p.InRange r) : p.beforeLower r = false := by
  obtain ⟨htable, hlower, -⟩ := h
  rw [← Bool.not_eq_true, beforeLower_iff]
  rintro (hbelow | ⟨-, k, hk, hlt⟩)
  · rw [htable, below_self] at hbelow
    cases hbelow
  · exact absurd hlt (not_lt.2 (hlower k hk))

/-- The rows in range are all before the upper iterator, or none of them is. -/
theorem beforeUpper_alike (h : p.InRange r) (h' : p.InRange r') : p.beforeUpper r = p.beforeUpper r' := by
  cases hupper : p.upperBound with
  | none =>
    have hof : ∀ {r : RecordObject type}, p.InRange r → p.beforeUpper r = !below p.nextTable.tuple p.tuple := by
      intro r hr
      have happend := below_append_iff (u := []) (v := indexTuple (.primary type) r.keys)
        (tuple_length_eq p.nextTable r.toTableKey)
      rw [beforeUpper, hupper, Bool.not_inj_iff, Bool.eq_iff_iff, ← hr.1]
      simpa [RowKey.indexKey] using happend
    rw [hof h, hof h']
  | some k =>
    have hof : ∀ {r : RecordObject type}, p.InRange r → p.beforeUpper r = true := by
      intro r hr
      rw [beforeUpper, hupper]
      exact below_bound_iff.2 (.inr ⟨hr.1, hr.2.2 k hupper⟩)
    rw [hof h, hof h']

/-! In the index the rows before the page, the rows before or in it, and the rows before the upper iterator are each a
beginning. -/

variable {rows : List (RecordObject type)}

theorem beforeLower_falling (h : RowsOk rows) : (byTag (.primary type) rows).Pairwise fun a b =>
    p.beforeLower b = true → p.beforeLower a = true :=
  (h.sorted (.primary type)).below.imp fun hab hb => below_trans hab hb

theorem beforeUpper_falling (h : RowsOk rows) : (byTag (.primary type) rows).Pairwise fun a b =>
    p.beforeUpper b = true → p.beforeUpper a = true := by
  refine (h.sorted (.primary type)).below.imp fun {a b} hab hb => ?_
  unfold beforeUpper at hb ⊢
  cases hupper : p.upperBound with
  | none =>
    simp only [hupper, Bool.not_eq_true'] at hb ⊢
    exact Bool.not_eq_true _ ▸ fun hnext => by simp [below_trans hnext hab] at hb
  | some k =>
    simp only [hupper] at hb ⊢
    exact below_trans hab hb

def reached (p : GetTableRowsParams type) (r : RecordObject type) : Bool := p.beforeLower r || p.InRange r

theorem reached_of_below (hbelow : below (r.indexKey (.primary type)) (r'.indexKey (.primary type)) = true)
    (h : p.reached r' = true) : p.reached r = true := by
  rw [reached, Bool.or_eq_true, decide_eq_true_iff] at h ⊢
  obtain hlower | hrange := h
  · exact .inl (below_trans hbelow hlower)
  rw [RowKey.indexKey, RowKey.indexKey, below_append_iff (tuple_length_eq _ _), tuple_inj] at hbelow
  obtain hbelow | ⟨htable, hkeys⟩ := hbelow
  · exact .inl (beforeLower_iff.2 (.inl (hrange.1 ▸ hbelow)))
  rw [indexTuple_eq, indexTuple_eq, below_cons] at hkeys
  have hle : primaryPart r.keys ≤ primaryPart r'.keys := hkeys.elim le_of_lt fun hkeys => hkeys.1.le
  have hsame : r.toTableKey = p.toTableKey := htable.trans hrange.1
  by_cases hlower : p.beforeLower r = true
  · exact .inl hlower
  · refine .inr ⟨hsame, fun k hk => not_lt.1 fun hlt => ?_, fun k hk => hle.trans_lt (hrange.2.2 k hk)⟩
    exact hlower (beforeLower_iff.2 (.inr ⟨hsame, k, hk, hlt⟩))

theorem reached_falling (h : RowsOk rows) : (byTag (.primary type) rows).Pairwise fun a b =>
    p.reached b = true → p.reached a = true :=
  (h.sorted (.primary type)).below.imp fun hab hb => reached_of_below hab hb

theorem takeWhile_reached (h : RowsOk rows) : (byTag (.primary type) rows).takeWhile p.reached
    = (byTag (.primary type) rows).takeWhile p.beforeLower ++ p.rowsInRange rows := by
  have hreached : ∀ r ∈ byTag (.primary type) rows, p.beforeLower r = true → p.reached r = true := fun r _ hr => by
    simp [reached, hr]
  rw [takeWhile_eq_append (beforeLower_falling h) (reached_falling h) hreached]
  congr 1
  refine List.filter_congr fun r _ => ?_
  by_cases hr : p.InRange r <;> simp [reached, hr, beforeLower_eq_false]

theorem lower_add_length (h : RowsOk rows) : p.lower (byTag (.primary type) rows) + (p.rowsInRange rows).length
    = ((byTag (.primary type) rows).takeWhile p.reached).length := by
  rw [takeWhile_reached h, List.length_append, lower]

/-- From the iterator that the page begins at on, first come the rows in range. -/
theorem drop_lower (h : RowsOk rows) : (byTag (.primary type) rows).drop (p.lower (byTag (.primary type) rows))
    = p.rowsInRange rows ++ (byTag (.primary type) rows).dropWhile p.reached := by
  have hsplit := List.takeWhile_append_dropWhile (p := p.reached) (l := byTag (.primary type) rows)
  rw [takeWhile_reached h, List.append_assoc] at hsplit
  rw [lower]
  nth_rewrite 2 [← hsplit]
  exact List.drop_left

/-- The upper iterator is not within the rows in range. -/
theorem upper_outside (h : RowsOk rows) :
    p.upper (byTag (.primary type) rows) ≤ p.lower (byTag (.primary type) rows) ∨
      p.lower (byTag (.primary type) rows) + (p.rowsInRange rows).length ≤ p.upper (byTag (.primary type) rows) := by
  have hplace : ∀ {i : ℕ} {r : RecordObject type}, (p.rowsInRange rows)[i]? = some r →
      (p.beforeUpper r = true ↔ p.lower (byTag (.primary type) rows) + i < p.upper (byTag (.primary type) rows)) := by
    intro i r hr
    refine getElem?_takeWhile_iff (beforeUpper_falling h) ?_
    rw [← List.getElem?_drop, drop_lower h, List.getElem?_append_left (List.getElem?_eq_some_iff.1 hr).1, hr]
  obtain hnone | hsome := Nat.eq_zero_or_pos (p.rowsInRange rows).length
  · rw [hnone]
    exact le_total _ _
  have hfirst := List.getElem?_eq_getElem hsome
  have hlast := List.getElem?_eq_getElem (Nat.sub_lt hsome one_pos)
  have hin : ∀ {i : ℕ} {r : RecordObject type}, (p.rowsInRange rows)[i]? = some r → p.InRange r := fun hr => by
    simpa using (List.mem_filter.1 (List.mem_of_getElem? hr)).2
  have halike := beforeUpper_alike (hin hfirst) (hin hlast)
  rw [Bool.eq_iff_iff, hplace hfirst, hplace hlast] at halike
  omega

end GetTableRowsParams

end Range

/-! ## The page -/

section Page

variable {type : ObjectType} {V : Type} (rowVariant : Bool → RecordObject type → Except Fault V)
  (p : GetTableRowsParams type) (more : Bool)

theorem mapM_length {α β ε : Type} {f : α → Except ε β} {xs : List α} {ys : List β} (h : xs.mapM f = .ok ys) :
    ys.length = xs.length := by
  induction xs generalizing ys with
  | nil =>
    cases h
    rfl
  | cons x xs ih =>
    rw [List.mapM_cons] at h
    obtain ⟨y, -, h⟩ := bind_eq_ok.1 h
    obtain ⟨rest, hrest, h⟩ := bind_eq_ok.1 h
    cases h
    rw [List.length_cons, List.length_cons, ih hrest]

variable {rows : List (RecordObject type)}

theorem getTableRowsEx_some (h : RowsOk rows) : getTableRowsEx rowVariant p more (some rows) = (do
    let (shown, last) ← pageLoop rowVariant p (p.upper (byTag (.primary type) rows))
      (p.rowsInRange rows ++ (byTag (.primary type) rows).dropWhile p.reached) (p.lower (byTag (.primary type) rows)) 0
    pure ⟨shown, if last ≠ p.upper (byTag (.primary type) rows) then true else more⟩) := by
  rw [← GetTableRowsParams.drop_lower h]
  rfl

/-- Where the iterators are the same the loop is not entered. -/
theorem getTableRowsEx_empty (h : RowsOk rows)
    (hsame : p.upper (byTag (.primary type) rows) = p.lower (byTag (.primary type) rows)) :
    getTableRowsEx rowVariant p more (some rows) = .ok ⟨[], more⟩ := by
  rw [getTableRowsEx_some rowVariant p more h, hsame, pageLoop_end]
  simp [bind, Except.bind, pure, Except.pure]

variable {p} in
theorem table_of_mem {r : RecordObject type} (hr : r ∈ p.rowsInRange rows) : r.table = p.table := by
  have hin : p.InRange r := by simpa using (List.mem_filter.1 hr).2
  exact congrArg TableKey.table hin.1

/-- Where the rows fill the page it stops at the last that it shows, unless the iterators were the same. -/
theorem getTableRowsEx_full (h : RowsOk rows) (hlimit : 1 ≤ p.limit) (hword : p.limit < 2 ^ 32)
    (hne : p.upper (byTag (.primary type) rows) ≠ p.lower (byTag (.primary type) rows))
    (hfull : p.limit ≤ (p.rowsInRange rows).length) :
    getTableRowsEx rowVariant p more (some rows) = (do
      let shown ← ((p.rowsInRange rows).take p.limit).mapM (rowVariant p.json)
      pure ⟨shown, true⟩) := by
  have hout := GetTableRowsParams.upper_outside (p := p) h
  obtain ⟨k, hk⟩ : ∃ k, p.limit = k + 1 := ⟨p.limit - 1, by omega⟩
  obtain ⟨front, r, rest, hrows, rfl⟩ : ∃ front r rest, p.rowsInRange rows = front ++ r :: rest ∧ front.length = k := by
    have hlast : k < (p.rowsInRange rows).length := by omega
    refine ⟨(p.rowsInRange rows).take k, (p.rowsInRange rows)[k], (p.rowsInRange rows).drop (k + 1), ?_,
      List.length_take_of_le hlast.le⟩
    rw [List.cons_getElem_drop_succ, List.take_append_drop]
  have htable : ∀ r' ∈ front ++ r :: rest, r'.table = p.table := fun r' hr' => table_of_mem (hrows ▸ hr')
  have htake : (front ++ r :: rest).take p.limit = front ++ [r] := by
    rw [hk, List.take_length_add_append, List.take_succ_cons, List.take_zero]
  rw [hrows, List.length_append, List.length_cons] at hout hfull
  have hshort : p.lower (byTag (.primary type) rows) + front.length ≠ p.upper (byTag (.primary type) rows) := by omega
  rw [getTableRowsEx_some rowVariant p more h, hrows, htake, List.append_assoc,
    pageLoop_append (fun r' hr' => htable r' (by simp [hr'])) (fun i hi => by omega) (by omega) hword, List.cons_append,
    pageLoop_full (htable r (by simp)) hshort (by omega) hword]
  simp [hshort, List.mapM_append]

/-- Where they do not, what says whether there are more rows is where it stops behind them. -/
theorem getTableRowsEx_short (h : RowsOk rows) (hword : p.limit < 2 ^ 32)
    (hout : ∀ i < (p.rowsInRange rows).length,
      p.lower (byTag (.primary type) rows) + i ≠ p.upper (byTag (.primary type) rows))
    (hshort : (p.rowsInRange rows).length < p.limit) :
    getTableRowsEx rowVariant p more (some rows) = (do
      let shown ← (p.rowsInRange rows).mapM (rowVariant p.json)
      let (later, last) ← pageLoop rowVariant p (p.upper (byTag (.primary type) rows))
        ((byTag (.primary type) rows).dropWhile p.reached)
        (p.lower (byTag (.primary type) rows) + (p.rowsInRange rows).length) (p.rowsInRange rows).length
      pure ⟨shown ++ later, if last ≠ p.upper (byTag (.primary type) rows) then true else more⟩) := by
  rw [getTableRowsEx_some rowVariant p more h, pageLoop_append (fun r hr => table_of_mem hr) hout (by omega) hword]
  simp

/-- The page is the first of the rows in range, up to the limit, and says whether there are more of them. -/
def PagesExactly (idx : RecordIndex type) : Prop :=
  ∃ shown found, getTableRowsEx rowVariant p more idx = .ok ⟨shown, found⟩ ∧
    ((p.rowsInRange (idx.getD [])).take p.limit).mapM (rowVariant p.json) = .ok shown ∧
    (found = true ↔ p.limit < (p.rowsInRange (idx.getD [])).length)

variable {rowVariant p more}

theorem pagesExactly_of_full (h : RowsOk rows) (hlimit : 1 ≤ p.limit) (hword : p.limit < 2 ^ 32)
    (hfull : p.limit ≤ (p.rowsInRange rows).length) :
    PagesExactly rowVariant p more (some rows) ↔
      (∃ shown, ((p.rowsInRange rows).take p.limit).mapM (rowVariant p.json) = .ok shown) ∧
      p.limit < (p.rowsInRange rows).length ∧
      p.upper (byTag (.primary type) rows) ≠ p.lower (byTag (.primary type) rows) := by
  have hlength := List.length_take_of_le hfull
  by_cases hne : p.upper (byTag (.primary type) rows) = p.lower (byTag (.primary type) rows)
  · refine ⟨fun ⟨shown, found, hrun, hshown, _⟩ => ?_, fun hcond => absurd hne hcond.2.2⟩
    rw [getTableRowsEx_empty rowVariant p more h hne] at hrun
    cases hrun
    have hshort := mapM_length hshown
    rw [Option.getD_some, hlength, List.length_nil] at hshort
    omega
  · rw [PagesExactly, getTableRowsEx_full rowVariant p more h hlimit hword hne hfull, Option.getD_some]
    constructor
    · rintro ⟨shown, found, hrun, hshown, hfound⟩
      rw [hshown] at hrun
      cases hrun
      exact ⟨⟨shown, hshown⟩, hfound.1 rfl, hne⟩
    · rintro ⟨⟨shown, hshown⟩, hmore, -⟩
      refine ⟨shown, true, ?_, hshown, by simpa using hmore⟩
      rw [hshown]
      rfl

theorem pagesExactly_of_short (h : RowsOk rows) (hword : p.limit < 2 ^ 32)
    (hshort : (p.rowsInRange rows).length < p.limit) :
    PagesExactly rowVariant p more (some rows) ↔
      (∃ shown, ((p.rowsInRange rows).take p.limit).mapM (rowVariant p.json) = .ok shown) ∧ more = false ∧
      p.upper (byTag (.primary type) rows)
        = p.lower (byTag (.primary type) rows) + (p.rowsInRange rows).length := by
  have hout := GetTableRowsParams.upper_outside (p := p) h
  rw [PagesExactly, Option.getD_some, List.take_of_length_le hshort.le]
  by_cases hend : p.upper (byTag (.primary type) rows)
      = p.lower (byTag (.primary type) rows) + (p.rowsInRange rows).length
  · have hpage : ∀ shown, (p.rowsInRange rows).mapM (rowVariant p.json) = .ok shown →
        getTableRowsEx rowVariant p more (some rows) = .ok ⟨shown, more⟩ := by
      intro shown hshown
      rw [getTableRowsEx_short rowVariant p more h hword (fun i hi => by omega) hshort, hend, pageLoop_end, hshown]
      simp [pure, Except.pure, bind, Except.bind]
    constructor
    · rintro ⟨shown, found, hrun, hshown, hfound⟩
      rw [hpage shown hshown] at hrun
      cases hrun
      exact ⟨⟨shown, hshown⟩, Bool.eq_false_iff.2 fun hmore => absurd (hfound.1 hmore) hshort.not_gt, hend⟩
    · rintro ⟨⟨shown, hshown⟩, rfl, -⟩
      exact ⟨shown, false, hpage shown hshown, hshown, by simpa using hshort.le⟩
  · refine ⟨fun ⟨shown, found, hrun, hshown, hfound⟩ => ?_, fun hcond => absurd hcond.2.2 hend⟩
    have hnot : found = false := Bool.eq_false_iff.2 fun hmore => absurd (hfound.1 hmore) hshort.not_gt
    have hlength := mapM_length hshown
    by_cases hne : p.upper (byTag (.primary type) rows) = p.lower (byTag (.primary type) rows)
    · rw [getTableRowsEx_empty rowVariant p more h hne] at hrun
      cases hrun
      rw [List.length_nil] at hlength
      omega
    · -- Behind the rows in range it is not at its end, and if it takes no more rows it stays there.
      rw [getTableRowsEx_short rowVariant p more h hword (fun i hi => by omega) hshort, hshown] at hrun
      obtain ⟨_, hsame, hrun⟩ := bind_eq_ok.1 hrun
      cases hsame
      obtain ⟨⟨later, last⟩, hrest, hrun⟩ := bind_eq_ok.1 hrun
      simp only [pure, Except.pure, Except.ok.injEq, GetTableRowsResult.mk.injEq, List.append_right_eq_self] at hrun
      obtain ⟨rfl, hflag⟩ := hrun
      rw [pageLoop_last hrest, if_pos (Ne.symm hend)] at hflag
      rw [← hflag] at hnot
      cases hnot

theorem upper_ne_lower_iff (h : RowsOk rows) :
    p.upper (byTag (.primary type) rows) ≠ p.lower (byTag (.primary type) rows) ↔
      ∃ r ∈ rows, ¬(p.beforeUpper r = true ↔ p.beforeLower r = true) := by
  rw [Ne, GetTableRowsParams.upper, GetTableRowsParams.lower, takeWhile_length_eq_iff
    (GetTableRowsParams.beforeUpper_falling h) (GetTableRowsParams.beforeLower_falling h)]
  simp [byTag, mem_index]

theorem upper_eq_end_iff (h : RowsOk rows) :
    p.upper (byTag (.primary type) rows) = p.lower (byTag (.primary type) rows) + (p.rowsInRange rows).length ↔
      ∀ r ∈ rows, (p.beforeUpper r = true ↔ p.beforeLower r = true ∨ p.InRange r) := by
  rw [GetTableRowsParams.lower_add_length h, GetTableRowsParams.upper, takeWhile_length_eq_iff
    (GetTableRowsParams.beforeUpper_falling h) (GetTableRowsParams.reached_falling h)]
  simp [byTag, mem_index, GetTableRowsParams.reached]

/-- The page is exact if its rows can be shown and either there are more and the iterators are not the same, or there
is room for more, what `more` was in memory is false, and the upper iterator is right behind the rows in range. -/
theorem table_paging_iff {idx : RecordIndex type} (h : ∀ rows, idx = some rows → RowsOk rows) (hlimit : 1 ≤ p.limit)
    (hword : p.limit < 2 ^ 32) :
    PagesExactly rowVariant p more idx ↔ ∃ rows, idx = some rows ∧
      (∃ shown, ((p.rowsInRange rows).take p.limit).mapM (rowVariant p.json) = .ok shown) ∧
      (p.limit < (p.rowsInRange rows).length ∧ (∃ r ∈ rows, ¬(p.beforeUpper r = true ↔ p.beforeLower r = true)) ∨
        (p.rowsInRange rows).length < p.limit ∧ more = false ∧
          ∀ r ∈ rows, (p.beforeUpper r = true ↔ p.beforeLower r = true ∨ p.InRange r)) := by
  cases idx with
  | none =>
    refine ⟨fun ⟨_, _, hrun, _⟩ => ?_, fun ⟨_, hrows, _⟩ => ?_⟩
    · cases hrun
    · cases hrows
  | some rows =>
    have hrows := h rows rfl
    simp only [Option.some.injEq, exists_eq_left', ← upper_ne_lower_iff hrows, ← upper_eq_end_iff hrows]
    obtain hshort | hfull := lt_or_ge (p.rowsInRange rows).length p.limit
    · rw [pagesExactly_of_short hrows hword hshort]
      simp [hshort, hshort.not_gt]
    · rw [pagesExactly_of_full hrows hlimit hword hfull]
      simp [hfull.not_gt]

end Page

/-! ## Pages of a table of strings -/

section Pages

/-- A table of three rows, with the keys "a", "b" and "c". -/
def threeRows : List (RecordObject .keystrValue) :=
  [⟨⟨⟨1, 2, 3⟩, [97]⟩, [1]⟩, ⟨⟨⟨1, 2, 3⟩, [98]⟩, [2]⟩, ⟨⟨⟨1, 2, 3⟩, [99]⟩, [3]⟩]

/-- A call for the table from one key to below another, where a row is shown as its value. -/
def pageOf (lowerBound upperBound : Option Bytes) (limit : ℕ) : GetTableRowsParams .keystrValue :=
  { scope := 1, code := 2, table := 3, lowerBound, upperBound, limit }

def rowValue {type : ObjectType} (_ : Bool) (r : RecordObject type) : Except Fault Bytes := .ok r.value

theorem threeRows_ok : RowsOk threeRows where
  indexed := fun | .primary _ => by decide
  found := by decide

theorem table_paging_two : PagesExactly rowValue (pageOf none none 2) true (some threeRows) :=
  (table_paging_iff (fun _ hrows => Option.some.inj hrows ▸ threeRows_ok) (by decide) (by decide)).2
    ⟨threeRows, rfl, ⟨[[1], [2]], by decide⟩, .inl (by decide)⟩

/-- A page that the rows just fill says that there are more, one with no rows says what was in memory, one before a row
of the next table says that there are more, and one with its bounds crossed goes on past the end of the index. -/
theorem page_not_exact :
    ¬ PagesExactly rowValue (pageOf none none 3) false (some threeRows) ∧
    ¬ PagesExactly rowValue (pageOf none (some [97]) 3) true (some threeRows) ∧
    ¬ PagesExactly rowValue (pageOf none none 5) false (some (⟨⟨⟨1, 2, 4⟩, [97]⟩, [4]⟩ :: threeRows)) ∧
    ¬ PagesExactly rowValue (pageOf (some [98]) (some [97]) 3) false (some threeRows) := by
  have hfit : getTableRowsEx rowValue (pageOf none none 3) false (some threeRows)
      = .ok ⟨[[1], [2], [3]], true⟩ := by decide
  have hempty : getTableRowsEx rowValue (pageOf none (some [97]) 3) true (some threeRows)
      = .ok ⟨[], true⟩ := by decide
  have hnext : getTableRowsEx rowValue (pageOf none none 5) false
      (some (⟨⟨⟨1, 2, 4⟩, [97]⟩, [4]⟩ :: threeRows)) = .ok ⟨[[1], [2], [3]], true⟩ := by decide
  have hcrossed : getTableRowsEx rowValue (pageOf (some [98]) (some [97]) 3) false (some threeRows)
      = .error (.undefined "itr past the end") := by decide
  refine ⟨fun ⟨_, _, hrun, _, hfound⟩ => ?_, fun ⟨_, _, hrun, _, hfound⟩ => ?_, fun ⟨_, _, hrun, _, hfound⟩ => ?_,
    fun ⟨_, _, hrun, _⟩ => ?_⟩
  · rw [hfit] at hrun
    cases hrun
    exact absurd (hfound.1 rfl) (by decide)
  · rw [hempty] at hrun
    cases hrun
    exact absurd (hfound.1 rfl) (by decide)
  · rw [hnext] at hrun
    cases hrun
    exact absurd (hfound.1 rfl) (by decide)
  · rw [hcrossed] at hrun
    cases hrun

end Pages

end XmaxChain
