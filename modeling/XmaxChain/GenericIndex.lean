import XmaxChain.Lib.Undo
import XmaxChain.BlockPack

/-!
# Objects with an undo log

An index keeps the objects of one type, each under an id that is given once, and no two with an equal
secondary key. A session does not copy the objects: it notes, for each one that it touches, what undoing
has to know. Undoing goes through these notes, and squashing merges the notes of two sessions.
-/

namespace XmaxChain

/-- The secondary keys of an object, each of which is unique. -/
structure Keys (V : Type) where
  number : ℕ
  Key : Fin number → Type
  decEq : ∀ i, DecidableEq (Key i)
  key : ∀ i, V → Key i

def Keys.Share {V : Type} (K : Keys V) (v w : V) : Prop := ∃ i, K.key i v = K.key i w

instance {V : Type} (K : Keys V) (v w : V) : Decidable (K.Share v w) :=
  haveI := K.decEq
  inferInstanceAs (Decidable (∃ i, K.key i v = K.key i w))

theorem Keys.Share.symm {V : Type} {K : Keys V} {v w : V} (h : K.Share v w) : K.Share w v := by
  obtain ⟨i, hi⟩ := h
  exact ⟨i, hi.symm⟩

/-! ## The container -/

/-- The objects by their ids. -/
abbrev Rows (V : Type) := Std.ExtTreeMap ℕ V

section Rows

variable {V : Type} (rows : Rows V) (k i : ℕ) (v : V)

theorem rows_insert : (rows.insert k v)[i]? = if k = i then some v else rows[i]? := by
  rw [Std.ExtTreeMap.getElem?_insert]
  simp only [Nat.compare_eq_eq]

theorem rows_insertIfNew :
    (rows.insertIfNew k v)[i]? = if k = i ∧ k ∉ rows then some v else rows[i]? := by
  rw [Std.ExtTreeMap.getElem?_insertIfNew]
  simp only [Nat.compare_eq_eq]

theorem rows_erase : (rows.erase k)[i]? = if k = i then none else rows[i]? := by
  rw [Std.ExtTreeMap.getElem?_erase]
  simp only [Nat.compare_eq_eq]

end Rows

/-- No two objects share a key. -/
structure MultiIndex {V : Type} (K : Keys V) where
  rows : Rows V
  unique : ∀ {i j : ℕ} {v w : V}, rows[i]? = some v → rows[j]? = some w → K.Share v w → i = j

namespace MultiIndex

variable {V : Type} {K : Keys V} (m : MultiIndex K)

theorem ext_rows {m m' : MultiIndex K} (h : ∀ i : ℕ, m.rows[i]? = m'.rows[i]?) : m = m' := by
  obtain ⟨rows, _⟩ := m
  obtain ⟨rows', _⟩ := m'
  have heq : rows = rows' := Std.ExtTreeMap.ext_getElem? h
  cases heq
  rfl

def empty : MultiIndex K := ⟨∅, fun h => by simp at h⟩

/-- Nothing but what has the id already is in the way of the object. -/
def Fits (id : ℕ) (v : V) : Prop := ∀ r ∈ m.rows.toList, K.Share v r.2 → r.1 = id

instance (id : ℕ) (v : V) : Decidable (m.Fits id v) :=
  inferInstanceAs (Decidable (∀ r ∈ m.rows.toList, K.Share v r.2 → r.1 = id))

theorem fits_iff {m : MultiIndex K} {id : ℕ} {v : V} :
    m.Fits id v ↔ ∀ {j : ℕ} {w : V}, m.rows[j]? = some w → K.Share v w → j = id := by
  constructor
  · intro h j w hj hshare
    exact h (j, w) (Std.ExtTreeMap.mem_toList_iff_getElem?_eq_some.2 hj) hshare
  · rintro h ⟨j, w⟩ hr hshare
    exact h (Std.ExtTreeMap.mem_toList_iff_getElem?_eq_some.1 hr) hshare

/-- The object under its id, new or in the place of the old one. -/
def place (id : ℕ) (v : V) (h : m.Fits id v) : MultiIndex K where
  rows := m.rows.insert id v
  unique := by
    intro i j x y hx hy hshare
    rw [rows_insert] at hx hy
    split_ifs at hx hy with hi hj hj
    · rw [← hi, ← hj]
    · cases hx
      rw [← hi]
      exact (fits_iff.1 h hy hshare).symm
    · cases hy
      rw [← hj]
      exact fits_iff.1 h hx hshare.symm
    · exact m.unique hx hy hshare

def erase (id : ℕ) : MultiIndex K where
  rows := m.rows.erase id
  unique := by
    intro i j x y hx hy hshare
    rw [rows_erase] at hx hy
    split_ifs at hx hy with hi hj
    exact m.unique hx hy hshare

def emplace? (id : ℕ) (v : V) : Option (MultiIndex K) :=
  if id ∈ m.rows then none
  else if h : m.Fits id v then some (m.place id v h)
  else none

/-- An object whose new value is in conflict is erased. -/
def modify? (id : ℕ) (v : V) : Option (MultiIndex K) :=
  if h : m.Fits id v then some (m.place id v h) else none

theorem emplace?_eq_some {m m' : MultiIndex K} {id : ℕ} {v : V} :
    m.emplace? id v = some m' ↔ m.rows[id]? = none ∧ ∃ h : m.Fits id v, m' = m.place id v h := by
  unfold emplace?
  split_ifs with hmem hfits
  · rw [Std.ExtTreeMap.mem_iff_isSome_getElem?] at hmem
    simp [Option.isSome_iff_ne_none.1 hmem]
  · simp [Std.ExtTreeMap.getElem?_eq_none hmem, hfits, eq_comm]
  · simp [hfits]

theorem modify?_eq_some {m m' : MultiIndex K} {id : ℕ} {v : V} :
    m.modify? id v = some m' ↔ ∃ h : m.Fits id v, m' = m.place id v h := by
  unfold modify?
  split_ifs with hfits
  · simp [hfits, eq_comm]
  · simp [hfits]

end MultiIndex

/-! ## Sessions -/

/-- What a session notes: what the objects that it modified were before, those that it removed, and the
ids of those that it created. -/
structure UndoState (V : Type) where
  oldValues : Rows V := ∅
  removedValues : Rows V := ∅
  newIds : Std.ExtTreeSet ℕ := ∅
  oldNextId : ℕ := 0
  revision : ℕ := 0

namespace UndoState

variable {V : Type} (head : UndoState V)

def onModify (id : ℕ) (v : V) : UndoState V :=
  if id ∈ head.newIds then head
  else if id ∈ head.oldValues then head
  else { head with oldValues := head.oldValues.insertIfNew id v }

def onRemove (id : ℕ) (v : V) : UndoState V :=
  if id ∈ head.newIds then { head with newIds := head.newIds.erase id }
  else
    match head.oldValues[id]? with
    | some old => { head with
        removedValues := head.removedValues.insertIfNew id old
        oldValues := head.oldValues.erase id }
    | none =>
      if id ∈ head.removedValues then head
      else { head with removedValues := head.removedValues.insertIfNew id v }

def onCreate (id : ℕ) : UndoState V := { head with newIds := head.newIds.insert id }

/-- The loops of `squash` over what the newer session has modified and removed. -/
def mergeOldValue (prev : UndoState V) (item : ℕ × V) : UndoState V :=
  if item.1 ∈ prev.newIds then prev
  else if item.1 ∈ prev.oldValues then prev
  else { prev with oldValues := prev.oldValues.insertIfNew item.1 item.2 }

def mergeRemovedValue (prev : UndoState V) (item : ℕ × V) : UndoState V :=
  if item.1 ∈ prev.newIds then { prev with newIds := prev.newIds.erase item.1 }
  else
    match prev.oldValues[item.1]? with
    | some old => { prev with
        removedValues := prev.removedValues.insertIfNew item.1 old
        oldValues := prev.oldValues.erase item.1 }
    | none => { prev with removedValues := prev.removedValues.insertIfNew item.1 item.2 }

def merge (prev state : UndoState V) : UndoState V :=
  let prev := state.oldValues.toList.foldl mergeOldValue prev
  let prev := state.newIds.toList.foldl onCreate prev
  state.removedValues.toList.foldl mergeRemovedValue prev

end UndoState

/-- The newest session is the first of the stack. -/
structure GenericIndex {V : Type} (K : Keys V) where
  indices : MultiIndex K := .empty
  nextId : ℕ := 0
  revision : ℕ := 0
  stack : List (UndoState V) := []

abbrev IndexM {V : Type} (K : Keys V) := EStateM Fault (GenericIndex K)

namespace GenericIndex

section Operations

variable {V : Type} {K : Keys V}

def onHead (f : UndoState V → UndoState V) (s : GenericIndex K) : GenericIndex K :=
  match s.stack with
  | [] => s
  | head :: below => { s with stack := f head :: below }

def emplace (v : V) : IndexM K ℕ := fun s =>
  match s.indices.emplace? s.nextId v with
  | none => .error (.std "could not insert object, most likely a uniqueness constraint was violated") s
  | some indices => .ok s.nextId
      (onHead (·.onCreate s.nextId) { s with indices, nextId := s.nextId + 1 })

def modifyRow (id : ℕ) (v : V) : IndexM K Unit := fun s =>
  match s.indices.modify? id v with
  | none => .error (.std "Could not modify object, most likely a uniqueness constraint was violated")
      { s with indices := s.indices.erase id }
  | some indices => .ok () { s with indices }

/-- The object that is modified or removed is one of the index. -/
def modify (id : ℕ) (m : V → V) : IndexM K Unit := fun s =>
  match s.indices.rows[id]? with
  | none => .error (.undefined "iterator_to") s
  | some v => modifyRow id (m v) (s.onHead (·.onModify id v))

def remove (id : ℕ) : IndexM K Unit := fun s =>
  match s.indices.rows[id]? with
  | none => .error (.undefined "iterator_to") s
  | some v => .ok () { s.onHead (·.onRemove id v) with indices := s.indices.erase id }

def startUndoSession (s : GenericIndex K) : GenericIndex K :=
  { s with
    revision := s.revision + 1
    stack := { oldNextId := s.nextId, revision := s.revision + 1 } :: s.stack }

def restoreOld : List (ℕ × V) → IndexM K Unit
  | [] => pure ()
  | item :: items => fun s =>
    match s.indices.rows[item.1]? with
    | none => .error (.undefined "_indices.end()") s
    | some _ =>
      match modifyRow item.1 item.2 s with
      | .error e s => .error e s
      | .ok _ s => restoreOld items s

def eraseNew : List ℕ → IndexM K Unit
  | [] => pure ()
  | id :: ids => fun s =>
    match s.indices.rows[id]? with
    | none => .error (.undefined "_indices.end()") s
    | some _ => eraseNew ids { s with indices := s.indices.erase id }

def restoreRemoved : List (ℕ × V) → IndexM K Unit
  | [] => pure ()
  | item :: items => fun s =>
    match s.indices.emplace? item.1 item.2 with
    | none => .error (.std "Could not restore object, most likely a uniqueness constraint was violated") s
    | some indices => restoreRemoved items { s with indices }

def setNextId (id : ℕ) : IndexM K Unit := fun s => .ok () { s with nextId := id }

def popBack (below : List (UndoState V)) : IndexM K Unit := fun s =>
  .ok () { s with stack := below, revision := s.revision - 1 }

def undo : IndexM K Unit := fun s =>
  match s.stack with
  | [] => .ok () s
  | head :: below => (do
      restoreOld head.oldValues.toList
      eraseNew head.newIds.toList
      setNextId head.oldNextId
      restoreRemoved head.removedValues.toList
      popBack below) s

/-- A session without one below it is only taken from the stack. -/
def squash (s : GenericIndex K) : GenericIndex K :=
  match s.stack with
  | [] => s
  | [_] => { s with stack := [] }
  | state :: prev :: below =>
    { s with stack := prev.merge state :: below, revision := s.revision - 1 }

def commit (revision : ℕ) (s : GenericIndex K) : GenericIndex K :=
  { s with stack := s.stack.rdropWhile (·.revision ≤ revision) }

end Operations

end GenericIndex

/-! ## What the notes say about an object -/

/-- What a session notes about one id. -/
structure Mark (V : Type) where
  isNew : Bool
  old : Option V
  removed : Option V

def UndoState.mark {V : Type} (st : UndoState V) (id : ℕ) : Mark V :=
  ⟨st.newIds.contains id, st.oldValues[id]?, st.removedValues[id]?⟩

/-- What an object was when the session began and what it is now, by what is noted about it. -/
inductive Track {V : Type} : Option V → Option V → Mark V → Prop
  | nop (was : Option V) : Track was was ⟨false, none, none⟩
  | upd (was now : V) : Track (some was) (some now) ⟨false, some was, none⟩
  | del (was : V) : Track (some was) none ⟨false, none, some was⟩
  | new (now : V) : Track none (some now) ⟨true, none, none⟩

namespace Mark

variable {V : Type} (mark : Mark V)

def onModify (v : V) : Mark V :=
  if mark.isNew then mark
  else if mark.old.isSome then mark
  else { mark with old := some v }

def onRemove (v : V) : Mark V :=
  if mark.isNew then { mark with isNew := false }
  else
    match mark.old with
    | some old => { mark with old := none, removed := mark.removed.or (some old) }
    | none => { mark with removed := mark.removed.or (some v) }

def onCreate : Mark V := { mark with isNew := true }

end Mark

section Track

variable {V : Type} {was now : Option V} {v w : V} {mark : Mark V}

theorem Track.create (h : Track none none mark) (v : V) : Track none (some v) mark.onCreate := by
  cases h
  exact .new v

theorem Track.modify (h : Track was (some v) mark) (w : V) : Track was (some w) (mark.onModify v) := by
  cases h with
  | nop => exact .upd v w
  | upd was => exact .upd was w
  | new => exact .new w

theorem Track.remove (h : Track was (some v) mark) : Track was none (mark.onRemove v) := by
  cases h with
  | nop => exact .del v
  | upd was => exact .del was
  | new => exact .nop none

/-- What the newer session notes about an object, merged into what the older one has noted. -/
def Mark.merge (prev state : Mark V) : Mark V :=
  let prev := match state.old with
    | some v => prev.onModify v
    | none => prev
  let prev := if state.isNew then prev.onCreate else prev
  match state.removed with
  | some v => prev.onRemove v
  | none => prev

theorem Mark.isNew_onModify : (mark.onModify v).isNew = mark.isNew := by
  unfold onModify
  split_ifs <;> rfl

theorem Mark.isNew_of_onRemove (h : (mark.onRemove v).isNew = true) : mark.isNew = true := by
  unfold onRemove at h
  split_ifs at h with hnew
  · split at h
    · exact absurd h hnew
    · exact absurd h hnew

/-- Merging makes no object new. -/
theorem Mark.isNew_of_merge {prev state : Mark V} (h : (prev.merge state).isNew = true) :
    prev.isNew = true ∨ state.isNew = true := by
  by_cases hstate : state.isNew = true
  · exact .inr hstate
  · left
    unfold merge at h
    dsimp only at h
    rw [if_neg hstate] at h
    have hmodified : (match state.old with
        | some v => prev.onModify v
        | none => prev).isNew = prev.isNew := by
      split
      · exact isNew_onModify
      · rfl
    rw [← hmodified]
    split at h
    · exact isNew_of_onRemove h
    · exact h

/-- The table of `squash`. An id that the newer session has given is not of an older object. -/
theorem Track.merge {mid : Option V} {prev state : Mark V} (h : Track was mid prev)
    (h' : Track mid now state) (hnew : state.isNew = true → was = none) :
    Track was now (prev.merge state) := by
  cases h' with
  | nop => exact h
  | upd mid now => exact h.modify now
  | del mid => exact h.remove
  | new now =>
    cases hnew rfl
    cases h with
    | nop => exact .new now

end Track

namespace UndoState

variable {V : Type} (st : UndoState V) (k i : ℕ) (v : V)

theorem mark_onModify :
    (st.onModify k v).mark i = if k = i then (st.mark i).onModify v else st.mark i := by
  unfold onModify
  by_cases hi : k = i
  · cases hi
    simp only [if_true, Mark.onModify, mark, Std.ExtTreeSet.contains_iff_mem,
      Std.ExtTreeMap.isSome_getElem?_iff_mem]
    split_ifs with hnew hold
    · rfl
    · rfl
    · simp only [rows_insertIfNew, hold, not_false_eq_true, and_self, if_true]
  · rw [if_neg hi]
    split_ifs
    · rfl
    · rfl
    · simp only [mark, rows_insertIfNew, hi, false_and, if_false]

theorem mark_onCreate : (st.onCreate k).mark i = if k = i then (st.mark i).onCreate else st.mark i := by
  by_cases hi : k = i
  · cases hi
    simp [mark, onCreate, Mark.onCreate]
  · simp [mark, onCreate, hi]

theorem mark_mergeRemovedValue :
    (st.mergeRemovedValue (k, v)).mark i = if k = i then (st.mark i).onRemove v else st.mark i := by
  have hadd (old : V) : (st.removedValues.insertIfNew k old)[i]?
      = if k = i then st.removedValues[i]?.or (some old) else st.removedValues[i]? := by
    rw [rows_insertIfNew]
    by_cases hi : k = i
    · cases hi
      by_cases hk : k ∈ st.removedValues
      · rw [if_neg (by simp [hk]), if_pos rfl]
        rw [Std.ExtTreeMap.mem_iff_isSome_getElem?] at hk
        obtain ⟨w, hw⟩ := Option.isSome_iff_exists.1 hk
        rw [hw]
        rfl
      · rw [if_pos ⟨rfl, hk⟩, if_pos rfl, Std.ExtTreeMap.getElem?_eq_none hk]
        rfl
    · rw [if_neg (by simp [hi]), if_neg hi]
  unfold mergeRemovedValue
  by_cases hi : k = i
  · cases hi
    simp only [if_true, Mark.onRemove, mark, Std.ExtTreeSet.contains_iff_mem]
    split_ifs with hnew
    · simp
    · split
      · rename_i old hold
        simp only [hold, hadd, if_true, rows_erase]
      · rename_i hold
        simp only [hold, hadd, if_true]
  · rw [if_neg hi]
    dsimp only
    split_ifs with hnew
    · simp [mark, hi]
    · split
      · simp only [mark, hadd, hi, if_false, rows_erase]
      · simp only [mark, hadd, hi, if_false]

/-- Removing an object notes the same as merging its removal. -/
theorem onRemove_eq : st.onRemove k v = st.mergeRemovedValue (k, v) := by
  have hagain (hk : k ∈ st.removedValues) : st.removedValues.insertIfNew k v = st.removedValues := by
    refine Std.ExtTreeMap.ext_getElem? fun i => ?_
    rw [rows_insertIfNew, if_neg (by simp [hk])]
  unfold onRemove mergeRemovedValue
  dsimp only
  by_cases hnew : k ∈ st.newIds
  · rw [if_pos hnew, if_pos hnew]
  · rw [if_neg hnew, if_neg hnew]
    cases st.oldValues[k]? with
    | some old => rfl
    | none =>
      by_cases hk : k ∈ st.removedValues
      · simp only [if_pos hk, hagain hk]
      · simp only [if_neg hk]

theorem mark_onRemove :
    (st.onRemove k v).mark i = if k = i then (st.mark i).onRemove v else st.mark i := by
  rw [onRemove_eq, mark_mergeRemovedValue]

variable {st i}

/-- A loop over different ids changes what is noted about each of them once. -/
theorem mark_foldl (st : UndoState V) {A : Type} {step : UndoState V → A → UndoState V} (key : A → ℕ)
    (change : A → Mark V → Mark V)
    (hstep : ∀ st a, (step st a).mark i = if key a = i then change a (st.mark i) else st.mark i)
    {items : List A} (hkeys : (items.map key).Nodup) :
    (∀ a ∈ items, key a = i → (items.foldl step st).mark i = change a (st.mark i)) ∧
      (i ∉ items.map key → (items.foldl step st).mark i = st.mark i) := by
  induction items generalizing st with
  | nil => simp
  | cons b items ih =>
    rw [List.map_cons, List.nodup_cons] at hkeys
    obtain ⟨hin, hout⟩ := ih (step st b) hkeys.2
    rw [List.foldl_cons]
    refine ⟨fun a ha hai => ?_, fun hi => ?_⟩
    · rcases List.mem_cons.1 ha with rfl | ha
      · rw [hout (hai ▸ hkeys.1), hstep, if_pos hai]
      · have hb : key b ≠ i := by
          rintro rfl
          exact hkeys.1 (hai ▸ List.mem_map_of_mem ha)
        rw [hin a ha hai, hstep, if_neg hb]
    · rw [List.map_cons, List.mem_cons, not_or] at hi
      rw [hout hi.2, hstep, if_neg (Ne.symm hi.1)]

theorem mark_foldl_rows {step : UndoState V → ℕ × V → UndoState V} (change : V → Mark V → Mark V)
    (hstep : ∀ st k v, (step st (k, v)).mark i = if k = i then change v (st.mark i) else st.mark i)
    (rows : Rows V) :
    (rows.toList.foldl step st).mark i
      = match rows[i]? with
        | some v => change v (st.mark i)
        | none => st.mark i := by
  have hkeys : (rows.toList.map Prod.fst).Nodup := by
    rw [Std.ExtTreeMap.map_fst_toList_eq_keys]
    exact Std.ExtTreeMap.nodup_keys
  obtain ⟨hin, hout⟩ := mark_foldl st Prod.fst (fun item => change item.2)
    (fun st item => hstep st item.1 item.2) hkeys
  cases hi : rows[i]? with
  | some v => exact hin (i, v) (Std.ExtTreeMap.mem_toList_iff_getElem?_eq_some.2 hi) rfl
  | none =>
    refine hout fun hmem => ?_
    obtain ⟨⟨j, v⟩, hr, rfl⟩ := List.mem_map.1 hmem
    rw [Std.ExtTreeMap.mem_toList_iff_getElem?_eq_some.1 hr] at hi
    cases hi

theorem mark_foldl_ids (ids : Std.ExtTreeSet ℕ) :
    (ids.toList.foldl onCreate st).mark i
      = if ids.contains i then (st.mark i).onCreate else st.mark i := by
  have hkeys : (ids.toList.map id).Nodup := by
    rw [List.map_id]
    exact Std.ExtTreeSet.distinct_toList.imp fun h heq => h (Nat.compare_eq_eq.2 heq)
  obtain ⟨hin, hout⟩ := mark_foldl st id (fun _ => Mark.onCreate)
    (fun st k => mark_onCreate st k i) hkeys
  rw [List.map_id] at hout
  split_ifs with hi
  · exact hin i (Std.ExtTreeSet.mem_toList.2 hi) rfl
  · exact hout fun hmem => hi (Std.ExtTreeSet.mem_toList.1 hmem)

theorem mark_merge (prev state : UndoState V) :
    (prev.merge state).mark i = (prev.mark i).merge (state.mark i) := by
  unfold merge
  dsimp only
  rw [mark_foldl_rows (fun v mark => mark.onRemove v) fun st k v => mark_mergeRemovedValue st k i v]
  rw [mark_foldl_ids, mark_foldl_rows (fun v mark => mark.onModify v) fun st k v => mark_onModify st k i v]
  rfl

/-- What a session is noted to have begun with. -/
def begin (st : UndoState V) : ℕ × ℕ := (st.oldNextId, st.revision)

theorem begin_onModify (st : UndoState V) : (st.onModify k v).begin = st.begin := by
  unfold onModify
  split_ifs <;> rfl

theorem begin_mergeRemovedValue (st : UndoState V) : (st.mergeRemovedValue (k, v)).begin = st.begin := by
  unfold mergeRemovedValue
  split_ifs
  · rfl
  · split <;> rfl

theorem begin_onRemove (st : UndoState V) : (st.onRemove k v).begin = st.begin := by
  rw [onRemove_eq, begin_mergeRemovedValue]

theorem begin_foldl {A : Type} {step : UndoState V → A → UndoState V}
    (hstep : ∀ st a, (step st a).begin = st.begin) (items : List A) :
    (items.foldl step st).begin = st.begin := by
  induction items generalizing st with
  | nil => rfl
  | cons a items ih => rw [List.foldl_cons, ih, hstep]

theorem begin_merge (prev state : UndoState V) : (prev.merge state).begin = prev.begin := by
  have hmodified (st : UndoState V) (items : List (ℕ × V)) :
      (items.foldl mergeOldValue st).begin = st.begin :=
    begin_foldl (fun st item => begin_onModify item.1 item.2 st) items
  have hcreated (st : UndoState V) (ids : List ℕ) : (ids.foldl onCreate st).begin = st.begin :=
    begin_foldl (fun st id => (rfl : (st.onCreate id).begin = st.begin)) ids
  have hremoved (st : UndoState V) (items : List (ℕ × V)) :
      (items.foldl mergeRemovedValue st).begin = st.begin :=
    begin_foldl (fun st item => begin_mergeRemovedValue item.1 item.2 st) items
  exact (hremoved _ _).trans ((hcreated _ _).trans (hmodified _ _))

end UndoState

/-! ## Sessions as snapshots -/

/-- What undoing a session has to bring back. -/
structure Snapshot {V : Type} (K : Keys V) where
  indices : MultiIndex K
  nextId : ℕ

namespace GenericIndex

variable {V : Type} {K : Keys V}

def now (s : GenericIndex K) : Snapshot K := ⟨s.indices, s.nextId⟩

end GenericIndex

section Records

variable {V : Type} {K : Keys V}

/-- The ids that are still to be given belong to no object. -/
def Snapshot.Fresh (p : Snapshot K) : Prop :=
  ∀ {i : ℕ}, p.nextId ≤ i → p.indices.rows[i]? = none

/-- The notes of a session tell what there was from what there is. -/
structure Records (st : UndoState V) (prior now : Snapshot K) : Prop where
  nextId : st.oldNextId = prior.nextId
  le : prior.nextId ≤ now.nextId
  new : ∀ {i}, (st.mark i).isNew = true → prior.nextId ≤ i
  track : ∀ i : ℕ, Track prior.indices.rows[i]? now.indices.rows[i]? (st.mark i)

theorem Records.start (p : Snapshot K) (revision : ℕ) :
    Records { oldNextId := p.nextId, revision } p p where
  nextId := rfl
  le := le_rfl
  new := by
    intro i hi
    simp [UndoState.mark] at hi
  track := by
    intro i
    have hmark : UndoState.mark { oldNextId := p.nextId, revision } i = (⟨false, none, none⟩ : Mark V) := by
      simp [UndoState.mark]
    rw [hmark]
    exact .nop _

/-- The notes of two sessions, merged. -/
theorem Records.merge {prev state : UndoState V} {prior mid now : Snapshot K} (hprior : prior.Fresh)
    (h : Records prev prior mid) (h' : Records state mid now) : Records (prev.merge state) prior now where
  nextId := (congrArg Prod.fst (UndoState.begin_merge prev state)).trans h.nextId
  le := h.le.trans h'.le
  new := by
    intro i hi
    rw [UndoState.mark_merge] at hi
    rcases Mark.isNew_of_merge hi with hprev | hstate
    · exact h.new hprev
    · exact h.le.trans (h'.new hstate)
  track := by
    intro i
    rw [UndoState.mark_merge]
    exact (h.track i).merge (h'.track i) fun hnew => hprior (h.le.trans (h'.new hnew))

/-- What an operation on the objects leaves of the sessions. -/
structure Keeps (s s' : GenericIndex K) : Prop where
  fresh : s.now.Fresh → s'.now.Fresh
  revision : s'.revision = s.revision
  closed : s.stack = [] → s'.stack = []
  records : ∀ {prior st below}, prior.Fresh → s.stack = st :: below → Records st prior s.now →
    ∃ st', s'.stack = st' :: below ∧ st'.revision = st.revision ∧ Records st' prior s'.now

theorem Keeps.refl (s : GenericIndex K) : Keeps s s where
  fresh h := h
  revision := rfl
  closed h := h
  records _ hstack h := ⟨_, hstack, rfl, h⟩

theorem Keeps.trans {s s' s'' : GenericIndex K} (h : Keeps s s') (h' : Keeps s' s'') : Keeps s s'' where
  fresh hs := h'.fresh (h.fresh hs)
  revision := h'.revision.trans h.revision
  closed hs := h'.closed (h.closed hs)
  records hprior hstack hrec := by
    obtain ⟨st', hstack', hrev, hrec'⟩ := h.records hprior hstack hrec
    obtain ⟨st'', hstack'', hrev', hrec''⟩ := h'.records hprior hstack' hrec'
    exact ⟨st'', hstack'', hrev'.trans hrev, hrec''⟩

end Records

namespace GenericIndex

variable {V : Type} {K : Keys V} {s s' : GenericIndex K}

/-- An operation at the id `k`, which it notes in the newest session. -/
theorem keeps_of_noted {f : UndoState V → UndoState V} (k : ℕ) (change : Mark V → Mark V)
    {indices : MultiIndex K} {nextId : ℕ} (hbegin : ∀ st, (f st).begin = st.begin)
    (hmark : ∀ st i, (f st).mark i = if k = i then change (st.mark i) else st.mark i)
    (hle : s.nextId ≤ nextId) (hk : s.now.Fresh → k < nextId)
    (hrows : ∀ i : ℕ, k ≠ i → indices.rows[i]? = s.indices.rows[i]?)
    (hnew : ∀ mark, (change mark).isNew = true → mark.isNew = true ∨ s.nextId ≤ k)
    (htrack : ∀ {prior : Snapshot K} {mark}, prior.Fresh → prior.nextId ≤ s.nextId →
      Track prior.indices.rows[k]? s.indices.rows[k]? mark →
        Track prior.indices.rows[k]? indices.rows[k]? (change mark)) :
    Keeps s { s.onHead f with indices, nextId } where
  fresh := by
    intro hs i hi
    have hki : k ≠ i := fun heq => absurd (hk hs) (not_lt.2 (heq ▸ hi))
    exact (hrows i hki).trans (hs (hle.trans hi))
  revision := by
    dsimp only [onHead]
    split <;> rfl
  closed := by
    intro hs
    dsimp only [onHead]
    rw [hs]
    exact hs
  records := by
    intro prior st below hprior hs hrec
    refine ⟨f st, ?_, congrArg Prod.snd (hbegin st), ?_, hrec.le.trans hle, ?_, ?_⟩
    · dsimp only [onHead]
      rw [hs]
    · exact (congrArg Prod.fst (hbegin st)).trans hrec.nextId
    · intro i hi
      rw [hmark] at hi
      split_ifs at hi with hki
      · rcases hnew _ hi with hmark' | hk
        · exact hrec.new hmark'
        · exact hrec.le.trans (hki ▸ hk)
      · exact hrec.new hi
    · intro i
      rw [hmark]
      by_cases hki : k = i
      · cases hki
        rw [if_pos rfl]
        exact htrack hprior hrec.le (hrec.track k)
      · rw [if_neg hki]
        have hi := hrec.track i
        rw [show s.now.indices.rows[i]? = indices.rows[i]? from (hrows i hki).symm] at hi
        exact hi

theorem emplace_keeps {v : V} {id : ℕ} (h : emplace v s = .ok id s') : Keeps s s' := by
  unfold emplace at h
  split at h
  · cases h
  · rename_i indices hindices
    obtain ⟨hnone, hfits, rfl⟩ := MultiIndex.emplace?_eq_some.1 hindices
    have hrows (i : ℕ) : (s.indices.place s.nextId v hfits).rows[i]?
        = if s.nextId = i then some v else s.indices.rows[i]? := rows_insert ..
    have hs' : s' = { s.onHead (·.onCreate s.nextId) with
        indices := s.indices.place s.nextId v hfits, nextId := s.nextId + 1 } := by
      cases h
      dsimp only [onHead]
      split <;> rfl
    rw [hs']
    refine keeps_of_noted s.nextId Mark.onCreate (fun _ => rfl)
      (fun st i => st.mark_onCreate _ i) (Nat.le_succ _) (fun _ => Nat.lt_succ_self _)
      (fun i hi => (hrows i).trans (if_neg hi)) (fun _ _ => .inr le_rfl) ?_
    intro prior mark hprior hle htrack
    rw [hprior hle, hnone] at htrack
    rw [hprior hle, hrows, if_pos rfl]
    exact htrack.create v

theorem modify_keeps {id : ℕ} {m : V → V} (h : modify id m s = .ok () s') : Keeps s s' := by
  unfold modify at h
  split at h
  · cases h
  · rename_i v hv
    have hrow : (s.onHead (·.onModify id v)).indices = s.indices := by
      dsimp only [onHead]
      split <;> rfl
    unfold modifyRow at h
    rw [hrow] at h
    split at h
    · cases h
    · rename_i indices hindices
      obtain ⟨hfits, rfl⟩ := MultiIndex.modify?_eq_some.1 hindices
      have hrows (i : ℕ) : (s.indices.place id (m v) hfits).rows[i]?
          = if id = i then some (m v) else s.indices.rows[i]? := rows_insert ..
      have hs' : s' = { s.onHead (·.onModify id v) with
          indices := s.indices.place id (m v) hfits, nextId := s.nextId } := by
        cases h
        dsimp only [onHead]
        split <;> rfl
      rw [hs']
      refine keeps_of_noted id (·.onModify v) (fun st => st.begin_onModify ..)
        (fun st i => st.mark_onModify ..) le_rfl (fun hs => ?_)
        (fun i hi => (hrows i).trans (if_neg hi)) (fun _ hnew => .inl (Mark.isNew_onModify ▸ hnew)) ?_
      · by_contra hle
        rw [show s.indices.rows[id]? = none from hs (not_lt.1 hle)] at hv
        cases hv
      · intro prior mark hprior hle htrack
        rw [hv] at htrack
        rw [hrows, if_pos rfl]
        exact htrack.modify (m v)

theorem remove_keeps {id : ℕ} (h : remove id s = .ok () s') : Keeps s s' := by
  unfold remove at h
  split at h
  · cases h
  · rename_i v hv
    have hrows (i : ℕ) : (s.indices.erase id).rows[i]?
        = if id = i then none else s.indices.rows[i]? := rows_erase ..
    have hs' : s' = { s.onHead (·.onRemove id v) with
        indices := s.indices.erase id, nextId := s.nextId } := by
      cases h
      dsimp only [onHead]
      split <;> rfl
    rw [hs']
    refine keeps_of_noted id (·.onRemove v) (fun st => st.begin_onRemove ..)
      (fun st i => st.mark_onRemove ..) le_rfl (fun hs => ?_)
      (fun i hi => (hrows i).trans (if_neg hi)) (fun _ hnew => .inl (Mark.isNew_of_onRemove hnew)) ?_
    · by_contra hle
      rw [show s.indices.rows[id]? = none from hs (not_lt.1 hle)] at hv
      cases hv
    · intro prior mark hprior hle htrack
      rw [hv] at htrack
      rw [hrows, if_pos rfl]
      exact htrack.remove

end GenericIndex

end XmaxChain
