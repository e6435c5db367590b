import XmaxChain.Sessions

/-!
# Writes that are refused

A write notes the object before it is changed, and the container erases an object that it cannot place. So
what is left after a throw depends on how far the write came. A note about an object that is still as it was
does no harm: undoing puts back what is there.
-/

namespace XmaxChain

/-- What a call leaves that throws. After a modifier has thrown two objects may have one key. -/
structure Left (V : Type) where
  rows : Rows V
  nextId : ℕ
  revision : ℕ
  stack : List (UndoState V)

/-- What is to be seen without the notes. -/
def Left.seen {V : Type} (l : Left V) : Rows V × ℕ × ℕ := (l.rows, l.nextId, l.revision)

/-- With what the caller passes: the constructor makes the object or throws, and the modifier changes the
object until it is done or throws. -/
inductive Write (V : Type)
  | emplace (c : Except Fault V)
  | modify (id : ℕ) (m : EStateM Fault V Unit)

/-- What may be called later. -/
inductive IndexCall (V : Type)
  | write (w : Write V)
  | remove (id : ℕ)
  | start
  | undo
  | squash
  | commit (revision : ℕ)

namespace GenericIndex

section Calls

variable {V : Type} {K : Keys V}

abbrev CallResult (K : Keys V) := Except (Fault × Left V) (GenericIndex K)

def left (s : GenericIndex K) : Left V := ⟨s.indices.rows, s.nextId, s.revision, s.stack⟩

def callResult {α : Type} : EStateM.Result Fault (GenericIndex K) α → CallResult K
  | .ok _ s => .ok s
  | .error e s => .error (e, s.left)

def emplaceBy (c : Except Fault V) (s : GenericIndex K) : CallResult K :=
  match c with
  | .error e => .error (e, s.left)
  | .ok v => callResult (emplace v s)

/-- The object is noted first. The container lets the modifier work on the object itself, and does not catch
what it throws. -/
def modifyBy (id : ℕ) (m : EStateM Fault V Unit) (s : GenericIndex K) : CallResult K :=
  match s.indices.rows[id]? with
  | none => .error (.undefined "iterator_to", s.left)
  | some v =>
    let s := s.onHead (·.onModify id v)
    match m v with
    | .error e w => .error (e, { s.left with rows := s.indices.rows.insert id w })
    | .ok _ w => callResult (modifyRow id w s)

end Calls

end GenericIndex

section Run

variable {V : Type} {K : Keys V}

open GenericIndex

def Write.run : Write V → GenericIndex K → CallResult K
  | .emplace c => emplaceBy c
  | .modify id m => modifyBy id m

def IndexCall.run : IndexCall V → GenericIndex K → CallResult K
  | .write w, s => w.run s
  | .remove id, s => callResult (GenericIndex.remove id s)
  | .start, s => .ok s.startUndoSession
  | .undo, s => callResult (GenericIndex.undo s)
  | .squash, s => .ok (GenericIndex.squash s)
  | .commit revision, s => .ok (GenericIndex.commit revision s)

def runIndexCalls : List (IndexCall V) → GenericIndex K → CallResult K
  | [], s => .ok s
  | call :: calls, s => call.run s >>= runIndexCalls calls

/-- Both return or both throw the same, and leave the same to be seen. -/
def Alike : CallResult K → CallResult K → Prop
  | .ok s, .ok t => s.left.seen = t.left.seen
  | .error (e, l), .error (e', l') => e = e' ∧ l.seen = l'.seen
  | _, _ => False

/-- The index with the notes that a call has left that throws. -/
def GenericIndex.after (s : GenericIndex K) (l : Left V) : GenericIndex K :=
  { indices := s.indices, nextId := l.nextId, revision := l.revision, stack := l.stack }

/-- As if the call had not been made: its objects are the same, the next id is, and so is what any later
calls do. -/
structure GenericIndex.Unchanged (s : GenericIndex K) (l : Left V) : Prop where
  rows : l.rows = s.indices.rows
  nextId : l.nextId = s.nextId
  later : ∀ calls, Alike (runIndexCalls calls (s.after l)) (runIndexCalls calls s)

/-- A modifier throws before it changes the object. -/
def Write.Clean (s : GenericIndex K) : Write V → Prop
  | .emplace _ => True
  | .modify id m => ∀ v, s.indices.rows[id]? = some v → ∃ e, m v = .error e v

/-- What calls lead to from an empty index, where those that were refused were clean. -/
inductive GenericIndex.Lived : GenericIndex K → Prop
  | empty : Lived {}
  | call {s s' : GenericIndex K} (before : Lived s) (call : IndexCall V) (run : call.run s = .ok s') : Lived s'
  | refused {s : GenericIndex K} {w : Write V} {e : Fault} {l : Left V} (before : Lived s)
      (run : w.run s = .error (e, l)) (clean : w.Clean s) : Lived (s.after l)

end Run

/-! ## Notes about objects that are as they were -/

namespace GenericIndex

variable {V : Type} {K : Keys V} {s t : GenericIndex K} {items items' : List (ℕ × V)}

theorem indices_of_seen (h : s.left.seen = t.left.seen) : s.indices = t.indices :=
  MultiIndex.ext_rows fun i => by
    have hrows : s.indices.rows = t.indices.rows := congrArg Prod.fst h
    rw [hrows]

/-- To put back what is there changes nothing. -/
theorem place_same {m : MultiIndex K} {id : ℕ} {v : V} (h : m.rows[id]? = some v) :
    ∃ hfits : m.Fits id v, m.place id v hfits = m := by
  have hfits : m.Fits id v := MultiIndex.fits_iff.2 fun hj hshare => (m.unique h hj hshare).symm
  refine ⟨hfits, MultiIndex.ext_rows fun i => ?_⟩
  have hrow : (m.place id v hfits).rows[i]? = if id = i then some v else m.rows[i]? := rows_insert ..
  rw [hrow]
  split_ifs with hi
  · rw [← hi, h]
  · rfl

open Classical in
/-- The old values that are not in the index now. -/
noncomputable def changedOnly (m : MultiIndex K) (items : List (ℕ × V)) : List (ℕ × V) :=
  items.filter fun item => m.rows[item.1]? ≠ some item.2

theorem restoreOld_changedOnly {m : MultiIndex K} (hnodup : (items.map Prod.fst).Nodup)
    (hm : ∀ item ∈ items, s.indices.rows[item.1]? = m.rows[item.1]?) :
    restoreOld items s = restoreOld (changedOnly m items) s := by
  induction items generalizing s with
  | nil => rfl
  | cons item items ih =>
    obtain ⟨hnot, hnodup⟩ := List.nodup_cons.1 hnodup
    obtain ⟨hitem, hm⟩ := List.forall_mem_cons.1 hm
    by_cases hsame : m.rows[item.1]? = some item.2
    · have hdrop : changedOnly m (item :: items) = changedOnly m items :=
        List.filter_cons_of_neg (by simpa using hsame)
      rw [hsame] at hitem
      obtain ⟨hfits, hplace⟩ := place_same hitem
      rw [hdrop, restoreOld_cons (by rw [hitem]; rfl) hfits, hplace]
      exact ih hnodup hm
    · have hkeep : changedOnly m (item :: items) = item :: changedOnly m items :=
        List.filter_cons_of_pos (by simpa using hsame)
      rw [hkeep]
      rcases hrow : s.indices.rows[item.1]? with _ | v
      · simp only [restoreOld, hrow]
      by_cases hfits : s.indices.Fits item.1 item.2
      · rw [restoreOld_cons (by rw [hrow]; rfl) hfits, restoreOld_cons (by rw [hrow]; rfl) hfits]
        refine ih hnodup fun other hother => ?_
        have hne : item.1 ≠ other.1 := fun heq => hnot (heq ▸ List.mem_map_of_mem hother)
        have hplaced : (s.indices.place item.1 item.2 hfits).rows[other.1]?
            = if item.1 = other.1 then some item.2 else s.indices.rows[other.1]? := rows_insert ..
        rw [hplaced, if_neg hne]
        exact hm other hother
      · simp only [restoreOld, hrow, modifyRow, MultiIndex.modify?, dif_neg hfits]

theorem seen_withIndices (h : s.left.seen = t.left.seen) (m : MultiIndex K) :
    ({ s with indices := m } : GenericIndex K).left.seen = ({ t with indices := m } : GenericIndex K).left.seen :=
  congrArg (fun p : Rows V × ℕ × ℕ => (m.rows, p.2)) h

theorem restoreOld_alike (h : s.left.seen = t.left.seen) :
    Alike (callResult (restoreOld items s)) (callResult (restoreOld items t)) := by
  induction items generalizing s t with
  | nil => exact h
  | cons item items ih =>
    have hindices := indices_of_seen h
    rcases hrow : s.indices.rows[item.1]? with _ | v
    · simp only [restoreOld, hrow, ← hindices]
      exact ⟨rfl, h⟩
    by_cases hfits : s.indices.Fits item.1 item.2
    · have hfits' : t.indices.Fits item.1 item.2 := hindices ▸ hfits
      have hplace : t.indices.place item.1 item.2 hfits' = s.indices.place item.1 item.2 hfits := by
        simp only [hindices]
      rw [restoreOld_cons (by rw [hrow]; rfl) hfits, restoreOld_cons (by rw [← hindices, hrow]; rfl) hfits', hplace]
      exact ih (seen_withIndices h _)
    · simp only [restoreOld, hrow, ← hindices, modifyRow, MultiIndex.modify?, dif_neg hfits]
      exact ⟨rfl, seen_withIndices h _⟩

theorem Track.old_eq {was now : Option V} {mark mark' : Mark V} {v : V} (h : Track was now mark)
    (h' : Track was now mark') (hold : mark.old = some v) (hnow : now ≠ some v) : mark'.old = some v := by
  cases h with
  | upd was now =>
    cases hold
    cases h' with
    | nop => exact absurd rfl hnow
    | upd => rfl
  | _ => cases hold

/-- Two sessions with the same beginning differ in the notes about what is as it was. -/
theorem changedOnly_oldValues {st st' : UndoState V} {prior now : Snapshot K} (h : Records st prior now)
    (h' : Records st' prior now) :
    changedOnly now.indices st.oldValues.toList = changedOnly now.indices st'.oldValues.toList := by
  have hsorted : ∀ rows : Rows V, (changedOnly now.indices rows.toList).Pairwise fun a b => a.1 < b.1 := fun rows =>
    (Std.ExtTreeMap.ordered_keys_toList.imp fun hlt => Nat.compare_eq_lt.1 hlt).filter _
  have hmem : ∀ {st st' : UndoState V}, Records st prior now → Records st' prior now → ∀ item,
      item ∈ changedOnly now.indices st.oldValues.toList → item ∈ changedOnly now.indices st'.oldValues.toList := by
    rintro st st' h h' ⟨i, v⟩ hitem
    obtain ⟨hold, hchanged⟩ := List.mem_filter.1 hitem
    have hold : (st.mark i).old = some v := Std.ExtTreeMap.mem_toList_iff_getElem?_eq_some.1 hold
    have hold' : (st'.mark i).old = some v := Track.old_eq (h.track i) (h'.track i) hold (by simpa using hchanged)
    exact List.mem_filter.2 ⟨Std.ExtTreeMap.mem_toList_iff_getElem?_eq_some.2 hold', hchanged⟩
  refine List.Perm.eq_of_pairwise (fun a b _ _ hab hba => absurd hab (not_lt.2 hba.le)) (hsorted _) (hsorted _) ?_
  have hnodup : ∀ rows : Rows V, (changedOnly now.indices rows.toList).Nodup := fun rows =>
    (hsorted rows).imp fun hlt heq => (heq ▸ hlt).ne rfl
  exact (List.perm_ext_iff_of_nodup (hnodup _) (hnodup _)).2 fun item => ⟨hmem h h' item, hmem h' h item⟩

/-! ## Two indices with one history -/

/-- What a call gives for two indices with one history: both have one history again. -/
def Twins : CallResult K → CallResult K → Prop
  | .ok s, .ok t => ∃ u, Refines s u ∧ Refines t u
  | .error (e, l), .error (e', l') => e = e' ∧ l.seen = l'.seen
  | _, _ => False

section Twins

variable {u : Undo (Snapshot K)} {s' t' : GenericIndex K}

theorem seen_of_refines (hs : Refines s u) (ht : Refines t u) : s.left.seen = t.left.seen := by
  have hnow : s.now = t.now := hs.cur.symm.trans ht.cur
  have hrevision : s.revision = t.revision := hs.revision.symm.trans ht.revision
  exact congrArg₂ (fun (p : Snapshot K) r => (p.indices.rows, p.nextId, r)) hnow hrevision

/-- A write looks at the objects and not at the notes. -/
theorem Twins.of_keeps {r r' : CallResult K} (halike : Alike r r') (hs : Refines s u) (ht : Refines t u)
    (hkeeps : ∀ s', r = .ok s' → Keeps s s') (hkeeps' : ∀ t', r' = .ok t' → Keeps t t') : Twins r r' := by
  rcases r with ⟨e, l⟩ | s' <;> rcases r' with ⟨e', l'⟩ | t'
  · exact halike
  · exact halike
  · exact halike
  · refine ⟨_, hs.keeps (hkeeps s' rfl), ?_⟩
    have hnow : s'.now = t'.now := by
      have hindices := indices_of_seen halike
      have hnext : s'.nextId = t'.nextId := congrArg (fun p : Rows V × ℕ × ℕ => p.2.1) halike
      rw [now, now, hindices, hnext]
    rw [hnow]
    exact ht.keeps (hkeeps' t' rfl)

theorem restoreOld_oldValues_alike {st st' : UndoState V} {prior : Snapshot K} (hseen : s.left.seen = t.left.seen)
    (h : Records st prior s.now) (h' : Records st' prior t.now) :
    Alike (callResult (restoreOld st.oldValues.toList s)) (callResult (restoreOld st'.oldValues.toList t)) := by
  have hindices := indices_of_seen hseen
  have hnext : s.nextId = t.nextId := congrArg (fun p : Rows V × ℕ × ℕ => p.2.1) hseen
  have hnow : t.now = s.now := by rw [now, now, hindices, hnext]
  have hnodup : ∀ rows : Rows V, (rows.toList.map Prod.fst).Nodup := fun rows => by
    rw [Std.ExtTreeMap.map_fst_toList_eq_keys]
    exact Std.ExtTreeMap.nodup_keys
  rw [hnow] at h'
  rw [restoreOld_changedOnly (m := s.indices) (hnodup _) fun _ _ => rfl,
    restoreOld_changedOnly (m := s.indices) (hnodup _) fun _ _ => by rw [hindices],
    show changedOnly s.indices st.oldValues.toList = _ from changedOnly_oldValues h h']
  exact restoreOld_alike hseen

theorem undo_twins (hs : Refines s u) (ht : Refines t u) : Twins (callResult (undo s)) (callResult (undo t)) := by
  have hsrun : ∀ s', undo s = .ok () s' → Refines s' u.undo := fun _ => hs.undo
  have htrun : ∀ t', undo t = .ok () t' → Refines t' u.undo := fun _ => ht.undo
  have hseen := seen_of_refines hs ht
  have hshows := hs.stack
  have hshows' := ht.stack
  generalize hstack : s.stack = stack, hstack' : t.stack = stack', u.stack = priors, hnow : s.now = now,
    hnow' : t.now = now' at hshows hshows'
  cases hshows with
  | closed =>
    cases hshows'
    simp only [undo, hstack, hstack'] at hsrun htrun ⊢
    exact ⟨_, hsrun _ rfl, htrun _ rfl⟩
  | @opened st below prior _ priors fresh records rest =>
    generalize hprior : (st.revision, prior) = q at hshows'
    cases hshows' with
    | @opened st' below' prior' _ _ fresh' records' rest' =>
      obtain ⟨-, rfl⟩ := Prod.mk.inj hprior
      rw [← hnow] at records
      rw [← hnow'] at records'
      have hrestore := restoreOld_oldValues_alike hseen records records'
      rcases hrun : restoreOld st.oldValues.toList s with ⟨_, s₁⟩ | ⟨e, s₁⟩ <;>
        rcases hrun' : restoreOld st'.oldValues.toList t with ⟨_, t₁⟩ | ⟨e', t₁⟩ <;>
          rw [hrun, hrun'] at hrestore
      · have hundo := undo_of_restored hstack records hrun
        have hundo' := undo_of_restored hstack' records' hrun'
        rw [hundo, hundo']
        exact ⟨_, hsrun _ hundo, htrun _ hundo'⟩
      · exact hrestore.elim
      · exact hrestore.elim
      · have hundo : undo s = .error e s₁ := by
          rw [undo, hstack]
          exact run_bind_error hrun
        have hundo' : undo t = .error e' t₁ := by
          rw [undo, hstack']
          exact run_bind_error hrun'
        rw [hundo, hundo']
        exact hrestore

/-! ## Calls on both -/

@[simp] theorem seen_onHead (f : UndoState V → UndoState V) (s : GenericIndex K) :
    (s.onHead f).left.seen = s.left.seen := by
  rw [onHead]
  split <;> rfl

theorem emplace_alike (h : s.left.seen = t.left.seen) (v : V) :
    Alike (callResult (emplace v s)) (callResult (emplace v t)) := by
  have hindices := indices_of_seen h
  have hnext : s.nextId = t.nextId := congrArg (fun p : Rows V × ℕ × ℕ => p.2.1) h
  rw [emplace, emplace, ← hindices, ← hnext]
  rcases s.indices.emplace? s.nextId v with _ | indices
  · exact ⟨rfl, h⟩
  · refine (seen_onHead _ _).trans (Eq.trans ?_ (seen_onHead _ _).symm)
    exact congrArg (fun p : Rows V × ℕ × ℕ => (indices.rows, s.nextId + 1, p.2.2)) h

theorem modifyRow_alike (h : s.left.seen = t.left.seen) (id : ℕ) (v : V) :
    Alike (callResult (modifyRow id v s)) (callResult (modifyRow id v t)) := by
  rw [modifyRow, modifyRow, ← indices_of_seen h]
  rcases s.indices.modify? id v with _ | indices
  · exact ⟨rfl, seen_withIndices h _⟩
  · exact seen_withIndices h _

theorem modifyBy_alike (h : s.left.seen = t.left.seen) (id : ℕ) (m : EStateM Fault V Unit) :
    Alike (modifyBy id m s) (modifyBy id m t) := by
  rw [modifyBy, modifyBy, ← indices_of_seen h]
  rcases s.indices.rows[id]? with _ | v
  · exact ⟨rfl, h⟩
  · have hnoted : (s.onHead (·.onModify id v)).left.seen = (t.onHead (·.onModify id v)).left.seen := by simp [h]
    dsimp only
    rcases m v with ⟨_, w⟩ | ⟨e, w⟩
    · exact modifyRow_alike hnoted id w
    · exact ⟨rfl, congrArg (fun p : Rows V × ℕ × ℕ => (p.1.insert id w, p.2)) hnoted⟩

theorem remove_alike (h : s.left.seen = t.left.seen) (id : ℕ) :
    Alike (callResult (remove id s)) (callResult (remove id t)) := by
  rw [remove, remove, ← indices_of_seen h]
  rcases s.indices.rows[id]? with _ | v
  · exact ⟨rfl, h⟩
  · refine seen_withIndices ?_ _
    rw [seen_onHead, seen_onHead, h]

theorem write_alike (h : s.left.seen = t.left.seen) (w : Write V) : Alike (w.run s) (w.run t) := by
  cases w with
  | emplace c =>
    rcases c with e | v
    · exact ⟨rfl, h⟩
    · exact emplace_alike h v
  | modify id m => exact modifyBy_alike h id m

theorem eq_ok_of_callResult {α : Type} {r : EStateM.Result Fault (GenericIndex K) α} {s' : GenericIndex K}
    (h : callResult r = .ok s') : ∃ a, r = .ok a s' := by
  rcases r with ⟨a, s⟩ | ⟨e, s⟩
  · cases h
    exact ⟨a, rfl⟩
  · cases h

/-- A write that is done is an operation. -/
theorem write_keeps {w : Write V} {s' : GenericIndex K} (h : w.run s = .ok s') : Keeps s s' := by
  cases w with
  | emplace c =>
    rcases c with e | v
    · cases h
    · obtain ⟨id, hrun⟩ := eq_ok_of_callResult h
      exact emplace_keeps hrun
  | modify id m =>
    rw [Write.run, modifyBy] at h
    rcases hrow : s.indices.rows[id]? with _ | v <;> simp only [hrow] at h
    · cases h
    · rcases hm : m v with ⟨_, w⟩ | ⟨e, w⟩ <;> simp only [hm] at h
      · obtain ⟨⟨⟩, hrun⟩ := eq_ok_of_callResult h
        have hmodify : modify id (fun _ => w) s = .ok () s' := by
          rw [modify, hrow]
          exact hrun
        exact modify_keeps hmodify
      · cases h

theorem remove_keeps_of_callResult {id : ℕ} {s' : GenericIndex K} (h : callResult (remove id s) = .ok s') :
    Keeps s s' := by
  obtain ⟨⟨⟩, hrun⟩ := eq_ok_of_callResult h
  exact remove_keeps hrun

theorem call_twins (call : IndexCall V) (hs : Refines s u) (ht : Refines t u) : Twins (call.run s) (call.run t) := by
  have hseen := seen_of_refines hs ht
  cases call with
  | write w => exact .of_keeps (write_alike hseen w) hs ht (fun _ => write_keeps) fun _ => write_keeps
  | remove id =>
    exact .of_keeps (remove_alike hseen id) hs ht (fun _ => remove_keeps_of_callResult)
      fun _ => remove_keeps_of_callResult
  | start => exact ⟨_, hs.start, ht.start⟩
  | undo => exact undo_twins hs ht
  | squash => exact ⟨_, hs.squash, ht.squash⟩
  | commit revision => exact ⟨_, hs.commit revision, ht.commit revision⟩

/-- No calls tell apart two indices with one history. -/
theorem runIndexCalls_alike (calls : List (IndexCall V)) (hs : Refines s u) (ht : Refines t u) :
    Alike (runIndexCalls calls s) (runIndexCalls calls t) := by
  induction calls generalizing s t u with
  | nil => exact seen_of_refines hs ht
  | cons call calls ih =>
    have htwins := call_twins call hs ht
    rw [runIndexCalls, runIndexCalls]
    rcases hrun : call.run s with ⟨e, l⟩ | s' <;> rcases hrun' : call.run t with ⟨e', l'⟩ | t' <;>
      rw [hrun, hrun'] at htwins
    · exact htwins
    · exact htwins.elim
    · exact htwins.elim
    · obtain ⟨u', hs', ht'⟩ := htwins
      exact ih hs' ht'

end Twins

/-! ## What a refused write leaves -/

section Refused

variable {u : Undo (Snapshot K)} {w : Write V} {e : Fault} {l : Left V}

theorem refused_modify_cases {id : ℕ} {m : EStateM Fault V Unit} (h : modifyBy id m s = .error (e, l)) :
    (s.indices.rows[id]? = none ∧ l = s.left) ∨ ∃ v, s.indices.rows[id]? = some v ∧
      ((∃ x, m v = .error e x ∧ l = { (s.onHead (·.onModify id v)).left with rows := s.indices.rows.insert id x }) ∨
        ∃ x, m v = .ok () x ∧ l.rows = s.indices.rows.erase id) := by
  rw [modifyBy] at h
  rcases hrow : s.indices.rows[id]? with _ | v <;> simp only [hrow] at h
  · cases h
    exact .inl ⟨rfl, rfl⟩
  · refine .inr ⟨v, rfl, ?_⟩
    have hindices : (s.onHead (·.onModify id v)).indices = s.indices := indices_of_seen (seen_onHead _ _)
    rcases hm : m v with ⟨⟨⟩, x⟩ | ⟨e', x⟩ <;> simp only [hm] at h
    · refine .inr ⟨x, rfl, ?_⟩
      rw [modifyRow, hindices] at h
      rcases hplaced : s.indices.modify? id x with _ | indices <;> simp only [hplaced] at h
      · cases h
        rfl
      · cases h
    · rw [hindices] at h
      cases h
      exact .inl ⟨x, rfl, rfl⟩

theorem after_left : s.after s.left = s := rfl

theorem refused_emplace {c : Except Fault V} (h : emplaceBy c s = .error (e, l)) : l = s.left := by
  rcases c with e' | v
  · cases h
    rfl
  · rw [emplaceBy, emplace] at h
    rcases hplaced : s.indices.emplace? s.nextId v with _ | indices <;> simp only [hplaced] at h
    · cases h
      rfl
    · cases h

theorem eq_of_insert_eq {rows : Rows V} {id : ℕ} {v x : V} (hv : rows[id]? = some v) :
    rows.insert id x = rows ↔ x = v := by
  constructor
  · intro h
    have hrow := rows_insert rows id id x
    rw [h, hv, if_pos rfl] at hrow
    exact (Option.some.inj hrow).symm
  · rintro rfl
    refine Std.ExtTreeMap.ext_getElem? fun i => ?_
    rw [rows_insert]
    split_ifs with hi
    · rw [← hi, hv]
    · rfl

/-- A modifier that has changed nothing leaves a note about the object as it is. -/
theorem Refines.noted (hs : Refines s u) {id : ℕ} {v : V} (hv : s.indices.rows[id]? = some v) :
    Refines (s.after (s.onHead (·.onModify id v)).left) u := by
  have hsame : s.after (s.onHead (·.onModify id v)).left =
      { s.onHead (·.onModify id v) with indices := s.indices, nextId := s.nextId } := by
    rw [onHead]
    split <;> rfl
  have hkeeps : Keeps s { s.onHead (·.onModify id v) with indices := s.indices, nextId := s.nextId } := by
    refine keeps_of_noted id (·.onModify v) (fun st => st.begin_onModify ..) (fun st i => st.mark_onModify ..)
      le_rfl (fun hfresh => ?_) (fun _ _ => rfl) (fun _ hnew => .inl (Mark.isNew_onModify ▸ hnew)) ?_
    · by_contra hle
      rw [show s.indices.rows[id]? = none from hfresh (not_lt.1 hle)] at hv
      cases hv
    · intro prior mark _ _ htrack
      rw [hv] at htrack ⊢
      exact htrack.modify v
  have hrefines := hs.keeps hkeeps
  rw [show u.withCur _ = u by rw [Undo.withCur]; exact congrArg (fun cur => { u with cur }) hs.cur.symm] at hrefines
  rw [hsame]
  exact hrefines

theorem Refines.after (hs : Refines s u) (hrun : w.run s = .error (e, l)) (hclean : w.Clean s) :
    Refines (s.after l) u ∧ l.rows = s.indices.rows ∧ l.nextId = s.nextId := by
  cases w with
  | emplace c =>
    rw [refused_emplace hrun, after_left]
    exact ⟨hs, rfl, rfl⟩
  | modify id m =>
    rcases refused_modify_cases hrun with ⟨-, rfl⟩ | ⟨v, hv, hthrown⟩
    · exact ⟨hs, rfl, rfl⟩
    · obtain ⟨e', hthrows⟩ := hclean v hv
      rcases hthrown with ⟨x, hm, rfl⟩ | ⟨x, hm, -⟩
      · rw [hthrows] at hm
        cases hm
        refine ⟨hs.noted hv, (eq_of_insert_eq hv).2 rfl, ?_⟩
        exact congrArg (fun p : Rows V × ℕ × ℕ => p.2.1) (seen_onHead (·.onModify id v) s)
      · rw [hthrows] at hm
        cases hm

theorem rows_ne_of_not_clean (hrun : w.run s = .error (e, l)) (hclean : ¬ w.Clean s) : l.rows ≠ s.indices.rows := by
  cases w with
  | emplace c => exact absurd trivial hclean
  | modify id m =>
    rcases refused_modify_cases hrun with ⟨hnone, -⟩ | ⟨v, hv, ⟨x, hm, rfl⟩ | ⟨x, -, herased⟩⟩
    · refine absurd (fun v hv => ?_) hclean
      rw [hnone] at hv
      cases hv
    · intro hsame
      cases (eq_of_insert_eq hv).1 hsame
      refine hclean fun v' hv' => ⟨e, ?_⟩
      rw [hv] at hv'
      cases hv'
      exact hm
    · intro hsame
      have hrow := rows_erase s.indices.rows id id
      rw [← herased, hsame, hv, if_pos rfl] at hrow
      cases hrow

theorem Lived.refines (h : Lived s) : ∃ u, Refines s u := by
  induction h with
  | empty => exact ⟨_, .empty⟩
  | call _ call run ih =>
    obtain ⟨u, hu⟩ := ih
    have htwins := call_twins call hu hu
    rw [run] at htwins
    obtain ⟨u', hu', -⟩ := htwins
    exact ⟨u', hu'⟩
  | refused _ run clean ih =>
    obtain ⟨u, hu⟩ := ih
    exact ⟨u, (hu.after run clean).1⟩

theorem run_op {op : Op V} {s' : GenericIndex K} (h : runOp op s = .ok () s') :
    ∃ call : IndexCall V, call.run s = .ok s' := by
  cases op with
  | create v =>
    obtain ⟨id, s₁, hrun, hpure⟩ := run_bind_eq_ok.1 h
    cases hpure
    refine ⟨.write (.emplace (.ok v)), ?_⟩
    rw [IndexCall.run, Write.run, emplaceBy, hrun]
    rfl
  | modify id m =>
    refine ⟨.write (.modify id fun v => .ok () (m v)), ?_⟩
    change modifyBy id (fun v => .ok () (m v)) s = .ok s'
    rw [runOp, modify] at h
    unfold modifyBy
    rcases hrow : s.indices.rows[id]? with _ | v <;> simp only [hrow] at h ⊢
    · cases h
    · rw [h]
      rfl
  | remove id =>
    refine ⟨.remove id, ?_⟩
    rw [runOp] at h
    rw [IndexCall.run, h]
    rfl

theorem Lived.of_reached (h : Reached s) : Lived s := by
  induction h with
  | empty => exact .empty
  | op _ run ih =>
    obtain ⟨call, hrun⟩ := run_op run
    exact ih.call call hrun
  | start _ ih => exact ih.call .start rfl
  | undo _ run ih =>
    refine ih.call .undo ?_
    rw [IndexCall.run, run]
    rfl
  | squash _ ih => exact ih.call .squash rfl
  | commit _ revision ih => exact ih.call (.commit revision) rfl

/-- A write that throws is as if it had not been made exactly if it is an `emplace`, or its modifier threw
with the object as it was. -/
theorem refused_write_unchanged_iff (hs : Lived s) (hrun : w.run s = .error (e, l)) :
    s.Unchanged l ↔ w.Clean s := by
  obtain ⟨u, hu⟩ := hs.refines
  constructor
  · intro h
    by_contra hclean
    exact rows_ne_of_not_clean hrun hclean h.rows
  · intro hclean
    obtain ⟨hafter, hrows, hnext⟩ := hu.after hrun hclean
    exact ⟨hrows, hnext, fun calls => runIndexCalls_alike calls hafter hu⟩

end Refused

theorem twoObjects_lived : Lived twoObjects.startUndoSession := .of_reached (.start twoObjects_reached)

/-- The modifier throws at once, with a session open. -/
theorem modifier_throws_unchanged : ∃ l : Left ℕ,
    (Write.modify 1 fun v => .error (.fc "not enough") v).run twoObjects.startUndoSession =
      .error (.fc "not enough", l) ∧ twoObjects.startUndoSession.Unchanged l := by
  have hrow : twoObjects.startUndoSession.indices.rows[1]? = some 20 := by decide
  obtain ⟨l, hrun⟩ : ∃ l, (Write.modify 1 fun v => .error (.fc "not enough") v).run twoObjects.startUndoSession =
      .error (.fc "not enough", l) := by
    simp only [Write.run, modifyBy, hrow]
    exact ⟨_, rfl⟩
  exact ⟨l, hrun, (refused_write_unchanged_iff twoObjects_lived hrun).2 fun v _ => ⟨_, rfl⟩⟩

/-- The first object is given the key of the second, and is gone. -/
theorem refused_modify_erases : ∃ l : Left ℕ, Lived twoObjects.startUndoSession ∧
    (Write.modify 0 fun _ => .ok () 20).run twoObjects.startUndoSession =
      .error (.std "Could not modify object, most likely a uniqueness constraint was violated", l) ∧
    twoObjects.startUndoSession.indices.rows[0]? = some 10 ∧ l.rows[0]? = none ∧
    ¬ twoObjects.startUndoSession.Unchanged l := by
  have hrow : twoObjects.startUndoSession.indices.rows[0]? = some 10 := by decide
  have hplaced : twoObjects.startUndoSession.indices.modify? 0 20 = none :=
    Option.isNone_iff_eq_none.1 (by decide)
  have herased : (twoObjects.startUndoSession.indices.rows.erase 0)[0]? = none := by simp
  have hindices : (twoObjects.startUndoSession.onHead (·.onModify 0 10)).indices =
      twoObjects.startUndoSession.indices := indices_of_seen (seen_onHead _ _)
  obtain ⟨l, hrun, hl⟩ : ∃ l, (Write.modify 0 fun _ => .ok () 20).run twoObjects.startUndoSession =
      .error (.std "Could not modify object, most likely a uniqueness constraint was violated", l) ∧
        l.rows[0]? = none := by
    simp only [Write.run, modifyBy, hrow, modifyRow, hindices, hplaced]
    exact ⟨_, rfl, herased⟩
  refine ⟨l, twoObjects_lived, hrun, hrow, hl, fun h => ?_⟩
  rw [h.rows, hrow] at hl
  cases hl

end GenericIndex

end XmaxChain
