import XmaxChain.GenericIndex

/-!
# Undoing and squashing

Undoing puts the old values back one by one, in the order of their ids, while the objects that the
session has created and the later ones that it has modified are still as it left them. So it can meet a
key that it is to give back and that another object holds; then it throws. Otherwise it brings back the
index as it was when the session began, and a session that was squashed is undone with the one below it.
-/

namespace XmaxChain

namespace GenericIndex

variable {V : Type} {K : Keys V}

/-! ## Operations -/

inductive Op (V : Type)
  | create (v : V)
  | modify (id : ℕ) (m : V → V)
  | remove (id : ℕ)

def runOp : Op V → IndexM K Unit
  | .create v => do
    let _ ← emplace v
    pure ()
  | .modify id m => modify id m
  | .remove id => remove id

def runOps : List (Op V) → IndexM K Unit
  | [] => pure ()
  | op :: ops => do
    runOp op
    runOps ops

theorem runOp_keeps {op : Op V} {s s' : GenericIndex K} (h : runOp op s = .ok () s') : Keeps s s' := by
  cases op with
  | create v =>
    obtain ⟨id, s₁, h₁, hpure⟩ := run_bind_eq_ok.1 h
    cases hpure
    exact emplace_keeps h₁
  | modify id m => exact modify_keeps h
  | remove id => exact remove_keeps h

theorem runOps_keeps {ops : List (Op V)} {s s' : GenericIndex K} (h : runOps ops s = .ok () s') :
    Keeps s s' := by
  induction ops generalizing s with
  | nil =>
    cases h
    exact .refl _
  | cons op ops ih =>
    obtain ⟨⟨⟩, s₁, h₁, h⟩ := run_bind_eq_ok.1 h
    exact (runOp_keeps h₁).trans (ih h)

/-! ## Undoing -/

/-- An object that stays from `prior` to `now` has had a key that another object now holds, which is new
or has a greater id. -/
def Clash (prior now : MultiIndex K) : Prop :=
  ∃ (i j : ℕ) (v w : V), prior.rows[i]? = some v ∧ (now.rows[i]?).isSome ∧ now.rows[j]? = some w ∧
    (prior.rows[j]? = none ∨ i < j) ∧ K.Share v w

section Restore

variable {prior : MultiIndex K} {s : GenericIndex K} {item : ℕ × V} {items : List (ℕ × V)}

theorem restoreOld_cons (hitem : (s.indices.rows[item.1]?).isSome) (h : s.indices.Fits item.1 item.2) :
    restoreOld (item :: items) s
      = restoreOld items { s with indices := s.indices.place item.1 item.2 h } := by
  obtain ⟨v, hv⟩ := Option.isSome_iff_exists.1 hitem
  simp only [restoreOld, hv, modifyRow, MultiIndex.modify?, dif_pos h]

theorem restoreOld_refused (h : ¬ s.indices.Fits item.1 item.2) (s' : GenericIndex K) :
    restoreOld (item :: items) s ≠ .ok () s' := by
  simp only [restoreOld, modifyRow, MultiIndex.modify?, dif_neg h]
  split <;> simp

/-- When each of the old values has its keys free, or held by an object whose turn is before. -/
def Restorable (prior : MultiIndex K) (items : List (ℕ × V)) (m : MultiIndex K) : Prop :=
  ∀ item ∈ items, ∀ {j : ℕ} {w : V}, m.rows[j]? = some w →
    (prior.rows[j]? = none ∨ item.1 < j) → ¬ K.Share item.2 w

/-- What is not an old value to put back is new, or as it was. -/
structure Restoring (prior : MultiIndex K) (items : List (ℕ × V)) (m : MultiIndex K) : Prop where
  sorted : items.Pairwise fun a b => a.1 < b.1
  old : ∀ item ∈ items, prior.rows[item.1]? = some item.2 ∧ (m.rows[item.1]?).isSome
  rest : ∀ {j : ℕ} {w : V}, m.rows[j]? = some w →
    j ∈ items.map Prod.fst ∨ prior.rows[j]? = none ∨ prior.rows[j]? = some w

theorem Restoring.next {m : MultiIndex K} (h : Restoring prior (item :: items) m)
    (hfits : m.Fits item.1 item.2) : Restoring prior items (m.place item.1 item.2 hfits) := by
  have hrows (i : ℕ) : (m.place item.1 item.2 hfits).rows[i]?
      = if item.1 = i then some item.2 else m.rows[i]? := rows_insert ..
  refine ⟨(List.pairwise_cons.1 h.sorted).2, fun other hother => ?_, fun {j w} hj => ?_⟩
  · obtain ⟨hprior, hsome⟩ := h.old other (List.mem_cons_of_mem _ hother)
    refine ⟨hprior, ?_⟩
    rw [hrows]
    split_ifs
    · rfl
    · exact hsome
  · rw [hrows] at hj
    split_ifs at hj with hij
    · cases hj
      rw [← hij]
      exact .inr (.inr (h.old item List.mem_cons_self).1)
    · rcases h.rest hj with hmem | hrest
      · rw [List.map_cons, List.mem_cons] at hmem
        exact .inl (hmem.resolve_left (Ne.symm hij))
      · exact .inr hrest

theorem Restoring.restorable_cons {m : MultiIndex K} (h : Restoring prior (item :: items) m) :
    Restorable prior (item :: items) m ↔
      ∃ hfits : m.Fits item.1 item.2, Restorable prior items (m.place item.1 item.2 hfits) := by
  have hlt := (List.pairwise_cons.1 h.sorted).1
  obtain ⟨hold, -⟩ := h.old item List.mem_cons_self
  have hrows (hfits : m.Fits item.1 item.2) (i : ℕ) : (m.place item.1 item.2 hfits).rows[i]?
      = if item.1 = i then some item.2 else m.rows[i]? := rows_insert ..
  constructor
  · intro hall
    have hfits : m.Fits item.1 item.2 := by
      refine MultiIndex.fits_iff.2 fun {j w} hj hshare => ?_
      by_contra hne
      rcases h.rest hj with hmem | hnew | hsame
      · obtain ⟨other, hother, rfl⟩ := List.mem_map.1 hmem
        rcases List.mem_cons.1 hother with rfl | hother
        · exact hne rfl
        · exact hall item List.mem_cons_self hj (.inr (hlt other hother)) hshare
      · exact hall item List.mem_cons_self hj (.inl hnew) hshare
      · exact hne (prior.unique hold hsame hshare).symm
    refine ⟨hfits, fun other hother j w hj hlater => ?_⟩
    rw [hrows] at hj
    split_ifs at hj with hij
    · cases hij
      rcases hlater with hnew | hbefore
      · rw [hold] at hnew
        cases hnew
      · exact absurd (hlt other hother) (not_lt.2 hbefore.le)
    · exact hall other (List.mem_cons_of_mem _ hother) hj hlater
  · rintro ⟨hfits, hall⟩ other hother j w hj hlater hshare
    rcases List.mem_cons.1 hother with rfl | hother
    · cases MultiIndex.fits_iff.1 hfits hj hshare
      rcases hlater with hnew | hbefore
      · rw [hold] at hnew
        cases hnew
      · exact lt_irrefl _ hbefore
    · refine hall other hother ?_ hlater hshare
      rw [hrows, if_neg]
      · exact hj
      · rintro rfl
        rcases hlater with hnew | hbefore
        · rw [hold] at hnew
          cases hnew
        · exact absurd (hlt other hother) (not_lt.2 hbefore.le)

theorem restoreOld_iff (h : Restoring prior items s.indices) :
    (∃ s', restoreOld items s = .ok () s') ↔ Restorable prior items s.indices := by
  induction items generalizing s with
  | nil => exact ⟨fun _ item hitem => by simp at hitem, fun _ => ⟨s, rfl⟩⟩
  | cons item items ih =>
    rw [h.restorable_cons]
    by_cases hfits : s.indices.Fits item.1 item.2
    · rw [restoreOld_cons (h.old item List.mem_cons_self).2 hfits, ih (h.next hfits)]
      exact ⟨fun hall => ⟨hfits, hall⟩, fun ⟨_, hall⟩ => hall⟩
    · exact ⟨fun ⟨s', hs'⟩ => absurd hs' (restoreOld_refused hfits s'), fun ⟨h', _⟩ => absurd h' hfits⟩

theorem restoreOld_ok {s' : GenericIndex K} (hrun : restoreOld items s = .ok () s')
    (h : Restoring prior items s.indices) :
    ∃ m, s' = { s with indices := m } ∧ ∀ i : ℕ, m.rows[i]?
      = if i ∈ items.map Prod.fst then prior.rows[i]? else s.indices.rows[i]? := by
  induction items generalizing s with
  | nil =>
    cases hrun
    exact ⟨_, rfl, fun i => by simp⟩
  | cons item items ih =>
    by_cases hfits : s.indices.Fits item.1 item.2
    · rw [restoreOld_cons (h.old item List.mem_cons_self).2 hfits] at hrun
      obtain ⟨m, rfl, hm⟩ := ih hrun (h.next hfits)
      refine ⟨m, rfl, fun i => ?_⟩
      have hrow : (s.indices.place item.1 item.2 hfits).rows[i]?
          = if item.1 = i then some item.2 else s.indices.rows[i]? := rows_insert ..
      simp only [hm, hrow, List.map_cons, List.mem_cons]
      by_cases hi : item.1 = i
      · cases hi
        simp [(h.old item List.mem_cons_self).1]
      · have hi' : ¬ i = item.1 := fun heq => hi heq.symm
        simp only [hi, hi', if_false, false_or]
    · exact absurd hrun (restoreOld_refused hfits s')

theorem eraseNew_ok {ids : List ℕ} (hnodup : ids.Nodup)
    (hids : ∀ id ∈ ids, (s.indices.rows[id]?).isSome) :
    ∃ m, eraseNew ids s = .ok () { s with indices := m } ∧
      ∀ i : ℕ, m.rows[i]? = if i ∈ ids then none else s.indices.rows[i]? := by
  induction ids generalizing s with
  | nil => exact ⟨s.indices, rfl, fun i => by simp⟩
  | cons id ids ih =>
    obtain ⟨hnot, hnodup⟩ := List.nodup_cons.1 hnodup
    have hrow (i : ℕ) : (s.indices.erase id).rows[i]?
        = if id = i then none else s.indices.rows[i]? := rows_erase ..
    obtain ⟨m, hrun, hm⟩ := ih (s := { s with indices := s.indices.erase id }) hnodup (by
      intro other hother
      dsimp only
      rw [hrow, if_neg (by rintro rfl; exact hnot hother)]
      exact hids other (List.mem_cons_of_mem _ hother))
    obtain ⟨v, hv⟩ := Option.isSome_iff_exists.1 (hids id List.mem_cons_self)
    refine ⟨m, ?_, fun i => ?_⟩
    · simp only [eraseNew, hv]
      exact hrun
    · simp only [hm, hrow, List.mem_cons]
      by_cases hi : id = i
      · simp [hi]
      · simp [hi, Ne.symm hi]

/-- Removed objects that belong to one state with the others can all be put back. -/
theorem restoreRemoved_ok (hnodup : (items.map Prod.fst).Nodup)
    (hitems : ∀ item ∈ items, prior.rows[item.1]? = some item.2 ∧ s.indices.rows[item.1]? = none)
    (hrest : ∀ {j : ℕ} {w : V}, s.indices.rows[j]? = some w → prior.rows[j]? = some w) :
    ∃ m, restoreRemoved items s = .ok () { s with indices := m } ∧ ∀ i : ℕ, m.rows[i]?
      = if i ∈ items.map Prod.fst then prior.rows[i]? else s.indices.rows[i]? := by
  induction items generalizing s with
  | nil => exact ⟨s.indices, rfl, fun i => by simp⟩
  | cons item items ih =>
    obtain ⟨hold, hnone⟩ := hitems item List.mem_cons_self
    obtain ⟨hnot, hnodup⟩ := List.nodup_cons.1 hnodup
    have hfits : s.indices.Fits item.1 item.2 :=
      MultiIndex.fits_iff.2 fun hj hshare => prior.unique (hrest hj) hold hshare.symm
    have hrow (i : ℕ) : (s.indices.place item.1 item.2 hfits).rows[i]?
        = if item.1 = i then some item.2 else s.indices.rows[i]? := rows_insert ..
    obtain ⟨m, hrun, hm⟩ := ih (s := { s with indices := s.indices.place item.1 item.2 hfits }) hnodup
      (by
        intro other hother
        obtain ⟨hold', hnone'⟩ := hitems other (List.mem_cons_of_mem _ hother)
        refine ⟨hold', ?_⟩
        dsimp only
        rw [hrow, if_neg]
        · exact hnone'
        · intro heq
          exact hnot (heq ▸ List.mem_map_of_mem hother))
      (by
        intro j w hj
        dsimp only at hj
        rw [hrow] at hj
        split_ifs at hj with hij
        · cases hj
          exact hij ▸ hold
        · exact hrest hj)
    refine ⟨m, ?_, fun i => ?_⟩
    · have hplaced := MultiIndex.emplace?_eq_some.2 ⟨hnone, hfits, rfl⟩
      simp only [restoreRemoved, hplaced]
      exact hrun
    · simp only [hm, hrow, List.map_cons, List.mem_cons]
      by_cases hi : item.1 = i
      · cases hi
        simp [hold]
      · have hi' : ¬ i = item.1 := fun heq => hi heq.symm
        simp only [hi, hi', if_false, false_or]

end Restore

end GenericIndex

open GenericIndex (Clash Restorable Restoring)

section Undo

variable {V : Type} {K : Keys V} {prior now : Snapshot K} {st : UndoState V} {below : List (UndoState V)}
  {s : GenericIndex K}

theorem mem_keys_toList {rows : Rows V} {i : ℕ} :
    i ∈ rows.toList.map Prod.fst ↔ (rows[i]?).isSome := by
  rw [Std.ExtTreeMap.map_fst_toList_eq_keys, Std.ExtTreeMap.mem_keys,
    Std.ExtTreeMap.isSome_getElem?_iff_mem]

theorem Records.restoring (h : Records st prior now) :
    Restoring prior.indices st.oldValues.toList now.indices where
  sorted := Std.ExtTreeMap.ordered_keys_toList.imp fun hlt => Nat.compare_eq_lt.1 hlt
  old := by
    rintro ⟨i, v⟩ hitem
    have hv := Std.ExtTreeMap.mem_toList_iff_getElem?_eq_some.1 hitem
    have htrack := h.track i
    generalize hmark : st.mark i = mark, prior.indices.rows[i]? = was, now.indices.rows[i]? = is at htrack ⊢
    have hold : mark.old = some v := hmark ▸ hv
    cases htrack with
    | upd =>
      cases hold
      exact ⟨rfl, rfl⟩
    | _ => cases hold
  rest := by
    intro j w hj
    have htrack := h.track j
    rw [hj] at htrack
    generalize hmark : st.mark j = mark, prior.indices.rows[j]? = was at htrack ⊢
    cases htrack with
    | nop => exact .inr (.inr rfl)
    | upd was =>
      left
      rw [mem_keys_toList, show st.oldValues[j]? = some was from congrArg Mark.old hmark]
      rfl
    | new => exact .inr (.inl rfl)

theorem Track.unique {was was' is : Option V} {mark : Mark V} (h : Track was is mark)
    (h' : Track was' is mark) : was = was' := by
  cases h <;> cases h' <;> rfl

/-- The notes tell all of the objects that there were. -/
theorem Records.unique {prior' : Snapshot K} (h : Records st prior now) (h' : Records st prior' now) :
    prior'.indices = prior.indices :=
  MultiIndex.ext_rows fun i => (h'.track i).unique (h.track i)

theorem Records.restorable_iff (h : Records st prior now) :
    Restorable prior.indices st.oldValues.toList now.indices ↔ ¬ Clash prior.indices now.indices := by
  constructor
  · rintro hall ⟨i, j, v, w, hi, hkept, hj, hlater, hshare⟩
    have htrack := h.track i
    rw [hi] at htrack
    obtain ⟨x, hx⟩ := Option.isSome_iff_exists.1 hkept
    rw [hx] at htrack
    generalize hmark : st.mark i = mark at htrack
    cases htrack with
    | nop =>
      -- not modified, so the key is held twice already
      cases now.indices.unique hx hj hshare
      rcases hlater with hnew | hlt
      · rw [hi] at hnew
        cases hnew
      · exact lt_irrefl _ hlt
    | upd =>
      have hitem : (i, v) ∈ st.oldValues.toList :=
        Std.ExtTreeMap.mem_toList_iff_getElem?_eq_some.2 (congrArg Mark.old hmark)
      exact hall (i, v) hitem hj hlater hshare
  · rintro hno ⟨i, v⟩ hitem j w hj hlater hshare
    obtain ⟨hi, hkept⟩ := h.restoring.old (i, v) hitem
    exact hno ⟨i, j, v, w, hi, hkept, hj, hlater, hshare⟩

/-- What the loops of `undo` leave under an id, one after the other. -/
def restoredRow (st : UndoState V) (prior now : MultiIndex K) (i : ℕ) : Option V :=
  if i ∈ st.oldValues.toList.map Prod.fst then prior.rows[i]? else now.rows[i]?

def erasedRow (st : UndoState V) (prior now : MultiIndex K) (i : ℕ) : Option V :=
  if i ∈ st.newIds.toList then none else restoredRow st prior now i

theorem mem_newIds {i : ℕ} : i ∈ st.newIds.toList ↔ (st.mark i).isNew = true := by
  rw [Std.ExtTreeSet.mem_toList, ← Std.ExtTreeSet.contains_iff_mem]
  rfl

theorem mem_oldValues {i : ℕ} : i ∈ st.oldValues.toList.map Prod.fst ↔ (st.mark i).old.isSome := by
  rw [mem_keys_toList]
  rfl

theorem mem_removedValues {i : ℕ} :
    i ∈ st.removedValues.toList.map Prod.fst ↔ (st.mark i).removed.isSome := by
  rw [mem_keys_toList]
  rfl

theorem Records.restored_new (h : Records st prior now) {i : ℕ} (hi : i ∈ st.newIds.toList) :
    (restoredRow st prior.indices now.indices i).isSome := by
  have htrack := h.track i
  rw [mem_newIds] at hi
  unfold restoredRow
  simp only [mem_oldValues]
  generalize st.mark i = mark, prior.indices.rows[i]? = was, now.indices.rows[i]? = is at htrack hi ⊢
  cases htrack with
  | new => simp
  | _ => cases hi

theorem Records.erased_removed (h : Records st prior now) {item : ℕ × V}
    (hitem : item ∈ st.removedValues.toList) :
    prior.indices.rows[item.1]? = some item.2 ∧
      erasedRow st prior.indices now.indices item.1 = none := by
  have htrack := h.track item.1
  have hremoved : (st.mark item.1).removed = some item.2 :=
    Std.ExtTreeMap.mem_toList_iff_getElem?_eq_some.1 hitem
  unfold erasedRow restoredRow
  simp only [mem_newIds, mem_oldValues]
  generalize st.mark item.1 = mark, prior.indices.rows[item.1]? = was,
    now.indices.rows[item.1]? = is at htrack hremoved ⊢
  cases htrack with
  | del =>
    cases hremoved
    simp
  | _ => cases hremoved

theorem Records.erased_row (h : Records st prior now) (i : ℕ) :
    erasedRow st prior.indices now.indices i
      = if i ∈ st.removedValues.toList.map Prod.fst then none else prior.indices.rows[i]? := by
  have htrack := h.track i
  unfold erasedRow restoredRow
  simp only [mem_newIds, mem_oldValues, mem_removedValues]
  generalize st.mark i = mark, prior.indices.rows[i]? = was, now.indices.rows[i]? = is at htrack ⊢
  cases htrack <;> simp

/-- Once the old values are back, undoing goes through. -/
theorem GenericIndex.undo_of_restored (hstack : s.stack = st :: below) (h : Records st prior s.now)
    {s₁ : GenericIndex K} (hrun : restoreOld st.oldValues.toList s = .ok () s₁) :
    undo s = .ok () ⟨prior.indices, prior.nextId, s.revision - 1, below⟩ := by
  obtain ⟨m₁, rfl, hm₁⟩ := restoreOld_ok hrun h.restoring
  have hnew : ∀ i ∈ st.newIds.toList, (m₁.rows[i]?).isSome := by
    intro i hi
    rw [hm₁]
    exact h.restored_new hi
  have hnodup : st.newIds.toList.Nodup :=
    Std.ExtTreeSet.distinct_toList.imp fun hne heq => hne (Nat.compare_eq_eq.2 heq)
  obtain ⟨m₂, hrun₂, hm₂⟩ := eraseNew_ok (s := { s with indices := m₁ }) hnodup hnew
  have hrow (i : ℕ) : m₂.rows[i]? = erasedRow st prior.indices s.now.indices i := by
    simp only [hm₂, hm₁]
    rfl
  have hremoved : ∀ item ∈ st.removedValues.toList,
      prior.indices.rows[item.1]? = some item.2 ∧ m₂.rows[item.1]? = none := by
    intro item hitem
    rw [hrow]
    exact h.erased_removed hitem
  have hrest : ∀ {j : ℕ} {w : V}, m₂.rows[j]? = some w → prior.indices.rows[j]? = some w := by
    intro j w hj
    rw [hrow, h.erased_row] at hj
    split_ifs at hj
    exact hj
  have hkeys : (st.removedValues.toList.map Prod.fst).Nodup := by
    rw [Std.ExtTreeMap.map_fst_toList_eq_keys]
    exact Std.ExtTreeMap.nodup_keys
  obtain ⟨m₃, hrun₃, hm₃⟩ := restoreRemoved_ok (s := { s with indices := m₂, nextId := st.oldNextId })
    hkeys hremoved hrest
  have hprior : m₃ = prior.indices := by
    refine MultiIndex.ext_rows fun i => ?_
    rw [hm₃]
    split_ifs with hi
    · rfl
    · dsimp only
      rw [hrow, h.erased_row, if_neg hi]
  have hset : setNextId st.oldNextId { s with indices := m₂ }
      = .ok () { s with indices := m₂, nextId := st.oldNextId } := rfl
  unfold undo
  rw [hstack]
  dsimp only
  rw [run_bind_ok hrun, run_bind_ok hrun₂, run_bind_ok hset, run_bind_ok hrun₃, hprior, h.nextId]
  rfl

end Undo

namespace GenericIndex

section Sessions

variable {V : Type} {K : Keys V} {prior : Snapshot K} {st : UndoState V} {below : List (UndoState V)}
  {s s' : GenericIndex K} {ops : List (Op V)}

theorem undo_iff (hstack : s.stack = st :: below) (h : Records st prior s.now) :
    undo s = .ok () ⟨prior.indices, prior.nextId, s.revision - 1, below⟩ ↔
      ¬ Clash prior.indices s.indices := by
  have hold : (∃ s₁, restoreOld st.oldValues.toList s = .ok () s₁) ↔ ¬ Clash prior.indices s.indices :=
    (restoreOld_iff h.restoring).trans h.restorable_iff
  rw [← hold]
  constructor
  · intro hrun
    unfold undo at hrun
    rw [hstack] at hrun
    obtain ⟨⟨⟩, s₁, hrun₁, -⟩ := run_bind_eq_ok.1 hrun
    exact ⟨s₁, hrun₁⟩
  · rintro ⟨s₁, hrun₁⟩
    exact undo_of_restored hstack h hrun₁

/-- What undoing leaves when it does not throw. -/
theorem undo_ok (hstack : s.stack = st :: below) (h : Records st prior s.now)
    (hrun : undo s = .ok () s') : s' = ⟨prior.indices, prior.nextId, s.revision - 1, below⟩ := by
  have hrun' := hrun
  unfold undo at hrun'
  rw [hstack] at hrun'
  obtain ⟨⟨⟩, s₁, hrun₁, -⟩ := run_bind_eq_ok.1 hrun'
  rw [undo_of_restored hstack h hrun₁] at hrun
  cases hrun
  rfl

/-- Undoing a session brings back everything exactly if no object that stays has had a key that an object
of the session, or a later one that stays, now holds. -/
theorem undo_exact_iff (hfresh : s.now.Fresh) (hrun : runOps ops s.startUndoSession = .ok () s') :
    undo s' = .ok () s ↔ ¬ Clash s.indices s'.indices := by
  have hkeeps := runOps_keeps hrun
  obtain ⟨st, hstack, -, hrec⟩ := hkeeps.records hfresh rfl (Records.start s.now (s.revision + 1))
  have hundo := undo_iff hstack hrec
  rw [hkeeps.revision] at hundo
  exact hundo

end Sessions

/-! ## The index and its snapshots -/

section Refinement

variable {V : Type} {K : Keys V} {s s' : GenericIndex K} {u : Undo (Snapshot K)}

/-- Each session's notes lead from the state after it to the state before it. -/
inductive Shows : List (UndoState V) → List (ℕ × Snapshot K) → Snapshot K → Prop
  | closed (now : Snapshot K) : Shows [] [] now
  | opened {st : UndoState V} {below : List (UndoState V)} {prior now : Snapshot K}
      {priors : List (ℕ × Snapshot K)} (fresh : prior.Fresh) (records : Records st prior now)
      (rest : Shows below priors prior) : Shows (st :: below) ((st.revision, prior) :: priors) now

/-- The index with its notes stands for a history of whole states. -/
structure Refines (s : GenericIndex K) (u : Undo (Snapshot K)) : Prop where
  cur : u.cur = s.now
  revision : u.revision = s.revision
  fresh : s.now.Fresh
  stack : Shows s.stack u.stack s.now

theorem Refines.empty : Refines (K := K) {} { cur := ⟨.empty, 0⟩ } where
  cur := rfl
  revision := rfl
  fresh := fun _ => Std.ExtTreeMap.getElem?_empty
  stack := .closed _

/-- Operations change the current state alone. -/
theorem Refines.keeps (h : Refines s u) (hkeeps : Keeps s s') : Refines s' (u.withCur s'.now) := by
  refine ⟨rfl, h.revision.trans hkeeps.revision.symm, hkeeps.fresh h.fresh, ?_⟩
  have hshows := h.stack
  rw [Undo.withCur_stack]
  generalize hs : s.stack = stack, u.stack = priors, hn : s.now = now at hshows
  cases hshows with
  | closed =>
    rw [hkeeps.closed hs]
    exact .closed _
  | opened fresh records rest =>
    obtain ⟨st', hs', hrevision, hrecords⟩ := hkeeps.records fresh hs (hn ▸ records)
    rw [hs', ← hrevision]
    exact .opened fresh hrecords rest

theorem Refines.start (h : Refines s u) : Refines s.startUndoSession u.start := by
  refine ⟨h.cur, congrArg (· + 1) h.revision, h.fresh, ?_⟩
  have hstack : u.start.stack = (s.revision + 1, s.now) :: u.stack := by
    rw [Undo.start, h.cur, h.revision]
  rw [hstack]
  exact .opened h.fresh (Records.start s.now (s.revision + 1)) h.stack

theorem Refines.undo (h : Refines s u) (hrun : undo s = .ok () s') : Refines s' u.undo := by
  have hshows := h.stack
  unfold Undo.undo
  generalize hs : s.stack = stack, hu : u.stack = priors, hn : s.now = now at hshows
  cases hshows with
  | closed =>
    unfold GenericIndex.undo at hrun
    rw [hs] at hrun
    cases hrun
    exact h
  | opened fresh records rest =>
    cases undo_ok hs (hn ▸ records) hrun
    exact ⟨rfl, congrArg (· - 1) h.revision, fresh, rest⟩

theorem Refines.squash (h : Refines s u) : Refines s.squash u.squash := by
  have hshows := h.stack
  unfold Undo.squash GenericIndex.squash
  generalize hs : s.stack = stack, hu : u.stack = priors, hn : s.now = now at hshows
  cases hshows with
  | closed => exact h
  | opened fresh records rest =>
    cases rest with
    | closed => exact ⟨h.cur, h.revision, h.fresh, .closed _⟩
    | @opened prev _ prior _ _ fresh' records' rest' =>
      refine ⟨h.cur, congrArg (· - 1) h.revision, h.fresh, ?_⟩
      have hrevision (state : UndoState V) : (prev.merge state).revision = prev.revision :=
        congrArg Prod.snd (UndoState.begin_merge prev state)
      have hmerged := Shows.opened fresh' (hn ▸ records'.merge fresh' records) rest'
      rw [hrevision] at hmerged
      exact hmerged

theorem rdropWhile_cons {A : Type} (p : A → Bool) (a : A) (l : List A) :
    (a :: l).rdropWhile p = if l.rdropWhile p = [] ∧ p a then [] else a :: l.rdropWhile p := by
  unfold List.rdropWhile
  rw [List.reverse_cons, List.dropWhile_append]
  cases hdrop : l.reverse.dropWhile p with
  | nil =>
    by_cases ha : p a
    · simp [ha]
    · simp [ha]
  | cons b bs => simp

theorem Shows.commit {stack : List (UndoState V)} {priors : List (ℕ × Snapshot K)} {now : Snapshot K}
    (h : Shows stack priors now) (n : ℕ) :
    Shows (stack.rdropWhile (·.revision ≤ n)) (priors.rdropWhile (·.1 ≤ n)) now ∧
      (stack.rdropWhile (·.revision ≤ n) = [] ↔ priors.rdropWhile (·.1 ≤ n) = []) := by
  induction h with
  | closed => exact ⟨.closed _, by simp⟩
  | @opened st below prior now priors fresh records rest ih =>
    obtain ⟨hshows, hempty⟩ := ih
    rw [rdropWhile_cons, rdropWhile_cons]
    by_cases hdrop : below.rdropWhile (·.revision ≤ n) = [] ∧ decide (st.revision ≤ n) = true
    · rw [if_pos hdrop, if_pos ⟨hempty.1 hdrop.1, hdrop.2⟩]
      exact ⟨.closed _, by simp⟩
    · rw [if_neg hdrop, if_neg fun hdrop' => hdrop ⟨hempty.2 hdrop'.1, hdrop'.2⟩]
      exact ⟨.opened fresh records hshows, by simp⟩

theorem Refines.commit (h : Refines s u) (n : ℕ) : Refines (s.commit n) (u.commit n) :=
  ⟨h.cur, h.revision, h.fresh, (h.stack.commit n).1⟩

/-- What operations, sessions and their ends lead to from an empty index. -/
inductive Reached : GenericIndex K → Prop
  | empty : Reached {}
  | op {s s' : GenericIndex K} {op : Op V} (before : Reached s) (run : runOp op s = .ok () s') :
      Reached s'
  | start {s : GenericIndex K} (before : Reached s) : Reached s.startUndoSession
  | undo {s s' : GenericIndex K} (before : Reached s) (run : undo s = .ok () s') : Reached s'
  | squash {s : GenericIndex K} (before : Reached s) : Reached s.squash
  | commit {s : GenericIndex K} (before : Reached s) (revision : ℕ) : Reached (s.commit revision)

theorem Reached.ops {ops : List (Op V)} (h : Reached s) (hrun : runOps ops s = .ok () s') :
    Reached s' := by
  induction ops generalizing s with
  | nil =>
    cases hrun
    exact h
  | cons op ops ih =>
    obtain ⟨⟨⟩, s₁, h₁, hrun⟩ := run_bind_eq_ok.1 hrun
    exact ih (.op h h₁) hrun

/-- Every index stands for such a history. -/
theorem Reached.refines (h : Reached s) : ∃ u, Refines s u := by
  induction h with
  | empty => exact ⟨_, .empty⟩
  | op _ run ih =>
    obtain ⟨u, hu⟩ := ih
    exact ⟨_, hu.keeps (runOp_keeps run)⟩
  | start _ ih =>
    obtain ⟨u, hu⟩ := ih
    exact ⟨_, hu.start⟩
  | undo _ run ih =>
    obtain ⟨u, hu⟩ := ih
    exact ⟨_, hu.undo run⟩
  | squash _ ih =>
    obtain ⟨u, hu⟩ := ih
    exact ⟨_, hu.squash⟩
  | commit _ n ih =>
    obtain ⟨u, hu⟩ := ih
    exact ⟨_, hu.commit n⟩

end Refinement

/-! ## Squashing -/

section Squash

variable {V : Type} {K : Keys V} {s a b : GenericIndex K} {A B : List (Op V)}

/-- The newest session began with these objects. -/
def Began (s : GenericIndex K) (prior : MultiIndex K) : Prop :=
  ∃ nextId st below, s.stack = st :: below ∧ Snapshot.Fresh ⟨prior, nextId⟩ ∧
    Records st ⟨prior, nextId⟩ s.now

/-- `a` is what the operations of a session left, and `b` what those of a session above it left then:
squashed and undone the two leave what undoing the first leaves, and squashing takes one from the
revision and nothing from the objects. -/
structure SquashFaithful (s a b : GenericIndex K) : Prop where
  undone : s.stack ≠ [] → ∃ r, undo a = .ok () r ∧ undo b.squash = .ok () r
  revision : b.squash.revision + 1 = b.revision
  objects : b.squash.indices = b.indices

theorem squash_faithful_iff (hs : Reached s) (hA : runOps A s = .ok () a)
    (hB : runOps B a.startUndoSession = .ok () b) :
    SquashFaithful s a b ↔
      ∃ prior, s.Began prior ∧ ¬ Clash prior a.indices ∧ ¬ Clash prior b.indices := by
  obtain ⟨u, hu⟩ := hs.refines
  have ha := runOps_keeps hA
  have hb := runOps_keeps hB
  have hfresh : a.now.Fresh := ha.fresh hu.fresh
  obtain ⟨st₂, hstack₂, -, hrec₂⟩ := hb.records hfresh rfl (Records.start a.now (a.revision + 1))
  have hshows := hu.stack
  generalize hstack : s.stack = stack, u.stack = priors, hnow : s.now = now at hshows
  cases hshows with
  | closed =>
    -- the session of `b` is alone, and its end leaves the revision
    have hclosed : b.squash = { b with stack := [] } := by
      unfold GenericIndex.squash
      rw [hstack₂, ha.closed hstack]
    constructor
    · intro h
      have hrevision := h.revision
      rw [hclosed] at hrevision
      exact absurd hrevision (Nat.succ_ne_self _)
    · rintro ⟨prior, ⟨nextId, st, below, hopen, -⟩, -⟩
      rw [hstack] at hopen
      cases hopen
  | @opened st below prior _ _ fresh records rest =>
    obtain ⟨st₁, hstack₁, -, hrec₁⟩ := ha.records fresh hstack (hnow ▸ records)
    have hsquash : b.squash
        = { b with stack := st₁.merge st₂ :: below, revision := b.revision - 1 } := by
      unfold GenericIndex.squash
      rw [hstack₂, hstack₁]
    have hrevision : b.revision = a.revision + 1 := hb.revision
    have hmerged : Records (st₁.merge st₂) prior b.squash.now := by
      rw [hsquash]
      exact hrec₁.merge fresh hrec₂
    have hundoA := undo_iff hstack₁ hrec₁
    have hundoB := undo_iff (by rw [hsquash]) hmerged
    have hsame : b.squash.revision - 1 = a.revision - 1 := by
      rw [hsquash, hrevision]
      rfl
    rw [hsame] at hundoB
    have hobjects : b.squash.indices = b.indices := by rw [hsquash]
    rw [hobjects] at hundoB
    constructor
    · intro h
      obtain ⟨r, hr, hr'⟩ := h.undone (by rw [hstack]; exact List.cons_ne_nil _ _)
      cases undo_ok hstack₁ hrec₁ hr
      refine ⟨prior.indices, ⟨prior.nextId, st, below, hstack, fresh, hnow ▸ records⟩, ?_, ?_⟩
      · exact hundoA.1 hr
      · exact hundoB.1 hr'
    · rintro ⟨prior', ⟨nextId, st', below', hopen, -, hrec'⟩, hnoA, hnoB⟩
      rw [hstack] at hopen
      cases hopen
      have hprior : prior' = prior.indices := (hnow ▸ records).unique hrec'
      refine ⟨fun _ => ⟨_, hundoA.2 ?_, hundoB.2 ?_⟩, ?_, hobjects⟩
      · exact hprior ▸ hnoA
      · exact hprior ▸ hnoB
      · rw [hsquash, hrevision]
        rfl

end Squash

/-! ## Two objects -/

instance {V : Type} {K : Keys V} (prior now : MultiIndex K) : Decidable (Clash prior now) :=
  decidable_of_iff (∃ r ∈ prior.rows.toList, ∃ r' ∈ now.rows.toList, (now.rows[r.1]?).isSome ∧
      (prior.rows[r'.1]? = none ∨ r.1 < r'.1) ∧ K.Share r.2 r'.2) <| by
    simp only [Prod.exists, Std.ExtTreeMap.mem_toList_iff_getElem?_eq_some]
    constructor
    · rintro ⟨i, v, hi, j, w, hj, hkept, hlater, hshare⟩
      exact ⟨i, j, v, w, hi, hkept, hj, hlater, hshare⟩
    · rintro ⟨i, j, v, w, hi, hkept, hj, hlater, hshare⟩
      exact ⟨i, v, hi, j, w, hj, hkept, hlater, hshare⟩

/-- Numbers that are their own keys. -/
def numberKey : Keys ℕ := ⟨1, fun _ => ℕ, fun _ => inferInstance, fun _ v => v⟩

def twoObjects : GenericIndex numberKey := stateOf (runOps [.create 10, .create 20] {})

theorem twoObjects_reached : Reached twoObjects := .ops .empty (run_of_eval (by decide))

/-- One of the two objects changes its key, the other makes room for a third. -/
def change : List (Op ℕ) := [.modify 1 fun _ => 25, .remove 0, .create 10]

def changed : GenericIndex numberKey := stateOf (runOps change twoObjects.startUndoSession)

theorem undo_exact_changed :
    runOps change twoObjects.startUndoSession = .ok () changed ∧ undo changed = .ok () twoObjects := by
  obtain ⟨u, hu⟩ := twoObjects_reached.refines
  have hrun : runOps change twoObjects.startUndoSession = .ok () changed :=
    run_of_eval (by decide)
  exact ⟨hrun, (undo_exact_iff hu.fresh hrun).2 (by decide)⟩

/-- The two objects exchange their keys. -/
def exchange : List (Op ℕ) := [.modify 0 fun _ => 30, .modify 1 fun _ => 10, .modify 0 fun _ => 20]

def exchanged : GenericIndex numberKey := stateOf (runOps exchange twoObjects.startUndoSession)

theorem undo_throws_exchanged :
    Reached twoObjects ∧ runOps exchange twoObjects.startUndoSession = .ok () exchanged ∧
      undo exchanged ≠ .ok () twoObjects := by
  refine ⟨twoObjects_reached, run_of_eval (by decide), fun hundo => ?_⟩
  have hthrows : (match undo exchanged with | .ok _ _ => false | .error _ _ => true) = true := by
    decide
  rw [hundo] at hthrows
  cases hthrows

def changedTwice : GenericIndex numberKey :=
  stateOf (runOps [.modify 1 fun _ => 35] changed.startUndoSession)

theorem squash_faithful_changed :
    Reached twoObjects.startUndoSession ∧
      SquashFaithful twoObjects.startUndoSession changed changedTwice := by
  have hreached : Reached twoObjects.startUndoSession := .start twoObjects_reached
  have hfirst : runOps change twoObjects.startUndoSession = .ok () changed :=
    run_of_eval (by decide)
  have hsecond : runOps [.modify 1 fun _ => 35] changed.startUndoSession = .ok () changedTwice :=
    run_of_eval (by decide)
  obtain ⟨u, hu⟩ := twoObjects_reached.refines
  refine ⟨hreached, (squash_faithful_iff hreached hfirst hsecond).2 ⟨twoObjects.indices, ?_, ?_, ?_⟩⟩
  · exact ⟨_, _, _, rfl, hu.fresh, Records.start twoObjects.now (twoObjects.revision + 1)⟩
  · decide
  · decide

/-- A session that is alone. -/
def createdAlone : GenericIndex numberKey :=
  stateOf (runOps [.create 10] (startUndoSession ({} : GenericIndex numberKey)))

theorem squash_alone_keeps_revision :
    Reached (K := numberKey) {} ∧
      runOps [.create 10] (startUndoSession ({} : GenericIndex numberKey)) = .ok () createdAlone ∧
      createdAlone.revision = 1 ∧ createdAlone.squash.revision = 1 :=
  ⟨.empty, run_of_eval (by decide), by decide, by decide⟩

end GenericIndex

end XmaxChain
