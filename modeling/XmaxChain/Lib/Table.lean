import Mathlib.Algebra.BigOperators.Group.Multiset.Basic
import Mathlib.Algebra.Order.BigOperators.Group.List
import Mathlib.Algebra.Order.Group.Nat
import Mathlib.Data.List.Nodup

/-!
# Tables with a unique key

A table keeps its rows in the order they were created, so the place of a row serves as its id as
long as none is removed. A row is created under a key that no row has yet and modified in its place.
-/

namespace XmaxChain

structure Table (K V : Type) where
  rows : List (K × V)
  nodup : (rows.map Prod.fst).Nodup

namespace Table

variable {K V : Type}

@[ext] theorem ext_rows {t t' : Table K V} (h : t.rows = t'.rows) : t = t' := by
  cases t; cases t'; simpa using h

def empty : Table K V := ⟨[], List.nodup_nil⟩

variable [DecidableEq K]

instance [DecidableEq V] : DecidableEq (Table K V) := fun t t' =>
  decidable_of_iff (t.rows = t'.rows) ⟨ext_rows, congrArg rows⟩

def find? (t : Table K V) (k : K) : Option V := t.rows.lookup k

/-- Every row with a new value, under its key and in its place. -/
def mapRows (t : Table K V) (f : K → V → V) : Table K V where
  rows := t.rows.map fun r => (r.1, f r.1 r.2)
  nodup := by
    rw [List.map_map]
    exact t.nodup

def modify (t : Table K V) (k : K) (f : V → V) : Table K V :=
  t.mapRows fun k' v => if k' = k then f v else v

/-- The new row goes last. -/
def create? (t : Table K V) (k : K) (v : V) : Option (Table K V) :=
  if h : k ∈ t.rows.map Prod.fst then none
  else some ⟨t.rows ++ [(k, v)], by
    rw [List.map_append]
    exact t.nodup.append (List.nodup_singleton _) (by simpa using h)⟩

/-- A table of given rows; of two rows with one key the later stays. -/
def ofList (rows : List (K × V)) : Table K V where
  rows := rows.foldr (fun r t => if r.1 ∈ t.map Prod.fst then t else r :: t) []
  nodup := by
    induction rows with
    | nil => simp
    | cons r rows ih =>
      rw [List.foldr_cons]
      split
      · exact ih
      · exact List.nodup_cons.2 ⟨‹_›, ih⟩

@[simp] theorem find?_empty (k : K) : (empty : Table K V).find? k = none := rfl

@[simp] theorem find?_ofList_singleton (k : K) (v : V) : (ofList [(k, v)]).find? k = some v := by
  simp [find?, ofList]

@[simp] theorem find?_mapRows (t : Table K V) (f : K → V → V) (k : K) :
    (t.mapRows f).find? k = (t.find? k).map (f k) := by
  simp only [find?, mapRows]
  induction t.rows with
  | nil => rfl
  | cons r rows ih =>
    obtain ⟨a, v⟩ := r
    by_cases hk : k = a
    · subst hk
      simp
    · simp [List.lookup_cons, beq_false_of_ne hk, ih]

@[simp] theorem find?_modify (t : Table K V) (k k' : K) (f : V → V) :
    (t.modify k f).find? k' = (t.find? k').map fun v => if k' = k then f v else v :=
  find?_mapRows ..

theorem find?_modify_ne (t : Table K V) {k k' : K} (f : V → V) (h : k' ≠ k) :
    (t.modify k f).find? k' = t.find? k' := by
  simp [h]

/-- A field that a change keeps is the same in every row. -/
theorem map_find?_modify {W : Type} (t : Table K V) (k k' : K) {f : V → V} {h : V → W}
    (hf : ∀ v, h (f v) = h v) : ((t.modify k f).find? k').map h = (t.find? k').map h := by
  rw [find?_modify, Option.map_map]
  congr 1
  funext v
  simp only [Function.comp_apply]
  split_ifs
  · exact hf v
  · rfl

theorem mem_rows_of_find? {t : Table K V} {k : K} {v : V} (h : t.find? k = some v) :
    (k, v) ∈ t.rows := by
  obtain ⟨l₁, l₂, hsplit, -⟩ := List.lookup_eq_some_iff.1 h
  rw [hsplit]
  simp

private theorem lookup_eq_none_of_notMem {rows : List (K × V)} {k : K}
    (h : k ∉ rows.map Prod.fst) : rows.lookup k = none := by
  rw [List.lookup_eq_none_iff]
  intro r hr
  have : k ≠ r.1 := fun e => h (List.mem_map.2 ⟨r, hr, e.symm⟩)
  simpa using this

theorem create?_eq_some {t t' : Table K V} {k : K} {v : V} (h : t.create? k v = some t') :
    t.find? k = none ∧ ∀ k', t'.find? k' = if k' = k then some v else t.find? k' := by
  unfold create? at h
  split at h
  · cases h
  · rename_i hk
    cases h
    have hnone : t.find? k = none := lookup_eq_none_of_notMem hk
    refine ⟨hnone, fun k' => ?_⟩
    simp only [find?, List.lookup_append, List.lookup_cons, List.lookup_nil]
    by_cases hk' : k' = k
    · subst hk'
      simp [show t.rows.lookup k' = none from hnone]
    · simp [hk', beq_false_of_ne hk']

theorem exists_create? {t : Table K V} {k : K} (v : V) (h : t.find? k = none) :
    ∃ t', t.create? k v = some t' := by
  have hk : k ∉ t.rows.map Prod.fst := by
    intro hmem
    obtain ⟨r, hr, rfl⟩ := List.mem_map.1 hmem
    have := List.lookup_eq_none_iff.1 h r hr
    simp at this
  exact ⟨_, dif_neg hk⟩

/-- The table without the row of a key. -/
def remove (t : Table K V) (k : K) : Table K V where
  rows := t.rows.filter (·.1 ≠ k)
  nodup := t.nodup.sublist (List.filter_sublist.map _)

@[simp] theorem find?_remove (t : Table K V) (k k' : K) :
    (t.remove k).find? k' = if k' = k then none else t.find? k' := by
  simp only [find?, remove]
  induction t.rows with
  | nil => simp
  | cons r rows ih =>
    obtain ⟨a, v⟩ := r
    by_cases ha : a = k
    · rw [List.filter_cons_of_neg (by simpa using ha), ih]
      by_cases hk : k' = k
      · simp [hk]
      · simp [hk, List.lookup_cons, beq_false_of_ne (ha ▸ hk : k' ≠ a)]
    · rw [List.filter_cons_of_pos (by simpa using ha)]
      by_cases hk : k' = a
      · subst hk
        simp [ha]
      · rw [List.lookup_cons, beq_false_of_ne hk, ih, List.lookup_cons, beq_false_of_ne hk]

/-- The row of a key, in place of the one it may have had. -/
def assign (t : Table K V) (k : K) (v : V) : Table K V where
  rows := (k, v) :: (t.remove k).rows
  nodup := List.nodup_cons.2 ⟨by simp [remove], (t.remove k).nodup⟩

@[simp] theorem find?_assign (t : Table K V) (k k' : K) (v : V) :
    (t.assign k v).find? k' = if k' = k then some v else t.find? k' := by
  have hrest := find?_remove t k k'
  rw [find?] at hrest ⊢
  by_cases hk : k' = k
  · subst hk
    simp [assign]
  · rw [assign, List.lookup_cons, beq_false_of_ne hk, if_neg hk, hrest, if_neg hk]

section Sum

variable {M : Type} [AddCommMonoid M]

/-- The sum of a number taken of each row. -/
def sumRows (t : Table K V) (f : K → V → M) : M := (t.rows.map fun r => f r.1 r.2).sum

omit [DecidableEq K] in
@[simp] theorem sumRows_empty (f : K → V → M) : (empty : Table K V).sumRows f = 0 := rfl

theorem find?_of_mem_rows {t : Table K V} {k : K} {v : V} (h : (k, v) ∈ t.rows) :
    t.find? k = some v := by
  obtain ⟨rows, hnodup⟩ := t
  simp only [find?] at h ⊢
  induction rows with
  | nil => cases h
  | cons r rows ih =>
    obtain ⟨a, w⟩ := r
    rw [List.map_cons, List.nodup_cons] at hnodup
    rcases List.mem_cons.1 h with heq | hmem
    · cases heq
      simp
    · have hne : k ≠ a := fun e => hnodup.1 (List.mem_map.2 ⟨_, hmem, e⟩)
      simp [List.lookup_cons, beq_false_of_ne hne, ih hnodup.2 hmem]

theorem sumRows_congr {t : Table K V} {f g : K → V → M}
    (h : ∀ k v, t.find? k = some v → f k v = g k v) : t.sumRows f = t.sumRows g := by
  unfold sumRows
  congr 1
  exact List.map_congr_left fun r hr => h r.1 r.2 (find?_of_mem_rows hr)

theorem sumRows_le {t : Table K V} {f g : K → V → ℕ}
    (h : ∀ k v, t.find? k = some v → f k v ≤ g k v) : t.sumRows f ≤ t.sumRows g := by
  unfold sumRows
  exact List.sum_le_sum fun r hr => h r.1 r.2 (find?_of_mem_rows hr)

omit [DecidableEq K] in
theorem sumRows_add (t : Table K V) (f g : K → V → M) :
    (t.sumRows fun k v => f k v + g k v) = t.sumRows f + t.sumRows g :=
  List.sum_map_add

theorem le_sumRows {t : Table K V} {k : K} {v : V} (f : K → V → ℕ) (h : t.find? k = some v) :
    f k v ≤ t.sumRows f :=
  List.le_sum_of_mem (List.mem_map_of_mem (f := fun r => f r.1 r.2) (mem_rows_of_find? h))

omit [DecidableEq K] in
theorem sumRows_mapRows (t : Table K V) (g : K → V → V) (f : K → V → M) :
    (t.mapRows g).sumRows f = t.sumRows fun k v => f k (g k v) := by
  simp [sumRows, mapRows, Function.comp_def]

/-- Where one row is modified, the sum changes by what that row's number does. -/
theorem sumRows_modify {t : Table K V} {k : K} {v : V} (g : V → V) (f : K → V → M)
    (h : t.find? k = some v) :
    (t.modify k g).sumRows f + f k v = t.sumRows f + f k (g v) := by
  rw [modify, sumRows_mapRows]
  obtain ⟨rows, hnodup⟩ := t
  simp only [sumRows, find?] at h ⊢
  induction rows with
  | nil => cases h
  | cons r rows ih =>
    obtain ⟨a, w⟩ := r
    rw [List.map_cons, List.nodup_cons] at hnodup
    by_cases hk : k = a
    · subst hk
      rw [List.lookup_cons_self, Option.some_inj] at h
      subst h
      -- no other row has the key
      have hrest : rows.map (fun r => f r.1 (if r.1 = k then g r.2 else r.2))
          = rows.map fun r => f r.1 r.2 := by
        refine List.map_congr_left fun r hr => ?_
        have hne : r.1 ≠ k := fun e => hnodup.1 (List.mem_map.2 ⟨r, hr, e⟩)
        rw [if_neg hne]
      simp only [List.map_cons, List.sum_cons, if_true, hrest]
      rw [add_comm _ (f k w), ← add_assoc, add_right_comm]
    · rw [List.lookup_cons, beq_false_of_ne hk] at h
      simp only [List.map_cons, List.sum_cons, if_neg (Ne.symm hk)]
      rw [add_assoc, ih hnodup.2 h, add_assoc]

theorem sumRows_create {t t' : Table K V} {k : K} {v : V} (f : K → V → M)
    (h : t.create? k v = some t') : t'.sumRows f = t.sumRows f + f k v := by
  unfold create? at h
  split at h
  · cases h
  · cases h
    simp [sumRows]

omit [DecidableEq K] in
/-- Numbers taken of pairs of a row and a row of another table sum up alike in either order. -/
theorem sumRows_comm {K' V' : Type} (t : Table K V) (t' : Table K' V')
    (f : K → V → K' → V' → M) :
    (t.sumRows fun k v => t'.sumRows (f k v)) =
      t'.sumRows fun k' v' => t.sumRows fun k v => f k v k' v' := by
  simp only [sumRows]
  exact Multiset.sum_map_sum_map (m := (t.rows : Multiset (K × V))) (t'.rows : Multiset (K' × V'))

/-- At most one row has a given key. -/
theorem sumRows_key_le (t : Table K V) (k : K) (n : ℕ) :
    (t.sumRows fun k' _ => if k' = k then n else 0) ≤ n := by
  obtain ⟨rows, hnodup⟩ := t
  simp only [sumRows]
  induction rows with
  | nil => exact Nat.zero_le n
  | cons r rows ih =>
    rw [List.map_cons, List.nodup_cons] at hnodup
    rw [List.map_cons, List.sum_cons]
    by_cases hk : r.1 = k
    · have hrest : rows.map (fun r => if r.1 = k then n else 0) = rows.map fun _ => 0 := by
        refine List.map_congr_left fun r' hr' => if_neg fun e => hnodup.1 ?_
        rw [hk, ← e]
        exact List.mem_map_of_mem hr'
      rw [hrest]
      simp [hk]
    · rw [if_neg hk, Nat.zero_add]
      exact ih hnodup.2

end Sum

end Table

end XmaxChain
