import Mathlib.Data.List.Sort
import Mathlib.Tactic

/-!
# Ordered indices with repeated keys

An ordered index that allows equal keys, as a list: a new element goes behind its equals, and an
element whose key has changed moves only when it is out of place between its two neighbours.
-/

namespace OrderedIndex

variable {α : Type*} (le : α → α → Prop) [DecidableRel le]

/-- Puts `a` in front of the first element greater than it. -/
def upperInsert (a : α) : List α → List α
  | [] => [a]
  | b :: l => if le b a then b :: upperInsert a l else a :: b :: l

variable [DecidableEq α]

/-- The elements just before and just after `a` are on their sides of it. -/
def inPlace (a : α) (l : List α) : Bool :=
  (l.takeWhile (· ≠ a)).getLast?.all (fun b => le b a)
    && (l.dropWhile (· ≠ a)).tail.head?.all (fun b => le a b)

/-- What `modify` does to an index after the element `a` has changed its key. -/
def relocate (a : α) (l : List α) : List α :=
  if inPlace le a l then l else upperInsert le a (l.erase a)

section Perm

omit [DecidableEq α] in
theorem upperInsert_perm (a : α) (l : List α) : (upperInsert le a l).Perm (a :: l) := by
  induction l with
  | nil => exact .refl _
  | cons b l ih =>
    unfold upperInsert
    split_ifs
    · exact (ih.cons b).trans (.swap a b l)
    · exact .refl _

theorem relocate_perm {a : α} {l : List α} (h : a ∈ l) : (relocate le a l).Perm l := by
  unfold relocate
  split_ifs
  · exact .refl _
  · exact (upperInsert_perm le a _).trans (List.perm_cons_erase h).symm

end Perm

section Sorted

variable {le}

omit [DecidableEq α] in
theorem mem_upperInsert {a b : α} {l : List α} : b ∈ upperInsert le a l ↔ b = a ∨ b ∈ l := by
  rw [(upperInsert_perm le a l).mem_iff, List.mem_cons]

variable (htotal : ∀ a b, le a b ∨ le b a) (htrans : ∀ a b c, le a b → le b c → le a c)
include htotal htrans

omit [DecidableEq α] in
theorem upperInsert_sorted {a : α} {l : List α} (h : l.Pairwise le) :
    (upperInsert le a l).Pairwise le := by
  induction l with
  | nil => exact List.pairwise_singleton _ _
  | cons b l ih =>
    have hb := List.pairwise_cons.1 h
    unfold upperInsert
    split_ifs with hba
    · refine List.pairwise_cons.2 ⟨fun x hx => ?_, ih hb.2⟩
      rcases mem_upperInsert.1 hx with rfl | hx
      · exact hba
      · exact hb.1 x hx
    · have hab : le a b := (htotal a b).resolve_right hba
      refine List.pairwise_cons.2 ⟨fun x hx => ?_, h⟩
      rcases List.mem_cons.1 hx with rfl | hx
      · exact hab
      · exact htrans _ _ _ hab (hb.1 x hx)

omit htotal in
/-- In place between its neighbours is in place in a list sorted but for `a`. -/
theorem sorted_of_inPlace {a : α} {l₁ l₂ : List α} (ha : a ∉ l₁) (h : (l₁ ++ l₂).Pairwise le)
    (hin : inPlace le a (l₁ ++ a :: l₂)) : (l₁ ++ a :: l₂).Pairwise le := by
  have hne : ∀ b ∈ l₁, decide (b ≠ a) = true := fun b hb => by
    simp only [ne_eq, decide_not, Bool.not_eq_eq_eq_not, Bool.not_true, decide_eq_false_iff_not]
    rintro rfl
    exact ha hb
  have htake : (l₁ ++ a :: l₂).takeWhile (· ≠ a) = l₁ := by
    rw [List.takeWhile_append_of_pos hne]
    simp
  have hdrop : (l₁ ++ a :: l₂).dropWhile (· ≠ a) = a :: l₂ := by
    rw [List.dropWhile_append_of_pos hne]
    simp
  unfold inPlace at hin
  rw [htake, hdrop, Bool.and_eq_true] at hin
  obtain ⟨h₁, h₂, h₁₂⟩ := List.pairwise_append.1 h
  have hbefore : ∀ b ∈ l₁, le b a := by
    rcases List.eq_nil_or_concat l₁ with rfl | ⟨l, last, rfl⟩
    · simp
    · simp only [List.concat_eq_append, List.getLast?_append, List.getLast?_singleton,
        Option.some_or, Option.all_some, decide_eq_true_eq] at hin
      rw [List.concat_eq_append] at h₁ ⊢
      intro b hb
      rcases List.mem_append.1 hb with hb | hb
      · exact htrans _ _ _ ((List.pairwise_append.1 h₁).2.2 b hb last (by simp)) hin.1
      · rw [List.mem_singleton.1 hb]
        exact hin.1
  have hafter : ∀ b ∈ l₂, le a b := by
    cases l₂ with
    | nil => simp
    | cons c l₂ =>
      simp only [List.tail_cons, List.head?_cons, Option.all_some, decide_eq_true_eq] at hin
      intro b hb
      rcases List.mem_cons.1 hb with rfl | hb
      · exact hin.2
      · exact htrans _ _ _ hin.2 (List.rel_of_pairwise_cons h₂ hb)
  refine List.pairwise_append.2 ⟨h₁, List.pairwise_cons.2 ⟨hafter, h₂⟩, fun x hx y hy => ?_⟩
  rcases List.mem_cons.1 hy with rfl | hy
  · exact hbefore x hx
  · exact h₁₂ x hx y hy

/-- Relocating the one element whose key has changed sorts the index again. -/
theorem relocate_sorted {a : α} {l : List α} (ha : a ∈ l) (hnodup : l.Nodup)
    (h : (l.erase a).Pairwise le) : (relocate le a l).Pairwise le := by
  unfold relocate
  split_ifs with hin
  · obtain ⟨l₁, l₂, rfl⟩ := List.append_of_mem ha
    have ha₁ : a ∉ l₁ := fun hmem => (List.nodup_append.1 hnodup).2.2 a hmem a (by simp) rfl
    rw [List.erase_append_right _ ha₁, List.erase_cons_head] at h
    exact sorted_of_inPlace htrans ha₁ h hin
  · exact upperInsert_sorted htotal htrans h

end Sorted

end OrderedIndex
