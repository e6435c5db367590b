import Mathlib.Logic.Relation
import Mathlib.Tactic

/-!
# How long the paths of a relation are

From a place where no cycle is reached, a path has no more steps than there are places to come to.
-/

namespace Paths

open Relation

variable {α : Type} {R : α → α → Prop} {x y : α}

/-- No path from here has so many steps. -/
def Within (R : α → α → Prop) : ℕ → α → Prop
  | 0, _ => False
  | n + 1, x => ∀ y, R x y → Within R n y

/-- A cycle is reached. -/
def MeetsCycle (R : α → α → Prop) (x : α) : Prop := ∃ y, ReflTransGen R x y ∧ TransGen R y y

theorem Within.mono {m n : ℕ} (h : Within R m x) (hmn : m ≤ n) : Within R n x := by
  induction m generalizing n x with
  | zero => exact h.elim
  | succ m ih =>
    obtain ⟨n, rfl⟩ : ∃ k, n = k + 1 := ⟨n - 1, by omega⟩
    exact fun y hy => ih (h y hy) (by omega)

theorem Within.of_end {n : ℕ} (h : ∀ y, ¬ R x y) (hn : 0 < n) : Within R n x := by
  obtain ⟨n, rfl⟩ : ∃ k, n = k + 1 := ⟨n - 1, by omega⟩
  exact fun y hy => absurd hy (h y)

theorem MeetsCycle.head (hxy : R x y) (h : MeetsCycle R y) : MeetsCycle R x := by
  obtain ⟨z, hyz, hz⟩ := h
  exact ⟨z, .head hxy hyz, hz⟩

/-- A step on leads to the cycle still. -/
theorem MeetsCycle.next (h : MeetsCycle R x) : ∃ y, R x y ∧ MeetsCycle R y := by
  obtain ⟨z, hxz, hz⟩ := h
  rcases hxz.cases_head with rfl | ⟨y, hxy, hyz⟩
  · obtain ⟨y, hxy, hyx⟩ := TransGen.head'_iff.1 hz
    exact ⟨y, hxy, x, hyx, hz⟩
  · exact ⟨y, hxy, z, hyz, hz⟩

theorem not_within_of_meetsCycle (h : MeetsCycle R x) (n : ℕ) : ¬ Within R n x := by
  induction n generalizing x with
  | zero => exact id
  | succ n ih =>
    obtain ⟨y, hxy, hy⟩ := h.next
    exact fun hx => ih hy (hx y hxy)

/-- The places that were come to are all different, so there are no more of them than places. -/
theorem within_of_visited {places visited : List α} (hplaces : ∀ x y, R x y → y ∈ places)
    (hnodup : visited.Nodup) (hsub : visited ⊆ places) (hfrom : ∀ v ∈ visited, ReflTransGen R v x)
    (hcycle : ¬ MeetsCycle R x) {n : ℕ} (hn : places.length < n + visited.length) : Within R n x := by
  induction n generalizing x visited with
  | zero =>
    have := (List.subperm_of_subset hnodup hsub).length_le
    omega
  | succ n ih =>
    intro y hxy
    have hcycle' : ¬ MeetsCycle R y := fun h => hcycle (h.head hxy)
    have hy : y ∉ visited := fun hmem => hcycle' ⟨y, .refl, .tail' (hfrom y hmem) hxy⟩
    refine ih (List.nodup_cons.2 ⟨hy, hnodup⟩) (List.cons_subset.2 ⟨hplaces x y hxy, hsub⟩) (fun v hv => ?_)
      hcycle' (by rw [List.length_cons]; omega)
    rcases List.mem_cons.1 hv with rfl | hv
    · exact .refl
    · exact (hfrom v hv).tail hxy

theorem within_of_not_meetsCycle {places : List α} (hplaces : ∀ x y, R x y → y ∈ places)
    (hcycle : ¬ MeetsCycle R x) {n : ℕ} (hn : places.length < n) : Within R n x :=
  within_of_visited hplaces List.nodup_nil (List.nil_subset _) (fun _ h => by cases h) hcycle hn

/-- One place more was seen. -/
theorem length_unseen_lt [DecidableEq α] {places seen : List α} (hx : x ∈ places) (hseen : x ∉ seen) :
    (places.filter (· ∉ seen ++ [x])).length < (places.filter (· ∉ seen)).length := by
  have hboth : places.filter (· ∉ seen ++ [x]) = (places.filter (· ∉ seen)).filter (· ≠ x) := by
    rw [List.filter_filter]
    congr 1
    funext y
    simp [not_or, and_comm]
  rw [hboth, List.length_filter_lt_length_iff_exists]
  exact ⟨x, List.mem_filter.2 ⟨hx, by simpa using hseen⟩, by simp⟩

end Paths
