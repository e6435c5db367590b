import Mathlib.Data.List.DropRight
import Mathlib.Tactic

/-!
# Undo history

A state with a stack of sessions, the newest first. A session has a revision, one more than the
one below it, and the state as it was when the session began: that is what undoing it restores.
-/

structure Undo (D : Type) where
  cur : D
  stack : List (ℕ × D) := []
  revision : ℕ := 0

namespace Undo

variable {D : Type}

def start (u : Undo D) : Undo D :=
  { cur := u.cur, stack := (u.revision + 1, u.cur) :: u.stack, revision := u.revision + 1 }

def undo (u : Undo D) : Undo D :=
  match u.stack with
  | [] => u
  | top :: below => { cur := top.2, stack := below, revision := u.revision - 1 }

/-- Two sessions become one; a session that is alone is only forgotten, and keeps its revision. -/
def squash (u : Undo D) : Undo D :=
  match u.stack with
  | [] => u
  | [_] => { u with stack := [] }
  | _ :: below => { u with stack := below, revision := u.revision - 1 }

/-- Forgets the sessions up to a revision, from the oldest. -/
def commit (u : Undo D) (revision : ℕ) : Undo D :=
  { u with stack := u.stack.rdropWhile (·.1 ≤ revision) }

/-- Undoes sessions until there is none. -/
def undoAll (u : Undo D) : Undo D := u.stack.foldl (fun u _ => u.undo) u

def setRevision (u : Undo D) (revision : ℕ) : Undo D := { u with revision }

def withCur (u : Undo D) (d : D) : Undo D := { u with cur := d }

@[simp] theorem withCur_stack (u : Undo D) (d : D) : (u.withCur d).stack = u.stack := rfl

@[simp] theorem withCur_revision (u : Undo D) (d : D) : (u.withCur d).revision = u.revision := rfl

@[simp] theorem withCur_cur (u : Undo D) (d : D) : (u.withCur d).cur = d := rfl

/-- Undoing a session forgets whatever was done in it. -/
@[simp] theorem undo_withCur_start (u : Undo D) (d : D) : (u.start.withCur d).undo = u := by
  cases u; rfl

/-- A session inside another one leaves only its changes when it is squashed. -/
theorem squash_withCur_start {u : Undo D} (h : u.stack ≠ []) (d : D) :
    (u.start.withCur d).squash = u.withCur d := by
  obtain ⟨cur, stack, revision⟩ := u
  match stack, h with
  | top :: below, _ => rfl

/-- A session above a revision is not forgotten with the ones up to it. -/
theorem commit_withCur_start {u : Undo D} {n : ℕ} (h : n ≤ u.revision) (d : D) :
    (u.start.withCur d).commit n = (u.commit n).start.withCur d := by
  have hkeep : ¬ u.revision + 1 ≤ n := by omega
  have hstack : ((u.revision + 1, u.cur) :: u.stack).rdropWhile (·.1 ≤ n)
      = (u.revision + 1, u.cur) :: u.stack.rdropWhile (·.1 ≤ n) := by
    simp only [List.rdropWhile, List.reverse_cons, List.dropWhile_append]
    split_ifs with hnil
    · rw [List.isEmpty_iff] at hnil
      simp [hnil, hkeep]
    · simp
  simp only [commit, start, withCur, hstack]

/-- A session that is alone is forgotten with its revision. -/
theorem commit_single {u : Undo D} (h : u.stack = []) (d : D) :
    (u.start.withCur d).commit (u.revision + 1) = ⟨d, [], u.revision + 1⟩ := by
  simp only [commit, start, withCur, h]
  simp [List.rdropWhile]

end Undo
