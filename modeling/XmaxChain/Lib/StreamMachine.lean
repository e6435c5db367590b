import Mathlib.Tactic

/-!
# Machines that ask a source for tokens

A machine goes from state to state. In each it asks a source for tokens, or it is done with a value, or
it fails. What it comes to depends only on the answers, so on sources that answer alike it comes to the
same.
-/

namespace StreamMachine

variable {σ τ α S T : Type}

/-- After `read` too few tokens are a failure, after `get` the machine goes on without one. -/
inductive Request (σ τ α : Type)
  | read (n : ℕ) (next : List τ → σ)
  | get (next : Option τ → σ)
  | done (a : α)
  | fails

structure Machine (τ α : Type) where
  State : Type
  start : State
  step : State → Request State τ α

/-- The tokens at the front of a list. -/
def takeTokens (s : List τ) (n : ℕ) : Option (List τ × List τ) :=
  if n ≤ s.length then some (s.take n, s.drop n) else none

namespace Machine

variable (p : Machine τ α) (read : S → ℕ → Option (List τ × S)) (read' : T → ℕ → Option (List τ × T))

/-- The value, or `none` after a failure, and the source as it is then. -/
def run : ℕ → p.State → S → Option (Option α × S)
  | 0, _, _ => none
  | fuel + 1, q, s =>
    match p.step q with
    | .done a => some (some a, s)
    | .fails => some (none, s)
    | .read n next =>
      match read s n with
      | none => some (none, s)
      | some (ts, s') => run fuel (next ts) s'
    | .get next =>
      match read s 1 with
      | none => run fuel (next none) s
      | some (ts, s') => run fuel (next ts.head?) s'

/-- On a list the machine comes to a value, or fails, and leaves the rest. -/
def ComesTo (s : List τ) (r : Option α × List τ) : Prop :=
  ∃ fuel, p.run takeTokens fuel p.start s = some r

variable {p read read'}

theorem run_mono {fuel : ℕ} {q : p.State} {s : S} {r : Option α × S}
    (h : p.run read fuel q s = some r) {fuel' : ℕ} (hle : fuel ≤ fuel') :
    p.run read fuel' q s = some r := by
  induction fuel generalizing fuel' q s with
  | zero => cases h
  | succ fuel ih =>
    obtain ⟨fuel', rfl⟩ : ∃ n, fuel' = n + 1 := ⟨fuel' - 1, by omega⟩
    have hle : fuel ≤ fuel' := by omega
    rw [run] at h ⊢
    rcases hq : p.step q with ⟨n, next⟩ | next | a | _ <;> simp only [hq] at h ⊢
    · rcases hread : read s n with _ | ⟨ts, s'⟩ <;> simp only [hread] at h ⊢
      · exact h
      · exact ih h hle
    · rcases hread : read s 1 with _ | ⟨ts, s'⟩ <;> simp only [hread] at h ⊢
      · exact ih h hle
      · exact ih h hle
    · exact h
    · exact h

/-- A machine comes to one result. -/
theorem run_unique {fuel fuel' : ℕ} {q : p.State} {s : S} {r r' : Option α × S}
    (h : p.run read fuel q s = some r) (h' : p.run read fuel' q s = some r') : r = r' := by
  rcases Nat.le_total fuel fuel' with hle | hle
  · exact Option.some.inj ((run_mono h hle).symm.trans h')
  · exact Option.some.inj (h.symm.trans (run_mono h' hle))

/-- What every answer of the source keeps, a run keeps. -/
theorem run_invariant {P : S → Prop} (hread : ∀ s n ts s', P s → read s n = some (ts, s') → P s')
    {fuel : ℕ} {q : p.State} {s s' : S} {r : Option α} (hs : P s)
    (h : p.run read fuel q s = some (r, s')) : P s' := by
  induction fuel generalizing q s with
  | zero => cases h
  | succ fuel ih =>
    rw [run] at h
    rcases hq : p.step q with ⟨n, next⟩ | next | a | _ <;> simp only [hq] at h
    · rcases hanswer : read s n with _ | ⟨ts, t⟩ <;> simp only [hanswer] at h
      · cases h
        exact hs
      · exact ih (hread s n ts t hs hanswer) h
    · rcases hanswer : read s 1 with _ | ⟨ts, t⟩ <;> simp only [hanswer] at h
      · exact ih hs h
      · exact ih (hread s 1 ts t hs hanswer) h
    · cases h
      exact hs
    · cases h
      exact hs

/-- What two sources answer, related. -/
def Alike (R : S → T → Prop) (read : S → ℕ → Option (List τ × S))
    (read' : T → ℕ → Option (List τ × T)) : Prop :=
  ∀ s t n, R s t → Option.Rel (fun a b => a.1 = b.1 ∧ R a.2 b.2) (read s n) (read' t n)

theorem run_alike {R : S → T → Prop} (halike : Alike R read read') {s : S} {t : T} (hst : R s t)
    (fuel : ℕ) (q : p.State) :
    Option.Rel (fun a b => a.1 = b.1 ∧ R a.2 b.2) (p.run read fuel q s) (p.run read' fuel q t) := by
  induction fuel generalizing q s t with
  | zero => exact .none
  | succ fuel ih =>
    rw [run, run]
    rcases p.step q with ⟨n, next⟩ | next | a | _ <;> simp only
    · have hread := halike s t n hst
      generalize read s n = o, read' t n = o' at hread ⊢
      rcases hread with @⟨a, b, heq, hrest⟩ | _
      · simp only [heq]
        exact ih hrest _
      · exact .some ⟨rfl, hst⟩
    · have hread := halike s t 1 hst
      generalize read s 1 = o, read' t 1 = o' at hread ⊢
      rcases hread with @⟨a, b, heq, hrest⟩ | _
      · simp only [heq]
        exact ih hrest _
      · exact ih hst _
    · exact .some ⟨rfl, hst⟩
    · exact .some ⟨rfl, hst⟩

/-- What a machine comes to on one of two sources that are alike, it comes to on the other. -/
theorem run_of_alike {R : S → T → Prop} (halike : Alike R read read') {s : S} {t : T} (hst : R s t) {fuel : ℕ}
    {q : p.State} {r : Option α} : (∀ {s'}, p.run read fuel q s = some (r, s') →
      ∃ t', p.run read' fuel q t = some (r, t') ∧ R s' t') ∧
    ∀ {t'}, p.run read' fuel q t = some (r, t') → ∃ s', p.run read fuel q s = some (r, s') ∧ R s' t' := by
  have hruns := run_alike halike hst fuel q (p := p)
  generalize p.run read fuel q s = o, p.run read' fuel q t = o' at hruns ⊢
  rcases hruns with @⟨⟨a, s₁⟩, ⟨a', t₁⟩, rfl, hrest⟩ | _
  · refine ⟨fun h => ?_, fun h => ?_⟩
    · cases h
      exact ⟨t₁, rfl, hrest⟩
    · cases h
      exact ⟨s₁, rfl, hrest⟩
  · exact ⟨nofun, nofun⟩

end Machine

end StreamMachine
