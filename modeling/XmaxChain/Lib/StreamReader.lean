import Mathlib.Data.List.Forall2
import Mathlib.Tactic

/-!
# Readers of a stream

A reader takes tokens from the front of a list and gives a value, or fails. What it says about one
stream is a relation between the stream, the value and what is left, and readers that follow one another
compose as these relations do.
-/

namespace StreamReader

variable {τ α β ι : Type}

abbrev Reader (τ α : Type) := StateT (List τ) Option α

/-- The steps of `R` for a list of things to read, one after the other. -/
inductive Run (R : ι → List τ → α → List τ → Prop) : List ι → List τ → List α → List τ → Prop
  | nil (s : List τ) : Run R [] s [] s
  | cons {i : ι} {is : List ι} {a : α} {as : List α} {s s₁ s₂ : List τ} :
      R i s a s₁ → Run R is s₁ as s₂ → Run R (i :: is) s (a :: as) s₂

/-- Where the first reader gives a value, the second gives the same. -/
def Extends (p q : Reader τ α) : Prop := ∀ s r, p.run s = some r → q.run s = some r

theorem bind_run {p : Reader τ α} {f : α → Reader τ β} {s s' : List τ} {b : β} :
    (p >>= f).run s = some (b, s') ↔
      ∃ a s₁, p.run s = some (a, s₁) ∧ (f a).run s₁ = some (b, s') := by
  simp only [StateT.run_bind, Option.bind_eq_bind, Option.bind_eq_some_iff, Prod.exists]

theorem pure_run {a b : α} {s s' : List τ} :
    (pure a : Reader τ α).run s = some (b, s') ↔ b = a ∧ s' = s := by
  simp [eq_comm]

theorem liftOption_run {o : Option α} {a : α} {s s' : List τ} :
    (StateT.lift o : Reader τ α).run s = some (a, s') ↔ o = some a ∧ s' = s := by
  cases o <;> simp [StateT.lift, StateT.run, eq_comm]

namespace Run

variable {R R' : ι → List τ → α → List τ → Prop} {is js : List ι} {as bs : List α}
  {s s₁ s₂ : List τ}

@[simp] theorem nil_iff : Run R [] s as s₁ ↔ as = [] ∧ s₁ = s := by
  constructor
  · rintro ⟨⟩
    exact ⟨rfl, rfl⟩
  · rintro ⟨rfl, rfl⟩
    exact .nil _

@[simp] theorem cons_iff {i : ι} :
    Run R (i :: is) s as s₂ ↔ ∃ a as' s₁, as = a :: as' ∧ R i s a s₁ ∧ Run R is s₁ as' s₂ := by
  constructor
  · rintro (_ | ⟨h, hs⟩)
    exact ⟨_, _, _, rfl, h, hs⟩
  · rintro ⟨a, as', s₁, rfl, h, hs⟩
    exact .cons h hs

theorem mono (h : ∀ i s a s', R i s a s' → R' i s a s') (hrun : Run R is s as s₁) :
    Run R' is s as s₁ := by
  induction hrun with
  | nil => exact .nil _
  | cons hstep _ ih => exact .cons (h _ _ _ _ hstep) ih

theorem length_eq (h : Run R is s as s₁) : as.length = is.length := by
  induction h with
  | nil => rfl
  | cons _ _ ih => simp [ih]

/-- Everything on the list was read somewhere. -/
theorem exists_of_mem {i : ι} (h : Run R is s as s₁) (hi : i ∈ is) : ∃ a ∈ as, ∃ s₂ s₃, R i s₂ a s₃ := by
  induction h with
  | nil => cases hi
  | cons hstep _ ih =>
    rcases List.mem_cons.1 hi with rfl | hi
    · exact ⟨_, List.mem_cons_self, _, _, hstep⟩
    · obtain ⟨a, ha, hread⟩ := ih hi
      exact ⟨a, List.mem_cons_of_mem _ ha, hread⟩

theorem exists_of_mem_right {a : α} (h : Run R is s as s₁) (ha : a ∈ as) : ∃ i ∈ is, ∃ s₂ s₃, R i s₂ a s₃ := by
  induction h with
  | nil => cases ha
  | cons hstep _ ih =>
    rcases List.mem_cons.1 ha with rfl | ha
    · exact ⟨_, List.mem_cons_self, _, _, hstep⟩
    · obtain ⟨i, hi, hread⟩ := ih ha
      exact ⟨i, List.mem_cons_of_mem _ hi, hread⟩

theorem append (h : Run R is s as s₁) (h' : Run R js s₁ bs s₂) :
    Run R (is ++ js) s (as ++ bs) s₂ := by
  induction h with
  | nil => exact h'
  | cons hstep _ ih => exact .cons hstep (ih h')

theorem append_iff :
    Run R (is ++ js) s as s₂ ↔
      ∃ as₁ as₂ s₁, as = as₁ ++ as₂ ∧ Run R is s as₁ s₁ ∧ Run R js s₁ as₂ s₂ := by
  constructor
  · intro h
    induction is generalizing s as with
    | nil => exact ⟨[], as, s, rfl, .nil _, h⟩
    | cons i is ih =>
      obtain ⟨a, as', s', rfl, hstep, hrest⟩ := cons_iff.1 h
      obtain ⟨as₁, as₂, s₁, rfl, h₁, h₂⟩ := ih hrest
      exact ⟨a :: as₁, as₂, s₁, rfl, .cons hstep h₁, h₂⟩
  · rintro ⟨as₁, as₂, s₁, rfl, h₁, h₂⟩
    exact h₁.append h₂

theorem map_iff {f : β → ι} {xs : List β} :
    Run R (xs.map f) s as s₁ ↔ Run (fun x => R (f x)) xs s as s₁ := by
  induction xs generalizing s as with
  | nil => simp
  | cons x xs ih => simp [ih]

/-- Steps that more fuel leaves as they are can all be done with the same fuel. -/
theorem exists_fuel {P : ℕ → ι → List τ → α → List τ → Prop}
    (hmono : ∀ {m n}, m ≤ n → ∀ i s a s', P m i s a s' → P n i s a s') :
    Run (fun i s a s' => ∃ n, P n i s a s') is s as s₁ ↔ ∃ n, Run (P n) is s as s₁ := by
  constructor
  · intro h
    induction h with
    | nil => exact ⟨0, .nil _⟩
    | cons hstep _ ih =>
      obtain ⟨m, hm⟩ := hstep
      obtain ⟨n, hn⟩ := ih
      exact ⟨max m n, .cons (hmono (le_max_left m n) _ _ _ _ hm)
        (hn.mono (hmono (le_max_right m n)))⟩
  · rintro ⟨n, h⟩
    exact h.mono fun _ _ _ _ hstep => ⟨n, hstep⟩

end Run

theorem mapM_run {p : ι → Reader τ α} {is : List ι} {as : List α} {s s' : List τ} :
    (is.mapM p).run s = some (as, s') ↔
      Run (fun i s a s' => (p i).run s = some (a, s')) is s as s' := by
  induction is generalizing s as with
  | nil => simp [List.mapM_nil, eq_comm]
  | cons i is ih =>
    simp only [List.mapM_cons, bind_run, pure_run, Run.cons_iff]
    constructor
    · rintro ⟨a, s₁, ha, as', s₂, has, rfl, rfl⟩
      exact ⟨a, as', s₁, rfl, ha, ih.1 has⟩
    · rintro ⟨a, as', s₁, rfl, ha, has⟩
      exact ⟨a, s₁, ha, as', s', ih.2 has, rfl, rfl⟩

namespace Extends

theorem refl (p : Reader τ α) : Extends p p := fun _ _ h => h

theorem bind {p q : Reader τ α} {f g : α → Reader τ β} (h : Extends p q)
    (hf : ∀ a, Extends (f a) (g a)) : Extends (p >>= f) (q >>= g) := by
  rintro s ⟨b, s'⟩ hrun
  obtain ⟨a, s₁, ha, hb⟩ := bind_run.1 hrun
  exact bind_run.2 ⟨a, s₁, h s _ ha, hf a s₁ _ hb⟩

theorem mapM {p q : ι → Reader τ α} (h : ∀ i, Extends (p i) (q i)) (is : List ι) :
    Extends (is.mapM p) (is.mapM q) := by
  rintro s ⟨as, s'⟩ hrun
  exact mapM_run.2 ((mapM_run.1 hrun).mono fun i s a s' ha => h i s _ ha)

theorem lift {o o' : Option α} (h : ∀ a, o = some a → o' = some a) :
    Extends (StateT.lift o : Reader τ α) (StateT.lift o') := by
  rintro s ⟨a, s'⟩ hrun
  obtain ⟨ha, rfl⟩ := liftOption_run.1 hrun
  exact liftOption_run.2 ⟨h a ha, rfl⟩

end Extends

end StreamReader
