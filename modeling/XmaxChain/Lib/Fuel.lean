import Mathlib.Tactic

/-!
# Calls with fuel

A call gives nothing while its fuel is not enough, and else it returns or throws. More fuel changes
nothing about what it gives.
-/

namespace Fuel

variable {ε α β ι : Type}

/-- `none` is a call that has not returned yet. -/
abbrev Fueled (ε α : Type) := ExceptT ε Option α

/-- What has not returned yet. -/
def pending : Fueled ε α := ExceptT.mk none

/-- The value that is returned. -/
def result (x : Fueled ε α) : Option α :=
  match x.run with
  | some (.ok a) => some a
  | _ => none

/-- What the first call gives, the second gives. -/
def Below (x y : Fueled ε α) : Prop := ∀ r, x.run = some r → y.run = some r

variable {x y : Fueled ε α} {f g : α → Fueled ε β}

theorem bind_pends : (x >>= f).run = none ↔ x.run = none ∨ ∃ a, x.run = some (.ok a) ∧ (f a).run = none := by
  rw [ExceptT.run_bind]
  rcases x.run with _ | _ | a <;> simp

theorem bind_returns {b : β} :
    (x >>= f).run = some (.ok b) ↔ ∃ a, x.run = some (.ok a) ∧ (f a).run = some (.ok b) := by
  rw [ExceptT.run_bind]
  rcases x.run with _ | _ | a <;> simp

theorem result_eq_some {a : α} : result x = some a ↔ x.run = some (.ok a) := by
  rw [result]
  rcases x.run with _ | _ | b <;> simp

theorem result_bind : result (x >>= f) = result x >>= fun a => result (f a) := by
  ext b
  simp only [Option.bind_eq_bind, Option.bind_eq_some_iff, result_eq_some, bind_returns]

@[simp] theorem result_lift (o : Option α) : result (ExceptT.lift o : Fueled ε α) = o := by
  rcases o <;> rfl

/-- The call returns something good, or throws something allowed. -/
def Ends (Good : α → Prop) (Thrown : ε → Prop) (x : Fueled ε α) : Prop :=
  (∃ a, x.run = some (.ok a) ∧ Good a) ∨ ∃ e, x.run = some (.error e) ∧ Thrown e

section Ends

variable {Good Good' : α → Prop} {Thrown : ε → Prop}

theorem Ends.bind {Good' : β → Prop} (hx : Ends Good Thrown x) (hf : ∀ a, Good a → Ends Good' Thrown (f a)) :
    Ends Good' Thrown (x >>= f) := by
  rcases hx with ⟨a, ha, hgood⟩ | ⟨e, he, hthrown⟩
  · rw [Ends, ExceptT.run_bind, ha]
    exact hf a hgood
  · refine .inr ⟨e, ?_, hthrown⟩
    rw [ExceptT.run_bind, he]
    rfl

theorem Ends.mono (hx : Ends Good Thrown x) (h : ∀ a, Good a → Good' a) : Ends Good' Thrown x :=
  hx.imp_left fun ⟨a, ha, hgood⟩ => ⟨a, ha, h a hgood⟩

theorem Ends.throws {Thrown' : ε → Prop} (hx : Ends Good Thrown x) (h : ∀ e, Thrown e → Thrown' e) :
    Ends Good Thrown' x :=
  hx.imp_right fun ⟨e, he, hthrown⟩ => ⟨e, he, h e hthrown⟩

/-- What is known of all that is returned is known of what the call ends with. -/
theorem Ends.returns (hx : Ends Good Thrown x) (h : ∀ a, x.run = some (.ok a) → Good' a) :
    Ends (fun a => Good a ∧ Good' a) Thrown x :=
  hx.imp_left fun ⟨a, ha, hgood⟩ => ⟨a, ha, hgood, h a ha⟩

theorem Ends.good (hx : Ends Good Thrown x) {a : α} (ha : x.run = some (.ok a)) : Good a := by
  rcases hx with ⟨a', ha', hgood⟩ | ⟨e, he, -⟩
  · rw [ha] at ha'
    cases ha'
    exact hgood
  · rw [ha] at he
    cases he

theorem ends_pure {a : α} (ha : Good a) : Ends Good Thrown (pure a) := .inl ⟨a, rfl, ha⟩

theorem ends_foldlM {step : α → ι → Fueled ε α} {is : List ι} {a : α} (ha : Good a)
    (hstep : ∀ i ∈ is, ∀ a, Good a → Ends Good Thrown (step a i)) : Ends Good Thrown (is.foldlM step a) := by
  induction is generalizing a with
  | nil => exact ends_pure ha
  | cons i is ih =>
    rw [List.foldlM_cons]
    exact (hstep i List.mem_cons_self a ha).bind fun a ha => ih ha fun j hj => hstep j (List.mem_cons_of_mem i hj)

end Ends

theorem Below.refl (x : Fueled ε α) : Below x x := fun _ h => h

theorem Below.bind (hx : Below x y) (hf : ∀ a, Below (f a) (g a)) : Below (x >>= f) (y >>= g) := by
  intro r hr
  rw [ExceptT.run_bind] at hr ⊢
  rcases hrun : x.run with _ | _ | a
  · rw [hrun] at hr
    cases hr
  · rw [hx _ hrun]
    rwa [hrun] at hr
  · rw [hx _ hrun]
    rw [hrun] at hr
    exact hf a r hr

/-- Throws unless this holds. -/
def require (p : Prop) [Decidable p] : Fueled Unit PUnit := if p then pure ⟨⟩ else throw ()

section Require

variable {p : Prop} [Decidable p]

theorem require_ne_none : (require p).run ≠ none := by
  rw [require]
  split_ifs <;> exact nofun

theorem require_eq_ok : (require p).run = some (.ok ⟨⟩) ↔ p := by
  rw [require]
  split_ifs with hp
  · exact ⟨fun _ => hp, fun _ => rfl⟩
  · exact ⟨nofun, fun h => absurd h hp⟩

end Require

section ForM

variable {c c' : ι → Fueled ε PUnit} {is : List ι}

theorem forM_ne_none (h : ∀ i ∈ is, (c i).run ≠ none) : (forM is c).run ≠ none := by
  induction is with
  | nil => exact nofun
  | cons i is ih =>
    rw [List.forM_cons, Ne, bind_pends, not_or]
    refine ⟨h i List.mem_cons_self, ?_⟩
    rintro ⟨-, -, hnone⟩
    exact ih (fun j hj => h j (List.mem_cons_of_mem i hj)) hnone

theorem forM_eq_ok : (forM is c).run = some (.ok ⟨⟩) ↔ ∀ i ∈ is, (c i).run = some (.ok ⟨⟩) := by
  induction is with
  | nil => simp
  | cons i is ih =>
    rw [List.forM_cons, bind_returns, List.forall_mem_cons, ← ih]
    exact ⟨fun ⟨_, hi, his⟩ => ⟨hi, his⟩, fun h => ⟨⟨⟩, h.1, h.2⟩⟩

/-- When nothing is thrown, one call that has not returned yet holds up all. -/
theorem forM_eq_none (hok : ∀ i ∈ is, (c i).run = none ∨ (c i).run = some (.ok ⟨⟩))
    (h : ∃ i ∈ is, (c i).run = none) : (forM is c).run = none := by
  induction is with
  | nil => exact absurd h (by simp)
  | cons i is ih =>
    rw [List.forM_cons, bind_pends]
    rcases hok i List.mem_cons_self with hi | hi
    · exact .inl hi
    · refine .inr ⟨_, hi, ih (fun j hj => hok j (List.mem_cons_of_mem i hj)) ?_⟩
      obtain ⟨j, hj, hnone⟩ := h
      rcases List.mem_cons.1 hj with rfl | hj
      · rw [hi] at hnone
        cases hnone
      · exact ⟨j, hj, hnone⟩

theorem Below.forM_list (h : ∀ i ∈ is, Below (c i) (c' i)) : Below (forM is c) (forM is c') := by
  induction is with
  | nil => exact .refl _
  | cons i is ih =>
    rw [List.forM_cons, List.forM_cons]
    exact (h i List.mem_cons_self).bind fun _ => ih fun j hj => h j (List.mem_cons_of_mem i hj)

end ForM

theorem Below.lift {o o' : Option α} (h : ∀ a, o = some a → o' = some a) :
    Below (ExceptT.lift o : Fueled ε α) (ExceptT.lift o') := by
  intro r hr
  rcases o with _ | a
  · cases hr
  · rw [h a rfl]
    exact hr

theorem lift_eq_none {o : Option α} : (ExceptT.lift o : Fueled ε α).run = none ↔ o = none := by
  rcases o <;> simp [ExceptT.lift, ExceptT.run, ExceptT.mk]

theorem lift_eq_ok {o : Option α} {a : α} : (ExceptT.lift o : Fueled ε α).run = some (.ok a) ↔ o = some a := by
  rcases o <;> simp [ExceptT.lift, ExceptT.run, ExceptT.mk]

end Fuel
