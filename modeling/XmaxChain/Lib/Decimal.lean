import Mathlib.Tactic

/-!
# Decimal numbers

A number as its digits, and back. Reading takes zeros in front, printing writes none.
-/

namespace Decimal

/-- The character of a digit. -/
def IsDigit (c : ℕ) : Prop := 48 ≤ c ∧ c < 58

instance (c : ℕ) : Decidable (IsDigit c) := inferInstanceAs (Decidable (_ ∧ _))

def print (n : ℕ) : List ℕ :=
  if n < 10 then [48 + n] else print (n / 10) ++ [48 + n % 10]

def value (s : List ℕ) : ℕ := s.foldl (fun n c => 10 * n + (c - 48)) 0

/-- `none` where there is no digit, or something else. -/
def read (s : List ℕ) : Option ℕ :=
  if s ≠ [] ∧ ∀ c ∈ s, IsDigit c then some (value s) else none

theorem read_eq_some {s : List ℕ} {n : ℕ} :
    read s = some n ↔ s ≠ [] ∧ (∀ c ∈ s, IsDigit c) ∧ value s = n := by
  rw [read]
  split_ifs with h
  · exact ⟨fun hn => ⟨h.1, h.2, Option.some.inj hn⟩, fun hn => congrArg some hn.2.2⟩
  · exact ⟨nofun, fun hn => absurd ⟨hn.1, hn.2.1⟩ h⟩

theorem value_append (s t : List ℕ) : value (s ++ t) = value s * 10 ^ t.length + value t := by
  induction t using List.reverseRecOn with
  | nil => simp [value]
  | append_singleton t c ih =>
    simp only [value, List.foldl_append, List.foldl_cons, List.foldl_nil, List.length_append,
      List.length_singleton] at ih ⊢
    rw [ih]
    ring

theorem value_cons (c : ℕ) (s : List ℕ) : value (c :: s) = (c - 48) * 10 ^ s.length + value s := by
  rw [← List.singleton_append, value_append]
  simp [value]

theorem value_lt {s : List ℕ} (h : ∀ c ∈ s, IsDigit c) : value s < 10 ^ s.length := by
  induction s with
  | nil => simp [value]
  | cons c s ih =>
    have hc : IsDigit c := h c List.mem_cons_self
    have hs := ih fun d hd => h d (List.mem_cons_of_mem c hd)
    have hle : (c - 48) * 10 ^ s.length ≤ 9 * 10 ^ s.length := Nat.mul_le_mul_right _ (by have := hc.2; omega)
    rw [value_cons, List.length_cons, pow_succ]
    omega

theorem print_ne_nil (n : ℕ) : print n ≠ [] := by
  rw [print]
  split_ifs <;> simp

theorem print_isDigit (n : ℕ) : ∀ c ∈ print n, IsDigit c := by
  induction n using print.induct with
  | case1 n hn =>
    rw [print, if_pos hn]
    intro c hc
    rw [List.mem_singleton.1 hc]
    exact ⟨by omega, by omega⟩
  | case2 n hn ih =>
    rw [print, if_neg hn]
    intro c hc
    rcases List.mem_append.1 hc with hc | hc
    · exact ih c hc
    · rw [List.mem_singleton.1 hc]
      exact ⟨by omega, by omega⟩

theorem value_print (n : ℕ) : value (print n) = n := by
  induction n using print.induct with
  | case1 n hn =>
    rw [print, if_pos hn]
    simp [value]
  | case2 n hn ih =>
    rw [print, if_neg hn, value_append, ih]
    simp only [value, List.length_singleton, List.foldl_cons, List.foldl_nil]
    omega

theorem length_print_le {d n : ℕ} (h : n < 10 ^ (d + 1)) : (print n).length ≤ d + 1 := by
  induction d generalizing n with
  | zero =>
    rw [print, if_pos (by simpa using h)]
    exact le_rfl
  | succ d ih =>
    rw [print]
    split_ifs
    · exact Nat.le_add_left _ _
    · rw [List.length_append, List.length_singleton]
      have := ih (show n / 10 < 10 ^ (d + 1) by rw [pow_succ] at h; omega)
      omega

theorem lt_length_print {d n : ℕ} (h : 10 ^ d ≤ n) : d < (print n).length := by
  have hlt := value_lt (print_isDigit n)
  rw [value_print] at hlt
  exact (Nat.pow_lt_pow_iff_right (by decide)).1 (h.trans_lt hlt)

/-- With a one in front a number is printed with as many digits as one likes. -/
theorem print_pow_add {d n : ℕ} (h : n < 10 ^ d) :
    ∃ s, print (10 ^ d + n) = 49 :: s ∧ s.length = d ∧ (∀ c ∈ s, IsDigit c) ∧ value s = n := by
  have hlength : (print (10 ^ d + n)).length = d + 1 :=
    (length_print_le (by rw [pow_succ]; omega)).antisymm (lt_length_print (Nat.le_add_right _ _))
  have hdigits := print_isDigit (10 ^ d + n)
  have hvalue := value_print (10 ^ d + n)
  rcases hprint : print (10 ^ d + n) with _ | ⟨c, s⟩
  · exact absurd hprint (print_ne_nil _)
  rw [hprint] at hlength hdigits hvalue
  have hs : s.length = d := Nat.succ.inj hlength
  have hsdigits : ∀ c ∈ s, IsDigit c := fun x hx => hdigits x (List.mem_cons_of_mem c hx)
  have hlt := value_lt hsdigits
  have hc : IsDigit c := hdigits c List.mem_cons_self
  rw [value_cons, hs] at hvalue
  rw [hs] at hlt
  -- the first digit is how often the power goes into the number
  have hone : c - 48 = 1 := by
    have hpos : 0 < 10 ^ d := Nat.pos_of_ne_zero (by positivity)
    have hdiv := congrArg (· / 10 ^ d) hvalue
    simp only [Nat.add_div_left _ hpos, Nat.div_eq_of_lt h, Nat.mul_comm (c - 48),
      Nat.mul_add_div hpos, Nat.div_eq_of_lt hlt] at hdiv
    omega
  rw [hone, Nat.one_mul] at hvalue
  refine ⟨s, ?_, hs, hsdigits, Nat.add_left_cancel hvalue⟩
  rw [show c = 49 by have := hc.1; omega]

end Decimal
