import Mathlib.Data.List.TakeWhile
import Mathlib.Data.Nat.Digits.Lemmas
import Mathlib.Tactic

/-!
# Digits of one base written in another

A row of digits, the highest first, is rewritten in another base: the zeros in front stay, and the rest
is written as the number that it is. Back in the first base it is the same row again.
-/

namespace Radix

def value (b : ℕ) (ds : List ℕ) : ℕ := Nat.ofDigits b ds.reverse

/-- No digit for zero. -/
def digits (b n : ℕ) : List ℕ := (Nat.digits b n).reverse

def zeros (ds : List ℕ) : List ℕ := ds.takeWhile (· = 0)

def recode (b c : ℕ) (ds : List ℕ) : List ℕ := zeros ds ++ digits c (value b ds)

variable {b c n : ℕ} {ds es : List ℕ}

theorem value_append_singleton (d : ℕ) : value b (ds ++ [d]) = value b ds * b + d := by
  rw [value, List.reverse_append, List.reverse_singleton, List.singleton_append, Nat.ofDigits_cons,
    value, Nat.add_comm, Nat.mul_comm]

theorem eq_zero_of_mem {d : ℕ} (hd : d ∈ zeros ds) : d = 0 := by
  unfold zeros at hd
  simpa using List.mem_takeWhile_imp hd

theorem zeros_eq_replicate (ds : List ℕ) : zeros ds = List.replicate (zeros ds).length 0 :=
  List.eq_replicate_iff.2 ⟨rfl, fun _ hd => eq_zero_of_mem hd⟩

theorem zeros_append_dropWhile (ds : List ℕ) : zeros ds ++ ds.dropWhile (· = 0) = ds :=
  List.takeWhile_append_dropWhile

theorem zeros_append (hhead : es.head? ≠ some 0) : zeros (zeros ds ++ es) = zeros ds := by
  have hall : ∀ d ∈ zeros ds, decide (d = 0) = true := fun _ hd => decide_eq_true (eq_zero_of_mem hd)
  rw [zeros, List.takeWhile_append_of_pos hall]
  cases es with
  | nil => exact List.append_nil _
  | cons e es =>
    have he : e ≠ 0 := fun h => hhead (congrArg some h)
    rw [List.takeWhile_cons_of_neg (by simpa using he), List.append_nil]

/-- Zeros in front are worth nothing. -/
theorem value_zeros_append : value b (zeros ds ++ es) = value b es := by
  rw [value, List.reverse_append, zeros_eq_replicate, List.reverse_replicate,
    Nat.ofDigits_append_replicate_zero, value]

theorem head?_dropWhile_ne (ds : List ℕ) : (ds.dropWhile (· = 0)).head? ≠ some 0 := by
  intro h
  have := List.head?_dropWhile_not (fun d : ℕ => decide (d = 0)) ds
  rw [h] at this
  simp at this

theorem digits_value (hb : 1 < b) (hlt : ∀ d ∈ ds, d < b) (hhead : ds.head? ≠ some 0) :
    digits b (value b ds) = ds := by
  rw [digits, value, Nat.digits_ofDigits b hb _ (fun d hd => hlt d (List.mem_reverse.1 hd)),
    List.reverse_reverse]
  intro hne hlast
  rw [List.getLast_reverse] at hlast
  exact hhead ((List.head?_eq_some_head (List.reverse_ne_nil_iff.1 hne)).trans (congrArg some hlast))

theorem value_digits : value b (digits b n) = n := by
  rw [value, digits, List.reverse_reverse, Nat.ofDigits_digits]

theorem head?_digits_ne (b n : ℕ) : (digits b n).head? ≠ some 0 := by
  intro h
  rw [digits, List.head?_reverse] at h
  have hne : Nat.digits b n ≠ [] := fun hnil => by
    rw [hnil] at h
    cases h
  rw [List.getLast?_eq_some_getLast hne] at h
  exact Nat.getLast_digit_ne_zero b (Nat.digits_ne_nil_iff_ne_zero.1 hne) (Option.some.inj h)

theorem digits_lt (hb : 1 < b) {d : ℕ} (hd : d ∈ digits b n) : d < b :=
  Nat.digits_lt_base hb (List.mem_reverse.1 hd)

theorem recode_lt (hc : 1 < c) {d : ℕ} (hd : d ∈ recode b c ds) : d < c := by
  rcases List.mem_append.1 hd with hd | hd
  · rw [eq_zero_of_mem hd]
    omega
  · exact digits_lt hc hd

/-- Rewriting is undone by rewriting back. -/
theorem recode_recode (hb : 1 < b) (hlt : ∀ d ∈ ds, d < b) :
    recode c b (recode b c ds) = ds := by
  have hzeros : zeros (recode b c ds) = zeros ds := zeros_append (head?_digits_ne c _)
  have hvalue : value c (recode b c ds) = value b (ds.dropWhile (· = 0)) := by
    rw [recode, value_zeros_append, value_digits]
    conv_lhs => rw [← zeros_append_dropWhile ds]
    exact value_zeros_append
  have hdigits : digits b (value b (ds.dropWhile (· = 0))) = ds.dropWhile (· = 0) :=
    digits_value hb (fun d hd => hlt d (List.dropWhile_subset _ hd)) (head?_dropWhile_ne ds)
  rw [recode, hzeros, hvalue, hdigits, zeros_append_dropWhile]

end Radix
