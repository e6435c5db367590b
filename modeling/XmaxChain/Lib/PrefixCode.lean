import Mathlib.Data.List.Lex
import Mathlib.Tactic

/-!
# Codes whose words are packed into an integer

Symbols have words of different lengths, none of them zero, and a symbol's word and whatever follows it
comes before the words of the greater symbols. Strings are packed from the highest bit on. As long as they fit,
the integers are ordered as the strings are.
-/

/-- The word of a symbol has `width` bits. -/
structure PrefixCode (α : Type*) [LinearOrder α] where
  width : α → ℕ
  word : α → ℕ
  word_lt : ∀ a, word a < 2 ^ width a
  word_pos : ∀ a, 0 < word a
  apart : ∀ {a b}, a < b → (word a + 1) * 2 ^ width b ≤ word b * 2 ^ width a

namespace PrefixCode

variable {α : Type*} [LinearOrder α] (c : PrefixCode α)

def totalWidth (s : List α) : ℕ := (s.map c.width).sum

/-- The string in the `room` lowest bits. -/
def pack (room : ℕ) : List α → ℕ
  | [] => 0
  | a :: s => c.word a * 2 ^ (room - c.width a) + pack (room - c.width a) s

/-- What fits of a string. -/
def fit (room : ℕ) : List α → List α
  | [] => []
  | a :: s => if c.width a ≤ room then a :: fit (room - c.width a) s else []

variable {c} {room : ℕ} {s t : List α} {a b : α}

@[simp] theorem totalWidth_nil : c.totalWidth [] = 0 := rfl

@[simp] theorem totalWidth_cons : c.totalWidth (a :: s) = c.width a + c.totalWidth s := rfl

/-- Every word has a bit, since none is zero. -/
theorem width_pos (c : PrefixCode α) (a : α) : 0 < c.width a := by
  have hlt := c.word_lt a
  have hpos := c.word_pos a
  rcases Nat.eq_zero_or_pos (c.width a) with h | h
  · rw [h, pow_zero] at hlt
    omega
  · exact h

theorem totalWidth_le {n : ℕ} (h : ∀ a, c.width a ≤ n) : c.totalWidth s ≤ n * s.length := by
  induction s with
  | nil => exact Nat.zero_le _
  | cons a s ih =>
    have := h a
    rw [totalWidth_cons, List.length_cons, Nat.mul_succ]
    omega

theorem totalWidth_fit (room : ℕ) (s : List α) : c.totalWidth (c.fit room s) ≤ room := by
  induction s generalizing room with
  | nil => exact Nat.zero_le _
  | cons a s ih =>
    rw [fit]
    split_ifs with h
    · have := ih (room - c.width a)
      rw [totalWidth_cons]
      omega
    · exact Nat.zero_le _

theorem fit_eq_self (h : c.totalWidth s ≤ room) : c.fit room s = s := by
  induction s generalizing room with
  | nil => rfl
  | cons a s ih =>
    rw [totalWidth_cons] at h
    rw [fit, if_pos (by omega), ih (by omega)]

theorem pack_lt (h : c.totalWidth s ≤ room) : c.pack room s < 2 ^ room := by
  induction s generalizing room with
  | nil => exact Nat.two_pow_pos _
  | cons a s ih =>
    rw [totalWidth_cons] at h
    have hrest : c.pack (room - c.width a) s < 2 ^ (room - c.width a) := ih (by omega)
    have hword : (c.word a + 1) * 2 ^ (room - c.width a) ≤ 2 ^ c.width a * 2 ^ (room - c.width a) :=
      Nat.mul_le_mul_right _ (c.word_lt a)
    rw [← pow_add, Nat.add_sub_cancel' (by omega)] at hword
    rw [pack]
    calc _ < c.word a * 2 ^ (room - c.width a) + 2 ^ (room - c.width a) := by omega
      _ = (c.word a + 1) * 2 ^ (room - c.width a) := by ring
      _ ≤ 2 ^ room := hword

theorem pack_cons_pos : 0 < c.pack room (a :: s) :=
  Nat.add_pos_left (Nat.mul_pos (c.word_pos a) (Nat.two_pow_pos _)) _

/-- The word of the first symbol decides. -/
theorem pack_lt_of_head (hab : a < b) (hs : c.totalWidth (a :: s) ≤ room) (hb : c.width b ≤ room) :
    c.pack room (a :: s) < c.pack room (b :: t) := by
  rw [totalWidth_cons] at hs
  have hrest : c.pack (room - c.width a) s < 2 ^ (room - c.width a) := pack_lt (by omega)
  have hwords : (c.word a + 1) * 2 ^ (room - c.width a) ≤ c.word b * 2 ^ (room - c.width b) := by
    refine Nat.le_of_mul_le_mul_right ?_ (Nat.two_pow_pos (c.width a + c.width b))
    calc (c.word a + 1) * 2 ^ (room - c.width a) * 2 ^ (c.width a + c.width b)
        = (c.word a + 1) * 2 ^ c.width b * (2 ^ (room - c.width a) * 2 ^ c.width a) := by ring
      _ = (c.word a + 1) * 2 ^ c.width b * 2 ^ room := by rw [← pow_add, Nat.sub_add_cancel (by omega)]
      _ ≤ c.word b * 2 ^ c.width a * 2 ^ room := Nat.mul_le_mul_right _ (c.apart hab)
      _ = c.word b * 2 ^ c.width a * (2 ^ (room - c.width b) * 2 ^ c.width b) := by
        rw [← pow_add, Nat.sub_add_cancel hb]
      _ = c.word b * 2 ^ (room - c.width b) * 2 ^ (c.width a + c.width b) := by ring
  rw [pack, pack]
  calc _ < (c.word a + 1) * 2 ^ (room - c.width a) := by linarith
    _ ≤ c.word b * 2 ^ (room - c.width b) := hwords
    _ ≤ _ := Nat.le_add_right _ _

/-- Strings that fit are packed in their order. -/
theorem pack_lt_pack (hlt : s < t) (hs : c.totalWidth s ≤ room) (ht : c.totalWidth t ≤ room) :
    c.pack room s < c.pack room t := by
  induction hlt generalizing room with
  | nil => exact pack_cons_pos
  | rel hab =>
    rw [totalWidth_cons] at ht
    exact pack_lt_of_head hab hs (by omega)
  | cons _ ih =>
    rw [totalWidth_cons] at hs ht
    rw [pack, pack]
    exact Nat.add_lt_add_left (ih (by omega) (by omega)) _

theorem pack_lt_pack_iff (hs : c.totalWidth s ≤ room) (ht : c.totalWidth t ≤ room) :
    c.pack room s < c.pack room t ↔ s < t := by
  refine ⟨fun h => ?_, fun h => pack_lt_pack h hs ht⟩
  rcases lt_trichotomy s t with hlt | rfl | hgt
  · exact hlt
  · exact absurd h (lt_irrefl _)
  · exact absurd h (pack_lt_pack hgt ht hs).asymm

theorem pack_inj (hs : c.totalWidth s ≤ room) (ht : c.totalWidth t ≤ room) :
    c.pack room s = c.pack room t ↔ s = t := by
  refine ⟨fun h => ?_, congrArg _⟩
  rcases lt_trichotomy s t with hlt | heq | hgt
  · exact absurd h (pack_lt_pack hlt hs ht).ne
  · exact heq
  · exact absurd h (pack_lt_pack hgt ht hs).ne'

section Register

variable {size : ℕ}

/-- The string at the top of `size` bits: its first word, and below that the rest. -/
theorem pack_cons_mul (hs : c.totalWidth (a :: s) ≤ room) (hroom : room ≤ size) :
    c.pack room (a :: s) * 2 ^ (size - room) = c.word a * 2 ^ (size - c.width a) +
        c.pack (room - c.width a) s * 2 ^ (size - room) ∧
      c.pack (room - c.width a) s * 2 ^ (size - room) < 2 ^ (size - c.width a) := by
  rw [totalWidth_cons] at hs
  have hsplit : 2 ^ (room - c.width a) * 2 ^ (size - room) = 2 ^ (size - c.width a) := by
    rw [← pow_add]
    congr 1
    omega
  refine ⟨?_, ?_⟩
  · rw [pack, Nat.add_mul, Nat.mul_assoc, hsplit]
  · rw [← hsplit]
    exact Nat.mul_lt_mul_of_pos_right (pack_lt (by omega)) (Nat.two_pow_pos _)

theorem pack_cons_div (hs : c.totalWidth (a :: s) ≤ room) (hroom : room ≤ size) :
    c.pack room (a :: s) * 2 ^ (size - room) / 2 ^ (size - c.width a) = c.word a := by
  obtain ⟨hsum, hlow⟩ := pack_cons_mul hs hroom
  rw [hsum, Nat.mul_comm (c.word a), Nat.mul_add_div (Nat.two_pow_pos _), Nat.div_eq_of_lt hlow,
    Nat.add_zero]

/-- Shifted by its width the first word is gone. -/
theorem pack_cons_shift (hs : c.totalWidth (a :: s) ≤ room) (hroom : room ≤ size) :
    c.pack room (a :: s) * 2 ^ (size - room) * 2 ^ c.width a % 2 ^ size =
      c.pack (room - c.width a) s * 2 ^ (size - (room - c.width a)) := by
  obtain ⟨hsum, hlow⟩ := pack_cons_mul hs hroom
  rw [totalWidth_cons] at hs
  have hsize : 2 ^ (size - c.width a) * 2 ^ c.width a = 2 ^ size := by
    rw [← pow_add, Nat.sub_add_cancel (by omega)]
  have hrest : 2 ^ (size - room) * 2 ^ c.width a = 2 ^ (size - (room - c.width a)) := by
    rw [← pow_add]
    congr 1
    omega
  have hlow' : c.pack (room - c.width a) s * 2 ^ (size - room) * 2 ^ c.width a < 2 ^ size := by
    rw [← hsize]
    exact Nat.mul_lt_mul_of_pos_right hlow (Nat.two_pow_pos _)
  rw [hsum, Nat.add_mul, Nat.mul_assoc (c.word a), hsize, Nat.mul_comm (c.word a), Nat.mul_add_mod,
    Nat.mod_eq_of_lt hlow', Nat.mul_assoc, hrest]

end Register

end PrefixCode
