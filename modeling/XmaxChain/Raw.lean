import XmaxChain.Lib.StreamReader
import XmaxChain.Types

/-!
# Packed integers of variable length

Sizes are packed seven bits at a time, the lowest first, and the highest bit of a byte says that another
byte follows.
-/

namespace XmaxChain

open StreamReader

/-- What is left of the number after `n` bytes is not packed; five bytes hold 32 bits. -/
def packSevenBits : ℕ → ℕ → Bytes
  | 0, _ => []
  | n + 1, v => if v / 128 = 0 then [v % 128] else (v % 128 + 128) :: packSevenBits n (v / 128)

def packUnsignedInt (n : ℕ) : Bytes := packSevenBits 5 (u32 n)

/-- The amount to shift by is a byte, and what is shifted is 32-bit. -/
def unpackSevenBits (shift v : ℕ) : Bytes → Option (ℕ × Bytes)
  | [] => none
  | b :: s =>
    let v := v ||| u32 (b % 128 * 2 ^ shift)
    if b / 128 % 2 = 0 then some (u32 v, s) else unpackSevenBits ((shift + 7) % 256) v s

def unpackUnsignedInt : Reader ℕ ℕ := unpackSevenBits 0 0

theorem unpackSevenBits_pack {shift v : ℕ} (rest : Bytes) {n acc : ℕ} (hacc : acc < 2 ^ shift)
    (hword : v * 2 ^ shift < 2 ^ 32) (hbytes : v < 128 ^ n) (hn : 0 < n) (hshift : shift < 32) :
    unpackSevenBits shift acc (packSevenBits n v ++ rest) = some (acc + v * 2 ^ shift, rest) := by
  induction n generalizing v shift acc with
  | zero => cases hn
  | succ n ih =>
    have hpos : 0 < 2 ^ shift := Nat.two_pow_pos _
    have hlow : v % 128 * 2 ^ shift < 2 ^ 32 :=
      (Nat.mul_le_mul_right _ (Nat.mod_le _ _)).trans_lt hword
    have hor : acc ||| v % 128 * 2 ^ shift = acc + v % 128 * 2 ^ shift := by
      rw [Nat.or_comm, Nat.mul_comm, ← Nat.two_pow_add_eq_or_of_lt hacc, Nat.add_comm]
    rw [packSevenBits]
    split_ifs with hlast
    · have hv : v % 128 = v := Nat.mod_eq_of_lt (by omega)
      rw [hv] at hor
      have hsum : acc + v * 2 ^ shift < 2 ^ 32 := by
        rw [← hor]
        exact Nat.or_lt_two_pow (hacc.trans (Nat.pow_lt_pow_right (by decide) hshift)) hword
      have hstop : v / 128 % 2 = 0 := by omega
      simp only [List.singleton_append, unpackSevenBits, hv, hstop, if_true, u32_of_lt hword, hor,
        u32_of_lt hsum]
    · have hmore : (v % 128 + 128) / 128 % 2 ≠ 0 := by omega
      have hlowbits : (v % 128 + 128) % 128 = v % 128 := by omega
      have hnext : shift + 7 < 32 := by
        by_contra hbig
        have hbig : 2 ^ 25 ≤ 2 ^ shift := Nat.pow_le_pow_right (by decide) (by omega)
        have : 128 * 2 ^ 25 ≤ v * 2 ^ shift := Nat.mul_le_mul (by omega) hbig
        omega
      have hsplit : v * 2 ^ shift = v % 128 * 2 ^ shift + v / 128 * 2 ^ (shift + 7) := by
        conv_lhs => rw [← Nat.mod_add_div v 128]
        rw [pow_add]
        ring
      have hmod : (shift + 7) % 256 = shift + 7 := Nat.mod_eq_of_lt (by omega)
      have hacc' : acc + v % 128 * 2 ^ shift < 2 ^ (shift + 7) := by
        have : v % 128 * 2 ^ shift ≤ 127 * 2 ^ shift := Nat.mul_le_mul_right _ (by omega)
        rw [pow_add]
        omega
      have hn' : 0 < n := by
        rcases n with _ | n
        · omega
        · omega
      have hdiv : v / 128 < 128 ^ n := by
        rw [Nat.div_lt_iff_lt_mul (by decide), ← pow_succ]
        exact hbytes
      simp only [List.cons_append, unpackSevenBits, hlowbits, u32_of_lt hlow, hor, if_neg hmore, hmod]
      rw [ih hacc' (by omega) hdiv hn' hnext, hsplit, Nat.add_assoc]

/-- An integer takes a byte at least. -/
theorem unpackSevenBits_length {shift v n : ℕ} {bytes rest : Bytes}
    (h : unpackSevenBits shift v bytes = some (n, rest)) : rest.length < bytes.length := by
  induction bytes generalizing shift v with
  | nil => cases h
  | cons b bytes ih =>
    rw [unpackSevenBits] at h
    split_ifs at h
    · cases h
      exact Nat.lt_succ_self _
    · exact (ih h).trans (Nat.lt_succ_self _)

theorem unpackUnsignedInt_pack (n : ℕ) (rest : Bytes) :
    unpackUnsignedInt.run (packUnsignedInt n ++ rest) = some (u32 n, rest) := by
  have hn := u32_lt n
  have h : unpackSevenBits 0 0 (packSevenBits 5 (u32 n) ++ rest) = some (0 + u32 n * 2 ^ 0, rest) :=
    unpackSevenBits_pack rest (by decide) (by omega) (by omega) (by decide) (by decide)
  rw [pow_zero, Nat.mul_one, Nat.zero_add] at h
  exact h

end XmaxChain
