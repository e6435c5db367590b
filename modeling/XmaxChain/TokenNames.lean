import Mathlib.Data.List.Basic

/-!
# Names of tokens

The name of a token is a string of three to seven characters that are packed into a 64-bit word. Each
is shifted as an `int`, so that the fifth falls on the first again, and the word is unpacked into eight
characters, which is one more than may be packed.
-/

namespace XmaxChain

/-- A character is signed. -/
abbrev Char8 := BitVec 8

/-- `token_str[i] << 8 * i`, an `int` with its sign in all the higher bits. The machine takes the count
modulo 32; the language leaves a count from 32 on undefined. -/
def shiftedChar (i : ℕ) (c : Char8) : BitVec 64 :=
  (c.signExtend 32 <<< (8 * i % 32)).signExtend 64

def packChars : ℕ → BitVec 64 → List Char8 → BitVec 64
  | _, res, [] => res
  | i, res, c :: cs => packChars (i + 1) (res ||| shiftedChar i c) cs

/-- `none` is a throw. -/
def tokenNameFromString (tokenStr : List Char8) : Option (BitVec 64) :=
  if tokenStr.length ≤ 7 ∧ 3 ≤ tokenStr.length then some (packChars 0 0 tokenStr) else none

def unpackChars : ℕ → BitVec 64 → List Char8
  | 0, _ => []
  | n + 1, name => (name &&& 255).setWidth 8 :: unpackChars n (name >>> 8)

def tokenNameToString (name : BitVec 64) : List Char8 := unpackChars 8 name

namespace AssetSymbol

/-- `asset_symbol(const string&)`, and the assignment of a string. -/
def ofString (s : List Char8) : Option (BitVec 64) := tokenNameFromString s

def toString (data : BitVec 64) : List Char8 := tokenNameToString data

/-- The variant is a string. -/
def toVariant (c : BitVec 64) : List Char8 := toString c

def fromVariant (v : List Char8) : Option (BitVec 64) := ofString v

end AssetSymbol

open AssetSymbol

/-- The symbol of a name comes back from a variant and from its string. -/
def RoundTrips (s : List Char8) : Prop :=
  ∃ a, ofString s = some a ∧ fromVariant (toVariant a) = some a ∧ ofString (toString a) = some a

@[simp] theorem length_unpackChars (n : ℕ) (name : BitVec 64) : (unpackChars n name).length = n := by
  induction n generalizing name with
  | zero => rfl
  | succ n ih => rw [unpackChars, List.length_cons, ih]

theorem ofString_toString (a : BitVec 64) : ofString (toString a) = none := by
  rw [ofString, AssetSymbol.toString, tokenNameFromString, if_neg]
  rw [tokenNameToString, length_unpackChars]
  omega

/-! ## Which names share a word -/

/-- No character is shifted so far that its sign is lost. -/
theorem msb_shiftedChar {l : ℕ} (hl : l < 4) (c : Char8) :
    (c.signExtend 32 <<< (8 * l)).msb = c.msb := by
  rw [BitVec.msb_shiftLeft, BitVec.getMsbD_signExtend]
  obtain hl' | rfl : l < 3 ∨ l = 3 := by omega
  · simp [show 8 * l < 32 by omega, show ¬ 24 ≤ 8 * l by omega]
  · simp [BitVec.msb]

/-- The bits of a shifted character: its own eight, and its sign in every bit above. -/
theorem getLsbD_shiftedChar (i : ℕ) (c : Char8) {k j : ℕ} (hk : k < 8) (hj : j < 8) :
    (shiftedChar i c).getLsbD (8 * k + j) =
      ((decide (i % 4 = k) && c.getLsbD j) || (decide (i % 4 < k) && c.msb)) := by
  have hcount : 8 * i % 32 = 8 * (i % 4) := by omega
  have hlane : i % 4 < 4 := Nat.mod_lt _ (by decide)
  rw [shiftedChar, hcount]
  generalize i % 4 = l at hlane
  rw [BitVec.getLsbD_signExtend, msb_shiftedChar hlane]
  simp only [BitVec.getLsbD_signExtend, BitVec.getLsbD_shiftLeft]
  rcases Nat.lt_trichotomy k l with hkl | rfl | hkl
  · simp [show 8 * k + j < 32 by omega, show 8 * k + j < 8 * l by omega, show l ≠ k by omega, show ¬ l < k by omega]
  · simp [hj, show 8 * k + j < 32 by omega, show 8 * k + j < 64 by omega, show ¬ 8 * k + j < 8 * k by omega,
      show j < 32 by omega]
  · have hsign : ¬ 8 * k + j - 8 * l < 8 := by omega
    by_cases hlow : 8 * k + j < 32
    · simp [hlow, hsign, hkl, show ¬ 8 * k + j < 8 * l by omega, show 8 * k + j - 8 * l < 32 by omega,
        show 8 * k + j < 64 by omega, show l ≠ k by omega]
    · simp [hlow, hkl, show 8 * k + j < 64 by omega, show l ≠ k by omega]

theorem getLsbD_packChars (s : List Char8) (i : ℕ) (res : BitVec 64) (n : ℕ) :
    (packChars i res s).getLsbD n =
      (res.getLsbD n || (s.zipIdx i).any fun c => (shiftedChar c.2 c.1).getLsbD n) := by
  induction s generalizing i res with
  | nil => simp [packChars]
  | cons c s ih => simp [packChars, ih, Bool.or_assoc]

/-- The characters that fall on the byte `k`. -/
def lane (s : List Char8) (k : ℕ) : Char8 :=
  (s.zipIdx.filter (·.2 % 4 = k)).foldr (fun c acc => c.1 ||| acc) 0#8

/-- A character below the byte `k` is negative. -/
def negativeBelow (s : List Char8) (k : ℕ) : Bool := s.zipIdx.any fun c => c.2 % 4 < k && c.1.msb

/-- What the byte `k` shows: a negative character below it sets all of its bits. -/
def shown (s : List Char8) (k : ℕ) : Char8 :=
  if negativeBelow s k then BitVec.allOnes 8 else lane s k

theorem getLsbD_lane (s : List Char8) (k j : ℕ) :
    (lane s k).getLsbD j = s.zipIdx.any fun c => decide (c.2 % 4 = k) && c.1.getLsbD j := by
  rw [lane]
  induction s.zipIdx with
  | nil => simp
  | cons c cs ih =>
    by_cases hc : c.2 % 4 = k <;> simp [hc, ih]

theorem getLsbD_shown (s : List Char8) {k j : ℕ} (hk : k < 8) (hj : j < 8) :
    (shown s k).getLsbD j = (packChars 0 0 s).getLsbD (8 * k + j) := by
  have hbits : (packChars 0 0 s).getLsbD (8 * k + j) =
      ((lane s k).getLsbD j || negativeBelow s k) := by
    rw [getLsbD_packChars, getLsbD_lane, negativeBelow, Bool.eq_iff_iff]
    simp [getLsbD_shiftedChar _ _ hk hj, exists_or, and_or_left]
  rw [hbits, shown]
  split_ifs with hneg
  · rw [BitVec.getLsbD_allOnes, hneg, Bool.or_true, decide_eq_true hj]
  · simp [hneg]

/-- The four bytes above are the sign. -/
theorem getLsbD_shown_high (s : List Char8) {k j : ℕ} (hk : 4 ≤ k) (hk' : k < 8) (hj : j < 8) :
    (shown s k).getLsbD j = (shown s 3).getLsbD 7 := by
  have hsign : ∀ i c, (shiftedChar i c).getLsbD (8 * k + j) = (shiftedChar i c).getLsbD (8 * 3 + 7) := by
    intro i c
    have hlane : i % 4 < 4 := Nat.mod_lt _ (by decide)
    rw [getLsbD_shiftedChar i c hk' hj, getLsbD_shiftedChar i c (by decide) (by decide), ← BitVec.msb_eq_getLsbD_last]
    rcases Nat.lt_or_ge (i % 4) 3 with hlow | hthree
    · simp [hlow, show i % 4 ≠ 3 by omega, show i % 4 ≠ k by omega, show i % 4 < k by omega]
    · have hthree : i % 4 = 3 := by omega
      simp [hthree, show 3 ≠ k by omega, show 3 < k by omega]
  rw [getLsbD_shown s hk' hj, getLsbD_shown s (by decide) (by decide), getLsbD_packChars, getLsbD_packChars]
  simp [hsign]

theorem ofString_eq_iff {s s' : List Char8} (hs : 3 ≤ s.length ∧ s.length ≤ 7)
    (hs' : 3 ≤ s'.length ∧ s'.length ≤ 7) :
    ofString s = ofString s' ↔ ∀ k < 4, shown s k = shown s' k := by
  have hwords : ofString s = ofString s' ↔ packChars 0 0 s = packChars 0 0 s' := by
    rw [ofString, ofString, tokenNameFromString, tokenNameFromString, if_pos hs.symm, if_pos hs'.symm,
      Option.some_inj]
  rw [hwords]
  constructor
  · intro h k hk
    refine BitVec.eq_of_getLsbD_eq fun j hj => ?_
    rw [getLsbD_shown s (by omega) hj, getLsbD_shown s' (by omega) hj, h]
  · intro h
    refine BitVec.eq_of_getLsbD_eq fun n hn => ?_
    rw [← Nat.div_add_mod n 8, ← getLsbD_shown s (by omega) (Nat.mod_lt _ (by decide)),
      ← getLsbD_shown s' (by omega) (Nat.mod_lt _ (by decide))]
    rcases Nat.lt_or_ge (n / 8) 4 with hlow | hhigh
    · rw [h _ hlow]
    · rw [getLsbD_shown_high s hhigh (by omega) (Nat.mod_lt _ (by decide)),
        getLsbD_shown_high s' hhigh (by omega) (Nat.mod_lt _ (by decide)), h 3 (by decide)]

/-! ## What is true of the names -/

/-- Three to seven characters, none of them zero. -/
def IsName (s : List Char8) : Prop := 3 ≤ s.length ∧ s.length ≤ 7 ∧ 0 ∉ s

/-- No symbol of a name comes back, and two names share their symbol when the bytes that their
characters fall on are the same. -/
theorem names_do_not_round_trip (s s' : List Char8) (hs : IsName s) (hs' : IsName s') :
    ¬ RoundTrips s ∧ (ofString s = ofString s' ↔ ∀ k < 4, shown s k = shown s' k) := by
  refine ⟨?_, ofString_eq_iff ⟨hs.1, hs.2.1⟩ ⟨hs'.1, hs'.2.1⟩⟩
  rintro ⟨a, -, -, hback⟩
  rw [ofString_toString] at hback
  cases hback

def charsOf (s : List ℕ) : List Char8 := s.map (BitVec.ofNat 8)

/-- "TST" and "TSA". -/
theorem tst_does_not_round_trip :
    ¬ RoundTrips (charsOf [84, 83, 84]) ∧
      (ofString (charsOf [84, 83, 84]) = ofString (charsOf [84, 83, 65]) ↔
        ∀ k < 4, shown (charsOf [84, 83, 84]) k = shown (charsOf [84, 83, 65]) k) :=
  names_do_not_round_trip _ _ ⟨by decide, by decide, by decide⟩ ⟨by decide, by decide, by decide⟩

/-- "abcd" and "abcda" are one token, and "TST" is a token that its own string does not name. -/
theorem names_share_a_token :
    ¬ ((∀ s s', IsName s → IsName s' → ofString s = ofString s' → s = s') ∧
      ∀ s, IsName s → RoundTrips s) := by
  rintro ⟨hinj, -⟩
  have h := hinj (charsOf [97, 98, 99, 100]) (charsOf [97, 98, 99, 100, 97]) ⟨by decide, by decide, by decide⟩
    ⟨by decide, by decide, by decide⟩ (by decide)
  exact absurd h (by decide)

end XmaxChain
