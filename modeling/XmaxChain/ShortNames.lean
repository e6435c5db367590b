import XmaxChain.Ledger
import XmaxChain.Lib.PrefixCode

/-!
# Short names

A short name is packed into 64 bits: letters, the dot and the digits from 1 to 4 take five bits, the rest
eight, the first five of them zero. Characters of no region are passed over, and packing stops where a
character does not fit. What was packed is printed again, and the codes of names are ordered as the names are
in the order of their characters.
-/

namespace XmaxChain

namespace ShortName

section Model

inductive Sregion
  | sr0 | sr1 | srerror
deriving DecidableEq

structure ScodeRs where
  region : Sregion
  symbol : ℕ
deriving DecidableEq

def scodeRegion0 : Bytes := "#abcdefghijklmnopqrstuvwxyz.1234".toList.map Char.toNat

def scodeRegion1 : Bytes := "#@567890".toList.map Char.toNat

def getSglyph (region : Sregion) (sym : ℕ) : ℕ :=
  match region with
  | .sr0 => if 0 < sym ∧ sym < scodeRegion0.length then scodeRegion0.getD sym 0 else 0
  | .sr1 => if 0 < sym ∧ sym < scodeRegion1.length then scodeRegion1.getD sym 0 else 0
  | .srerror => 0

def getScodeRs (ch : ℕ) : ScodeRs :=
  if 97 ≤ ch ∧ ch ≤ 122 then ⟨.sr0, ch - 97 + 1⟩
  else if ch = 46 then ⟨.sr0, 27⟩
  else if 49 ≤ ch ∧ ch ≤ 52 then ⟨.sr0, ch - 49 + 28⟩
  else if ch = 64 then ⟨.sr1, 1⟩
  else if 53 ≤ ch ∧ ch ≤ 57 then ⟨.sr1, ch - 53 + 2⟩
  else if ch = 48 then ⟨.sr1, 7⟩
  else ⟨.srerror, 0⟩

/-- How many bits a region takes. -/
def Sregion.bits : Sregion → ℕ
  | .sr0 => 5
  | .sr1 => 8
  | .srerror => 0

def nameCodeBits : ℕ := 64

/-- The loop of `to_name_code`. -/
def markSymbols (namecode remains : ℕ) : Bytes → ℕ
  | [] => namecode
  | ch :: ptr =>
    let rs := getScodeRs ch
    if rs.region = .srerror then markSymbols namecode remains ptr
    else if remains < rs.region.bits then namecode
    else
      let remains := remains - rs.region.bits
      markSymbols (namecode ||| rs.symbol * 2 ^ remains) remains ptr

def toNameCode (str : Bytes) : ℕ := markSymbols 0 nameCodeBits (cString str)

/-- The loop of `to_string`. The mask of the first region has the five highest bits, that of the second one
the three that come after them. -/
def printSymbols (namecode remains : ℕ) : Bytes :=
  if remains < Sregion.sr0.bits then []
  else if namecode / 2 ^ 59 ≠ 0 then
    getSglyph .sr0 (namecode / 2 ^ 59) :: printSymbols (u64 (namecode * 2 ^ 5)) (remains - 5)
  else if remains < Sregion.sr1.bits then []
  else if namecode / 2 ^ 56 % 8 ≠ 0 then
    getSglyph .sr1 (namecode / 2 ^ 56 % 8) :: printSymbols (u64 (namecode * 2 ^ 8)) (remains - 8)
  else []
termination_by remains
decreasing_by
  · have : Sregion.sr0.bits = 5 := rfl
    omega
  · have : Sregion.sr1.bits = 8 := rfl
    omega

def toString (code : ℕ) : Bytes := printSymbols code nameCodeBits

def glyphBitLength (gl : ℕ) : ℕ := (getScodeRs gl).region.bits

/-- The loop of `legal_name`, which counts in 32 bits. -/
def legalLoop (totallen : ℕ) : Bytes → Bool
  | [] => totallen ≤ nameCodeBits
  | ch :: str => glyphBitLength ch ≠ 0 && legalLoop (u32 (totallen + glyphBitLength ch)) str

def legalName (str : Bytes) : Bool := legalLoop 0 (cString str)

end Model

/-! ## The code -/

section Code

/-- The characters in the order of their words. -/
def glyphs : Bytes := "@567890abcdefghijklmnopqrstuvwxyz.1234".toList.map Char.toNat

abbrev Glyph := Fin 38

def Glyph.char (g : Glyph) : ℕ := glyphs.getD g 0

def glyphOf (ch : ℕ) : Option Glyph := if h : glyphs.idxOf ch < 38 then some ⟨_, h⟩ else none

def nameCode : PrefixCode Glyph where
  width g := if g.val < 7 then 8 else 5
  word g := if g.val < 7 then g.val + 1 else g.val - 6
  word_lt := by decide
  word_pos := by decide
  apart {a b} := by
    have h : ∀ a b : Glyph, a < b → ((if a.val < 7 then a.val + 1 else a.val - 6) + 1) *
        2 ^ (if b.val < 7 then 8 else 5) ≤ (if b.val < 7 then b.val + 1 else b.val - 6) *
        2 ^ (if a.val < 7 then 8 else 5) := by decide
    exact h a b

theorem getScodeRs_char (g : Glyph) :
    getScodeRs g.char = ⟨if g.val < 7 then .sr1 else .sr0, nameCode.word g⟩ := by
  revert g
  decide

theorem getSglyph_word (g : Glyph) :
    getSglyph (if g.val < 7 then .sr1 else .sr0) (nameCode.word g) = g.char := by
  revert g
  decide

theorem bits_char (g : Glyph) : (getScodeRs g.char).region.bits = nameCode.width g := by
  revert g
  decide

theorem glyphOf_char (g : Glyph) : glyphOf g.char = some g := by
  revert g
  decide

/-- A character that is no glyph is of no region. -/
theorem glyphOf_cases (ch : ℕ) :
    (∃ g : Glyph, ch = g.char) ∨ glyphOf ch = none ∧ getScodeRs ch = ⟨.srerror, 0⟩ := by
  by_cases hch : ch < 128
  · have hall : ∀ ch < 128, (∃ g : Glyph, ch = g.char) ∨
        glyphOf ch = none ∧ getScodeRs ch = ⟨.srerror, 0⟩ := by decide +kernel
    exact hall ch hch
  · refine .inr ⟨?_, ?_⟩
    · have hall : ∀ c ∈ glyphs, c < 128 := by decide
      have hmem : ch ∉ glyphs := fun hmem => hch (hall ch hmem)
      rw [glyphOf, List.idxOf_of_notMem hmem, dif_neg (by decide)]
    · unfold getScodeRs
      rw [if_neg (by omega), if_neg (by omega), if_neg (by omega), if_neg (by omega), if_neg (by omega),
        if_neg (by omega)]

end Code

/-! ## Packing and printing -/

section Text

variable {remains : ℕ} {gs : List Glyph}

theorem markSymbols_eq {namecode : ℕ} (hdvd : 2 ^ remains ∣ namecode) (s : Bytes) :
    markSymbols namecode remains s =
      namecode + nameCode.pack remains (nameCode.fit remains (s.filterMap glyphOf)) := by
  induction s generalizing namecode remains with
  | nil => rfl
  | cons ch s ih =>
    rcases glyphOf_cases ch with ⟨g, rfl⟩ | ⟨hnone, hrs⟩
    swap
    · rw [markSymbols, hrs, List.filterMap_cons_none hnone]
      exact ih hdvd
    have hregion : (getScodeRs g.char).region ≠ .srerror := by
      rw [getScodeRs_char]
      split_ifs <;> simp
    have hsymbol : (getScodeRs g.char).symbol = nameCode.word g := by rw [getScodeRs_char]
    rw [markSymbols, List.filterMap_cons_some (glyphOf_char g), PrefixCode.fit]
    simp only [if_neg hregion, bits_char, hsymbol]
    by_cases hfit : nameCode.width g ≤ remains
    swap
    · rw [if_pos (by omega), if_neg hfit]
      rfl
    rw [if_neg (by omega), if_pos hfit, PrefixCode.pack, ← Nat.add_assoc]
    obtain ⟨m, rfl⟩ := hdvd
    have hmark : nameCode.word g * 2 ^ (remains - nameCode.width g) < 2 ^ remains := by
      have hlt := Nat.mul_lt_mul_of_pos_right (nameCode.word_lt g)
        (Nat.two_pow_pos (remains - nameCode.width g))
      rwa [← pow_add, Nat.add_sub_cancel' hfit] at hlt
    rw [← Nat.two_pow_add_eq_or_of_lt hmark]
    refine ih (Dvd.dvd.add (Dvd.dvd.mul_right (pow_dvd_pow 2 (Nat.sub_le _ _)) m) (dvd_mul_left _ _))

theorem printSymbols_zero (remains : ℕ) : printSymbols 0 remains = [] := by
  rw [printSymbols]
  split_ifs with h <;> simp_all

theorem printSymbols_pack (hgs : nameCode.totalWidth gs ≤ remains) (hremains : remains ≤ 64) :
    printSymbols (nameCode.pack remains gs * 2 ^ (64 - remains)) remains = gs.map Glyph.char := by
  induction gs generalizing remains with
  | nil =>
    rw [PrefixCode.pack, Nat.zero_mul]
    exact printSymbols_zero remains
  | cons g gs ih =>
    have hdiv := PrefixCode.pack_cons_div hgs hremains
    have hshift := PrefixCode.pack_cons_shift hgs hremains
    have hpos := nameCode.word_pos g
    have hglyph := getSglyph_word g
    have hwidth : nameCode.width g ≤ remains := by
      rw [PrefixCode.totalWidth_cons] at hgs
      omega
    have hrest : nameCode.totalWidth gs ≤ remains - nameCode.width g := by
      rw [PrefixCode.totalWidth_cons] at hgs
      omega
    have ih := ih hrest (by omega)
    generalize nameCode.pack remains (g :: gs) * 2 ^ (64 - remains) = code at hdiv hshift ⊢
    by_cases hsecond : g.val < 7
    · have hw : nameCode.width g = 8 := if_pos hsecond
      have hword : nameCode.word g = g.val + 1 := if_pos hsecond
      rw [hw] at hdiv hshift hwidth ih
      rw [if_pos hsecond] at hglyph
      have hhigh : code / 2 ^ 59 = 0 := by omega
      have hmark : code / 2 ^ 56 % 8 = nameCode.word g := by omega
      rw [printSymbols, if_neg (by rw [Sregion.bits]; omega), if_neg (not_not.2 hhigh),
        if_neg (by rw [Sregion.bits]; omega), if_pos (by omega), hmark, hglyph, u64, hshift, ih,
        List.map_cons]
    · have hw : nameCode.width g = 5 := if_neg hsecond
      rw [hw] at hdiv hshift hwidth ih
      rw [if_neg hsecond] at hglyph
      rw [printSymbols, if_neg (by rw [Sregion.bits]; omega), if_pos (by omega), hdiv, hglyph, u64, hshift,
        ih, List.map_cons]

/-- What a name's code is printed as: of its characters that have a region those that fit. -/
theorem short_name_printed (str : Bytes) :
    toString (toNameCode str) =
      (nameCode.fit nameCodeBits ((cString str).filterMap glyphOf)).map Glyph.char := by
  have hcode := markSymbols_eq (dvd_zero (2 ^ nameCodeBits)) (cString str)
  have hprint := printSymbols_pack (nameCode.totalWidth_fit nameCodeBits ((cString str).filterMap glyphOf))
    (le_refl 64)
  rw [Nat.zero_add] at hcode
  rw [show 64 - nameCodeBits = 0 from rfl, pow_zero, Nat.mul_one] at hprint
  rw [toString, toNameCode, hcode]
  exact hprint

end Text

/-! ## Legal names -/

section Legal

variable {s t : Bytes}

theorem u32_u32_add (m n : ℕ) : u32 (u32 m + n) = u32 (m + n) := Nat.mod_add_mod ..

theorem legalLoop_eq_true {total : ℕ} (htotal : total < 2 ^ 32) :
    legalLoop total s = true ↔
      ∃ gs : List Glyph, s = gs.map Glyph.char ∧ u32 (total + nameCode.totalWidth gs) ≤ 64 := by
  induction s generalizing total with
  | nil =>
    rw [legalLoop, decide_eq_true_eq]
    refine ⟨fun h => ⟨[], rfl, (Nat.mod_le _ _).trans h⟩, fun ⟨gs, hgs, h⟩ => ?_⟩
    obtain rfl := List.map_eq_nil_iff.1 hgs.symm
    rwa [PrefixCode.totalWidth_nil, Nat.add_zero, u32_of_lt htotal] at h
  | cons ch s ih =>
    have hrest := ih (u32_lt (total + glyphBitLength ch))
    rw [legalLoop, Bool.and_eq_true, decide_eq_true_eq, hrest]
    constructor
    · rintro ⟨hbits, gs, rfl, hle⟩
      rcases glyphOf_cases ch with ⟨g, rfl⟩ | ⟨-, hrs⟩
      · rw [glyphBitLength, bits_char, u32_u32_add] at hle
        exact ⟨g :: gs, rfl, by rwa [PrefixCode.totalWidth_cons, ← Nat.add_assoc]⟩
      · exact absurd (by rw [glyphBitLength, hrs]; rfl) hbits
    · rintro ⟨gs, hgs, hle⟩
      cases gs with
      | nil => cases hgs
      | cons g gs =>
        obtain ⟨rfl, rfl⟩ := List.cons.inj hgs
        rw [PrefixCode.totalWidth_cons, ← Nat.add_assoc] at hle
        refine ⟨?_, gs, rfl, by rwa [glyphBitLength, bits_char, u32_u32_add]⟩
        rw [glyphBitLength, bits_char]
        have hpos := nameCode.width_pos g
        omega

/-- A legal name is of glyphs that all fit. -/
theorem glyphs_of_legal (hs : legalName s = true) (hlength : s.length < 2 ^ 29) :
    ∃ gs : List Glyph, cString s = gs.map Glyph.char ∧ (cString s).filterMap glyphOf = gs ∧
      nameCode.totalWidth gs ≤ nameCodeBits ∧ toNameCode s = nameCode.pack nameCodeBits gs := by
  obtain ⟨gs, hgs, hle⟩ := (legalLoop_eq_true (by decide)).1 hs
  have hfilter : (cString s).filterMap glyphOf = gs := by
    rw [hgs, List.filterMap_map]
    exact (List.filterMap_congr fun g _ => glyphOf_char g).trans List.filterMap_some
  have hshort : gs.length ≤ s.length := by
    have := congrArg List.length hgs
    rw [List.length_map] at this
    exact this ▸ (List.takeWhile_sublist _).length_le
  have hwidth : nameCode.totalWidth gs ≤ 8 * gs.length := by
    refine PrefixCode.totalWidth_le fun g => ?_
    show (if _ then _ else _) ≤ 8
    split_ifs <;> omega
  rw [Nat.zero_add, u32_of_lt (by omega)] at hle
  change nameCode.totalWidth gs ≤ nameCodeBits at hle
  refine ⟨gs, hgs, hfilter, hle, ?_⟩
  rw [toNameCode, markSymbols_eq (dvd_zero _), hfilter, PrefixCode.fit_eq_self hle, Nat.zero_add]

/-- Legal names are printed as they are, and their codes have the order of the names. -/
theorem short_names_ordered (hs : legalName s = true) (ht : legalName t = true)
    (hlength : s.length < 2 ^ 29) (hlength' : t.length < 2 ^ 29) :
    toString (toNameCode s) = cString s ∧ toString (toNameCode t) = cString t ∧
      (toNameCode s = toNameCode t ↔ cString s = cString t) ∧
      (toNameCode s < toNameCode t ↔
        (cString s).filterMap glyphOf < (cString t).filterMap glyphOf) := by
  obtain ⟨gs, hgs, hfilter, hle, hcode⟩ := glyphs_of_legal hs hlength
  obtain ⟨gs', hgs', hfilter', hle', hcode'⟩ := glyphs_of_legal ht hlength'
  have hprint : ∀ gs, nameCode.totalWidth gs ≤ nameCodeBits →
      toString (nameCode.pack nameCodeBits gs) = gs.map Glyph.char := fun gs hle => by
    have h := printSymbols_pack hle (le_refl 64)
    rwa [show 64 - nameCodeBits = 0 from rfl, pow_zero, Nat.mul_one] at h
  refine ⟨?_, ?_, ⟨fun h => ?_, fun h => ?_⟩, ?_⟩
  · rw [hcode, hprint gs hle, hgs]
  · rw [hcode', hprint gs' hle', hgs']
  · rw [hcode, hcode', PrefixCode.pack_inj hle hle'] at h
    rw [hgs, hgs', h]
  · rw [toNameCode, toNameCode, h]
  · rw [hcode, hcode', hfilter, hfilter', PrefixCode.pack_lt_pack_iff hle hle']

theorem short_names_ordered_transfer :
    legalName ("transfer".toList.map Char.toNat) = true ∧
      toNameCode ("transfer".toList.map Char.toNat) < toNameCode ("vote".toList.map Char.toNat) := by
  have ht : legalName ("transfer".toList.map Char.toNat) = true := by decide
  have hv : legalName ("vote".toList.map Char.toNat) = true := by decide
  have horder := (short_names_ordered ht hv (by decide) (by decide)).2.2.2
  exact ⟨ht, horder.2 (by decide)⟩

end Legal

end ShortName

end XmaxChain
