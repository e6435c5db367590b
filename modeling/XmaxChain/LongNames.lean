import Mathlib.Data.List.GetD
import Mathlib.Data.List.TakeWhile
import XmaxChain.BlockPack

/-!
# Names

A name is 128 bits, six to each of 21 characters from the top. The two bits that are left over take a part of one more
character, and a name is printed up to its first zero code.
-/

namespace XmaxChain

/-- `name_code_type`. -/
abbrev NameCode := BitVec 128

namespace LongName

/-! ## Packing and printing -/

def chars (s : String) : Bytes := s.toList.map Char.toNat

/-- `CODE_MAP_U128`. -/
def codeMap : Bytes := chars "abcdefghijklmnopqrstuvwxyz0123456789.#@$%_-"

/-- The reverse map has the codes from 1 on. -/
def charToCode (chr : ℕ) : Except Fault ℕ :=
  if chr ∈ codeMap then .ok (codeMap.idxOf chr + 1) else .error (.std "unordered_map::at")

/-- What an assertion would refuse is undefined where the assertions are not compiled. -/
def codeToChar (asserts : Bool) : ℕ → Except Fault ℕ
  | 0 => .error (.undefined "CODE_MAP_U128[-1]")
  | i + 1 =>
    if asserts ∧ ¬ i + 1 < codeMap.length then .error (.undefined "code < sizeof(CODE_MAP_U128)")
    else match codeMap[i]? with
      | some chr => .ok chr
      | none => .error (.undefined "CODE_MAP_U128[code - 1]")

/-- The code of the character at `i`. -/
def group (nameCode : NameCode) (i : ℕ) : ℕ := ((nameCode >>> (128 - 6 * (i + 1))) &&& 63).toNat

def groups (nameCode : NameCode) : List ℕ := (List.range 21).map (group nameCode)

/-- The loop over the codes, which the first zero breaks. -/
def printCodes (asserts : Bool) : List ℕ → Except Fault Bytes
  | [] => .ok []
  | code :: codes =>
    if code = 0 then .ok []
    else do
      let chr ← codeToChar asserts code
      let res ← printCodes asserts codes
      pure (chr :: res)

def toString (asserts : Bool) (nameCode : NameCode) : Except Fault Bytes :=
  if nameCode = 0 then .ok [] else printCodes asserts (groups nameCode)

/-- The code `c` where the character at `i` has its bits. -/
def placed (i c : ℕ) : NameCode :=
  if i < 21 then (BitVec.ofNat 128 c &&& 63) <<< (128 - 6 * (i + 1)) else BitVec.ofNat 128 c &&& 3

def toNameCode (str : Bytes) : Except Fault NameCode :=
  (List.range 22).foldlM (fun value i => do
    let c ← match (cString str)[i]? with
      | some chr => charToCode chr
      | none => pure 0
    pure (value ||| placed i c)) 0

example : toNameCode (chars "xmax") = .ok (BitVec.ofNat 128 xmaxContractName) := by decide

/-! ## The bits of a name -/

/-- A name that has the code `f i` at each place, as far as its bits are there. -/
def pack (f : ℕ → ℕ) : NameCode := (List.range 22).foldl (fun value i => value ||| placed i (f i)) 0

/-- The two bits that are never printed. -/
def tail (nameCode : NameCode) : NameCode := nameCode &&& 3

theorem getLsbD_mask {k : ℕ} (hk : k ≤ 128) (j : ℕ) :
    (BitVec.ofNat 128 (2 ^ k - 1)).getLsbD j = decide (j < k) := by
  rw [BitVec.getLsbD_ofNat, Nat.testBit_two_pow_sub_one, Bool.eq_iff_iff]
  simp
  omega

theorem getLsbD_and_63 (n : NameCode) (j : ℕ) : (n &&& 63).getLsbD j = (n.getLsbD j && decide (j < 6)) := by
  rw [BitVec.getLsbD_and, ← getLsbD_mask (k := 6) (by decide)]
  rfl

theorem getLsbD_and_3 (n : NameCode) (j : ℕ) : (n &&& 3).getLsbD j = (n.getLsbD j && decide (j < 2)) := by
  rw [BitVec.getLsbD_and, ← getLsbD_mask (k := 2) (by decide)]
  rfl

theorem testBit_group (n : NameCode) {i : ℕ} (hi : i < 21) (j : ℕ) :
    (group n i).testBit j = (n.getLsbD (122 - 6 * i + j) && decide (j < 6)) := by
  rw [group, BitVec.testBit_toNat, getLsbD_and_63, BitVec.getLsbD_ushiftRight,
    show 128 - 6 * (i + 1) = 122 - 6 * i by omega]

theorem group_eq_iff {n n' : NameCode} {i : ℕ} (hi : i < 21) : group n i = group n' i ↔
    ∀ j < 6, n.getLsbD (122 - 6 * i + j) = n'.getLsbD (122 - 6 * i + j) := by
  constructor
  · intro h j hj
    have hbit := congrArg (·.testBit j) h
    simpa [testBit_group _ hi, hj] using hbit
  · intro h
    refine Nat.eq_of_testBit_eq fun j => ?_
    rw [testBit_group _ hi, testBit_group _ hi]
    by_cases hj : j < 6
    · rw [h j hj]
    · simp [hj]

theorem groups_eq_iff {n n' : NameCode} : groups n = groups n' ↔ ∀ i < 21, group n i = group n' i := by
  simp [groups]

/-- A bit is one of the two at the end, or one of six of a code. -/
theorem eq_iff_groups {n n' : NameCode} : n = n' ↔ groups n = groups n' ∧ tail n = tail n' := by
  refine ⟨fun h => h ▸ ⟨rfl, rfl⟩, fun ⟨hgroups, htail⟩ => BitVec.eq_of_getLsbD_eq fun b hb => ?_⟩
  obtain hlow | hhigh := Nat.lt_or_ge b 2
  · have hbit : (tail n).getLsbD b = (tail n').getLsbD b := by rw [htail]
    rw [tail, tail, getLsbD_and_3, getLsbD_and_3] at hbit
    simpa [hlow] using hbit
  · have hplace : b = 122 - 6 * ((127 - b) / 6) + (b - 2) % 6 := by omega
    rw [hplace]
    exact (group_eq_iff (by omega)).1 (groups_eq_iff.1 hgroups _ (by omega)) _ (Nat.mod_lt _ (by decide))

theorem getLsbD_placed {i k j : ℕ} (c : ℕ) (hk : k < 21) (hj : j < 6) :
    (placed i c).getLsbD (122 - 6 * k + j) = (decide (i = k) && c.testBit j) := by
  obtain hi | hi := Nat.lt_or_ge i 21
  · rw [placed, if_pos hi, BitVec.getLsbD_shiftLeft, getLsbD_and_63, BitVec.getLsbD_ofNat]
    obtain hik | rfl | hik := lt_trichotomy i k
    · simp [hik.ne, show 122 - 6 * k + j < 128 - 6 * (i + 1) by omega]
    · simp [show 122 - 6 * i + j < 128 by omega, show ¬ 122 - 6 * i + j < 128 - 6 * (i + 1) by omega,
        show 122 - 6 * i + j - (128 - 6 * (i + 1)) = j by omega, show j < 128 by omega, hj]
    · simp [hik.ne', show ¬ 122 - 6 * k + j - (128 - 6 * (i + 1)) < 6 by omega]
  · rw [placed, if_neg hi.not_gt, getLsbD_and_3]
    simp [show ¬ 122 - 6 * k + j < 2 by omega, show i ≠ k by omega]

theorem getLsbD_placed_tail {i j : ℕ} (c : ℕ) (hi : i < 22) (hj : j < 2) :
    (placed i c).getLsbD j = (decide (i = 21) && c.testBit j) := by
  obtain hi' | rfl : i < 21 ∨ i = 21 := by omega
  · rw [placed, if_pos hi', BitVec.getLsbD_shiftLeft]
    simp [hi'.ne, show j < 128 - 6 * (i + 1) by omega]
  · rw [placed, if_neg (lt_irrefl 21), getLsbD_and_3, BitVec.getLsbD_ofNat]
    simp [hj, show j < 128 by omega]

theorem getLsbD_foldl {f : ℕ → ℕ} {l : List ℕ} {value : NameCode} (b : ℕ) :
    (l.foldl (fun value i => value ||| placed i (f i)) value).getLsbD b =
      (value.getLsbD b || l.any fun i => (placed i (f i)).getLsbD b) := by
  induction l generalizing value with
  | nil => simp
  | cons i l ih => simp [ih, Bool.or_assoc]

variable {f : ℕ → ℕ}

theorem getLsbD_pack {i j : ℕ} (hi : i < 21) (hj : j < 6) :
    (pack f).getLsbD (122 - 6 * i + j) = (f i).testBit j := by
  have hany : (List.range 22).any (fun k => decide (k = i) && (f k).testBit j) = (f i).testBit j := by
    rw [Bool.eq_iff_iff, List.any_eq_true]
    simp [show i < 22 by omega]
  simpa [pack, getLsbD_foldl, getLsbD_placed _ hi hj] using hany

theorem group_pack {i : ℕ} (hi : i < 21) : group (pack f) i = f i % 64 := by
  refine Nat.eq_of_testBit_eq fun j => ?_
  rw [testBit_group _ hi, show 64 = 2 ^ 6 from rfl, Nat.testBit_mod_two_pow]
  by_cases hj : j < 6
  · rw [getLsbD_pack hi hj, Bool.and_comm]
  · simp [hj]

theorem tail_pack : tail (pack f) = BitVec.ofNat 128 (f 21) &&& 3 := by
  refine BitVec.eq_of_getLsbD_eq fun j _ => ?_
  rw [tail, getLsbD_and_3, getLsbD_and_3]
  by_cases hj : j < 2
  · have hany : (List.range 22).any (fun k => (placed k (f k)).getLsbD j) = (f 21).testBit j := by
      rw [Bool.eq_iff_iff, List.any_eq_true]
      constructor
      · rintro ⟨k, hk, hbit⟩
        rw [getLsbD_placed_tail _ (List.mem_range.1 hk) hj] at hbit
        obtain ⟨rfl, hbit⟩ := by simpa using hbit
        exact hbit
      · intro hbit
        refine ⟨21, by decide, ?_⟩
        rw [getLsbD_placed_tail _ (by decide) hj, hbit]
        rfl
    rw [pack, getLsbD_foldl, hany, BitVec.getLsbD_ofNat]
    simp [hj, show j < 128 by omega]
  · simp [hj]

/-! ## Characters and codes -/

def codeOf (chr : ℕ) : ℕ := codeMap.idxOf chr + 1

def charOf (code : ℕ) : ℕ := codeMap.getD (code - 1) 0

/-- The last code that is printed. The assertion leaves out the last character. -/
def lastCode (asserts : Bool) : ℕ := if asserts then 42 else 43

theorem lastCode_le (asserts : Bool) : lastCode asserts ≤ 43 := by cases asserts <;> decide

theorem codeMap_nodup : codeMap.Nodup := by decide

theorem codeOf_le {chr : ℕ} (h : chr ∈ codeMap) : codeOf chr ≤ 43 := List.idxOf_lt_length_of_mem h

theorem charOf_codeOf {chr : ℕ} (h : chr ∈ codeMap) : charOf (codeOf chr) = chr := by
  rw [charOf, codeOf, Nat.add_sub_cancel, List.getD_eq_getElem _ _ (List.idxOf_lt_length_of_mem h), List.getElem_idxOf]

theorem codeOf_charOf {code : ℕ} (hpos : code ≠ 0) (hle : code ≤ 43) : codeOf (charOf code) = code := by
  have hlt : code - 1 < codeMap.length := show code - 1 < 43 by omega
  rw [codeOf, charOf, List.getD_eq_getElem _ _ hlt, codeMap_nodup.idxOf_getElem]
  omega

theorem codeToChar_eq_ok {asserts : Bool} {code chr : ℕ} (hpos : code ≠ 0) :
    codeToChar asserts code = .ok chr ↔ code ≤ lastCode asserts ∧ chr = charOf code := by
  obtain ⟨i, rfl⟩ := Nat.exists_eq_succ_of_ne_zero hpos
  have hlength : codeMap.length = 43 := rfl
  have hmap : ∀ hi : i < codeMap.length, codeMap[i]? = some (charOf (i + 1)) := fun hi => by
    rw [charOf, Nat.add_sub_cancel, List.getD_eq_getElem _ _ hi, List.getElem?_eq_getElem hi]
  rw [codeToChar]
  split_ifs with hassert
  · have hpast : ¬ i + 1 ≤ lastCode asserts := by
      rw [hassert.1, lastCode, if_pos rfl]
      omega
    simp [hpast]
  · obtain hlt | hge := Nat.lt_or_ge i codeMap.length
    · have hle : i + 1 ≤ lastCode asserts := by
        rw [lastCode]
        split_ifs with h
        · have := not_not.1 fun hnot => hassert ⟨h, hnot⟩
          omega
        · omega
      simp [hmap hlt, hle, eq_comm]
    · have hpast : ¬ i + 1 ≤ lastCode asserts := fun hle => by
        have := hle.trans (lastCode_le asserts)
        omega
      simp [List.getElem?_eq_none hge, hpast]

theorem printCodes_eq_ok {asserts : Bool} {codes : List ℕ} {t : Bytes} : printCodes asserts codes = .ok t ↔
    (∀ code ∈ codes.takeWhile (· ≠ 0), code ≤ lastCode asserts) ∧ t = (codes.takeWhile (· ≠ 0)).map charOf := by
  induction codes generalizing t with
  | nil => simp [printCodes, eq_comm]
  | cons code codes ih =>
    by_cases hzero : code = 0
    · simp [printCodes, hzero, eq_comm]
    · simp only [printCodes, if_neg hzero, bind_eq_ok, codeToChar_eq_ok hzero, ih]
      simp only [hzero, ne_eq, not_false_eq_true, decide_true, List.takeWhile_cons_of_pos, List.forall_mem_cons,
        List.map_cons]
      constructor
      · rintro ⟨chr, ⟨hle, rfl⟩, res, ⟨hcodes, rfl⟩, hres⟩
        cases hres
        exact ⟨⟨hle, hcodes⟩, rfl⟩
      · rintro ⟨⟨hle, hcodes⟩, rfl⟩
        exact ⟨_, ⟨hle, rfl⟩, _, ⟨hcodes, rfl⟩, rfl⟩

/-- What is printed of a name, and what is not. -/
def printed (n : NameCode) : List ℕ := (groups n).takeWhile (· ≠ 0)

def unprinted (n : NameCode) : List ℕ × NameCode := ((groups n).dropWhile (· ≠ 0), tail n)

theorem toString_eq_ok {asserts : Bool} {n : NameCode} {t : Bytes} : toString asserts n = .ok t ↔
    (∀ code ∈ printed n, code ≤ lastCode asserts) ∧ t = (printed n).map charOf := by
  rw [toString]
  split_ifs with hzero
  · rw [hzero, show printed 0 = [] by decide]
    simp [eq_comm]
  · exact printCodes_eq_ok

theorem printed_ne_zero {n : NameCode} {code : ℕ} (h : code ∈ printed n) : code ≠ 0 := by
  simpa using List.mem_takeWhile_imp h

theorem eq_iff_printed {n n' : NameCode} : n = n' ↔ printed n = printed n' ∧ unprinted n = unprinted n' := by
  refine ⟨fun h => h ▸ ⟨rfl, rfl⟩, fun ⟨hprinted, hrest⟩ => eq_iff_groups.2 ⟨?_, congrArg Prod.snd hrest⟩⟩
  have hdrop : (groups n).dropWhile (· ≠ 0) = (groups n').dropWhile (· ≠ 0) := congrArg Prod.fst hrest
  calc groups n = printed n ++ (groups n).dropWhile (· ≠ 0) := List.takeWhile_append_dropWhile.symm
    _ = printed n' ++ (groups n').dropWhile (· ≠ 0) := by rw [hprinted, hdrop]
    _ = groups n' := List.takeWhile_append_dropWhile

/-- What is printed comes from one list of codes. -/
theorem printed_inj {asserts : Bool} {n n' : NameCode} {t : Bytes} (h : toString asserts n = .ok t)
    (h' : toString asserts n' = .ok t) : printed n = printed n' := by
  have hcodes : ∀ {n : NameCode}, toString asserts n = .ok t → printed n = t.map codeOf := by
    intro n h
    obtain ⟨hle, rfl⟩ := toString_eq_ok.1 h
    have hsame : ∀ code ∈ printed n, (codeOf ∘ charOf) code = id code := fun code hcode =>
      codeOf_charOf (printed_ne_zero hcode) ((hle code hcode).trans (lastCode_le asserts))
    rw [List.map_map, List.map_congr_left hsame, List.map_id]
  rw [hcodes h, hcodes h']

/-! ## Strings -/

/-- The code that a string has at a place. -/
def codeAt (s : Bytes) (i : ℕ) : ℕ := (s.map codeOf).getD i 0

variable {s : Bytes}

theorem codeAt_lt (hs : ∀ chr ∈ s, chr ∈ codeMap) (i : ℕ) : codeAt s i < 64 := by
  rw [codeAt, List.getD_eq_getElem?_getD, List.getElem?_map]
  cases h : s[i]? with
  | none => decide
  | some chr => exact (codeOf_le (hs chr (List.mem_of_getElem? h))).trans_lt (by decide)

theorem toNameCode_eq (hs : ∀ chr ∈ s, chr ∈ codeMap) : toNameCode s = .ok (pack (codeAt s)) := by
  have hcstring : cString s = s := cString_of_notMem fun hzero => absurd (hs 0 hzero) (by decide)
  have hstep : (fun (value : NameCode) i => (do
      let c ← match (cString s)[i]? with
        | some chr => charToCode chr
        | none => pure 0
      pure (value ||| placed i c) : Except Fault NameCode))
        = fun value i => pure (value ||| placed i (codeAt s i)) := by
    funext value i
    rw [hcstring, codeAt, List.getD_eq_getElem?_getD, List.getElem?_map]
    cases h : s[i]? with
    | none => rfl
    | some chr =>
      simp [charToCode, hs chr (List.mem_of_getElem? h), codeOf, bind, Except.bind]
  rw [toNameCode, hstep, List.foldlM_pure]
  rfl

/-- A name has the codes of its first 21 characters, and then zeros. -/
theorem groups_pack (hs : ∀ chr ∈ s, chr ∈ codeMap) :
    groups (pack (codeAt s)) = (s.take 21).map codeOf ++ List.replicate (21 - s.length) 0 := by
  refine List.ext_getElem (by simp [groups]; omega) fun i hi _ => ?_
  have hi : i < 21 := by simpa [groups] using hi
  have hgroup : group (pack (codeAt s)) i = codeAt s i := by
    rw [group_pack hi, Nat.mod_eq_of_lt (codeAt_lt hs i)]
  simp only [groups, List.getElem_map, List.getElem_range, hgroup]
  obtain hlt | hge := Nat.lt_or_ge i s.length
  · rw [List.getElem_append_left (by simp [hi, hlt]), List.getElem_map, List.getElem_take, codeAt,
      List.getD_eq_getElem _ _ (by simpa using hlt), List.getElem_map]
  · rw [List.getElem_append_right (by simp; omega), List.getElem_replicate, codeAt,
      List.getD_eq_default _ _ (by simpa using hge)]

theorem codeOf_ne_zero {code : ℕ} {t : Bytes} (h : code ∈ t.map codeOf) : code ≠ 0 := by
  obtain ⟨chr, -, rfl⟩ := List.mem_map.1 h
  exact Nat.succ_ne_zero _

theorem printed_pack (hs : ∀ chr ∈ s, chr ∈ codeMap) : printed (pack (codeAt s)) = (s.take 21).map codeOf := by
  rw [printed, groups_pack hs, List.takeWhile_append_of_pos fun code hcode => by simpa using codeOf_ne_zero hcode]
  cases 21 - s.length <;> simp [List.replicate_succ]

theorem map_charOf_codeOf (hs : ∀ chr ∈ s, chr ∈ codeMap) : (s.map codeOf).map charOf = s := by
  have hsame : ∀ chr ∈ s, (charOf ∘ codeOf) chr = id chr := fun chr hchr => charOf_codeOf (hs chr hchr)
  rw [List.map_map, List.map_congr_left hsame, List.map_id]

theorem and_3_eq_zero {c : ℕ} (hc : c < 64) : BitVec.ofNat 128 c &&& 3 = 0 ↔ 4 ∣ c := by
  rw [BitVec.toNat_inj.symm, BitVec.toNat_and, BitVec.toNat_ofNat, Nat.mod_eq_of_lt (by omega),
    show (3 : NameCode).toNat = 2 ^ 2 - 1 from rfl, Nat.and_two_pow_sub_one_eq_mod, Nat.dvd_iff_mod_eq_zero]
  rfl

/-- Its first 21 characters have the code of a string just if nothing of the next one is in the two bits. -/
theorem pack_take_eq_iff (hs : ∀ chr ∈ s, chr ∈ codeMap) :
    pack (codeAt (s.take 21)) = pack (codeAt s) ↔ ∀ chr ∈ s[21]?, 4 ∣ codeOf chr := by
  have htake : ∀ chr ∈ s.take 21, chr ∈ codeMap := fun chr hchr => hs chr (List.mem_of_mem_take hchr)
  have hgroups : groups (pack (codeAt (s.take 21))) = groups (pack (codeAt s)) := by
    rw [groups_pack hs, groups_pack htake, List.take_take, List.length_take, Nat.min_self]
    congr 2
    omega
  have hzero : tail (pack (codeAt (s.take 21))) = 0 := by
    rw [tail_pack, codeAt, List.getD_eq_default _ _ (by simp)]
    rfl
  have htail : tail (pack (codeAt s)) = 0 ↔ 4 ∣ codeAt s 21 := by rw [tail_pack, and_3_eq_zero (codeAt_lt hs 21)]
  rw [eq_iff_groups, and_iff_right hgroups, hzero, eq_comm, htail, codeAt, List.getD_eq_getElem?_getD,
    List.getElem?_map]
  cases s[21]? <;> simp

/-! ## What is true of the names -/

/-- A string gives a name whose printed form gives the name again, and it is the string unless the string is longer. -/
def RoundTrips (asserts : Bool) (s : Bytes) : Prop :=
  ∃ n t, toNameCode s = .ok n ∧ toString asserts n = .ok t ∧ toNameCode t = .ok n ∧ (s.length ≤ 21 → t = s)

theorem codeOf_le_lastCode {asserts : Bool} {chr : ℕ} (h : chr ∈ codeMap) :
    codeOf chr ≤ lastCode asserts ↔ (asserts = true → chr ≠ 45) := by
  have hle := codeOf_le h
  have hlast : codeOf chr = 43 ↔ chr = 45 := by
    refine ⟨fun hcode => ?_, fun hchr => hchr ▸ by decide⟩
    rw [← charOf_codeOf h, hcode]
    decide
  rw [Ne, ← hlast]
  cases asserts
  · simpa [lastCode] using hle
  · simp [lastCode]
    omega

theorem roundTrips_iff {asserts : Bool} (hs : ∀ chr ∈ s, chr ∈ codeMap) : RoundTrips asserts s ↔
    (asserts = true → 45 ∉ s.take 21) ∧ ∀ chr ∈ s[21]?, 4 ∣ codeOf chr := by
  have htake : ∀ chr ∈ s.take 21, chr ∈ codeMap := fun chr hchr => hs chr (List.mem_of_mem_take hchr)
  have hprint : ∀ {t}, toString asserts (pack (codeAt s)) = .ok t ↔
      (asserts = true → 45 ∉ s.take 21) ∧ t = s.take 21 := by
    intro t
    rw [toString_eq_ok, printed_pack hs, map_charOf_codeOf htake, List.forall_mem_map]
    refine and_congr_left' ⟨fun h ha hmem => ?_, fun h chr hchr => ?_⟩
    · exact (codeOf_le_lastCode (htake 45 hmem)).1 (h 45 hmem) ha rfl
    · exact (codeOf_le_lastCode (htake chr hchr)).2 fun ha heq => h ha (heq ▸ hchr)
  rw [← pack_take_eq_iff hs]
  constructor
  · rintro ⟨n, t, hn, ht, hagain, -⟩
    rw [toNameCode_eq hs] at hn
    cases hn
    obtain ⟨hdash, rfl⟩ := hprint.1 ht
    rw [toNameCode_eq htake] at hagain
    exact ⟨hdash, Except.ok.inj hagain⟩
  · rintro ⟨hdash, hagain⟩
    refine ⟨_, _, toNameCode_eq hs, hprint.2 ⟨hdash, rfl⟩, ?_, List.take_of_length_le⟩
    rw [toNameCode_eq htake, hagain]

/-- Strings of the alphabet come back if no dash is printed where the assertions are compiled and the 22nd character
leaves no bits; names that print the same are the same if what is not printed is; and a name is printed if no code in
front of its first zero is past the characters. -/
theorem long_names_iff (asserts : Bool) :
    (∀ s : Bytes, (∀ chr ∈ s, chr ∈ codeMap) → (RoundTrips asserts s ↔
      (asserts = true → 45 ∉ s.take 21) ∧ ∀ chr ∈ s[21]?, 4 ∣ codeOf chr)) ∧
    (∀ n n' : NameCode, ∀ t, toString asserts n = .ok t → toString asserts n' = .ok t →
      (n = n' ↔ unprinted n = unprinted n')) ∧
    ∀ n : NameCode, (∃ t, toString asserts n = .ok t) ↔ ∀ code ∈ printed n, code ≤ lastCode asserts := by
  refine ⟨fun s hs => roundTrips_iff hs, fun n n' t hn hn' => ?_, fun n => ?_⟩
  · rw [eq_iff_printed, and_iff_right (printed_inj hn hn')]
  · simp [toString_eq_ok]

theorem long_names_of_account : RoundTrips true (chars "xmxoffcial@abcd.com") :=
  ((long_names_iff true).1 (chars "xmxoffcial@abcd.com") (by decide)).2 (by decide)

/-- A dash fails the assertion, a 22nd character is in the name but not in what is printed, and a name from the wire may
have a code past the characters. -/
theorem names_not_faithful :
    ¬ RoundTrips true (chars "a-b") ∧
    (∀ asserts, ¬ RoundTrips asserts (chars "abcdefghijklmnopqrstuv")) ∧
    (∃ n n' t, toNameCode (chars "abcdefghijklmnopqrstua") = .ok n ∧
      toNameCode (chars "abcdefghijklmnopqrstub") = .ok n' ∧ toString true n = .ok t ∧ toString true n' = .ok t ∧
        n ≠ n') ∧
    ∀ asserts t, toString asserts (63#128 <<< 122) ≠ .ok t := by
  refine ⟨?_, fun asserts => ?_, ⟨pack (codeAt (chars "abcdefghijklmnopqrstua")),
    pack (codeAt (chars "abcdefghijklmnopqrstub")), chars "abcdefghijklmnopqrstu", ?_⟩, fun asserts t ht => ?_⟩
  · rw [roundTrips_iff (by decide)]
    decide
  · rw [roundTrips_iff (by decide)]
    cases asserts <;> decide
  · refine ⟨toNameCode_eq (by decide), toNameCode_eq (by decide), ?_⟩
    decide
  · have hpast := (toString_eq_ok.1 ht).1 63 (by decide)
    have hle := hpast.trans (lastCode_le asserts)
    omega

end LongName

end XmaxChain
