import XmaxChain.AssetText
import XmaxChain.Lib.Radix
import XmaxChain.NetFraming

/-!
# Keys as text

Public keys and addresses are printed with a prefix and the first word of a hash, private keys with a
version in front and four bytes of a hash, all in 58 characters. What is printed is read back as what it
was. Reading also takes blanks around the digits, bytes after the checksum of a public key, and any version
and length of a private key; what it takes is said exactly.
-/

namespace XmaxChain

open Radix

section Model

def pszBase58 : Bytes :=
  "123456789ABCDEFGHJKLMNPQRSTUVWXYZabcdefghijkmnopqrstuvwxyz".toList.map Char.toNat

/-- `to_base58`: the digits from the lowest on, a one for each zero in front, and that reversed. -/
def toBase58 (d : Bytes) : Bytes :=
  let bn := Nat.ofDigits 256 d.reverse
  let str := (Nat.digits 58 bn).map fun c => pszBase58.getD c 0
  let str := str ++ (d.takeWhile (· = 0)).map fun _ => pszBase58.getD 0 0
  str.reverse

/-- The loop over the characters. The first that is no digit must be a blank, with blanks to the end. -/
def readBase58 (bn : ℕ) : Bytes → Option ℕ
  | [] => some bn
  | c :: p =>
    if c ∈ pszBase58 then readBase58 (bn * 58 + pszBase58.idxOf c) p
    else if (c :: p).dropWhile isSpace = [] then some bn else none

/-- `from_base58`. -/
def fromBase58 (base58Str : Bytes) : Except Fault Bytes :=
  let psz := (cString base58Str).dropWhile isSpace
  match readBase58 0 psz with
  | none => .error (.fc "Unable to decode base58 string")
  | some bn =>
    let leadingZeros := (psz.takeWhile (· = pszBase58.getD 0 0)).length
    .ok (List.replicate leadingZeros 0 ++ (Nat.digits 256 bn).reverse)

/-- `fc::array<char, n>`, and other types of `n` bytes. -/
structure CharArray (n : ℕ) where
  data : Bytes
  size : data.length = n
  byte : ∀ b ∈ data, b < 256
deriving DecidableEq

/-- As many bytes as fit are copied over zeros. -/
def CharArray.ofBytes {n : ℕ} (bytes : Bytes) : CharArray n where
  data := ((bytes ++ List.replicate n 0).take n).map (· % 256)
  size := by simp
  byte b hb := by
    obtain ⟨c, -, rfl⟩ := List.mem_map.1 hb
    exact Nat.mod_lt _ (by decide)

/-- How the keys of a kind are printed. `check` is the first word of the hash. -/
structure KeyFormat where
  front : Bytes
  size : ℕ
  check : Bytes → ℕ
  check_lt : ∀ data, check data < 2 ^ 32

/-- The first word of a hash. -/
abbrev HashWord := { hash : Bytes → ℕ // ∀ data, hash data < 2 ^ 32 }

/-- `public_key`. -/
def publicKeyFormat (ripemd160 : HashWord) : KeyFormat :=
  ⟨"XMX".toList.map Char.toNat, 33, ripemd160.1, ripemd160.2⟩

/-- `address`. -/
def addressFormat (ripemd160 : HashWord) : KeyFormat :=
  ⟨"0x".toList.map Char.toNat, 20, ripemd160.1, ripemd160.2⟩

namespace KeyFormat

variable (f : KeyFormat)

/-- What is packed is the bytes, then their checksum. -/
def toText (k : CharArray f.size) : Bytes :=
  f.front ++ toBase58 (k.data ++ bytesOfU32 (f.check k.data))

/-- `raw::unpack` of the bytes and the checksum: nothing is unpacked from nothing, and what comes after
them is left. -/
def unpackBinary (bin : Bytes) : Except Fault (CharArray f.size × ℕ) :=
  if bin = [] then .ok (.ofBytes [], 0)
  else if bin.length < f.size + 4 then .error (.fc "read datastream over")
  else .ok (.ofBytes bin, u32OfBytes ((bin.drop f.size).take 4))

def ofText (s : Bytes) : Except Fault (CharArray f.size) := do
  fcAssert (f.front.length < s.length) ""
  fcAssert (s.take f.front.length = f.front) ""
  let bin ← fromBase58 (s.drop f.front.length)
  let k ← f.unpackBinary bin
  fcAssert (f.check k.1.data = k.2) ""
  return k.1

end KeyFormat

def hexDigits : Bytes := "0123456789abcdef".toList.map Char.toNat

def toHex (d : Bytes) : Bytes :=
  d.flatMap fun c => [hexDigits.getD (c / 16) 0, hexDigits.getD (c % 16) 0]

def fromHexChar (c : ℕ) : Except Fault ℕ :=
  if 48 ≤ c ∧ c ≤ 57 then .ok (c - 48)
  else if 97 ≤ c ∧ c ≤ 102 then .ok (c - 97 + 10)
  else if 65 ≤ c ∧ c ≤ 70 then .ok (c - 65 + 10)
  else .error (.fc "Invalid hex character")

/-- `from_hex`, into as many bytes as there are pairs: a character that is over is not looked at. -/
def fromHex : Bytes → Except Fault Bytes
  | high :: low :: s => do
    let high ← fromHexChar high
    let low ← fromHexChar low
    return (high * 16 + low) :: (← fromHex s)
  | _ => .ok []

/-- The bytes are a variant in between. -/
def secretOf (keyBytes : Bytes) : Except Fault (CharArray 32) := do
  return .ofBytes (← fromHex (toHex keyBytes))

variable (sha256 : Bytes → CharArray 32)

def keyToWif (secret : CharArray 32) : Bytes :=
  let data := 128 :: secret.data
  let digest := sha256 (sha256 data).data
  toBase58 (data ++ digest.data.take 4)

/-- `none` is no key. -/
def wifToKey (wifKey : Bytes) : Except Fault (Option (CharArray 32)) :=
  match fromBase58 wifKey with
  | .error _ => .ok none
  | .ok wifBytes =>
    if wifBytes.length < 5 then .ok none
    else do
      let body := wifBytes.take (wifBytes.length - 4)
      let sum := wifBytes.drop (wifBytes.length - 4)
      let key ← secretOf (body.drop 1)
      let check := sha256 body
      let check2 := sha256 check.data
      return if check.data.take 4 = sum ∨ check2.data.take 4 = sum then some key else none

end Model

/-! ## The digits -/

section Digits

variable {d p : Bytes} {n : ℕ}

def digit58 (c : ℕ) : ℕ := pszBase58.getD c 0

theorem digit58_mem {c : ℕ} (hc : c < 58) : digit58 c ∈ pszBase58 := by
  have hall : ∀ c < 58, digit58 c ∈ pszBase58 := by decide
  exact hall c hc

theorem idxOf_digit58 {c : ℕ} (hc : c < 58) : pszBase58.idxOf (digit58 c) = c := by
  have hall : ∀ c < 58, pszBase58.idxOf (digit58 c) = c := by decide
  exact hall c hc

theorem exists_digit58 {c : ℕ} (hc : c ∈ pszBase58) : ∃ i < 58, digit58 i = c := by
  have hall : ∀ c ∈ pszBase58, ∃ i < 58, digit58 i = c := by decide +kernel
  exact hall c hc

theorem isSpace_of_mem {c : ℕ} (hc : c ∈ pszBase58) : isSpace c = false := by
  have hall : ∀ c ∈ pszBase58, isSpace c = false := by decide
  exact hall c hc

theorem ne_zero_of_mem {c : ℕ} (hc : c ∈ pszBase58) : c ≠ 0 := by
  have hall : ∀ c ∈ pszBase58, c ≠ 0 := by decide
  exact hall c hc

theorem digit58_eq_digit58 {c c' : ℕ} (hc : c < 58) (hc' : c' < 58) :
    digit58 c = digit58 c' ↔ c = c' :=
  ⟨fun h => by rw [← idxOf_digit58 hc, h, idxOf_digit58 hc'], congrArg _⟩

theorem toBase58_eq (d : Bytes) : toBase58 d = (recode 256 58 d).map digit58 := by
  have hzeros : (zeros d).map digit58 = (d.takeWhile (· = 0)).map fun _ => pszBase58.getD 0 0 :=
    List.map_congr_left fun c hc => by rw [eq_zero_of_mem hc]; rfl
  rw [recode, List.map_append, hzeros, digits, List.map_reverse]
  simp only [toBase58, List.reverse_append]
  rw [List.map_const', List.reverse_replicate]
  rfl

/-- What the loop reads: digits, and blanks after them. -/
theorem readBase58_eq_some (front : List ℕ) :
    readBase58 (value 58 front) p = some n ↔ ∃ ds blanks, p = ds.map digit58 ++ blanks ∧
      (∀ c ∈ ds, c < 58) ∧ (∀ c ∈ blanks, isSpace c = true) ∧ n = value 58 (front ++ ds) := by
  induction p generalizing front with
  | nil =>
    rw [readBase58]
    constructor
    · intro h
      exact ⟨[], [], rfl, by simp, by simp, by rw [List.append_nil]; exact (Option.some.inj h).symm⟩
    · rintro ⟨ds, blanks, hp, -, -, rfl⟩
      obtain ⟨hds, -⟩ := List.append_eq_nil_iff.1 hp.symm
      rw [List.map_eq_nil_iff.1 hds, List.append_nil]
  | cons c p ih =>
    rw [readBase58]
    by_cases hc : c ∈ pszBase58
    · obtain ⟨i, hi, rfl⟩ := exists_digit58 hc
      rw [if_pos hc, idxOf_digit58 hi, ← value_append_singleton, ih]
      constructor
      · rintro ⟨ds, blanks, rfl, hds, hblanks, hn⟩
        refine ⟨i :: ds, blanks, rfl, List.forall_mem_cons.2 ⟨hi, hds⟩, hblanks, ?_⟩
        rw [hn, List.append_assoc, List.singleton_append]
      · rintro ⟨ds, blanks, hp, hds, hblanks, hn⟩
        cases ds with
        | nil =>
          have hblank := hblanks _ (hp ▸ List.mem_cons_self)
          rw [isSpace_of_mem hc] at hblank
          cases hblank
        | cons j ds =>
          obtain ⟨hj, htail⟩ := List.forall_mem_cons.1 hds
          obtain ⟨hij, rfl⟩ := List.cons.inj hp
          obtain rfl := (digit58_eq_digit58 hi hj).1 hij
          refine ⟨ds, blanks, rfl, htail, hblanks, ?_⟩
          rw [hn, List.append_assoc, List.singleton_append]
    · rw [if_neg hc]
      have hall : (c :: p).dropWhile isSpace = [] ↔ ∀ x ∈ c :: p, isSpace x = true :=
        List.dropWhile_eq_nil_iff
      constructor
      · intro h
        split_ifs at h with hblanks
        exact ⟨[], c :: p, rfl, by simp, hall.1 hblanks, by
          rw [List.append_nil]; exact (Option.some.inj h).symm⟩
      · rintro ⟨ds, blanks, hp, hds, hblanks, rfl⟩
        cases ds with
        | nil =>
          obtain rfl : c :: p = blanks := hp
          rw [if_pos (hall.2 hblanks), List.append_nil]
        | cons j ds =>
          obtain ⟨rfl, -⟩ := List.cons.inj hp
          exact absurd (digit58_mem (List.forall_mem_cons.1 hds).1) hc

theorem rdropWhile_blanks {s blanks : Bytes} (hs : ∀ c ∈ s, isSpace c = false)
    (hblanks : ∀ c ∈ blanks, isSpace c = true) : (s ++ blanks).rdropWhile isSpace = s := by
  rw [List.rdropWhile, List.reverse_append, List.dropWhile_append_of_pos
    (fun c hc => hblanks c (List.mem_reverse.1 hc))]
  have hself : s.reverse.dropWhile isSpace = s.reverse := by
    cases hrev : s.reverse with
    | nil => rfl
    | cons c rest =>
      have hc : c ∈ s := List.mem_reverse.1 (hrev ▸ List.mem_cons_self)
      rw [List.dropWhile_cons_of_neg (by rw [hs c hc]; decide)]
  rw [hself, List.reverse_reverse]

theorem not_isSpace_map {ds : List ℕ} (hds : ∀ c ∈ ds, c < 58) :
    ∀ c ∈ ds.map digit58, isSpace c = false := by
  intro c hc
  obtain ⟨i, hi, rfl⟩ := List.mem_map.1 hc
  exact isSpace_of_mem (digit58_mem (hds i hi))

/-- A one stands for a zero in front. -/
theorem takeWhile_ones {ds : List ℕ} {blanks : Bytes} (hds : ∀ c ∈ ds, c < 58)
    (hblanks : ∀ c ∈ blanks, isSpace c = true) :
    (ds.map digit58 ++ blanks).takeWhile (· = digit58 0) = (zeros ds).map digit58 := by
  induction ds with
  | nil =>
    cases blanks with
    | nil => rfl
    | cons c blanks =>
      have hc : c ≠ digit58 0 := fun h => by
        have hblank := hblanks c List.mem_cons_self
        rw [h, isSpace_of_mem (digit58_mem (by decide))] at hblank
        cases hblank
      exact List.takeWhile_cons_of_neg (by simpa using hc)
  | cons c ds ih =>
    obtain ⟨hc, htail⟩ := List.forall_mem_cons.1 hds
    rw [List.map_cons, List.cons_append]
    by_cases hzero : c = 0
    · subst hzero
      rw [List.takeWhile_cons_of_pos (by simp), ih htail]
      rfl
    · have hne : digit58 c ≠ digit58 0 := fun h => hzero ((digit58_eq_digit58 hc (by decide)).1 h)
      rw [List.takeWhile_cons_of_neg (by simpa using hne), zeros,
        List.takeWhile_cons_of_neg (by simpa using hzero), List.map_nil]

/-- Without the blanks around it a text that is read is digits, and what is read is these digits in the other
base. -/
theorem fromBase58_eq_ok {text : Bytes} :
    fromBase58 text = .ok d ↔
      ∃ ds : List ℕ, (∀ c ∈ ds, c < 58) ∧ trim (cString text) = ds.map digit58 ∧
        d = recode 58 256 ds := by
  have hread : ∀ ds blanks, (cString text).dropWhile isSpace = ds.map digit58 ++ blanks →
      (∀ c ∈ ds, c < 58) → (∀ c ∈ blanks, isSpace c = true) →
      fromBase58 text = .ok (recode 58 256 ds) ∧ trim (cString text) = ds.map digit58 := by
    intro ds blanks hp hds hblanks
    have hloop : readBase58 0 (ds.map digit58 ++ blanks) = some (value 58 ds) :=
      (readBase58_eq_some []).2 ⟨ds, blanks, rfl, hds, hblanks, rfl⟩
    refine ⟨?_, by rw [trim, hp, rdropWhile_blanks (not_isSpace_map hds) hblanks]⟩
    rw [fromBase58]
    simp only [hp, hloop]
    have hones := takeWhile_ones hds hblanks
    unfold digit58 at hones ⊢
    rw [hones, List.length_map, ← zeros_eq_replicate]
    rfl
  constructor
  · intro h
    cases hloop : readBase58 0 ((cString text).dropWhile isSpace) with
    | none =>
      rw [fromBase58] at h
      simp only [hloop] at h
      cases h
    | some n =>
      obtain ⟨ds, blanks, hp, hds, hblanks, -⟩ := (readBase58_eq_some []).1 hloop
      obtain ⟨hok, htrim⟩ := hread ds blanks hp hds hblanks
      exact ⟨ds, hds, htrim, Except.ok.inj (h.symm.trans hok)⟩
  · rintro ⟨ds, hds, htrim, rfl⟩
    have hp : (cString text).dropWhile isSpace =
        ds.map digit58 ++ ((cString text).dropWhile isSpace).rtakeWhile isSpace := by
      rw [← htrim, trim, List.rdropWhile_append_rtakeWhile]
    exact (hread ds _ hp hds fun c hc => List.mem_rtakeWhile_imp hc).1

theorem recode_bytes {ds : List ℕ} (hds : ∀ c ∈ ds, c < 58) :
    toBase58 (recode 58 256 ds) = ds.map digit58 := by
  rw [toBase58_eq, recode_recode (by decide) hds]

/-- Bytes are read from the text that is printed for them, with blanks around it at most, and from no other. -/
theorem base58_texts (text d : Bytes) :
    fromBase58 text = .ok d ↔ (∀ b ∈ d, b < 256) ∧ trim (cString text) = toBase58 d := by
  rw [fromBase58_eq_ok]
  constructor
  · rintro ⟨ds, hds, htrim, rfl⟩
    exact ⟨fun b hb => recode_lt (by decide) hb, by rw [htrim, recode_bytes hds]⟩
  · rintro ⟨hd, htrim⟩
    refine ⟨recode 256 58 d, fun c hc => recode_lt (by decide) hc, by rw [htrim, toBase58_eq], ?_⟩
    rw [recode_recode (by decide) hd]

theorem toBase58_mem {c : ℕ} (hc : c ∈ toBase58 d) : c ∈ pszBase58 := by
  rw [toBase58_eq] at hc
  obtain ⟨i, hi, rfl⟩ := List.mem_map.1 hc
  exact digit58_mem (recode_lt (by decide) hi)

theorem trim_toBase58 (d : Bytes) : trim (cString (toBase58 d)) = toBase58 d := by
  have hspace : ∀ c ∈ toBase58 d, isSpace c = false := fun c hc => isSpace_of_mem (toBase58_mem hc)
  have hcstring : cString (toBase58 d) = toBase58 d :=
    List.takeWhile_eq_self_iff.2 fun c hc => by simpa using ne_zero_of_mem (toBase58_mem hc)
  have hdrop : (toBase58 d).dropWhile isSpace = toBase58 d := by
    cases h : toBase58 d with
    | nil => rfl
    | cons c rest =>
      have hc := hspace c (h ▸ List.mem_cons_self)
      exact List.dropWhile_cons_of_neg (by rw [hc]; decide)
  rw [hcstring, trim, hdrop]
  have hblanks := rdropWhile_blanks hspace fun c hc => absurd hc List.not_mem_nil
  rwa [List.append_nil] at hblanks

theorem fromBase58_toBase58 (hd : ∀ b ∈ d, b < 256) : fromBase58 (toBase58 d) = .ok d :=
  (base58_texts _ d).2 ⟨hd, trim_toBase58 d⟩

theorem toBase58_eq_nil (hd : ∀ b ∈ d, b < 256) : toBase58 d = [] ↔ d = [] := by
  refine ⟨fun h => ?_, fun h => by rw [h]; rfl⟩
  have hok := fromBase58_toBase58 hd
  rw [h] at hok
  exact (Except.ok.inj hok).symm

end Digits

/-! ## Keys with a checksum -/

section Keys

theorem CharArray.ext {n : ℕ} {k k' : CharArray n} (h : k.data = k'.data) : k = k' := by
  cases k
  cases k'
  cases h
  rfl

/-- Bytes that are as many and more. -/
theorem CharArray.ofBytes_data {n : ℕ} {bytes : Bytes} (hbytes : ∀ b ∈ bytes, b < 256)
    (hn : n ≤ bytes.length) : (CharArray.ofBytes bytes : CharArray n).data = bytes.take n := by
  show ((bytes ++ List.replicate n 0).take n).map (· % 256) = bytes.take n
  rw [List.take_append_of_le_length hn]
  exact (List.map_congr_left fun b hb => Nat.mod_eq_of_lt (hbytes b (List.mem_of_mem_take hb))).trans
    (List.map_id _)

theorem CharArray.ofBytes_append {n : ℕ} (k : CharArray n) {rest : Bytes} (hrest : ∀ b ∈ rest, b < 256) :
    CharArray.ofBytes (k.data ++ rest) = k := by
  refine CharArray.ext ?_
  rw [CharArray.ofBytes_data (List.forall_mem_append.2 ⟨k.byte, hrest⟩)
    (by rw [List.length_append, k.size]; omega)]
  exact List.take_left' k.size

theorem bytesOfU32_lt (n : ℕ) : ∀ b ∈ bytesOfU32 n, b < 256 := by
  intro b hb
  simp only [bytesOfU32, List.mem_cons, List.not_mem_nil, or_false] at hb
  rcases hb with rfl | rfl | rfl | rfl <;> exact Nat.mod_lt _ (by decide)

theorem bytesOfU32_u32OfBytes {l : Bytes} (hl : l.length = 4) (hbytes : ∀ b ∈ l, b < 256) :
    bytesOfU32 (u32OfBytes l) = l := by
  obtain ⟨a, b, c, e, rfl⟩ := List.length_eq_four.1 hl
  have ha := hbytes a (by simp)
  have hb := hbytes b (by simp)
  have hc := hbytes c (by simp)
  have he := hbytes e (by simp)
  simp only [u32OfBytes, bytesOfU32, List.foldr, List.cons.injEq, and_true]
  omega

variable {f : KeyFormat} {s text bin : Bytes} {k : CharArray f.size} {check : ℕ}

theorem unpackBinary_eq_ok (hbin : ∀ b ∈ bin, b < 256) (hcheck : check < 2 ^ 32) :
    f.unpackBinary bin = .ok (k, check) ↔ bin = [] ∧ k = .ofBytes [] ∧ check = 0 ∨
      ∃ rest, (∀ b ∈ rest, b < 256) ∧ bin = k.data ++ bytesOfU32 check ++ rest := by
  unfold KeyFormat.unpackBinary
  split_ifs with hnil hshort
  · subst hnil
    constructor
    · intro h
      cases h
      exact .inl ⟨rfl, rfl, rfl⟩
    · rintro (⟨-, rfl, rfl⟩ | ⟨rest, -, hrest⟩)
      · rfl
      · have := congrArg List.length hrest
        simp [bytesOfU32] at this
  · constructor
    · intro h
      cases h
    · rintro (⟨h, -, -⟩ | ⟨rest, -, rfl⟩)
      · exact absurd h hnil
      · rw [List.length_append, List.length_append, k.size] at hshort
        simp only [bytesOfU32, List.length_cons, List.length_nil] at hshort
        omega
  · constructor
    · intro h
      cases h
      refine .inr ⟨bin.drop (f.size + 4), fun b hb => hbin b (List.mem_of_mem_drop hb), ?_⟩
      rw [CharArray.ofBytes_data hbin (by omega), bytesOfU32_u32OfBytes (by
        rw [List.length_take, List.length_drop]
        omega) fun b hb => hbin b (List.mem_of_mem_drop (List.mem_of_mem_take hb))]
      rw [List.append_assoc, ← List.drop_drop, List.take_append_drop, List.take_append_drop]
    · rintro (⟨h, -, -⟩ | ⟨rest, hrest, rfl⟩)
      · exact absurd h hnil
      · have hdata : (k.data ++ bytesOfU32 check ++ rest).drop f.size = bytesOfU32 check ++ rest := by
          rw [List.append_assoc]
          exact List.drop_left' k.size
        have hword : (bytesOfU32 check ++ rest).take 4 = bytesOfU32 check := List.take_left' rfl
        rw [hdata, hword, u32OfBytes_bytesOfU32 hcheck, List.append_assoc, k.ofBytes_append
          (List.forall_mem_append.2 ⟨bytesOfU32_lt _, hrest⟩)]

theorem ofText_eq_ok :
    f.ofText s = .ok k ↔ ∃ text, s = f.front ++ text ∧ text ≠ [] ∧
      (trim (cString text) = [] ∧ k = .ofBytes [] ∧ f.check k.data = 0 ∨
        ∃ rest, (∀ b ∈ rest, b < 256) ∧
          trim (cString text) = toBase58 (k.data ++ bytesOfU32 (f.check k.data) ++ rest)) := by
  constructor
  · intro h
    obtain ⟨_, hlength, h⟩ := bind_eq_ok.1 h
    obtain ⟨_, hfront, h⟩ := bind_eq_ok.1 h
    obtain ⟨bin, hread, h⟩ := bind_eq_ok.1 h
    obtain ⟨⟨k', check⟩, hunpack, h⟩ := bind_eq_ok.1 h
    obtain ⟨_, hcheck, h⟩ := bind_eq_ok.1 h
    obtain rfl := Except.ok.inj h
    rw [fcAssert_eq_ok, decide_eq_true_eq] at hlength hfront hcheck
    obtain rfl : f.check k'.data = check := hcheck
    obtain ⟨hbin, htrim⟩ := (base58_texts _ _).1 hread
    refine ⟨s.drop f.front.length, ?_, fun hnil => ?_, ?_⟩
    · conv_lhs => rw [← List.take_append_drop f.front.length s, hfront]
    · have := congrArg List.length hnil
      rw [List.length_drop, List.length_nil] at this
      omega
    · rw [htrim]
      rcases (unpackBinary_eq_ok hbin (f.check_lt _)).1 hunpack with ⟨rfl, hk, hzero⟩ | ⟨rest, hrest, rfl⟩
      · exact .inl ⟨rfl, hk, hzero⟩
      · exact .inr ⟨rest, hrest, rfl⟩
  · rintro ⟨text, rfl, hne, hcases⟩
    have hlength : f.front.length < (f.front ++ text).length := by
      rw [List.length_append]
      exact Nat.lt_add_of_pos_right (List.length_pos_iff.2 hne)
    obtain ⟨bin, hbin, htrim, hunpack⟩ : ∃ bin, (∀ b ∈ bin, b < 256) ∧
        trim (cString text) = toBase58 bin ∧ f.unpackBinary bin = .ok (k, f.check k.data) := by
      rcases hcases with ⟨htrim, rfl, hzero⟩ | ⟨rest, hrest, htrim⟩
      · exact ⟨[], by simp, htrim, (unpackBinary_eq_ok (by simp) (f.check_lt _)).2 (.inl ⟨rfl, rfl, hzero⟩)⟩
      · have hbytes : ∀ b ∈ k.data ++ bytesOfU32 (f.check k.data) ++ rest, b < 256 :=
          List.forall_mem_append.2 ⟨List.forall_mem_append.2 ⟨k.byte, bytesOfU32_lt _⟩, hrest⟩
        exact ⟨_, hbytes, htrim,
          (unpackBinary_eq_ok hbytes (f.check_lt _)).2 (.inr ⟨rest, hrest, rfl⟩)⟩
    refine bind_eq_ok.2 ⟨(), fcAssert_eq_ok.2 (decide_eq_true hlength),
      bind_eq_ok.2 ⟨(), fcAssert_eq_ok.2 (decide_eq_true List.take_left),
        bind_eq_ok.2 ⟨bin, ?_, bind_eq_ok.2 ⟨(k, f.check k.data), hunpack,
          bind_eq_ok.2 ⟨(), fcAssert_eq_ok.2 (decide_eq_true rfl), rfl⟩⟩⟩⟩⟩
    rw [List.drop_left]
    exact (base58_texts _ bin).2 ⟨hbin, htrim⟩

/-- After the prefix a key is read from blanks and the digits of its bytes, its checksum and whatever bytes
come then; from blanks alone only the key of zeros is read, if its hash begins with zeros. What is printed is
read as what it was. -/
theorem key_texts (f : KeyFormat) :
    (∀ k, f.ofText (f.toText k) = .ok k) ∧
      ∀ s k, f.ofText s = .ok k ↔ ∃ text, s = f.front ++ text ∧ text ≠ [] ∧
        (trim (cString text) = [] ∧ k = .ofBytes [] ∧ f.check k.data = 0 ∨
          ∃ rest, (∀ b ∈ rest, b < 256) ∧
            trim (cString text) = toBase58 (k.data ++ bytesOfU32 (f.check k.data) ++ rest)) := by
  refine ⟨fun k => ?_, fun s k => ofText_eq_ok⟩
  have hbytes : ∀ b ∈ k.data ++ bytesOfU32 (f.check k.data), b < 256 :=
    List.forall_mem_append.2 ⟨k.byte, bytesOfU32_lt _⟩
  have hne : toBase58 (k.data ++ bytesOfU32 (f.check k.data)) ≠ [] := fun h => by
    have hnil := (toBase58_eq_nil hbytes).1 h
    simp [bytesOfU32] at hnil
  refine ofText_eq_ok.2 ⟨_, rfl, hne, .inr ⟨[], by simp, ?_⟩⟩
  rw [List.append_nil, trim_toBase58]

end Keys

/-! ## Private keys -/

section Wif

variable {sha256 : Bytes → CharArray 32} {secret : CharArray 32} {s d : Bytes}

theorem fromHexChar_hexDigits {n : ℕ} (hn : n < 16) : fromHexChar (hexDigits.getD n 0) = .ok n := by
  have hall : ∀ n < 16, fromHexChar (hexDigits.getD n 0) = .ok n := by decide
  exact hall n hn

theorem fromHex_toHex (hd : ∀ b ∈ d, b < 256) : fromHex (toHex d) = .ok d := by
  induction d with
  | nil => rfl
  | cons b d ih =>
    obtain ⟨hb, htail⟩ := List.forall_mem_cons.1 hd
    show fromHex (hexDigits.getD (b / 16) 0 :: hexDigits.getD (b % 16) 0 :: toHex d) = _
    refine bind_eq_ok.2 ⟨b / 16, fromHexChar_hexDigits (by omega), bind_eq_ok.2 ⟨b % 16,
      fromHexChar_hexDigits (Nat.mod_lt _ (by decide)), bind_eq_ok.2 ⟨d, ih htail, ?_⟩⟩⟩
    rw [Nat.div_add_mod']
    rfl

theorem secretOf_eq (hd : ∀ b ∈ d, b < 256) : secretOf d = .ok (.ofBytes d) :=
  bind_eq_ok.2 ⟨d, fromHex_toHex hd, rfl⟩

/-- The four bytes are from the hash of what comes before them, or from the hash of that hash. -/
def SumOf (sha256 : Bytes → CharArray 32) (body sum : Bytes) : Prop :=
  (sha256 body).data.take 4 = sum ∨ (sha256 (sha256 body).data).data.take 4 = sum

theorem wifToKey_of_read {version : ℕ} {keyBytes sum : Bytes}
    (hread : fromBase58 s = .ok (version :: keyBytes ++ sum)) (hsum : sum.length = 4) :
    wifToKey sha256 s = .ok (some secret) ↔
      SumOf sha256 (version :: keyBytes) sum ∧ secret = .ofBytes keyBytes := by
  obtain ⟨hbytes, -⟩ := (base58_texts _ _).1 hread
  have hlength : (version :: keyBytes ++ sum).length - 4 = (version :: keyBytes).length := by
    rw [List.length_append, hsum, Nat.add_sub_cancel]
  have hkey : secretOf keyBytes = .ok (.ofBytes keyBytes) :=
    secretOf_eq fun b hb => hbytes b (List.mem_append_left _ (List.mem_cons_of_mem _ hb))
  have hlong : ¬ (version :: keyBytes ++ sum).length < 5 := by
    rw [List.length_append, hsum, List.length_cons]
    omega
  have hsplit : (version :: keyBytes ++ sum).take (version :: keyBytes).length = version :: keyBytes ∧
      (version :: keyBytes ++ sum).drop (version :: keyBytes).length = sum :=
    ⟨List.take_left, List.drop_left⟩
  unfold wifToKey
  rw [hread]
  dsimp only
  rw [if_neg hlong, hlength, hsplit.1, hsplit.2, List.drop_one, List.tail_cons, bind_eq_ok]
  constructor
  · rintro ⟨key, hkey', h⟩
    obtain rfl := Except.ok.inj (hkey'.symm.trans hkey)
    have h := Except.ok.inj h
    split_ifs at h with hif
    exact ⟨hif, (Option.some.inj h).symm⟩
  · rintro ⟨hif, rfl⟩
    exact ⟨_, hkey, congrArg Except.ok (if_pos hif)⟩

/-- What is read as a private key is printed bytes of any version, any length and with either sum; a shorter
key is filled up with zeros and a longer one is cut off. A private key that is printed is read as what it
was. -/
theorem wif_texts (sha256 : Bytes → CharArray 32) :
    (∀ secret, wifToKey sha256 (keyToWif sha256 secret) = .ok (some secret)) ∧
      ∀ s secret, wifToKey sha256 s = .ok (some secret) ↔
        ∃ version keyBytes sum, (∀ b ∈ version :: keyBytes ++ sum, b < 256) ∧ sum.length = 4 ∧
          trim (cString s) = toBase58 (version :: keyBytes ++ sum) ∧
          SumOf sha256 (version :: keyBytes) sum ∧ secret = .ofBytes keyBytes := by
  refine ⟨fun secret => ?_, fun s secret => ⟨fun h => ?_, ?_⟩⟩
  · set sum := (sha256 (sha256 (128 :: secret.data)).data).data.take 4 with hsum
    have hbytes : ∀ b ∈ 128 :: secret.data ++ sum, b < 256 :=
      List.forall_mem_append.2 ⟨List.forall_mem_cons.2 ⟨by decide, secret.byte⟩,
        fun b hb => (sha256 _).byte b (List.mem_of_mem_take hb)⟩
    have hlength : sum.length = 4 := by
      rw [hsum, List.length_take, (sha256 _).size]
      rfl
    refine (wifToKey_of_read (fromBase58_toBase58 hbytes) hlength).2 ⟨.inr rfl, ?_⟩
    have hself := secret.ofBytes_append fun b hb => absurd hb List.not_mem_nil
    rw [List.append_nil] at hself
    exact hself.symm
  · cases hread : fromBase58 s with
    | error e =>
      rw [wifToKey, hread] at h
      cases Except.ok.inj h
    | ok w =>
      by_cases hshort : w.length < 5
      · rw [wifToKey, hread] at h
        dsimp only at h
        rw [if_pos hshort] at h
        cases Except.ok.inj h
      obtain ⟨hbytes, htrim⟩ := (base58_texts _ _).1 hread
      have hsum : (w.drop (w.length - 4)).length = 4 := by
        rw [List.length_drop]
        omega
      obtain ⟨version, keyBytes, hbody⟩ : ∃ version keyBytes,
          w.take (w.length - 4) = version :: keyBytes := by
        refine List.exists_cons_of_ne_nil fun hnil => ?_
        have := congrArg List.length hnil
        rw [List.length_take, List.length_nil] at this
        omega
      have hw : w = version :: keyBytes ++ w.drop (w.length - 4) := by
        rw [← hbody, List.take_append_drop]
      generalize w.drop (w.length - 4) = sum at hw hsum
      subst hw
      obtain ⟨hif, hsecret⟩ := (wifToKey_of_read hread hsum).1 h
      exact ⟨version, keyBytes, sum, hbytes, hsum, htrim, hif, hsecret⟩
  · rintro ⟨version, keyBytes, sum, hbytes, hsum, htrim, hif, hsecret⟩
    exact (wifToKey_of_read ((base58_texts _ _).2 ⟨hbytes, htrim⟩) hsum).2 ⟨hif, hsecret⟩

end Wif

end XmaxChain
