import Mathlib.Data.List.DropRight
import XmaxChain.Erc20
import XmaxChain.Lib.Decimal

/-!
# Assets as text

An amount is printed as its whole part, a dot, as many digits as the symbol has decimals, a space and
the name of the symbol. The parser looks for the dot and for the space apart from each other, and counts
the digits after the dot without a bound.
-/

namespace XmaxChain

open Decimal

/-- The symbol is eight bytes in memory: the number of decimals, and then the name up to a zero. -/
structure Asset where
  amount : ℤ
  symbol : Bytes
deriving DecidableEq

def isSpace (c : ℕ) : Bool := c = 32 || 9 ≤ c && c ≤ 13

def trim (s : Bytes) : Bytes := (s.dropWhile isSpace).rdropWhile isSpace

/-- `string::find`. -/
def find (s : Bytes) (c : ℕ) : Option ℕ :=
  if c ∈ s then some (s.takeWhile (· ≠ c)).length else none

/-- Without a count, to the end. -/
def substr (s : Bytes) (pos : ℕ) : Option ℕ → Bytes
  | none => s.drop pos
  | some count => (s.drop pos).take count

/-- `lexical_cast<string>`. -/
def int64ToString (n : ℤ) : Bytes := if n < 0 then 45 :: print n.natAbs else print n.natAbs

/-- `lexical_cast<int64_t>`: digits after at most one sign; `none` is a throw. -/
def toInt64 (i : Bytes) : Option ℤ :=
  if i.head? = some 45 then (readUpTo (2 ^ 63) i.tail).map fun n : ℕ => -(n : ℤ)
  else (readUpTo (2 ^ 63 - 1) (if i.head? = some 43 then i.tail else i)).map fun n : ℕ => (n : ℤ)
where
  readUpTo (most : ℕ) (digits : Bytes) : Option ℕ := (Decimal.read digits).filter (· ≤ most)

namespace Asset

def decimals (a : Asset) : ℕ := a.symbol.headD 0

def setDecimals (a : Asset) (d : ℕ) : Asset := { a with symbol := a.symbol.set 0 (d % 256) }

def symbolName (a : Asset) : Bytes := cString (a.symbol.drop 1)

def precisionTable : List ℤ :=
  [1, 10, 100, 1000, 10000, 100000, 1000000, 10000000, 100000000, 1000000000, 10000000000, 100000000000,
    1000000000000, 10000000000000, 100000000000000]

variable (beyond : ℕ → ℤ)

/-- The table is read past its end as well, as whatever lies there. -/
def precision (a : Asset) : ℤ := precisionTable.getD a.decimals (beyond a.decimals)

def toString (a : Asset) : Bytes :=
  let result := int64ToString (a.amount.tdiv (a.precision beyond))
  let result :=
    if a.decimals ≠ 0 then
      let fract := a.amount.tmod (a.precision beyond)
      result ++ 46 :: (int64ToString (i64 (a.precision beyond + fract))).tail
    else result
  result ++ 32 :: a.symbolName

/-- `memcpy` behind the decimals. -/
def copyName (a : Asset) (symbol : Bytes) : Asset :=
  { a with symbol := a.symbol.take 1 ++ symbol.take 6 ++ a.symbol.drop (1 + min symbol.length 6) }

/-- An asset that was read, and what each operation on its amount gives before it is cut to 64 bits. -/
structure Parsed where
  asset : Asset
  exact : List ℤ

/-- What was read after the dot, with a one before it, is added to the amount, and the one taken away. -/
def addFraction (result : Asset) (fract : ℤ) : Parsed :=
  let product := result.amount * result.precision beyond
  let sum := i64 product + fract
  let difference := i64 sum - result.precision beyond
  ⟨{ result with amount := i64 difference }, [product, sum, difference]⟩

/-- The decimals are the place of the dot first, of which without a dot 255 is left. A count below zero
is as good as none. -/
def fromString (s : Bytes) : Option Parsed := do
  let s := trim s
  let spacePos := find s 32
  let dotPos := find s 46
  let amount ← toInt64 (substr s 0 dotPos)
  let result : Asset := ⟨amount, dotPos.getD 255 % 256 :: List.replicate 7 0⟩
  let symbol := substr s ((spacePos.map (· + 1)).getD 0) none
  match dotPos with
  | none => pure ⟨result.copyName symbol, []⟩
  | some dot =>
    let count := spacePos.bind fun space => if dot < space then some (space - dot - 1) else none
    let fractpart := 49 :: substr s (dot + 1) count
    let parsed := (result.setDecimals (fractpart.length - 1)).addFraction beyond (← toInt64 fractpart)
    pure ⟨parsed.asset.copyName symbol, parsed.exact⟩

end Asset

/-! ## Reading and printing 64 bits -/

theorem notMem_of_isDigit {s : Bytes} (h : ∀ c ∈ s, IsDigit c) {c : ℕ} (hc : ¬ IsDigit c) : c ∉ s :=
  fun hmem => hc (h c hmem)

theorem readUpTo_eq_some {most n : ℕ} {digits : Bytes} :
    toInt64.readUpTo most digits = some n ↔
      digits ≠ [] ∧ (∀ c ∈ digits, IsDigit c) ∧ value digits = n ∧ n ≤ most := by
  rw [toInt64.readUpTo, Option.filter_eq_some_iff, read_eq_some, decide_eq_true_iff, and_assoc, and_assoc]

theorem readUpTo_print {most n : ℕ} (h : n ≤ most) : toInt64.readUpTo most (print n) = some n :=
  readUpTo_eq_some.2 ⟨print_ne_nil n, print_isDigit n, value_print n, h⟩

/-- Without a sign. -/
theorem toInt64_of_isDigit {c : ℕ} (hc : IsDigit c) (s : Bytes) :
    toInt64 (c :: s) = (toInt64.readUpTo (2 ^ 63 - 1) (c :: s)).map fun n : ℕ => (n : ℤ) := by
  have hminus : c ≠ 45 := by have := hc.1; omega
  have hplus : c ≠ 43 := by have := hc.1; omega
  rw [toInt64, List.head?_cons, if_neg (by simpa using hminus), if_neg (by simpa using hplus)]

theorem toInt64_int64ToString {n : ℤ} (h : Int64 n) : toInt64 (int64ToString n) = some n := by
  obtain ⟨hlow, hhigh⟩ := h
  rw [int64ToString]
  split_ifs with hneg
  · rw [toInt64, List.head?_cons, if_pos rfl, List.tail_cons, readUpTo_print (by omega), Option.map_some]
    congr 1
    omega
  · obtain ⟨c, s, hprint⟩ := List.exists_cons_of_ne_nil (print_ne_nil n.natAbs)
    have hc : IsDigit c := print_isDigit n.natAbs c (by rw [hprint]; exact List.mem_cons_self)
    rw [hprint, toInt64_of_isDigit hc, ← hprint, readUpTo_print (by omega), Option.map_some]
    congr 1
    omega

/-- A literal is digits and a sign. -/
theorem notMem_of_toInt64 {s : Bytes} {n : ℤ} (h : toInt64 s = some n) {c : ℕ} (hdigit : ¬ IsDigit c)
    (hminus : c ≠ 45) (hplus : c ≠ 43) : c ∉ s := by
  have hsign : ∀ {x : ℕ} {most m : ℕ}, s.head? = some x → c ≠ x →
      toInt64.readUpTo most s.tail = some m → c ∉ s := by
    intro x most m hhead hne hread
    rw [List.eq_cons_of_mem_head? hhead, List.mem_cons, not_or]
    exact ⟨hne, notMem_of_isDigit (readUpTo_eq_some.1 hread).2.1 hdigit⟩
  rw [toInt64] at h
  split_ifs at h with hfirst hfirst'
  · obtain ⟨m, hm, -⟩ := Option.map_eq_some_iff.1 h
    exact hsign hfirst hminus hm
  · obtain ⟨m, hm, -⟩ := Option.map_eq_some_iff.1 h
    exact hsign hfirst' hplus hm
  · obtain ⟨m, hm, -⟩ := Option.map_eq_some_iff.1 h
    exact notMem_of_isDigit (readUpTo_eq_some.1 hm).2.1 hdigit

theorem i64_of_int64 {n : ℤ} (h : Int64 n) : i64 n = n :=
  Int.bmod_eq_of_le (by have := h.1; omega) (by have := h.2; omega)

theorem i64_add_sub (a b c : ℤ) : i64 (i64 (i64 a + b) - c) = i64 (a + b - c) := by
  simp only [i64, Int.bmod_add_bmod, Int.bmod_sub_bmod]

/-! ## What the parser reads -/

namespace Asset

/-- Up to the first dot. -/
def intPart (s : Bytes) : Bytes := (trim s).takeWhile (· ≠ 46)

/-- From the first dot to the next space. -/
def fraction (s : Bytes) : Bytes := ((trim s).dropWhile (· ≠ 46)).tail.takeWhile (· ≠ 32)

/-- From the first space, or all of it. -/
def symbolText (s : Bytes) : Bytes :=
  if 32 ∈ trim s then ((trim s).dropWhile (· ≠ 32)).tail else trim s

theorem take_takeWhile_length (s : Bytes) (p : ℕ → Bool) : s.take (s.takeWhile p).length = s.takeWhile p :=
  (List.prefix_iff_eq_take.1 (List.takeWhile_prefix p)).symm

theorem drop_takeWhile_length (s : Bytes) (p : ℕ → Bool) : s.drop (s.takeWhile p).length = s.dropWhile p := by
  conv_lhs => rw [← List.takeWhile_append_dropWhile (p := p) (l := s)]
  rw [List.drop_left' (by rw [List.takeWhile_append_dropWhile])]

theorem ne_of_notMem {s : Bytes} {c : ℕ} (h : c ∉ s) : ∀ x ∈ s, decide (x ≠ c) = true :=
  fun _ hx => decide_eq_true fun heq => h (heq ▸ hx)

theorem substr_symbol (s : Bytes) :
    substr (trim s) (((find (trim s) 32).map (· + 1)).getD 0) none = symbolText s := by
  rw [find, symbolText]
  split_ifs
  · rw [Option.map_some, Option.getD_some, substr, ← List.tail_drop, drop_takeWhile_length]
  · rfl

variable {beyond : ℕ → ℤ} {s : Bytes}

theorem fromString_of_notMem (h : 46 ∉ trim s) : fromString beyond s =
    (toInt64 (trim s)).map fun n => ⟨(⟨n, 255 :: List.replicate 7 0⟩ : Asset).copyName (symbolText s), []⟩ := by
  simp only [fromString, substr_symbol]
  rw [show find (trim s) 46 = none from if_neg h, substr, List.drop_zero]
  rcases toInt64 (trim s) <;> rfl

theorem trim_eq (h : 46 ∈ trim s) : trim s = intPart s ++ 46 :: ((trim s).dropWhile (· ≠ 46)).tail := by
  have hne : (trim s).dropWhile (· ≠ 46) ≠ [] := by
    rw [Ne, List.dropWhile_eq_nil_iff]
    exact fun hall => by simpa using hall 46 h
  have hhead : ((trim s).dropWhile (· ≠ 46)).head? = some 46 := by
    obtain ⟨c, rest, hdrop⟩ := List.exists_cons_of_ne_nil hne
    have hc := List.head_dropWhile_not (p := (· ≠ 46)) hne
    simp only [hdrop, List.head_cons] at hc ⊢
    simpa using hc
  conv_lhs => rw [← List.takeWhile_append_dropWhile (p := (· ≠ 46)) (l := trim s),
    List.eq_cons_of_mem_head? hhead]
  rfl

/-- What is read between a dot and a space, when there is no space before the dot. -/
theorem substr_fraction (hdot : 46 ∈ trim s) (hspace : 32 ∉ intPart s) :
    substr (trim s) ((intPart s).length + 1) ((find (trim s) 32).bind fun space =>
      if (intPart s).length < space then some (space - (intPart s).length - 1) else none) = fraction s := by
  have hsplit := trim_eq hdot
  rw [fraction]
  set rest := ((trim s).dropWhile (· ≠ 46)).tail
  have hdrop : (trim s).drop ((intPart s).length + 1) = rest := by
    rw [hsplit, List.drop_append, Nat.add_sub_cancel_left, List.drop_eq_nil_of_le (Nat.le_succ _)]
    rfl
  have hpos : (trim s).takeWhile (· ≠ 32) = intPart s ++ 46 :: rest.takeWhile (· ≠ 32) := by
    rw [hsplit, List.takeWhile_append_of_pos (ne_of_notMem hspace), List.takeWhile_cons_of_pos (by decide)]
  have hmem : 32 ∈ trim s ↔ 32 ∈ rest := by
    rw [hsplit, List.mem_append, List.mem_cons]
    simp [hspace]
  rw [find, hpos]
  split_ifs with hin
  · have hcount : (intPart s ++ 46 :: rest.takeWhile (· ≠ 32)).length - (intPart s).length - 1 =
        (rest.takeWhile (· ≠ 32)).length := by simp
    rw [Option.bind_some, if_pos (by simp), hcount, substr, hdrop, take_takeWhile_length]
  · rw [Option.bind_none, substr, hdrop]
    exact (List.takeWhile_eq_self_iff.2 (ne_of_notMem fun h => hin (hmem.2 h))).symm

theorem fromString_of_mem (hdot : 46 ∈ trim s) : fromString beyond s =
    (toInt64 (intPart s)).bind fun n => (toInt64 (49 :: fraction s)).map fun f =>
      let parsed := addFraction beyond ⟨n, (fraction s).length % 256 :: List.replicate 7 0⟩ f
      ⟨parsed.asset.copyName (symbolText s), parsed.exact⟩ := by
  simp only [fromString, substr_symbol]
  rw [show find (trim s) 46 = some (intPart s).length from if_pos hdot]
  have hint : substr (trim s) 0 (some (intPart s).length) = intPart s := take_takeWhile_length ..
  rw [hint]
  rcases hn : toInt64 (intPart s) with _ | n
  · rfl
  · have hspace := notMem_of_toInt64 hn (c := 32) (by decide) (by decide) (by decide)
    simp only [Option.bind_eq_bind, Option.bind_some, substr_fraction hdot hspace]
    rw [List.length_cons, Nat.add_sub_cancel]
    rcases toInt64 (49 :: fraction s) <;> rfl

/-! ## Which strings are read safely -/

theorem precision_of_lt {a : Asset} (h : a.decimals < 15) : a.precision beyond = 10 ^ a.decimals := by
  have htable : ∀ d < 15, precisionTable.getD d (beyond d) = 10 ^ d := by
    intro d hd
    interval_cases d <;> rfl
  exact htable _ h

/-- The digits after the dot are read with a one in front, unless there are more than 18. -/
theorem toInt64_fraction {digits : Bytes} {f : ℤ} : toInt64 (49 :: digits) = some f ↔
    digits.length ≤ 18 ∧ (∀ c ∈ digits, IsDigit c) ∧ f = 10 ^ digits.length + (value digits : ℤ) := by
  have hone : value (49 :: digits) = 10 ^ digits.length + value digits := by rw [value_cons]; omega
  rw [toInt64_of_isDigit (by decide), Option.map_eq_some_iff]
  constructor
  · rintro ⟨n, hn, rfl⟩
    obtain ⟨-, hdigits, rfl, hmost⟩ := readUpTo_eq_some.1 hn
    have hall : ∀ c ∈ digits, IsDigit c := fun c hc => hdigits c (List.mem_cons_of_mem _ hc)
    rw [hone] at hmost ⊢
    refine ⟨?_, hall, by push_cast; rfl⟩
    by_contra hlong
    have hpow : 10 ^ 19 ≤ 10 ^ digits.length := Nat.pow_le_pow_right (by decide) (by omega)
    omega
  · rintro ⟨hlength, hdigits, rfl⟩
    have hpow : 10 ^ digits.length ≤ 10 ^ 18 := Nat.pow_le_pow_right (by decide) hlength
    have hlt := value_lt hdigits
    refine ⟨_, readUpTo_eq_some.2 ⟨by simp, ?_, hone, by omega⟩, by push_cast; rfl⟩
    intro c hc
    rcases List.mem_cons.1 hc with rfl | hc
    · decide
    · exact hdigits c hc

/-- The table is read inside of its bounds, and no operation on the amount overflows. -/
structure Safe (r : Parsed) : Prop where
  decimals : r.asset.decimals < 15
  exact : ∀ n ∈ r.exact, Int64 n

/-- The product, or the sum that the one in front is taken from again, is not a 64-bit number. -/
def Overflows (n : ℤ) (digits : Bytes) : Prop :=
  ¬ Int64 (n * 10 ^ digits.length) ∨ ¬ Int64 (n * 10 ^ digits.length + (10 ^ digits.length + (value digits : ℤ)))

/-- A number without a dot, one with a long fraction, or one that is too large. -/
inductive Unsafe (s : Bytes) : Prop
  | noDot (n : ℤ) (hdot : 46 ∉ trim s) (hn : toInt64 (trim s) = some n)
  | fraction (n : ℤ) (hdot : 46 ∈ trim s) (hn : toInt64 (intPart s) = some n)
      (hdigits : ∀ c ∈ fraction s, IsDigit c) (hlength : (fraction s).length ≤ 18)
      (h : 14 < (fraction s).length ∨ Overflows n (fraction s))

/-- The difference is between the product and the sum. -/
theorem safe_addFraction {n f : ℤ} {digits rest : Bytes} (hlength : digits.length ≤ 14)
    (hdigits : ∀ c ∈ digits, IsDigit c) (hf : f = 10 ^ digits.length + (value digits : ℤ)) :
    (∀ e ∈ (addFraction beyond ⟨n, digits.length % 256 :: rest⟩ f).exact, Int64 e) ↔ ¬ Overflows n digits := by
  have hmod : digits.length % 256 = digits.length := Nat.mod_eq_of_lt (by omega)
  have hdecimals : (⟨n, digits.length :: rest⟩ : Asset).decimals = digits.length := rfl
  have hprecision : (⟨n, digits.length :: rest⟩ : Asset).precision beyond = 10 ^ digits.length :=
    precision_of_lt (by omega)
  have hvalue : (value digits : ℤ) < 10 ^ digits.length := by exact_mod_cast value_lt hdigits
  subst hf
  rw [hmod]
  simp only [addFraction, hprecision, List.mem_cons, List.not_mem_nil, or_false, forall_eq_or_imp, forall_eq,
    Overflows, not_or, not_not]
  generalize (10 : ℤ) ^ digits.length = p at *
  constructor
  · rintro ⟨hproduct, hsum, -⟩
    rw [i64_of_int64 hproduct] at hsum
    exact ⟨hproduct, hsum⟩
  · rintro ⟨hproduct, hsum⟩
    rw [i64_of_int64 hproduct, i64_of_int64 hsum]
    refine ⟨hproduct, hsum, ?_⟩
    obtain ⟨hlow, -⟩ := hproduct
    obtain ⟨-, hhigh⟩ := hsum
    constructor <;> omega

theorem safe_iff (s : Bytes) : (∀ r, fromString beyond s = some r → Safe r) ↔ ¬ Unsafe s := by
  by_cases hdot : 46 ∈ trim s
  · rw [fromString_of_mem hdot]
    constructor
    · rintro hsafe (⟨n, hdot', -⟩ | ⟨n, -, hn, hdigits, hlength, hbad⟩)
      · exact hdot' hdot
      rw [hn, toInt64_fraction.2 ⟨hlength, hdigits, rfl⟩] at hsafe
      obtain ⟨hdecimals, hexact⟩ := hsafe _ rfl
      have hshort : (fraction s).length % 256 < 15 := hdecimals
      rw [safe_addFraction (by omega) hdigits rfl] at hexact
      rcases hbad with hlong | hbad
      · omega
      · exact hexact hbad
    · intro hsafe r hr
      obtain ⟨n, hn, hr⟩ := Option.bind_eq_some_iff.1 hr
      obtain ⟨f, hf, rfl⟩ := Option.map_eq_some_iff.1 hr
      obtain ⟨hlength, hdigits, hf⟩ := toInt64_fraction.1 hf
      have hshort : (fraction s).length ≤ 14 := by
        by_contra hlong
        exact hsafe (.fraction n hdot hn hdigits hlength (.inl (Nat.not_le.1 hlong)))
      refine ⟨show (fraction s).length % 256 < 15 by omega, ?_⟩
      rw [safe_addFraction hshort hdigits hf]
      exact fun hbad => hsafe (.fraction n hdot hn hdigits hlength (.inr hbad))
  · rw [fromString_of_notMem hdot]
    constructor
    · rintro hsafe (⟨n, -, hn⟩ | ⟨n, hdot', -⟩)
      · rw [hn] at hsafe
        have hdecimals : 255 < 15 := (hsafe _ rfl).decimals
        omega
      · exact hdot hdot'
    · intro hsafe r hr
      obtain ⟨n, hn, -⟩ := Option.map_eq_some_iff.1 hr
      exact absurd (.noDot n hdot hn) hsafe

/-! ## Which assets come back -/

/-- One to six printable characters, none of them a space or a dot. -/
structure IsSymbolName (name : Bytes) : Prop where
  ne_nil : name ≠ []
  length_le : name.length ≤ 6
  printable : ∀ c ∈ name, 32 < c ∧ c < 127 ∧ c ≠ 46

/-- So many decimals, and the name. -/
def ofParts (amount : ℤ) (decimals : ℕ) (name : Bytes) : Asset :=
  ⟨amount, decimals :: (name ++ List.replicate (7 - name.length) 0)⟩

section RoundTrip

variable {amount : ℤ} {d : ℕ} {name : Bytes}

theorem symbolName_ofParts (hname : IsSymbolName name) : (ofParts amount d name).symbolName = name := by
  have hpos : ∀ c ∈ name, decide (c ≠ 0) = true := fun c hc =>
    decide_eq_true (by have := (hname.printable c hc).1; omega)
  rw [symbolName, ofParts, cString, List.drop_one, List.tail_cons, List.takeWhile_append_of_pos hpos,
    List.takeWhile_replicate, if_neg (by decide), List.append_nil]

theorem copyName_eq (hname : IsSymbolName name) :
    (⟨amount, d :: List.replicate 7 0⟩ : Asset).copyName name = ofParts amount d name := by
  have hlength := hname.length_le
  rw [copyName, ofParts, List.take_of_length_le hlength, Nat.min_eq_left hlength, Nat.add_comm 1,
    List.drop_succ_cons, List.drop_replicate]
  rfl

theorem toString_ofParts (hd : d ≤ 14) (hname : IsSymbolName name) :
    toString beyond (ofParts amount d name) = int64ToString (amount.tdiv (10 ^ d)) ++
      (if d ≠ 0 then 46 :: (int64ToString (i64 (10 ^ d + amount.tmod (10 ^ d)))).tail else []) ++ 32 :: name := by
  have hprecision : (ofParts amount d name).precision beyond = 10 ^ d :=
    precision_of_lt (show d < 15 by omega)
  have hdecimals : (ofParts amount d name).decimals = d := rfl
  simp only [toString, hprecision, hdecimals, symbolName_ofParts hname]
  split_ifs <;> simp [ofParts]

theorem trim_eq_self {t : Bytes} (n : ℤ) (hname : IsSymbolName name) :
    trim (int64ToString n ++ t ++ 32 :: name) = int64ToString n ++ t ++ 32 :: name := by
  obtain ⟨c, u, hint, hc⟩ : ∃ c u, int64ToString n = c :: u ∧ isSpace c = false := by
    rw [int64ToString]
    split_ifs
    · exact ⟨_, _, rfl, rfl⟩
    · obtain ⟨c, u, hprint⟩ := List.exists_cons_of_ne_nil (print_ne_nil n.natAbs)
      have hc : IsDigit c := print_isDigit n.natAbs c (by rw [hprint]; exact List.mem_cons_self)
      obtain ⟨hlow, -⟩ := hc
      exact ⟨c, u, hprint, by simp [isSpace]; omega⟩
  have hlast : ¬ isSpace (name.getLast hname.ne_nil) = true := by
    have := hname.printable _ (List.getLast_mem hname.ne_nil)
    simp [isSpace]
    omega
  have hsplit : int64ToString n ++ t ++ 32 :: name =
      c :: (u ++ t ++ 32 :: name.dropLast) ++ [name.getLast hname.ne_nil] := by
    simp [hint, List.dropLast_append_getLast hname.ne_nil]
  rw [hsplit, trim, List.cons_append, List.dropWhile_cons_of_neg (by simp [hc]), ← List.cons_append,
    List.rdropWhile_concat_neg _ _ _ hlast]

/-- The parts of what was printed with a dot. -/
theorem parts_of_printed {n : ℤ} {t : Bytes} (hn : Int64 n) (ht : ∀ c ∈ t, IsDigit c)
    {s : Bytes} (hs : trim s = int64ToString n ++ 46 :: t ++ 32 :: name) :
    46 ∈ trim s ∧ intPart s = int64ToString n ∧ fraction s = t ∧ symbolText s = name := by
  have hread := toInt64_int64ToString hn
  have hdot := notMem_of_toInt64 hread (c := 46) (by decide) (by decide) (by decide)
  have hspace := notMem_of_toInt64 hread (c := 32) (by decide) (by decide) (by decide)
  have hspace' : 32 ∉ t := notMem_of_isDigit ht (by decide)
  rw [List.append_assoc, List.cons_append] at hs
  refine ⟨by rw [hs]; simp, ?_, ?_, ?_⟩
  · rw [intPart, hs, List.takeWhile_append_of_pos (ne_of_notMem hdot), List.takeWhile_cons_of_neg (by simp),
      List.append_nil]
  · rw [fraction, hs, List.dropWhile_append_of_pos (ne_of_notMem hdot), List.dropWhile_cons_of_neg (by simp),
      List.tail_cons, List.takeWhile_append_of_pos (ne_of_notMem hspace'), List.takeWhile_cons_of_neg (by simp),
      List.append_nil]
  · rw [symbolText, hs, if_pos (by simp), List.dropWhile_append_of_pos (ne_of_notMem hspace),
      List.dropWhile_cons_of_pos (by decide), List.dropWhile_append_of_pos (ne_of_notMem hspace'),
      List.dropWhile_cons_of_neg (by simp), List.tail_cons]

/-- What comes back has as many decimals as there are digits after the dot. -/
theorem fromString_printed {n : ℤ} {t : Bytes} (hn : Int64 n) (ht : ∀ c ∈ t, IsDigit c)
    (hname : IsSymbolName name) {s : Bytes} (hs : s = int64ToString n ++ 46 :: t ++ 32 :: name) :
    fromString beyond s = (toInt64 (49 :: t)).map fun f =>
      let parsed := addFraction beyond ⟨n, t.length % 256 :: List.replicate 7 0⟩ f
      ⟨parsed.asset.copyName name, parsed.exact⟩ := by
  obtain ⟨hdot, hint, hfraction, hsymbol⟩ := parts_of_printed hn ht
    (show trim s = _ by rw [hs]; exact trim_eq_self n hname)
  rw [fromString_of_mem hdot, hint, hfraction, hsymbol, toInt64_int64ToString hn, Option.bind_some]

/-- Without decimals there is no dot, and all of the text is read as a number. -/
theorem no_decimals_throws (hamount : Int64 amount) (hname : IsSymbolName name) :
    fromString beyond (toString beyond (ofParts amount 0 name)) = none := by
  have hs : toString beyond (ofParts amount 0 name) = int64ToString amount ++ [] ++ 32 :: name := by
    rw [toString_ofParts (Nat.zero_le 14) hname, pow_zero, Int.tdiv_one]
    rfl
  have htrim : trim (toString beyond (ofParts amount 0 name)) = int64ToString amount ++ [] ++ 32 :: name := by
    rw [hs]
    exact trim_eq_self _ hname
  have hnumber := notMem_of_toInt64 (toInt64_int64ToString hamount) (c := 46) (by decide) (by decide) (by decide)
  have hdot : 46 ∉ trim (toString beyond (ofParts amount 0 name)) := by
    rw [htrim, List.append_nil, List.mem_append, List.mem_cons]
    rintro (h | h | h)
    · exact hnumber h
    · omega
    · exact (hname.printable 46 h).2.2 rfl
  rw [fromString_of_notMem hdot]
  rcases hread : toInt64 (trim (toString beyond (ofParts amount 0 name))) with _ | n
  · rfl
  · have hspace := notMem_of_toInt64 hread (c := 32) (by decide) (by decide) (by decide)
    rw [htrim] at hspace
    exact absurd (by simp) hspace

theorem int64_tdiv (hamount : Int64 amount) (d : ℕ) : Int64 (amount.tdiv (10 ^ d)) := by
  obtain ⟨hlow, hhigh⟩ := hamount
  have hpos : (0 : ℤ) < 10 ^ d := by positivity
  have hle := Int.natAbs_tdiv_le_natAbs amount (10 ^ d)
  rcases le_or_gt 0 amount with hsign | hsign
  · have := Int.tdiv_nonneg hsign hpos.le
    constructor <;> omega
  · have := Int.tdiv_nonneg (show 0 ≤ -amount by omega) hpos.le
    rw [Int.neg_tdiv] at this
    constructor <;> omega

/-- The fraction with a one in front is printed as it is. -/
theorem precision_add_fract (amount : ℤ) (hd : d ≤ 14) :
    int64ToString (i64 (10 ^ d + amount.tmod (10 ^ d))) = print (10 ^ d + amount.tmod (10 ^ d)).natAbs ∧
      0 < 10 ^ d + amount.tmod (10 ^ d) := by
  have hpow : (10 : ℤ) ^ d ≤ 10 ^ 14 := pow_le_pow_right₀ (by decide) hd
  have hpos : (0 : ℤ) < 10 ^ d := by positivity
  have hlt := Int.tmod_lt_of_pos amount hpos
  have hgt := Int.lt_tmod_of_pos amount hpos
  rw [i64_of_int64 ⟨by omega, by omega⟩, int64ToString, if_neg (by omega)]
  exact ⟨rfl, by omega⟩

theorem toString_eq (hd : d ≤ 14) (hd' : d ≠ 0) (hname : IsSymbolName name) :
    toString beyond (ofParts amount d name) = int64ToString (amount.tdiv (10 ^ d)) ++
      46 :: (print (10 ^ d + amount.tmod (10 ^ d)).natAbs).tail ++ 32 :: name := by
  rw [toString_ofParts hd hname, if_pos hd', (precision_add_fract amount hd).1]

/-- There and back, when the fraction is not negative. -/
theorem comes_back (hamount : Int64 amount) (hd : d ≤ 14) (hd' : d ≠ 0) (hname : IsSymbolName name)
    (hfract : 0 ≤ amount.tmod (10 ^ d)) :
    (fromString beyond (toString beyond (ofParts amount d name))).map Parsed.asset = some (ofParts amount d name) := by
  have hpos : (0 : ℤ) < 10 ^ d := by positivity
  have hlt := Int.tmod_lt_of_pos amount hpos
  obtain ⟨r, hr⟩ := Int.eq_ofNat_of_zero_le hfract
  rw [hr] at hlt
  obtain ⟨t, hprint, hlength, hdigits, hvalue⟩ := print_pow_add (d := d) (n := r) (by exact_mod_cast hlt)
  have hnat : ((10 : ℤ) ^ d + amount.tmod (10 ^ d)).natAbs = 10 ^ d + r := by
    rw [hr]
    exact_mod_cast Int.natAbs_natCast (10 ^ d + r)
  have hs : toString beyond (ofParts amount d name) = int64ToString (amount.tdiv (10 ^ d)) ++ 46 :: t ++
      32 :: name := by
    rw [toString_eq hd hd' hname, hnat, hprint, List.tail_cons]
  have hread : toInt64 (49 :: t) = some (10 ^ d + amount.tmod (10 ^ d)) :=
    toInt64_fraction.2 ⟨by omega, hdigits, by rw [hlength, hvalue, hr]⟩
  have hmod : t.length % 256 = d := by rw [hlength]; exact Nat.mod_eq_of_lt (by omega)
  rw [fromString_printed (int64_tdiv hamount d) hdigits hname hs, hread, hmod, Option.map_some, Option.map_some]
  have hprecision : (⟨amount.tdiv (10 ^ d), d :: List.replicate 7 0⟩ : Asset).precision beyond = 10 ^ d :=
    precision_of_lt (show d < 15 by omega)
  -- the operations may overflow on the way, and come to the amount again
  have hsum : i64 (i64 (i64 (amount.tdiv (10 ^ d) * 10 ^ d) + (10 ^ d + amount.tmod (10 ^ d))) - 10 ^ d) =
      amount := by
    have hparts := Int.tdiv_mul_add_tmod amount (10 ^ d)
    rw [i64_add_sub, show amount.tdiv (10 ^ d) * 10 ^ d + (10 ^ d + amount.tmod (10 ^ d)) - 10 ^ d = amount by omega,
      i64_of_int64 hamount]
  simp only [addFraction, hprecision, hsum]
  rw [copyName_eq hname]

/-- A negative fraction is printed with fewer digits than there are decimals. -/
theorem loses_decimals (hamount : Int64 amount) (hd : d ≤ 14) (hd' : d ≠ 0) (hname : IsSymbolName name)
    (hfract : amount.tmod (10 ^ d) < 0) :
    (fromString beyond (toString beyond (ofParts amount d name))).map Parsed.asset ≠ some (ofParts amount d name) := by
  obtain ⟨e, rfl⟩ := Nat.exists_eq_succ_of_ne_zero hd'
  obtain ⟨-, hpos⟩ := precision_add_fract amount hd
  have hlength := length_print_le (d := e) (n := ((10 : ℤ) ^ (e + 1) + amount.tmod (10 ^ (e + 1))).natAbs) (by
    zify
    rw [abs_of_pos hpos]
    omega)
  have hdigits : ∀ c ∈ (print ((10 : ℤ) ^ (e + 1) + amount.tmod (10 ^ (e + 1))).natAbs).tail, IsDigit c :=
    fun c hc => print_isDigit _ c (List.mem_of_mem_tail hc)
  rw [fromString_printed (int64_tdiv hamount _) hdigits hname (toString_eq hd hd' hname)]
  intro hback
  obtain ⟨parsed, hparsed, hasset⟩ := Option.map_eq_some_iff.1 hback
  obtain ⟨f, -, rfl⟩ := Option.map_eq_some_iff.1 hparsed
  have hdecimals : (print ((10 : ℤ) ^ (e + 1) + amount.tmod (10 ^ (e + 1))).natAbs).tail.length % 256 = e + 1 :=
    congrArg decimals hasset
  rw [List.length_tail] at hdecimals
  omega

/-- What is printed is read back as it was just when there are decimals and no negative fraction. -/
theorem round_trip_iff (hamount : Int64 amount) (hd : d ≤ 14) (hname : IsSymbolName name) :
    (fromString beyond (toString beyond (ofParts amount d name))).map Parsed.asset = some (ofParts amount d name) ↔
      1 ≤ d ∧ (0 ≤ amount ∨ (10 : ℤ) ^ d ∣ amount) := by
  rcases Nat.eq_zero_or_pos d with rfl | hpos
  · rw [no_decimals_throws hamount hname]
    exact ⟨nofun, fun h => absurd h.1 (by decide)⟩
  have hfract : 0 ≤ amount.tmod (10 ^ d) ↔ 0 ≤ amount ∨ (10 : ℤ) ^ d ∣ amount := by
    constructor
    · intro hfract
      by_contra hneg
      obtain ⟨hneg, hdvd⟩ := not_or.1 hneg
      have hopposite := Int.tmod_nonneg (10 ^ d) (show 0 ≤ -amount by omega)
      rw [Int.neg_tmod] at hopposite
      exact hdvd (Int.dvd_of_tmod_eq_zero (by omega))
    · rintro (hsign | hdvd)
      · exact Int.tmod_nonneg _ hsign
      · exact (Int.tmod_eq_zero_of_dvd hdvd).ge
  rw [← hfract]
  constructor
  · intro hback
    refine ⟨hpos, ?_⟩
    by_contra hneg
    exact loses_decimals hamount hd hpos.ne' hname (Int.not_le.1 hneg) hback
  · exact fun h => comes_back hamount hd hpos.ne' hname h.2

/-- An asset is read back as it was just when it has decimals and either is not negative or has no
fraction; and a string is refused or read safely unless it has no dot, has 15 to 18 digits after it, or is
of a number that overflows on the way. -/
theorem asset_text (beyond : ℕ → ℤ) (hamount : Int64 amount) (hd : d ≤ 14) (hname : IsSymbolName name) (s : Bytes) :
    ((fromString beyond (toString beyond (ofParts amount d name))).map Parsed.asset =
        some (ofParts amount d name) ↔ 1 ≤ d ∧ (0 ≤ amount ∨ (10 : ℤ) ^ d ∣ amount)) ∧
      ((∀ r, fromString beyond s = some r → Safe r) ↔ ¬ Unsafe s) :=
  ⟨round_trip_iff hamount hd hname, safe_iff s⟩

theorem isSymbolName_sup : IsSymbolName [83, 85, 80] := ⟨by decide, by decide, by decide⟩

/-- One and a half, with two decimals, and "1.50 SUP". -/
theorem asset_text_sup :
    (fromString (fun _ => 0) (toString (fun _ => 0) (ofParts 150 2 [83, 85, 80]))).map Parsed.asset =
        some (ofParts 150 2 [83, 85, 80]) ∧
      ∀ r, fromString (fun _ => 0) [49, 46, 53, 48, 32, 83, 85, 80] = some r → Safe r := by
  obtain ⟨hback, hsafe⟩ := asset_text (fun _ => 0) (show Int64 150 from ⟨by decide, by decide⟩)
    (show 2 ≤ 14 by decide) isSymbolName_sup [49, 46, 53, 48, 32, 83, 85, 80]
  refine ⟨hback.2 ⟨by decide, .inl (by decide)⟩, hsafe.2 ?_⟩
  rintro (⟨n, hdot, -⟩ | ⟨n, -, hn, -, -, hbad⟩)
  · exact hdot (by decide)
  · have hone : toInt64 (intPart [49, 46, 53, 48, 32, 83, 85, 80]) = some 1 := by decide
    rw [hone] at hn
    cases hn
    revert hbad
    simp only [Overflows, Int64]
    decide

/-- Five hundredths below zero are not read back, and a number without a dot is read as an asset of 255
decimals. -/
theorem negative_fraction_lost :
    (fromString (fun _ => 0) (toString (fun _ => 0) (ofParts (-5) 2 [83, 85, 80]))).map Parsed.asset ≠
        some (ofParts (-5) 2 [83, 85, 80]) ∧
      ∃ r, fromString (fun _ => 0) [53] = some r ∧ ¬ Safe r := by
  constructor
  · rw [Ne, round_trip_iff ⟨by decide, by decide⟩ (by decide) isSymbolName_sup]
    decide
  · have hdot : 46 ∉ trim [53] := by decide
    have hfive : toInt64 (trim [53]) = some 5 := by decide
    refine ⟨_, (fromString_of_notMem hdot).trans (congrArg (Option.map _) hfive), ?_⟩
    exact fun hsafe => absurd (show 255 < 15 from hsafe.decimals) (by decide)

end RoundTrip

end Asset

end XmaxChain
