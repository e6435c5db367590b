import Mathlib.Data.List.Basic
import Mathlib.Tactic

/-!
# File streams

A file that is open for reading and for writing at its end, with one position for both. A call that
fails sets a flag that nothing clears, and a stream on which the flag is set answers no call: it throws,
or for the position of writing gives the number minus one.
-/

structure FileStream (β : Type) where
  data : List β := []
  pos : ℕ := 0
  failed : Bool := false

/-- From where a seek counts. -/
inductive SeekDir
  | beg | cur | fin
deriving DecidableEq, Repr

namespace FileStream

variable {β : Type}

def target (f : FileStream β) (off : ℤ) : SeekDir → ℤ
  | .beg => off
  | .cur => f.pos + off
  | .fin => f.data.length + off

/-- A position past the end is a position; one before the beginning is not. -/
def seekg (off : ℤ) (dir : SeekDir) : EStateM Unit (FileStream β) Unit := fun f =>
  if f.failed = true ∨ f.target off dir < 0 then .error () { f with failed := true }
  else .ok () { f with pos := (f.target off dir).toNat }

def seekp (off : ℤ) (dir : SeekDir) : EStateM Unit (FileStream β) Unit := fun f =>
  if f.failed then .ok () f else seekg off dir f

def tellg : EStateM Unit (FileStream β) ℤ := fun f =>
  if f.failed then .error () f else .ok f.pos f

def tellp : EStateM Unit (FileStream β) ℤ := fun f => .ok (if f.failed then -1 else f.pos) f

def read (count : ℕ) : EStateM Unit (FileStream β) (List β) := fun f =>
  if f.failed = true ∨ f.data.length < f.pos + count then .error () { f with failed := true }
  else .ok ((f.data.drop f.pos).take count) { f with pos := f.pos + count }

def write (bytes : List β) : EStateM Unit (FileStream β) Unit := fun f =>
  if f.failed then .error () f
  else .ok () { f with data := f.data ++ bytes, pos := (f.data ++ bytes).length }

section Rules

variable {f : FileStream β} {off : ℤ} {dir : SeekDir}

theorem seekg_ok {n : ℕ} (hf : f.failed = false) (ht : f.target off dir = n) :
    seekg off dir f = .ok () { f with pos := n } := by
  have hn : ¬ f.target off dir < 0 := by omega
  simp [seekg, hf, ht]

theorem seekg_error (ht : f.target off dir < 0) :
    seekg off dir f = .error () { f with failed := true } := by
  simp [seekg, ht]

theorem seekp_ok {n : ℕ} (hf : f.failed = false) (ht : f.target off dir = n) :
    seekp off dir f = .ok () { f with pos := n } := by
  rw [← seekg_ok hf ht]
  simp [seekp, hf]

theorem tellg_ok (hf : f.failed = false) : tellg f = .ok (f.pos : ℤ) f := by
  simp [tellg, hf]

theorem tellp_ok (hf : f.failed = false) : tellp f = .ok (f.pos : ℤ) f := by
  simp [tellp, hf]

theorem write_ok (hf : f.failed = false) (bytes : List β) :
    write bytes f = .ok () { f with data := f.data ++ bytes, pos := (f.data ++ bytes).length } := by
  simp [write, hf]

theorem read_ok {bytes : List β} (pre post : List β) (hf : f.failed = false)
    (hdata : f.data = pre ++ (bytes ++ post)) (hpos : f.pos = pre.length) :
    read bytes.length f = .ok bytes { f with pos := f.pos + bytes.length } := by
  have hlen : ¬ f.data.length < f.pos + bytes.length := by
    rw [hdata, hpos]
    simp
  simp only [read, hf, hlen, Bool.false_eq_true, or_self, if_false]
  rw [hdata, hpos, List.drop_left, List.take_left]

theorem read_error {count : ℕ} (h : f.data.length < f.pos + count) :
    read count f = .error () { f with failed := true } := by
  simp [read, h]

end Rules

end FileStream

/-- Values that are stored in `size` bytes each. -/
structure Pod (α β : Type) (size : ℕ) where
  bytes : α → List β
  ofBytes : List β → α
  length_bytes : ∀ a, (bytes a).length = size
  ofBytes_bytes : ∀ a, ofBytes (bytes a) = a

namespace Pod

open FileStream

variable {α β : Type} {size : ℕ} (c : Pod α β size)

/-- The values that an array of so many bytes holds. -/
def values : ℕ → List β → List α
  | 0, _ => []
  | count + 1, bytes => c.ofBytes (bytes.take size) :: values count (bytes.drop size)

def readOne : EStateM Unit (FileStream β) α := do
  return c.ofBytes (← read size)

def readMany (count : ℕ) : EStateM Unit (FileStream β) (List α) := do
  return c.values count (← read (size * count))

def writeOne (a : α) : EStateM Unit (FileStream β) Unit := write (c.bytes a)

theorem length_flatMap (l : List α) : (l.flatMap c.bytes).length = size * l.length := by
  induction l with
  | nil => rfl
  | cons a l ih =>
    rw [List.flatMap_cons, List.length_append, ih, c.length_bytes, List.length_cons]
    ring

theorem values_flatMap (l : List α) : c.values l.length (l.flatMap c.bytes) = l := by
  induction l with
  | nil => rfl
  | cons a l ih =>
    rw [List.flatMap_cons, List.length_cons, values, List.take_left' (c.length_bytes a),
      List.drop_left' (c.length_bytes a), c.ofBytes_bytes, ih]

variable {c} {f : FileStream β}

theorem readOne_ok {a : α} (pre post : List β) (hf : f.failed = false)
    (hdata : f.data = pre ++ (c.bytes a ++ post)) (hpos : f.pos = pre.length) :
    c.readOne f = .ok a { f with pos := f.pos + size } := by
  have hread := read_ok pre post hf hdata hpos
  rw [c.length_bytes] at hread
  simp [readOne, bind, EStateM.bind, pure, EStateM.pure, hread, c.ofBytes_bytes]

/-- Part of a file that holds nothing but such values. -/
theorem readMany_ok {l : List α} {i count : ℕ} (hf : f.failed = false)
    (hdata : f.data = l.flatMap c.bytes) (hpos : f.pos = size * i) (hin : i + count ≤ l.length) :
    c.readMany count f = .ok ((l.drop i).take count) { f with pos := f.pos + size * count } := by
  have hsplit : l = l.take i ++ ((l.drop i).take count ++ (l.drop i).drop count) := by
    rw [List.take_append_drop, List.take_append_drop]
  have hcount : ((l.drop i).take count).length = count := by
    rw [List.length_take, List.length_drop]
    omega
  have hdata : f.data = (l.take i).flatMap c.bytes ++
      (((l.drop i).take count).flatMap c.bytes ++ ((l.drop i).drop count).flatMap c.bytes) := by
    rw [hdata, ← List.flatMap_append, ← List.flatMap_append, ← hsplit]
  have hread := read_ok _ _ hf hdata
    (by rw [hpos, c.length_flatMap, List.length_take, min_eq_left (by omega)])
  rw [c.length_flatMap, hcount] at hread
  have hvalues := c.values_flatMap ((l.drop i).take count)
  rw [hcount] at hvalues
  simp [readMany, bind, EStateM.bind, pure, EStateM.pure, hread, hvalues]

theorem readOne_at {l : List α} {i : ℕ} {a : α} (hf : f.failed = false)
    (hdata : f.data = l.flatMap c.bytes) (hpos : f.pos = size * i) (ha : l[i]? = some a) :
    c.readOne f = .ok a { f with pos := f.pos + size } := by
  obtain ⟨hlt, rfl⟩ := List.getElem?_eq_some_iff.1 ha
  refine readOne_ok ((l.take i).flatMap c.bytes) ((l.drop (i + 1)).flatMap c.bytes) hf ?_ ?_
  · rw [hdata, ← List.flatMap_cons, ← List.flatMap_append, List.getElem_cons_drop,
      List.take_append_drop]
  · rw [hpos, c.length_flatMap, List.length_take, min_eq_left hlt.le]

theorem readMany_error {count : ℕ} (h : f.data.length < f.pos + size * count) :
    c.readMany count f = .error () { f with failed := true } := by
  simp [readMany, bind, EStateM.bind, read_error h]

end Pod
