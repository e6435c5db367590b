import XmaxChain.BlockPack
import XmaxChain.Lib.FileStream

/-!
# The block log

Two files: the blocks one after the other, each followed by its description and a mark, and an index
with an entry for each block. Entries are found from the end of the index, and the arithmetic for it has
64 bits. What the files of a list of blocks are, and what each call does to them.
-/

namespace XmaxChain

def blockEndEof : ℕ := 0xb10cedef

structure BlockDesc where
  num : ℕ := 0
  pos : ℕ := 0
  size : ℕ := 0
deriving DecidableEq, Repr

structure BlockIndex where
  num : ℕ := 0
  pos : ℕ := 0
  size : ℕ := 0
  id : Summary := default
deriving DecidableEq, Repr

/-- How what is stored is put into bytes: a block by `fc::raw`, a record of fixed size as it lies in
memory. -/
structure LogFormat (β : Type) where
  pack : SignedBlock → List β
  unpack : List β → Option (SignedBlock × List β)
  unpack_pack : ∀ b rest, unpack (pack b ++ rest) = some (b, rest)
  desc : Pod BlockDesc β 64
  index : Pod BlockIndex β 64
  eof : Pod ℕ β 4

structure ChainStream (β : Type) where
  blockStream : FileStream β := {}
  indexStream : FileStream β := {}
  headBlock : Option SignedBlock := none

/-- A number as `uint64_t`. -/
def asU64 (z : ℤ) : ℕ := (z % 2 ^ 64).toNat

/-- A position as `uint64_t`; no file is so long that it is cut. -/
def filePos (z : ℤ) : ℕ := if z < 0 then 2 ^ 64 - 1 else z.toNat

@[simp] theorem filePos_natCast (n : ℕ) : filePos n = n := by
  rw [filePos, if_neg (by omega), Int.toNat_natCast]

/-- A number as `int64_t`. -/
def asI64 (z : ℤ) : ℤ := z.bmod (2 ^ 64)

/-- The longest array of index entries. -/
def maxIndices : ℕ := (2 ^ 63 - 1) / 64

section Stream

open FileStream

variable {β : Type}

/-- A call on a stream that is set to throw. -/
def onBlocks {α : Type} (x : EStateM Unit (FileStream β) α) : EStateM Fault (ChainStream β) α :=
  fun s =>
  match x s.blockStream with
  | .ok a f => .ok a { s with blockStream := f }
  | .error _ f => .error (.std "basic_ios::clear") { s with blockStream := f }

def onIndex {α : Type} (x : EStateM Unit (FileStream β) α) : EStateM Fault (ChainStream β) α :=
  fun s =>
  match x s.indexStream with
  | .ok a f => .ok a { s with indexStream := f }
  | .error _ f => .error (.std "basic_ios::clear") { s with indexStream := f }

theorem onBlocks_ok {α : Type} {x : EStateM Unit (FileStream β) α} {s : ChainStream β} {a : α}
    {f : FileStream β} (h : x s.blockStream = .ok a f) :
    onBlocks x s = .ok a { s with blockStream := f } := by
  simp only [onBlocks, h]

theorem onIndex_ok {α : Type} {x : EStateM Unit (FileStream β) α} {s : ChainStream β} {a : α}
    {f : FileStream β} (h : x s.indexStream = .ok a f) :
    onIndex x s = .ok a { s with indexStream := f } := by
  simp only [onIndex, h]

def throwWhen (b : Bool) (e : Fault) : EStateM Fault (ChainStream β) Unit := fun s =>
  if b then .error e s else .ok () s

namespace ChainStream

def toLastBlockDesc : EStateM Fault (ChainStream β) Unit := onBlocks (seekg (-(4 + 64)) .fin)

def toLastBlockIndex : EStateM Fault (ChainStream β) Unit := onIndex (seekg (-64) .fin)

def toEndEof : EStateM Fault (ChainStream β) Unit := onBlocks (seekg (-4) .fin)

variable (c : Crypto) (fmt : LogFormat β)

def writeBlock (block : SignedBlock) : EStateM Fault (ChainStream β) ℕ := do
  let data := fmt.pack block
  onBlocks (seekp 0 .fin)
  onIndex (seekp 0 .fin)
  let pos := filePos (← onBlocks tellp)
  let idxPos := filePos (← onIndex tellp)
  throwWhen (idxPos ≠ asU64 (64 * (block.blockNum - 1)))
    (.fc "Append to index file occuring at wrong position.")
  onBlocks (seekp pos .beg)
  onBlocks (write data)
  onBlocks (fmt.desc.writeOne ⟨block.blockNum, pos, data.length⟩)
  onBlocks (fmt.eof.writeOne blockEndEof)
  onIndex (fmt.index.writeOne ⟨block.blockNum, pos, data.length, block.id c⟩)
  return pos

def appendBlock (block : SignedBlock) : EStateM Fault (ChainStream β) ℕ := do
  let pos ← writeBlock c fmt block
  modify fun s => { s with headBlock := some block }
  return pos

/-- `fc::raw::unpack`, which reads as far as the block goes. -/
def unpackBlock : EStateM Unit (FileStream β) SignedBlock := fun f =>
  if f.failed then .error () f
  else
    match fmt.unpack (f.data.drop f.pos) with
    | some (b, rest) => .ok b { f with pos := f.data.length - rest.length }
    | none => .error () { f with failed := true }

def readBlockImpl (pos : ℕ) : EStateM Fault (ChainStream β) SignedBlock := do
  onBlocks (seekg pos .beg)
  onBlocks (unpackBlock fmt)

def readHead : EStateM Fault (ChainStream β) SignedBlock := do
  toLastBlockDesc
  let desc ← onBlocks fmt.desc.readOne
  readBlockImpl fmt desc.pos

/-- `read_by_num`. -/
def readBlock (num : ℕ) : EStateM Fault (ChainStream β) (Option SignedBlock) := do
  toLastBlockIndex
  let lastIdx ← onIndex fmt.index.readOne
  if num < lastIdx.num then
    toLastBlockIndex
    let bias := asU64 (64 * (lastIdx.num - num))
    onIndex (seekg (asI64 (-bias)) .cur)
    let idx ← onIndex fmt.index.readOne
    return some (← readBlockImpl fmt idx.pos)
  else if lastIdx.num = num then return some (← readBlockImpl fmt lastIdx.pos)
  else return none

/-- How many entries are asked for, when the last one has the number `last`. -/
def indexCount (last : ℕ) (beginNum blockCount : ℤ) : ℤ :=
  let cc := asI64 (last - beginNum + 1)
  if cc < blockCount then cc else blockCount

/-- How far back from the last entry the first one is. -/
def indexBias (last : ℕ) (beginNum : ℤ) : ℤ := asI64 (-asU64 (64 * (last - beginNum)))

/-- Entries of an index that is at the last one. -/
def takeIndices (count bias : ℤ) : EStateM Fault (ChainStream β) (List BlockIndex) := do
  throwWhen (maxIndices < asU64 count) (.std "vector::_M_default_append")
  onIndex (seekg bias .cur)
  throwWhen (count = 0) (.undefined "&idxs[0]")
  onIndex (fmt.index.readMany count.toNat)

def readIndices (beginNum blockCount : ℤ) : EStateM Fault (ChainStream β) (List BlockIndex) := do
  toLastBlockIndex
  if (← onIndex tellg) ≤ 0 then return []
  else
    let lastIdx ← onIndex fmt.index.readOne
    if asI64 (lastIdx.num - beginNum + 1) < 1 then return []
    else
      toLastBlockIndex
      takeIndices fmt (indexCount lastIdx.num beginNum blockCount) (indexBias lastIdx.num beginNum)

def lastBlockNum : EStateM Fault (ChainStream β) ℤ := do
  toLastBlockIndex
  if (← onIndex tellg) ≤ 0 then return 0
  else
    let lastIdx ← onIndex fmt.index.readOne
    return asI64 lastIdx.num

/-- What `open` checks of files that it has just opened. Of two files of which one is empty the other
is removed. -/
def checkFiles : EStateM Fault (ChainStream β) Unit := do
  let s ← get
  if s.blockStream.data.length = 0 ∧ 0 < s.indexStream.data.length then
    modify fun s => { s with indexStream := {} }
  else if s.indexStream.data.length = 0 ∧ 0 < s.blockStream.data.length then
    modify fun s => { s with blockStream := {} }
  else if 0 < s.indexStream.data.length ∧ 0 < s.blockStream.data.length then
    toEndEof
    let eof ← onBlocks fmt.eof.readOne
    throwWhen (eof ≠ blockEndEof) (.fc "Block log is corrupted")
    toLastBlockDesc
    toLastBlockIndex
    let desc ← onBlocks fmt.desc.readOne
    let index ← onIndex fmt.index.readOne
    throwWhen (desc.pos ≠ index.pos) (.fc "Block log is corrupted")
    let head ← readHead fmt
    modify fun s => { s with headBlock := some head }

/-- The log of the same files, as a constructor finds it. -/
def reopen : EStateM Fault (ChainStream β) Unit := fun s =>
  checkFiles fmt { blockStream := { data := s.blockStream.data }
                   indexStream := { data := s.indexStream.data } }

/-- The streams answer: no flag is set. -/
def Sound (s : ChainStream β) : Prop :=
  s.blockStream.failed = false ∧ s.indexStream.failed = false

def atBlock (s : ChainStream β) (pos : ℕ) : ChainStream β :=
  { s with blockStream := { s.blockStream with pos } }

def atIndex (s : ChainStream β) (pos : ℕ) : ChainStream β :=
  { s with indexStream := { s.indexStream with pos } }

@[simp] theorem atIndex_atIndex (s : ChainStream β) (p q : ℕ) :
    (s.atIndex p).atIndex q = s.atIndex q := rfl

@[simp] theorem atIndex_atBlock (s : ChainStream β) (p q : ℕ) :
    (s.atIndex p).atBlock q = (s.atBlock q).atIndex p := rfl

def atEnds (s : ChainStream β) : ChainStream β :=
  (s.atBlock s.blockStream.data.length).atIndex s.indexStream.data.length

/-- With more at the end of a file. -/
def putBlocks (s : ChainStream β) (bytes : List β) : ChainStream β :=
  { s with
    blockStream := { s.blockStream with
      data := s.blockStream.data ++ bytes, pos := (s.blockStream.data ++ bytes).length } }

def putIndex (s : ChainStream β) (bytes : List β) : ChainStream β :=
  { s with
    indexStream := { s.indexStream with
      data := s.indexStream.data ++ bytes, pos := (s.indexStream.data ++ bytes).length } }

theorem putBlocks_putBlocks (s : ChainStream β) (xs ys : List β) :
    (s.putBlocks xs).putBlocks ys = s.putBlocks (xs ++ ys) := by
  simp [putBlocks]

def failIndex (s : ChainStream β) : ChainStream β :=
  { s with indexStream := { s.indexStream with failed := true } }

@[simp] theorem not_sound_failIndex (s : ChainStream β) : ¬ s.failIndex.Sound := by
  simp [Sound, failIndex]

end ChainStream

end Stream

/-! ## The files of a list -/

section Files

variable {β : Type} (c : Crypto) (fmt : LogFormat β)

namespace LogFormat

def entry (pos : ℕ) (b : SignedBlock) : BlockIndex :=
  ⟨b.blockNum, pos, (fmt.pack b).length, b.id c⟩

def frame (pos : ℕ) (b : SignedBlock) : List β :=
  fmt.pack b ++ (fmt.desc.bytes ⟨b.blockNum, pos, (fmt.pack b).length⟩ ++ fmt.eof.bytes blockEndEof)

/-- The blocks' file, from a position on. -/
def blocksFile : ℕ → List SignedBlock → List β
  | _, [] => []
  | pos, b :: bs => fmt.frame pos b ++ blocksFile (pos + (fmt.frame pos b).length) bs

/-- The entries of the index for them. -/
def entries : ℕ → List SignedBlock → List BlockIndex
  | _, [] => []
  | pos, b :: bs => fmt.entry c pos b :: entries (pos + (fmt.frame pos b).length) bs

variable {fmt} {c}

theorem blocksFile_append (pos : ℕ) (xs ys : List SignedBlock) :
    fmt.blocksFile pos (xs ++ ys) =
      fmt.blocksFile pos xs ++ fmt.blocksFile (pos + (fmt.blocksFile pos xs).length) ys := by
  induction xs generalizing pos with
  | nil => rfl
  | cons x xs ih =>
    rw [List.cons_append, blocksFile, blocksFile, ih, List.append_assoc, List.length_append,
      Nat.add_assoc]

theorem entries_append (pos : ℕ) (xs ys : List SignedBlock) :
    fmt.entries c pos (xs ++ ys) =
      fmt.entries c pos xs ++ fmt.entries c (pos + (fmt.blocksFile pos xs).length) ys := by
  induction xs generalizing pos with
  | nil => rfl
  | cons x xs ih =>
    rw [List.cons_append, entries, entries, ih, blocksFile, List.cons_append, List.length_append,
      Nat.add_assoc]

@[simp] theorem length_entries (pos : ℕ) (bs : List SignedBlock) :
    (fmt.entries c pos bs).length = bs.length := by
  induction bs generalizing pos with
  | nil => rfl
  | cons b bs ih => rw [entries, List.length_cons, ih, List.length_cons]

variable (c) (fmt) in
/-- The entry of a block, and the block in the file at the entry's position. -/
theorem entries_getElem? {bs : List SignedBlock} {i : ℕ} {b : SignedBlock} (hb : bs[i]? = some b) :
    ∃ pre post, (fmt.entries c 0 bs)[i]? = some (fmt.entry c pre.length b) ∧
      fmt.blocksFile 0 bs = pre ++ (fmt.frame pre.length b ++ post) ∧
        (i + 1 = bs.length → post = []) := by
  obtain ⟨hi, rfl⟩ := List.getElem?_eq_some_iff.1 hb
  have hsplit : bs = bs.take i ++ bs[i] :: bs.drop (i + 1) := by simp
  have hlen : (fmt.entries c 0 (bs.take i)).length = i := by
    rw [length_entries, List.length_take, min_eq_left hi.le]
  refine ⟨fmt.blocksFile 0 (bs.take i), fmt.blocksFile
    ((fmt.blocksFile 0 (bs.take i)).length +
      (fmt.frame (fmt.blocksFile 0 (bs.take i)).length bs[i]).length)
    (bs.drop (i + 1)), ?_, ?_, fun hend => ?_⟩
  · conv_lhs => rw [hsplit]
    rw [entries_append, List.getElem?_append_right hlen.le, hlen, Nat.sub_self, entries,
      List.getElem?_cons_zero, Nat.zero_add]
  · conv_lhs => rw [hsplit]
    rw [blocksFile_append, blocksFile, Nat.zero_add]
  · rw [hend, List.drop_length, blocksFile]

end LogFormat

/-- The files hold a list of blocks. -/
structure Files (s : ChainStream β) (bs : List SignedBlock) : Prop where
  numbered : ∀ i b, bs[i]? = some b → b.blockNum = i + 1
  blocks : s.blockStream.data = fmt.blocksFile 0 bs
  index : s.indexStream.data = (fmt.entries c 0 bs).flatMap fmt.index.bytes
  sound : s.Sound

/-- The log holds a list of blocks, and knows the last of them. -/
structure Holds (s : ChainStream β) (bs : List SignedBlock) : Prop extends Files c fmt s bs where
  head : s.headBlock = bs.getLast?

end Files

section Steps

open FileStream ChainStream

variable {β : Type} {c : Crypto} {fmt : LogFormat β} {s : ChainStream β} {bs : List SignedBlock}

theorem Files.atBlock (h : Files c fmt s bs) (pos : ℕ) : Files c fmt (s.atBlock pos) bs :=
  ⟨h.numbered, h.blocks, h.index, h.sound⟩

theorem Files.atIndex (h : Files c fmt s bs) (pos : ℕ) : Files c fmt (s.atIndex pos) bs :=
  ⟨h.numbered, h.blocks, h.index, h.sound⟩

theorem Holds.atBlock (h : Holds c fmt s bs) (pos : ℕ) : Holds c fmt (s.atBlock pos) bs :=
  ⟨h.toFiles.atBlock pos, h.head⟩

theorem Holds.atIndex (h : Holds c fmt s bs) (pos : ℕ) : Holds c fmt (s.atIndex pos) bs :=
  ⟨h.toFiles.atIndex pos, h.head⟩

/-- Block numbers have 32 bits, and so has their count. -/
theorem Files.length_lt (h : Files c fmt s bs) : bs.length < 2 ^ 32 := by
  cases hlast : bs[bs.length - 1]? with
  | none =>
    have hlen := List.getElem?_eq_none_iff.1 hlast
    omega
  | some b =>
    have hnum := h.numbered _ b hlast
    have hlt : b.blockNum < 2 ^ 32 := u32_lt _
    have hpos : bs.length - 1 < bs.length := (List.getElem?_eq_some_iff.1 hlast).1
    omega

theorem Files.index_length (h : Files c fmt s bs) : s.indexStream.data.length = 64 * bs.length := by
  rw [h.index, Pod.length_flatMap, LogFormat.length_entries]

theorem Files.toLastBlockIndex_ok (h : Files c fmt s bs) {n : ℕ} (hn : bs.length = n + 1) :
    toLastBlockIndex s = .ok () (s.atIndex (64 * n)) := by
  have htarget : s.indexStream.target (-64) .fin = (64 * n : ℕ) := by
    simp only [target, h.index_length, hn]
    push_cast
    ring
  simp [toLastBlockIndex, onIndex, seekg_ok h.sound.2 htarget, ChainStream.atIndex]

/-- In the index of an empty log the seek goes before the beginning. -/
theorem Holds.toLastBlockIndex_error (h : Holds c fmt s bs) (hn : bs.length = 0) :
    toLastBlockIndex s = .error (.std "basic_ios::clear") s.failIndex := by
  have htarget : s.indexStream.target (-64) .fin < 0 := by
    simp only [target, h.index_length, hn]
    decide
  simp only [toLastBlockIndex, onIndex, seekg_error htarget, failIndex]

theorem Files.readEntry_ok (h : Files c fmt s bs) {i : ℕ} {e : BlockIndex}
    (hpos : s.indexStream.pos = 64 * i) (he : (fmt.entries c 0 bs)[i]? = some e) :
    onIndex fmt.index.readOne s = .ok e (s.atIndex (64 * (i + 1))) := by
  simp only [onIndex, Pod.readOne_at h.sound.2 h.index hpos he, ChainStream.atIndex, hpos,
    Nat.mul_add, Nat.mul_one]

theorem unpackBlock_ok {f : FileStream β} {pre rest : List β} {b : SignedBlock}
    (hf : f.failed = false) (hdata : f.data = pre ++ (fmt.pack b ++ rest))
    (hpos : f.pos = pre.length) :
    ∃ p, unpackBlock fmt f = .ok b { f with pos := p } := by
  refine ⟨f.data.length - rest.length, ?_⟩
  simp only [unpackBlock, hf, Bool.false_eq_true, if_false]
  rw [hpos, hdata, List.drop_left, fmt.unpack_pack]

theorem Files.readBlockImpl_ok (h : Files c fmt s bs) {pre post : List β} {b : SignedBlock}
    (hfile : fmt.blocksFile 0 bs = pre ++ (fmt.frame pre.length b ++ post)) :
    ∃ p, readBlockImpl fmt pre.length s = .ok b (s.atBlock p) := by
  have htarget : s.blockStream.target (pre.length : ℕ) .beg = (pre.length : ℕ) := rfl
  have hseek := onBlocks_ok (seekg_ok h.sound.1 htarget)
  rw [LogFormat.frame, List.append_assoc, ← h.blocks] at hfile
  obtain ⟨p, hp⟩ :=
    unpackBlock_ok (f := { s.blockStream with pos := pre.length }) h.sound.1 hfile rfl
  refine ⟨p, ?_⟩
  rw [readBlockImpl, run_bind_ok hseek, onBlocks_ok hp]
  rfl

/-- The last entry, where there is one. -/
theorem Files.lastEntry (h : Files c fmt s bs) {n : ℕ} (hn : bs.length = n + 1) :
    ∃ b pre post, bs[n]? = some b ∧ (fmt.entries c 0 bs)[n]? = some (fmt.entry c pre.length b) ∧
      fmt.blocksFile 0 bs = pre ++ (fmt.frame pre.length b ++ post) ∧ post = [] ∧
        b.blockNum = n + 1 := by
  obtain ⟨b, hb⟩ : ∃ b, bs[n]? = some b := ⟨bs[n], List.getElem?_eq_getElem (by omega)⟩
  obtain ⟨pre, post, hentry, hfile, hend⟩ := LogFormat.entries_getElem? c fmt hb
  exact ⟨b, pre, post, hb, hentry, hfile, hend hn.symm, h.numbered n b hb⟩

theorem seekEndBlocks_ok (hs : s.Sound) :
    onBlocks (seekp 0 .fin) s = .ok () (s.atBlock s.blockStream.data.length) :=
  onBlocks_ok (seekp_ok hs.1 (by simp [target]))

theorem seekEndIndex_ok (hs : s.Sound) :
    onIndex (seekp 0 .fin) (s.atBlock s.blockStream.data.length) = .ok () s.atEnds :=
  onIndex_ok (seekp_ok hs.2 (by simp [target, ChainStream.atBlock]))

theorem tellBlocks_ok (hs : s.Sound) : onBlocks tellp s = .ok (s.blockStream.pos : ℤ) s :=
  onBlocks_ok (tellp_ok hs.1)

theorem tellIndex_ok (hs : s.Sound) : onIndex tellp s = .ok (s.indexStream.pos : ℤ) s :=
  onIndex_ok (tellp_ok hs.2)

theorem writeBlocks_ok (hs : s.Sound) (bytes : List β) :
    onBlocks (write bytes) s = .ok () (s.putBlocks bytes) :=
  onBlocks_ok (write_ok hs.1 bytes)

theorem writeIndex_ok (hs : s.Sound) (bytes : List β) :
    onIndex (write bytes) s = .ok () (s.putIndex bytes) :=
  onIndex_ok (write_ok hs.2 bytes)

theorem checkIndexPos (b : SignedBlock) :
    throwWhen (filePos s.atEnds.indexStream.pos ≠ asU64 (64 * (b.blockNum - 1)))
        (.fc "Append to index file occuring at wrong position.") s.atEnds =
      if s.indexStream.data.length = asU64 (64 * (b.blockNum - 1)) then .ok () s.atEnds
      else .error (.fc "Append to index file occuring at wrong position.") s.atEnds := by
  have hpos : s.atEnds.indexStream.pos = s.indexStream.data.length := rfl
  rw [filePos_natCast, hpos, throwWhen]
  split_ifs <;> simp_all

/-- What a block adds to the files. -/
theorem writeBlock_ok (hs : s.Sound) {b : SignedBlock} {pos : ℕ}
    (hpos : s.blockStream.data.length = pos)
    (hidx : s.indexStream.data.length = asU64 (64 * (b.blockNum - 1))) :
    writeBlock c fmt b s =
      .ok pos ((s.putBlocks (fmt.frame pos b)).putIndex (fmt.index.bytes (fmt.entry c pos b))) := by
  obtain ⟨t, ht⟩ : ∃ t, t = s.atEnds := ⟨_, rfl⟩
  have hsound : t.Sound := ht ▸ hs
  have hposb : filePos t.blockStream.pos = pos := by
    rw [filePos_natCast, ht, ← hpos]
    rfl
  have hcheck := checkIndexPos (s := s) b
  rw [if_pos hidx, ← ht] at hcheck
  have hseek : onBlocks (seekp (pos : ℕ) .beg) t = .ok () t := by
    rw [onBlocks_ok (seekp_ok hsound.1 (n := pos) rfl), ht, ← hpos]
    rfl
  have hput : ∀ (x : List β) {k : ℕ} {α : Type} (pod : Pod α β k) (a : α),
      onBlocks (pod.writeOne a) (t.putBlocks x) = .ok () (t.putBlocks (x ++ pod.bytes a)) :=
    fun x _ _ pod a => by
      rw [← putBlocks_putBlocks]
      exact writeBlocks_ok (s := t.putBlocks x) hsound (pod.bytes a)
  have hentry : onIndex (fmt.index.writeOne (fmt.entry c pos b)) (t.putBlocks (fmt.frame pos b)) =
      .ok () ((t.putBlocks (fmt.frame pos b)).putIndex (fmt.index.bytes (fmt.entry c pos b))) :=
    writeIndex_ok (s := t.putBlocks _) hsound _
  rw [writeBlock, run_bind_ok (seekEndBlocks_ok hs), run_bind_ok (seekEndIndex_ok hs), ← ht,
    run_bind_ok (tellBlocks_ok hsound),
    run_bind_ok (tellIndex_ok hsound), run_bind_ok hcheck, hposb, run_bind_ok hseek,
    run_bind_ok (writeBlocks_ok hsound _), run_bind_ok (hput _ _ _), run_bind_ok (hput _ _ _),
    List.append_assoc, ← LogFormat.frame, ← LogFormat.entry, run_bind_ok hentry, ht]
  rfl

/-- The position that a block's entry must have, as the 64-bit arithmetic gives it. -/
theorem asU64_entry {num n : ℕ} (hnum : num < 2 ^ 32) (hn : n < 2 ^ 32) :
    64 * n = asU64 (64 * ((num : ℤ) - 1)) ↔ num = n + 1 := by
  unfold asU64
  omega

/-- A block with the next number is appended. -/
theorem Holds.append (h : Holds c fmt s bs) {b : SignedBlock} (hb : b.blockNum = bs.length + 1) :
    ∃ pos s', appendBlock c fmt b s = .ok pos s' ∧ Holds c fmt s' (bs ++ [b]) := by
  have hidx : s.indexStream.data.length = asU64 (64 * (b.blockNum - 1)) := by
    rw [h.index_length]
    exact (asU64_entry (u32_lt _) h.length_lt).2 hb
  refine ⟨_, _, by rw [appendBlock, run_bind_ok (writeBlock_ok h.sound rfl hidx)]; rfl, ?_⟩
  refine ⟨⟨fun i x hx => ?_, ?_, ?_, h.sound⟩, by simp⟩
  · rcases Nat.lt_or_ge i bs.length with hi | hi
    · rw [List.getElem?_append_left hi] at hx
      exact h.numbered i x hx
    · rw [List.getElem?_append_right hi] at hx
      obtain ⟨hi', rfl⟩ := List.getElem?_eq_some_iff.1 hx
      simp only [List.length_singleton, Nat.lt_one_iff] at hi'
      simp only [hi', List.getElem_cons_zero, hb]
      omega
  · rw [LogFormat.blocksFile_append, ← h.blocks]
    simp [LogFormat.blocksFile, putIndex, putBlocks]
  · rw [LogFormat.entries_append, List.flatMap_append, ← h.index, ← h.blocks]
    simp [LogFormat.entries, putIndex, putBlocks]

/-- One with another number is refused, and the log is as before. -/
theorem Holds.append_refused (h : Holds c fmt s bs) {b : SignedBlock}
    (hb : b.blockNum ≠ bs.length + 1) :
    ∃ msg s', appendBlock c fmt b s = .error (.fc msg) s' ∧ Holds c fmt s' bs := by
  have hidx : ¬ s.indexStream.data.length = asU64 (64 * (b.blockNum - 1)) := by
    rw [h.index_length]
    exact fun heq => hb ((asU64_entry (u32_lt _) h.length_lt).1 heq)
  have hheld : Holds c fmt s.atEnds bs := (h.atBlock _).atIndex _
  have hcheck := checkIndexPos (s := s) b
  rw [if_neg hidx] at hcheck
  have hwrite : writeBlock c fmt b s = .error (.fc "Append to index file occuring at wrong position.") s.atEnds := by
    rw [writeBlock, run_bind_ok (seekEndBlocks_ok h.sound), run_bind_ok (seekEndIndex_ok h.sound),
      run_bind_ok (tellBlocks_ok hheld.sound), run_bind_ok (tellIndex_ok hheld.sound),
      run_bind_error hcheck]
  exact ⟨_, s.atEnds, run_bind_error hwrite, hheld⟩

theorem asI64_of_small {z : ℤ} (h : -2 ^ 63 ≤ z) (h' : z < 2 ^ 63) : asI64 z = z := by
  rw [asI64, Int.bmod_def]
  push_cast
  split_ifs <;> omega

theorem asU64_of_small {z : ℤ} (h : 0 ≤ z) (h' : z < 2 ^ 64) : (asU64 z : ℤ) = z := by
  unfold asU64
  omega

theorem Holds.seekIndex_ok (h : Holds c fmt s bs) {p q : ℕ} {off : ℤ} (hq : p + off = q) :
    onIndex (seekg off .cur) (s.atIndex p) = .ok () (s.atIndex q) :=
  onIndex_ok (seekg_ok h.sound.2 hq)

theorem seekIndex_error {p : ℕ} {off : ℤ} (hp : p + off < 0) :
    onIndex (seekg off .cur) (s.atIndex p) =
      .error (.std "basic_ios::clear") (s.atIndex p).failIndex := by
  have htarget : (s.atIndex p).indexStream.target off .cur < 0 := hp
  simp only [onIndex, seekg_error htarget, failIndex]

theorem Holds.tellLast (h : Holds c fmt s bs) (pos : ℕ) :
    onIndex tellg (s.atIndex pos) = .ok (pos : ℤ) (s.atIndex pos) :=
  onIndex_ok (tellg_ok h.sound.2)

/-- What `last_block_num` gives when there are two blocks or more. -/
theorem Holds.lastBlockNum_ok (h : Holds c fmt s bs) (hn : 2 ≤ bs.length) :
    ∃ s', lastBlockNum fmt s = .ok (bs.length : ℤ) s' ∧ Holds c fmt s' bs := by
  obtain ⟨n, hlen⟩ : ∃ n, bs.length = n + 1 := ⟨bs.length - 1, by omega⟩
  obtain ⟨b, pre, post, -, hentry, -, -, hnum⟩ := h.lastEntry hlen
  have hlt := h.length_lt
  have hheld := h.atIndex (64 * n)
  refine ⟨(s.atIndex (64 * n)).atIndex (64 * (n + 1)), ?_, hheld.atIndex _⟩
  rw [lastBlockNum, run_bind_ok (h.toLastBlockIndex_ok hlen), run_bind_ok (h.tellLast _),
    if_neg (by omega),
    run_bind_ok (hheld.readEntry_ok rfl hentry), LogFormat.entry]
  simp only [hnum, hlen]
  rw [asI64_of_small (by omega) (by omega)]
  rfl

/-- The only entry is at the position zero, which is taken for none. -/
theorem Holds.lastBlockNum_one (h : Holds c fmt s bs) (hn : bs.length = 1) :
    ∃ s', lastBlockNum fmt s = .ok 0 s' := by
  refine ⟨s.atIndex (64 * 0), ?_⟩
  rw [lastBlockNum, run_bind_ok (h.toLastBlockIndex_ok hn), run_bind_ok (h.tellLast _),
    if_pos (by decide)]
  rfl

theorem Holds.readBlock_ok (h : Holds c fmt s bs) {num : ℕ} (hn : bs ≠ []) (hnum : num ≠ 0) :
    ∃ s', readBlock fmt num s = .ok bs[num - 1]? s' ∧ Holds c fmt s' bs := by
  obtain ⟨n, hlen⟩ : ∃ n, bs.length = n + 1 :=
    Nat.exists_eq_succ_of_ne_zero (List.length_pos_iff.2 hn).ne'
  obtain ⟨last, pre, post, hlast, hentry, hfile, -, hlastNum⟩ := h.lastEntry hlen
  have hlt := h.length_lt
  rw [readBlock, run_bind_ok (h.toLastBlockIndex_ok hlen),
    run_bind_ok ((h.atIndex (64 * n)).readEntry_ok rfl hentry), atIndex_atIndex]
  have hheld := h.atIndex (64 * (n + 1))
  simp only [LogFormat.entry, hlastNum]
  rcases Nat.lt_trichotomy num (n + 1) with hless | heq | hgt
  · obtain ⟨b, hb⟩ : ∃ b, bs[num - 1]? = some b :=
      ⟨bs[num - 1], List.getElem?_eq_getElem (by omega)⟩
    obtain ⟨pre', post', hentry', hfile', -⟩ := LogFormat.entries_getElem? c fmt hb
    have hbias : asI64 (-(asU64 (64 * (((n + 1 : ℕ) : ℤ) - num)) : ℤ)) =
        64 * num - 64 * (n + 1) := by
      rw [asU64_of_small (by omega) (by omega), asI64_of_small (by omega) (by omega)]
      push_cast
      ring
    have hseek : onIndex (seekg (64 * num - 64 * (n + 1)) .cur) (s.atIndex (64 * n)) =
        .ok () (s.atIndex (64 * (num - 1))) := h.seekIndex_ok (by omega)
    obtain ⟨p, hp⟩ := (h.atIndex (64 * (num - 1 + 1))).readBlockImpl_ok hfile'
    rw [if_pos hless, run_bind_ok (hheld.toLastBlockIndex_ok hlen), atIndex_atIndex, hbias,
      run_bind_ok hseek, run_bind_ok ((h.atIndex (64 * (num - 1))).readEntry_ok rfl hentry'),
      atIndex_atIndex, LogFormat.entry, run_bind_ok hp, hb]
    exact ⟨_, rfl, (h.atIndex _).atBlock p⟩
  · obtain ⟨p, hp⟩ := hheld.readBlockImpl_ok hfile
    rw [if_neg (by omega), if_pos heq.symm, run_bind_ok hp, heq, Nat.add_sub_cancel, hlast]
    exact ⟨_, rfl, hheld.atBlock p⟩
  · rw [if_neg (by omega), if_neg (by omega), List.getElem?_eq_none (by omega)]
    exact ⟨_, rfl, hheld⟩

/-- Number zero is looked for before the beginning of the index. -/
theorem Holds.readBlock_zero (h : Holds c fmt s bs) :
    ∃ e s', readBlock fmt 0 s = .error e s' ∧ ¬ s'.Sound := by
  cases hlen : bs.length with
  | zero =>
    rw [readBlock, run_bind_error (h.toLastBlockIndex_error hlen)]
    exact ⟨_, _, rfl, not_sound_failIndex s⟩
  | succ n =>
    obtain ⟨last, pre, post, -, hentry, -, -, hnum⟩ := h.lastEntry hlen
    have hlt := h.length_lt
    have hbias : asI64 (-(asU64 (64 * (((n + 1 : ℕ) : ℤ) - (0 : ℕ))) : ℤ)) = -(64 * (n + 1)) := by
      rw [asU64_of_small (by omega) (by omega), asI64_of_small (by omega) (by omega)]
      push_cast
      ring
    have hseek : onIndex (seekg (-(64 * (n + 1))) .cur) (s.atIndex (64 * n)) = .error _ _ :=
      seekIndex_error (by omega)
    rw [readBlock, run_bind_ok (h.toLastBlockIndex_ok hlen),
      run_bind_ok ((h.atIndex (64 * n)).readEntry_ok rfl hentry), atIndex_atIndex]
    simp only [LogFormat.entry, hnum]
    rw [if_pos (by omega), run_bind_ok ((h.atIndex (64 * (n + 1))).toLastBlockIndex_ok hlen),
      atIndex_atIndex,
      hbias, run_bind_error hseek]
    exact ⟨_, _, rfl, not_sound_failIndex _⟩

/-- Before anything is read of an index with two entries or more. -/
theorem Holds.readIndices_eq (h : Holds c fmt s bs) {n : ℕ} (hlen : bs.length = n + 1) (hn : n ≠ 0)
    (beginNum blockCount : ℤ) :
    readIndices fmt beginNum blockCount s =
      if asI64 ((n + 1 : ℕ) - beginNum + 1) < 1 then .ok [] (s.atIndex (64 * (n + 1)))
      else takeIndices fmt (indexCount (n + 1) beginNum blockCount) (indexBias (n + 1) beginNum)
        (s.atIndex (64 * n)) := by
  obtain ⟨last, pre, post, -, hentry, -, -, hnum⟩ := h.lastEntry hlen
  rw [readIndices, run_bind_ok (h.toLastBlockIndex_ok hlen), run_bind_ok (h.tellLast _),
    if_neg (by omega),
    run_bind_ok ((h.atIndex (64 * n)).readEntry_ok rfl hentry), atIndex_atIndex]
  simp only [LogFormat.entry, hnum]
  split_ifs
  · rfl
  · rw [run_bind_ok ((h.atIndex (64 * (n + 1))).toLastBlockIndex_ok hlen), atIndex_atIndex]

/-- One entry at the position zero is taken for none. -/
theorem Holds.readIndices_one (h : Holds c fmt s bs) (hlen : bs.length = 1)
    (beginNum blockCount : ℤ) :
    readIndices fmt beginNum blockCount s = .ok [] (s.atIndex 0) := by
  rw [readIndices, run_bind_ok (h.toLastBlockIndex_ok hlen), run_bind_ok (h.tellLast _),
    if_pos (by decide)]
  rfl

theorem Holds.readIndices_empty (h : Holds c fmt s bs) (hlen : bs.length = 0)
    (beginNum blockCount : ℤ) :
    readIndices fmt beginNum blockCount s = .error (.std "basic_ios::clear") s.failIndex := by
  rw [readIndices, run_bind_error (h.toLastBlockIndex_error hlen)]

section Take

variable {n i : ℕ} {count bias : ℤ}

theorem takeIndices_tooMany (hmax : maxIndices < asU64 count) :
    takeIndices fmt count bias s = .error (.std "vector::_M_default_append") s := by
  rw [takeIndices, run_bind_error]
  simp [throwWhen, hmax]

variable (hmax : ¬ maxIndices < asU64 count)
include hmax

theorem throwWhen_max (msg : String) :
    throwWhen (maxIndices < asU64 count) (.std msg) s = .ok () s := by
  simp [throwWhen, hmax]

theorem takeIndices_before (hbias : 64 * n + bias < 0) :
    ∃ e s', takeIndices fmt count bias (s.atIndex (64 * n)) = .error e s' ∧ ¬ s'.Sound := by
  have hseek : onIndex (seekg bias .cur) (s.atIndex (64 * n)) = .error _ _ :=
    seekIndex_error (by exact_mod_cast hbias)
  rw [takeIndices, run_bind_ok (throwWhen_max hmax _), run_bind_error hseek]
  exact ⟨_, _, rfl, not_sound_failIndex _⟩

theorem Holds.takeIndices_none (h : Holds c fmt s bs) (hbias : 64 * n + bias = (64 * i : ℕ))
    (hcount : count = 0) :
    takeIndices fmt count bias (s.atIndex (64 * n)) =
      .error (.undefined "&idxs[0]") (s.atIndex (64 * i)) := by
  have hseek : onIndex (seekg bias .cur) (s.atIndex (64 * n)) = .ok () (s.atIndex (64 * i)) :=
    h.seekIndex_ok (by exact_mod_cast hbias)
  have hzero : throwWhen (count = 0) (.undefined "&idxs[0]") (s.atIndex (64 * i)) =
      .error (.undefined "&idxs[0]") (s.atIndex (64 * i)) := by
    simp [throwWhen, hcount]
  rw [takeIndices, run_bind_ok (throwWhen_max hmax _), run_bind_ok hseek, run_bind_error hzero]

theorem Holds.takeIndices_eq (h : Holds c fmt s bs) (hbias : 64 * n + bias = (64 * i : ℕ))
    (hcount : count ≠ 0) :
    takeIndices fmt count bias (s.atIndex (64 * n)) =
      onIndex (fmt.index.readMany count.toNat) (s.atIndex (64 * i)) := by
  have hseek : onIndex (seekg bias .cur) (s.atIndex (64 * n)) = .ok () (s.atIndex (64 * i)) :=
    h.seekIndex_ok (by exact_mod_cast hbias)
  have hzero : throwWhen (count = 0) (.undefined "&idxs[0]") (s.atIndex (64 * i)) =
      .ok () (s.atIndex (64 * i)) := by
    simp [throwWhen, hcount]
  rw [takeIndices, run_bind_ok (throwWhen_max hmax _), run_bind_ok hseek, run_bind_ok hzero]

theorem Holds.takeIndices_ok (h : Holds c fmt s bs) (hbias : 64 * n + bias = (64 * i : ℕ))
    (hcount : count ≠ 0) (hin : i + count.toNat ≤ bs.length) :
    ∃ s', takeIndices fmt count bias (s.atIndex (64 * n)) =
        .ok (((fmt.entries c 0 bs).drop i).take count.toNat) s' ∧ Holds c fmt s' bs := by
  have hheld := h.atIndex (64 * i)
  have hread := onIndex_ok (Pod.readMany_ok hheld.sound.2 hheld.index rfl (by simpa using hin))
  rw [h.takeIndices_eq hmax hbias hcount, hread]
  exact ⟨_, rfl, h.atIndex _⟩

theorem Holds.takeIndices_after (h : Holds c fmt s bs) (hbias : 64 * n + bias = (64 * i : ℕ))
    (hcount : count ≠ 0) (hout : bs.length < i + count.toNat) :
    ∃ e s', takeIndices fmt count bias (s.atIndex (64 * n)) = .error e s' ∧ ¬ s'.Sound := by
  have hend : (s.atIndex (64 * i)).indexStream.data.length <
      (s.atIndex (64 * i)).indexStream.pos + 64 * count.toNat := by
    rw [(h.atIndex _).index_length]
    simp only [ChainStream.atIndex]
    omega
  rw [h.takeIndices_eq hmax hbias hcount, onIndex, Pod.readMany_error hend]
  exact ⟨_, _, rfl, by simp [Sound]⟩

end Take

theorem seekBack_ok {pre post : List β} {k : ℕ} (hs : s.Sound)
    (hdata : s.blockStream.data = pre ++ post)
    (hk : post.length = k) :
    onBlocks (seekg (-(k : ℤ)) .fin) s = .ok () (s.atBlock pre.length) :=
  onBlocks_ok (seekg_ok hs.1 (by simp [target, hdata, hk]))

theorem readBlocks_ok {α : Type} {k : ℕ} {pod : Pod α β k} {pre post : List β} {a : α}
    (hs : s.Sound)
    (hdata : s.blockStream.data = pre ++ (pod.bytes a ++ post)) :
    onBlocks pod.readOne (s.atBlock pre.length) = .ok a (s.atBlock (pre.length + k)) := by
  have hread := Pod.readOne_ok (f := (s.atBlock pre.length).blockStream) pre post hs.1 hdata rfl
  exact onBlocks_ok hread

/-- What the end of the blocks' file is, and that the head is found there. -/
theorem Files.readHead_ok (h : Files c fmt s bs) {pre : List β} {last : SignedBlock}
    (hfile : fmt.blocksFile 0 bs = pre ++ (fmt.frame pre.length last ++ [])) :
    let p := (pre ++ fmt.pack last).length
    (∀ k, toLastBlockDesc (s.atBlock k) = .ok () (s.atBlock p)) ∧
      onBlocks fmt.desc.readOne (s.atBlock p) =
        .ok ⟨last.blockNum, pre.length, (fmt.pack last).length⟩ (s.atBlock (p + 64)) ∧
      ∃ q, ∀ k, readHead fmt (s.atBlock k) = .ok last (s.atBlock q) := by
  let desc : BlockDesc := ⟨last.blockNum, pre.length, (fmt.pack last).length⟩
  have hdata : s.blockStream.data =
      (pre ++ fmt.pack last) ++ (fmt.desc.bytes desc ++ fmt.eof.bytes blockEndEof) := by
    rw [h.blocks, hfile, LogFormat.frame]
    simp [desc]
  have hseek : ∀ k, toLastBlockDesc (s.atBlock k) =
      .ok () (s.atBlock (pre ++ fmt.pack last).length) := by
    intro k
    exact seekBack_ok (s := s.atBlock k) (k := 4 + 64) h.sound hdata
      (by rw [List.length_append, fmt.desc.length_bytes, fmt.eof.length_bytes])
  have hdesc := readBlocks_ok h.sound hdata
  obtain ⟨q, hq⟩ := (h.atBlock ((pre ++ fmt.pack last).length + 64)).readBlockImpl_ok hfile
  refine ⟨hseek, hdesc, q, fun k => ?_⟩
  rw [readHead, run_bind_ok (hseek k), run_bind_ok hdesc]
  exact hq

/-- What `open` finds of files that hold a list of blocks. -/
theorem Files.checkFiles_ok (h : Files c fmt s bs) (hhead : s.headBlock = none) :
    ∃ s', checkFiles fmt s = .ok () s' ∧ Holds c fmt s' bs := by
  have hget : (get : EStateM Fault (ChainStream β) (ChainStream β)) s = .ok s s := rfl
  rcases Nat.eq_zero_or_pos bs.length with hzero | hpos
  · obtain rfl := List.eq_nil_of_length_eq_zero hzero
    refine ⟨s, ?_, h, hhead⟩
    rw [checkFiles, run_bind_ok hget, h.blocks, h.index]
    rfl
  · obtain ⟨n, hlen⟩ : ∃ n, bs.length = n + 1 := ⟨bs.length - 1, by omega⟩
    obtain ⟨last, pre, post, hlast, hentry, hfile, rfl, -⟩ := h.lastEntry hlen
    obtain ⟨hseek, -, -⟩ := h.readHead_ok hfile
    obtain ⟨-, hdesc, -⟩ := (h.atIndex (64 * n)).readHead_ok hfile
    obtain ⟨-, -, q, hread⟩ := (h.atIndex (64 * (n + 1))).readHead_ok hfile
    have hentry' :=
      ((h.atBlock ((pre ++ fmt.pack last).length + 64)).atIndex (64 * n)).readEntry_ok rfl hentry
    simp only [atIndex_atBlock] at hdesc hread
    simp only [atIndex_atIndex] at hentry'
    have heof : s.blockStream.data = (pre ++ fmt.pack last ++
        fmt.desc.bytes ⟨last.blockNum, pre.length, (fmt.pack last).length⟩) ++
          (fmt.eof.bytes blockEndEof ++ []) := by
      rw [h.blocks, hfile, LogFormat.frame]
      simp
    have hblocks : 0 < s.blockStream.data.length := by
      rw [heof, List.append_nil, List.length_append, fmt.eof.length_bytes]
      omega
    have hindex : 0 < s.indexStream.data.length := by
      rw [h.index_length, hlen]
      omega
    have htoEof : toEndEof s = .ok () (s.atBlock _) :=
      seekBack_ok (k := 4) h.sound heof (by rw [List.append_nil, fmt.eof.length_bytes])
    have hmark := readBlocks_ok h.sound heof
    have hmatch : ∀ (b : Bool) (msg : String) (t : ChainStream β), b = false →
        throwWhen b (.fc msg) t = .ok () t := by
      rintro _ _ _ rfl
      rfl
    have hfiles := (h.atBlock q).atIndex (64 * (n + 1))
    refine ⟨{ (s.atBlock q).atIndex (64 * (n + 1)) with headBlock := some last }, ?_,
      ⟨hfiles.numbered, hfiles.blocks, hfiles.index, hfiles.sound⟩,
      by rw [List.getLast?_eq_getElem?, hlen, Nat.add_sub_cancel, hlast]⟩
    rw [checkFiles, run_bind_ok hget, if_neg (by omega), if_neg (by omega),
      if_pos ⟨hindex, hblocks⟩, run_bind_ok htoEof, run_bind_ok hmark, run_bind_ok (hmatch _ _ _ (by simp)),
      run_bind_ok (hseek _),
      run_bind_ok ((h.atBlock _).toLastBlockIndex_ok hlen), run_bind_ok hdesc, run_bind_ok hentry',
      run_bind_ok (hmatch _ _ _ (by simp [LogFormat.entry])), run_bind_ok (hread _)]
    rfl

/-- The files of a log are read again as they are. -/
theorem Holds.reopen_ok (h : Holds c fmt s bs) :
    ∃ s', reopen fmt s = .ok () s' ∧ Holds c fmt s' bs :=
  Files.checkFiles_ok ⟨h.numbered, h.blocks, h.index, rfl, rfl⟩ rfl

end Steps

end XmaxChain
