import XmaxChain.Types
import Mathlib.Tactic

/-!
# The message buffer

Bytes from the network go into a chain of buffers of one length, with an index where to read next and
one where to write next. What is unread is a list of bytes, and each operation does to it what its name
says, wherever the ends of the buffers fall.
-/

namespace XmaxChain

/-- The chain as one piece of memory, of which each `len` bytes are a buffer. An index is the number of
a buffer and a place in it. -/
structure MessageBuffer (len : ℕ) where
  memory : Bytes := List.replicate len 0
  buffers : ℕ := 1
  readInd : ℕ × ℕ := (0, 0)
  writeInd : ℕ × ℕ := (0, 0)

namespace MessageBuffer

variable {len : ℕ}

def addBuffer (mb : MessageBuffer len) : MessageBuffer len :=
  { mb with memory := mb.memory ++ List.replicate len 0, buffers := mb.buffers + 1 }

/-- The number is computed in 32 bits and kept in an `int`; with a negative one no buffer is added. -/
def buffersToAdd (len bytes : ℕ) : ℕ :=
  let n := u32 (bytes / len + 1)
  if n < 2 ^ 31 then n else 0

def addSpace (mb : MessageBuffer len) (bytes : ℕ) : MessageBuffer len :=
  addBuffer^[buffersToAdd len bytes] mb

/-- The first buffer is kept. -/
def reset (mb : MessageBuffer len) : MessageBuffer len :=
  { memory := mb.memory.take len, buffers := 1, readInd := (0, 0), writeInd := (0, 0) }

def bytesToRead (mb : MessageBuffer len) : ℕ :=
  u32 ((mb.writeInd.1 - mb.readInd.1) * len + mb.writeInd.2 - mb.readInd.2)

def totalBytes (mb : MessageBuffer len) : ℕ := len * mb.buffers

/-- All of this is computed in 32 bits. -/
def bytesToWrite (mb : MessageBuffer len) : ℕ :=
  u32 (mb.totalBytes - mb.writeInd.1 * len - mb.writeInd.2)

/-- The sum is a 32-bit one. -/
def advanceIndex (len : ℕ) (index : ℕ × ℕ) (bytes : ℕ) : ℕ × ℕ :=
  (index.1 + u32 (bytes + index.2) / len, u32 (bytes + index.2) % len)

/-- Buffers that were read to their end are taken off the chain. -/
def advanceReadPtr (mb : MessageBuffer len) (bytes : ℕ) : MessageBuffer len :=
  let readInd := advanceIndex len mb.readInd bytes
  if readInd = mb.writeInd then { mb with readInd }.reset
  else
    { memory := mb.memory.drop (readInd.1 * len)
      buffers := mb.buffers - readInd.1
      readInd := (0, readInd.2)
      writeInd := (mb.writeInd.1 - readInd.1, mb.writeInd.2) }

/-- Buffers are added until the write pointer is in one. -/
def advanceWritePtr (mb : MessageBuffer len) (bytes : ℕ) : MessageBuffer len :=
  let writeInd := advanceIndex len mb.writeInd bytes
  addBuffer^[writeInd.1 + 1 - mb.buffers] { mb with writeInd }

/-- The bytes from an index to the end of its buffer. -/
def fromIndex (mb : MessageBuffer len) (index : ℕ × ℕ) : Bytes :=
  (mb.memory.drop (index.1 * len + index.2)).take (len - index.2)

/-- A copy that goes past the end of the buffer goes on in the next one, with the rest of the size as
fuel. -/
def readLoop : ℕ → MessageBuffer len → ℕ → Option (Bytes × MessageBuffer len)
  | fuel, mb, size =>
    if mb.bytesToRead < size then none
    else if u32 (mb.readInd.2 + size) ≤ len then
      some ((mb.fromIndex mb.readInd).take size, mb.advanceReadPtr size)
    else
      match fuel with
      | 0 => none
      | fuel + 1 =>
        let numInBuffer := len - mb.readInd.2
        (readLoop fuel (mb.advanceReadPtr numInBuffer) (size - numInBuffer)).map fun r =>
          (mb.fromIndex mb.readInd ++ r.1, r.2)

/-- `none` is `false`: there are not as many bytes. -/
def read (mb : MessageBuffer len) (size : ℕ) : Option (Bytes × MessageBuffer len) :=
  readLoop size mb size

def peekLoop (mb : MessageBuffer len) : ℕ → ℕ → ℕ × ℕ → Option Bytes
  | fuel, size, index =>
    if mb.bytesToRead < size then none
    else if u32 (index.2 + size) ≤ len then some ((mb.fromIndex index).take size)
    else
      match fuel with
      | 0 => none
      | fuel + 1 =>
        let numInBuffer := len - index.2
        (peekLoop mb fuel (size - numInBuffer) (advanceIndex len index numInBuffer)).map
          (mb.fromIndex index ++ ·)

def peek (mb : MessageBuffer len) (size : ℕ) (index : ℕ × ℕ) : Option Bytes :=
  peekLoop mb size size index

/-- What `async_read_some` puts at the write pointer. -/
def receive (mb : MessageBuffer len) (bytes : Bytes) : MessageBuffer len :=
  let pos := mb.writeInd.1 * len + mb.writeInd.2
  { mb with memory := mb.memory.take pos ++ bytes ++ mb.memory.drop (pos + bytes.length) }

/-! ## What is unread -/

def readPos (mb : MessageBuffer len) : ℕ := mb.readInd.1 * len + mb.readInd.2

def writePos (mb : MessageBuffer len) : ℕ := mb.writeInd.1 * len + mb.writeInd.2

/-- The bytes that are to be read. -/
def unread (mb : MessageBuffer len) : Bytes :=
  (mb.memory.drop mb.readPos).take (mb.writePos - mb.readPos)

/-- Both indices are in the chain, the one to read at not after the other. -/
structure Ok (mb : MessageBuffer len) : Prop where
  length : mb.memory.length = mb.buffers * len
  read_lt : mb.readInd.2 < len
  write_lt : mb.writeInd.2 < len
  write_buffer : mb.writeInd.1 < mb.buffers
  le : mb.readPos ≤ mb.writePos

/-- No sum of 32 bits overflows on the way to the end of what is unread. -/
def Counts (mb : MessageBuffer len) : Prop := mb.readInd.2 + mb.unread.length < 2 ^ 32

section Ok

variable {mb : MessageBuffer len}

theorem index_le {i j : ℕ × ℕ} (hj : j.2 < len) (h : i.1 * len + i.2 ≤ j.1 * len + j.2) :
    i.1 ≤ j.1 := by
  by_contra hlt
  have : (j.1 + 1) * len ≤ i.1 * len := Nat.mul_le_mul_right _ (by omega)
  rw [Nat.add_mul, Nat.one_mul] at this
  omega

theorem index_inj {i j : ℕ × ℕ} (hi : i.2 < len) (hj : j.2 < len)
    (h : i.1 * len + i.2 = j.1 * len + j.2) : i = j := by
  have heq : i.1 = j.1 := (index_le hj h.le).antisymm (index_le hi h.ge)
  rw [heq] at h
  exact Prod.ext heq (by omega)

theorem advanceIndex_pos (len : ℕ) (index : ℕ × ℕ) {bytes : ℕ} (h : bytes + index.2 < 2 ^ 32) :
    (advanceIndex len index bytes).1 * len + (advanceIndex len index bytes).2 =
      index.1 * len + index.2 + bytes := by
  have := Nat.div_add_mod' (bytes + index.2) len
  rw [advanceIndex, u32_of_lt h, Nat.add_mul]
  omega

theorem Ok.new (hlen : 0 < len) : ({} : MessageBuffer len).Ok :=
  ⟨by simp, hlen, hlen, Nat.zero_lt_one, le_rfl⟩

theorem Ok.writePos_lt (h : mb.Ok) : mb.writePos < mb.buffers * len := by
  have : (mb.writeInd.1 + 1) * len ≤ mb.buffers * len := Nat.mul_le_mul_right _ h.write_buffer
  have := h.write_lt
  rw [Nat.add_mul, Nat.one_mul] at *
  rw [writePos]
  omega

theorem Ok.length_unread (h : mb.Ok) : mb.unread.length = mb.writePos - mb.readPos := by
  have := h.writePos_lt
  rw [unread, List.length_take, List.length_drop, h.length]
  omega

theorem Ok.bytesToRead_eq (h : mb.Ok) : mb.bytesToRead = u32 mb.unread.length := by
  have hle := index_le h.write_lt h.le
  have hmul : (mb.writeInd.1 - mb.readInd.1) * len = mb.writeInd.1 * len - mb.readInd.1 * len :=
    Nat.sub_mul ..
  have hle' : mb.readInd.1 * len ≤ mb.writeInd.1 * len := Nat.mul_le_mul_right _ hle
  have hpos := h.le
  rw [h.length_unread, bytesToRead, hmul]
  rw [readPos, writePos] at *
  congr 1
  omega

/-- The bytes of the whole chain fit into 32 bits. -/
theorem Ok.counts_of_totalBytes (h : mb.Ok) (htotal : mb.totalBytes < 2 ^ 32) : mb.Counts := by
  have hend := h.writePos_lt
  have hle := h.le
  rw [totalBytes, Nat.mul_comm] at htotal
  rw [Counts, h.length_unread]
  rw [readPos] at *
  omega

theorem Ok.unread_new : ({} : MessageBuffer len).unread = [] := by
  simp [unread, readPos, writePos]

theorem Ok.reset (h : mb.Ok) : mb.reset.Ok ∧ mb.reset.unread = [] := by
  have hlen : len ≤ mb.memory.length := by
    rw [h.length]
    exact Nat.le_mul_of_pos_left _ (Nat.zero_lt_of_lt h.write_buffer)
  have hpos : 0 < len := Nat.zero_lt_of_lt h.read_lt
  refine ⟨⟨?_, hpos, hpos, Nat.zero_lt_one, le_rfl⟩, ?_⟩
  · simp [MessageBuffer.reset, hlen]
  · simp [MessageBuffer.reset, unread, readPos, writePos]

theorem Ok.advanceReadPtr (h : mb.Ok) (hcounts : mb.Counts) {bytes : ℕ}
    (hbytes : bytes ≤ mb.unread.length) :
    (mb.advanceReadPtr bytes).Ok ∧ (mb.advanceReadPtr bytes).unread = mb.unread.drop bytes := by
  have hpos : (advanceIndex len mb.readInd bytes).1 * len + (advanceIndex len mb.readInd bytes).2 =
      mb.readInd.1 * len + mb.readInd.2 + bytes :=
    advanceIndex_pos _ _ (by rw [Counts] at hcounts; omega)
  have hlt : (advanceIndex len mb.readInd bytes).2 < len := Nat.mod_lt _ (Nat.zero_lt_of_lt h.read_lt)
  rw [h.length_unread] at hbytes
  rw [MessageBuffer.advanceReadPtr]
  set i := advanceIndex len mb.readInd bytes with hi
  have hread : i.1 * len + i.2 = mb.readPos + bytes := hpos
  have hle := h.le
  have hend := h.writePos_lt
  split_ifs with heq
  · -- everything has been read
    have hall : mb.readPos + bytes = mb.writePos := by
      rw [← hread, heq, writePos]
    have hok : ({ mb with readInd := i } : MessageBuffer len).Ok :=
      ⟨h.length, hlt, h.write_lt, h.write_buffer, by rw [readPos, heq]; exact le_rfl⟩
    refine ⟨hok.reset.1, hok.reset.2.trans (List.drop_eq_nil_of_le ?_).symm⟩
    rw [h.length_unread]
    omega
  · have hbuf : i.1 ≤ mb.writeInd.1 := index_le h.write_lt (by
      rw [hread]
      exact (Nat.add_le_of_le_sub' hle hbytes))
    have hmul : (mb.writeInd.1 - i.1) * len + i.1 * len = mb.writeInd.1 * len := by
      rw [← Nat.add_mul, Nat.sub_add_cancel hbuf]
    have hmulBuffers : (mb.buffers - i.1) * len = mb.buffers * len - i.1 * len := Nat.sub_mul ..
    have hw : mb.writePos = mb.writeInd.1 * len + mb.writeInd.2 := rfl
    refine ⟨⟨?_, hlt, h.write_lt, ?_, ?_⟩, ?_⟩
    · rw [List.length_drop, h.length, hmulBuffers]
    · have := h.write_buffer
      simp only
      omega
    · simp only [readPos, writePos, Nat.zero_mul, Nat.zero_add]
      omega
    · simp only [unread, readPos, writePos, Nat.zero_mul, Nat.zero_add, List.drop_drop, List.drop_take]
      rw [show mb.readInd.1 * len + mb.readInd.2 + bytes = i.1 * len + i.2 from hread.symm]
      congr 1
      rw [readPos] at hread
      omega

theorem Counts.advanceReadPtr (hcounts : mb.Counts) (h : mb.Ok) {bytes : ℕ}
    (hbytes : bytes ≤ mb.unread.length) : (mb.advanceReadPtr bytes).Counts := by
  have hunread := (h.advanceReadPtr hcounts hbytes).2
  rw [Counts] at hcounts ⊢
  rw [hunread, List.length_drop]
  have hind : (mb.advanceReadPtr bytes).readInd.2 ≤ mb.readInd.2 + bytes := by
    rw [MessageBuffer.advanceReadPtr, advanceIndex, u32_of_lt (by omega)]
    simp only
    split_ifs
    · exact Nat.zero_le _
    · exact (Nat.mod_le _ _).trans (Nat.add_comm _ _).le
  omega

/-- What lies between two places after bytes were written at the second, up to the end of these. -/
theorem take_drop_written {memory bytes : Bytes} {r w : ℕ} (rest : Bytes) (hrw : r ≤ w)
    (hw : w + bytes.length ≤ memory.length) :
    ((memory.take w ++ bytes ++ memory.drop (w + bytes.length) ++ rest).drop r).take
        (w + bytes.length - r) = (memory.drop r).take (w - r) ++ bytes := by
  have htake : memory.take w = memory.take r ++ (memory.drop r).take (w - r) := by
    rw [← List.take_add, Nat.add_sub_cancel' hrw]
  have hr : (memory.take r).length = r := List.length_take_of_le (by omega)
  have hlen : ((memory.drop r).take (w - r) ++ bytes).length = w + bytes.length - r := by
    rw [List.length_append, List.length_take, List.length_drop]
    omega
  rw [htake, List.append_assoc, List.append_assoc, List.append_assoc, List.drop_left' hr, ← List.append_assoc,
    List.take_left' hlen]

theorem addBuffers_eq (n : ℕ) : addBuffer^[n] mb =
    { mb with memory := mb.memory ++ List.replicate (n * len) 0, buffers := mb.buffers + n } := by
  induction n generalizing mb with
  | zero => simp
  | succ n ih =>
    rw [Function.iterate_succ_apply, ih]
    simp only [addBuffer, List.append_assoc, List.replicate_append_replicate, MessageBuffer.mk.injEq,
      and_true]
    refine ⟨?_, by omega⟩
    rw [show len + n * len = (n + 1) * len by ring]

theorem addSpace_readInd (bytes : ℕ) : (mb.addSpace bytes).readInd = mb.readInd := by
  rw [addSpace, addBuffers_eq]

theorem receive_readInd (bytes : Bytes) : (mb.receive bytes).readInd = mb.readInd := rfl

theorem receive_writeInd (bytes : Bytes) : (mb.receive bytes).writeInd = mb.writeInd := rfl

theorem receive_buffers (bytes : Bytes) : (mb.receive bytes).buffers = mb.buffers := rfl

theorem advanceWritePtr_readInd (bytes : ℕ) : (mb.advanceWritePtr bytes).readInd = mb.readInd := by
  rw [advanceWritePtr, addBuffers_eq]

theorem Ok.addBuffers (h : mb.Ok) (n : ℕ) :
    (addBuffer^[n] mb).Ok ∧ (addBuffer^[n] mb).unread = mb.unread := by
  rw [addBuffers_eq]
  refine ⟨⟨?_, h.read_lt, h.write_lt, h.write_buffer.trans_le (Nat.le_add_right _ _), h.le⟩, ?_⟩
  · simp [h.length, Nat.add_mul]
  · have hend := h.writePos_lt
    have hle := h.le
    simp only [unread, readPos, writePos] at *
    rw [List.drop_append_of_le_length (by rw [h.length]; omega),
      List.take_append_of_le_length (by rw [List.length_drop, h.length]; omega)]

theorem Ok.addSpace (h : mb.Ok) (bytes : ℕ) :
    (mb.addSpace bytes).Ok ∧ (mb.addSpace bytes).unread = mb.unread := h.addBuffers _

/-- The write pointer is no further in its buffer than all that is to be read reaches. -/
theorem Ok.writeInd_le (h : mb.Ok) : mb.writeInd.2 ≤ mb.readInd.2 + mb.unread.length := by
  have hle := h.le
  have hbuf : mb.readInd.1 ≤ mb.writeInd.1 := index_le h.write_lt hle
  have hmul : mb.readInd.1 * len ≤ mb.writeInd.1 * len := Nat.mul_le_mul_right _ hbuf
  rw [h.length_unread]
  rw [readPos, writePos] at *
  omega

/-- The bytes that were transferred are to be read after those that were there. -/
theorem Ok.receive (h : mb.Ok) {bytes : Bytes}
    (hspace : mb.writePos + bytes.length ≤ mb.buffers * len) (hcount : bytes.length + mb.writeInd.2 < 2 ^ 32) :
    ((mb.receive bytes).advanceWritePtr bytes.length).Ok ∧
      ((mb.receive bytes).advanceWritePtr bytes.length).unread = mb.unread ++ bytes := by
  have hpos : (advanceIndex len mb.writeInd bytes.length).1 * len +
      (advanceIndex len mb.writeInd bytes.length).2 = mb.writeInd.1 * len + mb.writeInd.2 + bytes.length :=
    advanceIndex_pos _ _ hcount
  have hlt : (advanceIndex len mb.writeInd bytes.length).2 < len :=
    Nat.mod_lt _ (Nat.zero_lt_of_lt h.read_lt)
  rw [advanceWritePtr, MessageBuffer.receive, addBuffers_eq]
  simp only
  set i := advanceIndex len mb.writeInd bytes.length
  have hw : i.1 * len + i.2 = mb.writePos + bytes.length := hpos
  have hlen : (mb.memory.take mb.writePos ++ bytes ++ mb.memory.drop (mb.writePos + bytes.length)).length =
      mb.buffers * len := by
    rw [List.length_append, List.length_append, List.length_take, List.length_drop, h.length]
    omega
  have hle := h.le
  refine ⟨⟨?_, h.read_lt, hlt, ?_, ?_⟩, ?_⟩
  · rw [List.length_append, ← writePos, hlen, List.length_replicate]
    ring
  · simp only
    omega
  · simp only [readPos, writePos, hw] at hle ⊢
    omega
  · have hend : mb.writePos + bytes.length ≤ mb.memory.length := by rwa [h.length]
    have hwritten := take_drop_written (List.replicate ((i.1 + 1 - mb.buffers) * len) 0) hle hend
    simp only [unread, readPos, writePos] at hw hwritten ⊢
    rwa [hw]

/-- What an index further on points at, inside what is unread. -/
theorem Ok.fromIndex_take (h : mb.Ok) {index : ℕ × ℕ} {size : ℕ} (done : ℕ) (hin : index.2 + size ≤ len)
    (hindex : index.1 * len + index.2 = mb.readPos + done) (hsize : done + size ≤ mb.unread.length) :
    (mb.fromIndex index).take size = (mb.unread.drop done).take size := by
  rw [h.length_unread] at hsize
  rw [fromIndex, hindex, unread, List.drop_take, List.drop_drop, List.take_take, List.take_take,
    min_eq_left (by omega), min_eq_left (by omega)]

theorem Ok.fromIndex_eq (h : mb.Ok) {index : ℕ × ℕ} (done : ℕ)
    (hindex : index.1 * len + index.2 = mb.readPos + done) (hdone : done + (len - index.2) ≤ mb.unread.length) :
    mb.fromIndex index = (mb.unread.drop done).take (len - index.2) := by
  rcases Nat.le_total index.2 len with hin | hin
  · rw [← h.fromIndex_take done (Nat.add_sub_cancel' hin).le hindex hdone, fromIndex, List.take_take, min_self]
  · simp [fromIndex, Nat.sub_eq_zero_of_le hin]

theorem Ok.read_of_le (h : mb.Ok) (hcounts : mb.Counts) {size : ℕ} (hsize : size ≤ mb.unread.length) :
    ∃ mb', mb.read size = some (mb.unread.take size, mb') ∧ mb'.Ok ∧ mb'.Counts ∧
      mb'.unread = mb.unread.drop size := by
  suffices hloop : ∀ fuel, size ≤ fuel → ∃ mb', readLoop fuel mb size = some (mb.unread.take size, mb') ∧
      mb'.Ok ∧ mb'.Counts ∧ mb'.unread = mb.unread.drop size from hloop size le_rfl
  intro fuel hfuel
  induction fuel generalizing mb size with
  | zero =>
    have hzero : size = 0 := Nat.le_zero.1 hfuel
    subst hzero
    have hread := h.read_lt
    have hin : u32 mb.readInd.2 ≤ len := (Nat.mod_le _ _).trans hread.le
    obtain ⟨hok, hunread⟩ := h.advanceReadPtr hcounts hsize
    exact ⟨_, by simp [readLoop, hin], hok, hcounts.advanceReadPtr h hsize, hunread⟩
  | succ fuel ih =>
    have hread := h.read_lt
    have hcount : ¬ mb.bytesToRead < size := by
      rw [h.bytesToRead_eq, u32_of_lt (by rw [Counts] at hcounts; omega)]
      omega
    have hsum : u32 (mb.readInd.2 + size) = mb.readInd.2 + size :=
      u32_of_lt (by rw [Counts] at hcounts; omega)
    rw [readLoop, if_neg hcount, hsum]
    split_ifs with hin
    · obtain ⟨hok, hunread⟩ := h.advanceReadPtr hcounts hsize
      exact ⟨_, by rw [h.fromIndex_take 0 hin rfl (by omega), List.drop_zero], hok,
        hcounts.advanceReadPtr h hsize, hunread⟩
    · -- the rest of this buffer first, then from the next one
      have hfirst : len - mb.readInd.2 ≤ mb.unread.length := by omega
      obtain ⟨hok, hunread⟩ := h.advanceReadPtr hcounts hfirst
      have hlength := congrArg List.length hunread
      rw [List.length_drop] at hlength
      obtain ⟨mb', hrest, hok', hcounts', hunread'⟩ := ih hok (hcounts.advanceReadPtr h hfirst)
        (show size - (len - mb.readInd.2) ≤ _ by omega) (by omega)
      refine ⟨mb', ?_, hok', hcounts', ?_⟩
      · simp only
        rw [hrest, Option.map_some, h.fromIndex_eq 0 rfl (by omega), hunread, List.drop_zero,
          ← List.take_add, Nat.add_sub_cancel' (by omega)]
      · rw [hunread', hunread, List.drop_drop, Nat.add_sub_cancel' (by omega)]

theorem Ok.read_of_lt (h : mb.Ok) (hcounts : mb.Counts) {size : ℕ} (hsize : mb.unread.length < size) :
    mb.read size = none := by
  have hcount : mb.bytesToRead < size := by
    rwa [h.bytesToRead_eq, u32_of_lt (by rw [Counts] at hcounts; omega)]
  unfold MessageBuffer.read readLoop
  simp [hcount]

/-- What is peeked at stays unread. -/
theorem Ok.peek_of_le (h : mb.Ok) (hcounts : mb.Counts) {size : ℕ} (hsize : size ≤ mb.unread.length) :
    mb.peek size mb.readInd = some (mb.unread.take size) := by
  suffices hloop : ∀ fuel left done index, left ≤ fuel → done + left ≤ mb.unread.length → index.2 < len →
      index.1 * len + index.2 = mb.readPos + done →
      peekLoop mb fuel left index = some ((mb.unread.drop done).take left) by
    have := hloop size size 0 mb.readInd le_rfl (by omega) h.read_lt rfl
    rwa [List.drop_zero] at this
  intro fuel
  induction fuel with
  | zero =>
    intro left done index hleft hdone hlt hindex
    have hzero : left = 0 := Nat.le_zero.1 hleft
    subst hzero
    have hin : u32 index.2 ≤ len := (Nat.mod_le _ _).trans hlt.le
    simp [peekLoop, hin]
  | succ fuel ih =>
    intro left done index hleft hdone hlt hindex
    have hcount : ¬ mb.bytesToRead < left := by
      rw [h.bytesToRead_eq, u32_of_lt (by rw [Counts] at hcounts; omega)]
      omega
    -- the index is no further from its buffer than the read index and what was peeked at
    have hplace : index.2 ≤ mb.readInd.2 + done := by
      have hle : mb.readInd.1 * len ≤ index.1 * len :=
        Nat.mul_le_mul_right _ (index_le hlt (by rw [readPos] at hindex; omega))
      rw [readPos] at hindex
      omega
    have hsum : u32 (index.2 + left) = index.2 + left := u32_of_lt (by rw [Counts] at hcounts; omega)
    rw [peekLoop, if_neg hcount, hsum]
    split_ifs with hin
    · rw [h.fromIndex_take done hin hindex hdone]
    · have hpos := advanceIndex_pos len index
        (show len - index.2 + index.2 < 2 ^ 32 by rw [Counts] at hcounts; omega)
      simp only
      rw [ih (left - (len - index.2)) (done + (len - index.2)) _ (by omega) (by omega)
          (Nat.mod_lt _ (by omega)) (by omega), h.fromIndex_eq done hindex (by omega), Option.map_some,
        ← List.drop_drop, ← List.take_add, Nat.add_sub_cancel' (by omega)]

theorem Ok.peek_of_lt (h : mb.Ok) (hcounts : mb.Counts) {size : ℕ} (hsize : mb.unread.length < size)
    (index : ℕ × ℕ) : mb.peek size index = none := by
  have hcount : mb.bytesToRead < size := by
    rwa [h.bytesToRead_eq, u32_of_lt (by rw [Counts] at hcounts; omega)]
  unfold MessageBuffer.peek peekLoop
  simp [hcount]

end Ok

end MessageBuffer

end XmaxChain
