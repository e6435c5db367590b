import XmaxChain.MessageBuffer

/-!
# The message buffer is a queue of bytes

Whatever is done to a message buffer, it hands the bytes that were put into it out again in their order.
Beside the chain it keeps a count of its buffers, and exits when the two differ.
-/

namespace XmaxChain

/-- The process exits, or an assertion throws. -/
inductive BufferFault
  | exits
  | asserts

/-- The chain, and the count of its buffers. -/
structure CheckedBuffer (len : ℕ) where
  mb : MessageBuffer len := {}
  sanityCheck : ℕ := 1

namespace CheckedBuffer

variable {len : ℕ}

def addBufferToChain (cb : CheckedBuffer len) : CheckedBuffer len :=
  { mb := cb.mb.addBuffer, sanityCheck := cb.sanityCheck + 1 }

def addSpace (cb : CheckedBuffer len) (bytes : ℕ) : CheckedBuffer len :=
  { mb := cb.mb.addSpace bytes
    sanityCheck := cb.sanityCheck + MessageBuffer.buffersToAdd len bytes }

/-- All buffers but one are taken off, each with its count. -/
def reset (cb : CheckedBuffer len) : Except BufferFault (CheckedBuffer len) :=
  if cb.mb.buffers ≠ cb.sanityCheck ∨ 1000000 < cb.mb.buffers then .error .exits
  else .ok { mb := cb.mb.reset, sanityCheck := cb.sanityCheck - (cb.mb.buffers - 1) }

def advanceReadPtr (cb : CheckedBuffer len) (bytes : ℕ) : Except BufferFault (CheckedBuffer len) :=
  let readInd := MessageBuffer.advanceIndex len cb.mb.readInd bytes
  if readInd = cb.mb.writeInd then reset { cb with mb := { cb.mb with readInd } }
  else .ok { mb := cb.mb.advanceReadPtr bytes, sanityCheck := cb.sanityCheck - readInd.1 }

def advanceWritePtr (cb : CheckedBuffer len) (bytes : ℕ) : CheckedBuffer len :=
  let writeInd := MessageBuffer.advanceIndex len cb.mb.writeInd bytes
  { mb := cb.mb.advanceWritePtr bytes
    sanityCheck := cb.sanityCheck + (writeInd.1 + 1 - cb.mb.buffers) }

/-- The bytes go into the buffers of the sequence that is given to `async_read_some`. -/
def write (cb : CheckedBuffer len) (bytes : Bytes) : Except BufferFault (CheckedBuffer len) :=
  if cb.mb.writeInd.1 < cb.mb.buffers then
    .ok (advanceWritePtr { cb with mb := cb.mb.receive bytes } bytes.length)
  else .error .asserts

/-- What the call for the rest returns is not looked at. -/
def readLoop : ℕ → CheckedBuffer len → ℕ → Except BufferFault (Option Bytes × CheckedBuffer len)
  | fuel, cb, size =>
    if cb.mb.bytesToRead < size then .ok (none, cb)
    else if u32 (cb.mb.readInd.2 + size) ≤ len then do
      let cb' ← cb.advanceReadPtr size
      .ok (some ((cb.mb.fromIndex cb.mb.readInd).take size), cb')
    else
      match fuel with
      | 0 => .ok (none, cb)
      | fuel + 1 => do
        let numInBuffer := len - cb.mb.readInd.2
        let cb' ← cb.advanceReadPtr numInBuffer
        let r ← readLoop fuel cb' (size - numInBuffer)
        .ok (some (cb.mb.fromIndex cb.mb.readInd ++ r.1.getD []), r.2)

def read (cb : CheckedBuffer len) (size : ℕ) : Except BufferFault (Option Bytes × CheckedBuffer len) :=
  readLoop size cb size

end CheckedBuffer

/-- What is done to a message buffer. -/
inductive BufferOp
  | addSpace (bytes : ℕ)
  | addBufferToChain
  | write (bytes : Bytes)
  | read (size : ℕ)
  | peek (size : ℕ)
  | advanceReadPtr (bytes : ℕ)
  | reset

namespace CheckedBuffer

variable {len : ℕ}

/-- No more is written than there is room for, and no more passed over than there is to read. -/
def Allowed (cb : CheckedBuffer len) : BufferOp → Prop
  | .write bytes => bytes.length ≤ cb.mb.bytesToWrite
  | .advanceReadPtr bytes => bytes ≤ cb.mb.bytesToRead
  | _ => True

/-- What an operation hands out, and the buffer after it. -/
def step (cb : CheckedBuffer len) : BufferOp → Except BufferFault (Option Bytes × CheckedBuffer len)
  | .addSpace bytes => .ok (none, cb.addSpace bytes)
  | .addBufferToChain => .ok (none, cb.addBufferToChain)
  | .write bytes => (cb.write bytes).map fun cb' => (none, cb')
  | .read size => cb.read size
  | .peek size => .ok (cb.mb.peek size cb.mb.readInd, cb)
  | .advanceReadPtr bytes => (cb.advanceReadPtr bytes).map fun cb' => (none, cb')
  | .reset => cb.reset.map fun cb' => (none, cb')

/-- At most a million buffers and less than 2^32 bytes. -/
def Within (cb : CheckedBuffer len) : Prop := cb.mb.buffers ≤ 1000000 ∧ cb.mb.totalBytes < 2 ^ 32

/-- The operations done so far and what they handed out, the chain being within its bounds each time. -/
inductive Run : List BufferOp → List (Option Bytes) → CheckedBuffer len → Prop
  | start : Within ({} : CheckedBuffer len) → Run [] [] {}
  | step {ops : List BufferOp} {outs : List (Option Bytes)} {cb cb' : CheckedBuffer len} {op : BufferOp}
      {out : Option Bytes} : Run ops outs cb → Allowed cb op → cb.step op = .ok (out, cb') → Within cb' →
      Run (ops ++ [op]) (outs ++ [out]) cb'

end CheckedBuffer

/-! ## The queue -/

/-- The same on a queue: what is handed out, and the bytes that are queued then. -/
def queueStep (q : Bytes) : BufferOp → Option Bytes × Bytes
  | .write bytes => (none, q ++ bytes)
  | .read size => if size ≤ q.length then (some (q.take size), q.drop size) else (none, q)
  | .peek size => (if size ≤ q.length then some (q.take size) else none, q)
  | .advanceReadPtr bytes => (none, q.drop bytes)
  | .reset => (none, [])
  | _ => (none, q)

def queueRun : Bytes → List BufferOp → List (Option Bytes) × Bytes
  | q, [] => ([], q)
  | q, op :: ops =>
    let r := queueRun (queueStep q op).2 ops
    ((queueStep q op).1 :: r.1, r.2)

theorem queueRun_append (q : Bytes) (ops : List BufferOp) (op : BufferOp) :
    queueRun q (ops ++ [op]) = ((queueRun q ops).1 ++ [(queueStep (queueRun q ops).2 op).1],
      (queueStep (queueRun q ops).2 op).2) := by
  induction ops generalizing q with
  | nil => rfl
  | cons o ops ih => simp [queueRun, ih]

namespace CheckedBuffer

variable {len : ℕ} {mb : MessageBuffer len} {cb : CheckedBuffer len}

/-- The count is right. -/
def counted (mb : MessageBuffer len) : CheckedBuffer len := ⟨mb, mb.buffers⟩

@[simp] theorem counted_mb : (counted mb).mb = mb := rfl

theorem reset_counted (hpos : 0 < mb.buffers) (hmany : mb.buffers ≤ 1000000) :
    (counted mb).reset = .ok (counted mb.reset) := by
  have hgood : ¬ (mb.buffers ≠ mb.buffers ∨ 1000000 < mb.buffers) := by omega
  rw [reset, counted, if_neg hgood, counted]
  simp only [MessageBuffer.reset, Except.ok.injEq, CheckedBuffer.mk.injEq, true_and]
  omega

theorem buffers_pos (h : mb.Ok) : 0 < mb.buffers := Nat.zero_lt_of_lt h.write_buffer

/-- Passing over bytes does not add a buffer. -/
theorem buffers_advanceReadPtr (h : mb.Ok) (bytes : ℕ) :
    (mb.advanceReadPtr bytes).buffers ≤ mb.buffers := by
  rw [MessageBuffer.advanceReadPtr]
  split_ifs
  · exact buffers_pos h
  · exact Nat.sub_le _ _

theorem advanceReadPtr_counted (h : mb.Ok) (hmany : mb.buffers ≤ 1000000) (bytes : ℕ) :
    (counted mb).advanceReadPtr bytes = .ok (counted (mb.advanceReadPtr bytes)) := by
  by_cases hall : MessageBuffer.advanceIndex len mb.readInd bytes = mb.writeInd
  · have hreset : mb.advanceReadPtr bytes =
        ({ mb with readInd := MessageBuffer.advanceIndex len mb.readInd bytes } : MessageBuffer len).reset :=
      if_pos hall
    have hpos := buffers_pos h
    rw [hreset]
    exact (if_pos hall).trans (reset_counted hpos hmany)
  · have hkeep : (mb.advanceReadPtr bytes).buffers =
        mb.buffers - (MessageBuffer.advanceIndex len mb.readInd bytes).1 := by
      rw [MessageBuffer.advanceReadPtr, if_neg hall]
    refine (if_neg hall).trans ?_
    rw [counted_mb, counted, ← hkeep]
    rfl

theorem addSpace_counted (bytes : ℕ) : (counted mb).addSpace bytes = counted (mb.addSpace bytes) := by
  rw [addSpace, counted, counted, MessageBuffer.addSpace, MessageBuffer.addBuffers_eq]

theorem advanceWritePtr_counted (bytes : ℕ) :
    (counted mb).advanceWritePtr bytes = counted (mb.advanceWritePtr bytes) := by
  rw [advanceWritePtr, counted, counted, MessageBuffer.advanceWritePtr, MessageBuffer.addBuffers_eq]

/-- Reading goes as it does without the count. -/
theorem readLoop_counted (h : mb.Ok) (hcounts : mb.Counts) (hmany : mb.buffers ≤ 1000000) {fuel size : ℕ}
    {bytes : Bytes} {mb' : MessageBuffer len} (hread : MessageBuffer.readLoop fuel mb size = some (bytes, mb')) :
    readLoop fuel (counted mb) size = .ok (some bytes, counted mb') := by
  induction fuel generalizing mb size bytes mb' with
  | zero =>
    rw [MessageBuffer.readLoop] at hread
    split_ifs at hread with hfew hin
    cases hread
    rw [readLoop, counted_mb, if_neg hfew, if_pos hin, advanceReadPtr_counted h hmany]
    rfl
  | succ fuel ih =>
    rw [MessageBuffer.readLoop] at hread
    split_ifs at hread with hfew hin
    · cases hread
      rw [readLoop, counted_mb, if_neg hfew, if_pos hin, advanceReadPtr_counted h hmany]
      rfl
    · obtain ⟨⟨bs, mb''⟩, hrest, heq⟩ := Option.map_eq_some_iff.1 hread
      cases heq
      have hbytes : len - mb.readInd.2 ≤ mb.unread.length := by
        rw [MessageBuffer.Counts] at hcounts
        rw [h.bytesToRead_eq, u32_of_lt (by omega)] at hfew
        rw [u32_of_lt (by omega)] at hin
        omega
      have hinner := ih (h.advanceReadPtr hcounts hbytes).1 (hcounts.advanceReadPtr h hbytes)
        ((buffers_advanceReadPtr h _).trans hmany) hrest
      rw [readLoop, counted_mb, if_neg hfew, if_neg hin]
      simp only [advanceReadPtr_counted h hmany, bind, Except.bind, hinner, Option.getD_some]

theorem read_counted (h : mb.Ok) (hcounts : mb.Counts) (hmany : mb.buffers ≤ 1000000) (size : ℕ) :
    ∃ mb', (counted mb).read size = .ok ((queueStep mb.unread (.read size)).1, counted mb') ∧ mb'.Ok ∧
      mb'.unread = (queueStep mb.unread (.read size)).2 ∧ (mb.unread.length < size → mb' = mb) := by
  rcases Nat.lt_or_ge mb.unread.length size with hfew | hsize
  · refine ⟨mb, ?_, h, by simp [queueStep, hfew.not_ge], fun _ => rfl⟩
    have hcount : mb.bytesToRead < size := by
      rwa [h.bytesToRead_eq, u32_of_lt (by rw [MessageBuffer.Counts] at hcounts; omega)]
    unfold read readLoop
    simp [hcount, queueStep, hfew.not_ge]
  · obtain ⟨mb', hread, hok, -, hunread⟩ := h.read_of_le hcounts hsize
    exact ⟨mb', by simpa [queueStep, hsize, read] using readLoop_counted h hcounts hmany hread, hok,
      by simpa [queueStep, hsize] using hunread, fun hfew => by omega⟩

/-- The bytes to read are the queue, and the count is right. -/
structure Queues (cb : CheckedBuffer len) (q : Bytes) : Prop where
  count : cb = counted cb.mb
  ok : cb.mb.Ok
  unread : cb.mb.unread = q

/-- Within the bounds every operation does to the buffer what it does to the queue. -/
theorem Queues.step {q : Bytes} (h : Queues cb q) (hwithin : Within cb) {op : BufferOp} (hop : Allowed cb op) :
    ∃ cb', cb.step op = .ok ((queueStep q op).1, cb') ∧ Queues cb' (queueStep q op).2 := by
  obtain ⟨hcb, hok, rfl⟩ := h
  obtain ⟨hmany, htotal⟩ := hwithin
  generalize cb.mb = mb at *
  subst hcb
  have hcounts := hok.counts_of_totalBytes htotal
  cases op with
  | addSpace bytes =>
    obtain ⟨hok', hunread⟩ := hok.addSpace bytes
    exact ⟨counted (mb.addSpace bytes), congrArg (fun cb' => Except.ok (none, cb')) (addSpace_counted bytes), rfl, hok',
      hunread⟩
  | addBufferToChain =>
    obtain ⟨hok', hunread⟩ := hok.addBuffers 1
    exact ⟨counted mb.addBuffer, rfl, rfl, hok', hunread⟩
  | write bytes =>
    have hspace : mb.writePos + bytes.length ≤ mb.buffers * len := by
      have hallowed : bytes.length ≤ mb.bytesToWrite := hop
      have hend := hok.writePos_lt
      rw [MessageBuffer.bytesToWrite, MessageBuffer.totalBytes, Nat.mul_comm] at hallowed
      have := Nat.mod_le (mb.buffers * len - mb.writeInd.1 * len - mb.writeInd.2) (2 ^ 32)
      rw [MessageBuffer.writePos] at hend ⊢
      rw [u32] at hallowed
      omega
    obtain ⟨hok', hunread⟩ := hok.receive hspace (by
      rw [MessageBuffer.totalBytes, Nat.mul_comm] at htotal
      rw [MessageBuffer.writePos] at hspace
      omega)
    refine ⟨counted ((mb.receive bytes).advanceWritePtr bytes.length), ?_, rfl, hok', hunread⟩
    have hwrite : (counted mb).write bytes =
        .ok (counted ((mb.receive bytes).advanceWritePtr bytes.length)) :=
      (if_pos hok.write_buffer).trans (congrArg _ (advanceWritePtr_counted bytes.length))
    exact congrArg (Except.map fun cb' => (none, cb')) hwrite
  | read size =>
    obtain ⟨mb', hread, hok', hunread, -⟩ := read_counted hok hcounts hmany size
    exact ⟨_, hread, rfl, hok', hunread⟩
  | peek size =>
    have hpeek : mb.peek size mb.readInd = (queueStep mb.unread (.peek size)).1 := by
      rw [queueStep]
      split_ifs with hsize
      · exact hok.peek_of_le hcounts hsize
      · exact hok.peek_of_lt hcounts (by omega) _
    exact ⟨counted mb, congrArg (fun out => Except.ok (out, counted mb)) hpeek, rfl, hok, rfl⟩
  | advanceReadPtr bytes =>
    have hbytes : bytes ≤ mb.unread.length := by
      have hallowed : bytes ≤ mb.bytesToRead := hop
      rwa [hok.bytesToRead_eq, u32_of_lt (by rw [MessageBuffer.Counts] at hcounts; omega)] at hallowed
    obtain ⟨hok', hunread⟩ := hok.advanceReadPtr hcounts hbytes
    exact ⟨counted (mb.advanceReadPtr bytes),
      congrArg (Except.map fun cb' => (none, cb')) (advanceReadPtr_counted hok hmany bytes), rfl, hok', hunread⟩
  | reset =>
    obtain ⟨hok', hunread⟩ := hok.reset
    exact ⟨counted mb.reset,
      congrArg (Except.map fun cb' => (none, cb')) (reset_counted (buffers_pos hok) hmany), rfl, hok', hunread⟩

theorem Queues.bytesToRead {q : Bytes} (h : Queues cb q) (hwithin : Within cb) :
    cb.mb.bytesToRead = q.length := by
  have hcounts := h.ok.counts_of_totalBytes hwithin.2
  rw [h.ok.bytesToRead_eq, h.unread, u32_of_lt]
  rw [MessageBuffer.Counts, h.unread] at hcounts
  omega

theorem Run.queues (hlen : 0 < len) {ops : List BufferOp} {outs : List (Option Bytes)} (h : Run ops outs cb) :
    Within cb ∧ outs = (queueRun [] ops).1 ∧ Queues cb (queueRun [] ops).2 := by
  induction h with
  | start hwithin => exact ⟨hwithin, rfl, rfl, .new hlen, MessageBuffer.Ok.unread_new⟩
  | step _ hallowed hstep hwithin' ih =>
    obtain ⟨hwithin, houts, hq⟩ := ih
    obtain ⟨cb'', hstep', hq'⟩ := hq.step hwithin hallowed
    rw [hstep'] at hstep
    cases hstep
    rw [queueRun_append]
    exact ⟨hwithin', by rw [houts], hq'⟩

/-- The buffer is this queue as far as one can see: what there is to read, the place to write at, the
count of the buffers, and what each operation hands out next, where a read of more than is there leaves
all as it was. -/
structure IsQueue (cb : CheckedBuffer len) (q : Bytes) : Prop where
  bytesToRead : cb.mb.bytesToRead = q.length
  writeInd : cb.mb.writeInd.1 < cb.mb.buffers ∧ cb.mb.writeInd.2 < len
  sanityCheck : cb.sanityCheck = cb.mb.buffers
  next : ∀ op, Allowed cb op → ∃ cb', cb.step op = .ok ((queueStep q op).1, cb')
  fails : ∀ size, q.length < size → cb.step (.read size) = .ok (none, cb)

/-- As long as the chain stays within its bounds, the operations hand out what they hand out of a queue,
and the buffer is that queue. -/
theorem message_buffer_is_queue (hlen : 0 < len) {ops : List BufferOp} {outs : List (Option Bytes)}
    (h : Run ops outs cb) : outs = (queueRun [] ops).1 ∧ IsQueue cb (queueRun [] ops).2 := by
  obtain ⟨hwithin, houts, hq⟩ := h.queues hlen
  refine ⟨houts, hq.bytesToRead hwithin, ⟨hq.ok.write_buffer, hq.ok.write_lt⟩,
    by rw [hq.count]; rfl, fun op hop => ?_, fun size hsize => ?_⟩
  · obtain ⟨cb', hstep, -⟩ := hq.step hwithin hop
    exact ⟨cb', hstep⟩
  · rw [← hq.unread] at hsize
    obtain ⟨mb', hread, -, -, hsame⟩ :=
      read_counted hq.ok (hq.ok.counts_of_totalBytes hwithin.2) hwithin.1 size
    rw [hsame hsize] at hread
    rw [hq.count]
    simpa [step, queueStep, hsize.not_ge] using hread

/-- In buffers of two bytes each: three bytes written across two of them, and two read back. -/
theorem two_bytes_read_back : ∃ cb : CheckedBuffer 2,
    Run [.addBufferToChain, .write [1, 2, 3], .read 2] [none, none, some [1, 2]] cb ∧ IsQueue cb [3] := by
  have hstart : Run [] [] ({} : CheckedBuffer 2) := .start ⟨by decide, by decide⟩
  have hmore := hstart.step (show Allowed _ .addBufferToChain from trivial) rfl ⟨by decide, by decide⟩
  have hwrite := hmore.step (show Allowed _ (.write [1, 2, 3]) from show 3 ≤ _ by decide) rfl
    ⟨by decide, by decide⟩
  have hread := hwrite.step (show Allowed _ (.read 2) from trivial) rfl ⟨by decide, by decide⟩
  exact ⟨_, hread, (message_buffer_is_queue (by decide) hread).2⟩

end CheckedBuffer

end XmaxChain
