import Mathlib.Logic.Relation
import XmaxChain.NetFraming

/-!
# How much memory a peer can have

Room for a message that is not there yet is added to the chain each time some of it arrives, whether or
not there is room already. So the chain grows as long as no message ends where a piece of the stream
does. When room is only added where it is missing the chain stays within a bound.
-/

namespace XmaxChain

open StreamMachine Relation

namespace MessageBuffer

variable {len : ℕ} {mb : MessageBuffer len}

/-- The bytes that can be written after the write pointer. -/
def room (mb : MessageBuffer len) : ℕ := mb.buffers * len - mb.writePos

theorem bytesToWrite_eq (mb : MessageBuffer len) : mb.bytesToWrite = u32 mb.room := by
  rw [bytesToWrite, totalBytes, room, writePos, Nat.mul_comm, Nat.sub_sub]

/-- What passing over bytes keeps, reading keeps. -/
theorem readLoop_invariant {P : MessageBuffer len → Prop} (hP : ∀ mb, P mb → mb.Ok ∧ mb.Counts)
    (hadvance : ∀ mb bytes, P mb → bytes ≤ mb.unread.length → P (mb.advanceReadPtr bytes))
    {fuel size : ℕ} {mb mb' : MessageBuffer len} {bytes : Bytes} (h : P mb)
    (hread : readLoop fuel mb size = some (bytes, mb')) : P mb' := by
  induction fuel generalizing mb size bytes with
  | zero =>
    obtain ⟨hok, hcounts⟩ := hP mb h
    rw [readLoop] at hread
    split_ifs at hread with hfew hin
    cases hread
    rw [hok.bytesToRead_eq, u32_of_lt (by rw [Counts] at hcounts; omega)] at hfew
    exact hadvance mb size h (by omega)
  | succ fuel ih =>
    obtain ⟨hok, hcounts⟩ := hP mb h
    rw [readLoop] at hread
    split_ifs at hread with hfew hin
    · cases hread
      rw [hok.bytesToRead_eq, u32_of_lt (by rw [Counts] at hcounts; omega)] at hfew
      exact hadvance mb size h (by omega)
    · obtain ⟨⟨bs, mb''⟩, hrest, heq⟩ := Option.map_eq_some_iff.1 hread
      cases heq
      have hcounts' := hcounts
      rw [Counts] at hcounts'
      rw [hok.bytesToRead_eq, u32_of_lt (by omega)] at hfew
      rw [u32_of_lt (by omega)] at hin
      exact ih (hadvance mb _ h (by omega)) hrest

/-- Passing over bytes frees buffers in front and leaves the room as it is, unless nothing is left to
read. -/
theorem Ok.room_advanceReadPtr (h : mb.Ok) (hcounts : mb.Counts) {bytes : ℕ} (hbytes : bytes < mb.unread.length) :
    (mb.advanceReadPtr bytes).room = mb.room := by
  have hpos : (advanceIndex len mb.readInd bytes).1 * len + (advanceIndex len mb.readInd bytes).2 =
      mb.readInd.1 * len + mb.readInd.2 + bytes :=
    advanceIndex_pos _ _ (by rw [Counts] at hcounts; omega)
  rw [h.length_unread] at hbytes
  have hle := h.le
  have hend := h.writePos_lt
  rw [MessageBuffer.advanceReadPtr, room, room]
  set i := advanceIndex len mb.readInd bytes
  have hread : i.1 * len + i.2 = mb.readPos + bytes := hpos
  have hne : i ≠ mb.writeInd := by
    intro heq
    rw [heq] at hread
    rw [writePos] at hbytes
    omega
  rw [if_neg hne]
  have hbuf : i.1 ≤ mb.writeInd.1 := index_le h.write_lt (by rw [hread, ← writePos]; omega)
  have hmul : (mb.writeInd.1 - i.1) * len = mb.writeInd.1 * len - i.1 * len := Nat.sub_mul ..
  have hmulBuffers : (mb.buffers - i.1) * len = mb.buffers * len - i.1 * len := Nat.sub_mul ..
  have hle' : i.1 * len ≤ mb.writeInd.1 * len := Nat.mul_le_mul_right _ hbuf
  simp only [writePos, hmul, hmulBuffers] at *
  omega

@[simp] theorem room_reset (mb : MessageBuffer len) : mb.reset.room = len := by
  simp [room, reset, writePos]

/-- When all is read one buffer is left. -/
theorem Ok.room_advanceReadPtr_all (h : mb.Ok) (hcounts : mb.Counts) :
    (mb.advanceReadPtr mb.unread.length).room = len := by
  have hpos : (advanceIndex len mb.readInd mb.unread.length).1 * len +
      (advanceIndex len mb.readInd mb.unread.length).2 = mb.readInd.1 * len + mb.readInd.2 + mb.unread.length :=
    advanceIndex_pos _ _ (by rw [Counts] at hcounts; omega)
  have hle := h.le
  have hall : advanceIndex len mb.readInd mb.unread.length = mb.writeInd := by
    refine index_inj (Nat.mod_lt _ (Nat.zero_lt_of_lt h.read_lt)) h.write_lt ?_
    rw [hpos, h.length_unread, ← readPos, ← writePos]
    omega
  rw [MessageBuffer.advanceReadPtr, if_pos hall, room_reset]

theorem advanceReadPtr_readInd (mb : MessageBuffer len) (bytes : ℕ) :
    (mb.advanceReadPtr bytes).readInd.1 = 0 := by
  rw [MessageBuffer.advanceReadPtr]
  split_ifs <;> rfl

theorem buffersToAdd_mul_le (len bytes : ℕ) : buffersToAdd len bytes * len ≤ bytes + len := by
  have hcount : buffersToAdd len bytes ≤ bytes / len + 1 := by
    have hmod : u32 (bytes / len + 1) ≤ bytes / len + 1 := Nat.mod_le _ _
    rw [buffersToAdd]
    split_ifs
    · exact hmod
    · exact Nat.zero_le _
  calc buffersToAdd len bytes * len ≤ (bytes / len + 1) * len := Nat.mul_le_mul_right _ hcount
    _ = bytes / len * len + len := by rw [Nat.add_mul, Nat.one_mul]
    _ ≤ bytes + len := Nat.add_le_add_right (Nat.div_mul_le_self _ _) _

theorem room_addSpace (bytes : ℕ) (h : mb.Ok) :
    (mb.addSpace bytes).room = mb.room + buffersToAdd len bytes * len := by
  have := h.writePos_lt
  rw [addSpace, addBuffers_eq, room, room]
  simp only [writePos, Nat.add_mul] at *
  omega

/-- What was written was room before; a chain filled to its end has one buffer more. -/
theorem Ok.room_receive (h : mb.Ok) {bytes : Bytes} (hspace : mb.writePos + bytes.length ≤ mb.buffers * len)
    (hcount : bytes.length + mb.writeInd.2 < 2 ^ 32) :
    ((mb.receive bytes).advanceWritePtr bytes.length).room =
      if bytes.length = mb.room then len else mb.room - bytes.length := by
  have hpos : (advanceIndex len mb.writeInd bytes.length).1 * len +
      (advanceIndex len mb.writeInd bytes.length).2 = mb.writeInd.1 * len + mb.writeInd.2 + bytes.length :=
    advanceIndex_pos _ _ hcount
  have hlt : (advanceIndex len mb.writeInd bytes.length).2 < len := Nat.mod_lt _ (Nat.zero_lt_of_lt h.read_lt)
  have hend := h.writePos_lt
  rw [advanceWritePtr, MessageBuffer.receive, addBuffers_eq, room, room]
  simp only
  set i := advanceIndex len mb.writeInd bytes.length
  have hw : i.1 * len + i.2 = mb.writePos + bytes.length := hpos
  split_ifs with hfull
  · have hi : i = (mb.buffers, 0) := index_inj hlt (Nat.zero_lt_of_lt h.read_lt) (by simp only; omega)
    rw [hi, Nat.add_sub_cancel_left, show writePos _ = mb.buffers * len + 0 from rfl, Nat.add_mul, Nat.one_mul]
    omega
  · have hin : i.1 < mb.buffers := Nat.lt_of_mul_lt_mul_right (show i.1 * len < mb.buffers * len by omega)
    rw [show i.1 + 1 - mb.buffers = 0 by omega, Nat.add_zero, show writePos _ = i.1 * len + i.2 from rfl, hw]
    omega

theorem Ok.receive_ok (h : mb.Ok) {bytes : Bytes} (hroom : bytes.length ≤ mb.room) : (mb.receive bytes).Ok := by
  have hend := h.writePos_lt
  have hw : mb.writePos = mb.writeInd.1 * len + mb.writeInd.2 := rfl
  rw [room] at hroom
  refine ⟨?_, h.read_lt, h.write_lt, h.write_buffer, h.le⟩
  rw [MessageBuffer.receive]
  simp only [List.length_append, List.length_take, List.length_drop, h.length]
  omega

/-- Buffers of which the first is being read, with so much room and so many bytes from the read pointer
on. -/
structure Bounded (mb : MessageBuffer len) (roomBound total : ℕ) : Prop where
  ok : mb.Ok
  first : mb.readInd.1 = 0
  room : mb.room ≤ roomBound
  total : mb.unread.length + mb.room ≤ total

section Bounded

variable {roomBound total : ℕ}

theorem Bounded.counts (h : Bounded mb roomBound total) (htotal : total + len ≤ 2 ^ 32) : mb.Counts := by
  have := h.ok.read_lt
  have := h.total
  rw [Counts]
  omega

theorem Bounded.bytesToRead (h : Bounded mb roomBound total) (htotal : total + len ≤ 2 ^ 32) :
    mb.bytesToRead = mb.unread.length := by
  have := h.ok.read_lt
  have := h.total
  rw [h.ok.bytesToRead_eq, u32_of_lt (by omega)]

theorem Bounded.buffers_le (h : Bounded mb roomBound total) : mb.buffers ≤ total / len + 1 := by
  have hread := h.ok.read_lt
  have hend := h.ok.writePos_lt
  have hle := h.ok.le
  have htotal := h.total
  rw [h.ok.length_unread, MessageBuffer.room] at htotal
  rw [readPos, h.first, Nat.zero_mul, Nat.zero_add] at *
  have hmem : mb.buffers * len < total + len := by omega
  have hdiv : mb.buffers ≤ (total + len) / len :=
    (Nat.le_div_iff_mul_le (Nat.zero_lt_of_lt hread)).2 hmem.le
  rwa [Nat.add_div_right _ (Nat.zero_lt_of_lt hread)] at hdiv

theorem Bounded.reset (h : mb.Ok) (hroom : len ≤ roomBound) (htotal : len ≤ total) :
    Bounded mb.reset roomBound total := by
  obtain ⟨hok, hunread⟩ := h.reset
  exact ⟨hok, rfl, by rwa [room_reset], by rw [hunread, room_reset]; simpa using htotal⟩

theorem Bounded.advanceReadPtr (h : Bounded mb roomBound total) (hbuffer : len ≤ roomBound)
    (htotal : len ≤ total) (hword : total + len ≤ 2 ^ 32) {bytes : ℕ} (hbytes : bytes ≤ mb.unread.length) :
    Bounded (mb.advanceReadPtr bytes) roomBound total := by
  have hcounts := h.counts hword
  obtain ⟨hok, hunread⟩ := h.ok.advanceReadPtr hcounts hbytes
  have hfirst := advanceReadPtr_readInd mb bytes
  have htotal' := h.total
  rcases hbytes.lt_or_eq with hlt | rfl
  · have hroom := h.ok.room_advanceReadPtr hcounts hlt
    refine ⟨hok, hfirst, hroom ▸ h.room, ?_⟩
    rw [hunread, hroom, List.length_drop]
    omega
  · have hroom := h.ok.room_advanceReadPtr_all hcounts
    refine ⟨hok, hfirst, by rwa [hroom], ?_⟩
    rw [hunread, hroom, List.length_drop]
    omega

theorem Bounded.read (h : Bounded mb roomBound total) (hbuffer : len ≤ roomBound) (htotal : len ≤ total)
    (hword : total + len ≤ 2 ^ 32) {n : ℕ} {bytes : Bytes} {mb' : MessageBuffer len}
    (hread : mb.read n = some (bytes, mb')) : Bounded mb' roomBound total :=
  readLoop_invariant (P := fun mb => Bounded mb roomBound total) (fun _ h => ⟨h.ok, h.counts hword⟩)
    (fun _ _ h hbytes => h.advanceReadPtr hbuffer htotal hword hbytes) h hread

theorem Bounded.bytesToWrite (h : Bounded mb roomBound total) (hword : roomBound < 2 ^ 32) :
    mb.bytesToWrite = mb.room := by
  rw [bytesToWrite_eq, u32_of_lt (h.room.trans_lt hword)]

theorem Bounded.receive (h : Bounded mb roomBound total) (hbuffer : len ≤ roomBound)
    (hword : roomBound + len ≤ 2 ^ 32) {bytes : Bytes} (hroom : bytes.length ≤ mb.room)
    {total' : ℕ} (htotal : mb.unread.length + mb.room + len ≤ total') :
    Bounded ((mb.receive bytes).advanceWritePtr bytes.length) roomBound total' := by
  have hbound := h.room
  have hwrite := h.ok.write_lt
  have hend := h.ok.writePos_lt
  have hspace : mb.writePos + bytes.length ≤ mb.buffers * len := by
    rw [MessageBuffer.room] at hroom
    omega
  have hcount : bytes.length + mb.writeInd.2 < 2 ^ 32 := by omega
  obtain ⟨hok, hunread⟩ := h.ok.receive hspace hcount
  have hroom' := h.ok.room_receive hspace hcount
  refine ⟨hok, ?_, ?_, ?_⟩
  · rw [advanceWritePtr, addBuffers_eq]
    exact h.first
  · rw [hroom']
    split_ifs <;> omega
  · rw [hroom', hunread, List.length_append]
    split_ifs <;> omega

theorem Bounded.addSpace (h : Bounded mb roomBound total) {bytes roomBound' total' : ℕ}
    (hroom : mb.room + bytes + len ≤ roomBound') (htotal : mb.unread.length + mb.room + bytes + len ≤ total') :
    Bounded (mb.addSpace bytes) roomBound' total' := by
  obtain ⟨hok, hunread⟩ := h.ok.addSpace bytes
  have hroom' := room_addSpace bytes h.ok
  have hadd := buffersToAdd_mul_le len bytes
  refine ⟨hok, ?_, by omega, by rw [hunread]; omega⟩
  rw [MessageBuffer.addSpace, addBuffers_eq]
  exact h.first

end Bounded

end MessageBuffer

namespace ReadSide

variable {len : ℕ} {M : Type} {net : NetMessages M}

def setBuffer (c : ReadSide len M) (mb : MessageBuffer len) : ReadSide len M :=
  { c with pendingMessageBuffer := mb }

/-- A connection between two callbacks, or in the loop of one over what there is to read. -/
structure Receiver (len : ℕ) (M : Type) where
  side : ReadSide len M := {}
  looping : Bool := false

def messageLength (mb : MessageBuffer len) : ℕ := u32OfBytes ((mb.peek 4 mb.readInd).getD [])

/-- The loop has come to a message that is not all there, of a length that is accepted. -/
structure Incomplete (mb : MessageBuffer len) : Prop where
  header : messageHeaderSize ≤ mb.bytesToRead
  accepted : messageLength mb ≤ defSendBufferSize * 2
  part : mb.bytesToRead < messageLength mb + messageHeaderSize

/-- What is not there of it. -/
def missing (mb : MessageBuffer len) : ℕ := messageLength mb + messageHeaderSize - mb.bytesToRead

/-- The callback, one round of its loop after the other: bytes from the socket, as many as there is room
for, and then messages until no whole one is left or the connection is closed. -/
inductive Step (net : NetMessages M) : Receiver len M → Receiver len M → Prop
  | refused {c : ReadSide len M} {bytes : Bytes} (hopen : c.isOpen = true)
      (hroom : bytes.length ≤ c.pendingMessageBuffer.room)
      (hcount : c.pendingMessageBuffer.bytesToWrite < bytes.length) :
      Step net ⟨c, false⟩ ⟨(c.setBuffer (c.pendingMessageBuffer.receive bytes)).close, false⟩
  | transfer {c : ReadSide len M} {bytes : Bytes} (hopen : c.isOpen = true)
      (hroom : bytes.length ≤ c.pendingMessageBuffer.room)
      (hcount : bytes.length ≤ c.pendingMessageBuffer.bytesToWrite) :
      Step net ⟨c, false⟩
        ⟨c.setBuffer ((c.pendingMessageBuffer.receive bytes).advanceWritePtr bytes.length), true⟩
  | idle {c : ReadSide len M} (hheader : c.pendingMessageBuffer.bytesToRead < messageHeaderSize) :
      Step net ⟨c, true⟩ ⟨c, false⟩
  | tooLong {c : ReadSide len M} (hheader : messageHeaderSize ≤ c.pendingMessageBuffer.bytesToRead)
      (hlong : defSendBufferSize * 2 < messageLength c.pendingMessageBuffer) :
      Step net ⟨c, true⟩ ⟨c.close, false⟩
  | message {c c' : ReadSide len M} {goOn : Bool} {fuel : ℕ}
      (hheader : messageHeaderSize ≤ c.pendingMessageBuffer.bytesToRead)
      (hwhole : messageLength c.pendingMessageBuffer + messageHeaderSize ≤ c.pendingMessageBuffer.bytesToRead)
      (hprocess : processNextMessage net fuel
        (c.setBuffer (c.pendingMessageBuffer.advanceReadPtr messageHeaderSize))
        (messageLength c.pendingMessageBuffer) = some (goOn, c')) : Step net ⟨c, true⟩ ⟨c', goOn⟩
  | addSpace {c : ReadSide len M} (hpart : Incomplete c.pendingMessageBuffer) :
      Step net ⟨c, true⟩
        ⟨c.setBuffer (c.pendingMessageBuffer.addSpace (missing c.pendingMessageBuffer)), false⟩

/-- There is room already for what is missing of the message that is next. -/
def Wasteful (r : Receiver len M) : Prop :=
  r.looping = true ∧ Incomplete r.side.pendingMessageBuffer ∧
    missing r.side.pendingMessageBuffer ≤ r.side.pendingMessageBuffer.bytesToWrite

/-- What a new connection comes to, whatever the peer sends and in whatever pieces, by steps from states
that are allowed. -/
def Reached (net : NetMessages M) (allowed : Receiver len M → Prop) (r : Receiver len M) : Prop :=
  ReflTransGen (fun r r' => allowed r ∧ Step net r r') {} r

theorem Reached.step {allowed : Receiver len M → Prop} {r r' : Receiver len M} (h : Reached net allowed r)
    (hallowed : allowed r) (hstep : Step net r r') : Reached net allowed r' := h.tail ⟨hallowed, hstep⟩

theorem readMessages_eq (net : NetMessages M) (fuel : ℕ) (c : ReadSide len M) :
    readMessages net (fuel + 1) c =
      if c.pendingMessageBuffer.bytesToRead < messageHeaderSize then some c
      else if defSendBufferSize * 2 < messageLength c.pendingMessageBuffer then some c.close
      else if messageLength c.pendingMessageBuffer + messageHeaderSize ≤ c.pendingMessageBuffer.bytesToRead then
        match processNextMessage net fuel
          (c.setBuffer (c.pendingMessageBuffer.advanceReadPtr messageHeaderSize))
          (messageLength c.pendingMessageBuffer) with
        | none => none
        | some (false, c) => some c
        | some (true, c) => readMessages net fuel c
      else some (c.setBuffer (c.pendingMessageBuffer.addSpace (missing c.pendingMessageBuffer))) := rfl

/-- The callback is made of these steps. -/
theorem steps_of_readMessages {fuel : ℕ} {c c' : ReadSide len M} (h : readMessages net fuel c = some c') :
    ReflTransGen (Step net) ⟨c, true⟩ ⟨c', false⟩ := by
  induction fuel generalizing c with
  | zero => cases h
  | succ fuel ih =>
    rw [readMessages_eq] at h
    split_ifs at h with hheader hlong hwhole
    · cases h
      exact .single (.idle hheader)
    · cases h
      exact .single (.tooLong (Nat.not_lt.1 hheader) hlong)
    · rcases hprocess : processNextMessage net fuel
        (c.setBuffer (c.pendingMessageBuffer.advanceReadPtr messageHeaderSize))
        (messageLength c.pendingMessageBuffer) with _ | ⟨_ | _, c''⟩ <;> rw [hprocess] at h
      · cases h
      · cases h
        exact .single (.message (Nat.not_lt.1 hheader) hwhole hprocess)
      · exact .head (.message (Nat.not_lt.1 hheader) hwhole hprocess) (ih h)
    · cases h
      exact .single (.addSpace ⟨Nat.not_lt.1 hheader, Nat.not_lt.1 hlong, Nat.not_le.1 hwhole⟩)

theorem steps_of_startReadMessage {fuel : ℕ} {c c' : ReadSide len M} {bytes : Bytes} (hopen : c.isOpen = true)
    (hroom : bytes.length ≤ c.pendingMessageBuffer.room) (h : startReadMessage net fuel c bytes = some c') :
    ReflTransGen (Step net) ⟨c, false⟩ ⟨c', false⟩ := by
  have hsame : (c.pendingMessageBuffer.receive bytes).bytesToWrite = c.pendingMessageBuffer.bytesToWrite := rfl
  rw [startReadMessage, hsame] at h
  split_ifs at h with hcount
  · cases h
    exact .single (.refused hopen hroom hcount)
  · exact .head (.transfer hopen hroom (Nat.not_lt.1 hcount)) (steps_of_readMessages h)

/-! ## The bound -/

/-- The longest message that is accepted, with its header. -/
def maxMessage : ℕ := defSendBufferSize * 2 + messageHeaderSize

/-- Room for two messages and a buffer. -/
def roomBound (len : ℕ) : ℕ := 2 * maxMessage + len

/-- The bytes from the read pointer on: a message, the room, and a buffer. -/
def totalBound (len : ℕ) : ℕ := maxMessage + roomBound len + len

def bufferBound (len : ℕ) : ℕ := totalBound len / len + 1

/-- Between callbacks there is less than a message to read. -/
structure Inv (r : Receiver len M) : Prop where
  bounded : r.side.pendingMessageBuffer.Bounded (roomBound len) (totalBound len)
  part : r.looping = false → r.side.pendingMessageBuffer.unread.length < maxMessage

theorem visit_buffer {c : ReadSide len M} (r : Option M) :
    (visit net c r).2.pendingMessageBuffer = c.pendingMessageBuffer ∧ (visit net c r).1 = true ∨
      (visit net c r).2.pendingMessageBuffer = c.pendingMessageBuffer.reset := by
  rcases r with _ | m
  · exact .inr rfl
  · rw [visit]
    rcases net.handleMessage c.handled m
    · exact .inl ⟨rfl, rfl⟩
    · exact .inr rfl
    · exact .inr rfl

/-- What reading keeps, processing a message keeps, unless it closes the connection. -/
theorem processNextMessage_buffer {P : MessageBuffer len → Prop}
    (hread : ∀ mb n bytes mb', P mb → mb.read n = some (bytes, mb') → P mb') {fuel messageLength : ℕ}
    {c c' : ReadSide len M} {goOn : Bool} (hc : P c.pendingMessageBuffer)
    (h : processNextMessage net fuel c messageLength = some (goOn, c')) :
    ∃ mb, P mb ∧ (c'.pendingMessageBuffer = mb ∧ goOn = true ∨ c'.pendingMessageBuffer = mb.reset) := by
  rw [processNextMessage] at h
  split at h
  · cases h
  · rename_i which _
    simp only [saveRawBlock_pendingMessageBuffer] at h
    rcases hrun : net.unpack.run MessageBuffer.read fuel net.unpack.start c.pendingMessageBuffer with _ | ⟨r, mb⟩
      <;> simp only [hrun] at h
    · cases h
    · refine ⟨mb, Machine.run_invariant hread hc hrun, ?_⟩
      let c₁ : ReadSide len M := { c.saveRawBlock which messageLength with pendingMessageBuffer := mb }
      have hvisit : (visit net c₁ r).2.pendingMessageBuffer = mb ∧ (visit net c₁ r).1 = true ∨
          (visit net c₁ r).2.pendingMessageBuffer = mb.reset := visit_buffer r
      rw [Option.some.inj h] at hvisit
      exact hvisit

theorem Inv.reset {mb : MessageBuffer len} (h : mb.Ok) {c : ReadSide len M}
    (hc : c.pendingMessageBuffer = mb.reset) (looping : Bool) : Inv ⟨c, looping⟩ where
  bounded := by
    simp only [hc]
    exact .reset h (Nat.le_add_left _ _) (Nat.le_add_left _ _)
  part _ := by
    simp only [hc, h.reset.2]
    decide

/-- No step leaves the bounds that does not add room where there is enough. -/
theorem Inv.step (hword : totalBound len + len ≤ 2 ^ 32) {r r' : Receiver len M} (h : Inv r)
    (hallowed : ¬ Wasteful r) (hstep : Step net r r') : Inv r' := by
  obtain ⟨hbounded, hpart⟩ := h
  have hroomWord : roomBound len + len ≤ 2 ^ 32 := by
    rw [totalBound] at hword
    omega
  have hbuffer : len ≤ roomBound len := Nat.le_add_left _ _
  have htotal : len ≤ totalBound len := Nat.le_add_left _ _
  cases hstep with
  | refused hopen hroom hcount => exact .reset (hbounded.ok.receive_ok hroom) rfl _
  | transfer hopen hroom hcount =>
    refine ⟨hbounded.receive hbuffer hroomWord hroom ?_, fun h => by cases h⟩
    have := hpart rfl
    have := hbounded.room
    rw [totalBound]
    omega
  | idle hheader =>
    refine ⟨hbounded, fun _ => ?_⟩
    rw [hbounded.bytesToRead hword] at hheader
    exact hheader.trans_le (Nat.le_add_left _ _)
  | tooLong hheader hlong => exact .reset hbounded.ok rfl _
  | message hheader hwhole hprocess =>
    rw [hbounded.bytesToRead hword] at hheader
    obtain ⟨mb, hmb, ⟨hbuf, rfl⟩ | hbuf⟩ := processNextMessage_buffer
      (P := fun mb => mb.Bounded (roomBound len) (totalBound len))
      (fun _ _ _ _ h hread => h.read hbuffer htotal hword hread)
      (hbounded.advanceReadPtr hbuffer htotal hword hheader) hprocess
    · exact ⟨by simpa only [hbuf] using hmb, fun h => by cases h⟩
    · exact .reset hmb.ok hbuf _
  | @addSpace c hincomplete =>
    have hmissing : c.pendingMessageBuffer.bytesToWrite < missing c.pendingMessageBuffer := by
      by_contra henough
      exact hallowed ⟨rfl, hincomplete, Nat.not_lt.1 henough⟩
    have haccepted := hincomplete.accepted
    have hincomplete' := hincomplete.part
    have hread := hbounded.ok.read_lt
    rw [hbounded.bytesToWrite (by omega), missing] at hmissing
    rw [hbounded.bytesToRead hword] at hmissing hincomplete'
    have hrest : missing c.pendingMessageBuffer =
        messageLength c.pendingMessageBuffer + messageHeaderSize - c.pendingMessageBuffer.unread.length := by
      rw [missing, hbounded.bytesToRead hword]
    refine ⟨hbounded.addSpace ?_ ?_, fun _ => ?_⟩
    · rw [hrest, roomBound, maxMessage]
      omega
    · rw [hrest, totalBound, roomBound, maxMessage]
      omega
    · have hunread := (hbounded.ok.addSpace (missing c.pendingMessageBuffer)).2
      rw [setBuffer, hunread, maxMessage]
      omega

theorem Inv.reached (hword : totalBound len + len ≤ 2 ^ 32) (hlen : 0 < len) {r : Receiver len M}
    (h : Reached net (fun r => ¬ Wasteful r) r) : Inv r := by
  induction h with
  | refl =>
    have hnew : ({} : MessageBuffer len).Ok := .new hlen
    have hroom : ({} : MessageBuffer len).room = len := by simp [MessageBuffer.room, MessageBuffer.writePos]
    refine ⟨⟨hnew, rfl, ?_, ?_⟩, fun _ => ?_⟩
    · rw [hroom]
      exact Nat.le_add_left _ _
    · rw [hroom, MessageBuffer.Ok.unread_new]
      exact (Nat.zero_add _).le.trans (Nat.le_add_left _ _)
    · rw [MessageBuffer.Ok.unread_new]
      decide
  | tail _ hstep ih => exact ih.step hword hstep.1 hstep.2

/-- The length of the buffers of `pending_message_buffer`. -/
def pendingBufferLen : ℕ := 1024 * 1024

/-- Whatever is sent in whatever pieces: as long as room is only added where it is missing, there are
never more buffers than the lengths of a buffer, of a header and of the longest message allow. -/
theorem receive_memory_bounded {r : Receiver pendingBufferLen M}
    (h : Reached net (fun r => ¬ Wasteful r) r) :
    r.side.pendingMessageBuffer.buffers ≤ bufferBound pendingBufferLen :=
  (Inv.reached (by decide) (by decide) h).bounded.buffers_le

theorem Holds.bytesToRead {mb : MessageBuffer len} {bytes : Bytes} (h : Holds mb bytes) :
    mb.bytesToRead = bytes.length := by
  obtain ⟨hok, hcounts, rfl⟩ := h
  rw [MessageBuffer.Counts] at hcounts
  rw [hok.bytesToRead_eq, u32_of_lt (by omega)]

/-- The start of a message of two buffers. -/
def longStart : Bytes := [0, 0, 32, 0, 11]

/-- The start comes in one piece. -/
theorem longStart_received : ∃ mb : MessageBuffer pendingBufferLen, mb.buffers = 1 ∧ Holds mb longStart ∧
    mb.bytesToWrite = pendingBufferLen - 5 ∧
    Step requestBlockMessages {} ⟨({} : ReadSide pendingBufferLen (Fin (2 ^ 32))).setBuffer mb, true⟩ := by
  have hlong : longStart.length = 5 := rfl
  -- the new buffer is not to be computed, it is a million zeros
  obtain ⟨new, hdef⟩ : ∃ new : MessageBuffer pendingBufferLen, new = {} := ⟨_, rfl⟩
  have hnew : new.Ok := hdef ▸ .new (by decide)
  have hunread : new.unread = [] := hdef ▸ MessageBuffer.Ok.unread_new
  have hfirst : new.buffers = 1 ∧ new.writeInd = (0, 0) := by rw [hdef]; exact ⟨rfl, rfl⟩
  have hread : new.readInd = (0, 0) := by rw [hdef]
  have hpos : new.writePos = 0 := by rw [MessageBuffer.writePos, hfirst.2]; rfl
  have htotal : new.totalBytes = pendingBufferLen := by rw [MessageBuffer.totalBytes, hfirst.1, Nat.mul_one]
  have hroom : new.room = pendingBufferLen := by
    rw [MessageBuffer.room, hpos, hfirst.1, Nat.one_mul, Nat.sub_zero]
  have hcount : new.bytesToWrite = pendingBufferLen := by
    rw [MessageBuffer.bytesToWrite_eq, hroom]
    rfl
  have hspace : new.writePos + longStart.length ≤ new.totalBytes := by
    rw [hpos, htotal, hlong]
    decide
  have hspace' := hspace
  rw [MessageBuffer.totalBytes, Nat.mul_comm] at hspace'
  have hword : longStart.length + new.writeInd.2 < 2 ^ 32 := by rw [hfirst.2]; decide
  refine ⟨(new.receive longStart).advanceWritePtr longStart.length, ?_, ?_, ?_, ?_⟩
  · have hadvanced : MessageBuffer.advanceIndex pendingBufferLen (new.receive longStart).writeInd longStart.length = (0, 5) := by
      rw [MessageBuffer.receive_writeInd, hfirst.2]
      decide
    rw [MessageBuffer.advanceWritePtr, MessageBuffer.addBuffers_eq, hadvanced]
    show (new.receive longStart).buffers + (0 + 1 - (new.receive longStart).buffers) = 1
    rw [MessageBuffer.receive_buffers, hfirst.1]
  · have hall := Holds.receive hnew hspace ⟨by rw [hcount]; decide, by rw [hread, hunread]; decide⟩
    rwa [hunread] at hall
  · rw [MessageBuffer.bytesToWrite_eq, hnew.room_receive hspace' hword, hroom, hlong]
    decide
  · have hstep : Step requestBlockMessages
        ⟨({} : ReadSide pendingBufferLen (Fin (2 ^ 32))).setBuffer new, false⟩ _ :=
      .transfer rfl (by rw [setBuffer, hroom, hlong]; decide) (by rw [setBuffer, hcount, hlong]; decide)
    rwa [hdef] at hstep ⊢

/-- A connection that was sent the start of a message has made room for the rest of it. -/
theorem one_piece_bounded : ∃ r : Receiver pendingBufferLen (Fin (2 ^ 32)),
    Reached requestBlockMessages (fun r => ¬ Wasteful r) r ∧
      r.side.pendingMessageBuffer.buffers = 3 ∧ 3 ≤ bufferBound pendingBufferLen := by
  obtain ⟨mb, hone, hholds, hleft, hreceived⟩ := longStart_received
  have hfirst : Reached requestBlockMessages (fun r => ¬ Wasteful r)
      ⟨({} : ReadSide pendingBufferLen (Fin (2 ^ 32))).setBuffer mb, true⟩ :=
    .step .refl (fun h => by cases h.1) hreceived
  have hlength : messageLength mb = 2097152 := (hholds.header (by decide)).trans (by decide)
  have hread : mb.bytesToRead = 5 := hholds.bytesToRead
  have hmissing : missing mb = 2097151 := by
    rw [missing, hlength, hread]
    rfl
  have hneeded : ¬ Wasteful (⟨({} : ReadSide pendingBufferLen (Fin (2 ^ 32))).setBuffer mb, true⟩ :
      Receiver pendingBufferLen (Fin (2 ^ 32))) := by
    rintro ⟨-, -, hwaste⟩
    rw [setBuffer, hmissing, hleft] at hwaste
    exact absurd hwaste (by decide)
  have hgrown := Reached.step hfirst hneeded
    (.addSpace ⟨by rw [setBuffer, hread]; decide, by rw [setBuffer, hlength]; decide,
      by rw [setBuffer, hread, hlength]; decide⟩)
  have hthree : (mb.addSpace (missing mb)).buffers = 3 := by
    rw [hmissing, MessageBuffer.addSpace, MessageBuffer.addBuffers_eq]
    exact congrArg (· + MessageBuffer.buffersToAdd pendingBufferLen 2097151) hone
  exact ⟨_, hgrown, hthree, hthree ▸ receive_memory_bounded hgrown⟩

/-! ## A peer that never lets the buffer run empty -/

/-- A request for block 1. -/
def request : Bytes := [5, 0, 0, 0, 11, 1, 0, 0, 0]

/-- All of a request that comes before its last four bytes. -/
def requestStart : Bytes := [5, 0, 0, 0, 11]

/-- Room stays as it is until all is read. -/
structure Roomy (mb : MessageBuffer len) (room : ℕ) : Prop where
  ok : mb.Ok
  counts : mb.Counts
  room : mb.unread ≠ [] → mb.room = room

theorem Roomy.advanceReadPtr {mb : MessageBuffer len} {room : ℕ} (h : Roomy mb room) {bytes : ℕ}
    (hbytes : bytes ≤ mb.unread.length) : Roomy (mb.advanceReadPtr bytes) room := by
  obtain ⟨hok, hunread⟩ := h.ok.advanceReadPtr h.counts hbytes
  refine ⟨hok, h.counts.advanceReadPtr h.ok hbytes, fun hne => ?_⟩
  rw [hunread, Ne, List.drop_eq_nil_iff, Nat.not_le] at hne
  rw [h.ok.room_advanceReadPtr h.counts hne]
  exact h.room (List.ne_nil_of_length_pos (by omega))

theorem Roomy.read {mb mb' : MessageBuffer len} {room n : ℕ} {bytes : Bytes} (h : Roomy mb room)
    (hread : mb.read n = some (bytes, mb')) : Roomy mb' room :=
  MessageBuffer.readLoop_invariant (P := fun mb => Roomy mb room) (fun _ h => ⟨h.ok, h.counts⟩)
    (fun _ _ h hbytes => h.advanceReadPtr hbytes) h hread

/-- An open connection with so much to read and so much room. -/
structure Waits (c : ReadSide len (Fin (2 ^ 32))) (bytes : Bytes) (room : ℕ) : Prop where
  isOpen : c.isOpen = true
  holds : Holds c.pendingMessageBuffer bytes
  room : c.pendingMessageBuffer.room = room

section Waits

variable {c : ReadSide len (Fin (2 ^ 32))} {bytes : Bytes} {room : ℕ}

/-- A whole request with more after it is handed over, and the room stays as it is. -/
theorem Waits.message (rest : Bytes) (h : Waits c (request ++ rest) room) (hrest : rest ≠ []) :
    ∃ c', Waits c' rest room ∧ Step requestBlockMessages ⟨c, true⟩ ⟨c', true⟩ := by
  have hlength : messageLength c.pendingMessageBuffer = 5 :=
    (h.holds.header (by simp [request])).trans (by simp [request, u32OfBytes])
  have hread := h.holds.bytesToRead
  have hframe : Holds c.pendingMessageBuffer ([5, 0, 0, 0] ++ ([11, 1, 0, 0, 0] ++ rest)) := h.holds
  have hbody : Holds (c.pendingMessageBuffer.advanceReadPtr messageHeaderSize) ([11, 1, 0, 0, 0] ++ rest) :=
    hframe.advanceReadPtr
  have hcomes : requestBlockMessages.unpack.ComesTo ([11, 1, 0, 0, 0] ++ rest) (some 1, rest) :=
    ⟨4, by simp [Machine.run, requestBlockMessages, takeTokens, u32OfBytes, u32]⟩
  obtain ⟨goOn, c', ⟨n, hprocess⟩, hprocessed⟩ := processNextMessage_of_comesTo
    (c := c.setBuffer (c.pendingMessageBuffer.advanceReadPtr messageHeaderSize)) h.isOpen hbody rfl hcomes 5
  have hopen : c'.isOpen = true := (Prod.mk.inj hprocessed.delivered).2
  have hleft := hprocessed.holds
  rw [if_pos hopen] at hleft
  have hroomy : Roomy (c.pendingMessageBuffer.advanceReadPtr messageHeaderSize) room :=
    Roomy.advanceReadPtr ⟨h.holds.1, h.holds.2.1, fun _ => h.room⟩
      (by rw [h.holds.2.2]; simp [request, messageHeaderSize])
  have hroom : c'.pendingMessageBuffer.room = room := by
    obtain ⟨mb, hmb, ⟨rfl, -⟩ | hreset⟩ := processNextMessage_buffer (P := fun mb => Roomy mb room)
      (fun _ _ _ _ h hread => h.read hread) hroomy (hprocess n le_rfl)
    · exact hmb.room (by rwa [hleft.2.2])
    · rw [hreset] at hleft
      exact absurd (hleft.2.2.symm.trans hmb.ok.reset.2) hrest
  refine ⟨c', ⟨hopen, hleft, hroom⟩, ?_⟩
  have hstep : Step requestBlockMessages ⟨c, true⟩ ⟨c', goOn⟩ :=
    .message (by rw [hread]; simp [request, messageHeaderSize])
      (by rw [hread, hlength]; simp [request, messageHeaderSize]) (by rw [hlength]; exact hprocess n le_rfl)
  rwa [hprocessed.goOn hopen] at hstep

/-- The start of a request is all there is: room is added. -/
theorem Waits.addSpace {c : ReadSide pendingBufferLen (Fin (2 ^ 32))} (h : Waits c requestStart room) :
    ∃ c', Waits c' requestStart (room + pendingBufferLen) ∧ Step requestBlockMessages ⟨c, true⟩ ⟨c', false⟩ := by
  have hlength : messageLength c.pendingMessageBuffer = 5 :=
    (h.holds.header (by decide)).trans (by decide)
  have hread : c.pendingMessageBuffer.bytesToRead = 5 := h.holds.bytesToRead
  have hstep : Step requestBlockMessages ⟨c, true⟩
      ⟨c.setBuffer (c.pendingMessageBuffer.addSpace (missing c.pendingMessageBuffer)), false⟩ := .addSpace
    ⟨by rw [hread]; decide, by rw [hlength]; decide, by rw [hread, hlength]; decide⟩
  have hmissing : missing c.pendingMessageBuffer = 4 := by rw [missing, hlength, hread]; rfl
  rw [hmissing] at hstep
  obtain ⟨hok, hunread⟩ := h.holds.1.addSpace 4
  have hroom := MessageBuffer.room_addSpace 4 h.holds.1
  have hadd : MessageBuffer.buffersToAdd pendingBufferLen 4 = 1 := by decide
  rw [h.room, hadd, Nat.one_mul] at hroom
  refine ⟨c.setBuffer (c.pendingMessageBuffer.addSpace 4), ⟨h.isOpen, ⟨hok, ?_, ?_⟩, hroom⟩, hstep⟩
  · have hcounts := h.holds.2.1
    rw [MessageBuffer.Counts] at hcounts ⊢
    rwa [setBuffer, hunread, MessageBuffer.addSpace_readInd]
  · rw [setBuffer, hunread, h.holds.2.2]

theorem Waits.transfer {c : ReadSide pendingBufferLen (Fin (2 ^ 32))} (h : Waits c bytes room)
    (arrives : Bytes) {n : ℕ} (hn : arrives.length = n) (hsize : bytes.length + n ≤ 100) (hroom : n < room)
    (hcount : n ≤ u32 room) :
    ∃ c', Waits c' (bytes ++ arrives) (room - n) ∧ Step requestBlockMessages ⟨c, false⟩ ⟨c', true⟩ := by
  subst hn
  have hwrite : c.pendingMessageBuffer.writeInd.2 < 1024 * 1024 := h.holds.1.write_lt
  have hend := h.holds.1.writePos_lt
  have hfree := h.room
  rw [MessageBuffer.room] at hfree
  have hspace : c.pendingMessageBuffer.writePos + arrives.length ≤
      c.pendingMessageBuffer.buffers * pendingBufferLen := by omega
  have hword : arrives.length + c.pendingMessageBuffer.writeInd.2 < 2 ^ 32 := by omega
  obtain ⟨hok, hunread⟩ := h.holds.1.receive hspace hword
  have hroom' := h.holds.1.room_receive hspace hword
  rw [h.room, if_neg hroom.ne] at hroom'
  rw [h.holds.2.2] at hunread
  refine ⟨c.setBuffer ((c.pendingMessageBuffer.receive arrives).advanceWritePtr arrives.length),
    ⟨h.isOpen, ⟨hok, ?_, hunread⟩, hroom'⟩, .transfer h.isOpen (h.room ▸ hroom.le) ?_⟩
  · have hread : c.pendingMessageBuffer.readInd.2 < 1024 * 1024 := h.holds.1.read_lt
    rw [MessageBuffer.Counts, setBuffer, hunread, MessageBuffer.advanceWritePtr_readInd,
      MessageBuffer.receive_readInd, List.length_append]
    omega
  · rwa [MessageBuffer.bytesToWrite_eq, h.room]

/-- The rest of a request, and one more request where the count of the room would come to too few bytes
otherwise, and then the start of a request again: there is more room than before. -/
theorem Waits.grows {c : ReadSide pendingBufferLen (Fin (2 ^ 32))} (h : Waits c requestStart room)
    (hroom : pendingBufferLen ≤ room) (hcount : 9 ≤ u32 room) :
    ∃ c' room', Waits c' requestStart room' ∧ room < room' ∧ 9 ≤ u32 room' ∧
      ReflTransGen (Step requestBlockMessages) ⟨c, false⟩ ⟨c', false⟩ := by
  have hlen : pendingBufferLen = 1048576 := rfl
  by_cases hnext : 9 ≤ u32 (room - 9 + pendingBufferLen)
  · obtain ⟨c₁, h₁, hstep₁⟩ := h.transfer ([1, 0, 0, 0] ++ requestStart) (n := 9) rfl (by decide)
      (by omega) hcount
    obtain ⟨c₂, h₂, hstep₂⟩ := Waits.message requestStart h₁ (by decide)
    obtain ⟨c₃, h₃, hstep₃⟩ := h₂.addSpace
    exact ⟨c₃, room - 9 + pendingBufferLen, h₃, by omega, hnext,
      .head hstep₁ (.head hstep₂ (.single hstep₃))⟩
  · rw [u32] at hnext hcount
    obtain ⟨c₁, h₁, hstep₁⟩ := h.transfer ([1, 0, 0, 0] ++ (request ++ requestStart)) (n := 18) rfl
      (by decide) (by omega) (by rw [u32]; omega)
    obtain ⟨c₂, h₂, hstep₂⟩ := Waits.message (request ++ requestStart) h₁ (by decide)
    obtain ⟨c₃, h₃, hstep₃⟩ := Waits.message requestStart h₂ (by decide)
    obtain ⟨c₄, h₄, hstep₄⟩ := h₃.addSpace
    exact ⟨c₄, room - 18 + pendingBufferLen, h₄, by omega, by rw [u32]; omega,
      .head hstep₁ (.head hstep₂ (.head hstep₃ (.single hstep₄)))⟩

/-- There is no end to it. -/
theorem Waits.unbounded (n : ℕ) : ∃ (c : ReadSide pendingBufferLen (Fin (2 ^ 32))) (room : ℕ),
    Waits c requestStart room ∧ n + pendingBufferLen ≤ room ∧ 9 ≤ u32 room ∧
      ReflTransGen (Step requestBlockMessages) {} ⟨c, false⟩ := by
  have hlen : pendingBufferLen = 1048576 := rfl
  induction n with
  | zero =>
    have hroom : ({} : MessageBuffer pendingBufferLen).room = pendingBufferLen := by
      simp [MessageBuffer.room, MessageBuffer.writePos]
    have hnew : Waits ({} : ReadSide pendingBufferLen (Fin (2 ^ 32))) [] pendingBufferLen :=
      ⟨rfl, ⟨.new (by decide), by rw [MessageBuffer.Counts, MessageBuffer.Ok.unread_new]; decide,
        MessageBuffer.Ok.unread_new⟩, hroom⟩
    obtain ⟨c₁, h₁, hstep₁⟩ := hnew.transfer requestStart (n := 5) rfl (by decide) (by decide)
      (by decide)
    obtain ⟨c₂, h₂, hstep₂⟩ := h₁.addSpace
    exact ⟨c₂, _, h₂, by decide, by decide, .head hstep₁ (.single hstep₂)⟩
  | succ n ih =>
    obtain ⟨c, room, h, hle, hcount, hsteps⟩ := ih
    obtain ⟨c', room', h', hlt, hcount', hsteps'⟩ := h.grows (by omega) hcount
    exact ⟨c', room', h', by omega, hcount', hsteps.trans hsteps'⟩

end Waits

/-- Requests for block 1 of which each arrives in two pieces: no number of buffers is the most. -/
theorem receive_memory_grows :
    ¬ ∃ bound, ∀ r : Receiver pendingBufferLen (Fin (2 ^ 32)),
      Reached requestBlockMessages (fun _ => True) r → r.side.pendingMessageBuffer.buffers ≤ bound := by
  rintro ⟨bound, hbound⟩
  obtain ⟨c, room, h, hle, -, hsteps⟩ := Waits.unbounded (bound * pendingBufferLen)
  have hreached : Reached requestBlockMessages (fun _ => True) ⟨c, false⟩ :=
    hsteps.lift id fun _ _ hstep => ⟨trivial, hstep⟩
  have hfew : c.pendingMessageBuffer.buffers * pendingBufferLen ≤ bound * pendingBufferLen :=
    Nat.mul_le_mul_right _ (hbound _ hreached)
  have hroom := h.room
  rw [MessageBuffer.room] at hroom
  have hlen : pendingBufferLen = 1048576 := rfl
  omega

end ReadSide

end XmaxChain
