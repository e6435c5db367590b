import XmaxChain.Lib.StreamMachine
import XmaxChain.MessageBuffer

/-!
# Messages in the stream of a connection

A message goes over the network after four bytes that say how long it is. Whatever pieces the stream
arrives in, the messages handed to the handlers are those of the frames in it, as long as unpacking a
payload takes all of the payload and nothing more, or throws. Nothing in the code holds the unpacking
to the declared length, though, and the space in the message buffer is counted in 32 bits.
-/

namespace XmaxChain

open StreamMachine

def defSendBufferSizeMb : ℕ := 4

def defSendBufferSize : ℕ := 1024 * 1024 * defSendBufferSizeMb

def messageHeaderSize : ℕ := 4

/-- The place of `signed_block` in `net_message`. -/
def signedBlockTag : ℕ := 8

/-- What a handler did: it returned, after it may have closed the connection, or it threw. -/
inductive Handled
  | returns
  | closes
  | throws
  deriving DecidableEq

/-- `fc::raw` of the messages, and the handlers, each of which may look at what was handed before. -/
structure NetMessages (M : Type) where
  pack : M → Bytes
  unpack : Machine ℕ M
  handleMessage : List M → M → Handled

/-- A 32-bit number in memory. -/
def bytesOfU32 (n : ℕ) : Bytes := [n % 256, n / 256 % 256, n / 256 ^ 2 % 256, n / 256 ^ 3 % 256]

def u32OfBytes (bytes : Bytes) : ℕ := bytes.foldr (fun b n => b % 256 + 256 * n) 0

/-- What is written to the socket for a message. -/
def NetMessages.msgEnqueue {M : Type} (net : NetMessages M) (m : M) : Bytes :=
  let payloadSize := u32 (net.pack m).length
  bytesOfU32 payloadSize ++ net.pack m

/-- The part of a connection that reads. `handled` is no field of it: these are the messages that were
handed to the handlers. -/
structure ReadSide (len : ℕ) (M : Type) where
  pendingMessageBuffer : MessageBuffer len := {}
  blkBuffer : Bytes := []
  isOpen : Bool := true
  handled : List M := []

namespace ReadSide

variable {len : ℕ} {M : Type}

def close (c : ReadSide len M) : ReadSide len M :=
  { c with pendingMessageBuffer := c.pendingMessageBuffer.reset, isOpen := false }

/-- The bits of the tag. `peek` does not move the index that it is given, so that each round looks at
the same byte; at the end of what is unread it leaves `b` as it was. -/
def peekWhich (mb : MessageBuffer len) (index : ℕ × ℕ) : ℕ → ℕ → ℕ → ℕ → Option ℕ
  | 0, _, _, _ => none
  | fuel + 1, b, which, shift =>
    let b := ((mb.peek 1 index).bind List.head?).getD b
    let which := which ||| u32 (b % 128 * 2 ^ shift)
    if b / 128 % 2 = 0 then some which else peekWhich mb index fuel b which ((shift + 7) % 256)

def resize (bytes : Bytes) (n : ℕ) : Bytes :=
  bytes.take n ++ List.replicate (n - bytes.length) 0

/-- A block is kept as it came, for the messages it is sent on in. -/
def saveRawBlock (c : ReadSide len M) (which messageLength : ℕ) : ReadSide len M :=
  if which = signedBlockTag then
    let block := c.pendingMessageBuffer.peek messageLength c.pendingMessageBuffer.readInd
    { c with blkBuffer := block.getD (resize c.blkBuffer messageLength) }
  else c

/-- The message goes to its handler; what was thrown closes the connection. -/
def visit (net : NetMessages M) (c : ReadSide len M) : Option M → Bool × ReadSide len M
  | none => (false, c.close)
  | some m =>
    let c' := { c with handled := c.handled ++ [m] }
    match net.handleMessage c.handled m with
    | .returns => (true, c')
    | .closes => (true, c'.close)
    | .throws => (false, c'.close)

/-- `none` is a call that has not returned yet. The message is unpacked from all that is unread and
not from `messageLength` bytes of it. -/
def processNextMessage (net : NetMessages M) (fuel : ℕ) (c : ReadSide len M) (messageLength : ℕ) :
    Option (Bool × ReadSide len M) :=
  match peekWhich c.pendingMessageBuffer c.pendingMessageBuffer.readInd fuel 0 0 0 with
  | none => none
  | some which =>
    let c := c.saveRawBlock which messageLength
    match net.unpack.run MessageBuffer.read fuel net.unpack.start c.pendingMessageBuffer with
    | none => none
    | some (r, mb) => some (visit net { c with pendingMessageBuffer := mb } r)

/-- The loop over what is unread. -/
def readMessages (net : NetMessages M) : ℕ → ReadSide len M → Option (ReadSide len M)
  | 0, _ => none
  | fuel + 1, c =>
    let bytesInBuffer := c.pendingMessageBuffer.bytesToRead
    if bytesInBuffer < messageHeaderSize then some c
    else
      let index := c.pendingMessageBuffer.readInd
      let messageLength := u32OfBytes ((c.pendingMessageBuffer.peek 4 index).getD [])
      if defSendBufferSize * 2 < messageLength then some c.close
      else if messageLength + messageHeaderSize ≤ bytesInBuffer then
        let mb := c.pendingMessageBuffer.advanceReadPtr messageHeaderSize
        match processNextMessage net fuel { c with pendingMessageBuffer := mb } messageLength with
        | none => none
        | some (false, c) => some c
        | some (true, c) => readMessages net fuel c
      else
        let bytes := messageLength + messageHeaderSize - bytesInBuffer
        some { c with pendingMessageBuffer := c.pendingMessageBuffer.addSpace bytes }

/-- The callback of `async_read_some`. What it asserts and what is thrown inside of it closes the
connection. -/
def startReadMessage (net : NetMessages M) (fuel : ℕ) (c : ReadSide len M) (bytes : Bytes) :
    Option (ReadSide len M) :=
  let mb := c.pendingMessageBuffer.receive bytes
  if mb.bytesToWrite < bytes.length then some { c with pendingMessageBuffer := mb }.close
  else readMessages net fuel { c with pendingMessageBuffer := mb.advanceWritePtr bytes.length }

/-- The callback returns, with as much fuel as it takes. -/
def Returns (net : NetMessages M) (c : ReadSide len M) (bytes : Bytes) (c' : ReadSide len M) : Prop :=
  ∃ n, ∀ fuel ≥ n, startReadMessage net fuel c bytes = some c'

end ReadSide

/-! ## What a stream of frames says -/

/-- A frame is what `msg_enqueue` writes, or any payload after its length. -/
inductive Frame (M : Type)
  | sent (m : M)
  | crafted (payload : Bytes)

def frameOf (payload : Bytes) : Bytes := bytesOfU32 payload.length ++ payload

namespace NetMessages

variable {M : Type} (net : NetMessages M)

def payload : Frame M → Bytes
  | .sent m => net.pack m
  | .crafted payload => payload

def frame : Frame M → Bytes
  | .sent m => net.msgEnqueue m
  | .crafted payload => frameOf payload

def stream (frames : List (Frame M)) : Bytes := (frames.map net.frame).flatten

/-- Whatever follows the payload, unpacking takes the payload and nothing more, or always throws. The
tag is in one byte. -/
def Contained (payload : Bytes) (r : Option M) : Prop :=
  (∃ b rest, payload = b :: rest ∧ b / 128 % 2 = 0) ∧
    match r with
    | some m => ∀ rest, net.unpack.ComesTo (payload ++ rest) (some m, rest)
    | none => ∀ rest, ∃ left, net.unpack.ComesTo (payload ++ rest) (none, left)

/-- What the payload of a frame is to be read as: a message, or a reason to close the connection. -/
def Yields (payload : Bytes) (r : Option M) : Prop :=
  if defSendBufferSize * 2 < payload.length then r = none else net.Contained payload r

/-- How a frame is to be read. -/
def ReadAs : Frame M → Option M → Prop
  | .sent m, r => r = some m
  | .crafted payload, r => net.Yields payload r

/-- Packing is undone by unpacking, and a message is one of fewer than 128 kinds. -/
structure RoundTrips : Prop where
  unpack_pack : ∀ m rest, net.unpack.ComesTo (net.pack m ++ rest) (some m, rest)
  tag : ∀ m, ∃ b rest, net.pack m = b :: rest ∧ b / 128 % 2 = 0

/-- The messages that are handed to the handlers, after those that were, and whether the connection is
open then. -/
def deliver : List M → List (Option M) → List M × Bool
  | handled, [] => (handled, true)
  | handled, none :: _ => (handled, false)
  | handled, some m :: rs =>
    match net.handleMessage handled m with
    | .returns => deliver (handled ++ [m]) rs
    | .closes => (handled ++ [m], false)
    | .throws => (handled ++ [m], false)

variable {net}

theorem Contained.comesTo {payload : Bytes} {r : Option M} (h : net.Contained payload r)
    (rest : Bytes) :
    ∃ left, net.unpack.ComesTo (payload ++ rest) (r, left) ∧ (r ≠ none → left = rest) := by
  rcases r with _ | m
  · obtain ⟨left, hleft⟩ := h.2 rest
    exact ⟨left, hleft, fun hne => absurd rfl hne⟩
  · exact ⟨rest, h.2 rest, fun _ => rfl⟩

theorem deliver_cons (handled : List M) (r : Option M) (rs : List (Option M)) :
    net.deliver handled (r :: rs) =
      if (net.deliver handled [r]).2 then net.deliver (net.deliver handled [r]).1 rs
      else net.deliver handled [r] := by
  rcases r with _ | m
  · rfl
  · rcases h : net.handleMessage handled m <;> simp [deliver, h]

theorem deliver_append (handled : List M) (rs rs' : List (Option M)) :
    net.deliver handled (rs ++ rs') =
      if (net.deliver handled rs).2 then net.deliver (net.deliver handled rs).1 rs'
      else net.deliver handled rs := by
  induction rs generalizing handled with
  | nil => rfl
  | cons r rs ih =>
    rw [List.cons_append, deliver_cons, deliver_cons handled r rs]
    by_cases h : (net.deliver handled [r]).2 = true
    · simp only [if_pos h, ih]
    · simp only [if_neg h]

end NetMessages

theorem u32OfBytes_bytesOfU32 {n : ℕ} (h : n < 2 ^ 32) : u32OfBytes (bytesOfU32 n) = n := by
  simp only [u32OfBytes, bytesOfU32, List.foldr]
  omega

namespace ReadSide

variable {len : ℕ} {M : Type} {net : NetMessages M}

/-- The buffer holds these bytes to read. -/
def Holds (mb : MessageBuffer len) (bytes : Bytes) : Prop := mb.Ok ∧ mb.Counts ∧ mb.unread = bytes

theorem read_alike : Machine.Alike (τ := ℕ) (Holds : MessageBuffer len → Bytes → Prop)
    MessageBuffer.read takeTokens := by
  rintro mb bytes n ⟨hok, hcounts, rfl⟩
  rw [takeTokens]
  split_ifs with hn
  · obtain ⟨mb', hread, hok', hcounts', hunread⟩ := hok.read_of_le hcounts hn
    rw [hread]
    exact .some ⟨rfl, hok', hcounts', hunread⟩
  · rw [hok.read_of_lt hcounts (by omega)]
    exact .none

theorem Holds.peekWhich {mb : MessageBuffer len} {b : ℕ} {rest : Bytes} (h : Holds mb (b :: rest))
    (hb : b / 128 % 2 = 0) {fuel : ℕ} (hfuel : 0 < fuel) :
    peekWhich mb mb.readInd fuel 0 0 0 = some (u32 (b % 128)) := by
  obtain ⟨hok, hcounts, hunread⟩ := h
  obtain ⟨fuel, rfl⟩ : ∃ n, fuel = n + 1 := ⟨fuel - 1, by omega⟩
  have hpeek := hok.peek_of_le hcounts (show 1 ≤ mb.unread.length by rw [hunread]; simp)
  rw [hunread] at hpeek
  simp [ReadSide.peekWhich, hpeek, hb]

@[simp] theorem saveRawBlock_pendingMessageBuffer (c : ReadSide len M) (which messageLength : ℕ) :
    (c.saveRawBlock which messageLength).pendingMessageBuffer = c.pendingMessageBuffer := by
  rw [saveRawBlock]
  split_ifs <;> rfl

@[simp] theorem saveRawBlock_isOpen (c : ReadSide len M) (which messageLength : ℕ) :
    (c.saveRawBlock which messageLength).isOpen = c.isOpen := by
  rw [saveRawBlock]
  split_ifs <;> rfl

@[simp] theorem saveRawBlock_handled (c : ReadSide len M) (which messageLength : ℕ) :
    (c.saveRawBlock which messageLength).handled = c.handled := by
  rw [saveRawBlock]
  split_ifs <;> rfl

theorem Holds.reset {mb : MessageBuffer len} {bytes : Bytes} (h : Holds mb bytes) :
    Holds mb.reset [] := by
  obtain ⟨hok, -, -⟩ := h
  refine ⟨hok.reset.1, ?_, hok.reset.2⟩
  rw [MessageBuffer.Counts, hok.reset.2]
  exact show 0 + 0 < 2 ^ 32 by decide

/-- What processing a frame comes to, when unpacking comes to `r` and leaves `left`. -/
structure Processed (net : NetMessages M) (handled : List M) (r : Option M) (left : Bytes)
    (goOn : Bool) (c : ReadSide len M) : Prop where
  delivered : (c.handled, c.isOpen) = net.deliver handled [r]
  holds : Holds c.pendingMessageBuffer (if c.isOpen then left else [])
  goOn : c.isOpen = true → goOn = true

theorem visit_processed {c : ReadSide len M} {left : Bytes} (hopen : c.isOpen = true)
    (hc : Holds c.pendingMessageBuffer left) (r : Option M) :
    Processed net c.handled r left (visit net c r).1 (visit net c r).2 := by
  rcases r with _ | m
  · exact ⟨rfl, hc.reset, fun h => by cases h⟩
  · rw [visit]
    rcases hm : net.handleMessage c.handled m <;> simp only
    · exact ⟨by simp [NetMessages.deliver, hm, hopen], by simpa [hopen] using hc, fun _ => rfl⟩
    · exact ⟨by simp [NetMessages.deliver, hm, close], hc.reset, fun _ => rfl⟩
    · exact ⟨by simp [NetMessages.deliver, hm, close], hc.reset, fun h => by cases h⟩

theorem processNextMessage_of_comesTo {c : ReadSide len M} {b : ℕ} {rest left : Bytes}
    {r : Option M} (hopen : c.isOpen = true) (hc : Holds c.pendingMessageBuffer (b :: rest))
    (hb : b / 128 % 2 = 0) (hcomes : net.unpack.ComesTo (b :: rest) (r, left)) (messageLength : ℕ) :
    ∃ goOn c', (∃ n, ∀ fuel ≥ n, processNextMessage net fuel c messageLength = some (goOn, c')) ∧
      Processed net c.handled r left goOn c' := by
  obtain ⟨steps, hlist⟩ := hcomes
  -- the machine comes to the same on the buffer as on the bytes that it holds
  obtain ⟨mb, hrun, hmb⟩ : ∃ mb, net.unpack.run MessageBuffer.read steps net.unpack.start
      c.pendingMessageBuffer = some (r, mb) ∧ Holds mb left := (Machine.run_of_alike read_alike hc).2 hlist
  let c' : ReadSide len M :=
    { c.saveRawBlock (u32 (b % 128)) messageLength with pendingMessageBuffer := mb }
  have hhandled : c'.handled = c.handled := saveRawBlock_handled ..
  have hproc : Processed net c'.handled r left (visit net c' r).1 (visit net c' r).2 :=
    visit_processed (c := c') ((saveRawBlock_isOpen ..).trans hopen) hmb r
  rw [hhandled] at hproc
  refine ⟨_, _, ⟨steps + 1, fun fuel hfuel => ?_⟩, hproc⟩
  rw [processNextMessage, hc.peekWhich hb (by omega)]
  simp only [saveRawBlock_pendingMessageBuffer, Machine.run_mono hrun (show steps ≤ fuel by omega)]
  rfl

/-! ## The frames that have arrived -/

theorem frameOf_length (payload : Bytes) : (frameOf payload).length = 4 + payload.length := by
  rw [frameOf, List.length_append]
  rfl

theorem Holds.header {mb : MessageBuffer len} {bytes : Bytes} (h : Holds mb bytes)
    (hheader : 4 ≤ bytes.length) :
    u32OfBytes ((mb.peek 4 mb.readInd).getD []) = u32OfBytes (bytes.take 4) := by
  obtain ⟨hok, hcounts, rfl⟩ := h
  rw [hok.peek_of_le hcounts hheader, Option.getD_some]

/-- The first four bytes of a frame that has arrived so far say its length. -/
theorem Holds.messageLength {mb : MessageBuffer len} {bytes later payload rest : Bytes}
    (h : Holds mb bytes) (hpayload : payload.length < 2 ^ 32) (hheader : 4 ≤ bytes.length)
    (heq : bytes ++ later = frameOf payload ++ rest) :
    u32OfBytes ((mb.peek 4 mb.readInd).getD []) = payload.length := by
  have htake := congrArg (List.take 4) heq
  rw [List.take_append_of_le_length hheader, frameOf, List.append_assoc, List.take_left' (by rfl)]
    at htake
  rw [h.header hheader, htake, u32OfBytes_bytesOfU32 hpayload]

/-- What the loop comes to, when these frames are what is to come. -/
structure Looped (net : NetMessages M) (handled : List M) (bytes : Bytes) (payloads : List Bytes)
    (rs : List (Option M)) (c : ReadSide len M) (n : ℕ) : Prop where
  delivered : (c.handled, c.isOpen) = net.deliver handled (rs.take n)
  ok : c.pendingMessageBuffer.Ok
  unread : c.isOpen = true →
    bytes = ((payloads.take n).map frameOf).flatten ++ c.pendingMessageBuffer.unread
  short : c.isOpen = true → ∀ payload, payloads[n]? = some payload →
    c.pendingMessageBuffer.unread.length < (frameOf payload).length

/-- Nothing was processed. -/
theorem Looped.waits {payloads : List Bytes} {rs : List (Option M)} {c : ReadSide len M}
    {bytes : Bytes} (hopen : c.isOpen = true) (hok : c.pendingMessageBuffer.Ok)
    (hunread : c.pendingMessageBuffer.unread = bytes)
    (hshort : ∀ p ∈ payloads.head?, bytes.length < (frameOf p).length) :
    Looped net c.handled bytes payloads rs c 0 where
  delivered := by simp [NetMessages.deliver, hopen]
  ok := hok
  unread _ := hunread.symm
  short _ p hp := by
    rw [hunread]
    exact hshort p (by rwa [List.head?_eq_getElem?])

/-- The first frame closed the connection. -/
theorem Looped.closed {handled : List M} {bytes : Bytes} {payloads : List Bytes} {r : Option M}
    {rs : List (Option M)} {c : ReadSide len M} (hclosed : c.isOpen = false)
    (hdelivered : (c.handled, c.isOpen) = net.deliver handled [r]) (hok : c.pendingMessageBuffer.Ok) :
    Looped net handled bytes payloads (r :: rs) c 1 where
  delivered := hdelivered
  ok := hok
  unread h := by rw [hclosed] at h; cases h
  short h := by rw [hclosed] at h; cases h

/-- A frame was processed, and then the loop went on. -/
theorem Looped.cons {handled : List M} {bytes : Bytes} {payload : Bytes} {payloads : List Bytes}
    {r : Option M} {rs : List (Option M)} {c c' : ReadSide len M} {n : ℕ} (hopen : c.isOpen = true)
    (hdelivered : (c.handled, c.isOpen) = net.deliver handled [r])
    (h : Looped net c.handled bytes payloads rs c' n) :
    Looped net handled (frameOf payload ++ bytes) (payload :: payloads) (r :: rs) c' (n + 1) where
  delivered := by
    rw [List.take_succ_cons, NetMessages.deliver_cons, ← hdelivered, if_pos hopen]
    exact h.delivered
  ok := h.ok
  unread hopen' := by
    rw [List.take_succ_cons, List.map_cons, List.flatten_cons, List.append_assoc, ← h.unread hopen']
  short hopen' p hp := h.short hopen' p hp

theorem readMessages_of_short {c : ReadSide len M} {bytes : Bytes}
    (hc : Holds c.pendingMessageBuffer bytes) (hshort : bytes.length < 4) {fuel : ℕ}
    (hfuel : 0 < fuel) : readMessages net fuel c = some c := by
  obtain ⟨fuel, rfl⟩ : ∃ n, fuel = n + 1 := ⟨fuel - 1, by omega⟩
  obtain ⟨hok, hcounts, rfl⟩ := hc
  have hcount : c.pendingMessageBuffer.bytesToRead < messageHeaderSize := by
    rw [hok.bytesToRead_eq, u32_of_lt (by omega)]
    exact hshort
  rw [readMessages]
  simp only [hcount, if_true]

/-- One round of the loop, with a header to read. -/
theorem readMessages_succ (net : NetMessages M) {c : ReadSide len M} {bytes : Bytes} {messageLength : ℕ}
    (hc : Holds c.pendingMessageBuffer bytes) (hheader : 4 ≤ bytes.length)
    (hlen : u32OfBytes ((c.pendingMessageBuffer.peek 4 c.pendingMessageBuffer.readInd).getD []) =
      messageLength) (fuel : ℕ) :
    readMessages net (fuel + 1) c =
      if defSendBufferSize * 2 < messageLength then some c.close
      else if messageLength + 4 ≤ bytes.length then
        match processNextMessage net fuel
          { c with pendingMessageBuffer := c.pendingMessageBuffer.advanceReadPtr 4 } messageLength with
        | none => none
        | some (false, c) => some c
        | some (true, c) => readMessages net fuel c
      else some { c with pendingMessageBuffer :=
        c.pendingMessageBuffer.addSpace (messageLength + 4 - bytes.length) } := by
  obtain ⟨hok, hcounts, rfl⟩ := hc
  have hread := hok.read_lt
  have hcount : c.pendingMessageBuffer.bytesToRead = c.pendingMessageBuffer.unread.length := by
    rw [hok.bytesToRead_eq, u32_of_lt (by rw [MessageBuffer.Counts] at hcounts; omega)]
  rw [readMessages]
  simp only [hcount, hlen, messageHeaderSize, if_neg (Nat.not_lt.2 hheader)]

theorem Holds.advanceReadPtr {mb : MessageBuffer len} {bytes rest : Bytes} (h : Holds mb (bytes ++ rest)) :
    Holds (mb.advanceReadPtr bytes.length) rest := by
  obtain ⟨hok, hcounts, hunread⟩ := h
  have hbytes : bytes.length ≤ mb.unread.length := by
    rw [hunread, List.length_append]
    omega
  obtain ⟨hok', hunread'⟩ := hok.advanceReadPtr hcounts hbytes
  rw [hunread, List.drop_left] at hunread'
  exact ⟨hok', hcounts.advanceReadPtr hok hbytes, hunread'⟩

theorem readMessages_frames {payloads : List Bytes} {rs : List (Option M)}
    (hyields : List.Forall₂ net.Yields payloads rs) (hsizes : ∀ p ∈ payloads, p.length < 2 ^ 32)
    {c : ReadSide len M} {bytes later : Bytes} (hopen : c.isOpen = true)
    (hc : Holds c.pendingMessageBuffer bytes)
    (heq : bytes ++ later = (payloads.map frameOf).flatten) :
    ∃ c' n, (∃ m, ∀ fuel ≥ m, readMessages net fuel c = some c') ∧
      Looped net c.handled bytes payloads rs c' n := by
  induction hyields generalizing c bytes with
  | nil =>
    have hnil : bytes = [] := (List.append_eq_nil_iff.1 heq).1
    refine ⟨c, 0, ⟨1, fun fuel hfuel => readMessages_of_short hc (by simp [hnil]) hfuel⟩, ?_⟩
    exact .waits hopen hc.1 hc.2.2 fun p hp => by cases hp
  | @cons payload r payloads rs hpayload hrest ih =>
    rw [List.map_cons, List.flatten_cons] at heq
    rcases Nat.lt_or_ge bytes.length 4 with hshort | hheader
    · refine ⟨c, 0, ⟨1, fun fuel hfuel => readMessages_of_short hc hshort hfuel⟩, ?_⟩
      refine .waits hopen hc.1 hc.2.2 fun p hp => ?_
      rw [frameOf_length]
      omega
    have hsize := hsizes payload List.mem_cons_self
    have hstep := readMessages_succ net hc hheader
      (hc.messageLength hsize hheader heq)
    rw [NetMessages.Yields] at hpayload
    split_ifs at hpayload with hbig
    · -- too long: closed at the header
      subst hpayload
      refine ⟨c.close, 1, ⟨1, fun fuel hfuel => ?_⟩, .closed rfl rfl hc.reset.1⟩
      obtain ⟨fuel, rfl⟩ : ∃ n, fuel = n + 1 := ⟨fuel - 1, by omega⟩
      rw [hstep, if_pos hbig]
    rcases Nat.lt_or_ge bytes.length (payload.length + 4) with hpart | hwhole
    · -- the rest of the frame is waited for
      obtain ⟨hok, hunread⟩ := hc.1.addSpace (payload.length + 4 - bytes.length)
      rw [hc.2.2] at hunread
      let mb := c.pendingMessageBuffer.addSpace (payload.length + 4 - bytes.length)
      let c' : ReadSide len M := { c with pendingMessageBuffer := mb }
      refine ⟨c', 0, ⟨1, fun fuel hfuel => ?_⟩, .waits (c := c') hopen hok hunread fun p hp => ?_⟩
      · obtain ⟨fuel, rfl⟩ : ∃ n, fuel = n + 1 := ⟨fuel - 1, by omega⟩
        rw [hstep, if_neg hbig, if_neg (by omega)]
      · simp only [List.head?_cons, Option.mem_some_iff] at hp
        rw [frameOf_length, ← hp]
        omega
    -- the whole frame is there
    have harrived : frameOf payload <+: bytes := List.prefix_of_prefix_length_le
      (List.prefix_append _ _) (heq ▸ List.prefix_append _ _) (by rw [frameOf_length]; omega)
    have hwhole' : (frameOf payload).length ≤ bytes.length := harrived.length_le
    obtain ⟨rest, rfl⟩ := harrived
    rw [List.append_assoc, List.append_cancel_left_eq] at heq
    obtain ⟨b, tail, hpay, hb⟩ := hpayload.1
    obtain ⟨left, hcomes, hleft⟩ := hpayload.comesTo rest
    have hframe : Holds (c.pendingMessageBuffer.advanceReadPtr 4) (b :: (tail ++ rest)) := by
      rw [frameOf, List.append_assoc, hpay] at hc
      exact hc.advanceReadPtr
    rw [hpay, List.cons_append] at hcomes
    obtain ⟨goOn, c₁, ⟨m, hproc⟩, hprocessed⟩ := processNextMessage_of_comesTo
      (c := { c with pendingMessageBuffer := c.pendingMessageBuffer.advanceReadPtr 4 }) hopen hframe hb
      hcomes payload.length
    have hloop : ∀ fuel ≥ m, readMessages net (fuel + 1) c =
        if goOn then readMessages net fuel c₁ else some c₁ := fun fuel hfuel => by
      rw [frameOf_length] at hwhole'
      rw [hstep, if_neg hbig, if_pos (by omega), hproc fuel hfuel]
      cases goOn <;> rfl
    rcases hopen₁ : c₁.isOpen with _ | _
    · refine ⟨c₁, 1, ⟨m + 2, fun fuel hfuel => ?_⟩, .closed hopen₁ hprocessed.delivered hprocessed.holds.1⟩
      obtain ⟨fuel, rfl⟩ : ∃ n, fuel = n + 1 := ⟨fuel - 1, by omega⟩
      have hholds := hprocessed.holds
      rw [hopen₁] at hholds
      rw [hloop fuel (by omega), readMessages_of_short hholds (by simp) (by omega), ite_self]
    · have hsome : r ≠ none := by
        rintro rfl
        exact absurd (congrArg Prod.snd hprocessed.delivered) (by simp [hopen₁, NetMessages.deliver])
      obtain ⟨c', n, ⟨k, hrec⟩, hlooped⟩ := ih (fun p hp => hsizes p (List.mem_cons_of_mem _ hp)) hopen₁
        (by simpa [hopen₁, hleft hsome] using hprocessed.holds) heq
      refine ⟨c', n + 1, ⟨max m k + 1, fun fuel hfuel => ?_⟩, hlooped.cons hopen₁ hprocessed.delivered⟩
      obtain ⟨fuel, rfl⟩ : ∃ n, fuel = n + 1 := ⟨fuel - 1, by omega⟩
      rw [hloop fuel (by omega), if_pos (hprocessed.goOn hopen₁), hrec fuel (by omega)]

/-- The 32-bit counts are right for these bytes. -/
structure Counted (mb : MessageBuffer len) (bytes : Bytes) : Prop where
  bytesToWrite : bytes.length ≤ mb.bytesToWrite
  counts : mb.readInd.2 + mb.unread.length + bytes.length < 2 ^ 32

/-- A connection that was read from in these pieces, none longer than the buffers given to
`async_read_some`, and the counts were right each time. -/
inductive Reads (net : NetMessages M) : List Bytes → ReadSide len M → Prop
  | start : Reads net [] {}
  | read {pieces : List Bytes} {c c' : ReadSide len M} {bytes : Bytes} : Reads net pieces c →
      c.isOpen = true → c.pendingMessageBuffer.writePos + bytes.length ≤
        c.pendingMessageBuffer.totalBytes →
      Counted c.pendingMessageBuffer bytes → Returns net c bytes c' → Reads net (pieces ++ [bytes]) c'

/-- `n` frames were processed, and the rest of what arrived is less than one frame. -/
structure FramesRead (net : NetMessages M) (frames : List (Frame M)) (rs : List (Option M))
    (bytes : Bytes) (c : ReadSide len M) (n : ℕ) : Prop where
  delivered : (c.handled, c.isOpen) = net.deliver [] (rs.take n)
  ok : c.pendingMessageBuffer.Ok
  unread : c.isOpen = true →
    bytes = net.stream (frames.take n) ++ c.pendingMessageBuffer.unread
  short : c.isOpen = true → ∀ f, frames[n]? = some f →
    c.pendingMessageBuffer.unread.length < (net.frame f).length

theorem Holds.receive {mb : MessageBuffer len} {bytes : Bytes} (hok : mb.Ok)
    (hspace : mb.writePos + bytes.length ≤ mb.totalBytes) (hcounted : Counted mb bytes) :
    Holds ((mb.receive bytes).advanceWritePtr bytes.length) (mb.unread ++ bytes) := by
  have hcounts := hcounted.counts
  have hwrite := hok.writeInd_le
  obtain ⟨hok', hunread⟩ := hok.receive (by rwa [MessageBuffer.totalBytes, Nat.mul_comm] at hspace)
    (by omega)
  refine ⟨hok', ?_, hunread⟩
  rw [MessageBuffer.Counts, MessageBuffer.advanceWritePtr_readInd, hunread, List.length_append, ← Nat.add_assoc]
  exact hcounts

theorem stream_eq {frames : List (Frame M)}
    (hframes : ∀ f ∈ frames, net.frame f = frameOf (net.payload f)) :
    net.stream frames = ((frames.map net.payload).map frameOf).flatten := by
  rw [NetMessages.stream, List.map_map]
  congr 1
  exact List.map_congr_left hframes

/-- Bytes that there is room for are read. -/
theorem startReadMessage_of_counted {c : ReadSide len M} {bytes : Bytes}
    (hcounted : Counted c.pendingMessageBuffer bytes) (fuel : ℕ) :
    startReadMessage net fuel c bytes = readMessages net fuel { c with
      pendingMessageBuffer :=
        (c.pendingMessageBuffer.receive bytes).advanceWritePtr bytes.length } := by
  have hcount : ¬ (c.pendingMessageBuffer.receive bytes).bytesToWrite < bytes.length :=
    Nat.not_lt.2 hcounted.bytesToWrite
  rw [startReadMessage]
  simp only [if_neg hcount]

/-- The callback returns, and what was processed is frames still. -/
theorem startReadMessage_frames {frames : List (Frame M)} {rs : List (Option M)}
    (hframes : ∀ f ∈ frames, net.frame f = frameOf (net.payload f))
    (hsizes : ∀ f ∈ frames, (net.payload f).length < 2 ^ 32)
    (hyields : List.Forall₂ net.Yields (frames.map net.payload) rs) {arrived bytes : Bytes}
    {c : ReadSide len M} {n : ℕ} (h : FramesRead net frames rs arrived c n) (hopen : c.isOpen = true)
    (hspace : c.pendingMessageBuffer.writePos + bytes.length ≤ c.pendingMessageBuffer.totalBytes)
    (hcounted : Counted c.pendingMessageBuffer bytes) (hpre : arrived ++ bytes <+: net.stream frames) :
    ∃ c' n', Returns net c bytes c' ∧ FramesRead net frames rs (arrived ++ bytes) c' n' := by
  obtain ⟨later, hlater⟩ := hpre
  let mb := (c.pendingMessageBuffer.receive bytes).advanceWritePtr bytes.length
  let c₁ : ReadSide len M := { c with pendingMessageBuffer := mb }
  have hholds : Holds c₁.pendingMessageBuffer (c.pendingMessageBuffer.unread ++ bytes) :=
    .receive h.ok hspace hcounted
  have hdropped : ∀ f ∈ frames.drop n, net.frame f = frameOf (net.payload f) :=
    fun f hf => hframes f (List.mem_of_mem_drop hf)
  have heq : c.pendingMessageBuffer.unread ++ bytes ++ later =
      (((frames.map net.payload).drop n).map frameOf).flatten := by
    have hsplit : net.stream frames = net.stream (frames.take n) ++ net.stream (frames.drop n) := by
      rw [NetMessages.stream, NetMessages.stream, NetMessages.stream, ← List.flatten_append,
        ← List.map_append, List.take_append_drop]
    rw [hsplit, h.unread hopen, List.append_assoc, List.append_assoc, List.append_cancel_left_eq,
      stream_eq hdropped, ← List.append_assoc] at hlater
    rw [hlater, List.map_drop]
  obtain ⟨c', k, ⟨m, hloop⟩, hlooped⟩ := readMessages_frames (List.forall₂_drop n hyields)
    (fun p hp => by
      obtain ⟨f, hf, rfl⟩ := List.mem_map.1 (List.mem_of_mem_drop hp)
      exact hsizes f hf) (c := c₁) hopen hholds heq
  have htake : (frames.map net.payload).drop n = (frames.drop n).map net.payload := (List.map_drop ..).symm
  refine ⟨c', n + k, ⟨m, fun fuel hfuel => ?_⟩, ?_, hlooped.ok, fun hopen' => ?_, fun hopen' f hf => ?_⟩
  · rw [startReadMessage_of_counted hcounted]
    exact hloop fuel hfuel
  · have hdelivered := h.delivered
    rw [hopen] at hdelivered
    rw [List.take_add, NetMessages.deliver_append, ← hdelivered, if_pos rfl]
    exact hlooped.delivered
  · rw [h.unread hopen, List.append_assoc, hlooped.unread hopen', ← List.append_assoc, List.take_add,
      htake, ← List.map_take, ← stream_eq fun f hf => hdropped f (List.mem_of_mem_take hf),
      NetMessages.stream, NetMessages.stream, NetMessages.stream, ← List.flatten_append, List.map_append]
  · have hf' : (frames.drop n)[k]? = some f := by rwa [List.getElem?_drop]
    rw [hframes f (List.mem_of_getElem? hf)]
    refine hlooped.short hopen' _ ?_
    rw [htake, List.getElem?_map, hf', Option.map_some]

theorem Returns.unique {c c' c'' : ReadSide len M} {bytes : Bytes} (h : Returns net c bytes c')
    (h' : Returns net c bytes c'') : c' = c'' := by
  obtain ⟨n, hn⟩ := h
  obtain ⟨n', hn'⟩ := h'
  exact Option.some.inj ((hn (max n n') (le_max_left n n')).symm.trans (hn' _ (le_max_right n n')))

theorem yields_payload (hnet : net.RoundTrips) {f : Frame M} {r : Option M}
    (hsent : ∀ m, f = .sent m → (net.pack m).length ≤ defSendBufferSize * 2) (h : net.ReadAs f r) :
    net.Yields (net.payload f) r := by
  rcases f with m | payload
  · subst h
    rw [NetMessages.Yields, NetMessages.payload, if_neg (Nat.not_lt.2 (hsent m rfl))]
    exact ⟨hnet.tag m, hnet.unpack_pack m⟩
  · exact h

/-- Whatever the pieces, what was processed is frames. -/
theorem Reads.framesRead (hlen : 0 < len) {frames : List (Frame M)} {rs : List (Option M)}
    (hframes : ∀ f ∈ frames, net.frame f = frameOf (net.payload f))
    (hsizes : ∀ f ∈ frames, (net.payload f).length < 2 ^ 32)
    (hyields : List.Forall₂ net.Yields (frames.map net.payload) rs) {pieces : List Bytes}
    {c : ReadSide len M} (hreads : Reads net pieces c)
    (hpre : pieces.flatten <+: net.stream frames) :
    ∃ n, FramesRead net frames rs pieces.flatten c n := by
  induction hreads with
  | start =>
    refine ⟨0, rfl, .new hlen, fun _ => by simp [NetMessages.stream, MessageBuffer.Ok.unread_new],
      fun _ f hf => ?_⟩
    rw [hframes f (List.mem_of_getElem? hf), frameOf_length, MessageBuffer.Ok.unread_new]
    exact Nat.lt_of_lt_of_le (by decide) (Nat.le_add_right ..)
  | @read pieces c c' bytes _ hopen hspace hcounted hreturns ih =>
    rw [List.flatten_append, List.flatten_singleton] at hpre ⊢
    obtain ⟨n, hn⟩ := ih ((List.prefix_append ..).trans hpre)
    obtain ⟨c'', n', hreturns', hn'⟩ :=
      startReadMessage_frames hframes hsizes hyields hn hopen hspace hcounted hpre
    rw [hreturns.unique hreturns']
    exact ⟨n', hn'⟩

/-- Once the whole stream has arrived all of its frames were processed. -/
theorem FramesRead.all {frames : List (Frame M)} {rs : List (Option M)} {c : ReadSide len M} {n : ℕ}
    (h : FramesRead net frames rs (net.stream frames) c n) (hlength : rs.length = frames.length) :
    (c.handled, c.isOpen) = net.deliver [] rs := by
  rw [h.delivered]
  rcases hopen : c.isOpen with _ | _
  · have hclosed : (net.deliver [] (rs.take n)).2 = false := by rw [← h.delivered, hopen]
    conv_rhs => rw [← List.take_append_drop n rs, NetMessages.deliver_append, hclosed]
    rfl
  · rcases Nat.lt_or_ge n frames.length with hn | hn
    · have hshort := h.short hopen _ (List.getElem?_eq_getElem hn)
      have hlen := congrArg List.length (h.unread hopen)
      have hsplit : frames = frames.take n ++ frames[n] :: frames.drop (n + 1) := by
        rw [List.getElem_cons_drop, List.take_append_drop]
      conv at hlen in net.stream frames => rw [hsplit]
      simp only [NetMessages.stream, List.map_append, List.map_cons, List.flatten_append,
        List.flatten_cons, List.length_append] at hlen
      omega
    · rw [List.take_of_length_le (by omega)]

/-- Frames read in pieces that the 32-bit counts are right for, where every payload that is not a message
of `msg_enqueue` is taken whole and with nothing more by unpacking or always throws: whatever the pieces,
the messages handed to the handlers are those of the frames that have arrived, up to the one that closed
the connection, what is unread begins with a frame, and the next callback returns. -/
theorem frames_delivered (hlen : 0 < len) (hnet : net.RoundTrips) {frames : List (Frame M)}
    {rs : List (Option M)}
    (hsent : ∀ m, .sent m ∈ frames → (net.pack m).length ≤ defSendBufferSize * 2)
    (hcrafted : ∀ payload, .crafted payload ∈ frames → payload.length < 2 ^ 32)
    (hread : List.Forall₂ net.ReadAs frames rs) {pieces : List Bytes} {c : ReadSide len M}
    (hreads : Reads net pieces c) (hpre : pieces.flatten <+: net.stream frames) :
    (∃ n, FramesRead net frames rs pieces.flatten c n) ∧
      (pieces.flatten = net.stream frames → (c.handled, c.isOpen) = net.deliver [] rs) ∧
      ∀ bytes, c.isOpen = true →
        c.pendingMessageBuffer.writePos + bytes.length ≤ c.pendingMessageBuffer.totalBytes →
        Counted c.pendingMessageBuffer bytes → pieces.flatten ++ bytes <+: net.stream frames →
        ∃ c', Returns net c bytes c' := by
  have hsizes : ∀ f ∈ frames, (net.payload f).length < 2 ^ 32 := by
    rintro (m | payload) hf
    · exact (hsent m hf).trans_lt (by decide)
    · exact hcrafted payload hf
  have hframes : ∀ f ∈ frames, net.frame f = frameOf (net.payload f) := by
    rintro (m | payload) hf
    · have hsize : u32 (net.pack m).length = (net.pack m).length := u32_of_lt (hsizes _ hf)
      rw [NetMessages.frame, NetMessages.msgEnqueue, hsize]
      rfl
    · rfl
  have hyields : List.Forall₂ net.Yields (frames.map net.payload) rs := by
    have hboth := (List.forall₂_and_left (p := fun f => f ∈ frames) frames rs).2 ⟨fun _ hf => hf, hread⟩
    exact List.forall₂_map_left_iff.2 (hboth.imp fun f r h =>
      yields_payload hnet (fun m hm => hsent m (hm ▸ h.1)) h.2)
  obtain ⟨n, hn⟩ := hreads.framesRead hlen hframes hsizes hyields hpre
  refine ⟨⟨n, hn⟩, fun hall => ?_, fun bytes hopen hspace hcounted hnext => ?_⟩
  · rw [hall] at hn
    exact hn.all hread.length_eq.symm
  · obtain ⟨c', -, hreturns, -⟩ :=
      startReadMessage_frames hframes hsizes hyields hn hopen hspace hcounted hnext
    exact ⟨c', hreturns⟩

/-- `request_block_message` alone of all messages: its tag, and a block number in 32 bits. -/
def requestBlockMessages : NetMessages (Fin (2 ^ 32)) where
  pack m := 11 :: bytesOfU32 m
  unpack :=
    { State := List Bytes
      start := []
      step := fun
        | [] => .get fun b => [[b.getD 0]]
        | [[11]] => .read 4 fun bytes => [[11], bytes]
        | [[11], bytes] => .done ⟨u32 (u32OfBytes bytes), u32_lt _⟩
        | _ => .fails }
  handleMessage _ _ := .returns

theorem requestBlockMessages_roundTrips : requestBlockMessages.RoundTrips where
  unpack_pack m rest := by
    refine ⟨3, ?_⟩
    have hm : (⟨u32 (u32OfBytes (bytesOfU32 m)), u32_lt _⟩ : Fin (2 ^ 32)) = m := by
      rw [Fin.ext_iff, u32OfBytes_bytesOfU32 m.isLt]
      exact u32_of_lt m.isLt
    simpa [Machine.run, requestBlockMessages, takeTokens, bytesOfU32] using hm
  tag m := ⟨11, _, rfl, rfl⟩

/-- A request for block 1 that arrives in one piece is handed over. -/
theorem frames_delivered_request :
    ∃ c : ReadSide (1024 * 1024) (Fin (2 ^ 32)),
      Reads requestBlockMessages [requestBlockMessages.stream [.sent 1]] c ∧
        (c.handled, c.isOpen) = ([1], true) := by
  have hstream : requestBlockMessages.stream [.sent 1] = [5, 0, 0, 0, 11, 1, 0, 0, 0] := by decide
  rw [hstream]
  have hread : List.Forall₂ requestBlockMessages.ReadAs [.sent 1] [some 1] := .cons rfl .nil
  have hdelivered := fun {pieces : List Bytes} {c : ReadSide (1024 * 1024) (Fin (2 ^ 32))}
      (hreads : Reads requestBlockMessages pieces c) =>
    frames_delivered (by decide) requestBlockMessages_roundTrips (fun m _ => show 5 ≤ _ by decide)
      (fun _ h => by simp at h) hread hreads
  rw [hstream] at hdelivered
  have hcounted : Counted ({} : MessageBuffer (1024 * 1024)) [5, 0, 0, 0, 11, 1, 0, 0, 0] :=
    ⟨by decide, by rw [MessageBuffer.Ok.unread_new]; decide⟩
  obtain ⟨-, -, hnext⟩ := hdelivered .start (List.nil_prefix)
  obtain ⟨c, hreturns⟩ := hnext _ rfl (by decide) hcounted List.prefix_rfl
  have hreads : Reads requestBlockMessages [[5, 0, 0, 0, 11, 1, 0, 0, 0]] c :=
    .read .start rfl (by decide) hcounted hreturns
  exact ⟨c, hreads, (hdelivered hreads List.prefix_rfl).2.1 rfl⟩

/-- A connection that is given a request for block 1 with one byte too many and then a request for block
2: the byte is taken for the start of the next length, and block 2 is never asked for. -/
theorem longer_payload_shifts_frames :
    ∃ c : ReadSide (1024 * 1024) (Fin (2 ^ 32)),
      Reads requestBlockMessages
        [requestBlockMessages.stream [.crafted [11, 1, 0, 0, 0, 42], .sent 2]] c ∧
      ¬ ∃ rs : List (Option (Fin (2 ^ 32))), rs.length = 2 ∧
        (c.handled, c.isOpen) = requestBlockMessages.deliver [] rs := by
  have hstream : requestBlockMessages.stream [.crafted [11, 1, 0, 0, 0, 42], .sent 2] =
      [6, 0, 0, 0, 11, 1, 0, 0, 0, 42, 5, 0, 0, 0, 11, 2, 0, 0, 0] := by decide
  rw [hstream]
  set bytes : Bytes := [6, 0, 0, 0, 11, 1, 0, 0, 0, 42, 5, 0, 0, 0, 11, 2, 0, 0, 0] with hbytes
  let mb : MessageBuffer (1024 * 1024) := {}
  have hok : mb.Ok := .new (by decide)
  have hcounted : Counted mb bytes :=
    ⟨by decide, by rw [MessageBuffer.Ok.unread_new, hbytes]; decide⟩
  have hspace : mb.writePos + bytes.length ≤ mb.totalBytes := by decide
  let c₁ : ReadSide (1024 * 1024) (Fin (2 ^ 32)) :=
    { pendingMessageBuffer := (mb.receive bytes).advanceWritePtr bytes.length }
  have h₁ : Holds c₁.pendingMessageBuffer bytes := by
    have := Holds.receive hok hspace hcounted
    rwa [MessageBuffer.Ok.unread_new] at this
  -- the first frame is unpacked from five bytes of its payload
  have hsplit : Holds c₁.pendingMessageBuffer
      ([6, 0, 0, 0] ++ [11, 1, 0, 0, 0, 42, 5, 0, 0, 0, 11, 2, 0, 0, 0]) := h₁
  have hframe : Holds (c₁.pendingMessageBuffer.advanceReadPtr 4)
      [11, 1, 0, 0, 0, 42, 5, 0, 0, 0, 11, 2, 0, 0, 0] := hsplit.advanceReadPtr
  have hcomes : requestBlockMessages.unpack.ComesTo [11, 1, 0, 0, 0, 42, 5, 0, 0, 0, 11, 2, 0, 0, 0]
      (some 1, [42, 5, 0, 0, 0, 11, 2, 0, 0, 0]) := ⟨4, rfl⟩
  obtain ⟨goOn, c₂, ⟨m, hproc⟩, hp⟩ := processNextMessage_of_comesTo
    (c := { c₁ with pendingMessageBuffer := c₁.pendingMessageBuffer.advanceReadPtr 4 }) rfl hframe rfl
    hcomes 6
  obtain ⟨hhandled, hopen⟩ := Prod.mk.inj hp.delivered
  have h₂ := hp.holds
  rw [hopen] at h₂
  -- then what is left of it is read as a length
  let c₃ : ReadSide (1024 * 1024) (Fin (2 ^ 32)) :=
    { c₂ with pendingMessageBuffer := c₂.pendingMessageBuffer.addSpace (1322 + 4 - 10) }
  have hreturns : Returns requestBlockMessages {} bytes c₃ := by
    refine ⟨m + 3, fun fuel hfuel => ?_⟩
    obtain ⟨fuel, rfl⟩ : ∃ n, fuel = n + 2 := ⟨fuel - 2, by omega⟩
    have hround₁ := readMessages_succ requestBlockMessages h₁ (by decide)
      ((h₁.header (by decide)).trans (show _ = 6 by decide)) (fuel + 1)
    have hround₂ := readMessages_succ requestBlockMessages h₂ (by decide)
      ((h₂.header (by decide)).trans (show _ = 1322 by decide)) fuel
    rw [hproc (fuel + 1) (by omega), hp.goOn hopen, if_neg (by decide),
      if_pos (by rw [hbytes]; decide)] at hround₁
    rw [if_neg (by decide), if_neg (by decide)] at hround₂
    rw [startReadMessage_of_counted hcounted]
    exact hround₁.trans hround₂
  refine ⟨c₃, .read .start rfl hspace hcounted hreturns, ?_⟩
  rintro ⟨rs, hlength, hrs⟩
  have hone : ([1], true) = requestBlockMessages.deliver [] rs := by
    rw [← hrs, show c₃.handled = [1] from hhandled, show c₃.isOpen = true from hopen]
  match rs, hlength with
  | [none, _], _ => cases hone
  | [some _, none], _ => cases hone
  | [some _, some _], _ => cases hone

end ReadSide

end XmaxChain
