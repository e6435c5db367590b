import XmaxChain.Types
import Mathlib.Tactic

/-!
# The write queue of a connection

A connection writes one message at a time and keeps the message at the front of its queue until the
write has completed. `write_depth` counts a message while it is queued and once more while it is written.
`flush_queues` takes messages off the queue without counting them down, and all of the recovery after a
close depends on that never having happened.
-/

namespace XmaxChain

structure QueuedWrite (M : Type) where
  buff : M
  closeAfterSend : Bool

structure WriteSyncState where
  startBlock : ℕ
  endBlock : ℕ
  last : ℕ

/-- `inFlight` are the buffers handed to `async_write` that have not completed. `enqueued` and
`completed` are no fields of the connection: they are what it was given to write and what was written
since its socket was opened. -/
structure ConnectionXmax (M : Type) where
  isOpen : Bool
  writeQueue : List (QueuedWrite M) := []
  writeDepth : ℤ := 0
  syncRequested : Option WriteSyncState := none
  inFlight : List M := []
  enqueued : List M := []
  completed : List M := []

/-- Which messages close the connection once they are sent, and the block that the chain has at a
number, as the message it is sent in. -/
structure Network (M : Type) where
  isLeave : M → Bool
  blockFromNum : ℕ → Option M

namespace ConnectionXmax

variable {M : Type}

def doQueueWrite (c : ConnectionXmax M) : ConnectionXmax M :=
  match c.writeQueue with
  | [] => c
  | w :: _ => { c with writeDepth := c.writeDepth + 1, inFlight := c.inFlight ++ [w.buff] }

def queueWrite (c : ConnectionXmax M) (w : QueuedWrite M) (triggerSend : Bool) : ConnectionXmax M :=
  let c := { c with
    writeQueue := c.writeQueue ++ [w]
    enqueued := c.enqueued ++ [w.buff] }
  if c.writeQueue.length = 1 ∧ triggerSend = true then c.doQueueWrite else c

def msgEnqueue (net : Network M) (c : ConnectionXmax M) (m : M) (triggerSend : Bool) :
    ConnectionXmax M :=
  queueWrite { c with writeDepth := c.writeDepth + 1 } ⟨m, net.isLeave m⟩ triggerSend

def flushQueues (c : ConnectionXmax M) : ConnectionXmax M :=
  if c.writeDepth > 0 then { c with writeQueue := c.writeQueue.take 1 }
  else { c with writeQueue := [] }

def close (c : ConnectionXmax M) : ConnectionXmax M :=
  { c.flushQueues with isOpen := false, syncRequested := none }

def enqueueSyncBlock (net : Network M) (c : ConnectionXmax M) : ConnectionXmax M :=
  match c.syncRequested with
  | none => c
  | some s =>
    let num := u32 (s.last + 1)
    let c := { c with
      syncRequested := if num = s.endBlock then none else some { s with last := num } }
    match net.blockFromNum num with
    | some m => c.msgEnqueue net m (num = s.startBlock)
    | none => c

/-- The callback of a queued message. -/
def sent (c : ConnectionXmax M) (w : QueuedWrite M) : ConnectionXmax M :=
  let c := { c with writeDepth := c.writeDepth - 1 }
  if w.closeAfterSend then c.close else c

/-- The handler of a completed write. `none` is `pop_front` of an empty queue. -/
def writeCompleted (net : Network M) (c : ConnectionXmax M) (ec : Bool) : Option (ConnectionXmax M) :=
  let c := match c.writeQueue with
    | [] => c
    | w :: _ => c.sent w
  let c := { c with writeDepth := c.writeDepth - 1 }
  if ec then some c.close
  else
    match c.writeQueue with
    | [] => none
    | _ :: queue => some (({ c with writeQueue := queue }.enqueueSyncBlock net).doQueueWrite)

def syncRequest (net : Network M) (c : ConnectionXmax M) (startBlock endBlock : ℕ) : ConnectionXmax M :=
  if endBlock = 0 then { c with syncRequested := none }.flushQueues
  else
    { c with
      syncRequested := some ⟨startBlock, endBlock, u32 (startBlock + (2 ^ 32 - 1))⟩ }.enqueueSyncBlock net

end ConnectionXmax

/-- What the event loop calls. A completed write is one of those in flight, with an error or without. -/
inductive WriteEvent (M : Type)
  | enqueue (m : M)
  | writeCompleted (write : ℕ) (ec : Bool)
  | flushQueues
  | close
  | syncRequest (startBlock endBlock : Fin (2 ^ 32))
  | connect

namespace ConnectionXmax

variable {M : Type} (net : Network M)

/-- A write is removed from those in flight before its handler runs. -/
def step (c : ConnectionXmax M) : WriteEvent M → Option (ConnectionXmax M)
  | .enqueue m => some (c.msgEnqueue net m true)
  | .writeCompleted i ec =>
    { c with
      inFlight := c.inFlight.eraseIdx i
      completed := if ec then c.completed else c.completed ++ c.inFlight[i]?.toList }.writeCompleted net ec
  | .flushQueues => some c.flushQueues
  | .close => some c.close
  | .syncRequest startBlock endBlock => some (c.syncRequest net startBlock endBlock)
  | .connect => some { c with
      isOpen := true
      enqueued := c.writeQueue.map QueuedWrite.buff
      completed := [] }

/-- A write completes only if it is in flight. -/
def Possible (c : ConnectionXmax M) : WriteEvent M → Prop
  | .writeCompleted i _ => i < c.inFlight.length
  | _ => True

/-- Where the step flushes the queue, at most one message is queued. -/
def KeepsQueue (c : ConnectionXmax M) : WriteEvent M → Prop
  | .writeCompleted _ ec => (ec = true ∨ ∃ w ∈ c.writeQueue.head?, w.closeAfterSend = true) →
    c.writeQueue.length ≤ 1
  | .flushQueues | .close => c.writeQueue.length ≤ 1
  | .syncRequest _ endBlock => endBlock = 0 → c.writeQueue.length ≤ 1
  | _ => True

/-- The steps of a new connection, each with the state before it, and the state they lead to. -/
inductive Run : List (ConnectionXmax M × WriteEvent M) → ConnectionXmax M → Prop
  | new (isOpen : Bool) : Run [] { isOpen }
  | step {steps : List (ConnectionXmax M × WriteEvent M)} {c c' : ConnectionXmax M} {e : WriteEvent M} :
      Run steps c → c.Possible e → c.step net e = some c' → Run (steps ++ [(c, e)]) c'

/-! ## The sync state -/

/-- The blocks from the first to the last one sent, and that none of them is the end. -/
structure SyncOk (s : WriteSyncState) : Prop where
  start_lt : s.startBlock < 2 ^ 32
  end_lt : s.endBlock < 2 ^ 32
  sent : ∃ k, s.last = u32 (s.startBlock + k) ∧ ∀ j ≤ k, u32 (s.startBlock + j) ≠ s.endBlock

theorem SyncOk.next {s : WriteSyncState} (h : SyncOk s) (hend : u32 (s.last + 1) ≠ s.endBlock) :
    SyncOk { s with last := u32 (s.last + 1) } := by
  obtain ⟨k, hlast, hbefore⟩ := h.sent
  have hnum : u32 (s.last + 1) = u32 (s.startBlock + (k + 1)) := by
    rw [hlast, u32, u32, u32, Nat.mod_add_mod, Nat.add_assoc]
  refine ⟨h.start_lt, h.end_lt, k + 1, hnum, fun j hj => ?_⟩
  rcases Nat.lt_or_ge k j with hjk | hjk
  · obtain rfl : j = k + 1 := by omega
    rwa [← hnum]
  · exact hbefore j hjk

/-- All block numbers come before the first one comes again, and the end is one of them. -/
theorem SyncOk.ne_start {s : WriteSyncState} (h : SyncOk s) : u32 (s.last + 1) ≠ s.startBlock := by
  obtain ⟨k, hlast, hbefore⟩ := h.sent
  have hstart := h.start_lt
  have hend := h.end_lt
  intro heq
  have hround : 2 ^ 32 - 1 ≤ k := by
    rw [hlast] at heq
    simp only [u32] at heq
    omega
  refine hbefore ((s.endBlock + 2 ^ 32 - s.startBlock) % 2 ^ 32) ?_ ?_
  · omega
  · simp only [u32]
    omega

/-! ## The counter and the queue -/

/-- As long as no message was flushed, `writeDepth` counts the queued messages and the write in flight.
After that it stays above them, except that the first message may have been counted down and left in the
queue, where nothing writes it. -/
structure Inv (kept : Prop) (c : ConnectionXmax M) : Prop where
  flight : c.inFlight = [] ∨ ∃ w ws, c.writeQueue = w :: ws ∧ c.inFlight = [w.buff]
  sync : ∀ s, c.syncRequested = some s → SyncOk s
  counts : kept → (c.inFlight = [] → c.writeQueue = []) ∧
    c.writeDepth = c.writeQueue.length + c.inFlight.length
  ordered : kept → c.isOpen = true →
    c.completed ++ c.writeQueue.map QueuedWrite.buff = c.enqueued
  lost : ¬ kept → (c.writeQueue.length + c.inFlight.length + 1 : ℤ) ≤
    c.writeDepth + if c.inFlight = [] ∧ c.writeQueue ≠ [] then 1 else 0

section Inv

variable {net} {c c' : ConnectionXmax M} {kept : Prop}

theorem Inv.new (isOpen : Bool) : Inv True ({ isOpen } : ConnectionXmax M) where
  flight := .inl rfl
  sync _ h := by cases h
  counts _ := ⟨fun _ => rfl, rfl⟩
  ordered _ _ := rfl
  lost h := absurd trivial h

theorem Inv.flushQueues_eq (h : Inv kept c) :
    c.flushQueues = { c with writeQueue := c.writeQueue.take 1 } := by
  rw [flushQueues]
  split_ifs with hdepth
  · rfl
  · rcases hq : c.writeQueue with _ | ⟨w, ws⟩
    · rfl
    · exfalso
      by_cases hk : kept
      · have := (h.counts hk).2
        rw [hq, List.length_cons] at this
        omega
      · have := h.lost hk
        rw [hq, List.length_cons] at this
        split_ifs at this <;> omega

theorem Inv.flushQueues (h : Inv kept c) :
    Inv (kept ∧ c.writeQueue.length ≤ 1) c.flushQueues := by
  rw [h.flushQueues_eq]
  have htake : c.writeQueue.length ≤ 1 → c.writeQueue.take 1 = c.writeQueue := List.take_of_length_le
  constructor
  · rcases h.flight with hf | ⟨w, ws, hq, hf⟩
    · exact .inl hf
    · exact .inr ⟨w, [], by simp [hq], hf⟩
  · exact h.sync
  · rintro ⟨hk, hlen⟩
    simpa [htake hlen] using h.counts hk
  · rintro ⟨hk, hlen⟩
    simpa [htake hlen] using h.ordered hk
  · intro hnot
    have hne : c.writeQueue.take 1 ≠ [] ↔ c.writeQueue ≠ [] := by simp
    have hle : (c.writeQueue.take 1).length ≤ 1 := by simp
    simp only [hne]
    by_cases hk : kept
    · -- two messages were queued, and one of them in flight
      have hlen : 2 ≤ c.writeQueue.length := by
        by_contra hlen
        exact hnot ⟨hk, by omega⟩
      obtain ⟨hempty, hdepth⟩ := h.counts hk
      have hf : c.inFlight.length = 1 := by
        rcases h.flight with hf | ⟨w, ws, -, hf⟩
        · rw [hempty hf] at hlen
          simp at hlen
        · rw [hf, List.length_singleton]
      split_ifs <;> omega
    · have hlost := h.lost hk
      have hmin : (c.writeQueue.take 1).length ≤ c.writeQueue.length := by simp
      split_ifs at hlost ⊢ <;> omega

theorem Inv.close (h : Inv kept c) : Inv (kept ∧ c.writeQueue.length ≤ 1) c.close where
  flight := h.flushQueues.flight
  sync _ hs := by cases hs
  counts := h.flushQueues.counts
  ordered _ hopen := by cases hopen
  lost := h.flushQueues.lost

theorem Inv.msgEnqueue (h : Inv kept c) (m : M) : Inv kept (c.msgEnqueue net m true) := by
  rw [ConnectionXmax.msgEnqueue, queueWrite]
  rcases hq : c.writeQueue with _ | ⟨w, ws⟩
  · have hf : c.inFlight = [] := by
      rcases h.flight with hf | ⟨w, ws, hw, -⟩
      · exact hf
      · rw [hq] at hw
        cases hw
    have hcounts := h.counts
    have hordered := h.ordered
    have hlost := h.lost
    simp only [hq, hf, List.nil_append, List.length_singleton, doQueueWrite] at hcounts hordered hlost ⊢
    constructor
    · exact .inr ⟨_, [], rfl, rfl⟩
    · exact h.sync
    · intro hk
      have := (hcounts hk).2
      simp at this ⊢
      omega
    · intro hk hopen
      have := hordered hk hopen
      simpa using this
    · intro hk
      have := hlost hk
      simp at this ⊢
      omega
  · have hlen : ¬ ((w :: ws) ++ [(⟨m, net.isLeave m⟩ : QueuedWrite M)]).length = 1 := by simp
    have hcounts := h.counts
    have hordered := h.ordered
    have hlost := h.lost
    simp only [hq, hlen, false_and, if_false] at hcounts hordered hlost ⊢
    constructor
    · rcases h.flight with hf | ⟨w', ws', hw, hf⟩
      · exact .inl hf
      · rw [hq] at hw
        cases hw
        exact .inr ⟨w, _, rfl, hf⟩
    · exact h.sync
    · intro hk
      obtain ⟨hempty, hdepth⟩ := hcounts hk
      refine ⟨fun hf => by simpa using hempty hf, ?_⟩
      simp at hdepth ⊢
      omega
    · intro hk hopen
      simp [← hordered hk hopen]
    · intro hk
      have := hlost hk
      simp at this ⊢
      split_ifs at this ⊢ <;> omega

/-- In the handler of a write the next block never triggers a write of its own. -/
theorem enqueueSyncBlock_eq (net : Network M) (h : ∀ s, c.syncRequested = some s → SyncOk s) :
    ∃ new : List (QueuedWrite M), ∃ sync, c.enqueueSyncBlock net =
      { c with
        writeQueue := c.writeQueue ++ new
        writeDepth := c.writeDepth + new.length
        enqueued := c.enqueued ++ new.map QueuedWrite.buff
        syncRequested := sync } ∧ ∀ s, sync = some s → SyncOk s := by
  rw [enqueueSyncBlock]
  rcases hs : c.syncRequested with _ | s
  · refine ⟨[], none, ?_, by simp⟩
    simp [← hs]
  · have hnum : decide (u32 (s.last + 1) = s.startBlock) = false := by
      simpa using (h s hs).ne_start
    have hsync : ∀ s', (if u32 (s.last + 1) = s.endBlock then none
        else some { s with last := u32 (s.last + 1) }) = some s' → SyncOk s' := by
      intro s' hs'
      split_ifs at hs' with hend
      cases hs'
      exact (h s hs).next hend
    simp only [hnum]
    rcases net.blockFromNum (u32 (s.last + 1)) with _ | m
    · exact ⟨[], _, by simp, hsync⟩
    · refine ⟨[⟨m, net.isLeave m⟩], _, ?_, hsync⟩
      simp [ConnectionXmax.msgEnqueue, queueWrite]

/-- The callback of the first message, with more counted than itself. -/
theorem sent_eq {w : QueuedWrite M} {ws : List (QueuedWrite M)} (hq : c.writeQueue = w :: ws)
    (hdepth : 1 < c.writeDepth) :
    c.sent w = { c with
      isOpen := c.isOpen && !w.closeAfterSend
      writeQueue := if w.closeAfterSend then [w] else w :: ws
      writeDepth := c.writeDepth - 1
      syncRequested := if w.closeAfterSend then none else c.syncRequested } := by
  rw [sent]
  cases w.closeAfterSend
  · simp [← hq]
  · simp [ConnectionXmax.close, ConnectionXmax.flushQueues, hdepth, hq]

/-- After a write without an error the queue goes on with the next message. -/
theorem Inv.next (hf : c.inFlight = [])
    (hsync : ∀ s, c.syncRequested = some s → SyncOk s)
    (hcounts : kept → c.writeDepth = c.writeQueue.length)
    (hordered : kept → c.isOpen = true → c.completed ++ c.writeQueue.map QueuedWrite.buff = c.enqueued)
    (hlost : ¬ kept → (c.writeQueue.length + 1 : ℤ) ≤ c.writeDepth) :
    Inv kept (c.enqueueSyncBlock net).doQueueWrite := by
  obtain ⟨new, sync, heq, hsync'⟩ := enqueueSyncBlock_eq net hsync
  rw [heq, doQueueWrite]
  rcases hq : c.writeQueue ++ new with _ | ⟨w, ws⟩
  · obtain ⟨hqueue, rfl⟩ := List.append_eq_nil_iff.1 hq
    simp only [hqueue, hf] at hcounts hordered hlost ⊢
    exact ⟨.inl rfl, hsync', fun hk => ⟨fun _ => rfl, by simpa using hcounts hk⟩,
      fun hk hopen => by simpa using hordered hk hopen, fun hk => by simpa using hlost hk⟩
  · have hlen := congrArg List.length hq
    have hbuffs := congrArg (List.map QueuedWrite.buff) hq
    rw [List.length_append, List.length_cons] at hlen
    rw [List.map_append] at hbuffs
    simp only [hf, List.nil_append]
    refine ⟨.inr ⟨w, ws, rfl, rfl⟩, hsync', fun hk => ⟨by simp, ?_⟩, fun hk hopen => ?_, fun hk => ?_⟩
    · have := hcounts hk
      simp
      omega
    · rw [← hordered hk hopen, List.append_assoc, hbuffs]
    · have := hlost hk
      simp
      omega

/-- After a write with an error the message stays queued if more than that were counted. -/
theorem Inv.closeFailed {w : QueuedWrite M} (hq : c.writeQueue.take 1 = [w]) (hf : c.inFlight = [])
    (hcounts : kept → c.writeDepth = 0) (hlost : ¬ kept → 1 ≤ c.writeDepth) : Inv kept c.close := by
  rw [ConnectionXmax.close, ConnectionXmax.flushQueues]
  split_ifs with hdepth
  · have hnot : ¬ kept := fun hk => by
      have := hcounts hk
      omega
    simp only [hq, hf]
    exact ⟨.inl rfl, by simp, fun hk => absurd hk hnot, fun hk => absurd hk hnot,
      fun _ => by simpa using add_le_add_left (hlost hnot) 1⟩
  · simp only [hf]
    refine ⟨.inl rfl, by simp, fun hk => ⟨fun _ => rfl, by simpa using hcounts hk⟩, by simp, fun hk => ?_⟩
    have := hlost hk
    omega

theorem Inv.writeCompleted {i : ℕ} {ec : Bool} (h : Inv kept c) (hi : i < c.inFlight.length) :
    ∃ c', c.step net (.writeCompleted i ec) = some c' ∧
      Inv (kept ∧ c.KeepsQueue (.writeCompleted i ec)) c' := by
  obtain ⟨w, ws, hq, hf⟩ := h.flight.resolve_left (List.ne_nil_of_length_pos (by omega))
  obtain rfl : i = 0 := by
    rw [hf, List.length_singleton] at hi
    omega
  have hcounts : kept → c.writeDepth = ws.length + 2 := by
    intro hk
    have := (h.counts hk).2
    rw [hq, hf, List.length_cons, List.length_singleton] at this
    omega
  have hlost : ¬ kept → (ws.length + 3 : ℤ) ≤ c.writeDepth := by
    intro hk
    have := h.lost hk
    simp only [hq, hf, List.length_cons, List.cons_ne_nil, false_and, if_false] at this
    omega
  have hdepth : 1 < c.writeDepth := by
    by_cases hk : kept
    · have := hcounts hk
      omega
    · have := hlost hk
      omega
  have hkeeps : c.KeepsQueue (.writeCompleted 0 ec) ↔ (ec = true ∨ w.closeAfterSend = true → ws = []) := by
    simp [KeepsQueue, hq]
  rw [hkeeps, step, ConnectionXmax.writeCompleted]
  simp only [hq, hf]
  rw [sent_eq rfl (by simpa using hdepth)]
  cases ec with
  | true =>
    refine ⟨_, if_pos rfl, Inv.closeFailed (w := w) ?_ rfl ?_ ?_⟩
    · cases w.closeAfterSend <;> rfl
    · rintro ⟨hk, hempty⟩
      have := hcounts hk
      rw [hempty (.inl rfl), List.length_nil] at this
      simp only
      omega
    · intro hnot
      have hone : kept → 1 ≤ ws.length := fun hk =>
        List.length_pos_iff.2 fun hempty => hnot ⟨hk, fun _ => hempty⟩
      simp only
      by_cases hk : kept
      · have := hcounts hk
        have := hone hk
        omega
      · have := hlost hk
        omega
  | false =>
    cases hleave : w.closeAfterSend with
    | true =>
      refine ⟨_, rfl, Inv.next rfl (by simp) ?_ (by simp) ?_⟩
      · rintro ⟨hk, hempty⟩
        have := hcounts hk
        rw [hempty (.inr rfl), List.length_nil] at this
        simp
        omega
      · intro hnot
        have hone : kept → 1 ≤ ws.length := fun hk =>
          List.length_pos_iff.2 fun hempty => hnot ⟨hk, fun _ => hempty⟩
        simp
        by_cases hk : kept
        · have := hcounts hk
          have := hone hk
          omega
        · have := hlost hk
          omega
    | false =>
      simp only [Bool.false_eq_true, or_self, false_imp_iff, and_true]
      refine ⟨_, rfl, Inv.next rfl h.sync ?_ ?_ ?_⟩
      · intro hk
        have := hcounts hk
        simp
        omega
      · intro hk hopen
        have := h.ordered hk (by simpa using hopen)
        simpa [hq] using this
      · intro hk
        have := hlost hk
        simp
        omega

theorem Inv.withSync (h : Inv kept c) {sync : Option WriteSyncState}
    (hsync : ∀ s, sync = some s → SyncOk s) : Inv kept { c with syncRequested := sync } :=
  ⟨h.flight, hsync, h.counts, h.ordered, h.lost⟩

theorem Inv.mono {kept' : Prop} (h : Inv kept c) (hk : kept' ↔ kept) : Inv kept' c := by
  rwa [propext hk]

theorem Inv.syncRequest (h : Inv kept c) (startBlock endBlock : Fin (2 ^ 32)) :
    Inv (kept ∧ c.KeepsQueue (.syncRequest startBlock endBlock)) (c.syncRequest net startBlock endBlock) := by
  rw [ConnectionXmax.syncRequest, KeepsQueue]
  by_cases hend : endBlock = 0
  · subst hend
    have hflush : Inv kept { c with syncRequested := none } := h.withSync (by simp)
    rw [if_pos (show ((0 : Fin (2 ^ 32)) : ℕ) = 0 from rfl)]
    exact hflush.flushQueues.mono (by simp)
  · have hne : ¬ (endBlock : ℕ) = 0 := fun h0 => hend (Fin.ext h0)
    have hfirst : u32 (u32 (startBlock + (2 ^ 32 - 1)) + 1) = startBlock := by
      have := startBlock.isLt
      simp only [u32]
      omega
    rw [if_neg hne, enqueueSyncBlock]
    simp only [hfirst, decide_true]
    have hsync : ∀ s, (if (startBlock : ℕ) = endBlock then none
        else some (⟨startBlock, endBlock, startBlock⟩ : WriteSyncState)) = some s → SyncOk s := by
      intro s hs
      split_ifs at hs with heq
      cases hs
      refine ⟨startBlock.isLt, endBlock.isLt, 0, ?_, fun j hj => ?_⟩
      · exact (u32_of_lt startBlock.isLt).symm
      · obtain rfl : j = 0 := by omega
        rwa [Nat.add_zero, u32_of_lt startBlock.isLt]
    have hkept := h.withSync hsync
    refine Inv.mono ?_ (and_iff_left fun h0 => absurd h0 hend)
    cases net.blockFromNum startBlock with
    | none => exact hkept
    | some m => exact hkept.msgEnqueue m

theorem Inv.connect (h : Inv kept c) :
    Inv kept { c with
      isOpen := true
      enqueued := c.writeQueue.map QueuedWrite.buff
      completed := [] } :=
  ⟨h.flight, h.sync, h.counts, fun _ _ => rfl, h.lost⟩

theorem Inv.step (net : Network M) {e : WriteEvent M} (h : Inv kept c) (he : c.Possible e) :
    ∃ c', c.step net e = some c' ∧ Inv (kept ∧ c.KeepsQueue e) c' := by
  cases e with
  | enqueue m => exact ⟨_, rfl, (h.msgEnqueue m).mono (and_iff_left trivial)⟩
  | writeCompleted i ec => exact h.writeCompleted he
  | flushQueues => exact ⟨_, rfl, h.flushQueues⟩
  | close => exact ⟨_, rfl, h.close⟩
  | syncRequest startBlock endBlock => exact ⟨_, rfl, h.syncRequest startBlock endBlock⟩
  | connect => exact ⟨_, rfl, h.connect.mono (and_iff_left trivial)⟩

theorem Run.inv {steps : List (ConnectionXmax M × WriteEvent M)} (h : Run net steps c) :
    Inv (∀ p ∈ steps, p.1.KeepsQueue p.2) c := by
  induction h with
  | new isOpen => exact (Inv.new isOpen).mono (by simp)
  | step _ he hstep ih =>
    obtain ⟨c', hc', hinv⟩ := ih.step net he
    rw [hstep] at hc'
    cases hc'
    exact hinv.mono (by simp [or_imp, forall_and])

end Inv

/-- In every run at most one write is in flight and no access fails. While no message was flushed, an
open connection has written what it was given in order and has the rest queued, and whenever no write is
in flight the queue is empty, nothing is counted, and the next message is written at once. Once a message
was flushed, that never comes about again. -/
theorem write_queue_recovers_iff {net : Network M} {c : ConnectionXmax M}
    {steps : List (ConnectionXmax M × WriteEvent M)} (h : Run net steps c) :
    c.inFlight.length ≤ 1 ∧ (∀ e, c.Possible e → (c.step net e).isSome) ∧
      ((∀ p ∈ steps, p.1.KeepsQueue p.2) → c.isOpen = true →
        c.completed ++ c.writeQueue.map QueuedWrite.buff = c.enqueued) ∧
      (c.inFlight = [] →
        ((c.writeQueue = [] ∧ c.writeDepth = 0) ↔ ∀ p ∈ steps, p.1.KeepsQueue p.2) ∧
        (c.writeQueue = [] → ∀ m, (c.msgEnqueue net m true).inFlight = [m])) := by
  have hinv := h.inv
  refine ⟨?_, fun e he => ?_, hinv.ordered, fun hf => ⟨⟨?_, ?_⟩, fun hq m => ?_⟩⟩
  · rcases hinv.flight with hf | ⟨w, ws, -, hf⟩ <;> simp [hf]
  · obtain ⟨c', hc', -⟩ := hinv.step net he
    simp [hc']
  · rintro ⟨hq, hdepth⟩
    by_contra hnot
    have := hinv.lost hnot
    simp [hq, hf, hdepth] at this
  · intro hkeeps
    obtain ⟨hempty, hdepth⟩ := hinv.counts hkeeps
    refine ⟨hempty hf, ?_⟩
    rw [hdepth, hempty hf, hf]
    rfl
  · simp [msgEnqueue, queueWrite, doQueueWrite, hq, hf]

/-- Messages without content, and no blocks to sync. -/
def plainNetwork : Network Unit := ⟨fun _ => false, fun _ => none⟩

/-- A connection that is closed while its only message is written. -/
theorem one_message_recovers : ∃ steps, ∃ c : ConnectionXmax Unit, Run plainNetwork steps c ∧
    steps.map Prod.snd = [.enqueue (), .close, .writeCompleted 0 true] ∧
    c.writeQueue = [] ∧ c.writeDepth = 0 := by
  have hrun : Run plainNetwork _ _ := (((Run.new true).step (e := .enqueue ()) trivial rfl).step
    (e := .close) trivial rfl).step (e := .writeCompleted 0 true) Nat.zero_lt_one rfl
  refine ⟨_, _, hrun, rfl, ((write_queue_recovers_iff hrun).2.2.2 rfl).1.2 ?_⟩
  simp [KeepsQueue, msgEnqueue, queueWrite, doQueueWrite, ConnectionXmax.close, flushQueues]

/-- With two messages the close takes the second one off the queue and leaves it counted. When the write
has failed, the first is still queued, and a message after that is queued behind it and not written. -/
theorem message_stuck_after_close : ∃ steps, ∃ c : ConnectionXmax Unit, Run plainNetwork steps c ∧
    steps.map Prod.snd = [.enqueue (), .enqueue (), .close, .writeCompleted 0 true] ∧
    c.inFlight = [] ∧ c.writeQueue.length = 1 ∧ c.writeDepth = 1 ∧
    (({ c with isOpen := true }).msgEnqueue plainNetwork () true).inFlight = [] := by
  have hrun : Run plainNetwork _ _ := ((((Run.new true).step (e := .enqueue ()) trivial rfl).step
    (e := .enqueue ()) trivial rfl).step (e := .close) trivial rfl).step
    (e := .writeCompleted 0 true) Nat.zero_lt_one rfl
  exact ⟨_, _, hrun, rfl, rfl, rfl, rfl, rfl⟩

end ConnectionXmax

end XmaxChain
