import XmaxChain.NetFraming
import XmaxChain.Raw

/-!
# Which message is next

Before a message is unpacked its tag is looked at, and then unpacking reads the tag again. A byte of a
tag, or of any other integer of variable length, says whether another follows; when none is left to
follow, the last one is looked at for ever.
-/

namespace XmaxChain

open StreamMachine

/-- What unpacking a value asks of the stream: as many bytes as it says, which must be there, and
integers of variable length. -/
inductive Unpacker (α : Type)
  | read (n : ℕ) (next : Bytes → Unpacker α)
  | unsignedInt (next : ℕ → Unpacker α)
  | done (a : α)
  | fails

namespace Unpacker

variable {α β : Type}

def map (f : α → β) : Unpacker α → Unpacker β
  | .read n next => .read n fun bs => (next bs).map f
  | .unsignedInt next => .unsignedInt fun v => (next v).map f
  | .done a => .done (f a)
  | .fails => .fails

/-- Between two requests, or inside of an integer. -/
inductive State (α : Type)
  | ready (p : Unpacker α)
  | within (b v shift : ℕ) (next : ℕ → Unpacker α)

/-- One round of the loop over an integer. Where nothing is left the byte is what it was. A shift of 32 or
more, which C++ does not define, adds no bits here. -/
def round (b v shift : ℕ) (next : ℕ → Unpacker α) (got : Option ℕ) : State α :=
  let b := got.getD b
  let v := v ||| u32 (b % 128 * 2 ^ shift)
  if b / 128 % 2 = 0 then .ready (next (u32 v)) else .within b v ((shift + 7) % 256) next

def step : State α → Request (State α) ℕ α
  | .ready (.read n next) => .read n fun bs => .ready (next bs)
  | .ready (.unsignedInt next) => .get (round 0 0 0 next)
  | .ready (.done a) => .done a
  | .ready .fails => .fails
  | .within b v shift next => .get (round b v shift next)

abbrev machine (p : Unpacker α) : Machine ℕ α where
  State := State α
  start := .ready p
  step := step

/-- What follows the value of an integer, on bytes that are all there is; at the end of the bytes it is
zero. -/
def readUnsignedInt : Bytes → Option (ℕ × Bytes)
  | [] => some (0, [])
  | b :: s => unpackSevenBits 0 0 (b :: s)

/-- The value, or `none` after a failure, and the bytes left; the outer `none` says that no end is
reached. -/
def eval : Unpacker α → Bytes → Option (Option α × Bytes)
  | .read n next, s => if n ≤ s.length then (next (s.take n)).eval (s.drop n) else some (none, s)
  | .unsignedInt next, s => (readUnsignedInt s).bind fun r => (next r.1).eval r.2
  | .done a, s => some (some a, s)
  | .fails, s => some (none, s)

/-- Unpacking comes to an integer whose bytes all say that another follows. -/
inductive CutOff : Unpacker α → Bytes → Prop
  | here {next : ℕ → Unpacker α} {b : ℕ} {s : Bytes} (h : ∀ x ∈ b :: s, x / 128 % 2 = 1) :
      CutOff (.unsignedInt next) (b :: s)
  | read {n : ℕ} {next : Bytes → Unpacker α} {s : Bytes} (hn : n ≤ s.length)
      (h : CutOff (next (s.take n)) (s.drop n)) : CutOff (.read n next) s
  | after {next : ℕ → Unpacker α} {s rest : Bytes} {v : ℕ} (hv : readUnsignedInt s = some (v, rest))
      (h : CutOff (next v) rest) : CutOff (.unsignedInt next) s

theorem unpackSevenBits_eq_none {shift v : ℕ} {s : Bytes} :
    unpackSevenBits shift v s = none ↔ ∀ x ∈ s, x / 128 % 2 = 1 := by
  induction s generalizing shift v with
  | nil => simp [unpackSevenBits]
  | cons b s ih =>
    rw [unpackSevenBits, List.forall_mem_cons]
    split_ifs with hb
    · simp [hb]
    · rw [ih]
      exact ⟨fun h => ⟨by omega, h⟩, And.right⟩

theorem eval_eq_none {p : Unpacker α} {s : Bytes} : p.eval s = none ↔ CutOff p s := by
  induction p generalizing s with
  | read n next ih =>
    rw [eval]
    constructor
    · intro h
      split_ifs at h with hn
      exact .read hn ((ih _).1 h)
    · rintro (_ | ⟨hn, h⟩ | _)
      rw [if_pos hn]
      exact (ih _).2 h
  | unsignedInt next ih =>
    rw [eval]
    constructor
    · intro h
      rcases hread : readUnsignedInt s with _ | ⟨v, rest⟩
      · match s, hread with
        | b :: s, hread => exact .here (unpackSevenBits_eq_none.1 hread)
      · rw [hread, Option.bind_some] at h
        exact .after hread ((ih v).1 h)
    · rintro (h | _ | ⟨hv, h⟩)
      · have hread : readUnsignedInt (_ :: _) = none := unpackSevenBits_eq_none.2 h
        rw [hread, Option.bind_none]
      · rw [hv, Option.bind_some]
        exact (ih _).2 h
  | done a => exact iff_of_false (by simp [eval]) (by rintro ⟨⟩)
  | fails => exact iff_of_false (by simp [eval]) (by rintro ⟨⟩)

/-! ## The same on a source of bytes -/

@[simp] theorem takeTokens_nil : takeTokens ([] : Bytes) 1 = none := rfl

@[simp] theorem takeTokens_cons (b : ℕ) (s : Bytes) : takeTokens (b :: s) 1 = some ([b], s) := by
  simp [takeTokens]

/-- An integer that ends is read as it is on all of the bytes. -/
theorem run_within {p : Unpacker α} {next : ℕ → Unpacker α} {b v shift n : ℕ} {s rest : Bytes}
    (h : unpackSevenBits shift v s = some (n, rest)) :
    ∃ k, ∀ fuel, p.machine.run takeTokens (fuel + k) (.within b v shift next) s =
      p.machine.run takeTokens fuel (.ready (next n)) rest := by
  induction s generalizing b v shift with
  | nil => cases h
  | cons x s ih =>
    rw [unpackSevenBits] at h
    split_ifs at h with hx
    · cases h
      refine ⟨1, fun fuel => ?_⟩
      rw [Machine.run]
      simp [machine, step, round, hx]
    · obtain ⟨k, hk⟩ := ih (b := x) h
      refine ⟨k + 1, fun fuel => ?_⟩
      rw [← hk fuel, ← Nat.add_assoc, Machine.run]
      simp [machine, step, round, hx]

/-- An integer that is cut off is never read to its end. -/
theorem run_within_cutOff {p : Unpacker α} {next : ℕ → Unpacker α} {b v shift : ℕ} {s : Bytes}
    (hs : ∀ x ∈ s, x / 128 % 2 = 1) (hb : s = [] → b / 128 % 2 = 1) (fuel : ℕ) :
    p.machine.run takeTokens fuel (.within b v shift next) s = none := by
  induction fuel generalizing b v shift s with
  | zero => rfl
  | succ fuel ih =>
    rw [Machine.run]
    cases s with
    | nil =>
      simp only [step, takeTokens_nil, round, Option.getD_none, hb rfl, Nat.one_ne_zero, if_false]
      exact ih hs hb
    | cons x s =>
      obtain ⟨hx, hs⟩ := List.forall_mem_cons.1 hs
      simp only [step, takeTokens_cons, List.head?_cons, round, Option.getD_some, hx, Nat.one_ne_zero,
        if_false]
      exact ih hs fun _ => hx

/-- The integer is read from its start. -/
theorem run_unsignedInt {p : Unpacker α} {next : ℕ → Unpacker α} (fuel : ℕ) (s : Bytes) :
    p.machine.run takeTokens fuel (.ready (.unsignedInt next)) s =
      p.machine.run takeTokens fuel (.within 0 0 0 next) s := by
  cases fuel <;> rfl

theorem run_readUnsignedInt {p : Unpacker α} {next : ℕ → Unpacker α} {v : ℕ} {s rest : Bytes}
    (h : readUnsignedInt s = some (v, rest)) :
    ∃ k, ∀ fuel, p.machine.run takeTokens (fuel + k) (.ready (.unsignedInt next)) s =
      p.machine.run takeTokens fuel (.ready (next v)) rest := by
  simp only [run_unsignedInt]
  cases s with
  | nil =>
    cases h
    refine ⟨1, fun fuel => ?_⟩
    rw [Machine.run]
    simp [step, round, u32]
  | cons b s => exact run_within h

theorem run_of_eval {p q : Unpacker α} {s : Bytes} {r : Option α × Bytes} (h : q.eval s = some r) :
    ∃ fuel, p.machine.run takeTokens fuel (.ready q) s = some r := by
  induction q generalizing s with
  | read n next ih =>
    rw [eval] at h
    split_ifs at h with hn
    · obtain ⟨fuel, hfuel⟩ := ih _ h
      refine ⟨fuel + 1, ?_⟩
      rw [Machine.run]
      simp only [step, takeTokens, if_pos hn]
      exact hfuel
    · refine ⟨1, ?_⟩
      rw [Machine.run]
      simp only [step, takeTokens, if_neg hn]
      exact h
  | unsignedInt next ih =>
    rw [eval] at h
    obtain ⟨⟨v, rest⟩, hv, h⟩ := Option.bind_eq_some_iff.1 h
    obtain ⟨fuel, hfuel⟩ := ih v h
    obtain ⟨k, hk⟩ := run_readUnsignedInt (p := p) hv
    exact ⟨fuel + k, (hk fuel).trans hfuel⟩
  | done a => exact ⟨1, h⟩
  | fails => exact ⟨1, h⟩

theorem run_of_cutOff {p q : Unpacker α} {s : Bytes} (h : CutOff q s) (fuel : ℕ) :
    p.machine.run takeTokens fuel (.ready q) s = none := by
  induction h generalizing fuel with
  | here h =>
    rw [run_unsignedInt]
    exact run_within_cutOff h (fun h => by cases h) fuel
  | read hn _ ih =>
    cases fuel with
    | zero => rfl
    | succ fuel =>
      rw [Machine.run]
      simp only [step, takeTokens, if_pos hn]
      exact ih fuel
  | @after next s rest v hv _ ih =>
    obtain ⟨k, hk⟩ := run_readUnsignedInt (p := p) hv
    by_contra hne
    obtain ⟨r, hr⟩ := Option.ne_none_iff_exists'.1 hne
    have hmore := Machine.run_mono hr (Nat.le_add_right fuel k)
    rw [hk, ih] at hmore
    cases hmore

theorem eval_map (f : α → β) (p : Unpacker α) (s : Bytes) :
    (p.map f).eval s = (p.eval s).map fun r => (r.1.map f, r.2) := by
  induction p generalizing s with
  | read n next ih =>
    rw [map, eval, eval]
    split_ifs
    · exact ih _ _
    · rfl
  | unsignedInt next ih =>
    rw [map, eval, eval, Option.map_bind]
    congr 1
    funext r
    exact ih _ _
  | done a => rfl
  | fails => rfl

end Unpacker

namespace ReadSide

variable {len : ℕ} {M : Type}

/-- `net_message` has thirteen types, each of which is unpacked in its own way. -/
def unpackMessage (types : ℕ → Unpacker M) : Unpacker (ℕ × M) :=
  .unsignedInt fun which => if which < 13 then (types which).map fun m => (which, m) else .fails

/-- The messages with their tags. -/
def taggedMessages (types : ℕ → Unpacker M) (pack : ℕ × M → Bytes)
    (handleMessage : List (ℕ × M) → ℕ × M → Handled) : NetMessages (ℕ × M) :=
  { pack, unpack := (unpackMessage types).machine, handleMessage }

/-- The call returns, and the message that it unpacks has the tag that it looked at. -/
structure Dispatched (net : NetMessages (ℕ × M)) (c : ReadSide len (ℕ × M)) (messageLength : ℕ) :
    Prop where
  returns : ∃ r n, ∀ fuel ≥ n, processNextMessage net fuel c messageLength = some r
  tag : ∃ which, (∃ n, ∀ fuel ≥ n,
      peekWhich c.pendingMessageBuffer c.pendingMessageBuffer.readInd fuel 0 0 0 = some which) ∧
    ∀ fuel w m mb, net.unpack.run MessageBuffer.read fuel net.unpack.start c.pendingMessageBuffer =
      some (some (w, m), mb) → w = which

variable {mb : MessageBuffer len}

theorem peek_one (hok : mb.Ok) (hcounts : mb.Counts) :
    (mb.peek 1 mb.readInd).bind List.head? = mb.unread.head? := by
  rcases hunread : mb.unread with _ | ⟨b, rest⟩
  · rw [hok.peek_of_lt hcounts (by simp [hunread])]
    rfl
  · rw [hok.peek_of_le hcounts (by simp [hunread]), hunread]
    rfl

theorem peekWhich_eq_some (hok : mb.Ok) (hcounts : mb.Counts)
    (hhead : ∀ b ∈ mb.unread.head?, b / 128 % 2 = 0) {fuel : ℕ} (hfuel : 0 < fuel) :
    peekWhich mb mb.readInd fuel 0 0 0 = some (u32 (mb.unread.head?.getD 0 % 128)) := by
  obtain ⟨fuel, rfl⟩ : ∃ n, fuel = n + 1 := ⟨fuel - 1, by omega⟩
  have hbit : mb.unread.head?.getD 0 / 128 % 2 = 0 := by
    rcases h : mb.unread.head? with _ | b
    · rfl
    · exact hhead b h
  simp [peekWhich, peek_one hok hcounts, hbit]

/-- A first byte that says that another follows is looked at again and again. -/
theorem peekWhich_eq_none (hok : mb.Ok) (hcounts : mb.Counts) {x : ℕ} (hx : mb.unread.head? = some x)
    (hbit : x / 128 % 2 = 1) (fuel b which shift : ℕ) :
    peekWhich mb mb.readInd fuel b which shift = none := by
  induction fuel generalizing b which shift with
  | zero => rfl
  | succ fuel ih =>
    rw [peekWhich, peek_one hok hcounts, hx]
    simp only [Option.getD_some, hbit, Nat.one_ne_zero, if_false]
    exact ih ..

/-- The tag that unpacking reads is the one that was looked at. -/
theorem readUnsignedInt_of_head {s : Bytes} (hhead : ∀ b ∈ s.head?, b / 128 % 2 = 0) :
    Unpacker.readUnsignedInt s = some (u32 (s.head?.getD 0 % 128), s.tail) := by
  rcases s with _ | ⟨b, s⟩
  · rfl
  · have hb : b / 128 % 2 = 0 := hhead b rfl
    simp [Unpacker.readUnsignedInt, unpackSevenBits, hb, u32]

theorem tag_of_eval {types : ℕ → Unpacker M} {s rest rest' : Bytes} {v w : ℕ} {m : M}
    (hv : Unpacker.readUnsignedInt s = some (v, rest))
    (h : (unpackMessage types).eval s = some (some (w, m), rest')) : w = v := by
  rw [unpackMessage, Unpacker.eval, hv, Option.bind_some] at h
  simp only at h
  split_ifs at h
  · rw [Unpacker.eval_map] at h
    obtain ⟨⟨o, left⟩, -, heq⟩ := Option.map_eq_some_iff.1 h
    obtain ⟨m', -, hm⟩ := Option.map_eq_some_iff.1 (congrArg Prod.fst heq)
    exact (congrArg Prod.fst hm).symm
  · cases h

section Dispatch

variable {types : ℕ → Unpacker M} {pack : ℕ × M → Bytes} {handleMessage : List (ℕ × M) → ℕ × M → Handled}
  {c : ReadSide len (ℕ × M)}

theorem processNextMessage_of_head (hc : Holds c.pendingMessageBuffer c.pendingMessageBuffer.unread) {x : ℕ}
    (hx : c.pendingMessageBuffer.unread.head? = some x) (hbit : x / 128 % 2 = 1) (net : NetMessages (ℕ × M))
    (fuel messageLength : ℕ) : processNextMessage net fuel c messageLength = none := by
  rw [processNextMessage, peekWhich_eq_none hc.1 hc.2.1 hx hbit]

theorem processNextMessage_of_cutOff (hc : Holds c.pendingMessageBuffer c.pendingMessageBuffer.unread)
    (hcut : (unpackMessage types).CutOff c.pendingMessageBuffer.unread) (fuel messageLength : ℕ) :
    processNextMessage (taggedMessages types pack handleMessage) fuel c messageLength = none := by
  have hrun : (unpackMessage types).machine.run MessageBuffer.read fuel
      (unpackMessage types).machine.start c.pendingMessageBuffer = none := by
    by_contra hne
    obtain ⟨⟨r, mb'⟩, hr⟩ := Option.ne_none_iff_exists'.1 hne
    obtain ⟨rest, hlist, -⟩ := (Machine.run_of_alike read_alike hc).1 hr
    rw [Unpacker.run_of_cutOff hcut] at hlist
    cases hlist
  rw [processNextMessage]
  split
  · rfl
  · simp only [saveRawBlock_pendingMessageBuffer, taggedMessages, hrun]

/-- Whatever the length and the bytes in the buffer: the call returns and the message has the tag looked
at, if and only if the first byte ends the tag and unpacking comes to no integer that the end of the
bytes cuts off. -/
theorem dispatched_iff (hok : c.pendingMessageBuffer.Ok) (hcounts : c.pendingMessageBuffer.Counts)
    (messageLength : ℕ) : Dispatched (taggedMessages types pack handleMessage) c messageLength ↔
      (∀ b ∈ c.pendingMessageBuffer.unread.head?, b / 128 % 2 = 0) ∧
        ¬ (unpackMessage types).CutOff c.pendingMessageBuffer.unread := by
  have hkeeps : Holds c.pendingMessageBuffer c.pendingMessageBuffer.unread := ⟨hok, hcounts, rfl⟩
  constructor
  · rintro ⟨⟨r, n, hn⟩, -⟩
    have hr := hn n le_rfl
    constructor
    · intro x hx
      by_contra hbit
      rw [processNextMessage_of_head hkeeps hx (by omega)] at hr
      cases hr
    · intro hcut
      rw [processNextMessage_of_cutOff hkeeps hcut] at hr
      cases hr
  · rintro ⟨hhead, hcut⟩
    obtain ⟨⟨r, rest⟩, heval⟩ := Option.ne_none_iff_exists'.1 (Unpacker.eval_eq_none.not.2 hcut)
    obtain ⟨n, hlist⟩ := Unpacker.run_of_eval (p := unpackMessage types) heval
    obtain ⟨mb', hrun, -⟩ := (Machine.run_of_alike read_alike hkeeps).2 hlist
    set which := u32 (c.pendingMessageBuffer.unread.head?.getD 0 % 128)
    have hwhich : ∀ fuel ≥ 1, peekWhich c.pendingMessageBuffer c.pendingMessageBuffer.readInd fuel 0 0 0 =
        some which := fun fuel hfuel => peekWhich_eq_some hok hcounts hhead hfuel
    have hreturns : ∀ fuel ≥ n + 1,
        processNextMessage (taggedMessages types pack handleMessage) fuel c messageLength =
          some (visit (taggedMessages types pack handleMessage)
            { c.saveRawBlock which messageLength with pendingMessageBuffer := mb' } r) := fun fuel hfuel => by
      rw [processNextMessage, hwhich fuel (by omega)]
      simp only [saveRawBlock_pendingMessageBuffer, taggedMessages]
      rw [Machine.run_mono hrun (show n ≤ fuel by omega)]
    refine ⟨⟨_, _, hreturns⟩, which, ⟨1, hwhich⟩, fun fuel w m mb'' hw => ?_⟩
    obtain ⟨rfl, rfl⟩ := Prod.mk.inj (Machine.run_unique hrun hw)
    exact tag_of_eval (readUnsignedInt_of_head hhead) heval

end Dispatch

/-! ## Two payloads -/

/-- A chain of one buffer, and these bytes to read. -/
def holding (bytes : Bytes) : MessageBuffer (1024 * 1024) :=
  (({} : MessageBuffer (1024 * 1024)).receive bytes).advanceWritePtr bytes.length

theorem holding_holds {bytes : Bytes} (h : bytes.length < 1024 * 1024) : Holds (holding bytes) bytes := by
  have hnew : ({} : MessageBuffer (1024 * 1024)).Ok := .new (by decide)
  obtain ⟨hok, hunread⟩ := hnew.receive (show _ + bytes.length ≤ _ by
    simp [MessageBuffer.writePos]; omega) (by simp only; omega)
  rw [MessageBuffer.Ok.unread_new, List.nil_append] at hunread
  refine ⟨hok, ?_, hunread⟩
  rw [MessageBuffer.Counts, holding, MessageBuffer.advanceWritePtr_readInd, hunread]
  exact show 0 + bytes.length < _ by omega

/-- Of the types only `request_block_message`, which is four bytes, and `connecting_nodes_message`, an
integer and as many strings. -/
def twoTypes : ℕ → Unpacker (List Bytes)
  | 11 => .read 4 fun bytes => .done [bytes]
  | 12 => .unsignedInt fun size => strings size []
  | _ => .fails
where
  strings : ℕ → List Bytes → Unpacker (List Bytes)
    | 0, read => .done read
    | size + 1, read => .unsignedInt fun n => .read n fun s => strings size (read ++ [s])

def twoMessages : NetMessages (ℕ × List Bytes) :=
  taggedMessages twoTypes (fun m => m.1 :: m.2.flatten) fun _ _ => .returns

/-- A request for block 1. -/
theorem request_dispatched :
    Dispatched twoMessages { pendingMessageBuffer := holding [11, 1, 0, 0, 0] } 5 := by
  obtain ⟨hok, hcounts, hunread⟩ : Holds (holding [11, 1, 0, 0, 0]) _ := holding_holds (by decide)
  refine (dispatched_iff hok hcounts 5).2 ?_
  rw [hunread, ← Unpacker.eval_eq_none]
  exact ⟨by simp, by
    simp [unpackMessage, twoTypes, Unpacker.eval, Unpacker.readUnsignedInt, unpackSevenBits, u32, Unpacker.map]⟩

/-- A tag whose one byte says that another follows, and a list of addresses whose size is cut off: neither
call returns. -/
theorem cut_off_not_dispatched :
    ¬ Dispatched twoMessages { pendingMessageBuffer := holding [128] } 1 ∧
      ¬ Dispatched twoMessages { pendingMessageBuffer := holding [12, 128] } 2 := by
  have htag : Holds (holding [128]) [128] := holding_holds (by decide)
  have hsize : Holds (holding [12, 128]) [12, 128] := holding_holds (by decide)
  constructor
  · rintro ⟨⟨r, n, hn⟩, -⟩
    have hr := hn n le_rfl
    rw [processNextMessage_of_head (x := 128) ⟨htag.1, htag.2.1, rfl⟩ (by rw [htag.2.2]; rfl) (by decide)] at hr
    cases hr
  · rintro ⟨⟨r, n, hn⟩, -⟩
    have hr := hn n le_rfl
    have hcut : (unpackMessage twoTypes).CutOff (holding [12, 128]).unread := by
      rw [hsize.2.2, ← Unpacker.eval_eq_none]
      decide
    let c : ReadSide (1024 * 1024) (ℕ × List Bytes) := { pendingMessageBuffer := holding [12, 128] }
    have hc : Holds c.pendingMessageBuffer c.pendingMessageBuffer.unread := ⟨hsize.1, hsize.2.1, rfl⟩
    rw [twoMessages, processNextMessage_of_cutOff hc hcut] at hr
    cases hr

end ReadSide

end XmaxChain
