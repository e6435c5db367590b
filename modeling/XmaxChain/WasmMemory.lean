import XmaxChain.Authority

/-!
# The memory of a contract

A contract's memory grows and shrinks by pages, and `sbrk` counts the bytes of it that are in use. It looks
at what the runtime has made of the last call only when it is called again.
-/

namespace XmaxChain

/-! ## The runtime -/

def numBytesPerPage : ℕ := 2 ^ 16

structure MemoryInstance where
  numPages : ℕ
  sizeMin : ℕ
  sizeMax : ℕ

namespace MemoryInstance

/-- The platform may not commit the pages. -/
def growMemory (commits : Bool) (numNewPages : ℕ) (memory : MemoryInstance) : MemoryInstance :=
  if memory.sizeMax < numNewPages ∨ memory.sizeMax - numNewPages < memory.numPages ∨ ¬ commits then memory
  else { memory with numPages := memory.numPages + numNewPages }

def shrinkMemory (numPagesToShrink : ℕ) (memory : MemoryInstance) : MemoryInstance :=
  if memory.numPages < numPagesToShrink ∨ memory.numPages - numPagesToShrink < memory.sizeMin then memory
  else { memory with numPages := memory.numPages - numPagesToShrink }

end MemoryInstance

/-! ## Its management -/

def maxMemory : ℕ := 1024 * 1024

structure WasmMemory where
  memory : MemoryInstance
  numPages : ℕ
  minBytes : ℕ
  numBytes : ℕ

def u32OfInt (n : ℤ) : ℕ := (n % 2 ^ 32).toNat

/-- `(num_bytes + 7) & ~7`. The machine wraps a sum that is too large, which the language leaves undefined. -/
def alignedRequest (numBytes : ℤ) : ℤ := i32 (numBytes + 7) / 8 * 8

namespace WasmMemory

def limit32BitAddress (address : ℕ) : ℕ := if 2 ^ 32 - 1 < address then 2 ^ 32 - 1 else address

def new (memory : MemoryInstance) : WasmMemory :=
  let minBytes := limit32BitAddress (memory.numPages * numBytesPerPage % 2 ^ 64)
  { memory, numPages := memory.numPages, minBytes, numBytes := minBytes }

def pageMemoryError : Fault := .fc "error in WASM page memory"

variable (s : WasmMemory) (numBytes : ℤ)

/-- The comparison of a request for more, both sides without a sign. -/
def asksTooMuch : Prop := 0 < numBytes ∧ u32OfInt (maxMemory - numBytes) < s.numBytes

def givesTooMuch : Prop := numBytes < 0 ∧ s.numBytes < u32OfInt (s.minBytes - numBytes)

instance : Decidable (s.asksTooMuch numBytes) := inferInstanceAs (Decidable (_ ∧ _))

instance : Decidable (s.givesTooMuch numBytes) := inferInstanceAs (Decidable (_ ∧ _))

def newNumBytes : ℕ := u32OfInt (s.numBytes + numBytes)

/-- The sum has 32 bits. -/
def numDesiredPages (numBytes : ℕ) : ℕ := u32 (numBytes + numBytesPerPage - 1) / numBytesPerPage

/-- The memory with as many pages, if the runtime grants them. -/
def resized (commits : Bool) (pages : ℕ) : MemoryInstance :=
  if s.numPages < pages then s.memory.growMemory commits (pages - s.numPages)
  else if pages < s.numPages then s.memory.shrinkMemory (s.numPages - pages)
  else s.memory

def sbrk (commits : Bool) (numBytes : ℤ) : EStateM Fault WasmMemory ℕ := fun s =>
  if s.memory.numPages ≠ s.numPages then .error pageMemoryError s
  else
    let numBytes := alignedRequest numBytes
    if s.asksTooMuch numBytes then .error pageMemoryError s
    else if s.givesTooMuch numBytes then .error pageMemoryError s
    else
      let pages := numDesiredPages (s.newNumBytes numBytes)
      .ok s.numBytes
        { s with numBytes := s.newNumBytes numBytes, memory := s.resized commits pages, numPages := pages }

end WasmMemory

/-! ## One call -/

namespace WasmMemory

/-- A call throws and changes neither count, or the bytes stay between the limits, the pages are as few as cover
them, and the call returns what the bytes were. -/
def Within (s : WasmMemory) : EStateM.Result Fault WasmMemory ℕ → Prop
  | .error e s' => e = pageMemoryError ∧ s'.numBytes = s.numBytes ∧ s'.numPages = s.numPages
  | .ok previous s' =>
    (s.minBytes ≤ maxMemory → s.minBytes ≤ s'.numBytes ∧ s'.numBytes ≤ maxMemory) ∧
      IsLeast {pages | s'.numBytes ≤ pages * numBytesPerPage} s'.numPages ∧ previous = s.numBytes

/-- The request, aligned, is not for more than there may be at all. A memory that has been larger from the beginning
has no such limit; there the bytes must leave room for another page in 32 bits. -/
def Fits (s : WasmMemory) (numBytes : ℤ) : Prop :=
  s.memory.numPages = s.numPages →
    if s.minBytes ≤ maxMemory then alignedRequest numBytes ≤ maxMemory
    else s.asksTooMuch (alignedRequest numBytes) ∨ s.givesTooMuch (alignedRequest numBytes) ∨
      s.newNumBytes (alignedRequest numBytes) + numBytesPerPage ≤ 2 ^ 32

/-- Both counts of bytes have 32 bits, and the limits are kept if the memory was within them at the beginning. -/
structure Held (s : WasmMemory) : Prop where
  minBytes : s.minBytes < 2 ^ 32
  numBytes : s.numBytes < 2 ^ 32
  limits : s.minBytes ≤ maxMemory → s.minBytes ≤ s.numBytes ∧ s.numBytes ≤ maxMemory

variable {s : WasmMemory} {numBytes : ℤ} {commits : Bool}

theorem u32OfInt_lt (n : ℤ) : u32OfInt n < 2 ^ 32 := by
  unfold u32OfInt
  omega

theorem alignedRequest_bounds (numBytes : ℤ) :
    -2 ^ 31 ≤ alignedRequest numBytes ∧ alignedRequest numBytes < 2 ^ 31 := by
  have hlow : -2 ^ 31 ≤ i32 (numBytes + 7) := Int.le_bmod (by decide)
  have hhigh : i32 (numBytes + 7) < 2 ^ 31 := Int.bmod_lt (by decide)
  unfold alignedRequest
  omega

theorem Held.new (memory : MemoryInstance) : Held (.new memory) := by
  have hlimit : ∀ address, limit32BitAddress address < 2 ^ 32 := fun address => by
    unfold limit32BitAddress
    split_ifs <;> omega
  exact ⟨hlimit _, hlimit _, fun h => ⟨le_rfl, h⟩⟩

/-- As many pages cover the bytes and no fewer do, unless the sum has wrapped. -/
theorem isLeast_numDesiredPages_iff {n : ℕ} (hn : n < 2 ^ 32) :
    IsLeast {pages | n ≤ pages * numBytesPerPage} (numDesiredPages n) ↔ n + numBytesPerPage ≤ 2 ^ 32 := by
  unfold numDesiredPages u32 numBytesPerPage
  constructor
  · rintro ⟨hcover, -⟩
    change n ≤ _ at hcover
    omega
  · intro hroom
    refine ⟨?_, fun pages hpages => ?_⟩
    · change n ≤ _
      omega
    · change n ≤ _ at hpages
      omega

theorem sbrk_of_refused (hrefused : s.memory.numPages ≠ s.numPages ∨ s.asksTooMuch (alignedRequest numBytes) ∨
    s.givesTooMuch (alignedRequest numBytes)) : sbrk commits numBytes s = .error pageMemoryError s := by
  unfold sbrk
  dsimp only
  split_ifs with hpages hasks hgives
  · rfl
  · rfl
  · rfl
  · exact absurd hrefused (by rw [not_or, not_or]; exact ⟨hpages, hasks, hgives⟩)

variable (commits) in
theorem sbrk_of_granted (hpages : s.memory.numPages = s.numPages) (hasks : ¬ s.asksTooMuch (alignedRequest numBytes))
    (hgives : ¬ s.givesTooMuch (alignedRequest numBytes)) : ∃ s', sbrk commits numBytes s = .ok s.numBytes s' ∧
      s'.minBytes = s.minBytes ∧ s'.numBytes = s.newNumBytes (alignedRequest numBytes) ∧
      s'.numPages = numDesiredPages s'.numBytes := by
  refine ⟨{ s with
    memory := s.resized commits (numDesiredPages (s.newNumBytes (alignedRequest numBytes)))
    numPages := numDesiredPages (s.newNumBytes (alignedRequest numBytes))
    numBytes := s.newNumBytes (alignedRequest numBytes) }, ?_, rfl, rfl, rfl⟩
  unfold sbrk
  rw [if_neg (not_not.2 hpages)]
  dsimp only
  rw [if_neg hasks, if_neg hgives]

/-- Within the limits a request that passes both comparisons stays within them, unless it is for more than there
may be at all: then the difference that it is compared with has wrapped. -/
theorem limits_iff (h : s.Held) (hmin : s.minBytes ≤ maxMemory) (hasks : ¬ s.asksTooMuch (alignedRequest numBytes))
    (hgives : ¬ s.givesTooMuch (alignedRequest numBytes)) :
    s.minBytes ≤ s.newNumBytes (alignedRequest numBytes) ∧ s.newNumBytes (alignedRequest numBytes) ≤ maxMemory ↔
      alignedRequest numBytes ≤ maxMemory := by
  obtain ⟨hlow, hhigh⟩ := alignedRequest_bounds numBytes
  have hlimits := h.limits hmin
  generalize alignedRequest numBytes = request at *
  unfold asksTooMuch u32OfInt at hasks
  unfold givesTooMuch u32OfInt at hgives
  unfold newNumBytes u32OfInt
  simp only [maxMemory] at *
  omega

/-- A request for more than there may be is never refused within the limits. -/
theorem request_le_of_refused (h : s.Held) (hmin : s.minBytes ≤ maxMemory)
    (hrefused : s.asksTooMuch (alignedRequest numBytes) ∨ s.givesTooMuch (alignedRequest numBytes)) :
    alignedRequest numBytes ≤ maxMemory := by
  have hhigh := (alignedRequest_bounds numBytes).2
  have hlimits := h.limits hmin
  generalize alignedRequest numBytes = request at *
  unfold asksTooMuch givesTooMuch u32OfInt at hrefused
  simp only [maxMemory] at *
  omega

variable (commits numBytes) in
/-- What one call does. -/
theorem within_iff (h : s.Held) : s.Within (sbrk commits numBytes s) ↔ s.Fits numBytes := by
  by_cases hpages : s.memory.numPages = s.numPages
  swap
  · rw [sbrk_of_refused (.inl hpages)]
    exact ⟨fun _ heq => absurd heq hpages, fun _ => ⟨rfl, rfl, rfl⟩⟩
  rw [Fits, forall_prop_of_true hpages]
  by_cases hrefused : s.asksTooMuch (alignedRequest numBytes) ∨ s.givesTooMuch (alignedRequest numBytes)
  · rw [sbrk_of_refused (.inr hrefused)]
    refine ⟨fun _ => ?_, fun _ => ⟨rfl, rfl, rfl⟩⟩
    split_ifs with hmin
    · exact request_le_of_refused h hmin hrefused
    · exact hrefused.imp_right .inl
  · rw [not_or] at hrefused
    obtain ⟨hasks, hgives⟩ := hrefused
    obtain ⟨s', hrun, -, hbytes, hnum⟩ := sbrk_of_granted commits hpages hasks hgives
    have hleast := isLeast_numDesiredPages_iff (u32OfInt_lt (s.numBytes + alignedRequest numBytes))
    rw [hrun, Within, hnum, hbytes]
    split_ifs with hmin
    · have hlimits := limits_iff h hmin hasks hgives
      refine ⟨fun hwithin => hlimits.1 (hwithin.1 hmin), fun hrequest => ?_⟩
      have hnew := hlimits.2 hrequest
      refine ⟨fun _ => hnew, hleast.2 ?_, rfl⟩
      have hmax : s.newNumBytes (alignedRequest numBytes) ≤ 1024 * 1024 := hnew.2
      change s.newNumBytes (alignedRequest numBytes) + 2 ^ 16 ≤ 2 ^ 32
      omega
    · exact ⟨fun hwithin => .inr (.inr (hleast.1 hwithin.2.1)),
        fun hroom => ⟨fun hle => absurd hle hmin,
          hleast.2 ((hroom.resolve_left hasks).resolve_left hgives), rfl⟩⟩

/-- The counts stay as they are or keep the limits. -/
theorem Held.sbrk (h : s.Held) (hwithin : s.Within (sbrk commits numBytes s)) :
    (stateOf (sbrk commits numBytes s)).Held := by
  by_cases hrefused : s.memory.numPages ≠ s.numPages ∨ s.asksTooMuch (alignedRequest numBytes) ∨
      s.givesTooMuch (alignedRequest numBytes)
  · rw [sbrk_of_refused hrefused]
    exact h
  · rw [not_or, not_or, not_not] at hrefused
    obtain ⟨hpages, hasks, hgives⟩ := hrefused
    obtain ⟨s', hrun, hsame, hbytes, -⟩ := sbrk_of_granted commits hpages hasks hgives
    rw [hrun] at hwithin ⊢
    refine ⟨hsame ▸ h.minBytes, hbytes ▸ u32OfInt_lt _, fun hmin => ?_⟩
    rw [stateOf, hsame] at hmin ⊢
    exact hwithin.1 hmin

end WasmMemory

/-! ## Sequences of calls -/

section Calls

/-- What holds of each of some calls, in the state before it. Each comes with whether the platform would commit
the pages. -/
def EachSbrk (P : WasmMemory → Bool → ℤ → Prop) : WasmMemory → List (Bool × ℤ) → Prop
  | _, [] => True
  | s, (commits, numBytes) :: calls =>
    P s commits numBytes ∧ EachSbrk P (stateOf (WasmMemory.sbrk commits numBytes s)) calls

def AllWithin : WasmMemory → List (Bool × ℤ) → Prop :=
  EachSbrk fun s commits numBytes => s.Within (WasmMemory.sbrk commits numBytes s)

def AllFit : WasmMemory → List (Bool × ℤ) → Prop := EachSbrk fun s _ numBytes => s.Fits numBytes

theorem allWithin_iff {s : WasmMemory} {calls : List (Bool × ℤ)} (h : s.Held) : AllWithin s calls ↔ AllFit s calls := by
  induction calls generalizing s with
  | nil => exact Iff.rfl
  | cons call calls ih =>
    obtain ⟨commits, numBytes⟩ := call
    have hcall := WasmMemory.within_iff numBytes commits h
    constructor
    · rintro ⟨hwithin, hrest⟩
      exact ⟨hcall.1 hwithin, (ih (h.sbrk hwithin)).1 hrest⟩
    · rintro ⟨hfits, hrest⟩
      have hwithin := hcall.2 hfits
      exact ⟨hwithin, (ih (h.sbrk hwithin)).2 hrest⟩

/-- The calls keep the memory within its limits just if each request fits. -/
theorem sbrk_within_limits_iff (memory : MemoryInstance) (calls : List (Bool × ℤ)) :
    AllWithin (.new memory) calls ↔ AllFit (.new memory) calls := allWithin_iff (.new memory)

/-- A memory of one page is given two megabytes, and one of four gigabytes counts no pages at all. -/
theorem memory_beyond_limits : ¬ AllWithin (.new ⟨1, 1, 100⟩) [(true, 2 ^ 21)] ∧
    ¬ AllWithin (.new ⟨65536, 65536, 65536⟩) [(true, 0)] := by
  rw [allWithin_iff (.new _), allWithin_iff (.new _)]
  constructor
  · rintro ⟨hfits, -⟩
    exact absurd (hfits rfl) (by decide)
  · rintro ⟨hfits, -⟩
    exact absurd (hfits rfl) (by decide)

end Calls

end XmaxChain
