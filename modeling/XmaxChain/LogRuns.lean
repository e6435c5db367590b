import XmaxChain.ChainStream
import XmaxChain.Dpos

/-!
# Runs of calls on the block log

With two blocks or more the log is a list. An index with no entry or one is not read as one: a seek
before the beginning of the empty file leaves a stream on which every later call throws, and the entry at
position zero is taken for none.
-/

namespace XmaxChain

inductive LogCall
  | appendBlock (block : SignedBlock)
  | readByNum (num : UInt32)
  | readIndices (beginNum blockCount : Int64)
  | lastBlockNum
  | reopen

inductive LogReply
  | position (pos : ℕ)
  | block (block : Option SignedBlock)
  | indices (idxs : List BlockIndex)
  | number (num : ℤ)
  | opened

/-- A window of index entries that lies in an index of `n` entries, by the arithmetic of
`read_indices`. -/
def WindowInFile (n : ℕ) (beginNum blockCount : ℤ) : Prop :=
  let count := ChainStream.indexCount n beginNum blockCount
  let first := 64 * (n - 1 : ℤ) + ChainStream.indexBias n beginNum
  asI64 (n - beginNum + 1) < 1 ∨ maxIndices < asU64 count
    ∨ (count ≠ 0 ∧ 0 ≤ first ∧ first + 64 * count ≤ 64 * n)

/-- A window that is answered as one of a list of `n` entries, whatever it is. -/
def WindowSafe (n : ℕ) (beginNum blockCount : ℤ) : Prop :=
  if n = 0 then False
  else if n = 1 then ¬ (beginNum = 1 ∧ 1 ≤ blockCount)
  else if 1 ≤ beginNum then n < beginNum ∨ blockCount ≠ 0
  else WindowInFile n beginNum blockCount

namespace LogCall

open ChainStream

variable {β : Type} (c : Crypto) (fmt : LogFormat β)

def run : LogCall → EStateM Fault (ChainStream β) LogReply
  | .appendBlock block => .position <$> ChainStream.appendBlock c fmt block
  | .readByNum num => .block <$> ChainStream.readBlock fmt num.toNat
  | .readIndices beginNum blockCount =>
    .indices <$> ChainStream.readIndices fmt beginNum.toInt blockCount.toInt
  | .lastBlockNum => .number <$> ChainStream.lastBlockNum fmt
  | .reopen => (fun _ => .opened) <$> ChainStream.reopen fmt

/-- The blocks that have been appended. -/
def after (bs : List SignedBlock) : LogCall → List SignedBlock
  | .appendBlock block => if block.blockNum = bs.length + 1 then bs ++ [block] else bs
  | _ => bs

/-- What a log that is a list answers. Of entries before the first nothing is said but that the call
accesses nothing undefined. -/
def Right (bs : List SignedBlock) (r : EStateM.Result Fault (ChainStream β) LogReply) :
    LogCall → Prop
  | .appendBlock block => block.blockNum = bs.length + 1 → ∃ pos s, r = .ok (.position pos) s
  | .readByNum num => ∃ s, r = .ok (.block (if num = 0 then none else bs[num.toNat - 1]?)) s
  | .readIndices b n => (∀ msg s, r ≠ .error (.undefined msg) s) ∧ (1 ≤ b.toInt → 0 ≤ n.toInt →
      ∃ s, r =
        .ok (.indices (((fmt.entries c 0 bs).drop (b.toInt.toNat - 1)).take n.toInt.toNat)) s)
  | .lastBlockNum => ∃ s, r = .ok (.number bs.length) s
  | .reopen => ∃ s, r = .ok .opened s ∧ s.headBlock = bs.getLast?

/-- The calls that a log of `n` blocks answers as a list. -/
def Safe (n : ℕ) : LogCall → Prop
  | .appendBlock _ => True
  | .readByNum num => n ≠ 0 ∧ num ≠ 0
  | .readIndices b k => WindowSafe n b.toInt k.toInt
  | .lastBlockNum => 2 ≤ n
  | .reopen => True

end LogCall

/-- Runs of calls that are answered as by a list, from a log that has been created. -/
inductive LogRun {β : Type} (c : Crypto) (fmt : LogFormat β) :
    ChainStream β → List SignedBlock → Prop
  | created : LogRun c fmt {} []
  | call {s : ChainStream β} {bs : List SignedBlock} (run : LogRun c fmt s bs) (call : LogCall)
      (safe : call.Safe bs.length) : LogRun c fmt (stateOf (call.run c fmt s)) (call.after bs)

section Runs

open FileStream ChainStream

variable {β : Type} {c : Crypto} {fmt : LogFormat β} {s : ChainStream β} {bs : List SignedBlock}

theorem map_ok {σ α γ : Type} {f : α → γ} {x : EStateM Fault σ α} {s s' : σ} {a : α}
    (h : x s = .ok a s') :
    (f <$> x) s = .ok (f a) s' := by
  simp [Functor.map, EStateM.map, h]

theorem map_error {σ α γ : Type} {f : α → γ} {x : EStateM Fault σ α} {s s' : σ} {e : Fault}
    (h : x s = .error e s') : (f <$> x) s = .error e s' := by
  simp [Functor.map, EStateM.map, h]

/-- A call is answered as by a list and leaves a log of the list. -/
def Answered (c : Crypto) (fmt : LogFormat β) (s : ChainStream β) (bs : List SignedBlock)
    (call : LogCall) :
    Prop :=
  call.Right c fmt bs (call.run c fmt s) ∧ Holds c fmt (stateOf (call.run c fmt s)) (call.after bs)

theorem Answered.of_run {call : LogCall} {r : EStateM.Result Fault (ChainStream β) LogReply}
    (hrun : call.run c fmt s = r) (hright : call.Right c fmt bs r)
    (hheld : Holds c fmt (stateOf r) (call.after bs)) : Answered c fmt s bs call := by
  subst hrun
  exact ⟨hright, hheld⟩

theorem Holds.append_answered (h : Holds c fmt s bs) (block : SignedBlock) :
    Answered c fmt s bs (.appendBlock block) := by
  by_cases hb : block.blockNum = bs.length + 1
  · obtain ⟨pos, s', hrun, hheld⟩ := h.append hb
    exact .of_run (map_ok hrun) (fun _ => ⟨pos, s', rfl⟩) (by rwa [LogCall.after, if_pos hb])
  · obtain ⟨msg, s', hrun, hheld⟩ := h.append_refused hb
    exact .of_run (map_error hrun) (fun heq => absurd heq hb) (by rwa [LogCall.after, if_neg hb])

theorem Holds.readByNum_answered (h : Holds c fmt s bs) {num : UInt32}
    (hsafe : (LogCall.readByNum num).Safe bs.length) : Answered c fmt s bs (.readByNum num) := by
  have hnum : num.toNat ≠ 0 := fun hzero => hsafe.2 (UInt32.toNat_inj.1 hzero)
  obtain ⟨s', hrun, hheld⟩ :=
    h.readBlock_ok (List.length_pos_iff.1 (Nat.pos_of_ne_zero hsafe.1)) hnum
  exact .of_run (map_ok hrun) ⟨s', by rw [if_neg hsafe.2]⟩ hheld

theorem Holds.readByNum_unsafe (h : Holds c fmt s bs) {num : UInt32}
    (hsafe : ¬ (LogCall.readByNum num).Safe bs.length) :
    ¬ (stateOf ((LogCall.readByNum num).run c fmt s)).Sound := by
  by_cases hnum : num = 0
  · obtain ⟨e, s', hrun, hsound⟩ := h.readBlock_zero
    subst hnum
    have hrun' : (LogCall.readByNum 0).run c fmt s = .error e s' := map_error hrun
    rwa [hrun']
  · have hlen : bs.length = 0 := by
      by_contra hne
      exact hsafe ⟨hne, hnum⟩
    have hrun : readBlock fmt num.toNat s = .error (.std "basic_ios::clear") s.failIndex := by
      rw [readBlock, run_bind_error (h.toLastBlockIndex_error hlen)]
    have hrun' : (LogCall.readByNum num).run c fmt s = .error _ s.failIndex := map_error hrun
    rw [hrun']
    exact not_sound_failIndex s

theorem Holds.lastBlockNum_answered (h : Holds c fmt s bs) (hn : 2 ≤ bs.length) :
    Answered c fmt s bs .lastBlockNum := by
  obtain ⟨s', hrun, hheld⟩ := h.lastBlockNum_ok hn
  exact .of_run (map_ok hrun) ⟨s', rfl⟩ hheld

theorem Holds.lastBlockNum_unsafe (h : Holds c fmt s bs) (hn : ¬ 2 ≤ bs.length) :
    ¬ LogCall.lastBlockNum.Right c fmt bs (LogCall.lastBlockNum.run c fmt s) := by
  rintro ⟨s', hright⟩
  rcases Nat.eq_zero_or_pos bs.length with hlen | hlen
  · have hrun : lastBlockNum fmt s = .error (.std "basic_ios::clear") s.failIndex := by
      rw [lastBlockNum, run_bind_error (h.toLastBlockIndex_error hlen)]
    cases (map_error hrun).symm.trans hright
  · obtain ⟨s₁, hrun⟩ := h.lastBlockNum_one (by omega)
    have heq := (map_ok hrun).symm.trans hright
    injection heq with heq
    injection heq with heq
    omega

/-- Seeks in the index go by whole entries. -/
theorem indexBias_dvd (n : ℕ) (b : ℤ) : ∃ j : ℤ, indexBias n b = 64 * j := by
  refine ⟨indexBias n b / 64, ?_⟩
  unfold indexBias asI64 asU64
  rw [Int.bmod_def]
  push_cast
  split_ifs <;> omega

/-- A negative count is a size that no array has. -/
theorem lt_asU64_of_neg {k : ℤ} (hk : -2 ^ 63 ≤ k) (hneg : k < 0) : maxIndices < asU64 k := by
  unfold maxIndices asU64
  omega

/-- What a call of `read_indices` comes to, of an index with two entries or more. -/
theorem Holds.readIndices_window (h : Holds c fmt s bs) (hn : 2 ≤ bs.length) (b : ℤ) {k : ℤ}
    (hk : -2 ^ 63 ≤ k) :
    (WindowInFile bs.length b k →
      (∀ msg s', readIndices fmt b k s ≠ .error (.undefined msg) s') ∧
        Holds c fmt (stateOf (readIndices fmt b k s)) bs) ∧
    (¬ WindowInFile bs.length b k →
      (∃ msg s', readIndices fmt b k s = .error (.undefined msg) s') ∨
        ∃ e s', readIndices fmt b k s = .error e s' ∧ ¬ s'.Sound) := by
  obtain ⟨n, hlen⟩ : ∃ n, bs.length = n + 1 := ⟨bs.length - 1, by omega⟩
  obtain ⟨j, hj⟩ := indexBias_dvd (n + 1) b
  have hrun := h.readIndices_eq hlen (by omega) b k
  have hheld := h.atIndex (64 * n)
  unfold WindowInFile
  simp only [hlen]
  by_cases hcc : asI64 ((n + 1 : ℕ) - b + 1) < 1
  · rw [hrun, if_pos hcc]
    exact ⟨fun _ => ⟨by simp, h.atIndex _⟩, fun hwindow => absurd (Or.inl hcc) hwindow⟩
  rw [hrun, if_neg hcc]
  by_cases hmax : maxIndices < asU64 (indexCount (n + 1) b k)
  · rw [takeIndices_tooMany hmax]
    exact ⟨fun _ => ⟨by simp, hheld⟩, fun hwindow => absurd (Or.inr (Or.inl hmax)) hwindow⟩
  by_cases hfirst : 64 * (n : ℤ) + indexBias (n + 1) b < 0
  · obtain ⟨e, s', herror, hsound⟩ : ∃ e s', takeIndices fmt (indexCount (n + 1) b k)
        (indexBias (n + 1) b) (s.atIndex (64 * n)) = .error e s' ∧ ¬ s'.Sound :=
      takeIndices_before hmax hfirst
    refine ⟨?_, fun _ => Or.inr ⟨e, s', herror, hsound⟩⟩
    rintro (hcc' | hmax' | ⟨-, hfirst', -⟩)
    · exact absurd hcc' hcc
    · exact absurd hmax' hmax
    · push_cast at hfirst'
      omega
  obtain ⟨i, hi⟩ : ∃ i : ℕ, (i : ℤ) = n + j := ⟨(n + j).toNat, by omega⟩
  have hbias : 64 * (n : ℤ) + indexBias (n + 1) b = (64 * i : ℕ) := by
    push_cast
    omega
  by_cases hcount : indexCount (n + 1) b k = 0
  · rw [h.takeIndices_none hmax hbias hcount]
    refine ⟨?_, fun _ => Or.inl ⟨_, _, rfl⟩⟩
    rintro (hcc' | hmax' | ⟨hcount', -⟩)
    · exact absurd hcc' hcc
    · exact absurd hmax' hmax
    · exact absurd hcount hcount'
  have hpos : 0 < indexCount (n + 1) b k := by
    by_contra hneg
    have hsame : indexCount (n + 1) b k = k := by
      simp only [indexCount] at hneg ⊢
      split_ifs at hneg ⊢
      · omega
      · rfl
    rw [hsame] at hneg hmax
    exact hmax (lt_asU64_of_neg hk (by omega))
  by_cases hin : i + (indexCount (n + 1) b k).toNat ≤ bs.length
  · obtain ⟨s', hok, hheld'⟩ := h.takeIndices_ok hmax hbias hcount hin
    rw [hok]
    refine ⟨fun _ => ⟨by simp, hheld'⟩,
      fun hwindow => absurd (Or.inr (Or.inr ⟨hcount, ?_, ?_⟩)) hwindow⟩
    · push_cast
      omega
    · push_cast at hbias ⊢
      omega
  · obtain ⟨e, s', herror, hsound⟩ := h.takeIndices_after hmax hbias hcount (by omega)
    refine ⟨?_, fun _ => Or.inr ⟨e, s', herror, hsound⟩⟩
    rintro (hcc' | hmax' | ⟨-, -, hend⟩)
    · exact absurd hcc' hcc
    · exact absurd hmax' hmax
    · push_cast at hend hbias
      omega

section Window

variable {n : ℕ} {b k : ℤ} (hn : n < 2 ^ 32) (hb : 1 ≤ b) (hbn : b ≤ n)
include hn hb hbn

theorem indexCount_of_le : indexCount n b k = if n - b + 1 < k then n - b + 1 else k := by
  simp only [indexCount, asI64_of_small (show -2 ^ 63 ≤ (n : ℤ) - b + 1 by omega) (by omega)]

theorem indexBias_of_le : indexBias n b = 64 * b - 64 * n := by
  rw [indexBias, asU64_of_small (by omega) (by omega), asI64_of_small (by omega) (by omega)]
  ring

end Window

/-- From the first entry on the window lies in the index, if it is not an empty one. -/
theorem windowInFile_iff {n : ℕ} {b k : ℤ} (hn : n < 2 ^ 32) (hb : 1 ≤ b) (hb' : b < 2 ^ 63)
    (hk : -2 ^ 63 ≤ k) : WindowInFile n b k ↔ n < b ∨ k ≠ 0 := by
  have hcc : asI64 (n - b + 1) = n - b + 1 := asI64_of_small (by omega) (by omega)
  rcases Int.lt_or_le n b with hlt | hle
  · refine iff_of_true (Or.inl ?_) (Or.inl hlt)
    omega
  simp only [WindowInFile, hcc, indexCount_of_le hn hb hle, indexBias_of_le hn hb hle]
  constructor
  · rintro (hcc' | hmax | ⟨hcount, -⟩)
    · omega
    · refine Or.inr ?_
      rintro rfl
      rw [if_neg (by omega)] at hmax
      exact absurd hmax (by decide)
    · refine Or.inr ?_
      rintro rfl
      rw [if_neg (by omega)] at hcount
      exact hcount rfl
  · rintro (hlt | hk0)
    · omega
    · rcases lt_or_gt_of_ne hk0 with hneg | hpos
      · rw [if_neg (by omega)]
        exact Or.inr (Or.inl (lt_asU64_of_neg hk hneg))
      · refine Or.inr (Or.inr ⟨?_, by omega, ?_⟩) <;> split_ifs <;> omega

/-- The entries of a window. -/
theorem Holds.readIndices_ok (h : Holds c fmt s bs) (hn : 2 ≤ bs.length) {b k : ℤ} (hb : 1 ≤ b)
    (hb' : b < 2 ^ 63) (hk : 0 ≤ k) (hsafe : bs.length < b ∨ k ≠ 0) :
    ∃ s', readIndices fmt b k s =
      .ok (((fmt.entries c 0 bs).drop (b.toNat - 1)).take k.toNat) s' := by
  obtain ⟨n, hlen⟩ : ∃ n, bs.length = n + 1 := ⟨bs.length - 1, by omega⟩
  have hlt := h.length_lt
  have hcc : asI64 ((n + 1 : ℕ) - b + 1) = (n + 1 : ℕ) - b + 1 :=
    asI64_of_small (by omega) (by omega)
  rw [h.readIndices_eq hlen (by omega), hcc]
  rcases Int.lt_or_le bs.length b with hout | hin
  · rw [if_pos (by omega), List.drop_of_length_le (by rw [LogFormat.length_entries]; omega),
    List.take_nil]
    exact ⟨_, rfl⟩
  · have hcount := indexCount_of_le (k := k) (show n + 1 < 2 ^ 32 by omega) hb (by omega)
    have hbias := indexBias_of_le (show n + 1 < 2 ^ 32 by omega) hb (by omega)
    have hk0 : k ≠ 0 := by omega
    obtain ⟨count, hcountEq⟩ : ∃ count, count = indexCount (n + 1) b k := ⟨_, rfl⟩
    have hrange : 1 ≤ count ∧ count ≤ (n + 1 : ℕ) - b + 1 := by
      rw [hcountEq, hcount]
      split_ifs <;> omega
    have hmax : ¬ maxIndices < asU64 count := by
      unfold maxIndices asU64
      omega
    have htake : ((fmt.entries c 0 bs).drop (b.toNat - 1)).take k.toNat =
        ((fmt.entries c 0 bs).drop (b.toNat - 1)).take count.toNat := by
      rw [hcountEq, hcount]
      split_ifs with hless
      · rw [List.take_of_length_le, List.take_of_length_le] <;>
          (rw [List.length_drop, LogFormat.length_entries]; omega)
      · rfl
    have hseek : 64 * (n : ℤ) + indexBias (n + 1) b = (64 * (b.toNat - 1) : ℕ) := by
      rw [hbias]
      omega
    obtain ⟨s', hok, -⟩ := h.takeIndices_ok hmax hseek (by omega) (by omega)
    rw [if_neg (by omega), ← hcountEq, hok, htake]
    exact ⟨s', rfl⟩

theorem Answered.of_readIndices {b k : Int64}
    (hdefined : ∀ msg s', readIndices fmt b.toInt k.toInt s ≠ .error (.undefined msg) s')
    (hright : 1 ≤ b.toInt → 0 ≤ k.toInt → ∃ s', readIndices fmt b.toInt k.toInt s =
      .ok (((fmt.entries c 0 bs).drop (b.toInt.toNat - 1)).take k.toInt.toNat) s')
    (hheld : Holds c fmt (stateOf (readIndices fmt b.toInt k.toInt s)) bs) :
    Answered c fmt s bs (.readIndices b k) := by
  cases hrun : readIndices fmt b.toInt k.toInt s with
  | ok l s' =>
    rw [hrun] at hheld hright
    refine .of_run (map_ok hrun) ⟨fun msg s'' heq => (by cases heq), fun hb hk => ?_⟩ hheld
    obtain ⟨s'', heq⟩ := hright hb hk
    injection heq with hl
    exact ⟨s', by rw [hl]⟩
  | error e s' =>
    rw [hrun] at hheld hright hdefined
    refine .of_run (map_error hrun) ⟨fun msg s'' heq => ?_, fun hb hk => ?_⟩ hheld
    · injection heq with he
      exact hdefined msg s' (by rw [he])
    · obtain ⟨s'', heq⟩ := hright hb hk
      cases heq

theorem Holds.readIndices_answered (h : Holds c fmt s bs) {b k : Int64}
    (hsafe : WindowSafe bs.length b.toInt k.toInt) : Answered c fmt s bs (.readIndices b k) := by
  have hbmax := b.toInt_lt
  have hkmin := k.le_toInt
  unfold WindowSafe at hsafe
  split_ifs at hsafe with hzero hone hb
  · have hrun := h.readIndices_one hone b.toInt k.toInt
    refine .of_readIndices (by simp [hrun]) (fun hb hk => ⟨s.atIndex 0, ?_⟩) (hrun ▸ h.atIndex 0)
    have hnone : ((fmt.entries c 0 bs).drop (b.toInt.toNat - 1)).take k.toInt.toNat = [] := by
      rw [List.take_eq_nil_iff, List.drop_eq_nil_iff, LogFormat.length_entries]
      omega
    rw [hrun, hnone]
  · have hn : 2 ≤ bs.length := by omega
    have hwindow := (windowInFile_iff h.length_lt hb hbmax hkmin).2 hsafe
    obtain ⟨hdefined, hheld⟩ := (h.readIndices_window hn b.toInt hkmin).1 hwindow
    exact .of_readIndices hdefined (fun _ hk => h.readIndices_ok hn hb hbmax hk hsafe) hheld
  · have hn : 2 ≤ bs.length := by omega
    obtain ⟨hdefined, hheld⟩ := (h.readIndices_window hn b.toInt hkmin).1 hsafe
    exact .of_readIndices hdefined (fun hb' _ => absurd hb' hb) hheld

theorem Holds.readIndices_unsafe (h : Holds c fmt s bs) {b k : Int64}
    (hsafe : ¬ WindowSafe bs.length b.toInt k.toInt) :
    ¬ ((LogCall.readIndices b k).Right c fmt bs ((LogCall.readIndices b k).run c fmt s) ∧
      (stateOf ((LogCall.readIndices b k).run c fmt s)).Sound) := by
  have hbmax := b.toInt_lt
  have hkmin := k.le_toInt
  rintro ⟨⟨hdefined, hright⟩, hsound⟩
  have hwindow : 2 ≤ bs.length → ¬ WindowInFile bs.length b.toInt k.toInt → False := by
    intro hn hout
    rcases (h.readIndices_window hn b.toInt hkmin).2 hout with ⟨msg, s', hrun⟩ |
      ⟨e, s', hrun, hfailed⟩
    · exact hdefined msg s' (map_error hrun)
    · have hrun' : (LogCall.readIndices b k).run c fmt s = .error e s' := map_error hrun
      rw [hrun'] at hsound
      exact hfailed hsound
  unfold WindowSafe at hsafe
  split_ifs at hsafe with hzero hone hb
  · have hrun : (LogCall.readIndices b k).run c fmt s = .error _ s.failIndex :=
      map_error (h.readIndices_empty hzero b.toInt k.toInt)
    rw [hrun] at hsound
    exact not_sound_failIndex s hsound
  · rw [not_not] at hsafe
    obtain ⟨s', hright⟩ := hright (by omega) (by omega)
    have heq := (map_ok (f := LogReply.indices) (h.readIndices_one hone b.toInt
      k.toInt)).symm.trans hright
    injection heq with heq
    injection heq with heq
    have hlen := congrArg List.length heq
    rw [List.length_take, List.length_drop, LogFormat.length_entries, hone, hsafe.1,
      List.length_nil] at hlen
    omega
  · exact hwindow (by omega) (fun hin => hsafe ((windowInFile_iff h.length_lt hb hbmax hkmin).1
    hin))
  · exact hwindow (by omega) hsafe

theorem Holds.reopen_answered (h : Holds c fmt s bs) : Answered c fmt s bs .reopen := by
  obtain ⟨s', hrun, hheld⟩ := h.reopen_ok
  exact .of_run (map_ok hrun) ⟨s', rfl, hheld.head⟩ hheld

/-- What one call does to a log. -/
theorem Holds.call_answered (h : Holds c fmt s bs) (call : LogCall) (hsafe : call.Safe bs.length) :
    Answered c fmt s bs call := by
  cases call with
  | appendBlock block => exact h.append_answered block
  | readByNum num => exact h.readByNum_answered hsafe
  | readIndices b k => exact h.readIndices_answered hsafe
  | lastBlockNum => exact h.lastBlockNum_answered hsafe
  | reopen => exact h.reopen_answered

theorem Holds.call_unsafe (h : Holds c fmt s bs) (call : LogCall) (hsafe : ¬ call.Safe bs.length) :
    ¬ (call.Right c fmt bs (call.run c fmt s) ∧ (stateOf (call.run c fmt s)).Sound) := by
  cases call with
  | appendBlock block => exact absurd trivial hsafe
  | readByNum num => exact fun hboth => h.readByNum_unsafe hsafe hboth.2
  | readIndices b k => exact h.readIndices_unsafe hsafe
  | lastBlockNum => exact fun hboth => h.lastBlockNum_unsafe hsafe hboth.1
  | reopen => exact absurd trivial hsafe

theorem LogRun.holds (run : LogRun c fmt s bs) : Holds c fmt s bs := by
  induction run with
  | created => exact ⟨⟨fun i b hb => by simp at hb, rfl, rfl, rfl, rfl⟩, rfl⟩
  | call run call safe ih => exact (ih.call_answered call safe).2

/-- In every run whose calls are answered as by a list the head is the last block, and exactly the calls
that are safe for the number of blocks are answered as by the list and leave a log that answers. -/
theorem log_list_iff (run : LogRun c fmt s bs) :
    s.headBlock = bs.getLast? ∧
      ∀ call : LogCall, call.Right c fmt bs (call.run c fmt s) ∧ (stateOf (call.run c fmt s)).Sound
        ↔
        call.Safe bs.length := by
  have hheld := run.holds
  refine ⟨hheld.head, fun call => ⟨fun hboth => ?_, fun hsafe => ?_⟩⟩
  · by_contra hsafe
    exact hheld.call_unsafe call hsafe hboth
  · have hanswered := hheld.call_answered call hsafe
    exact ⟨hanswered.1, hanswered.2.sound⟩

/-- Bytes that say what they are part of. -/
inductive LogByte
  | block (b : SignedBlock)
  | desc (d : BlockDesc)
  | index (i : BlockIndex)
  | eof (n : ℕ)

def logFormat : LogFormat LogByte where
  pack b := [.block b]
  unpack
    | .block b :: rest => some (b, rest)
    | _ => none
  unpack_pack _ _ := rfl
  desc :=
    { bytes := fun d => List.replicate 64 (.desc d)
      ofBytes := fun
        | .desc d :: _ => d
        | _ => {}
      length_bytes := fun _ => List.length_replicate
      ofBytes_bytes := fun _ => rfl }
  index :=
    { bytes := fun i => List.replicate 64 (.index i)
      ofBytes := fun
        | .index i :: _ => i
        | _ => {}
      length_bytes := fun _ => List.length_replicate
      ofBytes_bytes := fun _ => rfl }
  eof :=
    { bytes := fun n => List.replicate 4 (.eof n)
      ofBytes := fun
        | .eof n :: _ => n
        | _ => 0
      length_bytes := fun _ => List.length_replicate
      ofBytes_bytes := fun _ => rfl }

/-- A block on an empty one. -/
def afterEmpty : SignedBlock := { previous := ({} : SignedBlock).id stampCrypto, timestamp := 1 }

/-- A log of two blocks gives each back by its number. -/
theorem log_list_two : ∃ s, LogRun stampCrypto logFormat s [{}, afterEmpty] ∧ s.headBlock = some afterEmpty ∧
    ∀ num block, num = 1 ∧ block = ({} : SignedBlock) ∨ num = 2 ∧ block = afterEmpty →
      ∃ s', (LogCall.readByNum num).run stampCrypto logFormat s = .ok (.block (some block)) s' := by
  have run : LogRun stampCrypto logFormat _ [{}, afterEmpty] :=
    .call (.call .created (.appendBlock {}) trivial) (.appendBlock afterEmpty) trivial
  refine ⟨_, run, (log_list_iff run).1, ?_⟩
  rintro num block (⟨rfl, rfl⟩ | ⟨rfl, rfl⟩)
  · exact ((log_list_iff run).2 (.readByNum 1)).2 ⟨by decide, by decide⟩ |>.1
  · exact ((log_list_iff run).2 (.readByNum 2)).2 ⟨by decide, by decide⟩ |>.1

/-- After one block the last number is given as zero, and a log without a block takes none once it has
been read. -/
theorem log_not_list : (∃ s s', LogRun stampCrypto logFormat s [{}] ∧
      LogCall.lastBlockNum.run stampCrypto logFormat s = .ok (.number 0) s') ∧
    ∃ e s, LogRun stampCrypto logFormat {} [] ∧
      (LogCall.readByNum 1).run stampCrypto logFormat {} = .error e s ∧
        ∃ e' s', (LogCall.appendBlock {}).run stampCrypto logFormat s = .error e' s' := by
  have run : LogRun stampCrypto logFormat _ [{}] := .call .created (.appendBlock {}) trivial
  obtain ⟨s', hlast⟩ := run.holds.lastBlockNum_one rfl
  exact ⟨⟨_, s', run, map_ok hlast⟩, _, _, .created, rfl, _, _, rfl⟩

end Runs

end XmaxChain
