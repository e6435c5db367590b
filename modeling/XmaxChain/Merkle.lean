import XmaxChain.Types
import Mathlib.Tactic

/-!
# The Merkle root of a block's receipts

`cal_merkle` folds the digests in place: one pass hashes positions `i` and `i + 1` into position
`i / 2`, for `i` below half the length. The second step of a pass overwrites what the first one
wrote, so from three digests on the first digest never reaches the root.
-/

namespace XmaxChain

variable (c : Crypto)

/-- One step of a pass: the digests at `i` and `i + 1` as they stand, hashed into `i / 2`. -/
def merkleStep (d : List Summary) (i : ℕ) : List Summary :=
  d.set (i / 2) (c.sha256 (.pair (d.getD i default) (d.getD (i + 1) default)))

/-- A list of odd length has its last digest doubled before the pass. -/
def evenDigests (d : List Summary) : List Summary :=
  if d.length % 2 = 1 then d ++ [d.getLastD default] else d

def merkleRound (d : List Summary) : List Summary :=
  let e := evenDigests d
  ((List.range (e.length / 2)).foldl (merkleStep c) e).take (e.length / 2)

/-- The rounds, until one digest is left; each one halves the length, so the length is fuel enough. -/
def merkleRounds : ℕ → List Summary → List Summary
  | 0, d => d
  | fuel + 1, d => if d.length > 1 then merkleRounds fuel (merkleRound c d) else d

def calMerkle (digests : List Summary) : Summary :=
  (merkleRounds c digests.length digests).headD default

/-- The root that `_generate_block` puts into the header and that `_validate_block` compares
through the id. -/
def SignedBlock.receiptsRoot (b : SignedBlock) : Summary :=
  calMerkle c (b.receipts.map (·.calDigest c))

section Lost

variable (x y : Summary) {t : List Summary}

/-- The first two steps of a pass forget the first digest. -/
theorem merkleStep_two_head (h : 2 ≤ t.length) :
    merkleStep c (merkleStep c (x :: t) 0) 1 = merkleStep c (merkleStep c (y :: t) 0) 1 := by
  obtain ⟨a, b, t, rfl⟩ : ∃ a b s, t = a :: b :: s := by
    match t, h with
    | a :: b :: s, _ => exact ⟨a, b, s, rfl⟩
  simp [merkleStep]

theorem evenDigests_cons (h : 2 ≤ t.length) :
    ∃ s, 3 ≤ s.length ∧ ∀ z, evenDigests (z :: t) = z :: s := by
  have hne : t ≠ [] := by rintro rfl; simp at h
  unfold evenDigests
  by_cases hodd : (t.length + 1) % 2 = 1
  · refine ⟨t ++ [t.getLastD default], by simp; omega, fun z => ?_⟩
    rw [if_pos (by simpa using hodd)]
    cases t with
    | nil => exact absurd rfl hne
    | cons a s => simp
  · exact ⟨t, by omega, fun z => by rw [if_neg (by simpa using hodd)]⟩

theorem merkleRound_head (h : 2 ≤ t.length) : merkleRound c (x :: t) = merkleRound c (y :: t) := by
  obtain ⟨s, hs, heven⟩ := evenDigests_cons h
  obtain ⟨k, hk⟩ : ∃ k, (s.length + 1) / 2 = k + 2 := ⟨(s.length + 1) / 2 - 2, by omega⟩
  simp only [merkleRound, heven, List.length_cons, hk, List.range_eq_range', List.range'_succ,
    List.foldl_cons]
  rw [merkleStep_two_head c x y (by omega)]

/-- From three digests on the root does not depend on the first. -/
theorem calMerkle_head (h : 2 ≤ t.length) : calMerkle c (x :: t) = calMerkle c (y :: t) := by
  simp only [calMerkle, List.length_cons, merkleRounds]
  rw [if_pos (by omega), if_pos (by omega), merkleRound_head c x y h]

end Lost

section Kept

@[simp] theorem calMerkle_one (a : Summary) : calMerkle c [a] = a := rfl

@[simp] theorem calMerkle_two (a b : Summary) : calMerkle c [a, b] = c.sha256 (.pair a b) := by
  simp [calMerkle, merkleRounds, merkleRound, evenDigests, merkleStep, List.range_eq_range',
    List.range'_succ]

variable {c}

theorem calMerkle_injective (hc : Function.Injective c.sha256) {a b : List Summary}
    (hl : a.length = b.length) (hn : a.length ≤ 2) (h : calMerkle c a = calMerkle c b) : a = b := by
  match a, b, hl with
  | [], [], _ => rfl
  | [x], [y], _ => simpa using h
  | [x, x'], [y, y'], _ =>
    rw [calMerkle_two, calMerkle_two] at h
    have := hc h
    simp_all
  | _ :: _ :: _ :: _, _, _ => simp at hn

/-- A block's id gives back its header, where the 28 bytes that it keeps of the digest are
collision-free. -/
theorem BlockHeader.id_injective (hc : Function.Injective fun p => (c.sha256 p).rest)
    {h h' : BlockHeader} (heq : h.id c = h'.id c) : h = h' := by
  have hrest : (h.id c).rest = (h'.id c).rest := by rw [heq]
  simpa using hc hrest

theorem sha256_injective_of_rest (hc : Function.Injective fun p => (c.sha256 p).rest) :
    Function.Injective c.sha256 :=
  fun _ _ h => hc (congrArg Summary.rest h)

end Kept

/-- The root commits to `n` digests: two lists of that length with one root are one list. -/
def RootCommits (n : ℕ) : Prop :=
  ∀ a b : List Summary, a.length = n → b.length = n → calMerkle c a = calMerkle c b → a = b

/-- The id commits to `n` receipts: two blocks that carry the root of their receipts and have one
id have the same receipt digests. -/
def IdCommits (n : ℕ) : Prop :=
  ∀ b b' : SignedBlock, b.trxsMroot = b.receiptsRoot c → b'.trxsMroot = b'.receiptsRoot c →
    b.receipts.length = n → b'.receipts.length = n → b.id c = b'.id c →
    b.receipts.map (·.calDigest c) = b'.receipts.map (·.calDigest c)

variable {c}

theorem rootCommits_of_le (hc : Function.Injective c.sha256) {n : ℕ} (hn : n ≤ 2) :
    RootCommits c n := fun _ _ ha hb h => calMerkle_injective hc (ha.trans hb.symm) (ha ▸ hn) h

theorem not_rootCommits {n : ℕ} (hn : 3 ≤ n) : ¬ RootCommits c n := by
  intro h
  obtain ⟨m, rfl⟩ : ∃ m, n = m + 1 := ⟨n - 1, by omega⟩
  have := h (⟨0, 0⟩ :: List.replicate m default) (⟨0, 1⟩ :: List.replicate m default)
    (by simp) (by simp) (calMerkle_head c _ _ (by simp; omega))
  simp at this

theorem idCommits_of_le (hc : Function.Injective fun p => (c.sha256 p).rest) {n : ℕ} (hn : n ≤ 2) :
    IdCommits c n := by
  intro b b' hb hb' hl hl' hid
  have hh : b.toBlockHeader = b'.toBlockHeader := BlockHeader.id_injective hc hid
  refine calMerkle_injective (sha256_injective_of_rest hc) (by simp [hl, hl']) (by simp [hl, hn]) ?_
  calc b.receiptsRoot c = b.trxsMroot := hb.symm
    _ = b'.trxsMroot := congrArg BlockHeader.trxsMroot hh
    _ = b'.receiptsRoot c := hb'

/-- A block of `n + 1` receipts whose first one has index `i` and whose header carries their
root. -/
def skewedBlock (c : Crypto) (n i : ℕ) : SignedBlock :=
  let r (i : ℕ) : TransactionReceipt := ⟨i, .applied, .id default⟩
  let receipts := r i :: List.replicate n (r 0)
  { trxsMroot := calMerkle c (receipts.map (·.calDigest c)), receipts }

theorem not_idCommits (hc : Function.Injective c.sha256) {n : ℕ} (hn : 3 ≤ n) :
    ¬ IdCommits c n := by
  intro h
  obtain ⟨m, rfl⟩ : ∃ m, n = m + 1 := ⟨n - 1, by omega⟩
  have hroot : (skewedBlock c m 0).trxsMroot = (skewedBlock c m 1).trxsMroot := by
    simp only [skewedBlock, List.map_cons]
    exact calMerkle_head c _ _ (by simp; omega)
  have hid : (skewedBlock c m 0).id c = (skewedBlock c m 1).id c := by
    have : (skewedBlock c m 0).toBlockHeader = (skewedBlock c m 1).toBlockHeader := by
      simpa [skewedBlock] using hroot
    rw [this]
  have := h _ _ rfl rfl (by simp [skewedBlock]) (by simp [skewedBlock]) hid
  simp only [skewedBlock, List.map_cons, List.cons.injEq] at this
  have := hc this.1
  simp at this

/-- With collision-free hashing the root, and the id with it, commits to the receipts exactly
while there are at most two. -/
theorem blockId_commits_iff (hc : Function.Injective fun p => (c.sha256 p).rest) (n : ℕ) :
    (RootCommits c n ↔ n ≤ 2) ∧ (IdCommits c n ↔ n ≤ 2) := by
  have hsha := sha256_injective_of_rest hc
  refine ⟨⟨fun h => ?_, rootCommits_of_le hsha⟩, ⟨fun h => ?_, idCommits_of_le hc⟩⟩
  · by_contra hn
    exact not_rootCommits (by omega) h
  · by_contra hn
    exact not_idCommits hsha (by omega) h

/-- Hashing that numbers its preimages. -/
def numberingCrypto : Crypto where
  sha256 p := ⟨0, Encodable.encode p⟩
  recover sig _ := some sig
  canonical _ := true
  sign key _ := key

theorem blockId_commits_numbering :
    (Function.Injective fun p => (numberingCrypto.sha256 p).rest) ∧
      IdCommits numberingCrypto 2 ∧ ¬ IdCommits numberingCrypto 3 := by
  have hinj : Function.Injective fun p => (numberingCrypto.sha256 p).rest :=
    Encodable.encode_injective
  exact ⟨hinj, (blockId_commits_iff hinj 2).2.2 le_rfl,
    fun h => absurd ((blockId_commits_iff hinj 3).2.1 h) (by decide)⟩

/-- Three digests and the same three with the first replaced have one root. -/
theorem calMerkle_first_of_three_lost :
    calMerkle numberingCrypto [⟨0, 0⟩, ⟨0, 1⟩, ⟨0, 2⟩]
        = calMerkle numberingCrypto [⟨0, 3⟩, ⟨0, 1⟩, ⟨0, 2⟩]
      ∧ ([⟨0, 0⟩, ⟨0, 1⟩, ⟨0, 2⟩] : List Summary) ≠ [⟨0, 3⟩, ⟨0, 1⟩, ⟨0, 2⟩]
      ∧ ¬ IdCommits numberingCrypto 3 :=
  ⟨calMerkle_head _ _ _ (by decide), by decide,
    not_idCommits (sha256_injective_of_rest Encodable.encode_injective) le_rfl⟩

end XmaxChain
