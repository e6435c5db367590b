import XmaxChain.PendingQueue
import Mathlib.Data.Multiset.AddSub

/-!
# What is selected for a block

The loop takes requests off the top of the queue into an array with 500 places, as long as the messages of
all that it has taken are no more than 500. Each request has a message, so it never takes more requests than
there are places. But it ends at the first request that does not fit, also at one that never will.
-/

namespace XmaxChain

/-- The array with how many of its places are filled, the messages of the requests there, and the queue. -/
structure Selecting where
  pool : List (Option SignedTransaction)
  count : ℕ
  messageCount : ℕ
  pending : Multiset SignedTransaction

/-- The top of a priority queue has as much gas as any. Of several with that much it may be each. -/
def IsTop (queue : Multiset SignedTransaction) (top : SignedTransaction) : Prop :=
  top ∈ queue ∧ ∀ r ∈ queue, r.gas ≤ top.gas

namespace Selecting

def start (pool : List (Option SignedTransaction)) (queue : Multiset SignedTransaction) : Selecting :=
  ⟨pool, 0, 0, queue⟩

def Fits (s : Selecting) (top : SignedTransaction) : Prop :=
  s.messageCount + top.messages.length ≤ blockMaxMessageCount

/-- A turn of the loop. -/
def take (s : Selecting) (top : SignedTransaction) : Selecting where
  pool := s.pool.set s.count (some top)
  count := s.count + 1
  messageCount := u32 (s.messageCount + top.messages.length)
  pending := s.pending.erase top

inductive Step (s : Selecting) : Selecting → Prop
  | take {top : SignedTransaction} (top_of : IsTop s.pending top) (fits : s.Fits top)
      (within : s.count < s.pool.length) : Step s (s.take top)

/-- The loop has come to its end. -/
inductive Ended (s : Selecting) : Prop
  | empty (pending : s.pending = 0) : Ended s
  | full {top : SignedTransaction} (top_of : IsTop s.pending top) (overfull : ¬ s.Fits top) : Ended s

/-- The next write is outside of the array. -/
def WritesOutside (s : Selecting) : Prop :=
  ∃ top, IsTop s.pending top ∧ s.Fits top ∧ s.pool.length ≤ s.count

def selected (s : Selecting) : List SignedTransaction := (s.pool.take s.count).filterMap id

/-- What is selected is in the order of gas and within the budget, it is the part of the queue with the
most gas, and the rest stays. -/
structure Fair (queue : Multiset SignedTransaction) (s : Selecting) : Prop where
  length : s.selected.length = s.count
  sorted : s.selected.Pairwise fun a b => b.gas ≤ a.gas
  messages : (s.selected.map (·.messages.length)).sum ≤ blockMaxMessageCount
  split : (s.selected : Multiset SignedTransaction) + s.pending = queue
  above : ∀ r ∈ s.pending, ∀ t ∈ s.selected, r.gas ≤ t.gas

/-- The loop ends, writes into the array only, and selects fairly, and something if there is anything. -/
structure Well (pool : List (Option SignedTransaction)) (queue : Multiset SignedTransaction) : Prop where
  ends : Acc (fun s' s => Step s s') (start pool queue)
  inside : ∀ s, Relation.ReflTransGen Step (start pool queue) s → ¬ s.WritesOutside
  goesOn : ∀ s, Relation.ReflTransGen Step (start pool queue) s → s.Ended ∨ ∃ s', Step s s'
  fair : ∀ s, Relation.ReflTransGen Step (start pool queue) s → s.Ended → s.Fair queue
  progress : ∀ s, Relation.ReflTransGen Step (start pool queue) s → s.Ended → queue ≠ 0 → 0 < s.count

/-! ## The loop -/

section Loop

variable {s s' : Selecting} {queue : Multiset SignedTransaction}
  {pool : List (Option SignedTransaction)}

/-- What holds before every turn. -/
structure Inv (queue : Multiset SignedTransaction) (s : Selecting) : Prop extends Fair queue s where
  places : s.pool.length = blockMaxMessageCount
  filled : s.pool.take s.count = s.selected.map some
  counted : s.messageCount = (s.selected.map (·.messages.length)).sum
  nonempty : ∀ r ∈ queue, 0 < r.messages.length

theorem Inv.start (places : pool.length = blockMaxMessageCount)
    (nonempty : ∀ r ∈ queue, 0 < r.messages.length) : Inv queue (start pool queue) where
  length := rfl
  sorted := List.Pairwise.nil
  messages := Nat.zero_le _
  split := by simp [Selecting.start, selected]
  above := by simp [Selecting.start, selected]
  places := places
  filled := rfl
  counted := rfl
  nonempty := nonempty

theorem le_sum_messages : ∀ {trxs : List SignedTransaction},
    (∀ r ∈ trxs, 0 < r.messages.length) → trxs.length ≤ (trxs.map (·.messages.length)).sum
  | [], _ => Nat.le_refl _
  | r :: trxs, h => by
    have := h r List.mem_cons_self
    have := le_sum_messages fun r hr => h r (List.mem_cons_of_mem _ hr)
    simp only [List.length_cons, List.map_cons, List.sum_cons]
    omega

/-- There are no more requests selected than messages. -/
theorem Inv.count_le (h : Inv queue s) : s.count ≤ s.messageCount := by
  rw [← h.length, h.counted]
  refine le_sum_messages fun r hr => h.nonempty r ?_
  rw [← h.split]
  exact Multiset.mem_add.2 (.inl hr)

/-- So there is a place for each request that fits. -/
theorem Inv.within (h : Inv queue s) {top : SignedTransaction} (htop : top ∈ s.pending)
    (fits : s.Fits top) : s.count < s.pool.length := by
  have hpos : 0 < top.messages.length := by
    refine h.nonempty top ?_
    rw [← h.split]
    exact Multiset.mem_add.2 (.inr htop)
  have := h.count_le
  rw [h.places]
  unfold Fits at fits
  omega

theorem Inv.pool_take (h : Inv queue s) (top : SignedTransaction) (hwithin : s.count < s.pool.length) :
    (s.take top).pool.take (s.take top).count = (s.selected ++ [top]).map some := by
  simp only [Selecting.take]
  rw [List.take_succ_eq_append_getElem (by simpa using hwithin), List.take_set_of_le le_rfl, h.filled]
  simp

theorem Inv.selected_take (h : Inv queue s) (top : SignedTransaction)
    (hwithin : s.count < s.pool.length) : (s.take top).selected = s.selected ++ [top] := by
  rw [selected, h.pool_take top hwithin]
  simp

theorem Inv.step (h : Inv queue s) (hs : Step s s') : Inv queue s' := by
  obtain ⟨htop, hfits, hwithin⟩ := hs
  rename_i top
  have hselected := h.selected_take top hwithin
  have hsum : ((s.selected ++ [top]).map (·.messages.length)).sum
      = s.messageCount + top.messages.length := by
    simp [h.counted]
  exact
    { length := by
        rw [hselected, List.length_append, h.length]
        rfl
      sorted := by
        rw [hselected, List.pairwise_append]
        refine ⟨h.sorted, List.pairwise_singleton _ _, fun a ha b hb => ?_⟩
        rw [List.mem_singleton.1 hb]
        exact h.above top htop.1 a ha
      messages := by
        rw [hselected, hsum]
        exact hfits
      split := by
        rw [hselected, ← h.split, Selecting.take, ← Multiset.coe_add, add_assoc, Multiset.coe_singleton,
          Multiset.singleton_add, Multiset.cons_erase htop.1]
      above := fun r hr t ht => by
        have hr' : r ∈ s.pending := Multiset.mem_of_mem_erase hr
        rw [hselected, List.mem_append, List.mem_singleton] at ht
        rcases ht with ht | rfl
        · exact h.above r hr' t ht
        · exact htop.2 r hr'
      places := by simp [Selecting.take, h.places]
      filled := by
        rw [hselected]
        exact h.pool_take top hwithin
      counted := by
        rw [hselected, hsum, Selecting.take]
        exact u32_of_lt (lt_of_le_of_lt hfits (by decide))
      nonempty := h.nonempty }

theorem Inv.reach (h : Inv queue s) (hs : Relation.ReflTransGen Step s s') : Inv queue s' := by
  induction hs with
  | refl => exact h
  | tail _ hstep ih => exact ih.step hstep

/-- A queue that is not empty has a top. -/
theorem exists_isTop (hne : queue ≠ 0) : ∃ top, IsTop queue top := by
  obtain ⟨top, htop⟩ := Multiset.exists_max_image (fun r : SignedTransaction => r.gas) hne
  exact ⟨top, htop⟩

theorem Inv.goesOn (h : Inv queue s) : s.Ended ∨ ∃ s', Step s s' := by
  by_cases hempty : s.pending = 0
  · exact .inl (.empty hempty)
  obtain ⟨top, htop⟩ := exists_isTop hempty
  by_cases hfits : s.Fits top
  · exact .inr ⟨_, .take htop hfits (h.within htop.1 hfits)⟩
  · exact .inl (.full htop hfits)

/-- Each turn takes a request off the queue. -/
theorem acc_step (s : Selecting) : Acc (fun s' s => Step s s') s := by
  refine Acc.intro s fun s' hs => ?_
  have hlt : s'.pending.card < s.pending.card := by
    obtain ⟨htop, -, -⟩ := hs
    exact Multiset.card_lt_card (Multiset.erase_lt.2 htop.1)
  exact acc_step s'
termination_by s.pending.card

end Loop

/-- The loop does all that it should, except that it selects nothing if a request on top has more messages
than the budget alone. -/
theorem select_transactions_well_iff (cfg : ChainConfig) (pool : List (Option SignedTransaction))
    (places : pool.length = blockMaxMessageCount) (queue : Multiset SignedTransaction)
    (admitted : ∀ r ∈ queue, ∃ headTime db, checkTrx cfg headTime db r = true) :
    Well pool queue ↔ ∀ top, IsTop queue top → top.messages.length ≤ blockMaxMessageCount := by
  have hinv : Inv queue (start pool queue) := by
    refine .start places fun r hr => ?_
    obtain ⟨headTime, db, hcheck⟩ := admitted r hr
    exact (checkTrx_eq_true.1 hcheck).1
  constructor
  · intro hwell top htop
    by_contra hover
    have hended : (start pool queue).Ended := .full htop (by simpa [Fits, start] using hover)
    have hne : queue ≠ 0 := by
      rintro rfl
      exact Multiset.notMem_zero _ htop.1
    exact absurd (hwell.progress _ .refl hended hne) (Nat.lt_irrefl 0)
  · refine fun hfits => ⟨acc_step _, fun s hs => ?_, fun s hs => (hinv.reach hs).goesOn,
      fun s hs _ => (hinv.reach hs).toFair, fun s hs hended hne => ?_⟩
    · rintro ⟨top, htop, hfit, hout⟩
      exact absurd ((hinv.reach hs).within htop.1 hfit) (Nat.not_lt.2 hout)
    · have h := hinv.reach hs
      refine Nat.pos_of_ne_zero fun hzero => ?_
      -- nothing selected: the queue is as it was, and its top fits
      have hnil : s.selected = [] := List.eq_nil_of_length_eq_zero (h.length.trans hzero)
      have hpending : s.pending = queue := by
        rw [← h.split, hnil]
        simp
      have hcount : s.messageCount = 0 := by rw [h.counted, hnil]; rfl
      rcases hended with hempty | ⟨htop, hover⟩
      · exact hne (hpending ▸ hempty)
      · refine hover ?_
        rw [Fits, hcount, Nat.zero_add]
        exact hfits _ (hpending ▸ htop)

def emptyPool : List (Option SignedTransaction) := List.replicate blockMaxMessageCount none

theorem select_transactions_well_five : Well emptyPool {signedFive} := by
  refine (select_transactions_well_iff stampConfig emptyPool List.length_replicate _
    fun r hr => ?_).2 fun top htop => ?_
  · rw [Multiset.mem_singleton.1 hr]
    exact ⟨0, signingPair, by decide⟩
  · rw [Multiset.mem_singleton.1 htop.1]
    decide

/-- A transaction that repeats its message 501 times. -/
def overlongFive : SignedTransaction :=
  { signedFive with messages := List.replicate 501 (signedFive.messages.headD ⟨0, .other 0, [], []⟩) }

/-- It is admitted, and then nothing is ever selected while it is on top. -/
theorem overlong_request_blocks :
    checkTrx stampConfig 0 signingPair overlongFive = true ∧
      (start emptyPool {overlongFive}).Ended ∧ ¬ Well emptyPool {overlongFive} := by
  have hlength : overlongFive.messages.length = 501 := List.length_replicate
  have htop : IsTop {overlongFive} overlongFive := by
    refine ⟨Multiset.mem_singleton_self _, fun r hr => ?_⟩
    rw [Multiset.mem_singleton.1 hr]
  have hended : (start emptyPool {overlongFive}).Ended := by
    refine .full htop ?_
    rw [Fits, hlength, not_le]
    exact Nat.lt_add_left 0 (Nat.lt_succ_self 500)
  exact ⟨by decide +kernel, hended, fun hwell => absurd
    (hwell.progress _ .refl hended (Multiset.singleton_ne_zero _)) (Nat.lt_irrefl 0)⟩

/-! ## The queue as a list -/

/-- On a queue that is listed in the order of gas the loop may do what is done to the list. -/
theorem Inv.selectTransactionsByGas {all : Multiset SignedTransaction} :
    ∀ {queue : List SignedTransaction} {s : Selecting}, Inv all s → s.pending = queue →
      queue.Pairwise (fun a b => b.gas ≤ a.gas) →
      ∃ s', Relation.ReflTransGen Step s s' ∧ s'.Ended ∧
        s'.selected = s.selected ++ (XmaxChain.selectTransactionsByGas s.messageCount queue).1 ∧
        s'.pending = (XmaxChain.selectTransactionsByGas s.messageCount queue).2
  | [], s, _, hqueue, _ => ⟨s, .refl, .empty hqueue, by simp [XmaxChain.selectTransactionsByGas], hqueue⟩
  | top :: rest, s, h, hqueue, hsorted => by
    obtain ⟨hrest, hsorted⟩ := List.pairwise_cons.1 hsorted
    have htop : IsTop s.pending top := by
      rw [hqueue]
      refine ⟨Multiset.mem_coe.2 List.mem_cons_self, fun r hr => ?_⟩
      rcases List.mem_cons.1 (Multiset.mem_coe.1 hr) with rfl | hr
      · exact Nat.le_refl _
      · exact hrest r hr
    rw [XmaxChain.selectTransactionsByGas]
    split_ifs with hover
    · exact ⟨s, .refl, .full htop (not_le.2 hover), by simp, hqueue⟩
    · have hfits : s.Fits top := not_lt.1 hover
      have hstep : Step s (s.take top) := .take htop hfits (h.within htop.1 hfits)
      have hnext := h.step hstep
      have hcount : (s.take top).messageCount = s.messageCount + top.messages.length :=
        u32_of_lt (lt_of_le_of_lt hfits (by decide))
      have hselected := h.selected_take top (h.within htop.1 hfits)
      have hleft : (s.take top).pending = rest := by
        rw [Selecting.take, hqueue, Multiset.coe_erase, List.erase_cons_head]
      obtain ⟨s', hreach, hended, hsel, hpend⟩ := hnext.selectTransactionsByGas hleft hsorted
      rw [hcount] at hsel hpend
      exact ⟨s', .head hstep hreach, hended, by rw [hsel, hselected, List.append_assoc]; rfl, hpend⟩

end Selecting

end XmaxChain
