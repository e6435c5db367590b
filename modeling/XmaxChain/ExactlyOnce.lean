import XmaxChain.TrxContext

/-!
# How often a message takes effect

The handlers of `transfer` and `lock` also name both accounts as recipients, and a recipient whose
account belongs to the system scope is notified by running the same handler again. So the tokens
move once for the account the message is sent to and once more for every such recipient, and
exactly once where there is none.
-/

namespace XmaxChain

section Recipients

variable {ctx : MessageContext} {a b : AccountName} {notified : List AccountName}

theorem mem_requireRecipient (hcode : ctx.msg.code ∈ notified) :
    b ∈ requireRecipient ctx a notified ↔ b ∈ notified ∨ b = a := by
  unfold requireRecipient
  split
  · rename_i h
    rcases h with rfl | h
    · exact ⟨.inl, fun h => h.elim id fun e => e ▸ hcode⟩
    · exact ⟨.inl, fun h' => h'.elim id fun e => e ▸ h⟩
  · simp

theorem requireRecipient_of_mem (h : a ∈ notified) : requireRecipient ctx a notified = notified := by
  simp [requireRecipient, h]

/-- The accounts to notify after a handler named two recipients. -/
def twoRecipients (ctx : MessageContext) (a b : AccountName) : List AccountName :=
  requireRecipient ctx b (requireRecipient ctx a [ctx.msg.code])

theorem mem_twoRecipients {c : AccountName} :
    c ∈ twoRecipients ctx a b ↔ c = ctx.msg.code ∨ c = a ∨ c = b := by
  have hcode : ctx.msg.code ∈ requireRecipient ctx a [ctx.msg.code] := by
    rw [mem_requireRecipient (by simp)]
    simp
  rw [twoRecipients, mem_requireRecipient hcode, mem_requireRecipient (by simp)]
  simp [or_assoc]

/-- Naming the two again adds no one. -/
theorem twoRecipients_again :
    requireRecipient ctx b (requireRecipient ctx a (twoRecipients ctx a b)) = twoRecipients ctx a b := by
  rw [requireRecipient_of_mem (a := a) (mem_twoRecipients.2 (by simp)),
    requireRecipient_of_mem (mem_twoRecipients.2 (by simp))]

/-- All but the first, the account of the message itself. -/
theorem mem_drop_twoRecipients {c : AccountName} :
    c ∈ (twoRecipients ctx a b).drop 1 ↔ (c = a ∨ c = b) ∧ c ≠ ctx.msg.code := by
  have hdrop : ∃ tail, twoRecipients ctx a b = ctx.msg.code :: tail ∧ ctx.msg.code ∉ tail := by
    unfold twoRecipients requireRecipient
    by_cases ha : a = ctx.msg.code <;> by_cases hb : b = ctx.msg.code <;> by_cases hab : b = a <;>
      simp_all [eq_comm]
  obtain ⟨tail, htail, hnot⟩ := hdrop
  have hmem : c ∈ twoRecipients ctx a b ↔ c = ctx.msg.code ∨ c = a ∨ c = b := mem_twoRecipients
  rw [htail] at hmem ⊢
  simp only [List.drop_one, List.tail_cons, List.mem_cons] at hmem ⊢
  constructor
  · intro hc
    have hne : c ≠ ctx.msg.code := fun e => hnot (e ▸ hc)
    exact ⟨(hmem.1 (.inr hc)).resolve_left hne, hne⟩
  · rintro ⟨hc, hne⟩
    exact (hmem.2 (.inr hc)).resolve_left hne

end Recipients

section Count

variable {env : Env} {ctx : MessageContext}

/-- Where every notification leaves the list of recipients alone, the loop runs over it once, and
what is counted grows by one at each recipient that `echo` picks. -/
theorem notifyLoop_count {E : ℕ → Ledger → Prop} {N : List AccountName} {echo : AccountName → Bool}
    (step : ∀ {account l l' notified' k}, E k l →
      RunOn env { ctx with code := account } l N true l' notified' →
        notified' = N ∧ E (k + (echo account).toNat) l')
    {fuel i k : ℕ} {s s' : ExecState} (h : notifyLoop env ctx fuel i s = .ok s')
    (hN : s.notified = N) (hE : E k s.db.toLedger) :
    E (k + (N.drop i).countP echo) s'.db.toLedger := by
  induction fuel generalizing i k s with
  | zero => cases h
  | succ fuel ih =>
    simp only [notifyLoop, hN] at h
    cases hi : N[i]? with
    | none =>
      simp only [hi] at h
      cases h
      rw [List.drop_eq_nil_of_le (List.getElem?_eq_none_iff.1 hi)]
      simpa using hE
    | some account =>
      simp only [hi, bind_eq_ok] at h
      obtain ⟨s₁, h₁, h⟩ := h
      have hrun := execOneMessage_runOn h₁
      rw [hN] at hrun
      obtain ⟨hN₁, hE₁⟩ := step hE hrun
      obtain ⟨hlt, rfl⟩ := List.getElem?_eq_some_iff.1 hi
      rw [List.drop_eq_getElem_cons hlt, List.countP_cons]
      have := ih h hN₁ hE₁
      convert this using 1
      cases echo N[i]
      · simp
      · simp only [Bool.toNat_true, if_true]
        omega

/-- What a handler counts that names the recipients `a` and `b`: one for the account of the message
and one for each recipient that runs the system handlers. -/
theorem execMessage_count {h : LedgerHandler} {E : ℕ → Ledger → Prop} {trx : SignedTransaction}
    {currentTime : ℕ} {msg : Message} {db : AuthDb} {usedGas : ℕ} {s' : ExecState}
    {a b : AccountName}
    (hh : ledgerHandler env .system msg.type = some h) (accounts : ∀ {k l}, E k l → l.accounts = db.accounts)
    (zero : E 0 db.toLedger) (same : ∀ {k l l'}, E k l → SameTables l l' → E k l')
    (succ : ∀ {account k l N r}, E k l → h ⟨trx, msg, account, currentTime⟩ ⟨l, N⟩ = .ok r →
      E (k + 1) r.ledger ∧
        r.notified = requireRecipient ⟨trx, msg, account, currentTime⟩ b
          (requireRecipient ⟨trx, msg, account, currentTime⟩ a N))
    (hcode : runsSystem db.toLedger msg.code = true)
    (hrun : execMessage env trx currentTime msg db usedGas = .ok s') :
    E (1 + ((twoRecipients ⟨trx, msg, msg.code, currentTime⟩ a b).drop 1).countP
      (runsSystem db.toLedger)) s'.db.toLedger := by
  obtain ⟨s₁, h₁, hloop⟩ := execMessage_run hrun
  obtain ⟨-, r, hr, hsame, hN⟩ := ((execOneMessage_runOn h₁).system hh rfl).resolve_right
    fun hno => by
      rw [show runsSystem db.toLedger msg.code = false from hno.1] at hcode
      cases hcode
  obtain ⟨hE, hnotified⟩ := succ zero hr
  refine notifyLoop_count ?_ hloop (hN.trans hnotified) (same hE hsame)
  intro account l l' N' k hE hrun
  have hecho : runsSystem l account = runsSystem db.toLedger account := by
    rw [runsSystem, accounts hE, runsSystem]
  rcases hrun.system hh rfl with ⟨hs, r, hr, hsame, rfl⟩ | ⟨hs, hsame, rfl⟩
  · obtain ⟨hE', hnotified⟩ := succ hE hr
    refine ⟨hnotified.trans twoRecipients_again, ?_⟩
    rw [← hecho, show runsSystem l account = true from hs]
    exact same hE' hsame
  · refine ⟨rfl, ?_⟩
    rw [← hecho, show runsSystem l account = false from hs]
    exact same hE hsame

end Count

section Transfer

variable {env : Env} {ctx : MessageContext} {l l' : Ledger} {N N' : List AccountName} {n : Bool}

/-- The tokens have moved `k` times. -/
structure Moved (t : Types.Transfer) (l : Ledger) (k : ℕ) (l' : Ledger) : Prop where
  accounts : l'.accounts = l.accounts
  enough : k * t.amount ≤ mainToken l t.source
  tokens : ∀ a, l'.tokens.find? a = (l.tokens.find? a).map fun v =>
    if a = t.source then v - k * t.amount else if a = t.dest then v + k * t.amount else v

theorem Moved.zero (t : Types.Transfer) (l : Ledger) : Moved t l 0 l := by
  refine ⟨rfl, by simp, fun a => ?_⟩
  cases l.tokens.find? a <;> simp

theorem Moved.same {t : Types.Transfer} {l₀ : Ledger} {k : ℕ} (h : Moved t l₀ k l)
    (same : SameTables l l') : Moved t l₀ k l' :=
  ⟨same.accounts.trans h.accounts, h.enough, fun a => by rw [same.tokens]; exact h.tokens a⟩

theorem Moved.succ {t : Types.Transfer} {l₀ : Ledger} {k : ℕ} {r : HandlerState}
    (hne : t.source ≠ t.dest) (ht : env.codec.transfer ctx.msg.data = some t) (h : Moved t l₀ k l)
    (hr : xmaxSystemTransfer env ctx ⟨l, N⟩ = .ok r) : Moved t l₀ (k + 1) r.ledger := by
  obtain ⟨t', source, ht', -, hsource, hle, -, rfl⟩ := xmaxSystemTransfer_ok hr
  obtain rfl : t' = t := by rw [ht] at ht'; cases ht'; rfl
  have hsource' := h.tokens t'.source
  rw [hsource] at hsource'
  obtain ⟨v, hv, hvs⟩ := Option.map_eq_some_iff.1 hsource'.symm
  rw [if_pos rfl] at hvs
  have hmain : mainToken l₀ t'.source = v := by simp [mainToken, hv]
  have hpos := h.enough
  refine ⟨h.accounts, ?_, fun a => ?_⟩
  · rw [Nat.succ_mul, hmain]
    omega
  · simp only [Table.find?_modify, h.tokens a]
    cases l₀.tokens.find? a with
    | none => rfl
    | some w =>
      simp only [Option.map_some, Option.some.injEq, Nat.succ_mul]
      by_cases hs : a = t'.source
      · subst hs
        simp [hne, Nat.sub_sub]
      · by_cases hd : a = t'.dest
        · subst hd
          simp [Ne.symm hne, Nat.add_assoc]
        · simp [hs, hd]

end Transfer

section Lock

variable {env : Env} {ctx : MessageContext} {l l' : Ledger} {N N' : List AccountName} {n : Bool}

/-- The amount has been locked `k` times. -/
structure Locked (t : Types.Lock) (l : Ledger) (k : ℕ) (l' : Ledger) : Prop where
  accounts : l'.accounts = l.accounts
  tokens : mainToken l' t.source + k * t.amount.toNat = mainToken l t.source
  resources : lockedToken l' t.dest = lockedToken l t.dest + k * t.amount.toNat
  votes : staked l' t.dest = staked l t.dest + k * t.amount.toNat

theorem Locked.zero (t : Types.Lock) (l : Ledger) : Locked t l 0 l := by
  constructor <;> simp

theorem Locked.same {t : Types.Lock} {l₀ : Ledger} {k : ℕ} (h : Locked t l₀ k l)
    (same : SameTables l l') : Locked t l₀ k l' where
  accounts := same.accounts.trans h.accounts
  tokens := by rw [mainToken, same.tokens]; exact h.tokens
  resources := by rw [lockedToken, same.resources]; exact h.resources
  votes := by rw [staked, voterOf_congr same.voters]; exact h.votes

theorem Locked.succ {t : Types.Lock} {l₀ : Ledger} {k : ℕ} {r : HandlerState}
    (ht : env.codec.lock ctx.msg.data = some t) (h : Locked t l₀ k l)
    (hr : xmaxSystemLock env ctx ⟨l, N⟩ = .ok r) : Locked t l₀ (k + 1) r.ledger := by
  obtain ⟨t', locker, ht', hpos, -, hlocker, hle, ⟨resource, hres⟩, hvotes, -⟩ := xmaxSystemLock_ok hr
  obtain rfl : t' = t := by rw [ht] at ht'; cases ht'; rfl
  obtain ⟨honly, hstaked, -⟩ := increaseVotes_ok hvotes
  have htokens : mainToken r.ledger t'.source = locker - t'.amount.toNat := by
    rw [mainToken, honly.rest]
    simp [hlocker]
  have hlocked : lockedToken r.ledger t'.dest = resource.lockedToken + t'.amount.toNat := by
    rw [lockedToken, honly.rest]
    simp [hres]
  have h₁ : mainToken l t'.source = locker := by simp [mainToken, hlocker]
  have h₂ : lockedToken l t'.dest = resource.lockedToken := by simp [lockedToken, hres]
  have h₃ := hstaked t'.dest
  rw [if_pos rfl] at h₃
  refine ⟨by rw [honly.rest]; exact h.accounts, ?_, ?_, ?_⟩
  · have := h.tokens
    rw [Nat.succ_mul, htokens]
    omega
  · have := h.resources
    rw [Nat.succ_mul, hlocked]
    omega
  · have := h.votes
    rw [Nat.succ_mul, h₃]
    change staked l t'.dest + _ = _
    omega

end Lock

/-! ## Exactly once -/

section Once

variable {env : Env} {trx : SignedTransaction} {currentTime : ℕ} {msg : Message} {db : AuthDb}
  {usedGas : ℕ} {s' : ExecState}

/-- The debit and the credit of a transfer, and no other change of a native balance. -/
structure TransferOnce (t : Types.Transfer) (l l' : Ledger) : Prop where
  debit : mainToken l' t.source + t.amount = mainToken l t.source
  credit : mainToken l' t.dest = mainToken l t.dest + t.amount
  others : ∀ a, a ≠ t.source → a ≠ t.dest → l'.tokens.find? a = l.tokens.find? a

structure LockOnce (t : Types.Lock) (l l' : Ledger) : Prop where
  debit : mainToken l' t.source + t.amount.toNat = mainToken l t.source
  credit : lockedToken l' t.dest = lockedToken l t.dest + t.amount.toNat
  votes : staked l' t.dest = staked l t.dest + t.amount.toNat

/-- No recipient but the account of the message runs the system handlers. -/
def NotEchoed (l : Ledger) (code a b : AccountName) : Prop :=
  ∀ r, r = a ∨ r = b → r ≠ code → runsSystem l r = false

theorem countP_echo_eq_zero {ctx : MessageContext} {l : Ledger} {a b : AccountName} :
    ((twoRecipients ctx a b).drop 1).countP (runsSystem l) = 0 ↔ NotEchoed l ctx.msg.code a b := by
  rw [List.countP_eq_zero]
  constructor
  · intro h r hr hcode
    simpa using h r (mem_drop_twoRecipients.2 ⟨hr, hcode⟩)
  · intro h r hr
    obtain ⟨hr, hcode⟩ := mem_drop_twoRecipients.1 hr
    simp [h r hr hcode]

theorem transfer_moved (h : execMessage env trx currentTime msg db usedGas = .ok s')
    (hcode : runsSystem db.toLedger msg.code = true) (htype : msg.type = .transfer)
    {t : Types.Transfer} (ht : env.codec.transfer msg.data = some t) (hne : t.source ≠ t.dest) :
    Moved t db.toLedger
      (1 + ((twoRecipients ⟨trx, msg, msg.code, currentTime⟩ t.dest t.source).drop 1).countP
        (runsSystem db.toLedger)) s'.db.toLedger := by
  refine execMessage_count (E := Moved t db.toLedger) (by rw [htype]; rfl)
    Moved.accounts (.zero t _) Moved.same (fun hE hr => ⟨hE.succ hne ht hr, ?_⟩)
    hcode h
  obtain ⟨t', _, ht', -, -, -, -, rfl⟩ := xmaxSystemTransfer_ok hr
  obtain rfl : t = t' := Option.some.inj (ht.symm.trans ht')
  rfl

theorem lock_locked (h : execMessage env trx currentTime msg db usedGas = .ok s')
    (hcode : runsSystem db.toLedger msg.code = true) (htype : msg.type = .lock)
    {t : Types.Lock} (ht : env.codec.lock msg.data = some t) :
    Locked t db.toLedger
      (1 + ((twoRecipients ⟨trx, msg, msg.code, currentTime⟩ t.dest t.source).drop 1).countP
        (runsSystem db.toLedger)) s'.db.toLedger := by
  refine execMessage_count (E := Locked t db.toLedger) (by rw [htype]; rfl)
    Locked.accounts (.zero t _) Locked.same (fun hE hr => ⟨hE.succ ht hr, ?_⟩)
    hcode h
  obtain ⟨t', _, ht', -, -, -, -, -, -, hN⟩ := xmaxSystemLock_ok hr
  obtain rfl : t = t' := Option.some.inj (ht.symm.trans ht')
  exact hN

/-- The amount of a message that went through is positive. -/
theorem transfer_amount_pos (h : execMessage env trx currentTime msg db usedGas = .ok s')
    (hcode : runsSystem db.toLedger msg.code = true) (htype : msg.type = .transfer)
    {t : Types.Transfer} (ht : env.codec.transfer msg.data = some t) :
    0 < t.amount ∧ ∃ v, db.tokens.find? t.source = some v ∧ ∃ w, db.tokens.find? t.dest = some w := by
  obtain ⟨s₁, h₁, -⟩ := execMessage_run h
  obtain ⟨-, r, hr, -, -⟩ := ((execOneMessage_runOn h₁).system rfl htype).resolve_right fun hno => by
      rw [show runsSystem db.toLedger msg.code = false from hno.1] at hcode
      cases hcode
  obtain ⟨t', v, ht', hpos, hv, -, hw, -⟩ := xmaxSystemTransfer_ok hr
  obtain rfl : t = t' := Option.some.inj (ht.symm.trans ht')
  exact ⟨hpos, v, hv, hw⟩

theorem lock_amount_pos (h : execMessage env trx currentTime msg db usedGas = .ok s')
    (hcode : runsSystem db.toLedger msg.code = true) (htype : msg.type = .lock)
    {t : Types.Lock} (ht : env.codec.lock msg.data = some t) : 0 < t.amount := by
  obtain ⟨s₁, h₁, -⟩ := execMessage_run h
  obtain ⟨-, r, hr, -, -⟩ := ((execOneMessage_runOn h₁).system rfl htype).resolve_right fun hno => by
      rw [show runsSystem db.toLedger msg.code = false from hno.1] at hcode
      cases hcode
  obtain ⟨t', _, ht', hpos, -⟩ := xmaxSystemLock_ok hr
  obtain rfl : t = t' := Option.some.inj (ht.symm.trans ht')
  exact hpos

theorem Moved.transferOnce_iff {t : Types.Transfer} {l l' : Ledger} {k v w : ℕ}
    (h : Moved t l (1 + k) l') (hpos : 0 < t.amount) (hne : t.source ≠ t.dest)
    (hv : l.tokens.find? t.source = some v) (hw : l.tokens.find? t.dest = some w) :
    TransferOnce t l l' ↔ k = 0 := by
  have hsource : mainToken l' t.source = v - (1 + k) * t.amount := by
    simp [mainToken, h.tokens, hv]
  have henough : (1 + k) * t.amount ≤ v := by simpa [mainToken, hv] using h.enough
  constructor
  · intro honce
    have hd := honce.debit
    rw [hsource, show mainToken l t.source = v by simp [mainToken, hv]] at hd
    have hmul : (1 + k) * t.amount = t.amount := by omega
    have : k * t.amount = 0 := by rw [Nat.add_mul] at hmul; omega
    exact (Nat.mul_eq_zero.1 this).resolve_right hpos.ne'
  · rintro rfl
    refine ⟨?_, ?_, fun a hs hd => ?_⟩
    · rw [hsource, show mainToken l t.source = v by simp [mainToken, hv]]
      omega
    · simp [mainToken, h.tokens, hw, Ne.symm hne]
    · rw [h.tokens a]
      cases l.tokens.find? a <;> simp [hs, hd]

theorem Locked.lockOnce_iff {t : Types.Lock} {l l' : Ledger} {k : ℕ}
    (h : Locked t l (1 + k) l') (hpos : 0 < t.amount) : LockOnce t l l' ↔ k = 0 := by
  have hnat : 0 < t.amount.toNat := by omega
  constructor
  · intro honce
    have hmul : (1 + k) * t.amount.toNat = t.amount.toNat := by
      have := h.resources
      have := honce.credit
      omega
    have : k * t.amount.toNat = 0 := by rw [Nat.add_mul] at hmul; omega
    exact (Nat.mul_eq_zero.1 this).resolve_right hnat.ne'
  · rintro rfl
    exact ⟨by simpa using h.tokens, by simpa using h.resources, by simpa using h.votes⟩

/-- A transfer or lock that goes through takes effect exactly once if and only if neither recipient,
other than the account it is sent to, is a personal or system account. -/
theorem native_effect_once_iff (h : execMessage env trx currentTime msg db usedGas = .ok s')
    (hcode : runsSystem db.toLedger msg.code = true) :
    (∀ t, msg.type = .transfer → env.codec.transfer msg.data = some t → t.source ≠ t.dest →
      (TransferOnce t db.toLedger s'.db.toLedger ↔
        NotEchoed db.toLedger msg.code t.dest t.source)) ∧
    (∀ t, msg.type = .lock → env.codec.lock msg.data = some t →
      (LockOnce t db.toLedger s'.db.toLedger ↔
        NotEchoed db.toLedger msg.code t.dest t.source)) := by
  constructor
  · intro t htype ht hne
    obtain ⟨hpos, v, hv, w, hw⟩ := transfer_amount_pos h hcode htype ht
    rw [(transfer_moved h hcode htype ht hne).transferOnce_iff hpos hne hv hw, countP_echo_eq_zero]
  · intro t htype ht
    rw [(lock_locked h hcode htype ht).lockOnce_iff (lock_amount_pos h hcode htype ht),
      countP_echo_eq_zero]

end Once

/-- The system account and two personal accounts with tokens. -/
def twoPersonal : AuthDb where
  accounts := .ofList [(xmaxContractName, ⟨.system, 0, none⟩), (1, ⟨.personal, 0, none⟩),
    (2, ⟨.personal, 0, none⟩)]
  tokens := .ofList [(xmaxContractName, 1000), (1, 100), (2, 0)]

/-- Account 1 sends five tokens to account 2, by a message to that account. -/
def sendFiveThere : Message := ⟨2, .transfer, [⟨1, xmaxActiveName⟩], [1, 2, 5]⟩

/-- The message runs again on account 1, which is personal too. -/
theorem native_effect_once_sendFiveThere :
    ∃ s', execMessage fieldEnv { scope := [1, 2], messages := [sendFiveThere] } 0 sendFiveThere
        twoPersonal 0 = .ok s' ∧
      ¬ NotEchoed twoPersonal.toLedger 2 2 1 ∧
      ¬ TransferOnce ⟨1, 2, 5⟩ twoPersonal.toLedger s'.db.toLedger := by
  obtain ⟨s', h, hcode⟩ : ∃ s', execMessage fieldEnv
      { scope := [1, 2], messages := [sendFiveThere] } 0 sendFiveThere twoPersonal 0 = .ok s' ∧
      runsSystem twoPersonal.toLedger sendFiveThere.code = true :=
    exists_ok_of_eval (by decide)
  have hechoed : ¬ NotEchoed twoPersonal.toLedger 2 2 1 := fun hnot =>
    absurd (hnot 1 (.inr rfl) (by decide)) (by decide)
  exact ⟨s', h, hechoed, fun honce => hechoed
    (((native_effect_once_iff h hcode).1 ⟨1, 2, 5⟩ rfl rfl (by decide)).1 honce)⟩

/-- Account 1 sends five tokens to account 2. -/
def sendFive : Message := ⟨xmaxContractName, .transfer, [⟨1, xmaxActiveName⟩], [1, 2, 5]⟩

def sendFiveTrx : SignedTransaction := { scope := [1, 2], messages := [sendFive] }

/-- Both accounts are personal, so fifteen tokens move. -/
theorem transfer_moves_three_times :
    ∃ s', execMessage fieldEnv sendFiveTrx 0 sendFive twoPersonal 0 = .ok s' ∧
      ¬ TransferOnce ⟨1, 2, 5⟩ twoPersonal.toLedger s'.db.toLedger := by
  have hrun : ∃ s', execMessage fieldEnv sendFiveTrx 0 sendFive twoPersonal 0 = .ok s' ∧
      mainToken s'.db.toLedger 1 = 85 ∧ mainToken s'.db.toLedger 2 = 15 :=
    exists_ok_of_eval (by decide)
  obtain ⟨s', h, h₁, -⟩ := hrun
  refine ⟨s', h, fun honce => ?_⟩
  have hd := honce.debit
  rw [show mainToken twoPersonal.toLedger 1 = 100 by decide] at hd
  change mainToken s'.db.toLedger 1 + 5 = 100 at hd
  omega

end XmaxChain
