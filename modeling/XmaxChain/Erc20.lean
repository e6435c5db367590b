import XmaxChain.Consent

/-!
# ERC20 tokens

The supply of a token is kept apart from the balances. Additions and subtractions are checked to go
up and down, which on signed 64-bit numbers is a check of overflow only where nothing is negative:
so the supply is what the accounts hold, as long as no token is issued with a negative balance.
-/

namespace XmaxChain

def Int64 (n : ℤ) : Prop := -2 ^ 63 ≤ n ∧ n < 2 ^ 63

/-- What the accounts hold of a token. -/
def erc20Sum (rows : Table (AssetSymbol × AccountName) ℤ) (t : AssetSymbol) : ℤ :=
  rows.sumRows fun k b => if k.1 = t then b else 0

/-- The accounts hold the supply, none less than nothing, and only of tokens that were issued. -/
structure Erc20Ok (l : Ledger) : Prop where
  supply : ∀ {t token}, l.erc20s.find? t = some token → erc20Sum l.erc20Accounts t = token.totalSupply
  fits : ∀ {t token}, l.erc20s.find? t = some token →
    0 ≤ token.totalSupply ∧ token.totalSupply < 2 ^ 63
  rows : ∀ {k b}, l.erc20Accounts.find? k = some b → 0 ≤ b ∧ b < 2 ^ 63
  issued : ∀ {k b}, l.erc20Accounts.find? k = some b → (l.erc20s.find? k.1).isSome

section SafeMath

variable {a b c : ℤ}

theorem i64_eq {n : ℤ} (hlow : -2 ^ 64 ≤ n) (hhigh : n < 2 ^ 64) :
    i64 n = if n < -2 ^ 63 then n + 2 ^ 64 else if n < 2 ^ 63 then n else n - 2 ^ 64 := by
  rw [i64, Int.bmod_def]
  split_ifs <;> omega

/-- The sum of two 64-bit numbers goes up where it does not overflow, or where it does downwards. -/
theorem safeAdd_int64 (ha : Int64 a) (hb : Int64 b) :
    safeAdd a b = .ok c ↔ (0 ≤ b ∧ a + b < 2 ^ 63 ∧ c = a + b) ∨
      (b < 0 ∧ a + b < -2 ^ 63 ∧ c = a + b + 2 ^ 64) := by
  obtain ⟨ha, ha'⟩ := ha
  obtain ⟨hb, hb'⟩ := hb
  rw [safeAdd_eq_ok, i64_eq (by omega) (by omega)]
  split_ifs <;> omega

theorem safeSub_int64 (ha : Int64 a) (hb : Int64 b) :
    safeSub a b = .ok c ↔ b ≤ a ∧ c = if a - b < 2 ^ 63 then a - b else a - b - 2 ^ 64 := by
  obtain ⟨ha, ha'⟩ := ha
  obtain ⟨hb, hb'⟩ := hb
  rw [safeSub_eq_ok, i64_eq (by omega) (by omega)]
  split_ifs <;> omega

end SafeMath

/-! ## One transfer -/

section Transferfrom

variable {env : Env} {ctx : MessageContext} {s r : HandlerState} {l : Ledger}
  {t : Types.TransferFromErc20}

/-- A transfer that is signed by the sender, in scope and of a token that is not revoked. -/
structure TransferReady (env : Env) (ctx : MessageContext) (l : Ledger)
    (t : Types.TransferFromErc20) : Prop where
  data : env.codec.transferfromerc20 ctx.msg.data = some t
  auth : t.source ∈ ctx.authorized
  scopeSource : t.source ∈ ctx.trx.scope
  scopeDest : t.dest ∈ ctx.trx.scope
  token : ∃ token, l.erc20s.find? t.tokenName = some token ∧ token.revoked = 0

theorem openErc20Account_rows (l : Ledger) (row : AssetSymbol × AccountName) :
    ∃ rows, openErc20Account l row = .ok rows ∧ ∀ k, rows.find? k
      = if k = row then some ((l.erc20Accounts.find? row).getD 0) else l.erc20Accounts.find? k := by
  unfold openErc20Account
  split
  · rename_i hnone
    obtain ⟨rows, hrows⟩ := Table.exists_create? 0 hnone
    refine ⟨rows, dbCreate_eq_ok.2 hrows, fun k => ?_⟩
    rw [(Table.create?_eq_some hrows).2, hnone]
    rfl
  · rename_i b hb
    refine ⟨l.erc20Accounts, rfl, fun k => ?_⟩
    split_ifs with hk
    · rw [hk, hb]
      rfl
    · rfl

/-- What the receiver has when the tokens come to it. -/
def receiverBalance (l : Ledger) (t : Types.TransferFromErc20) (b' : ℤ) : ℤ :=
  if t.dest = t.source then b' else erc20Balance l t.tokenName t.dest

/-- The steps of a transfer from a sender with a row. -/
structure TransferSteps (l : Ledger) (t : Types.TransferFromErc20) (b b' d' : ℤ) : Prop where
  row : l.erc20Accounts.find? (t.tokenName, t.source) = some b
  enough : t.value < b
  taken : safeSub b t.value = .ok b'
  given : safeAdd (receiverBalance l t b') t.value = .ok d'

/-- The receiver's row, where the sender's already has what is left to it. -/
theorem receiver_row {rows : Table (AssetSymbol × AccountName) ℤ} {b : ℤ} (b' : ℤ)
    (hrow : l.erc20Accounts.find? (t.tokenName, t.source) = some b)
    (hrows : ∀ k, rows.find? k = if k = (t.tokenName, t.dest) then
      some ((l.erc20Accounts.find? (t.tokenName, t.dest)).getD 0) else l.erc20Accounts.find? k) :
    rows.find? (t.tokenName, t.source) = some b ∧
      (rows.modify (t.tokenName, t.source) fun _ => b').find? (t.tokenName, t.dest)
        = some (receiverBalance l t b') := by
  have hsource : rows.find? (t.tokenName, t.source) = some b := by
    rw [hrows]
    split_ifs with heq
    · rw [← heq, hrow]
      rfl
    · exact hrow
  refine ⟨hsource, ?_⟩
  rw [Table.find?_modify, hrows, if_pos rfl, receiverBalance]
  by_cases hself : t.dest = t.source
  · simp [hself]
  · simp [hself, erc20Balance]

theorem TransferReady.steps (h : TransferReady env ctx s.ledger t)
    (hok : xmaxErc20Transferfrom env ctx s = .ok r) :
    ∃ b b' d', TransferSteps s.ledger t b b' d' ∧ ∀ tok a, erc20Balance r.ledger tok a
      = if (tok, a) = (t.tokenName, t.dest) then d'
        else if (tok, a) = (t.tokenName, t.source) then b' else erc20Balance s.ledger tok a := by
  obtain ⟨t', rows, b, b', d, d', ht', -, -, hsome, hopen, hb, hlt, hsub, hd, hadd, rfl⟩ :=
    xmaxErc20Transferfrom_ok hok
  obtain rfl : t = t' := Option.some_inj.1 (h.data.symm.trans ht')
  obtain ⟨rows', hopen', hrows⟩ := openErc20Account_rows s.ledger (t.tokenName, t.dest)
  obtain rfl : rows = rows' := Except.ok.inj (hopen.symm.trans hopen')
  obtain ⟨b₀, hb₀⟩ := Option.isSome_iff_exists.1 hsome
  obtain ⟨hsource, hdest⟩ := receiver_row b' hb₀ hrows
  obtain rfl : b = b₀ := Option.some_inj.1 (hb.symm.trans hsource)
  obtain rfl : d = _ := Option.some_inj.1 (hd.symm.trans hdest)
  refine ⟨b, b', d', ⟨hb₀, hlt, hsub, hadd⟩, fun tok a => ?_⟩
  simp only [erc20Balance, Table.find?_modify, hrows]
  by_cases hd' : (tok, a) = (t.tokenName, t.dest)
  · simp [hd']
  · simp only [if_neg hd']
    by_cases hs' : (tok, a) = (t.tokenName, t.source)
    · simp [hs', hb₀]
    · simp [hs']

theorem TransferReady.succeeds (h : TransferReady env ctx s.ledger t) {b b' d' : ℤ}
    (hsteps : TransferSteps s.ledger t b b' d') : ∃ r, xmaxErc20Transferfrom env ctx s = .ok r := by
  obtain ⟨token, htoken, hzero⟩ := h.token
  obtain ⟨rows, hopen, hrows⟩ := openErc20Account_rows s.ledger (t.tokenName, t.dest)
  obtain ⟨hsource, hdest⟩ := receiver_row b' hsteps.row hrows
  have hresult : xmaxErc20Transferfrom env ctx s = .ok
      ⟨{ s.ledger with
          erc20Accounts :=
            (rows.modify (t.tokenName, t.source) fun _ => b').modify (t.tokenName, t.dest) fun _ => d' },
        requireRecipient ctx t.dest (requireRecipient ctx t.source s.notified)⟩ := by
    simp only [xmaxErc20Transferfrom, validateTokenNotRevoke, bind_eq_ok, unpackAs_eq_ok,
      requireAuthorization_eq_ok, requireScope_eq_ok, dbGet_eq_ok, fcAssert_eq_ok, decide_eq_true_eq]
    exact ⟨t, h.data, (), h.auth, (), h.scopeSource, (), h.scopeDest, token, htoken, (), hzero, (),
      by simp [hsteps.row], rows, hopen, b, hsource, (), hsteps.enough, b', hsteps.taken, _, hdest, d',
      hsteps.given, rfl⟩
  exact ⟨_, hresult⟩

/-- What a transfer should do: go through exactly where the sender has the positive value sent and
the receiver can hold it, and then move that value. -/
def TransferSound (env : Env) (ctx : MessageContext) (s : HandlerState)
    (t : Types.TransferFromErc20) : Prop :=
  ((∃ r, xmaxErc20Transferfrom env ctx s = .ok r) ↔
    0 < t.value ∧ t.value ≤ erc20Balance s.ledger t.tokenName t.source ∧
      (t.dest ≠ t.source → erc20Balance s.ledger t.tokenName t.dest + t.value < 2 ^ 63)) ∧
  ∀ r, xmaxErc20Transferfrom env ctx s = .ok r → ∀ tok a, erc20Balance r.ledger tok a
    = erc20Balance s.ledger tok a
      - (if (tok, a) = (t.tokenName, t.source) then t.value else 0)
      + if (tok, a) = (t.tokenName, t.dest) then t.value else 0

/-- The value is not nothing and not all that the sender has, where it has something and the
receiver can hold it, and no subtraction or addition of a negative value leaves the 64 bits. -/
def TransferCondition (l : Ledger) (t : Types.TransferFromErc20) : Prop :=
  ¬ (t.value = 0 ∧ 0 < erc20Balance l t.tokenName t.source) ∧
  ¬ (t.value = erc20Balance l t.tokenName t.source ∧ 0 < t.value ∧
    (t.dest ≠ t.source → erc20Balance l t.tokenName t.dest + t.value < 2 ^ 63)) ∧
  ¬ ((l.erc20Accounts.find? (t.tokenName, t.source)).isSome ∧ t.value < 0 ∧
    t.value < erc20Balance l t.tokenName t.source ∧
    if t.dest = t.source then 2 ^ 63 ≤ erc20Balance l t.tokenName t.source - t.value
    else erc20Balance l t.tokenName t.dest + t.value < -2 ^ 63)

theorem erc20Balance_int64 (hrows : ∀ {k b}, l.erc20Accounts.find? k = some b → Int64 b)
    (tok : AssetSymbol) (a : AccountName) : Int64 (erc20Balance l tok a) := by
  unfold erc20Balance
  cases hrow : l.erc20Accounts.find? (tok, a) with
  | none => exact ⟨by decide, by decide⟩
  | some b => exact hrows hrow

variable (hready : TransferReady env ctx s.ledger t) (hval : Int64 t.value)
  (hrows : ∀ {k b}, s.ledger.erc20Accounts.find? k = some b → Int64 b)
include hready hval hrows

/-- A transfer by a sender with a row goes through where its two checks pass. -/
theorem transferfrom_succeeds_iff {b : ℤ}
    (hrow : s.ledger.erc20Accounts.find? (t.tokenName, t.source) = some b) :
    (∃ r, xmaxErc20Transferfrom env ctx s = .ok r) ↔ t.value < b ∧
      if t.dest = t.source then 0 ≤ t.value ∨ 2 ^ 63 ≤ b - t.value
      else 0 ≤ t.value ∧ erc20Balance s.ledger t.tokenName t.dest + t.value < 2 ^ 63 ∨
        t.value < 0 ∧ erc20Balance s.ledger t.tokenName t.dest + t.value < -2 ^ 63 := by
  have hb := hrows hrow
  have hd := erc20Balance_int64 hrows t.tokenName t.dest
  constructor
  · rintro ⟨r, hr⟩
    obtain ⟨b₀, b', d', hsteps, -⟩ := hready.steps hr
    obtain rfl : b = b₀ := Option.some_inj.1 (hrow.symm.trans hsteps.row)
    refine ⟨hsteps.enough, ?_⟩
    have htaken := (safeSub_int64 hb hval).1 hsteps.taken
    have hgiven := hsteps.given
    unfold receiverBalance at hgiven
    split_ifs at hgiven ⊢ with hself
    · obtain ⟨hb₁, hb₂⟩ := hb
      obtain ⟨hv₁, hv₂⟩ := hval
      split_ifs at htaken with hwrap
      · rw [safeAdd_int64 ⟨by omega, by omega⟩ ⟨hv₁, hv₂⟩] at hgiven
        omega
      · omega
    · rw [safeAdd_int64 hd hval] at hgiven
      omega
  · rintro ⟨henough, hadd⟩
    obtain ⟨hb₁, hb₂⟩ := hb
    obtain ⟨hv₁, hv₂⟩ := hval
    have htaken := (safeSub_int64 (c := if b - t.value < 2 ^ 63 then b - t.value
      else b - t.value - 2 ^ 64) ⟨hb₁, hb₂⟩ ⟨hv₁, hv₂⟩).2 ⟨henough.le, rfl⟩
    have hgiven : ∃ d', safeAdd (receiverBalance s.ledger t (if b - t.value < 2 ^ 63 then b - t.value
        else b - t.value - 2 ^ 64)) t.value = .ok d' := by
      unfold receiverBalance
      split_ifs at hadd ⊢ with hself hwrap
      · exact ⟨_, (safeAdd_int64 ⟨by omega, by omega⟩ ⟨hv₁, hv₂⟩).2 (.inl ⟨by omega, by omega, rfl⟩)⟩
      · exact ⟨_, (safeAdd_int64 ⟨by omega, by omega⟩ ⟨hv₁, hv₂⟩).2 (.inr ⟨by omega, by omega, rfl⟩)⟩
      · rcases hadd with ⟨hpos, hlt⟩ | ⟨hneg, hlt⟩
        · exact ⟨_, (safeAdd_int64 hd ⟨hv₁, hv₂⟩).2 (.inl ⟨hpos, hlt, rfl⟩)⟩
        · exact ⟨_, (safeAdd_int64 hd ⟨hv₁, hv₂⟩).2 (.inr ⟨hneg, hlt, rfl⟩)⟩
    obtain ⟨d', hgiven⟩ := hgiven
    exact hready.succeeds ⟨hrow, henough, htaken, hgiven⟩

/-- A transfer of a positive value below the balance moves exactly that. -/
theorem transferfrom_moves (hpos : 0 < t.value)
    (hok : xmaxErc20Transferfrom env ctx s = .ok r) (tok : AssetSymbol) (a : AccountName) :
    erc20Balance r.ledger tok a = erc20Balance s.ledger tok a
      - (if (tok, a) = (t.tokenName, t.source) then t.value else 0)
      + if (tok, a) = (t.tokenName, t.dest) then t.value else 0 := by
  obtain ⟨b, b', d', hsteps, hbal⟩ := hready.steps hok
  have hsource : erc20Balance s.ledger t.tokenName t.source = b := by
    simp [erc20Balance, hsteps.row]
  have hb := hrows hsteps.row
  have htaken : b' = b - t.value := by
    obtain ⟨-, htaken⟩ := (safeSub_int64 hb hval).1 hsteps.taken
    obtain ⟨hb₁, hb₂⟩ := hb
    rw [htaken, if_pos (by omega)]
  -- the receiver's sum goes up, so it has not wrapped
  have hgiven : d' = receiverBalance s.ledger t b' + t.value := by
    have hrecv : Int64 (receiverBalance s.ledger t b') := by
      unfold receiverBalance
      split_ifs
      · obtain ⟨hb₁, hb₂⟩ := hb
        obtain ⟨hv₁, hv₂⟩ := hval
        have := hsteps.enough
        exact ⟨by omega, by omega⟩
      · exact erc20Balance_int64 hrows t.tokenName t.dest
    rcases (safeAdd_int64 hrecv hval).1 hsteps.given with ⟨-, -, hd'⟩ | ⟨hneg, -⟩
    · exact hd'
    · omega
  rw [hbal, hgiven, htaken, receiverBalance]
  by_cases hd : (tok, a) = (t.tokenName, t.dest)
  · obtain ⟨rfl, rfl⟩ := Prod.mk.inj hd
    by_cases hself : t.dest = t.source
    · simp [hself, hsource]
    · simp [hself]
  · by_cases hs : (tok, a) = (t.tokenName, t.source)
    · obtain ⟨rfl, rfl⟩ := Prod.mk.inj hs
      simp only [if_neg hd, if_true, hsource]
      omega
    · simp [hd, hs]

theorem transferSound_iff : TransferSound env ctx s t ↔ TransferCondition s.ledger t := by
  unfold TransferSound TransferCondition
  cases hrow : s.ledger.erc20Accounts.find? (t.tokenName, t.source) with
  | none =>
    have hb : erc20Balance s.ledger t.tokenName t.source = 0 := by simp [erc20Balance, hrow]
    have hfail : ¬ ∃ r, xmaxErc20Transferfrom env ctx s = .ok r := by
      rintro ⟨r, hr⟩
      obtain ⟨b, b', d', hsteps, -⟩ := hready.steps hr
      exact absurd (hrow.symm.trans hsteps.row) (by simp)
    rw [hb]
    refine ⟨fun _ => ⟨by omega, by omega, by simp⟩, fun _ => ⟨⟨fun h => absurd h hfail, ?_⟩, ?_⟩⟩
    · rintro ⟨hpos, hle, -⟩
      omega
    · exact fun r hr => absurd ⟨r, hr⟩ hfail
  | some b =>
    have hb : erc20Balance s.ledger t.tokenName t.source = b := by simp [erc20Balance, hrow]
    have hiff := transferfrom_succeeds_iff hready hval hrows hrow
    obtain ⟨hd₁, hd₂⟩ := erc20Balance_int64 hrows t.tokenName t.dest
    rw [hb]
    constructor
    · rintro ⟨hclaim, -⟩
      rw [hiff] at hclaim
      simp only [Option.isSome_some, true_and]
      split_ifs at hclaim ⊢ with hself <;> simp only [hself, ne_eq, not_true_eq_false,
        not_false_eq_true, false_implies, true_implies, and_true] at hclaim ⊢ <;> omega
    · rintro ⟨hzero, hall, hneg⟩
      have hclaim : (∃ r, xmaxErc20Transferfrom env ctx s = .ok r) ↔ 0 < t.value ∧ t.value ≤ b ∧
          (t.dest ≠ t.source → erc20Balance s.ledger t.tokenName t.dest + t.value < 2 ^ 63) := by
        rw [hiff]
        simp only [Option.isSome_some, true_and] at hneg
        split_ifs at hneg ⊢ with hself <;> simp only [hself, ne_eq, not_true_eq_false,
          not_false_eq_true, false_implies, true_implies, and_true] at hall ⊢ <;> omega
      exact ⟨hclaim, fun r hr =>
        transferfrom_moves hready hval hrows (hclaim.1 ⟨r, hr⟩).1 hr⟩

end Transferfrom

/-! ## Sequences of messages -/

section Supply

variable {rows rows' : Table (AssetSymbol × AccountName) ℤ} {k : AssetSymbol × AccountName} {b c : ℤ}

theorem erc20Sum_modify (h : rows.find? k = some b) (c : ℤ) (t : AssetSymbol) :
    erc20Sum (rows.modify k fun _ => c) t = erc20Sum rows t + if k.1 = t then c - b else 0 := by
  have := Table.sumRows_modify (fun _ => c) (fun (k : AssetSymbol × AccountName) b =>
    if k.1 = t then b else 0) h
  unfold erc20Sum
  split_ifs at this ⊢ <;> omega

theorem erc20Sum_create (h : rows.create? k b = some rows') (t : AssetSymbol) :
    erc20Sum rows' t = erc20Sum rows t + if k.1 = t then b else 0 :=
  Table.sumRows_create (fun (k : AssetSymbol × AccountName) b => if k.1 = t then b else 0) h

theorem erc20Sum_eq_zero {t : AssetSymbol} (h : ∀ k b, rows.find? k = some b → k.1 ≠ t) :
    erc20Sum rows t = 0 := by
  refine (Table.sumRows_congr (g := fun _ _ => 0) fun k b hk => if_neg (h k b hk)).trans ?_
  simp [Table.sumRows]

end Supply

section Steps

variable {env : Env} {ctx : MessageContext} {s r : HandlerState} {l l' : Ledger}

theorem Erc20Ok.congr (h : Erc20Ok l) (h20 : l'.erc20s = l.erc20s)
    (hacc : l'.erc20Accounts = l.erc20Accounts) : Erc20Ok l' := by
  refine ⟨fun ht => ?_, fun ht => ?_, fun hk => ?_, fun hk => ?_⟩
  · rw [h20] at ht
    rw [hacc]
    exact h.supply ht
  · rw [h20] at ht
    exact h.fits ht
  · rw [hacc] at hk
    exact h.rows hk
  · rw [hacc] at hk
    rw [h20]
    exact h.issued hk

theorem Erc20Ok.adderc20 (h : Erc20Ok s.ledger)
    (hdata : ∀ t, env.codec.adderc20 ctx.msg.data = some t → 0 ≤ t.totalBalance ∧ Int64 t.totalBalance)
    (hok : xmaxSystemAdderc20 env ctx s = .ok r) : Erc20Ok r.ledger := by
  obtain ⟨t, ht, -, erc20s, rows, hnew, hrows, hr⟩ := xmaxSystemAdderc20_ok hok
  obtain ⟨hpos, -, hlt⟩ := hdata t ht
  obtain ⟨hnone, hfind⟩ := Table.create?_eq_some hnew
  obtain ⟨-, hfindRows⟩ := Table.create?_eq_some hrows
  have hempty : erc20Sum s.ledger.erc20Accounts t.tokenName = 0 := by
    refine erc20Sum_eq_zero fun k b hk heq => ?_
    have hissued := h.issued hk
    rw [heq, hnone] at hissued
    cases hissued
  rw [hr]
  refine ⟨fun {tok token} htok => ?_, fun {tok token} htok => ?_, fun {k b} hk => ?_,
    fun {k b} hk => ?_⟩
  · dsimp only at htok ⊢
    rw [hfind] at htok
    rw [erc20Sum_create hrows]
    split_ifs at htok with heq
    · cases htok
      rw [heq, hempty, if_pos rfl, zero_add]
    · rw [if_neg (Ne.symm heq), add_zero]
      exact h.supply htok
  · dsimp only at htok
    rw [hfind] at htok
    split_ifs at htok
    · cases htok
      exact ⟨hpos, hlt⟩
    · exact h.fits htok
  · dsimp only at hk
    rw [hfindRows] at hk
    split_ifs at hk
    · cases hk
      exact ⟨hpos, hlt⟩
    · exact h.rows hk
  · dsimp only at hk ⊢
    rw [hfind]
    split_ifs with heq
    · rfl
    · have hne : k ≠ (t.tokenName, t.creator) := fun hk' => heq (congrArg Prod.fst hk')
      rw [hfindRows, if_neg hne] at hk
      exact h.issued hk

/-- A supply that grows by as much as a balance. -/
theorem Erc20Ok.mint (h : Erc20Ok s.ledger)
    (hdata : ∀ t, env.codec.minterc20 ctx.msg.data = some t → Int64 t.mintAmount)
    (hok : xmaxErc20Mint env ctx s = .ok r) : Erc20Ok r.ledger := by
  obtain ⟨t, token, b, b', n', ht, htoken, hb, hb', hn', rfl⟩ := xmaxErc20Mint_ok hok
  have hamount := hdata t ht
  obtain ⟨hpos, hlt⟩ := h.rows hb
  obtain ⟨hnonneg, hlt', rfl⟩ : 0 ≤ t.mintAmount ∧ b + t.mintAmount < 2 ^ 63 ∧
      b' = b + t.mintAmount := by
    have := (safeAdd_int64 ⟨by omega, hlt⟩ hamount).1 hb'
    obtain ⟨hamount, -⟩ := hamount
    omega
  obtain ⟨hsupply, hsupply'⟩ := h.fits htoken
  obtain ⟨hlt₂, rfl⟩ : token.totalSupply + t.mintAmount < 2 ^ 63 ∧
      n' = token.totalSupply + t.mintAmount := by
    have := (safeAdd_int64 ⟨by omega, hsupply'⟩ hamount).1 hn'
    omega
  refine ⟨fun {tok token'} htok => ?_, fun {tok token'} htok => ?_, fun {k c} hk => ?_,
    fun {k c} hk => ?_⟩
  · dsimp only at htok ⊢
    rw [Table.find?_modify, Option.map_eq_some_iff] at htok
    obtain ⟨token₀, htoken₀, rfl⟩ := htok
    rw [erc20Sum_modify hb, h.supply htoken₀]
    by_cases heq : tok = t.tokenName
    · subst heq
      obtain rfl : token = token₀ := Option.some_inj.1 (htoken.symm.trans htoken₀)
      simp
    · simp [heq, Ne.symm heq]
  · dsimp only at htok
    rw [Table.find?_modify, Option.map_eq_some_iff] at htok
    obtain ⟨token₀, htoken₀, rfl⟩ := htok
    split_ifs
    · exact ⟨by dsimp only; omega, hlt₂⟩
    · exact h.fits htoken₀
  · dsimp only at hk
    rw [Table.find?_modify, Option.map_eq_some_iff] at hk
    obtain ⟨c₀, hc₀, rfl⟩ := hk
    split_ifs
    · exact ⟨by omega, hlt'⟩
    · exact h.rows hc₀
  · dsimp only at hk ⊢
    rw [Table.find?_modify, Option.map_eq_some_iff] at hk
    obtain ⟨c₀, hc₀, rfl⟩ := hk
    simpa using h.issued hc₀

theorem openErc20Account_sum {row : AssetSymbol × AccountName}
    {rows : Table (AssetSymbol × AccountName) ℤ} (h : openErc20Account l row = .ok rows)
    (t : AssetSymbol) : erc20Sum rows t = erc20Sum l.erc20Accounts t := by
  unfold openErc20Account at h
  split at h
  · rw [erc20Sum_create (dbCreate_eq_ok.1 h), ite_self, add_zero]
  · cases h
    rfl

/-- A transfer between the accounts of one token, where none has less than nothing before. -/
theorem Erc20Ok.setRows (h : Erc20Ok l) {rows : Table (AssetSymbol × AccountName) ℤ}
    (hsum : ∀ t, erc20Sum rows t = erc20Sum l.erc20Accounts t)
    (hrows : ∀ {k b}, rows.find? k = some b → 0 ≤ b ∧ b < 2 ^ 63)
    (hissued : ∀ {k b}, rows.find? k = some b → (l.erc20s.find? k.1).isSome) :
    Erc20Ok { l with erc20Accounts := rows } :=
  ⟨fun ht => (hsum _).trans (h.supply ht), h.fits, hrows, hissued⟩

theorem Erc20Ok.openErc20Account (h : Erc20Ok l) {row : AssetSymbol × AccountName}
    {rows : Table (AssetSymbol × AccountName) ℤ} (hopen : XmaxChain.openErc20Account l row = .ok rows)
    (htoken : (l.erc20s.find? row.1).isSome) : Erc20Ok { l with erc20Accounts := rows } := by
  obtain ⟨rows', hopen', hfind⟩ := openErc20Account_rows l row
  obtain rfl : rows = rows' := Except.ok.inj (hopen.symm.trans hopen')
  refine h.setRows (openErc20Account_sum hopen) (fun {k b} hk => ?_) fun {k b} hk => ?_
  · rw [hfind] at hk
    split_ifs at hk
    · cases hrow : l.erc20Accounts.find? row with
      | none =>
        rw [hrow] at hk
        cases hk
        exact ⟨le_rfl, by decide⟩
      | some c =>
        rw [hrow] at hk
        cases hk
        exact h.rows hrow
    · exact h.rows hk
  · rw [hfind] at hk
    split_ifs at hk with heq
    · rw [heq]
      exact htoken
    · exact h.issued hk

/-- What is left to the sender and what the receiver has then are balances, and together what they
were. -/
theorem transfer_amounts {rows : Table (AssetSymbol × AccountName) ℤ}
    (hrows : ∀ {k b}, rows.find? k = some b → 0 ≤ b ∧ b < 2 ^ 63)
    {source dest : AssetSymbol × AccountName} {n b b' d d' : ℤ} (hn : Int64 n)
    (hb : rows.find? source = some b) (hlt : n < b) (hb' : safeSub b n = .ok b')
    (hd : (rows.modify source fun _ => b').find? dest = some d) (hd' : safeAdd d n = .ok d') :
    (0 ≤ d' ∧ d' < 2 ^ 63) ∧ (source ≠ dest → 0 ≤ b' ∧ b' < 2 ^ 63) ∧ b' - b + (d' - d) = 0 := by
  obtain ⟨hb₁, hb₂⟩ := hrows hb
  obtain ⟨-, hsub⟩ := (safeSub_int64 ⟨by omega, hb₂⟩ hn).1 hb'
  rw [Table.find?_modify] at hd
  by_cases hself : dest = source
  · -- what was taken comes back, also where the subtraction wrapped
    rw [hself, hb, Option.map_some, if_pos rfl, Option.some_inj] at hd
    subst hd
    have hrange : Int64 b' := by
      obtain ⟨hn₁, hn₂⟩ := hn
      split_ifs at hsub
      · exact ⟨by omega, by omega⟩
      · exact ⟨by omega, by omega⟩
    have hadd := (safeAdd_int64 hrange hn).1 hd'
    have hback : d' = b := by
      split_ifs at hsub <;> omega
    exact ⟨⟨by omega, by omega⟩, fun hne => absurd hself.symm hne, by omega⟩
  · rw [Option.map_eq_some_iff] at hd
    obtain ⟨d₀, hd₀, heq⟩ := hd
    rw [if_neg hself] at heq
    subst heq
    obtain ⟨hd₁, hd₂⟩ := hrows hd₀
    have hadd := (safeAdd_int64 ⟨by omega, hd₂⟩ hn).1 hd'
    obtain ⟨hn₁, hn₂⟩ := hn
    have hpos : 0 ≤ n := by omega
    rw [if_pos (by omega)] at hsub
    exact ⟨⟨by omega, by omega⟩, fun _ => ⟨by omega, by omega⟩, by omega⟩

/-- A transfer takes from one balance what it adds to another. -/
theorem Erc20Ok.transferfrom (h : Erc20Ok s.ledger)
    (hdata : ∀ t, env.codec.transferfromerc20 ctx.msg.data = some t → Int64 t.value)
    (hok : xmaxErc20Transferfrom env ctx s = .ok r) : Erc20Ok r.ledger := by
  obtain ⟨t, rows, b, b', d, d', ht, -, htoken, -, hopen, hb, hlt, hb', hd, hd', rfl⟩ :=
    xmaxErc20Transferfrom_ok hok
  have hopened := h.openErc20Account hopen htoken
  obtain ⟨hd₁, hb₁, hmoved⟩ := transfer_amounts hopened.rows (hdata t ht) hb hlt hb' hd hd'
  refine h.setRows (fun tok => ?_) (fun {k c} hk => ?_) fun {k c} hk => ?_
  · rw [erc20Sum_modify hd, erc20Sum_modify hb, openErc20Account_sum hopen]
    split_ifs <;> omega
  · simp only [Table.find?_modify, Option.map_map, Option.map_eq_some_iff, Function.comp_apply] at hk
    obtain ⟨c₀, hc₀, rfl⟩ := hk
    split_ifs with hkd hks
    · exact hd₁
    · exact hb₁ fun heq => hkd (hks.trans heq)
    · exact hopened.rows hc₀
  · simp only [Table.find?_modify, Option.map_map, Option.map_eq_some_iff] at hk
    obtain ⟨c₀, hc₀, -⟩ := hk
    exact hopened.issued hc₀

/-- A token that is stopped or revoked keeps its supply. -/
theorem Erc20Ok.setToken (h : Erc20Ok l) (name : AssetSymbol) {f : Erc20Token → Erc20Token}
    (hf : ∀ token, (f token).totalSupply = token.totalSupply) :
    Erc20Ok { l with erc20s := l.erc20s.modify name f } := by
  have hrow : ∀ {t token'}, (l.erc20s.modify name f).find? t = some token' →
      ∃ token, l.erc20s.find? t = some token ∧ token'.totalSupply = token.totalSupply := by
    intro t token' ht
    rw [Table.find?_modify, Option.map_eq_some_iff] at ht
    obtain ⟨token, htoken, rfl⟩ := ht
    refine ⟨token, htoken, ?_⟩
    split_ifs
    · exact hf token
    · rfl
  refine ⟨fun ht => ?_, fun ht => ?_, h.rows, fun hk => ?_⟩
  · obtain ⟨token, htoken, heq⟩ := hrow ht
    rw [heq]
    exact h.supply htoken
  · obtain ⟨token, htoken, heq⟩ := hrow ht
    rw [heq]
    exact h.fits htoken
  · simpa using h.issued hk

/-- The amounts that a message carries are of 64 bits. -/
structure AmountsFit (env : Env) (ctx : MessageContext) : Prop where
  issued : ∀ t, env.codec.adderc20 ctx.msg.data = some t → Int64 t.totalBalance
  minted : ∀ t, env.codec.minterc20 ctx.msg.data = some t → Int64 t.mintAmount
  sent : ∀ t, env.codec.transferfromerc20 ctx.msg.data = some t → Int64 t.value

/-- Where the message issues a token, it issues nothing negative. -/
def IssuesNonneg (env : Env) (ctx : MessageContext) : Prop :=
  ctx.msg.type = .adderc20 → ∀ t, env.codec.adderc20 ctx.msg.data = some t → 0 ≤ t.totalBalance

theorem Erc20Ok.handler (h : Erc20Ok s.ledger) (hfit : AmountsFit env ctx)
    (hissue : IssuesNonneg env ctx) {scope : NativeScope} {f : LedgerHandler}
    (found : ledgerHandler env scope ctx.msg.type = some f) (ran : f ctx s = .ok r) :
    Erc20Ok r.ledger := by
  cases scope with
  | invalid => simp [ledgerHandler] at found
  | system =>
    by_cases h20 : ctx.msg.type = .adderc20
    · rw [h20] at found
      cases found
      exact h.adderc20 (fun t ht => ⟨hissue h20 t ht, hfit.issued t ht⟩) ran
    by_cases h721 : ctx.msg.type = .adderc721
    · rw [h721] at found
      cases found
      obtain ⟨_, -, _, -, hr⟩ := xmaxSystemAdderc721_ok ran
      rw [hr]
      exact h.congr rfl rfl
    · have hsame := systemHandler_sameTokens found h20 h721 ran
      exact h.congr hsame.erc20s hsame.erc20Accounts
  | erc20 =>
    generalize ctx.msg.type = type at found
    cases type <;> simp only [ledgerHandler, reduceCtorEq] at found <;> cases found
    case erc20.mint.refl => exact h.mint hfit.minted ran
    case erc20.transferfrom.refl => exact h.transferfrom hfit.sent ran
    case erc20.stopmint.refl =>
      obtain ⟨name, _, rfl⟩ := xmaxErc20Stopmint_ok ran
      exact h.setToken name fun _ => rfl
    case erc20.revoke.refl =>
      obtain ⟨name, _, -, -, -, rfl⟩ := xmaxErc20Revoke_ok ran
      exact h.setToken name fun _ => rfl
  | erc721 =>
    rw [erc721Handler_rest found ran]
    exact h.congr rfl rfl

theorem RunOn.erc20Ok {N N' : List AccountName} {n : Bool} (h : RunOn env ctx l N n l' N')
    (hok : Erc20Ok l) (hfit : AmountsFit env ctx) (hissue : IssuesNonneg env ctx) : Erc20Ok l' := by
  cases h with
  | handler acc f r l' account found ran same =>
    exact (Erc20Ok.handler (s := ⟨l, N⟩) hok hfit hissue found ran).congr same.erc20s same.erc20Accounts
  | addaccount acc create r l' account scope type data ran same =>
    have hsame := addaccountTokens_sameTokens ran
    exact (hok.congr hsame.erc20s hsame.erc20Accounts).congr same.erc20s same.erc20Accounts
  | silent acc l' account unknown same => exact hok.congr same.erc20s same.erc20Accounts

/-- The ledgers that messages of any kind lead to, where no token is issued with a negative
balance. -/
inductive Erc20Run (env : Env) : Ledger → Prop
  | start {l : Ledger} (tokens : l.erc20s = .empty) (accounts : l.erc20Accounts = .empty) :
      Erc20Run env l
  | message {l l' : Ledger} {ctx : MessageContext} {N N' : List AccountName} {isNotify : Bool}
      (before : Erc20Run env l) (fit : AmountsFit env ctx) (issue : IssuesNonneg env ctx)
      (run : RunOn env ctx l N isNotify l' N') : Erc20Run env l'

theorem Erc20Run.ok (h : Erc20Run env l) : Erc20Ok l := by
  induction h with
  | start tokens accounts => refine ⟨?_, ?_, ?_, ?_⟩ <;> simp [tokens, accounts]
  | message _ fit issue run ih => exact run.erc20Ok ih fit issue

end Steps

/-- Where no token is issued with a negative balance, the accounts hold the supply of each token and
none less than nothing; and a transfer goes through exactly for a positive value that the sender
has, and moves it, if and only if its value is neither nothing nor all of a balance and no negative
value leaves the 64 bits. -/
theorem erc20_sound {env : Env} {l : Ledger} (h : Erc20Run env l) :
    (∀ t token, l.erc20s.find? t = some token →
      (l.erc20Accounts.sumRows fun k b => if k.1 = t then b else 0) = token.totalSupply) ∧
    (∀ t a b, l.erc20Accounts.find? (t, a) = some b → 0 ≤ b) ∧
    ∀ (ctx : MessageContext) (s : HandlerState) (t : Types.TransferFromErc20),
      (∀ k b, s.ledger.erc20Accounts.find? k = some b → Int64 b) → Int64 t.value →
      TransferReady env ctx s.ledger t →
      (TransferSound env ctx s t ↔ TransferCondition s.ledger t) :=
  ⟨fun _ _ ht => h.ok.supply ht, fun _ _ _ hk => (h.ok.rows hk).1,
    fun _ _ _ hrows hval hready => transferSound_iff hready hval (fun hk => hrows _ _ hk)⟩

/-- Account 1 is the system contract, and account 2 a person. -/
def noErc20 : Ledger where
  accounts := .ofList [(1, { type := .system }), (2, { type := .personal })]

/-- The call that issues 5 of token 9 to account 1. -/
def issueFive : MessageContext where
  trx := { scope := [1, 2] }
  msg := ⟨1, .adderc20, [⟨1, xmaxActiveName⟩], [1, 9, 5]⟩
  code := 1
  currentTime := 0

/-- The call that sends some of it to account 2. -/
def sendErc20 (n : ℕ) : MessageContext where
  trx := { scope := [1, 2] }
  msg := ⟨9, .transferfrom, [⟨1, xmaxActiveName⟩], [9, 1, 2, n]⟩
  code := 9
  currentTime := 0

theorem issueFive_run : ∃ r, xmaxSystemAdderc20 fieldEnv issueFive ⟨noErc20, []⟩ = .ok r ∧
    r.ledger.erc20s.find? 9 = some { ownerName := 1, totalSupply := 5 } ∧
    (r.ledger.erc20Accounts.find? (9, 1) = some 5 ∧ r.ledger.erc20Accounts.find? (9, 2) = none) ∧
    Erc20Run fieldEnv r.ledger := by
  obtain ⟨r, hr, h20, hrows⟩ := exists_ok_of_eval
    (x := xmaxSystemAdderc20 fieldEnv issueFive ⟨noErc20, []⟩)
    (P := fun r => r.ledger.erc20s.find? 9 = some { ownerName := 1, totalSupply := 5 } ∧
      r.ledger.erc20Accounts.find? (9, 1) = some 5 ∧ r.ledger.erc20Accounts.find? (9, 2) = none)
    (by decide)
  have hrun : RunOn fieldEnv issueFive noErc20 [] false r.ledger r.notified :=
    .handler { type := .system } _ r r.ledger rfl rfl hr (.refl _)
  have hfit : AmountsFit fieldEnv issueFive := by
    refine ⟨fun t ht => ?_, fun t ht => ?_, fun t ht => ?_⟩ <;> cases ht
    exact ⟨by decide, by decide⟩
  have hissue : IssuesNonneg fieldEnv issueFive := by
    intro _ t ht
    cases ht
    decide
  exact ⟨r, hr, h20, hrows, (Erc20Run.start rfl rfl).message hfit hissue hrun⟩

theorem sendErc20_ready {l : Ledger} (h : l.erc20s.find? 9 = some { ownerName := 1, totalSupply := 5 })
    (n : ℕ) : TransferReady fieldEnv (sendErc20 n) l ⟨9, 1, 2, n⟩ :=
  ⟨rfl, List.mem_cons_self, List.mem_cons_self, List.mem_cons_of_mem _ List.mem_cons_self, _, h, rfl⟩

theorem erc20_sound_five :
    ∃ r, xmaxSystemAdderc20 fieldEnv issueFive ⟨noErc20, []⟩ = .ok r ∧
      (r.ledger.erc20Accounts.sumRows fun k b => if k.1 = 9 then b else 0) = 5 ∧
      TransferSound fieldEnv (sendErc20 3) ⟨r.ledger, []⟩ ⟨9, 1, 2, 3⟩ := by
  obtain ⟨r, hr, h20, ⟨hone, htwo⟩, hrun⟩ := issueFive_run
  refine ⟨r, hr, (erc20_sound hrun).1 9 _ h20, ?_⟩
  refine ((erc20_sound hrun).2.2 (sendErc20 3) ⟨r.ledger, []⟩ ⟨9, 1, 2, 3⟩ (fun k b hk => ?_)
    ⟨by decide, by decide⟩ (sendErc20_ready h20 3)).2 ?_
  · obtain ⟨hpos, hlt⟩ := hrun.ok.rows hk
    exact ⟨by omega, hlt⟩
  · simp [TransferCondition, erc20Balance, hone, htwo]

theorem transfer_of_all_refused :
    ∃ r, xmaxSystemAdderc20 fieldEnv issueFive ⟨noErc20, []⟩ = .ok r ∧ Erc20Run fieldEnv r.ledger ∧
      TransferReady fieldEnv (sendErc20 5) r.ledger ⟨9, 1, 2, 5⟩ ∧
      ¬ TransferSound fieldEnv (sendErc20 5) ⟨r.ledger, []⟩ ⟨9, 1, 2, 5⟩ := by
  obtain ⟨r, hr, h20, ⟨hone, htwo⟩, hrun⟩ := issueFive_run
  refine ⟨r, hr, hrun, sendErc20_ready h20 5, fun hsound => ?_⟩
  have hrows : ∀ {k b}, r.ledger.erc20Accounts.find? k = some b → Int64 b := by
    intro k b hk
    obtain ⟨hpos, hlt⟩ := hrun.ok.rows hk
    exact ⟨by omega, hlt⟩
  have hcond := (transferSound_iff (s := ⟨r.ledger, []⟩) (sendErc20_ready h20 5)
    ⟨by decide, by decide⟩ hrows).1 hsound
  simp [TransferCondition, erc20Balance, hone, htwo] at hcond

end XmaxChain
