import XmaxChain.Authority

/-!
# The rows of authorities

What an authority has to look like before it is stored, and what is stored then. The weights are added
up in 16 bits, so what is compared with the threshold is their sum modulo 65536. And what is assigned to a
row goes behind what the row has, so only a row without keys and accounts ends up with just that.
-/

namespace XmaxChain

/-- A sum of `auth_weight`. -/
def u16 (n : ℕ) : ℕ := n % 2 ^ 16

theorem u16_lt (n : ℕ) : u16 n < 2 ^ 16 := Nat.mod_lt n (by simp)

theorem u16_le (n : ℕ) : u16 n ≤ n := Nat.mod_le n _

theorem u16_of_lt {n : ℕ} (h : n < 2 ^ 16) : u16 n = n := Nat.mod_eq_of_lt h

@[simp] theorem u16_add (m n : ℕ) : u16 (u16 m + n) = u16 (m + n) := Nat.mod_add_mod m _ n

/-! ## The format -/

section AddInOrder

variable {α : Type} (blt : α → α → Bool) (weight : α → ℕ)

/-- The loop over the entries after the first: each has to be above the one before it. -/
def addInOrder : α → List α → ℕ → Option ℕ
  | _, [], weights => some weights
  | prev, a :: as, weights =>
    if blt prev a then addInOrder a as (u16 (weights + weight a)) else none

/-- The weights of a list in order, added to `weights`. -/
def addWeights : List α → ℕ → Option ℕ
  | [], weights => some weights
  | a :: as, weights => addInOrder blt weight a as (u16 (weights + weight a))

variable {blt weight}

theorem addInOrder_eq_some {w : ℕ} : ∀ {prev : α} {as : List α} {weights : ℕ}, weights < 2 ^ 16 →
    (addInOrder blt weight prev as weights = some w ↔
      (prev :: as).IsChain (fun a b => blt a b = true) ∧ w = u16 (weights + (as.map weight).sum))
  | prev, [], weights, hw => by
    simp [addInOrder, u16_of_lt hw, @eq_comm _ weights]
  | prev, a :: as, weights, hw => by
    rw [addInOrder, List.isChain_cons_cons]
    split_ifs with hlt
    · rw [addInOrder_eq_some (u16_lt _)]
      simp [hlt, Nat.add_assoc]
    · simp [hlt]

theorem addWeights_eq_some {as : List α} {weights w : ℕ} (hw : weights < 2 ^ 16) :
    addWeights blt weight as weights = some w ↔
      as.IsChain (fun a b => blt a b = true) ∧ w = u16 (weights + (as.map weight).sum) := by
  rcases as with _ | ⟨a, as⟩
  · simp [addWeights, u16_of_lt hw, @eq_comm _ weights]
  · rw [addWeights, addInOrder_eq_some (u16_lt _)]
    simp [Nat.add_assoc]

theorem addWeights_eq_none {as : List α} {weights : ℕ} (hw : weights < 2 ^ 16) :
    addWeights blt weight as weights = none ↔ ¬ as.IsChain (fun a b => blt a b = true) := by
  rw [← not_iff_not, not_not, ← ne_eq, Option.ne_none_iff_exists']
  simp only [addWeights_eq_some hw, exists_and_left, exists_eq, and_true]

end AddInOrder

def validateWeightFormat (auth : Types.Authority) : Bool :=
  if 2 ^ 16 < auth.keys.length + auth.accounts.length then false
  else if auth.threshold = 0 then false
  else match addWeights (fun a b => a.key < b.key) (·.weight) auth.keys 0 with
    | none => false
    | some weights =>
      match addWeights (fun a b => a.permission.blt b.permission) (·.weight) auth.accounts weights with
      | none => false
      | some weights => auth.threshold ≤ weights

/-- The exact sum of all weights. -/
def Types.Authority.totalWeight (auth : Types.Authority) : ℕ :=
  (auth.keys.map (·.weight)).sum + (auth.accounts.map (·.weight)).sum

/-- The keys and the accounts are strictly increasing. -/
structure Types.Authority.Ordered (auth : Types.Authority) : Prop where
  keys : auth.keys.Pairwise (·.key < ·.key)
  accounts : auth.accounts.Pairwise fun a b => a.permission.blt b.permission = true

/-- What an authority has to be: in order, and with a threshold that all weights together reach. -/
structure Types.Authority.WellFormed (auth : Types.Authority) : Prop where
  threshold : 0 < auth.threshold
  ordered : auth.Ordered
  enough : auth.threshold ≤ auth.totalWeight

theorem AccountAuth.blt_trans {a b d : AccountAuth} (h : a.blt b = true) (h' : b.blt d = true) :
    a.blt d = true := by
  simp only [AccountAuth.blt, Bool.or_eq_true, decide_eq_true_eq, Bool.and_eq_true, beq_iff_eq] at *
  rcases h with h | ⟨h, hlt⟩
  · rcases h' with h' | ⟨h', -⟩
    · exact .inl (Nat.lt_trans h h')
    · exact .inl (h' ▸ h)
  · rcases h' with h' | ⟨h', hlt'⟩
    · exact .inl (h ▸ h')
    · exact .inr ⟨h.trans h', Nat.lt_trans hlt hlt'⟩

section Format

variable {auth : Types.Authority}

theorem isChain_keys :
    auth.keys.IsChain (fun a b => decide (a.key < b.key) = true) ↔
      auth.keys.Pairwise (·.key < ·.key) := by
  simp only [decide_eq_true_eq]
  let lt (a b : Types.KeyWeight) : Prop := a.key < b.key
  have : Trans lt lt lt := ⟨Nat.lt_trans⟩
  exact List.isChain_iff_pairwise

theorem isChain_accounts :
    auth.accounts.IsChain (fun a b => a.permission.blt b.permission = true) ↔
      auth.accounts.Pairwise fun a b => a.permission.blt b.permission = true := by
  let lt (a b : Types.AccountWeight) : Prop := a.permission.blt b.permission = true
  have : Trans lt lt lt := ⟨AccountAuth.blt_trans⟩
  exact List.isChain_iff_pairwise

/-- What the check comes to. -/
theorem validateWeightFormat_eq_true (hsize : auth.keys.length + auth.accounts.length ≤ 2 ^ 16) :
    validateWeightFormat auth = true ↔
      0 < auth.threshold ∧ auth.Ordered ∧ auth.threshold ≤ u16 auth.totalWeight := by
  unfold validateWeightFormat
  rw [if_neg (not_lt.2 hsize)]
  split_ifs with hzero
  · simp [hzero]
  have hpos : 0 < auth.threshold := Nat.pos_of_ne_zero hzero
  split
  · rename_i hnone
    rw [addWeights_eq_none (Nat.two_pow_pos 16), isChain_keys] at hnone
    exact iff_of_false Bool.false_ne_true fun h => hnone h.2.1.keys
  · rename_i weights hkeys
    rw [addWeights_eq_some (Nat.two_pow_pos 16), isChain_keys] at hkeys
    obtain ⟨hkeys, rfl⟩ := hkeys
    have hlt := u16_lt (0 + (auth.keys.map (·.weight)).sum)
    split
    · rename_i hnone
      rw [addWeights_eq_none hlt, isChain_accounts] at hnone
      exact iff_of_false Bool.false_ne_true fun h => hnone h.2.1.accounts
    · rename_i weights haccounts
      rw [addWeights_eq_some hlt, isChain_accounts] at haccounts
      obtain ⟨haccounts, rfl⟩ := haccounts
      have hsum : u16 (u16 (0 + (auth.keys.map (·.weight)).sum) + (auth.accounts.map (·.weight)).sum)
          = u16 auth.totalWeight := by
        simp [Types.Authority.totalWeight]
      rw [hsum, decide_eq_true_eq]
      exact ⟨fun h => ⟨hpos, ⟨hkeys, haccounts⟩, h⟩, fun h => h.2.2⟩

end Format

/-- The check is exact just if no authority in order has a threshold that its weights reach, but not
their sum modulo 65536. -/
theorem validateWeightFormat_exact_iff (auth : Types.Authority)
    (hsize : auth.keys.length + auth.accounts.length ≤ 2 ^ 16) :
    (validateWeightFormat auth = true ↔ auth.WellFormed) ↔
      (auth.Ordered → auth.threshold ≤ auth.totalWeight → auth.threshold ≤ u16 auth.totalWeight) := by
  rw [validateWeightFormat_eq_true hsize]
  constructor
  · intro h hordered hle
    rcases Nat.eq_zero_or_pos auth.threshold with hzero | hpos
    · omega
    · exact (h.2 ⟨hpos, hordered, hle⟩).2.2
  · refine fun h => ⟨fun ⟨hpos, hordered, hle⟩ => ⟨hpos, hordered, hle.trans (u16_le _)⟩, fun hwell => ?_⟩
    exact ⟨hwell.threshold, hwell.ordered, h hwell.ordered hwell.enough⟩

theorem validateWeightFormat_exact_two_keys :
    validateWeightFormat ⟨2, [⟨1, 1⟩, ⟨2, 1⟩], []⟩ = true ↔
      Types.Authority.WellFormed ⟨2, [⟨1, 1⟩, ⟨2, 1⟩], []⟩ :=
  (validateWeightFormat_exact_iff _ (by decide)).2 fun _ _ => by decide

/-- Two keys of weight 40000 reach a threshold of 50000 together, but the authority is refused: the sum
wraps to 14464. -/
theorem heavy_keys_refused :
    ∃ auth : Types.Authority, auth.keys.length + auth.accounts.length ≤ 2 ^ 16 ∧
      ¬ (validateWeightFormat auth = true ↔ auth.WellFormed) := by
  refine ⟨⟨50000, [⟨1, 40000⟩, ⟨2, 40000⟩], []⟩, by decide, fun h => ?_⟩
  have hwell : Types.Authority.WellFormed ⟨50000, [⟨1, 40000⟩, ⟨2, 40000⟩], []⟩ :=
    ⟨by decide, ⟨by simp, by simp⟩, by decide⟩
  exact absurd (h.2 hwell) (by decide)

/-! ## What is stored -/

/-- `mapped_authoritys::operator=`: the entries assigned go behind those stored. -/
def mappedAssign (stored auths : Types.Authority) : Types.Authority where
  threshold := auths.threshold
  keys := stored.keys ++ auths.keys
  accounts := stored.accounts ++ auths.accounts

section Rows

variable (db : AuthDb) (account : AccountName) (name : AuthorityName)

def modifyAuthorityObject (newAuth : Types.Authority) (t : ℕ) : AuthDb :=
  { db with authorities := db.authorities.modify (account, name) fun po =>
      { po with authoritys := mappedAssign po.authoritys newAuth, lastUpdated := t } }

/-- A new row has no entries before those assigned. -/
def newAuthorityObject (parent : ℕ) (auth : Types.Authority) (t : ℕ) : Except Fault AuthDb := do
  let authorities ← dbCreate db.authorities (account, name)
    ⟨db.nextAuthority, parent, mappedAssign ⟨0, [], []⟩ auth, t⟩
  pure { db with authorities := authorities, nextAuthority := db.nextAuthority + 1 }

/-- Updates of one row, each at its time. -/
def modifyAuthorityObjects (updates : List (Types.Authority × ℕ)) : AuthDb :=
  updates.foldl (fun db u => modifyAuthorityObject db account name u.1 u.2) db

end Rows

/-- What is stored is the new authority: no other key adds to the weight of those that have signed, and
no other account is checked. -/
structure Replaces (stored new : Types.Authority) : Prop where
  threshold : stored.threshold = new.threshold
  keys : stored.keys = new.keys
  accounts : stored.accounts = new.accounts
  otherKey : ∀ key, (∀ k ∈ new.keys, k.key ≠ key) → ∀ signed weight,
    addKeys (key :: signed) stored weight = addKeys signed stored weight
  otherAccount : ∀ a ∈ stored.accounts, ∃ b ∈ new.accounts, b.permission = a.permission

section Stored

variable {db : AuthDb} {account : AccountName} {name : AuthorityName}

theorem replaces_self (auth : Types.Authority) : Replaces auth auth where
  threshold := rfl
  keys := rfl
  accounts := rfl
  otherKey key hother signed weight := by
    unfold addKeys
    refine List.foldl_ext _ _ _ fun w k hk => ?_
    simp [hother k hk]
  otherAccount a ha := ⟨a, ha, rfl⟩

theorem replaces_iff {stored new : Types.Authority} : Replaces stored new ↔ stored = new := by
  refine ⟨fun h => ?_, fun h => h ▸ replaces_self _⟩
  rw [Types.Authority.mk.injEq]
  exact ⟨h.threshold, h.keys, h.accounts⟩

/-- One update, read back. -/
theorem find?_modifyAuthorityObject {obj : AuthorityObject} (newAuth : Types.Authority) (t : ℕ)
    (row : db.authorities.find? (account, name) = some obj) :
    (modifyAuthorityObject db account name newAuth t).authorities.find? (account, name) =
      some { obj with authoritys := mappedAssign obj.authoritys newAuth, lastUpdated := t } := by
  simp [modifyAuthorityObject, row]

/-- A run of updates piles up what they bring. -/
theorem find?_modifyAuthorityObjects :
    ∀ (updates : List (Types.Authority × ℕ)) {db : AuthDb} {obj : AuthorityObject},
      db.authorities.find? (account, name) = some obj →
      ∃ stored, (modifyAuthorityObjects db account name updates).authorities.find? (account, name)
          = some stored ∧
        stored.authoritys.keys = obj.authoritys.keys ++ updates.flatMap (·.1.keys) ∧
        stored.authoritys.accounts = obj.authoritys.accounts ++ updates.flatMap (·.1.accounts)
  | [], _, obj, row => ⟨obj, row, by simp, by simp⟩
  | u :: updates, _, obj, row => by
    obtain ⟨stored, hstored, hkeys, haccounts⟩ :=
      find?_modifyAuthorityObjects updates (find?_modifyAuthorityObject u.1 u.2 row)
    refine ⟨stored, hstored, ?_, ?_⟩
    · simp [hkeys, mappedAssign]
    · simp [haccounts, mappedAssign]

end Stored

/-- After any number of updates the last one has replaced the authority just if there was nothing to
replace, in the row and in the updates before it; a new row is exactly what it is given. -/
theorem modifyAuthorityObject_replaces_iff (db : AuthDb) (account : AccountName)
    (name : AuthorityName) (obj : AuthorityObject)
    (row : db.authorities.find? (account, name) = some obj)
    (earlier : List (Types.Authority × ℕ)) (newAuth : Types.Authority) (t : ℕ) :
    ((∃ stored, (modifyAuthorityObject (modifyAuthorityObjects db account name earlier) account name
          newAuth t).authorities.find? (account, name) = some stored ∧
        Replaces stored.authoritys newAuth) ↔
      (obj.authoritys.keys = [] ∧ obj.authoritys.accounts = []) ∧
        ∀ u ∈ earlier, u.1.keys = [] ∧ u.1.accounts = []) ∧
    ∀ db' owner other parent auth, newAuthorityObject db owner other parent auth t = .ok db' →
      ∃ stored, db'.authorities.find? (owner, other) = some stored ∧
        Replaces stored.authoritys auth := by
  refine ⟨?_, fun db' owner other parent auth h => ?_⟩
  · obtain ⟨before, hbefore, hkeys, haccounts⟩ := find?_modifyAuthorityObjects earlier row
    have hstored : Replaces (mappedAssign before.authoritys newAuth) newAuth ↔
        before.authoritys.keys = [] ∧ before.authoritys.accounts = [] := by
      rw [replaces_iff, mappedAssign]
      rcases newAuth with ⟨threshold, keys, accounts⟩
      simp
    simp only [find?_modifyAuthorityObject newAuth t hbefore, Option.some.injEq, exists_eq_left']
    rw [hstored, hkeys, haccounts]
    simp only [List.append_eq_nil_iff, List.flatMap_eq_nil_iff]
    exact ⟨fun h => ⟨⟨h.1.1, h.2.1⟩, fun u hu => ⟨h.1.2 u hu, h.2.2 u hu⟩⟩,
      fun h => ⟨⟨h.1.1, fun u hu => (h.2 u hu).1⟩, h.1.2, fun u hu => (h.2 u hu).2⟩⟩
  · simp only [newAuthorityObject, bind_eq_ok, dbCreate_eq_ok] at h
    obtain ⟨authorities, hcreate, h⟩ := h
    cases h
    refine ⟨_, by rw [(Table.create?_eq_some hcreate).2, if_pos rfl], replaces_iff.2 ?_⟩
    simp [mappedAssign]

/-- Account 5 with an authority 77 that one key alone satisfies. -/
def oneKeyDb : AuthDb where
  authorities := .ofList [((5, 77), ⟨1, 0, ⟨1, [⟨31, 1⟩], []⟩, 0⟩)]
  nextAuthority := 2

/-- The same with an authority that has no entries. -/
def noKeyDb : AuthDb where
  authorities := .ofList [((5, 77), ⟨1, 0, ⟨1, [], []⟩, 0⟩)]
  nextAuthority := 2

theorem modifyAuthorityObject_replaces_no_key :
    ∃ stored, (modifyAuthorityObject (modifyAuthorityObjects noKeyDb 5 77 []) 5 77
        ⟨1, [⟨32, 1⟩], []⟩ 9).authorities.find? (5, 77) = some stored ∧
      Replaces stored.authoritys ⟨1, [⟨32, 1⟩], []⟩ :=
  (modifyAuthorityObject_replaces_iff noKeyDb 5 77 ⟨1, 0, ⟨1, [], []⟩, 0⟩ rfl [] ⟨1, [⟨32, 1⟩], []⟩ 9).1.2
    ⟨⟨rfl, rfl⟩, by simp⟩

/-- A key that is replaced by another keeps its weight and still satisfies the authority. -/
theorem replaced_key_still_counts :
    ∃ (db : AuthDb) (newAuth : Types.Authority),
      (∃ obj, db.authorities.find? (5, 77) = some obj) ∧ (∀ k ∈ newAuth.keys, k.key ≠ 31) ∧
      (¬ ∃ stored, (modifyAuthorityObject db 5 77 newAuth 9).authorities.find? (5, 77) = some stored ∧
        Replaces stored.authoritys newAuth) ∧
      checkDeclared (modifyAuthorityObject db 5 77 newAuth 9) [31] [] ⟨5, 77⟩ = .ok [] := by
  refine ⟨oneKeyDb, ⟨1, [⟨32, 1⟩], []⟩, ⟨_, rfl⟩, by simp, ?_, by decide⟩
  rintro ⟨stored, hstored, hreplaces⟩
  cases hstored
  exact absurd hreplaces.keys (by decide)

end XmaxChain
