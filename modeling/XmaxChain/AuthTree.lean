import XmaxChain.AuthorityRows
import XmaxChain.Escapes
import XmaxChain.Staking

/-!
# The tree of an account's authorities

An account gets an `owner` and below it an `active` authority; more are added below those that are there.
The handlers name a parent by its id, and an id is never given again, so parents are older than what is
below them and the way up ends at the `owner`. Two handlers do not keep to this: `deleteauth` takes an
authority away from under its children, and `linkauth` looks for an authority whose *account* has the name
that is required.
-/

namespace XmaxChain

/-! ## The handlers -/

namespace Types

structure UpdateAuth where
  account : AccountName
  permission : AuthorityName
  parent : AuthorityName
  newAuthority : Authority
deriving DecidableEq, Repr

structure DeleteAuth where
  account : AccountName
  permission : AuthorityName
deriving DecidableEq, Repr

structure LinkAuth where
  account : AccountName
  code : AccountName
  type : FuncName
  requirement : AuthorityName
deriving DecidableEq, Repr

structure UnlinkAuth where
  account : AccountName
  code : AccountName
  type : FuncName
deriving DecidableEq, Repr

end Types

/-- The name does not start with the four letters of the contract's. -/
def checkAuthorityName (name : AuthorityName) : Bool := name / 2 ^ 104 ≠ xmaxContractName / 2 ^ 104

section Handlers

variable (ctx : MessageContext) (db : AuthDb)

def accountAssert (account : AccountName) : Except Fault Unit :=
  fcAssert (db.accounts.find? account).isSome "Account not found"

def findAuthorityObject (auth : AccountAuth) : Except Fault (Option AuthorityObject) :=
  captureRethrow do
    fcAssert (auth.account ≠ 0 && auth.authority ≠ 0) "Invalid authority"
    pure (db.authorities.find? auth.key)

def validatePermission (a : Types.AccountWeight) : Except Fault Unit := do
  fcAssert (db.accounts.find? a.permission.account).isSome "account does not exist"
  if a.permission.authority = xmaxOwnerName ∨ a.permission.authority = xmaxActiveName then pure ()
  else match getAuthorityObject db a.permission with
    | .ok _ => pure ()
    | .error _ => .error (.fc "permission does not exist")

def validateAuthority (auth : Types.Authority) : Except Fault Unit :=
  auth.accounts.forM (validatePermission db)

/-- Which authority may have a parent: all but the owner's, and the active one only the owner's. -/
def checkParentName (permission parent : AuthorityName) : Except Fault Unit := do
  if permission = xmaxOwnerName then
    fcAssert (parent = 0) "Owner authority's parent must be empty"
  else
    fcAssert (parent ≠ 0) "Only owner authority's parent can be empty"
  if permission = xmaxActiveName then
    fcAssert (parent = xmaxOwnerName) "Active authority's parent must be owner"

def parentIdOf (account : AccountName) (permission parent : AuthorityName) : Except Fault ℕ :=
  if permission = xmaxOwnerName then .ok 0
  else do
    let auth ← getAuthorityObject db ⟨account, parent⟩
    pure auth.id

/-- The row that is there is updated, or a new one made. -/
def storeAuthority (t : ℕ) (msg : Types.UpdateAuth) (parentId : ℕ) :
    Option AuthorityObject → Except Fault AuthDb
  | some old => do
    fcAssert (parentId = old.parent) "Changing parent authority is not supported"
    pure (modifyAuthorityObject db msg.account msg.permission msg.newAuthority t)
  | none => newAuthorityObject db msg.account msg.permission parentId msg.newAuthority t

/-- `t` is the time of the block being built. -/
def xmaxSystemUpdateauth (t : ℕ) (msg : Types.UpdateAuth) : Except Fault AuthDb := do
  requireAuthorization ctx msg.account
  fcAssert (msg.permission ≠ 0) "Cannot create authority with empty name"
  fcAssert (checkAuthorityName msg.permission) "Permission names cannot be started with 'xmax'"
  fcAssert (msg.permission ≠ msg.parent) "Cannot set an authority as its own parent"
  accountAssert db msg.account
  fcAssert (validateWeightFormat msg.newAuthority) "Invalid authority"
  checkParentName msg.permission msg.parent
  validateAuthority db msg.newAuthority
  let oldAuth ← findAuthorityObject db ⟨msg.account, msg.permission⟩
  let parentId ← parentIdOf db msg.account msg.permission msg.parent
  storeAuthority db t msg parentId oldAuth

def removeAuthorityObject (account : AccountName) (name : AuthorityName) : AuthDb :=
  { db with authorities := db.authorities.remove (account, name) }

/-- Nothing is removed: a linked authority is refused. -/
def removeLinkedObject (account : AccountName) (auth : AuthorityName) : Except Fault Unit :=
  fcAssert (db.links.rows.all fun r => ¬ (r.1.1 = account ∧ r.2 = auth))
    "Cannot delete a linked authority. Please Unlink it first."

def xmaxSystemDeleteauth (msg : Types.DeleteAuth) : Except Fault AuthDb := do
  requireAuthorization ctx msg.account
  fcAssert (msg.permission ≠ xmaxActiveName) "Cannot delete active authority"
  fcAssert (msg.permission ≠ xmaxOwnerName) "Cannot delete owner authority"
  removeLinkedObject db msg.account msg.permission
  let _ ← getAuthorityObject db ⟨msg.account, msg.permission⟩
  pure (removeAuthorityObject db msg.account msg.permission)

/-- Looking up `by_owner` or `by_name` with one name compares the first part of the key alone, the name
of the account. -/
def ownsAuthority (account : AccountName) : Bool := db.authorities.rows.any (·.1.1 = account)

def checkRequirement (type : FuncName) (requirement : AuthorityName) : Except Fault Unit := do
  if type ≠ .other xmaxSysanyName then
    fcAssert (ownsAuthority db requirement) "Failed to retrieve authority"
  fcAssert (ownsAuthority db requirement) "Auth not found"

/-- The link that is there is changed, or a new one made. -/
def storeLink (key : AccountName × AccountName × FuncName) (requirement : AuthorityName) :
    Option AuthorityName → Except Fault AuthDb
  | some linked => do
    fcAssert (linked ≠ requirement) "Auth used"
    pure { db with links := db.links.modify key fun _ => requirement }
  | none => do
    let links ← dbCreate db.links key requirement
    pure { db with links }

def xmaxSystemLinkauth (msg : Types.LinkAuth) : Except Fault AuthDb :=
  captureRethrow do
    fcAssert (msg.requirement ≠ 0) "Required authority name cannot be empty"
    requireAuthorization ctx msg.account
    accountAssert db msg.account
    accountAssert db msg.code
    checkRequirement db msg.type msg.requirement
    let key := (msg.account, msg.code, msg.type)
    storeLink db key msg.requirement (db.links.find? key)

def xmaxSystemUnlinkauth (msg : Types.UnlinkAuth) : Except Fault AuthDb := do
  requireAuthorization ctx msg.account
  fcAssert (db.links.find? (msg.account, msg.code, msg.type)).isSome "Linked permission not found"
  pure { db with links := db.links.remove (msg.account, msg.code, msg.type) }

end Handlers

/-- A call of one of the five handlers, with what it is given. -/
inductive AuthCall
  | addaccount (ctx : MessageContext)
  | updateauth (ctx : MessageContext) (t : ℕ) (msg : Types.UpdateAuth)
  | deleteauth (ctx : MessageContext) (msg : Types.DeleteAuth)
  | linkauth (ctx : MessageContext) (msg : Types.LinkAuth)
  | unlinkauth (ctx : MessageContext) (msg : Types.UnlinkAuth)

def AuthCall.run (env : Env) (db : AuthDb) : AuthCall → Except Fault AuthDb
  | .addaccount ctx => DbState.db <$> xmaxSystemAddaccount env ctx ⟨db, []⟩
  | .updateauth ctx t msg => xmaxSystemUpdateauth ctx db t msg
  | .deleteauth ctx msg => xmaxSystemDeleteauth ctx db msg
  | .linkauth ctx msg => xmaxSystemLinkauth ctx db msg
  | .unlinkauth ctx msg => xmaxSystemUnlinkauth ctx db msg

/-- The databases that successful calls lead to from one without authorities, each call allowed where it
is made. Other handlers may write the rest of the ledger in between. -/
inductive AuthRun (env : Env) (Allowed : AuthCall → AuthDb → Prop) : AuthDb → Prop
  | start {db : AuthDb} (authorities : db.authorities = .empty) (links : db.links = .empty) :
      AuthRun env Allowed db
  | call {db db' : AuthDb} {c : AuthCall} (before : AuthRun env Allowed db) (allowed : Allowed c db)
      (ran : c.run env db = .ok db') : AuthRun env Allowed db'
  | ledger {db : AuthDb} (l : Ledger) (before : AuthRun env Allowed db) :
      AuthRun env Allowed { db with toLedger := l }

/-! ## The tree -/

section Tree

variable (db : AuthDb) (account : AccountName)

/-- An authority other than `owner` has as its parent the authority of the account with that id. -/
def IsParent (parent name : AuthorityName) : Prop :=
  name ≠ xmaxOwnerName ∧ ∃ above obj, db.authorities.find? (account, parent) = some above ∧
    db.authorities.find? (account, name) = some obj ∧ above.id = obj.parent

def ProperAncestor : AuthorityName → AuthorityName → Prop := Relation.TransGen (IsParent db account)

/-- Every authority other than `owner` has an existing one of its account as its parent. -/
def ParentsExist : Prop :=
  ∀ account name obj, db.authorities.find? (account, name) = some obj → name ≠ xmaxOwnerName →
    ∃ parent, IsParent db account parent name

/-- From every authority the parents lead up to the account's `owner`. -/
def OwnersReached : Prop :=
  ∀ account name obj, db.authorities.find? (account, name) = some obj →
    (db.authorities.find? (account, xmaxOwnerName)).isSome ∧
      Relation.ReflTransGen (IsParent db account) xmaxOwnerName name

/-- Every link names an existing authority of its account. -/
def LinksExist : Prop :=
  ∀ account code type required, db.links.find? (account, code, type) = some required →
    (db.authorities.find? (account, required)).isSome

/-- The check of two authorities returns, and tells whether the first is above the second. -/
def ValidExact (editor info : AccountName × AuthorityName) (e i : AuthorityObject) : Prop :=
  ∃ b, parentPermissionValid db editor.1 info.1 e i = .ok b ∧
    (b = true ↔ editor.1 = info.1 ∧ ProperAncestor db info.1 editor.2 info.2)

end Tree

/-- A deletion of an authority that is no other's parent, a link to an authority that the account has,
or any other call. -/
def AuthCall.Careful : AuthCall → AuthDb → Prop
  | .deleteauth _ msg, db => ∀ name, ¬ IsParent db msg.account msg.permission name
  | .linkauth _ msg, db => (db.authorities.find? (msg.account, msg.requirement)).isSome
  | _, _ => True

/-- What keeps the trees: ids are new, and every authority is younger than its parent. -/
structure TreeOk (db : AuthDb) : Prop where
  ids : ∀ k obj, db.authorities.find? k = some obj → obj.id < db.nextAuthority
  inj : ∀ k k' obj obj', db.authorities.find? k = some obj → db.authorities.find? k' = some obj' →
    obj.id = obj'.id → k = k'
  root : ∀ account obj, db.authorities.find? (account, xmaxOwnerName) = some obj → obj.parent = 0
  parent : ∀ account name obj, db.authorities.find? (account, name) = some obj →
    name ≠ xmaxOwnerName → ∃ parent above, db.authorities.find? (account, parent) = some above ∧
      above.id = obj.parent ∧ above.id < obj.id
  links : LinksExist db

/-! ## What the tree gives -/

section TreeOk

variable {db : AuthDb} {account : AccountName} {name e : AuthorityName} {obj eobj : AuthorityObject}

theorem TreeOk.findById (h : TreeOk db) {k : AccountName × AuthorityName}
    (row : db.authorities.find? k = some obj) : findById db obj.id = some obj := by
  have hmem := Table.mem_rows_of_find? row
  obtain ⟨r, hr⟩ : ∃ r, db.authorities.rows.find? (·.2.id = obj.id) = some r :=
    Option.isSome_iff_exists.1 (List.find?_isSome.2 ⟨_, hmem, by simp⟩)
  have hid : r.2.id = obj.id := by simpa using List.find?_some hr
  have hrow := Table.find?_of_mem_rows (List.mem_of_find?_eq_some hr)
  obtain rfl : r.1 = k := h.inj _ _ _ _ hrow row hid
  rw [row] at hrow
  rw [XmaxChain.findById, hr, Option.map_some, Option.some.inj hrow]

theorem TreeOk.owner_of_zero (h : TreeOk db) (row : db.authorities.find? (account, name) = some obj)
    (hzero : obj.id = 0) : name = xmaxOwnerName := by
  by_contra hname
  obtain ⟨_, above, _, _, hlt⟩ := h.parent _ _ _ row hname
  omega

theorem not_properAncestor_owner : ¬ ProperAncestor db account e xmaxOwnerName := by
  intro hanc
  obtain ⟨_, _, hne, _⟩ := Relation.TransGen.tail'_iff.1 hanc
  exact hne rfl

/-- The authorities above one are its parent and those above that. -/
theorem TreeOk.properAncestor_iff (h : TreeOk db)
    (row : db.authorities.find? (account, name) = some obj) (hname : name ≠ xmaxOwnerName)
    {parent : AuthorityName} {above : AuthorityObject}
    (habove : db.authorities.find? (account, parent) = some above) (hid : above.id = obj.parent) :
    ProperAncestor db account e name ↔ e = parent ∨ ProperAncestor db account e parent := by
  have hparent : ∀ q, IsParent db account q name ↔ q = parent := fun q => by
    constructor
    · rintro ⟨-, other, obj', hother, row', hid'⟩
      obtain rfl : obj = obj' := Option.some.inj (row.symm.trans row')
      exact congrArg Prod.snd (h.inj _ _ _ _ hother habove (hid'.trans hid.symm))
    · rintro rfl
      exact ⟨hname, above, obj, habove, row, hid⟩
  rw [ProperAncestor, Relation.TransGen.tail'_iff]
  simp only [hparent, exists_eq_right, Relation.reflTransGen_iff_eq_or_transGen, @eq_comm _ parent]

/-- What the walk comes to from an authority that is not the one looked for. -/
theorem TreeOk.parentWalk_iff (h : TreeOk db) (editor : db.authorities.find? (account, e) = some eobj) :
    ∀ {fuel : ℕ} {name : AuthorityName} {obj : AuthorityObject} {b : Bool},
      db.authorities.find? (account, name) = some obj → obj.id ≠ eobj.id →
      parentWalk db eobj.id fuel obj.id = .ok b → (b = true ↔ ProperAncestor db account e name)
  | 0, _, _, _, _, _, hw => by cases hw
  | fuel + 1, name, obj, b, row, hne, hw => by
    rw [parentWalk, h.findById row] at hw
    dsimp only at hw
    by_cases hname : name = xmaxOwnerName
    · -- above the owner there is nothing, and its parent is no id that is looked for
      subst hname
      have hroot := h.root _ _ row
      have hzero : eobj.id ≠ 0 := fun hzero => by
        obtain rfl := h.owner_of_zero editor hzero
        exact hne (by rw [Option.some.inj (row.symm.trans editor)])
      rw [hroot, if_neg (Ne.symm hzero), if_pos rfl] at hw
      cases hw
      exact iff_of_false Bool.false_ne_true not_properAncestor_owner
    · obtain ⟨parent, above, habove, hid, -⟩ := h.parent _ _ _ row hname
      rw [h.properAncestor_iff row hname habove hid]
      have heq : e = parent ↔ obj.parent = eobj.id := by
        rw [← hid]
        constructor
        · rintro rfl
          rw [Option.some.inj (habove.symm.trans editor)]
        · exact fun hids => congrArg Prod.snd (h.inj _ _ _ _ editor habove hids.symm)
      rw [heq]
      split_ifs at hw with hup hzero
      · cases hw
        simp [hup]
      · cases hw
        obtain rfl := h.owner_of_zero habove (hid.trans hzero)
        simp [hup, not_properAncestor_owner]
      · rw [← hid] at hw
        rw [h.parentWalk_iff editor habove (hid ▸ hup) hw]
        simp [hup]

theorem parentWalk_error {editor fuel parent : ℕ} {f : Fault}
    (hw : parentWalk db editor fuel parent = .error f) : f = .diverged := by
  induction fuel generalizing parent with
  | zero => cases hw; rfl
  | succ fuel ih =>
    unfold parentWalk at hw
    split at hw
    · cases hw
    · split_ifs at hw
      exact ih hw

theorem TreeOk.parentWalk_returns (h : TreeOk db) (editor parent : ℕ) :
    ∃ b, parentWalk db editor (db.authorities.rows.length + 1) parent = .ok b := by
  have hfc : Throws Fault.isFc (parentWalk db editor (db.authorities.rows.length + 1) parent) := by
    refine parentWalk_fc (fun k obj row => ?_) (Nat.lt_succ_of_le List.countP_le_length)
    by_cases hname : k.2 = xmaxOwnerName
    · exact .inl (h.root k.1 obj (hname ▸ row))
    · obtain ⟨-, above, -, hid, hlt⟩ := h.parent k.1 k.2 obj row hname
      exact .inr (hid ▸ hlt)
  rcases hw : parentWalk db editor (db.authorities.rows.length + 1) parent with f | b
  · rw [parentWalk_error hw] at hw
    cases hfc _ hw
  · exact ⟨b, rfl⟩

/-- The check is exact for all authorities but the one with id 0, which it says to be above itself. -/
theorem TreeOk.validExact_iff (h : TreeOk db) {editor info : AccountName × AuthorityName}
    {i : AuthorityObject} (erow : db.authorities.find? editor = some eobj)
    (irow : db.authorities.find? info = some i) :
    ValidExact db editor info eobj i ↔ ¬ (eobj.id = 0 ∧ i.id = 0) := by
  obtain ⟨account, e⟩ := editor
  obtain ⟨account', name⟩ := info
  unfold ValidExact parentPermissionValid
  dsimp only
  by_cases hacc : account = account'
  swap
  · refine iff_of_true ⟨false, by simp [hacc]⟩ fun hzero => hacc ?_
    exact congrArg Prod.fst (h.inj _ _ _ _ erow irow (hzero.1.trans hzero.2.symm))
  subst hacc
  rw [if_neg (not_not.2 rfl)]
  by_cases hname : name = xmaxOwnerName
  · subst hname
    have hroot := h.root _ _ irow
    by_cases hzero : eobj.id = 0
    · -- the owner itself, which the check takes for its own parent
      obtain rfl := h.owner_of_zero erow hzero
      obtain rfl : eobj = i := Option.some.inj (erow.symm.trans irow)
      simp [hroot, hzero, not_properAncestor_owner]
    · rw [if_neg (hroot ▸ hzero), hroot]
      refine iff_of_true ⟨false, ?_, by simp [not_properAncestor_owner]⟩ fun h => hzero h.1
      unfold parentWalk
      cases hfind : XmaxChain.findById db 0 with
      | none => rfl
      | some z =>
        obtain ⟨r, hr, rfl⟩ := Option.map_eq_some_iff.1 hfind
        have hid : r.2.id = 0 := by simpa using List.find?_some hr
        have hrow := Table.find?_of_mem_rows (List.mem_of_find?_eq_some hr)
        have howner : r.1.2 = xmaxOwnerName := h.owner_of_zero hrow hid
        have hz : r.2.parent = 0 := h.root r.1.1 _ (howner ▸ hrow)
        simp [hz, Ne.symm hzero]
  · obtain ⟨parent, above, habove, hid, hlt⟩ := h.parent _ _ _ irow hname
    have hpos : ¬ (eobj.id = 0 ∧ i.id = 0) := by omega
    refine iff_of_true ?_ hpos
    split_ifs with hup
    · have heq : e = parent := congrArg Prod.snd (h.inj _ _ _ _ erow habove (hup.trans hid.symm))
      exact ⟨true, rfl, by simp [h.properAncestor_iff irow hname habove hid, heq]⟩
    · obtain ⟨b, hw⟩ := h.parentWalk_returns eobj.id i.parent
      refine ⟨b, hw, ?_⟩
      rw [← hid] at hw hup
      have hne : e ≠ parent := by
        rintro rfl
        exact hup (by rw [Option.some.inj (habove.symm.trans erow)])
      simp [h.parentWalk_iff erow habove (Ne.symm hup) hw,
        h.properAncestor_iff irow hname habove hid, hne]

theorem TreeOk.parentsExist (h : TreeOk db) : ParentsExist db := fun account name obj row hname => by
  obtain ⟨parent, above, habove, hid, -⟩ := h.parent _ _ _ row hname
  exact ⟨parent, hname, above, obj, habove, row, hid⟩

theorem TreeOk.ownersReached (h : TreeOk db) (account : AccountName) (name : AuthorityName)
    (obj : AuthorityObject) (row : db.authorities.find? (account, name) = some obj) :
    (db.authorities.find? (account, xmaxOwnerName)).isSome ∧
      Relation.ReflTransGen (IsParent db account) xmaxOwnerName name := by
  by_cases hname : name = xmaxOwnerName
  · subst hname
    exact ⟨by simp [row], .refl⟩
  · obtain ⟨parent, above, habove, hid, hlt⟩ := h.parent _ _ _ row hname
    obtain ⟨howner, hway⟩ := h.ownersReached account parent above habove
    exact ⟨howner, hway.tail ⟨hname, above, obj, habove, row, hid⟩⟩
termination_by obj.id

end TreeOk

/-! ## What the handlers keep -/

section Keeps

variable {db db' : AuthDb} {account : AccountName} {name : AuthorityName}

theorem TreeOk.start (authorities : db.authorities = .empty) (links : db.links = .empty) :
    TreeOk db := by
  constructor <;> simp [authorities, links, LinksExist]

theorem TreeOk.congr (h : TreeOk db)
    (rows : ∀ k, (db'.authorities.find? k).map (fun o => (o.id, o.parent)) =
      (db.authorities.find? k).map fun o => (o.id, o.parent))
    (next : db'.nextAuthority = db.nextAuthority) (links : db'.links = db.links) : TreeOk db' := by
  have old : ∀ {k obj}, db'.authorities.find? k = some obj →
      ∃ o, db.authorities.find? k = some o ∧ o.id = obj.id ∧ o.parent = obj.parent := by
    intro k obj row
    have := rows k
    rw [row, Option.map_some, eq_comm, Option.map_eq_some_iff] at this
    simpa using this
  have new : ∀ {k o}, db.authorities.find? k = some o →
      ∃ obj, db'.authorities.find? k = some obj ∧ obj.id = o.id ∧ obj.parent = o.parent := by
    intro k o row
    have := rows k
    rw [row, Option.map_some, Option.map_eq_some_iff] at this
    simpa using this
  refine ⟨fun k obj row => ?_, fun k k' obj obj' row row' hid => ?_, fun a obj row => ?_,
    fun a n obj row hn => ?_, fun a code type required hlink => ?_⟩
  · obtain ⟨o, ho, hid, -⟩ := old row
    rw [next, ← hid]
    exact h.ids k o ho
  · obtain ⟨o, ho, ho', -⟩ := old row
    obtain ⟨u, hu, hu', -⟩ := old row'
    exact h.inj k k' o u ho hu (by rw [ho', hu', hid])
  · obtain ⟨o, ho, -, hp⟩ := old row
    exact hp ▸ h.root a o ho
  · obtain ⟨o, ho, hid, hp⟩ := old row
    obtain ⟨parent, above, habove, habid, hlt⟩ := h.parent a n o ho hn
    obtain ⟨u, hu, huid, -⟩ := new habove
    exact ⟨parent, u, hu, by omega, by omega⟩
  · obtain ⟨o, ho⟩ := Option.isSome_iff_exists.1 (h.links a code type required (links ▸ hlink))
    obtain ⟨u, hu, -⟩ := new ho
    simp [hu]

theorem TreeOk.modify (h : TreeOk db) (newAuth : Types.Authority) (t : ℕ) :
    TreeOk (modifyAuthorityObject db account name newAuth t) := by
  refine h.congr (fun k => ?_) rfl rfl
  rw [modifyAuthorityObject, Table.find?_modify, Option.map_map]
  congr 1
  funext o
  simp only [Function.comp_apply]
  split_ifs <;> rfl

/-- A new row, with the id that comes next. -/
theorem newAuthorityObject_eq_ok {parent t : ℕ} {auth : Types.Authority}
    (h : newAuthorityObject db account name parent auth t = .ok db') :
    db.authorities.find? (account, name) = none ∧ db'.nextAuthority = db.nextAuthority + 1 ∧
      db'.links = db.links ∧ ∃ obj, obj.id = db.nextAuthority ∧ obj.parent = parent ∧
        ∀ k, db'.authorities.find? k =
          if k = (account, name) then some obj else db.authorities.find? k := by
  simp only [newAuthorityObject, bind_eq_ok, dbCreate_eq_ok] at h
  obtain ⟨authorities, hcreate, h⟩ := h
  cases h
  obtain ⟨hnone, hrows⟩ := Table.create?_eq_some hcreate
  exact ⟨hnone, rfl, rfl, _, rfl, rfl, hrows⟩

/-- A parent that a new authority may have. -/
def ParentFor (db : AuthDb) (account : AccountName) (name : AuthorityName) (parent : ℕ) : Prop :=
  if name = xmaxOwnerName then parent = 0
  else ∃ p above, db.authorities.find? (account, p) = some above ∧ above.id = parent

theorem TreeOk.create (h : TreeOk db) {parent t : ℕ} {auth : Types.Authority}
    (hparent : ParentFor db account name parent)
    (hnew : newAuthorityObject db account name parent auth t = .ok db') : TreeOk db' := by
  obtain ⟨hnone, hnext, hlinks, obj, hid, hup, hrows⟩ := newAuthorityObject_eq_ok hnew
  have kept : ∀ {k o}, db.authorities.find? k = some o → db'.authorities.find? k = some o := by
    intro k o row
    rw [hrows, if_neg, row]
    rintro rfl
    rw [hnone] at row
    cases row
  have cases : ∀ {k o}, db'.authorities.find? k = some o →
      k = (account, name) ∧ o = obj ∨ db.authorities.find? k = some o := by
    intro k o row
    rw [hrows] at row
    split_ifs at row with hk
    · exact .inl ⟨hk, (Option.some.inj row).symm⟩
    · exact .inr row
  refine ⟨fun k o row => ?_, fun k k' o o' row row' hids => ?_, fun a o row => ?_,
    fun a n o row hn => ?_, fun a code type required hlink => ?_⟩
  · rcases cases row with ⟨-, rfl⟩ | row
    · omega
    · exact hnext ▸ Nat.lt_succ_of_lt (h.ids k o row)
  · rcases cases row with ⟨rfl, rfl⟩ | row <;> rcases cases row' with ⟨rfl, rfl⟩ | row'
    · rfl
    · exact absurd (h.ids _ _ row') (by omega)
    · exact absurd (h.ids _ _ row) (by omega)
    · exact h.inj k k' o o' row row' hids
  · rcases cases row with ⟨hk, rfl⟩ | row
    · rw [ParentFor, if_pos (congrArg Prod.snd hk).symm] at hparent
      rw [hup, hparent]
    · exact h.root a o row
  · rcases cases row with ⟨hk, rfl⟩ | row
    · obtain ⟨rfl, rfl⟩ := Prod.mk.inj hk
      rw [ParentFor, if_neg hn] at hparent
      obtain ⟨p, above, habove, rfl⟩ := hparent
      exact ⟨p, above, kept habove, hup.symm, hid ▸ h.ids _ _ habove⟩
    · obtain ⟨p, above, habove, hp⟩ := h.parent a n o row hn
      exact ⟨p, above, kept habove, hp⟩
  · obtain ⟨o, ho⟩ := Option.isSome_iff_exists.1 (h.links a code type required (hlinks ▸ hlink))
    simp [kept ho]

/-- An authority that is no other's parent and that no link names may go. -/
theorem TreeOk.remove (h : TreeOk db) (childless : ∀ n, ¬ IsParent db account name n)
    (unlinked : ∀ code type, db.links.find? (account, code, type) ≠ some name) :
    TreeOk (removeAuthorityObject db account name) := by
  have rows : ∀ {k o}, (removeAuthorityObject db account name).authorities.find? k = some o ↔
      k ≠ (account, name) ∧ db.authorities.find? k = some o := by
    intro k o
    rw [removeAuthorityObject, Table.find?_remove]
    split_ifs with hk <;> simp [hk]
  refine ⟨fun k o row => h.ids k o (rows.1 row).2, fun k k' o o' row row' =>
    h.inj k k' o o' (rows.1 row).2 (rows.1 row').2, fun a o row => h.root a o (rows.1 row).2,
    fun a n o row hn => ?_, fun a code type required hlink => ?_⟩
  · obtain ⟨p, above, habove, hid, hlt⟩ := h.parent a n o (rows.1 row).2 hn
    refine ⟨p, above, rows.2 ⟨fun heq => ?_, habove⟩, hid, hlt⟩
    obtain ⟨rfl, rfl⟩ := Prod.mk.inj heq
    exact childless n ⟨hn, above, o, habove, (rows.1 row).2, hid⟩
  · obtain ⟨o, ho⟩ := Option.isSome_iff_exists.1 (h.links a code type required hlink)
    refine Option.isSome_iff_exists.2 ⟨o, rows.2 ⟨fun heq => ?_, ho⟩⟩
    obtain ⟨rfl, rfl⟩ := Prod.mk.inj heq
    exact unlinked code type hlink

/-- Links may change as long as each names an authority of its account. -/
theorem TreeOk.withLinks (h : TreeOk db) {links : Table (AccountName × AccountName × FuncName) AuthorityName}
    (hlinks : ∀ account code type required, links.find? (account, code, type) = some required →
      db.links.find? (account, code, type) = some required ∨
        (db.authorities.find? (account, required)).isSome) : TreeOk { db with links } where
  ids := h.ids
  inj := h.inj
  root := h.root
  parent := h.parent
  links account code type required hlink :=
    (hlinks account code type required hlink).elim (h.links account code type required) id

end Keeps

section Calls

variable {env : Env} {ctx : MessageContext} {db db' : AuthDb}

/-- `updateauth` writes an authority that is there, or makes one below one that is there. -/
theorem updateauth_cases {t : ℕ} {msg : Types.UpdateAuth}
    (h : xmaxSystemUpdateauth ctx db t msg = .ok db') :
    db' = modifyAuthorityObject db msg.account msg.permission msg.newAuthority t ∨
      ∃ parent, ParentFor db msg.account msg.permission parent ∧
        newAuthorityObject db msg.account msg.permission parent msg.newAuthority t = .ok db' := by
  simp only [xmaxSystemUpdateauth, bind_eq_ok] at h
  obtain ⟨_, -, _, -, _, -, _, -, _, -, _, -, _, -, _, -, old, -, parent, hparent, h⟩ := h
  rcases old with _ | old
  · refine .inr ⟨parent, ?_, h⟩
    unfold parentIdOf at hparent
    unfold ParentFor
    split_ifs at hparent ⊢ with hname
    · exact (Except.ok.inj hparent).symm
    · obtain ⟨above, habove, hid⟩ := bind_eq_ok.1 hparent
      exact ⟨msg.parent, above, getAuthorityObject_ok habove, Except.ok.inj hid⟩
  · obtain ⟨_, -, h⟩ := bind_eq_ok.1 h
    exact .inl (Except.ok.inj h).symm

theorem deleteauth_eq_ok {msg : Types.DeleteAuth} (h : xmaxSystemDeleteauth ctx db msg = .ok db') :
    db' = removeAuthorityObject db msg.account msg.permission ∧
      ∀ code type, db.links.find? (msg.account, code, type) ≠ some msg.permission := by
  simp only [xmaxSystemDeleteauth, removeLinkedObject, bind_eq_ok, fcAssert_eq_ok, List.all_eq_true,
    decide_eq_true_eq] at h
  obtain ⟨_, -, _, -, _, -, _, hlinks, _, -, h⟩ := h
  refine ⟨(Except.ok.inj h).symm, fun code type hlink => ?_⟩
  exact hlinks _ (Table.mem_rows_of_find? hlink) ⟨rfl, rfl⟩

theorem linkauth_eq_ok {msg : Types.LinkAuth} (h : xmaxSystemLinkauth ctx db msg = .ok db') :
    ∃ links, db' = { db with links } ∧ ∀ k, links.find? k =
      if k = (msg.account, msg.code, msg.type) then some msg.requirement else db.links.find? k := by
  simp only [xmaxSystemLinkauth, captureRethrow_eq_ok, bind_eq_ok] at h
  obtain ⟨_, -, _, -, _, -, _, -, _, -, h⟩ := h
  rcases hlinked : db.links.find? (msg.account, msg.code, msg.type) with _ | linked
  · rw [hlinked] at h
    obtain ⟨links, hcreate, h⟩ := bind_eq_ok.1 h
    exact ⟨links, (Except.ok.inj h).symm, (Table.create?_eq_some (dbCreate_eq_ok.1 hcreate)).2⟩
  · rw [hlinked] at h
    obtain ⟨_, -, h⟩ := bind_eq_ok.1 h
    refine ⟨_, (Except.ok.inj h).symm, fun k => ?_⟩
    rw [Table.find?_modify]
    split_ifs with hk
    · simp [hk, hlinked]
    · simp

theorem unlinkauth_eq_ok {msg : Types.UnlinkAuth} (h : xmaxSystemUnlinkauth ctx db msg = .ok db') :
    db' = { db with links := db.links.remove (msg.account, msg.code, msg.type) } := by
  simp only [xmaxSystemUnlinkauth, bind_eq_ok] at h
  obtain ⟨_, -, _, -, h⟩ := h
  exact (Except.ok.inj h).symm

/-- `addaccount` makes the two authorities of the new account. -/
theorem addaccount_eq_ok {s : DbState} {notified : List AccountName}
    (h : xmaxSystemAddaccount env ctx ⟨db, notified⟩ = .ok s) :
    ∃ (l : Ledger) (create : Types.AddAccount) (db₁ : AuthDb),
      newAuthorityObject { db with toLedger := l } create.name xmaxOwnerName 0 create.owner
        ctx.currentTime = .ok db₁ ∧
      newAuthorityObject db₁ create.name xmaxActiveName db.nextAuthority create.active
        ctx.currentTime = .ok s.db := by
  simp only [xmaxSystemAddaccount, bind_eq_ok] at h
  obtain ⟨create, -, l, -, db₁, h₁, db₂, h₂, h⟩ := h
  cases h
  exact ⟨l, create, db₁, h₁, h₂⟩

/-- Every careful call keeps the trees. -/
theorem TreeOk.run {c : AuthCall} (h : TreeOk db) (careful : c.Careful db)
    (ran : c.run env db = .ok db') : TreeOk db' := by
  rcases c with ctx | ⟨ctx, t, msg⟩ | ⟨ctx, msg⟩ | ⟨ctx, msg⟩ | ⟨ctx, msg⟩
  · obtain ⟨s, hs, rfl⟩ := map_eq_ok.1 ran
    obtain ⟨l, create, db₁, h₁, h₂⟩ := addaccount_eq_ok hs
    have hl : TreeOk { db with toLedger := l } := h.congr (fun _ => rfl) rfl rfl
    have hok₁ := hl.create (by rw [ParentFor, if_pos rfl]) h₁
    obtain ⟨-, -, -, obj, hid, -, hrows⟩ := newAuthorityObject_eq_ok h₁
    refine hok₁.create ?_ h₂
    rw [ParentFor, if_neg (by decide)]
    exact ⟨xmaxOwnerName, obj, by rw [hrows, if_pos rfl], hid⟩
  · rcases updateauth_cases ran with rfl | ⟨parent, hparent, hnew⟩
    · exact h.modify _ _
    · exact h.create hparent hnew
  · obtain ⟨rfl, hlinks⟩ := deleteauth_eq_ok ran
    exact h.remove careful hlinks
  · obtain ⟨links, rfl, hlinks⟩ := linkauth_eq_ok ran
    refine h.withLinks fun account code type required hlink => ?_
    rw [hlinks] at hlink
    split_ifs at hlink with hk
    · cases hk
      cases hlink
      exact .inr careful
    · exact .inl hlink
  · obtain rfl := unlinkauth_eq_ok ran
    refine h.withLinks fun account code type required hlink => .inl ?_
    rw [Table.find?_remove] at hlink
    split_ifs at hlink
    exact hlink

theorem AuthRun.treeOk (h : AuthRun env AuthCall.Careful db) : TreeOk db := by
  induction h with
  | start authorities links => exact .start authorities links
  | call before allowed ran ih => exact ih.run allowed ran
  | ledger l before ih => exact ih.congr (fun _ => rfl) rfl rfl

end Calls

/-- As long as no authority is deleted from under another and links name authorities of their account, the
authorities of every account are a tree with its `owner` on top, and whether one is above another is told
exactly, but for the authority with id 0. -/
theorem authority_trees {env : Env} {db : AuthDb} (h : AuthRun env AuthCall.Careful db) :
    ParentsExist db ∧ OwnersReached db ∧ LinksExist db ∧
      ∀ editor info e i, db.authorities.find? editor = some e → db.authorities.find? info = some i →
        (ValidExact db editor info e i ↔ ¬ (e.id = 0 ∧ i.id = 0)) :=
  have hok := h.treeOk
  ⟨hok.parentsExist, hok.ownersReached, hok.links, fun _ _ _ _ => hok.validExact_iff⟩

/-! ## Runs of five calls -/

/-- Reads `addaccount` as well, with one key for both authorities. -/
def accountCodec : Codec :=
  { fieldCodec with
    addaccount
      | [creator, name, key, n] => some ⟨creator, name, oneKey key, oneKey key, n⟩
      | _ => none }

def accountEnv : Env := ⟨accountCodec, idleVm⟩

/-- A message of one account alone. -/
def ownContext (account : AccountName) (type : FuncName) (data : Bytes) : MessageContext where
  trx := {}
  msg := ⟨xmaxContractName, type, [⟨account, xmaxActiveName⟩], data⟩
  code := xmaxContractName
  currentTime := 0

/-- The system account makes an account. -/
def newAccount (name : AccountName) : AuthCall :=
  .addaccount (ownContext xmaxContractName .addaccount [xmaxContractName, name, 31, 100])

/-- Account 5 makes an authority. -/
def newAuthority (name parent : AuthorityName) : AuthCall :=
  .updateauth (ownContext 5 .updateauth []) 0 ⟨5, name, parent, oneKey 32⟩

/-- Account 5 asks for an authority in transfers to itself. -/
def linkTransfer (requirement : AuthorityName) : AuthCall :=
  .linkauth (ownContext 5 .linkauth []) ⟨5, 5, .transfer, requirement⟩

def deleteAuthority (name : AuthorityName) : AuthCall :=
  .deleteauth (ownContext 5 .deleteauth []) ⟨5, name⟩

def runCalls (calls : List AuthCall) : Except Fault AuthDb :=
  calls.foldlM (AuthCall.run accountEnv) (preparedData 0)

theorem AuthRun.calls {env : Env} {Allowed : AuthCall → AuthDb → Prop} :
    ∀ {calls : List AuthCall} {db db' : AuthDb}, AuthRun env Allowed db →
      (∀ c ∈ calls, ∀ db, Allowed c db) → calls.foldlM (AuthCall.run env) db = .ok db' →
      AuthRun env Allowed db'
  | [], _, _, h, _, ran => by cases ran; exact h
  | c :: calls, db, _, h, allowed, ran => by
    rw [List.foldlM_cons] at ran
    obtain ⟨db₁, h₁, ran⟩ := bind_eq_ok.1 ran
    exact AuthRun.calls (.call h (allowed c List.mem_cons_self db) h₁)
      (fun c hc => allowed c (List.mem_cons_of_mem _ hc)) ran

/-- Account 5 makes an authority below its active one and links it; its active authority is above it. -/
theorem authority_trees_linked :
    ∃ db, AuthRun accountEnv AuthCall.Careful db ∧ db.links.find? (5, 5, .transfer) = some 77 ∧
      ParentsExist db ∧ OwnersReached db ∧ LinksExist db ∧
      ∃ e i, db.authorities.find? (5, xmaxActiveName) = some e ∧
        db.authorities.find? (5, 77) = some i ∧ ValidExact db (5, xmaxActiveName) (5, 77) e i := by
  obtain ⟨⟨db₁, db⟩, hruns, hauth, hlink, he, hi⟩ := exists_ok_of_eval
    (x := do
      let db₁ ← runCalls [newAccount 5, newAccount 77, newAuthority 77 xmaxActiveName]
      let db ← (linkTransfer 77).run accountEnv db₁
      pure (db₁, db))
    (P := fun r => (r.1.authorities.find? (5, 77)).isSome ∧
      r.2.links.find? (5, 5, .transfer) = some 77 ∧
      r.2.authorities.find? (5, xmaxActiveName) = some ⟨1, 0, oneKey 31, 0⟩ ∧
      r.2.authorities.find? (5, 77) = some ⟨4, 1, oneKey 32, 0⟩)
    (by decide)
  simp only [bind_eq_ok] at hruns
  obtain ⟨_, hrun, _, hlinked, hpair⟩ := hruns
  cases hpair
  have hbefore : AuthRun accountEnv AuthCall.Careful db₁ := by
    refine AuthRun.calls (.start rfl rfl) (fun c hc db => ?_) hrun
    simp only [List.mem_cons, List.not_mem_nil, or_false] at hc
    rcases hc with rfl | rfl | rfl <;> trivial
  have hafter : AuthRun accountEnv AuthCall.Careful db :=
    .call (c := linkTransfer 77) hbefore hauth hlinked
  obtain ⟨hparents, howners, hlinks, hvalid⟩ := authority_trees hafter
  exact ⟨db, hafter, hlink, hparents, howners, hlinks, _, _, he, hi,
    (hvalid _ _ _ _ he hi).2 (by decide)⟩

/-- An authority is deleted from under its child, an account links an authority that only another account's
name is, and the first owner is taken to be above itself. -/
theorem authority_trees_broken :
    (∃ db, AuthRun accountEnv (fun _ _ => True) db ∧ ¬ ParentsExist db) ∧
    (∃ db, AuthRun accountEnv (fun _ _ => True) db ∧ ¬ LinksExist db) ∧
    ∃ db, AuthRun accountEnv (fun _ _ => True) db ∧
      ∃ e, db.authorities.find? (5, xmaxOwnerName) = some e ∧
        ¬ ValidExact db (5, xmaxOwnerName) (5, xmaxOwnerName) e e := by
  have hrun : ∀ {calls db}, runCalls calls = .ok db → AuthRun accountEnv (fun _ _ => True) db :=
    AuthRun.calls (.start rfl rfl) fun _ _ _ => trivial
  refine ⟨?_, ?_, ?_⟩
  · obtain ⟨db, hcalls, hrow, hnone⟩ := exists_ok_of_eval
      (x := runCalls [newAccount 5, newAuthority 77 xmaxActiveName, newAuthority 78 77, deleteAuthority 77])
      (P := fun db => db.authorities.find? (5, 78) = some ⟨3, 2, oneKey 32, 0⟩ ∧
        ∀ r ∈ db.authorities.rows, r.2.id ≠ 2) (by decide)
    refine ⟨db, hrun hcalls, fun hparents => ?_⟩
    obtain ⟨parent, -, above, obj, habove, row, hid⟩ := hparents 5 78 _ hrow (by decide)
    obtain rfl := Option.some.inj (hrow.symm.trans row)
    exact hnone _ (Table.mem_rows_of_find? habove) hid
  · obtain ⟨db, hcalls, hlink, hnone⟩ := exists_ok_of_eval
      (x := runCalls [newAccount 5, newAccount 77, linkTransfer 77])
      (P := fun db => db.links.find? (5, 5, .transfer) = some 77 ∧
        db.authorities.find? (5, 77) = none) (by decide)
    refine ⟨db, hrun hcalls, fun hlinks => ?_⟩
    have := hlinks 5 5 .transfer 77 hlink
    rw [hnone] at this
    cases this
  · obtain ⟨db, hcalls, hrow⟩ := exists_ok_of_eval (x := runCalls [newAccount 5])
      (P := fun db => db.authorities.find? (5, xmaxOwnerName) = some ⟨0, 0, oneKey 31, 0⟩)
      (by decide)
    refine ⟨db, hrun hcalls, _, hrow, ?_⟩
    rintro ⟨b, hb, hiff⟩
    have htrue : parentPermissionValid db 5 5 ⟨0, 0, oneKey 31, 0⟩ ⟨0, 0, oneKey 31, 0⟩ = .ok true := rfl
    obtain rfl := Except.ok.inj (htrue.symm.trans hb)
    exact not_properAncestor_owner (hiff.1 rfl).2

end XmaxChain
