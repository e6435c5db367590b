import XmaxChain.TrxContext

/-!
# Who authorizes a transaction

The authorities of an account form a tree; a message declares which of them authorize it. The check
goes through everything declared: each authority needs keys and other authorities of enough weight,
and every other authority it names is checked too, to a depth of three. An authority that was
checked on behalf of another is not checked again.
-/

namespace XmaxChain

/-- Sums of `int`. -/
def i32 (n : ℤ) : ℤ := n.bmod (2 ^ 32)

/-- `int` of a number of boost, which the numbers beyond it are converted to the greatest of. -/
def intOf (n : ℕ) : ℤ := min n (2 ^ 31 - 1)

def AccountAuth.key (auth : AccountAuth) : AccountName × AuthorityName := (auth.account, auth.authority)

def AccountAuth.blt (a b : AccountAuth) : Bool :=
  a.account < b.account || (a.account == b.account && a.authority < b.authority)

/-- Insertion into a `std::set`. -/
def insertAuth (auth : AccountAuth) : List AccountAuth → List AccountAuth
  | [] => [auth]
  | a :: as => if auth.blt a then auth :: a :: as else if a.blt auth then a :: insertAuth auth as else a :: as

section Check

variable (codec : Codec) (db : AuthDb)

def getAuthorityObject (auth : AccountAuth) : Except Fault AuthorityObject :=
  captureRethrow do
    fcAssert (auth.account ≠ 0 && auth.authority ≠ 0) "Invalid authority"
    dbGet db.authorities auth.key

def findById (id : ℕ) : Option AuthorityObject :=
  (db.authorities.rows.find? (·.2.id = id)).map Prod.snd

/-- The walk from `parent` up, for the authority with id `editor`. -/
def parentWalk (editor : ℕ) : ℕ → ℕ → Except Fault Bool
  | 0, _ => .error .diverged
  | fuel + 1, parent =>
    match findById db parent with
    | none => .ok false
    | some obj =>
      if obj.parent = editor then .ok true
      else if obj.parent = 0 then .ok false
      else parentWalk editor fuel obj.parent

/-- Whether `editor`, of the account `editorOwner`, is above `info` of the account `infoOwner`. A
walk longer than the table goes round in a circle. -/
def parentPermissionValid (editorOwner infoOwner : AccountName) (editor info : AuthorityObject) :
    Except Fault Bool :=
  if editorOwner ≠ infoOwner then .ok false
  else if editor.id = info.parent then .ok true
  else parentWalk db editor.id (db.authorities.rows.length + 1) info.parent

def findLinkedPermission (acc scope : AccountName) (func : FuncName) : Option AuthorityName :=
  match db.links.find? (acc, scope, func) with
  | some required => some required
  | none => db.links.find? (acc, scope, .other 0)

def minLinkedPermission (acc scope : AccountName) (func : FuncName) : Option AuthorityName :=
  match findLinkedPermission db acc scope func with
  | none => some xmaxActiveName
  | some linked => if linked = xmaxSysanyName then none else some linked

/-- What `updateauth`, `deleteauth`, `linkauth` and `unlinkauth` must declare. The first
authorization is taken before they are counted. -/
def checkOwnAuth (account : AccountName) (auths : List AccountAuth) : Except Fault Unit :=
  match auths with
  | [] => .error (.undefined "auths[0]")
  | auth :: _ => do
    fcAssert (auths.length = 1) "should only have one declared authorization"
    fcAssert (auth.account = account) "only can control self authorization."

def checkUpdateauth (auths : List AccountAuth) (args : AccountName × AuthorityName) :
    Except Fault Unit := do
  checkOwnAuth args.1 auths
  fcAssert (args.1 ≠ 0 && args.2 ≠ 0) "Invalid authority"
  fcAssert (db.authorities.find? args).isSome "error updateauth data, auth or parent of auth is not found."

/-- The check of a message of the system account; it tells whether the permissions linked to
functions are passed over. They are for every other account. -/
def checkSpecial (msg : Message) : Except Fault Bool :=
  if msg.code ≠ xmaxContractName then .ok true
  else match msg.type with
    | .updateauth => do
      let args ← unpackAs (codec.updateauth msg.data)
      checkUpdateauth db msg.authorization args
      pure true
    | .deleteauth => do
      let account ← unpackAs (codec.deleteauth msg.data)
      checkOwnAuth account msg.authorization
      pure true
    | .linkauth => do
      let account ← unpackAs (codec.linkauth msg.data)
      checkOwnAuth account msg.authorization
      pure true
    | .unlinkauth => do
      let account ← unpackAs (codec.unlinkauth msg.data)
      checkOwnAuth account msg.authorization
      pure true
    | _ => .ok false

/-- A declared authority must be the one linked to the function or stand above it. Where any will
do the code reads an empty optional. -/
def checkLinked (special : Bool) (msg : Message) (auth : AccountAuth) : Except Fault Unit :=
  if special then .ok ()
  else match minLinkedPermission db auth.account msg.code msg.type with
  | none => .error (.undefined "empty optional")
  | some permission =>
    if permission = auth.authority then .ok ()
    else do
      let origin ← getAuthorityObject db auth
      let sub ← getAuthorityObject db ⟨auth.account, permission⟩
      let valid ← parentPermissionValid db auth.account auth.account origin sub
      fcAssert valid "error authority"

def declareAuth (special : Bool) (msg : Message) (satisfys : List AccountAuth) (auth : AccountAuth) :
    Except Fault (List AccountAuth) := do
  checkLinked db special msg auth
  pure (insertAuth auth satisfys)

/-- The authorities a message declares, added to those declared before. -/
def declareAll (satisfys : List AccountAuth) (msg : Message) : Except Fault (List AccountAuth) := do
  let special ← checkSpecial codec db msg
  msg.authorization.foldlM (declareAuth db special msg) satisfys

variable (keys : List PublicKey)

def maxCheckDepth : ℕ := 3

/-- The weight of the keys of `auth` that have signed, added to `weight`. -/
def addKeys (auth : Types.Authority) (weight : ℤ) : ℤ :=
  auth.keys.foldl (fun w k => if k.key ∈ keys then i32 (w + k.weight) else w) weight

/-- Another authority that an authority names, checked unless it has been before. -/
def checkOther (check : AccountAuth → List AccountAuth → Except Fault (List AccountAuth))
    (r : List AccountAuth × ℤ) (acc : Types.AccountWeight) : Except Fault (List AccountAuth × ℤ) :=
  if acc.permission ∈ r.1 then .ok (r.1, i32 (r.2 + acc.weight))
  else do
    let aucache ← check acc.permission r.1
    pure (aucache ++ [acc.permission], i32 (r.2 + acc.weight))

/-- The check of one authority, with `left` more levels to go and the authorities checked so far on
behalf of others. -/
def checkWithDepth : ℕ → AccountAuth → List AccountAuth → Except Fault (List AccountAuth)
  | 0, _, _ => .error (.fc "depth in check must be less than 3")
  | left + 1, auth, aucache => do
    let obj ← getAuthorityObject db auth
    let r ← obj.authoritys.accounts.foldlM (checkOther (checkWithDepth left))
      (aucache, addKeys keys obj.authoritys 0)
    fcAssert (intOf obj.authoritys.threshold ≤ r.2) "no enough auth"
    pure r.1

def checkDeclared (aucache : List AccountAuth) (auth : AccountAuth) :
    Except Fault (List AccountAuth) := do
  let _ ← getAuthorityObject db auth
  checkWithDepth db keys maxCheckDepth auth aucache

def checkAuthorization (messages : List Message) : Except Fault Unit := do
  let satisfys ← messages.foldlM (declareAll codec db) []
  let _ ← satisfys.foldlM (checkDeclared db keys) []
  pure ()

end Check

/-! ## What the check establishes -/

section Satisfied

variable {db : AuthDb} {keys : List PublicKey}

/-- The exact weight of the keys that have signed. -/
def keyWeight (keys : List PublicKey) (auth : Types.Authority) : ℤ :=
  ((auth.keys.filter (·.key ∈ keys)).map fun k => (k.weight : ℤ)).sum

def accountWeight (accounts : List Types.AccountWeight) : ℤ :=
  (accounts.map fun a => (a.weight : ℤ)).sum

/-- The keys satisfy an authority: those it lists, with some of the authorities it names that are
themselves satisfied, reach its threshold, read as the code reads it. -/
inductive Satisfies (db : AuthDb) (keys : List PublicKey) : AccountAuth → Prop
  | intro {auth : AccountAuth} (obj : AuthorityObject) (others : List Types.AccountWeight)
      (row : db.authorities.find? auth.key = some obj)
      (named : others.Sublist obj.authoritys.accounts)
      (satisfied : ∀ a ∈ others, Satisfies db keys a.permission)
      (enough : intOf obj.authoritys.threshold
        ≤ keyWeight keys obj.authoritys + accountWeight others) : Satisfies db keys auth

/-- An authority names another. -/
def Names (db : AuthDb) (auth other : AccountAuth) : Prop :=
  ∃ obj, db.authorities.find? auth.key = some obj ∧
    ∃ a ∈ obj.authoritys.accounts, a.permission = other

/-- All authorities that are checked on behalf of `auth`, itself included. -/
def Reaches (db : AuthDb) : AccountAuth → AccountAuth → Prop := Relation.ReflTransGen (Names db)

/-- Everything checked on behalf of `auth` is satisfied. -/
def AllSatisfied (db : AuthDb) (keys : List PublicKey) (auth : AccountAuth) : Prop :=
  ∀ other, Reaches db auth other → Satisfies db keys other

theorem getAuthorityObject_ok {auth : AccountAuth} {obj : AuthorityObject}
    (h : getAuthorityObject db auth = .ok obj) : db.authorities.find? auth.key = some obj := by
  simp only [getAuthorityObject, captureRethrow_eq_ok, bind_eq_ok, dbGet_eq_ok] at h
  obtain ⟨-, -, h⟩ := h
  exact h

/-- `int` sums of non-negative numbers only lose by wrapping around. -/
theorem i32_add_le {w x : ℤ} (hw : -2 ^ 31 ≤ w) (hx : 0 ≤ x) : i32 (w + x) ≤ w + x := by
  unfold i32
  rw [Int.bmod_def]
  split <;> omega

theorem neg_le_i32 (n : ℤ) : -2 ^ 31 ≤ i32 n := by
  have := Int.le_bmod (x := n) (m := 2 ^ 32) (by decide)
  unfold i32
  omega

theorem addKeys_le (keys : List PublicKey) (auth : Types.Authority) :
    -2 ^ 31 ≤ addKeys keys auth 0 ∧ addKeys keys auth 0 ≤ keyWeight keys auth := by
  have h : ∀ (ks : List Types.KeyWeight) (w : ℤ), -2 ^ 31 ≤ w →
      -2 ^ 31 ≤ ks.foldl (fun w k => if k.key ∈ keys then i32 (w + k.weight) else w) w ∧
      ks.foldl (fun w k => if k.key ∈ keys then i32 (w + k.weight) else w) w
        ≤ w + ((ks.filter (·.key ∈ keys)).map fun k => (k.weight : ℤ)).sum := by
    intro ks
    induction ks with
    | nil => intro w hw; exact ⟨hw, by simp⟩
    | cons k ks ih =>
      intro w hw
      by_cases hk : k.key ∈ keys
      · have := ih (i32 (w + k.weight)) (neg_le_i32 _)
        have := i32_add_le hw (Int.natCast_nonneg k.weight)
        simp only [List.foldl_cons, hk, if_true, decide_true, List.filter_cons_of_pos, List.map_cons,
          List.sum_cons]
        omega
      · simpa [hk] using ih w hw
  simpa [addKeys, keyWeight] using h auth.keys 0 (by decide)

/-- One level of the check, given what the level below establishes. -/
theorem checkOthers_sound {check : AccountAuth → List AccountAuth → Except Fault (List AccountAuth)}
    (hcheck : ∀ {auth cache cache'}, check auth cache = .ok cache' →
      (∀ c ∈ cache, AllSatisfied db keys c) →
      AllSatisfied db keys auth ∧ ∀ c ∈ cache', AllSatisfied db keys c)
    {accounts : List Types.AccountWeight} {r r' : List AccountAuth × ℤ}
    (h : accounts.foldlM (checkOther check) r = .ok r') (hcache : ∀ c ∈ r.1, AllSatisfied db keys c)
    (hw : -2 ^ 31 ≤ r.2) :
    (∀ a ∈ accounts, AllSatisfied db keys a.permission) ∧
      (∀ c ∈ r'.1, AllSatisfied db keys c) ∧ r'.2 ≤ r.2 + accountWeight accounts := by
  induction accounts generalizing r with
  | nil => cases h; exact ⟨by simp, hcache, by simp [accountWeight]⟩
  | cons a accounts ih =>
    rw [List.foldlM_cons, bind_eq_ok] at h
    obtain ⟨r₁, h₁, h⟩ := h
    have hstep : AllSatisfied db keys a.permission ∧ (∀ c ∈ r₁.1, AllSatisfied db keys c) ∧
        r₁.2 = i32 (r.2 + a.weight) := by
      unfold checkOther at h₁
      split at h₁
      · rename_i hmem
        cases h₁
        exact ⟨hcache _ hmem, hcache, rfl⟩
      · simp only [bind_eq_ok] at h₁
        obtain ⟨cache, hc, h₁⟩ := h₁
        cases h₁
        obtain ⟨ha, hcache'⟩ := hcheck hc hcache
        refine ⟨ha, fun c hc => ?_, rfl⟩
        rcases List.mem_append.1 hc with hc | hc
        · exact hcache' c hc
        · exact (List.mem_singleton.1 hc) ▸ ha
    obtain ⟨ha, hcache₁, hr₁⟩ := hstep
    obtain ⟨hrest, hcache', hle⟩ := ih h hcache₁ (hr₁ ▸ neg_le_i32 _)
    refine ⟨by simpa using ⟨ha, hrest⟩, hcache', ?_⟩
    have := i32_add_le hw (Int.natCast_nonneg a.weight)
    simp only [accountWeight, List.map_cons, List.sum_cons] at hle ⊢
    omega

theorem checkWithDepth_sound {left : ℕ} {auth : AccountAuth} {cache cache' : List AccountAuth}
    (h : checkWithDepth db keys left auth cache = .ok cache')
    (hcache : ∀ c ∈ cache, AllSatisfied db keys c) :
    AllSatisfied db keys auth ∧ ∀ c ∈ cache', AllSatisfied db keys c := by
  induction left generalizing auth cache cache' with
  | zero => cases h
  | succ left ih =>
    simp only [checkWithDepth, bind_eq_ok, fcAssert_eq_ok, decide_eq_true_eq] at h
    obtain ⟨obj, hobj, r, hr, -, hle, h⟩ := h
    cases h
    have hrow := getAuthorityObject_ok hobj
    obtain ⟨hlow, hkeys⟩ := addKeys_le keys obj.authoritys
    obtain ⟨hothers, hcache', hweight⟩ := checkOthers_sound ih hr hcache hlow
    refine ⟨fun other hreach => ?_, hcache'⟩
    rcases hreach.cases_head with rfl | ⟨next, ⟨obj', hobj', a, ha, rfl⟩, hreach⟩
    · exact .intro obj obj.authoritys.accounts hrow (List.Sublist.refl _)
        (fun a ha => hothers a ha _ .refl) (by omega)
    · rw [hrow] at hobj'
      cases hobj'
      exact hothers a ha other hreach

theorem AccountAuth.eq_of_not_blt {a b : AccountAuth} (h : ¬ a.blt b) (h' : ¬ b.blt a) : a = b := by
  obtain ⟨x, y⟩ := a
  obtain ⟨u, v⟩ := b
  simp only [AccountAuth.blt, Bool.or_eq_true, decide_eq_true_eq, Bool.and_eq_true, beq_iff_eq,
    not_or, not_and, not_lt] at h h'
  obtain rfl : x = u := le_antisymm h'.1 h.1
  rw [le_antisymm (h'.2 rfl) (h.2 rfl)]

theorem mem_insertAuth {a auth : AccountAuth} {as : List AccountAuth} :
    a ∈ insertAuth auth as ↔ a = auth ∨ a ∈ as := by
  induction as with
  | nil => simp [insertAuth]
  | cons b as ih =>
    unfold insertAuth
    split
    · simp
    · split
      · simp only [List.mem_cons, ih]
        exact or_left_comm
      · rename_i h₁ h₂
        rw [AccountAuth.eq_of_not_blt h₁ h₂]
        simp

/-- What is declared after a message: what was before, and what it declares. -/
theorem declareAll_mem {codec : Codec} {msg : Message} {satisfys satisfys' : List AccountAuth}
    (h : declareAll codec db satisfys msg = .ok satisfys') {a : AccountAuth} :
    a ∈ satisfys' ↔ a ∈ satisfys ∨ a ∈ msg.authorization := by
  simp only [declareAll, bind_eq_ok] at h
  obtain ⟨special, -, h⟩ := h
  revert h
  generalize msg.authorization = auths
  intro h
  induction auths generalizing satisfys with
  | nil => cases h; simp
  | cons au auths ih =>
    rw [List.foldlM_cons, bind_eq_ok] at h
    obtain ⟨s₁, h₁, h⟩ := h
    simp only [declareAuth, bind_eq_ok] at h₁
    obtain ⟨-, -, h₁⟩ := h₁
    cases h₁
    rw [ih h, mem_insertAuth, List.mem_cons]
    exact ⟨fun h => by tauto, fun h => by tauto⟩

theorem declared_mem {codec : Codec} {messages : List Message} {start satisfys : List AccountAuth}
    (h : messages.foldlM (declareAll codec db) start = .ok satisfys) {a : AccountAuth} :
    a ∈ satisfys ↔ a ∈ start ∨ ∃ msg ∈ messages, a ∈ msg.authorization := by
  induction messages generalizing start with
  | nil => cases h; simp
  | cons m messages ih =>
    rw [List.foldlM_cons, bind_eq_ok] at h
    obtain ⟨s₁, h₁, h⟩ := h
    rw [ih h, declareAll_mem h₁]
    simp [or_assoc]

/-- A transaction that passes the check has all that it declares satisfied, and all that these
authorities name. -/
theorem checkAuthorization_sound {codec : Codec} {messages : List Message}
    (h : checkAuthorization codec db keys messages = .ok ()) {msg : Message} (hmsg : msg ∈ messages)
    {auth : AccountAuth} (hauth : auth ∈ msg.authorization) : AllSatisfied db keys auth := by
  simp only [checkAuthorization, bind_eq_ok] at h
  obtain ⟨satisfys, hs, cache, hc, -⟩ := h
  have hmem : auth ∈ satisfys := (declared_mem hs).2 (.inr ⟨msg, hmsg, hauth⟩)
  have hall : ∀ {as : List AccountAuth} {c c' : List AccountAuth},
      as.foldlM (checkDeclared db keys) c = .ok c' → (∀ x ∈ c, AllSatisfied db keys x) →
      ∀ a ∈ as, AllSatisfied db keys a := by
    intro as
    induction as with
    | nil => simp
    | cons a as ih =>
      intro c c' h hcache
      rw [List.foldlM_cons, bind_eq_ok] at h
      obtain ⟨c₁, h₁, h⟩ := h
      simp only [checkDeclared, bind_eq_ok] at h₁
      obtain ⟨-, -, h₁⟩ := h₁
      obtain ⟨ha, hcache₁⟩ := checkWithDepth_sound h₁ hcache
      simpa using ⟨ha, ih h hcache₁⟩
  exact hall hc (by simp) auth hmem

end Satisfied

end XmaxChain
