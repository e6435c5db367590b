import XmaxChain.Faults
import XmaxChain.Spending

/-!
# Permissions linked to functions

An account may link a function of a contract to one of its authorities: then a message to it has to
declare that authority or one above it. The check asks for this only in messages to the system
account that are not about authorities themselves; all others it passes over. Where the link says
that any authority will do, it reads the permission that is not there.
-/

namespace XmaxChain

section Undefined

variable {α β : Type}

/-- The call ends in an undefined access. -/
def ReadsUndefined (x : Except Fault α) : Prop := ∃ what, x = .error (.undefined what)

@[simp] theorem readsUndefined_ok (a : α) : ¬ ReadsUndefined (.ok a) := by simp [ReadsUndefined]

@[simp] theorem readsUndefined_pure (a : α) : ¬ ReadsUndefined (pure a : Except Fault α) :=
  readsUndefined_ok a

@[simp] theorem readsUndefined_error {e : Fault} :
    ReadsUndefined (.error e : Except Fault α) ↔ ∃ what, e = .undefined what := by
  simp [ReadsUndefined]

@[simp] theorem readsUndefined_bind {x : Except Fault α} {f : α → Except Fault β} :
    ReadsUndefined (x >>= f) ↔ ReadsUndefined x ∨ ∃ a, x = .ok a ∧ ReadsUndefined (f a) := by
  cases x <;> simp [bind, Except.bind]

@[simp] theorem readsUndefined_fcAssert (b : Bool) (msg : String) :
    ¬ ReadsUndefined (fcAssert b msg) := by
  cases b <;> simp [fcAssert]

@[simp] theorem readsUndefined_unpackAs (o : Option α) : ¬ ReadsUndefined (unpackAs o) := by
  cases o <;> simp [unpackAs]

@[simp] theorem readsUndefined_map {x : Except Fault α} {f : α → β} :
    ReadsUndefined (f <$> x) ↔ ReadsUndefined x := by
  cases x <;> simp [Functor.map, Except.map, ReadsUndefined]

/-- What throws nothing but exceptions of `fc` reads nothing undefined. -/
theorem Throws.not_readsUndefined {x : Except Fault α} (h : Throws Fault.isFc x) :
    ¬ ReadsUndefined x := by
  rintro ⟨what, hx⟩
  cases h _ hx

/-- A loop reads what is not there at the first element that does, if it gets past those before. -/
theorem readsUndefined_foldlM {f : β → α → Except Fault β} {Past Reads : α → Prop}
    (past : ∀ b x, (∃ b', f b x = .ok b') ↔ Past x)
    (reads : ∀ b x, ReadsUndefined (f b x) ↔ Reads x) (xs : List α) (b : β) :
    ReadsUndefined (xs.foldlM f b) ↔
      ∃ pre x post, xs = pre ++ x :: post ∧ (∀ y ∈ pre, Past y) ∧ Reads x := by
  induction xs generalizing b with
  | nil => simp
  | cons a xs ih =>
    rw [List.foldlM_cons, readsUndefined_bind, reads]
    constructor
    · rintro (ha | ⟨b', hb', hrest⟩)
      · exact ⟨[], a, xs, rfl, by simp, ha⟩
      · obtain ⟨pre, x, post, rfl, hpre, hx⟩ := (ih b').1 hrest
        exact ⟨a :: pre, x, post, rfl, List.forall_mem_cons.2 ⟨(past b a).1 ⟨b', hb'⟩, hpre⟩, hx⟩
    · rintro ⟨pre, x, post, heq, hpre, hx⟩
      cases pre with
      | nil =>
        obtain ⟨rfl, rfl⟩ := List.cons.inj heq
        exact .inl hx
      | cons y pre =>
        obtain ⟨rfl, rfl⟩ := List.cons.inj heq
        obtain ⟨hy, hpre⟩ := List.forall_mem_cons.1 hpre
        obtain ⟨b', hb'⟩ := (past b a).2 hy
        exact .inr ⟨b', hb', (ih b').2 ⟨pre, x, post, rfl, hpre, hx⟩⟩

/-- A loop ends if it gets past every element. -/
theorem exists_foldlM_ok_iff {f : β → α → Except Fault β} {Past : α → Prop}
    (past : ∀ b x, (∃ b', f b x = .ok b') ↔ Past x) (xs : List α) (b : β) :
    (∃ b', xs.foldlM f b = .ok b') ↔ ∀ x ∈ xs, Past x := by
  induction xs generalizing b with
  | nil => exact ⟨fun _ => by simp, fun _ => ⟨b, rfl⟩⟩
  | cons a xs ih =>
    simp only [List.foldlM_cons, bind_eq_ok, List.forall_mem_cons, ← past b a]
    constructor
    · rintro ⟨b', b₁, h₁, hrest⟩
      exact ⟨⟨b₁, h₁⟩, (ih b₁).1 ⟨b', hrest⟩⟩
    · rintro ⟨⟨b₁, h₁⟩, hrest⟩
      obtain ⟨b', hb'⟩ := (ih b₁).2 hrest
      exact ⟨b', b₁, h₁, hb'⟩

end Undefined

/-! ## What is read -/

/-- The check of a message to the system account about authorities. -/
def Message.aboutAuth (msg : Message) : Prop :=
  msg.type = .updateauth ∨ msg.type = .deleteauth ∨ msg.type = .linkauth ∨ msg.type = .unlinkauth

/-- The check does not look at what is linked to the function. -/
def Message.passedOver (msg : Message) : Prop := msg.code ≠ xmaxContractName ∨ msg.aboutAuth

/-- The account named in the arguments of a message about authorities, where they can be read. -/
def authAccount (codec : Codec) (msg : Message) : Option AccountName :=
  match msg.type with
  | .updateauth => (codec.updateauth msg.data).map Prod.fst
  | .deleteauth => codec.deleteauth msg.data
  | .linkauth => codec.linkauth msg.data
  | .unlinkauth => codec.unlinkauth msg.data
  | _ => none

section Reads

variable {codec : Codec} {db : AuthDb} {msg : Message}

theorem getAuthorityObject_fc (auth : AccountAuth) :
    Throws Fault.isFc (getAuthorityObject db auth) := by
  simp [getAuthorityObject]

theorem checkWithDepth_fc (keys : List PublicKey) (left : ℕ) (auth : AccountAuth)
    (aucache : List AccountAuth) : Throws Fault.isFc (checkWithDepth db keys left auth aucache) := by
  induction left generalizing auth aucache with
  | zero => simp [checkWithDepth, Fault.isFc]
  | succ left ih =>
    simp only [checkWithDepth, throws_bind, getAuthorityObject_fc, fcAssert_fc, throws_pure,
      implies_true, true_and, and_true]
    rintro obj -
    refine throws_foldlM (fun r acc => ?_) _ _
    simp only [checkOther, throws_ite, throws_ok, throws_bind, throws_pure, ih, implies_true, and_self]


theorem parentWalk_not_undefined (editor fuel parent : ℕ) :
    ¬ ReadsUndefined (parentWalk db editor fuel parent) := by
  induction fuel generalizing parent with
  | zero => simp [parentWalk]
  | succ fuel ih =>
    unfold parentWalk
    split
    · simp
    · split_ifs
      · simp
      · simp
      · exact ih _

theorem checkLinked_reads {auth : AccountAuth} :
    ReadsUndefined (checkLinked db false msg auth) ↔
      minLinkedPermission db auth.account msg.code msg.type = none := by
  unfold checkLinked
  cases minLinkedPermission db auth.account msg.code msg.type with
  | none => simp
  | some permission =>
    have hget : ∀ a, ¬ ReadsUndefined (getAuthorityObject db a) := fun a =>
      (getAuthorityObject_fc a).not_readsUndefined
    have hvalid : ∀ x y a b, ¬ ReadsUndefined (parentPermissionValid db x y a b) := by
      intro x y a b
      unfold parentPermissionValid
      split_ifs
      · simp
      · simp
      · exact parentWalk_not_undefined _ _ _
    simp only [Bool.false_eq_true, if_false, reduceCtorEq, iff_false]
    split_ifs
    · simp
    · simp [hget, hvalid]

theorem checkOwnAuth_reads {account : AccountName} {auths : List AccountAuth} :
    ReadsUndefined (checkOwnAuth account auths) ↔ auths = [] := by
  cases auths <;> simp [checkOwnAuth]

theorem checkSpecial_reads :
    ReadsUndefined (checkSpecial codec db msg) ↔
      msg.code = xmaxContractName ∧ msg.authorization = [] ∧ (authAccount codec msg).isSome := by
  unfold checkSpecial
  split_ifs with hcode
  · simp [hcode]
  · rw [ne_eq, not_not] at hcode
    split
    all_goals
      rename_i htype
      simp_all [authAccount, checkUpdateauth, checkOwnAuth_reads, Option.isSome_iff_exists, and_comm]

theorem checkSpecial_ok {special : Bool} (h : checkSpecial codec db msg = .ok special) :
    special = true ↔ msg.passedOver := by
  unfold checkSpecial at h
  split_ifs at h with hcode
  · cases h
    simp [Message.passedOver, hcode]
  · rw [ne_eq, not_not] at hcode
    have hover : msg.passedOver ↔ msg.aboutAuth := by simp [Message.passedOver, hcode]
    rw [hover, Message.aboutAuth]
    split at h
    all_goals
      rename_i htype
      simp only [bind_eq_ok, pure, Except.pure, Except.ok.injEq] at h
      cases special
      all_goals simp_all

/-- A message that the check gets past. -/
def Cleared (codec : Codec) (db : AuthDb) (msg : Message) : Prop :=
  ∃ special, checkSpecial codec db msg = .ok special ∧
    ∀ auth ∈ msg.authorization, checkLinked db special msg auth = .ok ()

/-- A message at which the check reads what is not there: the first authorization of none, or the
permission for a function that any authority will do for. -/
inductive ReadsNothing (codec : Codec) (db : AuthDb) (msg : Message) : Prop
  | noAuthorization (code : msg.code = xmaxContractName) (auths : msg.authorization = [])
      (args : (authAccount codec msg).isSome) : ReadsNothing codec db msg
  | anyWillDo {pre post : List AccountAuth} {auth : AccountAuth} (looked : ¬ msg.passedOver)
      (auths : msg.authorization = pre ++ auth :: post)
      (past : ∀ a ∈ pre, checkLinked db false msg a = .ok ())
      (none : minLinkedPermission db auth.account msg.code msg.type = none) :
      ReadsNothing codec db msg

/-- The check gets as far as such a message. -/
def ReadsEmpty (codec : Codec) (db : AuthDb) (messages : List Message) : Prop :=
  ∃ pre msg post, messages = pre ++ msg :: post ∧ (∀ m ∈ pre, Cleared codec db m) ∧
    ReadsNothing codec db msg

theorem checkSpecial_of_looked (h : ¬ msg.passedOver) : checkSpecial codec db msg = .ok false := by
  unfold Message.passedOver Message.aboutAuth at h
  unfold checkSpecial
  split_ifs with hcode
  · exact absurd (.inl hcode) h
  · split
    all_goals simp_all

theorem declareAuth_ok {special : Bool} (satisfys : List AccountAuth) (auth : AccountAuth) :
    (∃ r, declareAuth db special msg satisfys auth = .ok r) ↔
      checkLinked db special msg auth = .ok () := by
  simp only [declareAuth, bind_eq_ok]
  refine ⟨?_, fun h => ⟨_, (), h, rfl⟩⟩
  rintro ⟨_, _, h, _⟩
  exact h

theorem declareAuth_reads {special : Bool} (satisfys : List AccountAuth) (auth : AccountAuth) :
    ReadsUndefined (declareAuth db special msg satisfys auth) ↔
      special = false ∧ minLinkedPermission db auth.account msg.code msg.type = none := by
  simp only [declareAuth, readsUndefined_bind, readsUndefined_pure, and_false, exists_false, or_false]
  cases special with
  | true => simp [checkLinked]
  | false => simp [checkLinked_reads]

theorem declareAll_ok (satisfys : List AccountAuth) (msg : Message) :
    (∃ r, declareAll codec db satisfys msg = .ok r) ↔ Cleared codec db msg := by
  simp only [declareAll, bind_eq_ok]
  constructor
  · rintro ⟨r, special, hspecial, hr⟩
    exact ⟨special, hspecial, (exists_foldlM_ok_iff declareAuth_ok _ _).1 ⟨r, hr⟩⟩
  · rintro ⟨special, hspecial, hall⟩
    obtain ⟨r, hr⟩ := (exists_foldlM_ok_iff declareAuth_ok _ satisfys).2 hall
    exact ⟨r, special, hspecial, hr⟩

theorem declareAll_reads (satisfys : List AccountAuth) (msg : Message) :
    ReadsUndefined (declareAll codec db satisfys msg) ↔ ReadsNothing codec db msg := by
  simp only [declareAll, readsUndefined_bind, checkSpecial_reads,
    readsUndefined_foldlM declareAuth_ok declareAuth_reads]
  constructor
  · rintro (⟨hcode, hauths, hargs⟩ | ⟨special, hspecial, pre, auth, post, hauths, hpast, hfalse, hnone⟩)
    · exact .noAuthorization hcode hauths hargs
    · subst hfalse
      refine .anyWillDo (fun hover => ?_) hauths hpast hnone
      exact Bool.false_ne_true ((checkSpecial_ok hspecial).2 hover)
  · rintro (⟨hcode, hauths, hargs⟩ | ⟨hlooked, hauths, hpast, hnone⟩)
    · exact .inl ⟨hcode, hauths, hargs⟩
    · exact .inr ⟨false, checkSpecial_of_looked hlooked, _, _, _, hauths, hpast, rfl, hnone⟩

theorem ReadsEmpty.mem {messages : List Message} (h : ReadsEmpty codec db messages) :
    ∃ msg ∈ messages, msg.authorization = [] ∨
      ∃ auth ∈ msg.authorization, minLinkedPermission db auth.account msg.code msg.type = none := by
  obtain ⟨pre, msg, post, rfl, -, hreads⟩ := h
  refine ⟨msg, by simp, ?_⟩
  cases hreads with
  | noAuthorization _ auths _ => exact .inl auths
  | anyWillDo _ auths _ none => exact .inr ⟨_, by rw [auths]; simp, none⟩

theorem checkAuthorization_reads {keys : List PublicKey} {messages : List Message} :
    ReadsUndefined (checkAuthorization codec db keys messages) ↔ ReadsEmpty codec db messages := by
  have hchecked : ∀ satisfys : List AccountAuth,
      ¬ ReadsUndefined (satisfys.foldlM (checkDeclared db keys) []) := fun satisfys => by
    refine (throws_foldlM (fun cache auth => ?_) _ _).not_readsUndefined
    simp only [checkDeclared, throws_bind, getAuthorityObject_fc, checkWithDepth_fc, implies_true,
      and_self]
  simp only [checkAuthorization, readsUndefined_bind, readsUndefined_pure, and_false, exists_false,
    or_false, hchecked, readsUndefined_foldlM declareAll_ok declareAll_reads]
  rfl

end Reads

/-! ## What is enforced -/

/-- The authority with id `editor` stands above another one: it is the one that this one names as
its parent, or stands above that. -/
inductive Above (db : AuthDb) (editor : ℕ) : AuthorityObject → Prop
  | parent {info : AuthorityObject} (up : info.parent = editor) : Above db editor info
  | step {info next : AuthorityObject} (up : findById db info.parent = some next)
      (above : Above db editor next) : Above db editor info

/-- A declared authority is the one that the account's link asks for, or stands above it. -/
def LinkedOk (db : AuthDb) (msg : Message) (auth : AccountAuth) : Prop :=
  ∀ permission, minLinkedPermission db auth.account msg.code msg.type = some permission →
    auth.authority = permission ∨ ∃ origin sub, db.authorities.find? auth.key = some origin ∧
      db.authorities.find? (auth.account, permission) = some sub ∧ Above db origin.id sub

section Enforced

variable {codec : Codec} {db : AuthDb} {keys : List PublicKey} {messages : List Message}

theorem parentWalk_sound {editor fuel : ℕ} {info : AuthorityObject}
    (h : parentWalk db editor fuel info.parent = .ok true) : Above db editor info := by
  induction fuel generalizing info with
  | zero => cases h
  | succ fuel ih =>
    unfold parentWalk at h
    split at h
    · cases h
    · rename_i next hnext
      split_ifs at h with hup hzero
      · exact .step hnext (.parent hup)
      · cases h
      · exact .step hnext (ih h)

theorem checkLinked_sound {msg : Message} {auth : AccountAuth}
    (h : checkLinked db false msg auth = .ok ()) : LinkedOk db msg auth := by
  intro permission hpermission
  simp only [checkLinked, hpermission, Bool.false_eq_true, if_false] at h
  split_ifs at h with heq
  · exact .inl heq.symm
  · simp only [bind_eq_ok, fcAssert_eq_ok] at h
    obtain ⟨origin, horigin, sub, hsub, valid, hvalid, rfl⟩ := h
    refine .inr ⟨origin, sub, getAuthorityObject_ok horigin, getAuthorityObject_ok hsub, ?_⟩
    unfold parentPermissionValid at hvalid
    split_ifs at hvalid with howner hparent
    · cases hvalid
    · exact .parent hparent.symm
    · exact parentWalk_sound hvalid

/-- The check reads what is not there just if it gets to such a message. Where it returns, what is
linked is enforced just if the messages that it passes over keep to it anyway. -/
theorem checkAuthorization_linked_iff (codec : Codec) (db : AuthDb) (keys : List PublicKey)
    (messages : List Message) :
    ((∃ what, checkAuthorization codec db keys messages = .error (.undefined what)) ↔
      ReadsEmpty codec db messages) ∧
    (checkAuthorization codec db keys messages = .ok () →
      ((∀ msg ∈ messages, ∀ auth ∈ msg.authorization, LinkedOk db msg auth) ↔
        ∀ msg ∈ messages, msg.passedOver → ∀ auth ∈ msg.authorization, LinkedOk db msg auth)) := by
  refine ⟨checkAuthorization_reads, fun h => ⟨fun hall msg hmsg _ => hall msg hmsg, fun hover => ?_⟩⟩
  intro msg hmsg
  by_cases hpassed : msg.passedOver
  · exact hover msg hmsg hpassed
  · simp only [checkAuthorization, bind_eq_ok] at h
    obtain ⟨satisfys, hs, -⟩ := h
    obtain ⟨special, hspecial, hlinked⟩ := (exists_foldlM_ok_iff declareAll_ok _ _).1 ⟨_, hs⟩ msg hmsg
    rw [checkSpecial_of_looked hpassed] at hspecial
    cases hspecial
    exact fun auth hauth => checkLinked_sound (hlinked auth hauth)

end Enforced

/-- Account 5 has an authority 77 below its active one, with a key of its own. It asks for that
authority in transfers of the system account, and for any at all in its `lock`. -/
def postingDb : AuthDb where
  authorities := .ofList [((5, xmaxOwnerName), ⟨1, 0, oneKey 31, 0⟩),
    ((5, xmaxActiveName), ⟨2, 1, oneKey 31, 0⟩), ((5, 77), ⟨3, 2, oneKey 32, 0⟩)]
  nextAuthority := 4
  links := .ofList [((5, xmaxContractName, .transfer), 77),
    ((5, xmaxContractName, .lock), xmaxSysanyName)]

/-- A message for which account 5 declares its lowest authority. -/
def posted (code : AccountName) (type : FuncName) : Message := ⟨code, type, [⟨5, 77⟩], []⟩

theorem checkAuthorization_linked_posted :
    ∀ msg ∈ [posted xmaxContractName .transfer], ∀ auth ∈ msg.authorization,
      LinkedOk postingDb msg auth := by
  refine ((checkAuthorization_linked_iff fieldCodec postingDb [32]
    [posted xmaxContractName .transfer]).2 (by decide)).2 fun msg hmsg hover => ?_
  rw [List.mem_singleton] at hmsg
  subst hmsg
  simp [Message.passedOver, Message.aboutAuth, posted] at hover

/-- A contract account is sent a message with an authority below the active one that its functions
ask for, and the check returns; and a message that any authority will do for makes it read the
permission that is not there. -/
theorem linked_permission_passed_over :
    (∃ msg auth, auth ∈ msg.authorization ∧
      checkAuthorization fieldCodec postingDb [32] [msg] = .ok () ∧ ¬ LinkedOk postingDb msg auth) ∧
    ∃ msg what, checkAuthorization fieldCodec postingDb [32] [msg] = .error (.undefined what) := by
  refine ⟨⟨posted 8 .transfer, ⟨5, 77⟩, List.mem_singleton_self _, by decide, fun h => ?_⟩,
    posted xmaxContractName .lock, "empty optional", by decide⟩
  have hno : ¬ Above postingDb 3 ⟨1, 0, oneKey 31, 0⟩ := by
    rintro (hup | ⟨hup, -⟩)
    · cases hup
    · have hnone : findById postingDb 0 = none := by decide
      exact absurd (hup.symm.trans hnone) (Option.some_ne_none _)
  rcases h xmaxActiveName (by decide) with heq | ⟨origin, sub, horigin, hsub, habove⟩
  · exact absurd heq (by decide)
  · obtain rfl : ⟨3, 2, oneKey 32, 0⟩ = origin := Option.some.inj horigin
    obtain rfl : ⟨2, 1, oneKey 31, 0⟩ = sub := Option.some.inj hsub
    rcases habove with hup | ⟨hup, habove⟩
    · cases hup
    · obtain rfl := Option.some.inj hup
      exact hno habove

end XmaxChain
