import XmaxChain.Authority
import XmaxChain.Lib.DepthWalk
import Mathlib.Data.List.Perm.Basic

/-!
# Weighted authorities

An authority is satisfied when its keys that have signed and the accounts it names that are satisfied
themselves, less than three levels down, have its threshold of weight together. The check does not ask
that: it throws at the first account that it does not accept, needed or not, and an account that it has
accepted once counts at any depth. So it goes wrong with an authority that does not need all it names,
and it can with chains of three names, or with weights that no `int` holds.
-/

namespace XmaxChain

section Spec

variable (db : AuthDb) (keys : List PublicKey)

/-- Whether an authority is satisfied, with so many levels left. -/
def satisfiedAt : ℕ → AccountAuth → Bool
  | 0, _ => false
  | left + 1, auth =>
    match getAuthorityObject db auth with
    | .error _ => false
    | .ok obj =>
      obj.authoritys.threshold ≤
        ((obj.authoritys.keys.filter (·.key ∈ keys)).map (·.weight)).sum +
        ((obj.authoritys.accounts.filter (satisfiedAt left ·.permission)).map (·.weight)).sum

def satisfied (auth : AccountAuth) : Bool := satisfiedAt db keys maxCheckDepth auth

/-- Checked in this order, each authority that the check gets to is accepted just if it is satisfied. -/
def JudgedRight (declared : List AccountAuth) : Prop :=
  ∀ pre auth post aucache, declared = pre ++ auth :: post →
    pre.foldlM (checkDeclared db keys) [] = .ok aucache →
    ((∃ aucache', checkDeclared db keys aucache auth = .ok aucache') ↔ satisfied db keys auth = true)

end Spec

/-! ## The graph of names -/

section Names

variable (db : AuthDb) (keys : List PublicKey)

def othersOf (auth : AccountAuth) : List AccountAuth :=
  match getAuthorityObject db auth with
  | .error _ => []
  | .ok obj => obj.authoritys.accounts.map (·.permission)

abbrev Leads : AccountAuth → AccountAuth → Prop := DepthWalk.Reach (othersOf db)

/-- Named by an authority or on its behalf. -/
def NamedBelow (auth other : AccountAuth) : Prop := ∃ a ∈ othersOf db auth, Leads db a other

/-- The weight of the keys that have signed and of all the accounts, added up in `int`. -/
def fullWeight (auth : Types.Authority) : ℤ :=
  auth.accounts.foldl (fun w a => i32 (w + a.weight)) (addKeys keys auth 0)

/-- It is there, and has its threshold of weight with all its accounts counted. -/
def full (auth : AccountAuth) : Bool :=
  match getAuthorityObject db auth with
  | .error _ => false
  | .ok obj => intOf obj.authoritys.threshold ≤ fullWeight keys obj.authoritys

/-- What is three levels down on the first way that its accounts, taken in their order, lead to it. -/
def deepOf (auth : AccountAuth) : List AccountAuth := DepthWalk.deep (othersOf db) maxCheckDepth auth

/-- A threshold or a sum of weights that no `int` holds. -/
def Overlarge (auth : AccountAuth) : Prop :=
  ∃ obj, getAuthorityObject db auth = .ok obj ∧ (2 ^ 31 ≤ obj.authoritys.threshold ∨
    2 ^ 31 ≤ (obj.authoritys.keys.map (·.weight)).sum + (obj.authoritys.accounts.map (·.weight)).sum)

/-- One that is satisfied leads only to what has its weight, and to nothing too deep. One that is not, where
a chain of three names begins at it or it leads to a number too large, leads to one without its weight, or
to one too deep that no satisfied authority of `declared` leads to. -/
structure NamesRight (declared : List AccountAuth) (auth : AccountAuth) : Prop where
  needed : satisfied db keys auth = true → ∀ other, Leads db auth other → full db keys other = true
  near : satisfied db keys auth = true → deepOf db auth = []
  refused : satisfied db keys auth = false →
    (DepthWalk.HasChain (othersOf db) maxCheckDepth auth ∨ ∃ other, Leads db auth other ∧ Overlarge db other) →
    (∃ other, Leads db auth other ∧ full db keys other = false) ∨
      ∃ other ∈ deepOf db auth, ∀ a ∈ declared, satisfied db keys a = true → ¬ NamedBelow db a other

end Names

/-! ## What the check accepts -/

section Check

variable {db : AuthDb} {keys : List PublicKey}

variable (db keys) in
/-- What has been met lies less than three levels down and has its weight. -/
def AllPass (ms : List (ℕ × AccountAuth)) : Prop := ∀ m ∈ ms, 0 < m.1 ∧ full db keys m.2 = true

@[simp] theorem allPass_nil : AllPass db keys [] := by simp [AllPass]

@[simp] theorem allPass_cons {m : ℕ × AccountAuth} {ms : List (ℕ × AccountAuth)} :
    AllPass db keys (m :: ms) ↔ (0 < m.1 ∧ full db keys m.2 = true) ∧ AllPass db keys ms := by
  simp [AllPass]

@[simp] theorem allPass_append {ms ms' : List (ℕ × AccountAuth)} :
    AllPass db keys (ms ++ ms') ↔ AllPass db keys ms ∧ AllPass db keys ms' := by
  simp only [AllPass, List.mem_append]
  exact forall₂_or_left

theorem checkOthers_eq_ok {left : ℕ}
    (hcheck : ∀ {auth seen aucache}, checkWithDepth db keys left auth seen = .ok aucache ↔
      AllPass db keys (DepthWalk.walk (othersOf db) left auth seen).1 ∧
        aucache = (DepthWalk.walk (othersOf db) left auth seen).2) :
    ∀ {accounts : List Types.AccountWeight} {seen : List AccountAuth} {w : ℤ}
      {r : List AccountAuth × ℤ},
      accounts.foldlM (checkOther (checkWithDepth db keys left)) (seen, w) = .ok r ↔
        AllPass db keys (DepthWalk.walkAll (DepthWalk.walk (othersOf db) left)
            (accounts.map (·.permission)) seen).1 ∧
          r = ((DepthWalk.walkAll (DepthWalk.walk (othersOf db) left)
              (accounts.map (·.permission)) seen).2,
            accounts.foldl (fun w a => i32 (w + a.weight)) w)
  | [], seen, w, r => by
    simp [pure, Except.pure, DepthWalk.walkAll, @eq_comm _ _ r]
  | a :: accounts, seen, w, r => by
    simp only [List.foldlM_cons, bind_eq_ok, List.map_cons, List.foldl_cons, DepthWalk.walkAll]
    by_cases hseen : a.permission ∈ seen
    · simp only [if_pos hseen, checkOther, Except.ok.injEq, exists_eq_left', checkOthers_eq_ok hcheck]
    · simp only [if_neg hseen, checkOther, bind_eq_ok, hcheck, allPass_append, pure, Except.pure,
        Except.ok.injEq]
      constructor
      · rintro ⟨_, ⟨_, ⟨hmet, rfl⟩, rfl⟩, hrest⟩
        obtain ⟨hpass, rfl⟩ := (checkOthers_eq_ok hcheck).1 hrest
        exact ⟨⟨hmet, hpass⟩, rfl⟩
      · rintro ⟨⟨hmet, hrest⟩, rfl⟩
        exact ⟨_, ⟨_, ⟨hmet, rfl⟩, rfl⟩, (checkOthers_eq_ok hcheck).2 ⟨hrest, rfl⟩⟩

theorem checkWithDepth_eq_ok : ∀ {left : ℕ} {auth : AccountAuth} {seen aucache : List AccountAuth},
    checkWithDepth db keys left auth seen = .ok aucache ↔
      AllPass db keys (DepthWalk.walk (othersOf db) left auth seen).1 ∧
        aucache = (DepthWalk.walk (othersOf db) left auth seen).2
  | 0, auth, seen, aucache => by simp [checkWithDepth, DepthWalk.walk]
  | left + 1, auth, seen, aucache => by
    simp only [checkWithDepth, DepthWalk.walk, bind_eq_ok, allPass_cons, full]
    cases hobj : getAuthorityObject db auth with
    | error e => simp
    | ok obj =>
      have hothers : othersOf db auth = obj.authoritys.accounts.map (·.permission) := by
        rw [othersOf, hobj]
      have hloop := @checkOthers_eq_ok db keys left checkWithDepth_eq_ok obj.authoritys.accounts
        seen (addKeys keys obj.authoritys 0)
      simp only [Except.ok.injEq, exists_eq_left', hothers, hloop, fcAssert_eq_ok, decide_eq_true_eq,
        pure, Except.pure, Nat.zero_lt_succ, true_and]
      constructor
      · rintro ⟨_, ⟨hmet, rfl⟩, _, hle, rfl⟩
        exact ⟨⟨hle, hmet⟩, rfl⟩
      · rintro ⟨⟨hle, hmet⟩, rfl⟩
        exact ⟨_, ⟨hmet, rfl⟩, (), hle, rfl⟩

theorem checkDeclared_eq_ok {auth : AccountAuth} {seen aucache : List AccountAuth} :
    checkDeclared db keys seen auth = .ok aucache ↔
      AllPass db keys (DepthWalk.walk (othersOf db) maxCheckDepth auth seen).1 ∧
        aucache = (DepthWalk.walk (othersOf db) maxCheckDepth auth seen).2 := by
  simp only [checkDeclared, bind_eq_ok, checkWithDepth_eq_ok]
  constructor
  · rintro ⟨_, _, h⟩
    exact h
  · intro h
    have hself := (h.1 _ (DepthWalk.walk_head maxCheckDepth auth seen)).2
    rcases hobj : getAuthorityObject db auth with e | obj
    · simp [full, hobj] at hself
    · exact ⟨obj, rfl, h⟩

variable (db keys) in
structure Remembers (pre aucache : List AccountAuth) : Prop where
  closed : DepthWalk.Closed (othersOf db) aucache
  full : ∀ a ∈ aucache, full db keys a = true
  mem : ∀ a, a ∈ aucache ↔ ∃ b ∈ pre, NamedBelow db b a

theorem Remembers.nil : Remembers db keys [] [] := ⟨by simp [DepthWalk.Closed], by simp, by simp⟩

/-- An authority is accepted just if all that it leads to has its weight, and what is too deep has been
met on behalf of others. -/
theorem Remembers.accepted_iff {pre aucache : List AccountAuth} (h : Remembers db keys pre aucache)
    {auth : AccountAuth} :
    (∃ aucache', checkDeclared db keys aucache auth = .ok aucache') ↔
      (∀ other, Leads db auth other → XmaxChain.full db keys other = true) ∧
        ∀ other ∈ deepOf db auth, other ∈ aucache := by
  simp only [checkDeclared_eq_ok, exists_and_left, exists_eq, and_true]
  exact DepthWalk.walk_all_iff h.closed h.full (by decide)

theorem Remembers.accept {pre aucache aucache' : List AccountAuth} (h : Remembers db keys pre aucache)
    {auth : AccountAuth} (hok : checkDeclared db keys aucache auth = .ok aucache') :
    Remembers db keys (pre ++ [auth]) aucache' := by
  have hfull := (h.accepted_iff.1 ⟨_, hok⟩).1
  obtain ⟨hpass, rfl⟩ := checkDeclared_eq_ok.1 hok
  obtain ⟨hclosed, hmem⟩ := DepthWalk.walk_seen h.closed fun m hm => (hpass m hm).1
  have hmem' : ∀ a, a ∈ (DepthWalk.walk (othersOf db) maxCheckDepth auth aucache).2 ↔
      a ∈ aucache ∨ NamedBelow db auth a := hmem
  refine ⟨hclosed, fun a ha => ?_, fun a => ?_⟩
  · rcases (hmem' a).1 ha with ha | ⟨b, hb, hba⟩
    · exact h.full a ha
    · exact hfull a (.head hb hba)
  · rw [hmem', h.mem]
    simp [or_and_right, exists_or]

theorem Remembers.of_foldlM : ∀ {pre pre' aucache aucache' : List AccountAuth},
    Remembers db keys pre' aucache → pre.foldlM (checkDeclared db keys) aucache = .ok aucache' →
      Remembers db keys (pre' ++ pre) aucache'
  | [], pre', aucache, aucache', h, hok => by
    cases hok
    rwa [List.append_nil]
  | auth :: pre, pre', aucache, aucache', h, hok => by
    rw [List.foldlM_cons, bind_eq_ok] at hok
    obtain ⟨_, hfirst, hrest⟩ := hok
    have := (h.accept hfirst).of_foldlM hrest
    rwa [List.append_assoc] at this

/-- Authorities that lead only to what has its weight, and to nothing too deep, are accepted in every
order. -/
theorem accepted_all {pre' aucache : List AccountAuth} (h : Remembers db keys pre' aucache) :
    ∀ {pre : List AccountAuth}, (∀ a ∈ pre, (∀ other, Leads db a other → full db keys other = true) ∧
      deepOf db a = []) → ∃ aucache', pre.foldlM (checkDeclared db keys) aucache = .ok aucache'
  | [], _ => ⟨aucache, rfl⟩
  | a :: pre, hpre => by
    obtain ⟨hfull, hdeep⟩ := hpre a List.mem_cons_self
    obtain ⟨aucache₁, hok⟩ := h.accepted_iff.2 ⟨hfull, by simp [hdeep]⟩
    obtain ⟨aucache', hrest⟩ := accepted_all (h.accept hok) fun b hb => hpre b (List.mem_cons_of_mem _ hb)
    exact ⟨aucache', by rw [List.foldlM_cons, hok]; exact hrest⟩

end Check

/-! ## What is satisfied -/

section Satisfied

variable {db : AuthDb} {keys : List PublicKey}

theorem i32_foldl_eq {β : Type} (weight : β → ℕ) : ∀ (bs : List β) (w : ℕ),
    w + (bs.map weight).sum < 2 ^ 31 →
      bs.foldl (fun w b => i32 (w + weight b)) (w : ℤ) = ((w + (bs.map weight).sum : ℕ) : ℤ)
  | [], w, _ => by simp
  | b :: bs, w, h => by
    rw [List.map_cons, List.sum_cons] at h
    have hi : i32 ((w : ℤ) + weight b) = ((w + weight b : ℕ) : ℤ) := by
      rw [i32, ← Nat.cast_add]
      exact Int.bmod_eq_of_le (by omega) (by omega)
    rw [List.foldl_cons, hi, i32_foldl_eq weight bs _ (by omega), List.map_cons, List.sum_cons,
      Nat.add_assoc]

theorem addKeys_eq (auth : Types.Authority) : addKeys keys auth 0 =
    (auth.keys.filter (·.key ∈ keys)).foldl (fun w k => i32 (w + k.weight)) 0 := by
  rw [addKeys, List.foldl_filter]
  simp only [decide_eq_true_eq]

/-- Without chains of so many names and numbers too large, what leads only to authorities with their full
weight is satisfied. -/
theorem satisfiedAt_of_full : ∀ {left : ℕ} {auth : AccountAuth},
    ¬ DepthWalk.HasChain (othersOf db) left auth →
    (∀ other, Leads db auth other → full db keys other = true ∧ ¬ Overlarge db other) →
    satisfiedAt db keys left auth = true
  | 0, _, hchain, _ => absurd trivial hchain
  | left + 1, auth, hchain, hfull => by
    obtain ⟨hself, hsmall⟩ := hfull auth .refl
    unfold satisfiedAt
    unfold full at hself
    cases hobj : getAuthorityObject db auth with
    | error e => simp [hobj] at hself
    | ok obj =>
      have hothers : othersOf db auth = obj.authoritys.accounts.map (·.permission) := by
        rw [othersOf, hobj]
      have hall : obj.authoritys.accounts.filter (satisfiedAt db keys left ·.permission)
          = obj.authoritys.accounts := by
        refine List.filter_eq_self.2 fun a ha => ?_
        have hmem : a.permission ∈ othersOf db auth := by
          rw [hothers]
          exact List.mem_map_of_mem ha
        exact satisfiedAt_of_full (fun h => hchain ⟨_, hmem, h⟩) fun other h => hfull other (.head hmem h)
      have hlt : obj.authoritys.threshold < 2 ^ 31 ∧ (obj.authoritys.keys.map (·.weight)).sum +
          (obj.authoritys.accounts.map (·.weight)).sum < 2 ^ 31 := by
        by_contra hnot
        exact hsmall ⟨obj, hobj, by omega⟩
      have hkeys : ((obj.authoritys.keys.filter (·.key ∈ keys)).map (·.weight)).sum
          ≤ (obj.authoritys.keys.map (·.weight)).sum :=
        ((List.filter_sublist (l := obj.authoritys.keys)).map _).sum_le_sum fun _ _ => Nat.zero_le _
      have hsum : fullWeight keys obj.authoritys =
          ((((obj.authoritys.keys.filter (·.key ∈ keys)).map (·.weight)).sum +
            (obj.authoritys.accounts.map (·.weight)).sum : ℕ) : ℤ) := by
        have hstart := i32_foldl_eq (fun k : Types.KeyWeight => k.weight)
          (obj.authoritys.keys.filter (·.key ∈ keys)) 0 (by omega)
        rw [Nat.cast_zero, Nat.zero_add] at hstart
        rw [fullWeight, addKeys_eq, hstart,
          i32_foldl_eq (fun a : Types.AccountWeight => a.weight) _ _ (by omega)]
      simp only [hobj, decide_eq_true_eq, hsum, intOf] at hself
      simp only [hall, decide_eq_true_eq]
      omega

end Satisfied

section Exact

variable {db : AuthDb} {keys : List PublicKey} {declared : List AccountAuth}

theorem NamesRight.not_accepted {auth : AccountAuth} (h : NamesRight db keys declared auth)
    (hnot : satisfied db keys auth = false) :
    ¬ ((∀ other, Leads db auth other → full db keys other = true) ∧ ∀ other ∈ deepOf db auth,
      ∃ a ∈ declared, satisfied db keys a = true ∧ NamedBelow db a other) := by
  rintro ⟨hfull, hdeep⟩
  by_cases hstrains : DepthWalk.HasChain (othersOf db) maxCheckDepth auth ∨
      ∃ other, Leads db auth other ∧ Overlarge db other
  · rcases h.refused hnot hstrains with ⟨other, hlead, hother⟩ | ⟨other, hother, hnone⟩
    · rw [hfull other hlead] at hother
      cases hother
    · obtain ⟨a, ha, hsat, hbelow⟩ := hdeep other hother
      exact hnone a ha hsat hbelow
  · rw [not_or] at hstrains
    have hsat : satisfied db keys auth = true := satisfiedAt_of_full hstrains.1 fun other hlead =>
      ⟨hfull other hlead, fun hlarge => hstrains.2 ⟨other, hlead, hlarge⟩⟩
    rw [hnot] at hsat
    cases hsat

theorem satisfied_of_accepted (h : ∀ auth ∈ declared, NamesRight db keys declared auth) :
    ∀ {pre : List AccountAuth} {aucache : List AccountAuth}, (∀ a ∈ pre, a ∈ declared) →
      pre.foldlM (checkDeclared db keys) [] = .ok aucache → ∀ a ∈ pre, satisfied db keys a = true := by
  intro pre
  induction pre using List.reverseRecOn with
  | nil => simp
  | append_singleton pre auth ih =>
    intro aucache hpre hok
    rw [List.foldlM_append, bind_eq_ok] at hok
    obtain ⟨aucache₁, hok₁, hlast⟩ := hok
    rw [List.foldlM_cons, bind_eq_ok] at hlast
    obtain ⟨aucache₂, hlast, -⟩ := hlast
    have hbefore := ih (fun a ha => hpre a (List.mem_append_left _ ha)) hok₁
    have hrem : Remembers db keys pre aucache₁ := Remembers.nil.of_foldlM hok₁
    have hauth := hpre auth (List.mem_append_right _ (List.mem_singleton_self _))
    obtain ⟨hfull, hdeep⟩ := hrem.accepted_iff.1 ⟨_, hlast⟩
    have hsat : satisfied db keys auth = true := by
      by_contra hnot
      refine (h auth hauth).not_accepted (Bool.eq_false_iff.2 hnot) ⟨hfull, fun other hother => ?_⟩
      obtain ⟨a, ha, hbelow⟩ := (hrem.mem other).1 (hdeep other hother)
      exact ⟨a, hpre a (List.mem_append_left _ ha), hbefore a ha, hbelow⟩
    intro a ha
    rcases List.mem_append.1 ha with ha | ha
    · exact hbefore a ha
    · rwa [List.mem_singleton.1 ha]

/-- What is judged right in every order is so when it is checked first, and after all that is
satisfied. -/
theorem namesRight_of_judgedRight (h : ∀ order, order.Perm declared → JudgedRight db keys order)
    {auth : AccountAuth} (hauth : auth ∈ declared) : NamesRight db keys declared auth := by
  have hfirst : ∀ a ∈ declared, ((∀ other, Leads db a other → full db keys other = true) ∧
      ∀ other ∈ deepOf db a, other ∈ ([] : List AccountAuth)) ↔ satisfied db keys a = true :=
    fun a ha => by
      rw [← Remembers.nil.accepted_iff]
      exact h _ (List.perm_cons_erase ha).symm [] a _ _ rfl rfl
  have hnone : ∀ a ∈ declared, satisfied db keys a = true → deepOf db a = [] := fun a ha hsat =>
    List.eq_nil_iff_forall_not_mem.2 fun other hother =>
      absurd (((hfirst a ha).2 hsat).2 other hother) List.not_mem_nil
  refine ⟨fun hsat => ((hfirst auth hauth).2 hsat).1, hnone auth hauth, fun hnot _ => ?_⟩
  by_contra hclear
  rw [not_or] at hclear
  -- all that is satisfied first, then this one
  let pre := declared.filter (satisfied db keys ·)
  let post := (declared.filter fun a => !satisfied db keys a).erase auth
  have hin : auth ∈ declared.filter fun a => !satisfied db keys a := by simp [hauth, hnot]
  have hperm : (pre ++ auth :: post).Perm declared :=
    ((List.perm_cons_erase hin).symm.append_left pre).trans (List.filter_append_perm _ _)
  obtain ⟨aucache, hok⟩ : ∃ aucache, pre.foldlM (checkDeclared db keys) [] = .ok aucache :=
    accepted_all .nil fun a ha => ⟨((hfirst a (List.mem_of_mem_filter ha)).2 (List.of_mem_filter ha)).1,
      hnone a (List.mem_of_mem_filter ha) (List.of_mem_filter ha)⟩
  have hrem : Remembers db keys pre aucache := Remembers.nil.of_foldlM hok
  have hright := h _ hperm pre auth post aucache rfl hok
  rw [hrem.accepted_iff, hnot] at hright
  refine absurd (hright.1 ⟨fun other hlead => ?_, fun other hother => ?_⟩) Bool.false_ne_true
  · by_contra hother
    exact hclear.1 ⟨other, hlead, Bool.eq_false_iff.2 hother⟩
  · by_contra hmem
    refine hclear.2 ⟨other, hother, fun a ha hsat hbelow => hmem ((hrem.mem other).2 ⟨a, ?_, hbelow⟩)⟩
    exact List.mem_filter.2 ⟨ha, hsat⟩

end Exact

/-- In every order each declared authority is judged right just if no satisfied one of them names what it
does not need or what is too deep, and no other is accepted for a chain of names or a number too large. -/
theorem auth_checker_exact_iff (db : AuthDb) (keys : List PublicKey) (declared : List AccountAuth) :
    (∀ order, order.Perm declared → JudgedRight db keys order) ↔
      ∀ auth ∈ declared, NamesRight db keys declared auth := by
  refine ⟨fun h auth hauth => namesRight_of_judgedRight h hauth, fun h order hperm => ?_⟩
  rintro pre auth post aucache rfl hok
  have hmem : ∀ a ∈ pre, a ∈ declared := fun a ha => hperm.mem_iff.1 (List.mem_append_left _ ha)
  have hauth : auth ∈ declared :=
    hperm.mem_iff.1 (List.mem_append_right _ List.mem_cons_self)
  have hrem : Remembers db keys pre aucache := Remembers.nil.of_foldlM hok
  rw [hrem.accepted_iff]
  constructor
  · rintro ⟨hfull, hdeep⟩
    by_contra hnot
    refine (h auth hauth).not_accepted (Bool.eq_false_iff.2 hnot) ⟨hfull, fun other hother => ?_⟩
    obtain ⟨a, ha, hbelow⟩ := (hrem.mem other).1 (hdeep other hother)
    exact ⟨a, hmem a ha, satisfied_of_accepted h hmem hok a ha, hbelow⟩
  · intro hsat
    exact ⟨(h auth hauth).needed hsat, by simp [(h auth hauth).near hsat]⟩

/-- Accounts 1 and 2 each name account 3, the second through another; 3 names 4, which has key 31. Account
5 has key 31 and names 6, which has another. -/
def namingDb : AuthDb where
  authorities := .ofList [
    ((1, xmaxActiveName), ⟨1, 0, ⟨1, [], [⟨⟨3, xmaxActiveName⟩, 1⟩]⟩, 0⟩),
    ((2, xmaxActiveName), ⟨2, 0, ⟨1, [], [⟨⟨8, xmaxActiveName⟩, 1⟩]⟩, 0⟩),
    ((8, xmaxActiveName), ⟨3, 0, ⟨1, [], [⟨⟨3, xmaxActiveName⟩, 1⟩]⟩, 0⟩),
    ((3, xmaxActiveName), ⟨4, 0, ⟨1, [], [⟨⟨4, xmaxActiveName⟩, 1⟩]⟩, 0⟩),
    ((4, xmaxActiveName), ⟨5, 0, ⟨1, [⟨31, 1⟩], []⟩, 0⟩),
    ((5, xmaxActiveName), ⟨6, 0, ⟨1, [⟨31, 1⟩], [⟨⟨6, xmaxActiveName⟩, 1⟩]⟩, 0⟩),
    ((6, xmaxActiveName), ⟨7, 0, ⟨1, [⟨32, 1⟩], []⟩, 0⟩)]
  nextAuthority := 8

/-- An account is refused for another one that it does not need, and one is accepted only when another has
been checked before. -/
theorem weighted_authorities_misjudged :
    (satisfied namingDb [31] ⟨5, xmaxActiveName⟩ = true ∧
      ∀ aucache, checkDeclared namingDb [31] [] ⟨5, xmaxActiveName⟩ ≠ .ok aucache) ∧
    (satisfied namingDb [31] ⟨2, xmaxActiveName⟩ = false ∧
      (∃ aucache, [⟨1, xmaxActiveName⟩, ⟨2, xmaxActiveName⟩].foldlM (checkDeclared namingDb [31]) []
        = .ok aucache) ∧
      ∀ aucache, [⟨2, xmaxActiveName⟩, ⟨1, xmaxActiveName⟩].foldlM (checkDeclared namingDb [31]) []
        ≠ .ok aucache) := by
  refine ⟨⟨by decide, fun aucache h => ?_⟩, by decide,
    ⟨[⟨4, xmaxActiveName⟩, ⟨3, xmaxActiveName⟩, ⟨8, xmaxActiveName⟩], by decide⟩,
    fun aucache h => ?_⟩
  · rw [checkDeclared_eq_ok] at h
    exact absurd (h.1 (2, ⟨6, xmaxActiveName⟩) (by decide)).2 (by decide)
  · have hrefused : [⟨2, xmaxActiveName⟩, ⟨1, xmaxActiveName⟩].foldlM (checkDeclared namingDb [31]) []
        = .error (.fc "depth in check must be less than 3") := by decide
    rw [hrefused] at h
    cases h

end XmaxChain
