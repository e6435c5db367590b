import Mathlib.Data.List.Sort
import Mathlib.Data.List.Lex
import Mathlib.Tactic

/-!
# Indices with composite keys

An ordered index whose keys are lists of components. It is searched with a tuple, and a tuple may have
fewer components than the keys: only those that both have are compared. A position in the index is a
number, and the length of the index is its end.
-/

namespace CompositeIndex

variable {R C : Type*} [LinearOrder C]

def below : List C → List C → Bool
  | a :: as, b :: bs => a < b || (a = b && below as bs)
  | _, _ => false

variable (key : R → List C)

/-- The key of a row begins with `p`. -/
def within (p : List C) (r : R) : Bool := p <+: key r

/-- The rows in the order of their keys. -/
def index (rows : List R) : List R := rows.insertionSort fun a b => key a ≤ key b

/-- The first position whose key is not below the tuple. -/
def lowerBound (tuple : List C) (idx : List R) : ℕ :=
  (idx.takeWhile fun r => below (key r) tuple).length

/-- The first position whose key the tuple is below. -/
def upperBound (tuple : List C) (idx : List R) : ℕ :=
  (idx.takeWhile fun r => !below tuple (key r)).length

/-- The first row that compares equal to the tuple. -/
def find (tuple : List C) (idx : List R) : Option R :=
  idx[lowerBound key tuple idx]?.filter fun r => !below tuple (key r)

variable {key} in
@[simp] theorem within_eq_true {p : List C} {r : R} : within key p r = true ↔ p <+: key r :=
  decide_eq_true_iff

section Below

variable {a b t : List C}

@[simp] theorem below_nil : below a ([] : List C) = false := by cases a <;> rfl

@[simp] theorem nil_below : below ([] : List C) a = false := by cases a <;> rfl

theorem below_cons {x y : C} :
    below (x :: a) (y :: b) = true ↔ x < y ∨ x = y ∧ below a b = true := by
  simp [below]

theorem below_trans (hab : below a b = true) (hbt : below b t = true) : below a t = true := by
  induction a generalizing b t with
  | nil => simp at hab
  | cons x a ih =>
    cases b with
    | nil => simp at hab
    | cons y b =>
      cases t with
      | nil => simp at hbt
      | cons z t =>
        rw [below_cons] at hab hbt ⊢
        obtain hxy | ⟨rfl, hab⟩ := hab
        · obtain hyz | ⟨rfl, -⟩ := hbt
          · exact .inl (hxy.trans hyz)
          · exact .inl hxy
        · obtain hyz | ⟨rfl, hbt⟩ := hbt
          · exact .inl hyz
          · exact .inr ⟨rfl, ih hab hbt⟩

@[simp] theorem below_self : below a a = false := by
  induction a with
  | nil => rfl
  | cons x a ih => simp [below, ih]

theorem below_asymm (h : below a b = true) : below b a = false := by
  by_contra hba
  rw [Bool.not_eq_false] at hba
  simpa using below_trans h hba

/-- Between keys of one length it is the order of lists. -/
theorem below_iff_lt (h : a.length = b.length) : below a b = true ↔ a < b := by
  induction a generalizing b with
  | nil =>
    obtain rfl := List.length_eq_zero_iff.1 h.symm
    simp
  | cons x a ih =>
    cases b with
    | nil => simp at h
    | cons y b =>
      rw [below_cons, ih (by simpa using h), List.cons_lt_cons_iff]

/-- A tuple that is not longer than a key compares equal to it just if the key begins with it. -/
theorem alike_iff (h : t.length ≤ a.length) :
    below a t = false ∧ below t a = false ↔ t <+: a := by
  induction t generalizing a with
  | nil => simp
  | cons y t ih =>
    cases a with
    | nil => simp at h
    | cons x a =>
      rw [List.cons_prefix_cons, ← ih (by simpa using h), ← Bool.not_eq_true, ← Bool.not_eq_true,
        below_cons, below_cons]
      constructor
      · rintro ⟨hxy, hyx⟩
        obtain hlt | rfl | hlt := lt_trichotomy x y
        · exact absurd (.inl hlt) hxy
        · exact ⟨rfl, Bool.not_eq_true _ ▸ fun hb => hxy (.inr ⟨rfl, hb⟩),
            Bool.not_eq_true _ ▸ fun hb => hyx (.inr ⟨rfl, hb⟩)⟩
        · exact absurd (.inl hlt) hyx
      · rintro ⟨rfl, ha, ht⟩
        simp [ha, ht]

theorem alike_of_prefixed (h : t <+: a) : below a t = false ∧ below t a = false :=
  (alike_iff h.length_le).2 h

theorem eq_of_below_false (h : a.length = b.length) (hab : below a b = false)
    (hba : below b a = false) : a = b :=
  ((alike_iff h.le).1 ⟨hba, hab⟩).eq_of_length h

theorem below_append {p : List C} : below (p ++ a) (p ++ b) = below a b := by
  induction p with
  | nil => rfl
  | cons x p ih => simp [below, ih]

theorem below_append_right (h : below a t = true) (u : List C) : below a (t ++ u) = true := by
  induction a generalizing t with
  | nil => simp at h
  | cons x a ih =>
    cases t with
    | nil => simp at h
    | cons y t =>
      rw [List.cons_append, below_cons]
      obtain hlt | ⟨rfl, hrest⟩ := below_cons.1 h
      · exact .inl hlt
      · exact .inr ⟨rfl, ih hrest⟩

/-- Of keys that begin alike in length, the beginnings are compared first. -/
theorem below_append_iff {u v : List C} (h : a.length = b.length) :
    below (a ++ u) (b ++ v) = true ↔ below a b = true ∨ a = b ∧ below u v = true := by
  induction a generalizing b with
  | nil =>
    obtain rfl := List.length_eq_zero_iff.1 h.symm
    simp
  | cons x a ih =>
    cases b with
    | nil => simp at h
    | cons y b =>
      rw [List.cons_append, List.cons_append, below_cons, below_cons, ih (by simpa using h), List.cons_eq_cons]
      tauto

end Below

section Index

variable {key} {rows : List R} {r : R}

theorem mem_index : r ∈ index key rows ↔ r ∈ rows := (List.perm_insertionSort _ _).mem_iff

/-- Where the keys are distinct, each is less than those after it. -/
theorem index_sorted (h : rows.Pairwise fun a b => key a ≠ key b) :
    (index key rows).Pairwise fun a b => key a < key b := by
  have hne : (index key rows).Pairwise fun a b => key a ≠ key b :=
    ((List.perm_insertionSort _ _).pairwise_iff fun h => h.symm).2 h
  have hle : (index key rows).Pairwise fun a b => key a ≤ key b := by
    have : Std.Total fun a b : R => key a ≤ key b := ⟨fun a b => le_total _ _⟩
    have : IsTrans R fun a b => key a ≤ key b := ⟨fun a b c => le_trans⟩
    exact List.pairwise_insertionSort _ _
  exact hle.imp₂ (fun _ _ hle hne => lt_of_le_of_ne hle hne) hne

end Index

/-! ## The rows under a prefix -/

theorem getElem?_takeWhile_length {l : List R} {f : R → Bool} :
    l[(l.takeWhile f).length]? = l.find? fun x => !f x := by
  induction l with
  | nil => rfl
  | cons x l ih => cases hx : f x <;> simp [hx, ih]

section Stretch

variable {key} {idx : List R} {n : ℕ}

theorem takeWhile_eq_filter {l : List R} {f : R → Bool}
    (h : l.Pairwise fun a b => f b = true → f a = true) : l.takeWhile f = l.filter f := by
  induction l with
  | nil => rfl
  | cons x l ih =>
    obtain ⟨hx, hl⟩ := List.pairwise_cons.1 h
    cases hf : f x with
    | true => simp [hf, ih hl]
    | false =>
      have hnone : l.filter f = [] := List.filter_eq_nil_iff.2 fun y hy hfy => by
        simp [hx y hy hfy] at hf
      simp [hf, hnone]

/-- A row meets what holds of a beginning just if it comes before where that ends. -/
theorem getElem?_takeWhile_iff {l : List R} {f : R → Bool} (h : l.Pairwise fun a b => f b = true → f a = true) {i : ℕ}
    {x : R} (hx : l[i]? = some x) : f x = true ↔ i < (l.takeWhile f).length := by
  induction l generalizing i with
  | nil => cases hx
  | cons y l ih =>
    obtain ⟨hy, hl⟩ := List.pairwise_cons.1 h
    cases i with
    | zero =>
      cases hx
      cases hf : f x <;> simp [hf]
    | succ i =>
      rw [List.getElem?_cons_succ] at hx
      cases hf : f y with
      | true => simpa [hf] using ih hl hx
      | false =>
        have hnot : ¬ f x = true := fun hfx => by simp [hy x (List.mem_of_getElem? hx) hfx] at hf
        simp [hf, hnot]

theorem takeWhile_length_le {l : List R} {f g : R → Bool} (h : ∀ x ∈ l, f x = true → g x = true) :
    (l.takeWhile f).length ≤ (l.takeWhile g).length := by
  induction l with
  | nil => exact le_rfl
  | cons x l ih =>
    obtain ⟨hx, hl⟩ := List.forall_mem_cons.1 h
    cases hf : f x with
    | true => simpa [hf, hx hf] using ih hl
    | false => simp [hf]

/-- What holds of two beginnings of one length is the same. -/
theorem takeWhile_length_eq_iff {l : List R} {f g : R → Bool} (hf : l.Pairwise fun a b => f b = true → f a = true)
    (hg : l.Pairwise fun a b => g b = true → g a = true) :
    (l.takeWhile f).length = (l.takeWhile g).length ↔ ∀ x ∈ l, (f x = true ↔ g x = true) := by
  constructor
  · intro hlength x hx
    obtain ⟨i, hi⟩ := List.mem_iff_getElem?.1 hx
    rw [getElem?_takeWhile_iff hf hi, getElem?_takeWhile_iff hg hi, hlength]
  · intro h
    exact le_antisymm (takeWhile_length_le fun x hx => (h x hx).1) (takeWhile_length_le fun x hx => (h x hx).2)

/-- A longer beginning is a shorter one and what there is between them. -/
theorem takeWhile_eq_append {l : List R} {f g : R → Bool} (hf : l.Pairwise fun a b => f b = true → f a = true)
    (hg : l.Pairwise fun a b => g b = true → g a = true) (hfg : ∀ x ∈ l, f x = true → g x = true) :
    l.takeWhile g = l.takeWhile f ++ l.filter fun x => g x && !f x := by
  induction l with
  | nil => rfl
  | cons x l ih =>
    obtain ⟨hfx, hfl⟩ := List.pairwise_cons.1 hf
    obtain ⟨hx, hl⟩ := List.forall_mem_cons.1 hfg
    cases h : f x with
    | true => simpa [h, hx h] using ih hfl hg.tail hl
    | false =>
      have hnone : ∀ y ∈ x :: l, f y = false := by
        intro y hy
        obtain rfl | hy := List.mem_cons.1 hy
        · exact h
        · exact Bool.not_eq_true _ ▸ fun hfy => by simp [hfx y hy hfy] at h
      have hsame : (x :: l).filter (fun y => g y && !f y) = (x :: l).filter g :=
        List.filter_congr fun y hy => by simp [hnone y hy]
      rw [hsame, takeWhile_eq_filter hg, List.takeWhile_cons_of_neg (by simp [h]), List.nil_append]

theorem getElem?_prefix_pred {l l' : List R} (h : l <+: l') :
    (if l.length = 0 then none else l'[l.length - 1]?) = l.getLast? := by
  obtain ⟨rest, rfl⟩ := h
  split_ifs with hnil
  · rw [List.length_eq_zero_iff.1 hnil, List.getLast?_nil]
  · rw [List.getElem?_append_left (by omega), List.getLast?_eq_getElem?]

theorem idxOf_middle [DecidableEq R] {l m : List R} {x : R} (h : (l ++ x :: m).Nodup) :
    (l ++ x :: m).idxOf x = l.length := by
  have hx : x ∉ l := fun hmem => (List.disjoint_of_nodup_append h) hmem List.mem_cons_self
  simp [List.idxOf_append_of_notMem hx]

theorem getElem?_middle_succ {l m : List R} {x : R} : (l ++ x :: m)[l.length + 1]? = m.head? := by
  rw [List.getElem?_append_right (by omega), Nat.add_sub_cancel_left, List.getElem?_cons_succ,
    List.head?_eq_getElem?]

/-- Keys of one length, each less than those after it. -/
structure Sorted (key : R → List C) (n : ℕ) (idx : List R) : Prop where
  length : ∀ r ∈ idx, (key r).length = n
  lt : idx.Pairwise fun a b => key a < key b

theorem Sorted.below (h : Sorted key n idx) :
    idx.Pairwise fun a b => CompositeIndex.below (key a) (key b) = true :=
  h.lt.imp_of_mem fun ha hb hlt => (below_iff_lt ((h.length _ ha).trans (h.length _ hb).symm)).2 hlt

theorem Sorted.nodup (h : Sorted key n idx) : idx.Nodup :=
  h.lt.imp fun hlt => by
    rintro rfl
    exact lt_irrefl _ hlt

/-- What comes before a prefix, what begins with it, and what comes after it. -/
theorem Sorted.split (h : Sorted key n idx) {p : List C} (hp : p.length ≤ n) :
    idx = idx.filter (fun r => CompositeIndex.below (key r) p)
      ++ (idx.filter (within key p)
        ++ idx.filter fun r => CompositeIndex.below p (key r)) := by
  have hbelow := h.below
  have hlength := h.length
  clear h
  induction idx with
  | nil => rfl
  | cons x idx ih =>
    obtain ⟨hx, hidx⟩ := List.pairwise_cons.1 hbelow
    obtain ⟨hxn, hlength⟩ := List.forall_mem_cons.1 hlength
    specialize ih hidx hlength
    simp only [List.filter_cons]
    cases hxp : CompositeIndex.below (key x) p with
    | true =>
      have hnot : ¬ p <+: key x := fun hpre => by simpa [hxp] using (alike_of_prefixed hpre).1
      simpa [below_asymm hxp, hnot] using ih
    | false =>
      have hnone : idx.filter (fun r => CompositeIndex.below (key r) p) = [] :=
        List.filter_eq_nil_iff.2 fun y hy hyp => by simp [below_trans (hx y hy) hyp] at hxp
      cases hpx : CompositeIndex.below p (key x) with
      | true =>
        have hnot : ¬ p <+: key x := fun hpre => by simpa [hpx] using (alike_of_prefixed hpre).2
        have hafter : ∀ y ∈ idx, CompositeIndex.below p (key y) = true := fun y hy =>
          below_trans hpx (hx y hy)
        have hnone' : idx.filter (within key p) = [] :=
          List.filter_eq_nil_iff.2 fun y hy hpre => by
            simpa [hafter y hy] using (alike_of_prefixed (within_eq_true.1 hpre)).2
        simp [hnone, hnone', hnot, List.filter_eq_self.2 hafter]
      | false =>
        have hpre : p <+: key x := (alike_iff (hp.trans_eq hxn.symm)).1 ⟨hxp, hpx⟩
        rw [hnone] at ih ⊢
        simpa [hpre] using ih

/-- The rows whose keys begin with `p`. -/
def under (key : R → List C) (p : List C) (idx : List R) : List R := idx.filter (within key p)

variable {p t : List C}

theorem mem_under {r : R} : r ∈ under key p idx ↔ r ∈ idx ∧ p <+: key r := by simp [under]

/-- What is found in a sorted index is the least of what could be. -/
theorem Sorted.le_of_find? (h : Sorted key n idx) {f : R → Bool} {r r' : R}
    (hfound : (under key p idx).find? f = some r) (hr' : r' ∈ under key p idx) (hf : f r' = true) :
    key r ≤ key r' := by
  have hlt : (under key p idx).Pairwise fun a b => key a < key b := h.lt.filter _
  obtain ⟨-, l, m, hsplit, hl⟩ := List.find?_eq_some_iff_append.1 hfound
  rw [hsplit] at hlt hr'
  obtain hr' | hr' := List.mem_append.1 hr'
  · simpa [hf] using hl r' hr'
  · obtain rfl | hr' := List.mem_cons.1 hr'
    · exact le_rfl
    · exact ((List.pairwise_cons.1 (List.pairwise_append.1 hlt).2.1).1 r' hr').le

theorem Sorted.exists_split (h : Sorted key n idx) (hp : p.length ≤ n) : ∃ before after,
    idx = before ++ (under key p idx ++ after) ∧
      (∀ r ∈ before, CompositeIndex.below (key r) p = true) ∧
      ∀ r ∈ after, CompositeIndex.below p (key r) = true :=
  ⟨_, _, h.split hp, by simp, by simp⟩

theorem find?_within {before inside after : List R} {f : R → Bool}
    (hbefore : ∀ r ∈ before, f r = false) (hinside : ∀ r ∈ inside, p <+: key r)
    (hafter : ∀ r ∈ after, CompositeIndex.below p (key r) = true) :
    ((before ++ (inside ++ after)).find? f).filter (within key p) = inside.find? f := by
  have hnone : before.find? f = none := List.find?_eq_none.2 fun r hr => by simp [hbefore r hr]
  rw [List.find?_append, List.find?_append, hnone, Option.none_or]
  cases hfound : inside.find? f with
  | some r => simp [hinside r (List.mem_of_find?_eq_some hfound)]
  | none =>
    rw [Option.none_or]
    cases hlater : after.find? f with
    | none => rfl
    | some r =>
      have hr := hafter r (List.mem_of_find?_eq_some hlater)
      have hnot : ¬ p <+: key r := fun hpre => by simpa [hr] using (alike_of_prefixed hpre).2
      simp [hnot]

theorem getLast?_within {before inside : List R} (hbefore : ∀ r ∈ before, ¬ p <+: key r)
    (hinside : ∀ r ∈ inside, p <+: key r) :
    (before ++ inside).getLast?.filter (within key p) = inside.getLast? := by
  rw [List.getLast?_append]
  cases hlast : inside.getLast? with
  | some r => simp [hinside r (List.mem_of_getLast? hlast)]
  | none =>
    rw [Option.none_or, Option.filter_eq_none_iff]
    intro r hr hpre
    exact hbefore r (List.mem_of_getLast? hr) (within_eq_true.1 hpre)

/-- The row at a lower bound that begins with `p` is the first row under `p` not below it. -/
theorem Sorted.lowerBound_within (h : Sorted key n idx) (hp : p.length ≤ n) :
    idx[lowerBound key (p ++ t) idx]?.filter (within key p)
      = (under key p idx).find? fun r => !CompositeIndex.below (key r) (p ++ t) := by
  obtain ⟨before, after, hsplit, hbefore, hafter⟩ := h.exists_split hp
  unfold lowerBound
  rw [getElem?_takeWhile_length]
  conv_lhs => rw [hsplit]
  exact find?_within (fun r hr => by simp [below_append_right (hbefore r hr) t])
    (fun r hr => (mem_under.1 hr).2) hafter

theorem Sorted.find_eq_head? (h : Sorted key n idx) (hp : p.length ≤ n) :
    find key p idx = (under key p idx).head? := by
  have hlower := h.lowerBound_within hp (t := [])
  have hall : ((under key p idx).find? fun r => !CompositeIndex.below (key r) p)
      = (under key p idx).head? := by
    cases hunder : under key p idx with
    | nil => rfl
    | cons r l =>
      have hr : r ∈ under key p idx := by simp [hunder]
      simp [(alike_of_prefixed (mem_under.1 hr).2).1]
  rw [List.append_nil, hall] at hlower
  rw [← hlower]
  unfold find lowerBound
  rw [getElem?_takeWhile_length]
  cases hfound : idx.find? fun r => !CompositeIndex.below (key r) p with
  | none => rfl
  | some r =>
    have hlength := h.length r (List.mem_of_find?_eq_some hfound)
    have hnot : CompositeIndex.below (key r) p = false := by simpa using List.find?_some hfound
    have halike := alike_iff (hp.trans_eq hlength.symm)
    rw [Option.filter_some, Option.filter_some]
    cases hbelow : CompositeIndex.below p (key r) with
    | true => simp [← halike, hbelow]
    | false => simp [halike.1 ⟨hnot, hbelow⟩]

theorem Sorted.upperBound_within (h : Sorted key n idx) (hp : p.length ≤ n) :
    idx[upperBound key (p ++ t) idx]?.filter (within key p)
      = (under key p idx).find? fun r => CompositeIndex.below (p ++ t) (key r) := by
  obtain ⟨before, after, hsplit, hbefore, hafter⟩ := h.exists_split hp
  unfold upperBound
  rw [getElem?_takeWhile_length]
  conv_lhs => rw [hsplit]
  simp only [Bool.not_not]
  exact find?_within (fun r hr => below_asymm (below_append_right (hbefore r hr) t))
    (fun r hr => (mem_under.1 hr).2) hafter

/-- The row in front of a lower bound. -/
def beforeBound (key : R → List C) (tuple : List C) (idx : List R) : Option R :=
  if lowerBound key tuple idx = 0 then none else idx[lowerBound key tuple idx - 1]?

theorem Sorted.beforeBound_eq (h : Sorted key n idx) :
    beforeBound key t idx = (idx.filter fun r => CompositeIndex.below (key r) t).getLast? := by
  have htake : (idx.takeWhile fun r => CompositeIndex.below (key r) t)
      = idx.filter fun r => CompositeIndex.below (key r) t :=
    takeWhile_eq_filter (h.below.imp fun hab hbt => below_trans hab hbt)
  unfold beforeBound lowerBound
  rw [getElem?_prefix_pred (List.takeWhile_prefix _), htake]

/-- In front of a bound that only what is under `p` or before it is below is the last row under `p`. -/
theorem Sorted.beforeBound_within (h : Sorted key n idx) (hp : p.length ≤ n)
    (hunder : ∀ r ∈ under key p idx, CompositeIndex.below (key r) t = true)
    (hafter : ∀ r ∈ idx, CompositeIndex.below p (key r) = true →
      CompositeIndex.below (key r) t = false) :
    (beforeBound key t idx).filter (within key p) = (under key p idx).getLast? := by
  obtain ⟨before, after, hsplit, hbefore, hlater⟩ := h.exists_split hp
  have hnone : (after.filter fun r => CompositeIndex.below (key r) t) = [] :=
    List.filter_eq_nil_iff.2 fun r hr => by
      simp [hafter r (hsplit ▸ by simp [hr]) (hlater r hr)]
  have hbefore' : ∀ r ∈ before.filter (fun r => CompositeIndex.below (key r) t), ¬ p <+: key r :=
    fun r hr hpre => by simpa [hbefore r (List.mem_of_mem_filter hr)] using (alike_of_prefixed hpre).1
  rw [h.beforeBound_eq]
  conv_lhs => rw [hsplit, List.filter_append, List.filter_append, hnone, List.append_nil,
    List.filter_eq_self.2 hunder]
  exact getLast?_within hbefore' fun r hr => (mem_under.1 hr).2

theorem Sorted.beforeBound_eq_none (h : Sorted key n idx)
    (hunder : ∀ r ∈ under key p idx, CompositeIndex.below (key r) t = false) :
    (beforeBound key t idx).filter (within key p) = none := by
  rw [h.beforeBound_eq, Option.filter_eq_none_iff]
  intro r hr hpre
  obtain ⟨hmem, hbelow⟩ := List.mem_filter.1 (List.mem_of_getLast? hr)
  simp [hunder r (mem_under.2 ⟨hmem, of_decide_eq_true hpre⟩)] at hbelow

variable [DecidableEq R] {x : R} {l m : List R}

/-- After a row under `p` is the next one under `p`, if there is one. -/
theorem Sorted.next_within (h : Sorted key n idx) (hp : p.length ≤ n)
    (hunder : under key p idx = l ++ x :: m) :
    idx[idx.idxOf x + 1]?.filter (within key p) = m.head? := by
  obtain ⟨before, after, hsplit, -, hafter⟩ := h.exists_split hp
  rw [hunder, List.append_assoc, List.cons_append, ← List.append_assoc] at hsplit
  have hnodup := h.nodup
  rw [hsplit] at hnodup
  rw [hsplit, idxOf_middle hnodup, getElem?_middle_succ]
  cases m with
  | cons y m =>
    have hy : y ∈ under key p idx := by simp [hunder]
    simp [(mem_under.1 hy).2]
  | nil =>
    cases after with
    | nil => rfl
    | cons y after =>
      have hnot : ¬ p <+: key y := fun hpre => by
        simpa [hafter y List.mem_cons_self] using (alike_of_prefixed hpre).2
      simp [hnot]

/-- Before a row under `p` is the previous one under `p`, if there is one. -/
theorem Sorted.previous_within (h : Sorted key n idx) (hp : p.length ≤ n)
    (hunder : under key p idx = l ++ x :: m) :
    (if idx.idxOf x = 0 then none else idx[idx.idxOf x - 1]?).filter (within key p)
      = l.getLast? := by
  obtain ⟨before, after, hsplit, hbefore, -⟩ := h.exists_split hp
  rw [hunder, List.append_assoc, List.cons_append, ← List.append_assoc] at hsplit
  have hnodup := h.nodup
  rw [hsplit] at hnodup
  have hbefore' : ∀ r ∈ before, ¬ p <+: key r := fun r hr hpre => by
    simpa [hbefore r hr] using (alike_of_prefixed hpre).1
  have hinside : ∀ r ∈ l, p <+: key r := fun r hr =>
    (mem_under.1 (show r ∈ under key p idx by simp [hunder, hr])).2
  rw [hsplit, idxOf_middle hnodup, getElem?_prefix_pred (List.prefix_append _ _)]
  exact getLast?_within hbefore' hinside

end Stretch

end CompositeIndex
