import Mathlib.Data.Set.Card
import Mathlib.Logic.Relation
import XmaxChain.Lib.Fuel

/-!
# Depth-first search with marks in a state

A node is entered once, then its successors are visited, and then it is left. The nodes are left in an
order in which the successors of each come before it, unless they lead back to it; where nothing leads
back, visiting the nodes again in that order leaves them in that order.
-/

namespace DepthFirst

open Fuel Relation

variable {V S ε : Type}

/-- `enter` marks a node, or finds it marked. -/
structure Search (V S ε : Type) where
  next : V → List V
  enter : V → S → Except ε (Option S)
  leave : V → S → Except ε S

def visit (p : Search V S ε) : ℕ → V → S → Fueled ε S
  | 0, _, _ => pending
  | fuel + 1, v, s =>
    match p.enter v s with
    | .error e => throw e
    | .ok none => pure s
    | .ok (some s) => (p.next v).foldlM (fun s d => visit p fuel d s) s >>= fun s =>
        ExceptT.mk (some (p.leave v s))

def visitAll (p : Search V S ε) (fuel : ℕ) (vs : List V) (s : S) : Fueled ε S :=
  vs.foldlM (fun s v => visit p fuel v s) s

/-- The first node leads to the second. -/
abbrev Reach (next : V → List V) : V → V → Prop := ReflTransGen fun a b => b ∈ next a

/-- No node leads back to one that it follows. -/
def Acyclic (next : V → List V) : Prop := ∀ a, ∀ b ∈ next a, ¬ Reach next b a

theorem acyclic_of_rank {next : V → List V} (rank : V → ℕ) (hrank : ∀ a, ∀ b ∈ next a, rank b < rank a) :
    Acyclic next := by
  have hle : ∀ a b, Reach next a b → rank b ≤ rank a := fun a b hreach => by
    induction hreach with
    | refl => exact le_rfl
    | tail _ hd ih => exact (hrank _ _ hd).le.trans ih
  exact fun a b hb hreach => absurd (hle b a hreach) (not_le.2 (hrank a b hb))

/-- Each node of the list is new, and its successors are there before it or lead back to it. -/
def Visited (next : V → List V) : Set V → List V → Prop
  | _, [] => True
  | E, x :: l => x ∉ E ∧ (∀ d ∈ next x, d ∈ E ∨ Reach next d x) ∧ Visited next (insert x E) l

/-- Each node of the list is new, and its successors are there before it. -/
def Ready (next : V → List V) : Set V → List V → Prop
  | _, [] => True
  | E, x :: l => x ∉ E ∧ (∀ d ∈ next x, d ∈ E) ∧ Ready next (insert x E) l

/-- The nodes that a state has as entered. -/
structure Marks (p : Search V S ε) (seen : S → Set V) : Prop where
  enter_none : ∀ {v s}, p.enter v s = .ok none → v ∈ seen s
  enter_some : ∀ {v s s'}, p.enter v s = .ok (some s') → v ∉ seen s ∧ seen s' = insert v (seen s)
  leave : ∀ {v s s'}, p.leave v s = .ok s' → seen s' = seen s

/-- The nodes that a state has as left, in order. -/
structure Ordered (p : Search V S ε) (order : S → List V) : Prop where
  enter_some : ∀ {v s s'}, p.enter v s = .ok (some s') → order s' = order s
  leave : ∀ {v s s'}, p.leave v s = .ok s' → order s' = order s ++ [v]

section Lists

variable {next : V → List V} {E : Set V} {l l' : List V} {v : V}

theorem union_insert (x : V) : insert x E ∪ {y | y ∈ l} = E ∪ {y | y ∈ x :: l} := by
  ext y
  simp only [Set.mem_union, Set.mem_insert_iff, Set.mem_ofPred_eq, List.mem_cons]
  tauto

theorem visited_append : Visited next E (l ++ l') ↔ Visited next E l ∧ Visited next (E ∪ {y | y ∈ l}) l' := by
  induction l generalizing E with
  | nil => simp [Visited]
  | cons x l ih =>
    rw [List.cons_append, Visited, Visited, ih, union_insert]
    tauto

/-- The node that was entered first leads to all that were left since. -/
theorem Visited.of_insert (h : Visited next (insert v E) l) (hreach : ∀ x ∈ l, Reach next v x) :
    Visited next E l := by
  induction l generalizing E with
  | nil => trivial
  | cons x l ih =>
    obtain ⟨hx, hbefore, hl⟩ := h
    refine ⟨fun hmem => hx (.inr hmem), fun d hd => ?_, ih (Set.insert_comm .. ▸ hl) fun y hy =>
      hreach y (List.mem_cons_of_mem _ hy)⟩
    rcases hbefore d hd with (rfl | hmem) | hback
    · exact .inr (hreach x List.mem_cons_self)
    · exact .inl hmem
    · exact .inr hback

theorem Visited.fresh (h : Visited next E l) : ∀ x ∈ l, x ∉ E := by
  induction l generalizing E with
  | nil => simp
  | cons x l ih =>
    intro y hy
    rcases List.mem_cons.1 hy with rfl | hy
    · exact h.1
    · exact fun hmem => ih h.2.2 y hy (.inr hmem)

theorem Visited.ready (h : Visited next E l) (hacyclic : Acyclic next) : Ready next E l := by
  induction l generalizing E with
  | nil => trivial
  | cons x l ih =>
    obtain ⟨hx, hbefore, hl⟩ := h
    exact ⟨hx, fun d hd => (hbefore d hd).resolve_right (hacyclic x d hd), ih hl⟩

theorem Ready.visited (h : Ready next E l) : Visited next E l := by
  induction l generalizing E with
  | nil => trivial
  | cons x l ih => exact ⟨h.1, fun d hd => .inl (h.2.1 d hd), ih h.2.2⟩

theorem Ready.nodup (h : Ready next E l) : l.Nodup := by
  induction l generalizing E with
  | nil => exact List.nodup_nil
  | cons x l ih =>
    exact List.nodup_cons.2 ⟨fun hmem => h.2.2.visited.fresh x hmem (Set.mem_insert ..), ih h.2.2⟩

/-- What stands before a node of the list has all of its successors. -/
theorem Ready.before (h : Ready next E l) {before after : List V} (heq : l = before ++ v :: after)
    {d : V} (hd : d ∈ next v) : d ∈ E ∨ d ∈ before := by
  induction before generalizing E l with
  | nil =>
    cases heq
    exact .inl (h.2.1 d hd)
  | cons x before ih =>
    cases heq
    rcases ih h.2.2 rfl with (rfl | hmem) | hmem
    · exact .inr List.mem_cons_self
    · exact .inl hmem
    · exact .inr (List.mem_cons_of_mem _ hmem)

end Lists

section Search

variable {p : Search V S ε} {seen : S → Set V} {fuel : ℕ} {v : V} {vs : List V}
  {s s' : S}

theorem visit_returns : (visit p (fuel + 1) v s).run = some (.ok s') ↔
    (p.enter v s = .ok none ∧ s' = s) ∨ ∃ s₁ s₂, p.enter v s = .ok (some s₁) ∧
      (visitAll p fuel (p.next v) s₁).run = some (.ok s₂) ∧ p.leave v s₂ = .ok s' := by
  rw [visit]
  cases p.enter v s with
  | error e => simp
  | ok o =>
    cases o with
    | none => simp [eq_comm]
    | some s₁ =>
      rw [bind_returns]
      simp [visitAll]

theorem visitAll_cons_returns : (visitAll p fuel (v :: vs) s).run = some (.ok s') ↔
    ∃ s₁, (visit p fuel v s).run = some (.ok s₁) ∧ (visitAll p fuel vs s₁).run = some (.ok s') := by
  rw [visitAll, List.foldlM_cons, bind_returns]
  rfl

/-- What a visit of nodes leaves behind: `new` are the nodes left in it. -/
structure Explored (p : Search V S ε) (seen : S → Set V) (vs : List V) (s s' : S) (new : List V) : Prop where
  order_eq : ∀ order, Ordered p order → order s' = order s ++ new
  seen_eq : seen s' = seen s ∪ {y | y ∈ new}
  all : ∀ v ∈ vs, v ∈ seen s'
  reach : ∀ x ∈ new, ∃ v ∈ vs, Reach p.next v x
  closed : ∀ x ∈ new, ∀ d ∈ p.next x, d ∈ seen s'
  visited : Visited p.next (seen s) new

theorem Explored.cons {s₁ : S} {new new' : List V} (h : Explored p seen [v] s s₁ new)
    (h' : Explored p seen vs s₁ s' new') : Explored p seen (v :: vs) s s' (new ++ new') where
  order_eq order ho := by rw [h'.order_eq order ho, h.order_eq order ho, List.append_assoc]
  seen_eq := by
    rw [h'.seen_eq, h.seen_eq, Set.union_assoc]
    congr 1
    ext y
    simp
  all u hu := by
    rcases List.mem_cons.1 hu with rfl | hu
    · rw [h'.seen_eq]
      exact .inl (h.all u (List.mem_singleton_self u))
    · exact h'.all u hu
  reach x hx := by
    rcases List.mem_append.1 hx with hx | hx
    · obtain ⟨u, hu, hreach⟩ := h.reach x hx
      exact ⟨v, List.mem_cons_self, List.mem_singleton.1 hu ▸ hreach⟩
    · obtain ⟨u, hu, hreach⟩ := h'.reach x hx
      exact ⟨u, List.mem_cons_of_mem _ hu, hreach⟩
  closed x hx d hd := by
    rcases List.mem_append.1 hx with hx | hx
    · rw [h'.seen_eq]
      exact .inl (h.closed x hx d hd)
    · exact h'.closed x hx d hd
  visited := visited_append.2 ⟨h.visited, h.seen_eq ▸ h'.visited⟩

theorem Explored.nil : Explored p seen [] s s [] :=
  ⟨fun _ _ => by simp, by simp, by simp, by simp, by simp, trivial⟩

/-- A node that is entered and left stands behind all that its successors bring. -/
theorem Explored.enclose (hm : Marks p seen) {s₁ s₂ : S} {new : List V} (henter : p.enter v s = .ok (some s₁))
    (hnew : Explored p seen (p.next v) s₁ s₂ new) (hleave : p.leave v s₂ = .ok s') :
    Explored p seen [v] s s' (new ++ [v]) := by
  obtain ⟨hfresh, hseen⟩ := hm.enter_some henter
  have hseen' : seen s' = insert v (seen s) ∪ {y | y ∈ new} := by rw [hm.leave hleave, hnew.seen_eq, hseen]
  have hmem : v ∈ seen s' := hseen' ▸ .inl (Set.mem_insert ..)
  have hreach : ∀ x ∈ new, Reach p.next v x := fun x hx => by
    obtain ⟨d, hd, hreach⟩ := hnew.reach x hx
    exact .head hd hreach
  have hvisited := hnew.visited
  rw [hseen] at hvisited
  refine ⟨fun order ho => ?_, ?_, fun u hu => List.mem_singleton.1 hu ▸ hmem, fun x hx => ?_,
    fun x hx d hd => ?_, ?_⟩
  · rw [ho.leave hleave, hnew.order_eq order ho, ho.enter_some henter, List.append_assoc]
  · rw [hseen']
    ext y
    simp only [Set.mem_union, Set.mem_insert_iff, Set.mem_ofPred_eq, List.mem_append, List.mem_singleton]
    tauto
  · refine ⟨v, List.mem_singleton_self v, ?_⟩
    rcases List.mem_append.1 hx with hx | hx
    · exact hreach x hx
    · exact List.mem_singleton.1 hx ▸ .refl
  · rw [hm.leave hleave]
    rcases List.mem_append.1 hx with hx | hx
    · exact hnew.closed x hx d hd
    · exact hnew.all d (List.mem_singleton.1 hx ▸ hd)
  · refine visited_append.2 ⟨hvisited.of_insert hreach, ?_, fun d hd => ?_, trivial⟩
    · rintro (hmem | hmem)
      · exact hfresh hmem
      · -- `v` was entered before its successors were visited
        exact hvisited.fresh v hmem (Set.mem_insert ..)
    · have hmem := hnew.all d hd
      rw [hnew.seen_eq, hseen] at hmem
      rcases hmem with (rfl | hmem) | hmem
      · exact .inr .refl
      · exact .inl (.inl hmem)
      · exact .inl (.inr hmem)

theorem explored_of_visits (hvisit : ∀ v s s', (visit p fuel v s).run = some (.ok s') →
    ∃ new, Explored p seen [v] s s' new) (h : (visitAll p fuel vs s).run = some (.ok s')) :
    ∃ new, Explored p seen vs s s' new := by
  induction vs generalizing s with
  | nil =>
    cases h
    exact ⟨[], .nil⟩
  | cons v vs ih =>
    obtain ⟨s₁, h₁, h⟩ := visitAll_cons_returns.1 h
    obtain ⟨new, hnew⟩ := hvisit v s s₁ h₁
    obtain ⟨new', hnew'⟩ := ih h
    exact ⟨_, hnew.cons hnew'⟩

theorem Marks.explored (hm : Marks p seen) {fuel : ℕ} :
    ∀ v s s', (visit p fuel v s).run = some (.ok s') → ∃ new, Explored p seen [v] s s' new := by
  induction fuel with
  | zero => exact fun v s s' h => by cases h
  | succ fuel ih =>
    intro v s s' h
    rcases visit_returns.1 h with ⟨henter, rfl⟩ | ⟨s₁, s₂, henter, hnext, hleave⟩
    · exact ⟨[], fun _ _ => by simp, by simp, fun u hu => List.mem_singleton.1 hu ▸ hm.enter_none henter,
        by simp, by simp, trivial⟩
    · obtain ⟨new, hnew⟩ := explored_of_visits ih hnext
      exact ⟨_, hnew.enclose hm henter hleave⟩

theorem Marks.explored_all (hm : Marks p seen) (h : (visitAll p fuel vs s).run = some (.ok s')) :
    ∃ new, Explored p seen vs s s' new :=
  explored_of_visits hm.explored h

/-- Steps that visit some of the nodes, and do nothing at the others, are a visit of those. -/
theorem visits_of_steps {step : S → V → Fueled ε S} (Inv : S → Prop) (q : V → Bool) (hs : Inv s)
    (hstep : ∀ v ∈ vs, ∀ s s', Inv s → (step s v).run = some (.ok s') →
      Inv s' ∧ (q v → (visit p fuel v s).run = some (.ok s')) ∧ (q v = false → s' = s))
    (h : (vs.foldlM step s).run = some (.ok s')) : (visitAll p fuel (vs.filter q) s).run = some (.ok s') := by
  induction vs generalizing s with
  | nil => exact h
  | cons v vs ih =>
    rw [List.foldlM_cons, bind_returns] at h
    obtain ⟨s₁, h₁, h⟩ := h
    obtain ⟨hs₁, hvisit, hskip⟩ := hstep v List.mem_cons_self s s₁ hs h₁
    have hrest := ih hs₁ (fun u hu => hstep u (List.mem_cons_of_mem v hu)) h
    rcases hq : q v with _ | _
    · obtain rfl := hskip hq
      rwa [List.filter_cons_of_neg (by simp [hq])]
    · rw [List.filter_cons_of_pos (by simp [hq])]
      exact visitAll_cons_returns.2 ⟨s₁, hvisit hq, hrest⟩

theorem visitAll_append_returns {us : List V} : (visitAll p fuel (vs ++ us) s).run = some (.ok s') ↔
    ∃ s₁, (visitAll p fuel vs s).run = some (.ok s₁) ∧ (visitAll p fuel us s₁).run = some (.ok s') := by
  rw [visitAll, List.foldlM_append, bind_returns]
  rfl

/-- The nodes entered are those that the visited ones lead to. -/
theorem Explored.seen_iff {new : List V} (h : Explored p seen vs s s' new)
    (hclosed : ∀ x ∈ seen s, ∀ d ∈ p.next x, d ∈ seen s) {x : V} :
    x ∈ seen s' ↔ x ∈ seen s ∨ ∃ v ∈ vs, Reach p.next v x := by
  refine ⟨fun hx => ?_, ?_⟩
  · rw [h.seen_eq] at hx
    exact hx.imp_right (h.reach x)
  · rintro (hx | ⟨v, hv, hreach⟩)
    · exact h.seen_eq ▸ .inl hx
    · induction hreach with
      | refl => exact h.all v hv
      | tail _ hd ih =>
        rw [h.seen_eq] at ih
        rcases ih with hold | hnew
        · exact h.seen_eq ▸ .inl (hclosed _ hold _ hd)
        · exact h.closed _ hnew _ hd

/-- A node that was entered before is not entered again. -/
theorem Marks.visit_seen (hm : Marks p seen) (hv : v ∈ seen s) (h : (visit p fuel v s).run = some (.ok s')) :
    s' = s := by
  cases fuel with
  | zero => cases h
  | succ fuel =>
    rcases visit_returns.1 h with ⟨-, rfl⟩ | ⟨s₁, s₂, henter, -⟩
    · rfl
    · exact absurd hv (hm.enter_some henter).1

theorem Marks.visitAll_seen (hm : Marks p seen) (hvs : ∀ v ∈ vs, v ∈ seen s)
    (h : (visitAll p fuel vs s).run = some (.ok s')) : s' = s := by
  induction vs with
  | nil =>
    cases h
    rfl
  | cons v vs ih =>
    obtain ⟨s₁, h₁, h⟩ := visitAll_cons_returns.1 h
    rw [hm.visit_seen (hvs v List.mem_cons_self) h₁] at h
    exact ih (fun u hu => hvs u (List.mem_cons_of_mem v hu)) h

/-- Where the successors of each node stand before it, the nodes are left as they stand. -/
theorem Marks.visitAll_ready (hm : Marks p seen) {order : S → List V} (ho : Ordered p order)
    (hready : Ready p.next (seen s) vs) (h : (visitAll p fuel vs s).run = some (.ok s')) :
    order s' = order s ++ vs := by
  induction vs generalizing s with
  | nil =>
    cases h
    simp
  | cons v vs ih =>
    obtain ⟨hv, hnext, hvs⟩ := hready
    obtain ⟨s₁, h₁, h⟩ := visitAll_cons_returns.1 h
    obtain _ | fuel := fuel
    · cases h₁
    rcases visit_returns.1 h₁ with ⟨henter, -⟩ | ⟨s₂, s₃, henter, hall, hleave⟩
    · exact absurd (hm.enter_none henter) hv
    have hseen := (hm.enter_some henter).2
    obtain rfl := hm.visitAll_seen (fun d hd => hseen ▸ .inr (hnext d hd)) hall
    rw [ih (by rwa [hm.leave hleave, hseen]) h, ho.leave hleave, ho.enter_some henter, List.append_assoc]
    rfl

/-- An invariant of the nodes of a set that is closed, and what may be thrown at one of them. -/
structure StaysIn (p : Search V S ε) (seen : S → Set V) (U : Set V) (Inv : S → Prop) (Thrown : ε → Prop) :
    Prop where
  closed : ∀ v ∈ U, ∀ d ∈ p.next v, d ∈ U
  enter : ∀ {v s s'}, v ∈ U → Inv s → p.enter v s = .ok (some s') → Inv s'
  leave : ∀ {v s s'}, v ∈ seen s → Inv s → p.leave v s = .ok s' → Inv s'
  enter_throws : ∀ {v s e}, v ∈ U → Inv s → p.enter v s = .error e → Thrown e
  leave_throws : ∀ {v s e}, v ∈ seen s → Inv s → p.leave v s = .error e → Thrown e

variable {U : Set V} {Inv : S → Prop} {Thrown : ε → Prop}

/-- Each level of the search enters a node that was not entered before, so that fuel for all of them is
enough. -/
theorem Marks.visit_ends (hm : Marks p seen) (hk : StaysIn p seen U Inv Thrown) (hfinite : U.Finite) :
    ∀ v ∈ U, ∀ s, (Inv s ∧ (U \ seen s).ncard < fuel) →
      Ends (fun s' => Inv s' ∧ seen s ⊆ seen s' ∧ v ∈ seen s') Thrown (visit p fuel v s) := by
  induction fuel with
  | zero => exact fun v _ s h => absurd h.2 (Nat.not_lt_zero _)
  | succ fuel ih =>
    intro v hv s ⟨hs, hfuel⟩
    rw [visit]
    rcases henter : p.enter v s with e | _ | s₁
    · exact .inr ⟨e, rfl, hk.enter_throws hv hs henter⟩
    · exact ends_pure ⟨hs, subset_rfl, hm.enter_none henter⟩
    · obtain ⟨hfresh, hseen⟩ := hm.enter_some henter
      have hssubset : U \ seen s₁ ⊂ U \ seen s := by
        refine Set.ssubset_iff_exists.2
          ⟨Set.sdiff_subset_sdiff_right (hseen ▸ Set.subset_insert ..), v, ⟨hv, hfresh⟩, ?_⟩
        rintro ⟨-, hnot⟩
        exact hnot (hseen ▸ Set.mem_insert ..)
      have hlt := Set.ncard_lt_ncard hssubset hfinite.sdiff
      have hnext : Ends (fun s' => Inv s' ∧ seen s₁ ⊆ seen s') Thrown (visitAll p fuel (p.next v) s₁) := by
        refine ends_foldlM ⟨hk.enter hv hs henter, subset_rfl⟩
          fun d hd s' ⟨hs', hsub⟩ => ?_
        have hle := Set.ncard_le_ncard (Set.sdiff_subset_sdiff_right (s := U) hsub) hfinite.sdiff
        exact (ih d (hk.closed v hv d hd) s' ⟨hs', by omega⟩).mono fun s'' h => ⟨h.1, hsub.trans h.2.1⟩
      refine hnext.bind fun s₂ ⟨hs₂, hsub⟩ => ?_
      have hv₂ : v ∈ seen s₂ := hsub (hseen ▸ Set.mem_insert ..)
      rcases hleave : p.leave v s₂ with e | s'
      · exact .inr ⟨e, rfl, hk.leave_throws hv₂ hs₂ hleave⟩
      · have hseen' := hm.leave hleave
        refine ends_pure ⟨hk.leave hv₂ hs₂ hleave, ?_, hseen' ▸ hv₂⟩
        rw [hseen']
        exact ((hseen ▸ Set.subset_insert ..).trans hsub)

theorem Marks.ends (hm : Marks p seen) (hk : StaysIn p seen U Inv Thrown) (hfinite : U.Finite)
    (hfuel : U.ncard < fuel) (hv : v ∈ U) (hs : Inv s) : Ends Inv Thrown (visit p fuel v s) := by
  have hle : (U \ seen s).ncard ≤ U.ncard := Set.ncard_le_ncard Set.sdiff_subset hfinite
  exact (hm.visit_ends hk hfinite v hv s ⟨hs, by omega⟩).mono fun _ h => h.1

theorem Marks.ends_all (hm : Marks p seen) (hk : StaysIn p seen U Inv Thrown) (hfinite : U.Finite)
    (hfuel : U.ncard < fuel) (hvs : ∀ v ∈ vs, v ∈ U) (hs : Inv s) : Ends Inv Thrown (visitAll p fuel vs s) :=
  ends_foldlM hs fun v hv _ hs => hm.ends hk hfinite hfuel (hvs v hv) hs

end Search

end DepthFirst
