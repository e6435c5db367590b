import Mathlib.Data.List.Basic
import Mathlib.Logic.Relation

/-!
# Walks of a bounded depth with a memory

A walk of a graph goes down so many levels and does not enter what it remembers. What it has gone
through is remembered only when it comes back from there, so a circle is walked until the levels run
out. What is met three levels down by a walk that starts with no memory is met by any other walk from
there too, unless that remembers it: the memory of earlier walks does not change the order.
-/

namespace DepthWalk

variable {α : Type} [DecidableEq α]

/-- What has been met, each with the levels left there, and what is remembered. -/
abbrev Walked (α : Type) := List (ℕ × α) × List α

/-- One after the other, what is not remembered. -/
def walkAll (f : α → List α → Walked α) : List α → List α → Walked α
  | [], seen => ([], seen)
  | a :: as, seen =>
    if a ∈ seen then walkAll f as seen
    else
      let r := f a seen
      let r' := walkAll f as (r.2 ++ [a])
      (r.1 ++ r'.1, r'.2)

variable (next : α → List α)

/-- The walk from `a` with so many levels left, `a` first; nothing is entered where no level is. -/
def walk : ℕ → α → List α → Walked α
  | 0, a, seen => ([(0, a)], seen)
  | left + 1, a, seen =>
    let r := walkAll (walk left) (next a) seen
    ((left + 1, a) :: r.1, r.2)

/-- What the walk from `a` alone meets with no level left. -/
def deep (left : ℕ) (a : α) : List α := ((walk next left a []).1.filter (·.1 = 0)).map Prod.snd

def Reach : α → α → Prop := Relation.ReflTransGen fun a b => b ∈ next a

/-- A chain of so many edges begins at `a`. -/
def HasChain : ℕ → α → Prop
  | 0, _ => True
  | n + 1, a => ∃ b ∈ next a, HasChain n b

def Closed (seen : List α) : Prop := ∀ a ∈ seen, ∀ b ∈ next a, b ∈ seen

variable {next}

omit [DecidableEq α] in
theorem Closed.reach {seen : List α} (h : Closed next seen) {a b : α} (ha : a ∈ seen)
    (hab : Reach next a b) : b ∈ seen := by
  induction hab with
  | refl => exact ha
  | tail _ hbc ih => exact h _ ih _ hbc

theorem mem_deep {left : ℕ} {a x : α} : x ∈ deep next left a ↔ (0, x) ∈ (walk next left a []).1 := by
  simp [deep]

/-! ## What one walk meets and remembers -/

/-- Of a walk from the vertices `as`: what was remembered stays, what is new is below them and was met,
and where levels were left everything next is remembered. -/
structure Facts (next : α → List α) (as : List α) (seen : List α) (r : Walked α) : Prop where
  mono : ∀ x ∈ seen, x ∈ r.2
  met : ∀ x ∈ r.2, x ∈ seen ∨ ∃ left, (left, x) ∈ r.1
  below : ∀ m ∈ r.1, ∃ a ∈ as, Reach next a m.2
  open_ : ∀ m ∈ r.1, 0 < m.1 → ∀ b ∈ next m.2, b ∈ r.2

theorem walkAll_facts {f : α → List α → Walked α}
    (hf : ∀ a seen, Facts next [a] seen (f a seen) ∧ ∃ left, (left, a) ∈ (f a seen).1) :
    ∀ (as seen : List α), Facts next as seen (walkAll f as seen) ∧
      ∀ a ∈ as, a ∈ (walkAll f as seen).2
  | [], seen => ⟨⟨fun _ h => h, fun _ h => .inl h, by simp [walkAll], by simp [walkAll]⟩, by simp⟩
  | a :: as, seen => by
    unfold walkAll
    split_ifs with ha
    · obtain ⟨h, hall⟩ := walkAll_facts hf as seen
      refine ⟨⟨h.mono, h.met, fun m hm => ?_, h.open_⟩, ?_⟩
      · obtain ⟨b, hb, hreach⟩ := h.below m hm
        exact ⟨b, List.mem_cons_of_mem _ hb, hreach⟩
      · rintro b (_ | ⟨_, hb⟩)
        · exact h.mono a ha
        · exact hall b hb
    · obtain ⟨h, left, hmet⟩ := hf a seen
      obtain ⟨h', hall⟩ := walkAll_facts hf as ((f a seen).2 ++ [a])
      have hkeep : ∀ x ∈ (f a seen).2, x ∈ (walkAll f as ((f a seen).2 ++ [a])).2 := fun x hx =>
        h'.mono x (List.mem_append_left _ hx)
      have hself : a ∈ (walkAll f as ((f a seen).2 ++ [a])).2 :=
        h'.mono a (List.mem_append_right _ (List.mem_singleton_self _))
      refine ⟨⟨fun x hx => hkeep x (h.mono x hx), fun x hx => ?_, fun m hm => ?_, fun m hm hpos b hb => ?_⟩,
        ?_⟩
      · rcases h'.met x hx with hx | ⟨l, hl⟩
        · rcases List.mem_append.1 hx with hx | hx
          · rcases h.met x hx with hx | ⟨l, hl⟩
            · exact .inl hx
            · exact .inr ⟨l, List.mem_append_left _ hl⟩
          · rw [List.mem_singleton.1 hx]
            exact .inr ⟨left, List.mem_append_left _ hmet⟩
        · exact .inr ⟨l, List.mem_append_right _ hl⟩
      · rcases List.mem_append.1 hm with hm | hm
        · obtain ⟨b, hb, hreach⟩ := h.below m hm
          rw [List.mem_singleton.1 hb] at hreach
          exact ⟨a, List.mem_cons_self, hreach⟩
        · obtain ⟨b, hb, hreach⟩ := h'.below m hm
          exact ⟨b, List.mem_cons_of_mem _ hb, hreach⟩
      · rcases List.mem_append.1 hm with hm | hm
        · exact hkeep b (h.open_ m hm hpos b hb)
        · exact h'.open_ m hm hpos b hb
      · rintro b (_ | ⟨_, hb⟩)
        · exact hself
        · exact hall b hb

theorem walk_head (left : ℕ) (a : α) (seen : List α) : (left, a) ∈ (walk next left a seen).1 := by
  cases left <;> simp [walk]

theorem walk_facts (left : ℕ) (a : α) (seen : List α) : Facts next [a] seen (walk next left a seen) := by
  induction left generalizing a seen with
  | zero =>
    refine ⟨fun _ h => h, fun _ h => .inl h, fun m hm => ?_, fun m hm hpos => ?_⟩
    · rw [walk, List.mem_singleton] at hm
      exact ⟨a, List.mem_singleton_self _, by rw [hm]; exact .refl⟩
    · rw [walk, List.mem_singleton] at hm
      rw [hm] at hpos
      exact absurd hpos (Nat.lt_irrefl 0)
  | succ left ih =>
    obtain ⟨h, hall⟩ := walkAll_facts (f := walk next left)
      (fun b seen => ⟨ih b seen, left, walk_head left b seen⟩) (next a) seen
    refine ⟨h.mono, fun x hx => ?_, fun m hm => ?_, fun m hm hpos b hb => ?_⟩
    · exact (h.met x hx).imp_right fun ⟨l, hl⟩ => ⟨l, List.mem_cons_of_mem _ hl⟩
    · refine ⟨a, List.mem_singleton_self _, ?_⟩
      rcases List.mem_cons.1 hm with rfl | hm
      · exact .refl
      · obtain ⟨b, hb, hreach⟩ := h.below m hm
        exact Relation.ReflTransGen.head hb hreach
    · rcases List.mem_cons.1 hm with rfl | hm
      · exact hall b hb
      · exact h.open_ m hm hpos b hb

/-! ## The same walk with a memory -/

/-- The second walk meets what the first one meets outside `C`, and remembers `C` besides. -/
structure Skips (C : List α) (r r' : Walked α) : Prop where
  met : ∀ m, m ∈ r'.1 ↔ m ∈ r.1 ∧ m.2 ∉ C
  seen : ∀ x, x ∈ r'.2 ↔ x ∈ r.2 ∨ x ∈ C

theorem walkAll_skips {C : List α} (hC : Closed next C) {f : α → List α → Walked α}
    (hfacts : ∀ a seen, Facts next [a] seen (f a seen))
    (hf : ∀ a seen seen', a ∉ C → (∀ x, x ∈ seen' ↔ x ∈ seen ∨ x ∈ C) →
      Skips C (f a seen) (f a seen')) :
    ∀ (as seen seen' : List α), (∀ x, x ∈ seen' ↔ x ∈ seen ∨ x ∈ C) →
      Skips C (walkAll f as seen) (walkAll f as seen')
  | [], seen, seen', hseen => ⟨by simp [walkAll], hseen⟩
  | a :: as, seen, seen', hseen => by
    unfold walkAll
    by_cases ha : a ∈ seen
    · rw [if_pos ha, if_pos ((hseen a).2 (.inl ha))]
      exact walkAll_skips hC hfacts hf as seen seen' hseen
    rw [if_neg ha]
    by_cases haC : a ∈ C
    · -- what the first walk meets here is in `C`
      rw [if_pos ((hseen a).2 (.inr haC))]
      have hin : ∀ m ∈ (f a seen).1, m.2 ∈ C := fun m hm => by
        obtain ⟨b, hb, hreach⟩ := (hfacts a seen).below m hm
        rw [List.mem_singleton.1 hb] at hreach
        exact hC.reach haC hreach
      have hrest := walkAll_skips hC hfacts hf as ((f a seen).2 ++ [a]) seen' fun x => by
        rw [hseen]
        refine ⟨?_, ?_⟩
        · rintro (hx | hx)
          · exact .inl (List.mem_append_left _ ((hfacts a seen).mono x hx))
          · exact .inr hx
        · rintro (hx | hx)
          · rcases List.mem_append.1 hx with hx | hx
            · rcases (hfacts a seen).met x hx with hx | ⟨l, hl⟩
              · exact .inl hx
              · exact .inr (hin _ hl)
            · rw [List.mem_singleton.1 hx]
              exact .inr haC
          · exact .inr hx
      refine ⟨fun m => ?_, hrest.seen⟩
      rw [hrest.met, List.mem_append]
      exact ⟨fun ⟨hm, hmC⟩ => ⟨.inr hm, hmC⟩, fun ⟨hm, hmC⟩ => ⟨hm.resolve_left fun hm => hmC (hin m hm), hmC⟩⟩
    · rw [if_neg fun h => ((hseen a).1 h).elim ha haC]
      have hhead := hf a seen seen' haC hseen
      have hrest := walkAll_skips hC hfacts hf as ((f a seen).2 ++ [a]) ((f a seen').2 ++ [a]) fun x => by
        simp only [List.mem_append, hhead.seen]
        tauto
      refine ⟨fun m => ?_, hrest.seen⟩
      simp only [List.mem_append, hhead.met, hrest.met]
      tauto

/-- Where the walk begins nothing is skipped. -/
theorem walk_skips {C : List α} (hC : Closed next C) (left : ℕ) (a : α) {seen seen' : List α}
    (hseen : ∀ x, x ∈ seen' ↔ x ∈ seen ∨ x ∈ C) :
    (∀ m, m ∈ (walk next left a seen').1 ↔
      m = (left, a) ∨ m ∈ (walk next left a seen).1 ∧ m.2 ∉ C) ∧
      (0 < left → ∀ x, x ∈ (walk next left a seen').2 ↔ x ∈ (walk next left a seen).2 ∨ x ∈ C) := by
  induction left generalizing a seen seen' with
  | zero =>
    refine ⟨fun m => ?_, fun h => absurd h (Nat.lt_irrefl 0)⟩
    simp only [walk, List.mem_singleton]
    tauto
  | succ left ih =>
    have hall := walkAll_skips hC (f := walk next left) (walk_facts left)
      (fun b seen seen' hb hseen => ⟨fun m => ?_, ?_⟩) (next a) seen seen' hseen
    · refine ⟨fun m => ?_, fun _ => hall.seen⟩
      simp only [walk, List.mem_cons, hall.met]
      tauto
    · rw [(ih b hseen).1]
      constructor
      · rintro (rfl | hm)
        · exact ⟨walk_head left b seen, hb⟩
        · exact hm
      · exact .inr
    · cases left with
      | zero => exact hseen
      | succ left => exact (ih b hseen).2 (Nat.succ_pos _)

/-! ## What all have that is met -/

/-- Everything that a walk meets has a property and levels left just if all that can be reached has the
property, and what the walk from there alone meets with no level left is remembered. -/
theorem walk_all_iff {P : α → Prop} {C : List α} (hC : Closed next C) (hP : ∀ x ∈ C, P x) {left : ℕ}
    (hleft : 0 < left) {a : α} :
    (∀ m ∈ (walk next left a C).1, 0 < m.1 ∧ P m.2) ↔
      (∀ x, Reach next a x → P x) ∧ ∀ x ∈ deep next left a, x ∈ C := by
  have hseen : ∀ x, x ∈ C ↔ x ∈ ([] : List α) ∨ x ∈ C := by simp
  obtain ⟨hskips, -⟩ := walk_skips hC left a hseen
  have hfacts : Facts next [a] [] (walk next left a []) := walk_facts left a []
  constructor
  · intro hall
    have hdeep : ∀ x ∈ deep next left a, x ∈ C := fun x hx => by
      by_contra hxC
      have := (hall (0, x) ((hskips _).2 (.inr ⟨mem_deep.1 hx, hxC⟩))).1
      exact absurd this (Nat.lt_irrefl 0)
    have hmet : ∀ x, Reach next a x → (∃ l, (l, x) ∈ (walk next left a []).1) ∨ x ∈ C := by
      intro x hx
      induction hx with
      | refl => exact .inl ⟨left, walk_head left a []⟩
      | @tail y z _ hyz ih =>
        rcases ih with ⟨l, hl⟩ | hy
        · rcases Nat.eq_zero_or_pos l with rfl | hpos
          · exact .inr (hC y (hdeep y (mem_deep.2 hl)) z hyz)
          · rcases hfacts.met z (hfacts.open_ _ hl hpos z hyz) with hz | hz
            · exact absurd hz List.not_mem_nil
            · exact .inl hz
        · exact .inr (hC y hy z hyz)
    refine ⟨fun x hx => ?_, hdeep⟩
    by_cases hxC : x ∈ C
    · exact hP x hxC
    · obtain ⟨l, hl⟩ := (hmet x hx).resolve_right hxC
      exact (hall _ ((hskips _).2 (.inr ⟨hl, hxC⟩))).2
  · rintro ⟨hreach, hdeep⟩ ⟨l, x⟩ hm
    refine ⟨?_, ?_⟩
    · rcases (hskips _).1 hm with heq | ⟨hm, hmC⟩
      · rw [(Prod.mk.inj heq).1]
        exact hleft
      · rcases Nat.eq_zero_or_pos l with rfl | hpos
        · exact absurd (hdeep x (mem_deep.2 hm)) hmC
        · exact hpos
    · obtain ⟨b, hb, hbx⟩ := (walk_facts left a C).below _ hm
      rw [List.mem_singleton.1 hb] at hbx
      exact hreach x hbx

/-- What a walk remembers where it always had levels left. -/
theorem walk_seen {C : List α} (hC : Closed next C) {left : ℕ} {a : α}
    (hleft : ∀ m ∈ (walk next left a C).1, 0 < m.1) :
    Closed next (walk next left a C).2 ∧
      ∀ x, x ∈ (walk next left a C).2 ↔ x ∈ C ∨ ∃ b ∈ next a, Reach next b x := by
  have hfacts : Facts next [a] C (walk next left a C) := walk_facts left a C
  have hclosed : Closed next (walk next left a C).2 := fun x hx y hy => by
    rcases hfacts.met x hx with hx | ⟨l, hl⟩
    · exact hfacts.mono y (hC x hx y hy)
    · exact hfacts.open_ _ hl (hleft _ hl) y hy
  refine ⟨hclosed, fun x => ⟨fun hx => ?_, ?_⟩⟩
  · cases left with
    | zero => exact absurd (hleft _ (walk_head 0 a C)) (Nat.lt_irrefl 0)
    | succ left =>
      obtain ⟨h, -⟩ := walkAll_facts (f := walk next left)
        (fun b seen => ⟨walk_facts left b seen, left, walk_head left b seen⟩) (next a) C
      rcases h.met x hx with hx | ⟨l, hl⟩
      · exact .inl hx
      · exact .inr (h.below _ hl)
  · rintro (hx | ⟨b, hb, hbx⟩)
    · exact hfacts.mono x hx
    · have hself : (left, a) ∈ (walk next left a C).1 := walk_head left a C
      exact hclosed.reach (hfacts.open_ _ hself (hleft _ hself) b hb) hbx

end DepthWalk
