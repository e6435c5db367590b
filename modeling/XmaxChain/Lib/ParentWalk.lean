import Mathlib.Data.List.Nodup
import Mathlib.Data.List.Perm.Subperm
import Mathlib.Tactic

/-!
# Walks along parent links

Nodes that each name a parent, of which only those in a list are known. `Anc i x` says that the
walk up from `i` stays among the known nodes until it reaches `x`. A rank that falls along the
links makes every walk end, and makes two nodes met on one walk comparable.
-/

namespace ParentWalk

variable {α : Type*}

inductive Anc (up : α → α) (S : List α) : α → α → Prop
  | refl {i : α} (mem : i ∈ S) : Anc up S i i
  | step {i x : α} (mem : i ∈ S) (rest : Anc up S (up i) x) : Anc up S i x

/-- One of the two is on the walk up from the other. -/
def Related (up : α → α) (S : List α) (i x : α) : Prop := Anc up S i x ∨ Anc up S x i

section Anc

variable {up : α → α} {S : List α} {i x y : α}

theorem Anc.mem_left (h : Anc up S i x) : i ∈ S := by cases h <;> assumption

theorem Anc.mem_right (h : Anc up S i x) : x ∈ S := by
  induction h with
  | refl mem => exact mem
  | step _ _ ih => exact ih

theorem Anc.trans (h : Anc up S i x) (h' : Anc up S x y) : Anc up S i y := by
  induction h with
  | refl _ => exact h'
  | step mem _ ih => exact .step mem (ih h')

theorem Anc.up_of_ne (h : Anc up S i x) (hne : i ≠ x) : Anc up S (up i) x := by
  cases h with
  | refl _ => exact absurd rfl hne
  | step _ rest => exact rest

/-- Known nodes that stay known with the same parents keep their walks. -/
theorem Anc.mono {up' : α → α} {S' : List α} (hS : ∀ a ∈ S, a ∈ S') (hup : ∀ a ∈ S, up' a = up a)
    (h : Anc up S i x) : Anc up' S' i x := by
  induction h with
  | refl mem => exact .refl (hS _ mem)
  | @step j z mem rest ih => exact .step (hS _ mem) (by rwa [hup j mem])

/-- A walk inside a part of the nodes that has the parents of its nodes, as far as known. -/
theorem Anc.restrict {T : List α} (hT : ∀ a ∈ T, up a ∈ S → up a ∈ T) (h : Anc up S i x)
    (hi : i ∈ T) : Anc up T i x := by
  induction h with
  | refl _ => exact .refl hi
  | @step j z _ rest ih => exact .step hi (ih (hT j hi rest.mem_left))

/-- A node that nothing known has as its parent changes no walk from elsewhere. -/
theorem Anc.of_insert {up' : α → α} {S' : List α} {n : α} (hS : ∀ a ∈ S', a = n ∨ a ∈ S)
    (hup : ∀ a, a ≠ n → up' a = up a) (hnew : ∀ a ∈ S, up a ≠ n) (h : Anc up' S' i x)
    (hi : i ≠ n) : Anc up S i x := by
  induction h with
  | @refl j mem => exact .refl ((hS j mem).resolve_left hi)
  | @step j z mem rest ih =>
    have hj : j ∈ S := (hS j mem).resolve_left hi
    have := ih (by rw [hup j hi]; exact hnew j hj)
    exact .step hj (by rwa [hup j hi] at this)

end Anc

section Known

variable {up : α → α} {S : List α} {r : α → ℕ} {i j x n : α}

/-- For ranks that are only known to fall from a node to a known parent. -/
theorem Anc.rank_le_of_known (hr : ∀ a ∈ S, up a ∈ S → r (up a) + 1 = r a) (h : Anc up S i x) :
    r x ≤ r i := by
  induction h with
  | refl _ => exact le_rfl
  | @step j z mem rest ih =>
    have := hr j mem rest.mem_left
    omega

theorem Anc.eq_of_rank_of_known (hr : ∀ a ∈ S, up a ∈ S → r (up a) + 1 = r a) (h : Anc up S i x)
    (hx : r x = r i) : x = i := by
  cases h with
  | refl _ => rfl
  | step mem rest =>
    have := rest.rank_le_of_known hr
    have := hr i mem rest.mem_left
    omega

/-- The lowest node met on the walks up from both of two. -/
structure Meet (up : α → α) (S : List α) (i j n : α) : Prop where
  left : Anc up S i n
  right : Anc up S j n
  lowest : ∀ x, Anc up S i x → Anc up S j x → Anc up S n x

end Known

section Rank

variable {up : α → α} {S : List α} {r : α → ℕ} {i x y : α}

theorem Anc.rank_le (hr : ∀ a ∈ S, r (up a) + 1 = r a) (h : Anc up S i x) : r x ≤ r i :=
  h.rank_le_of_known fun a ha _ => hr a ha

theorem Anc.eq_of_rank (hr : ∀ a ∈ S, r (up a) + 1 = r a) (h : Anc up S i x) (hx : r x = r i) :
    x = i :=
  h.eq_of_rank_of_known (fun a ha _ => hr a ha) hx

theorem Anc.comparable (hr : ∀ a ∈ S, r (up a) + 1 = r a) (hx : Anc up S i x) (hy : Anc up S i y)
    (hle : r x ≤ r y) : Anc up S y x := by
  induction hy with
  | refl _ => exact hx
  | @step j z mem rest ih =>
    refine ih (hx.up_of_ne ?_) hle
    rintro rfl
    have := rest.rank_le hr
    have := hr j mem
    omega

/-- The nodes met on one walk at one rank are one node. -/
theorem Anc.unique (hr : ∀ a ∈ S, r (up a) + 1 = r a) (hx : Anc up S i x) (hy : Anc up S i y)
    (h : r x = r y) : x = y :=
  (hx.comparable hr hy h.le).eq_of_rank hr h

/-- A walk meets every rank between its ends. -/
theorem Anc.exists_at (hr : ∀ a ∈ S, r (up a) + 1 = r a) (h : Anc up S i x) {n : ℕ}
    (hx : r x ≤ n) (hi : n ≤ r i) : ∃ y, Anc up S i y ∧ Anc up S y x ∧ r y = n := by
  induction h with
  | @refl j mem => exact ⟨j, .refl mem, .refl mem, by omega⟩
  | @step j z mem rest ih =>
    rcases Nat.lt_or_ge n (r j) with hlt | hge
    · have := hr j mem
      obtain ⟨y, hjy, hyx, hn⟩ := ih hx (by omega)
      exact ⟨y, .step mem hjy, hyx, hn⟩
    · exact ⟨j, .refl mem, .step mem rest, by omega⟩

/-- A walk down to a rank needs only the nodes above it. -/
theorem Anc.restrict_above (hr : ∀ a ∈ S, r (up a) + 1 = r a) {T : List α} (hx : x ∈ T)
    (hT : ∀ a ∈ S, r x < r a → a ∈ T) (h : Anc up S i x) : Anc up T i x := by
  induction h with
  | refl _ => exact .refl hx
  | @step j z mem rest ih =>
    have := rest.rank_le hr
    have := hr j mem
    exact .step (hT j mem (by omega)) (ih hx hT)

/-- Nodes in the order of their ranks, each with its parent among them or the first node's parent,
form one path. -/
theorem isChain_of_sorted (hr : ∀ a ∈ S, r (up a) + 1 = r a) : ∀ {l : List α} {root : α},
    (∀ a ∈ l, a ∈ S) → l.Pairwise (r · < r ·) → (∀ a ∈ l, up a = root ∨ up a ∈ l) →
    (root :: l).IsChain fun a b => up b = a
  | [], root, _, _, _ => List.isChain_singleton root
  | a :: l, root, hS, hsort, hup => by
    have ha := hr a (hS a List.mem_cons_self)
    have hlt := (List.pairwise_cons.1 hsort).1
    have hroot : up a = root := by
      refine (hup a List.mem_cons_self).resolve_right fun hmem => ?_
      rcases List.mem_cons.1 hmem with heq | hmem
      · rw [heq] at ha; omega
      · have := hlt _ hmem; omega
    refine List.isChain_cons_cons.2 ⟨hroot, isChain_of_sorted hr
      (fun b hb => hS b (List.mem_cons_of_mem _ hb)) (List.Pairwise.of_cons hsort) fun b hb => ?_⟩
    have hb' := hr b (hS b (List.mem_cons_of_mem _ hb))
    rcases hup b (List.mem_cons_of_mem _ hb) with heq | hmem
    · have := hlt b hb
      rw [heq, ← hroot] at hb'
      omega
    · rcases List.mem_cons.1 hmem with heq | hmem
      · exact .inl heq
      · exact .inr hmem

/-- Along a path every node is met on the walk up from the last. -/
theorem anc_of_isChain : ∀ {l : List α} {root : α}, (root :: l).IsChain (fun a b => up b = a) →
    ∀ a ∈ l, Anc up l ((root :: l).getLast (List.cons_ne_nil _ _)) a
  | [], _, _, a, ha => by simp at ha
  | b :: l, root, h, a, ha => by
    obtain ⟨-, h'⟩ := List.isChain_cons_cons.1 h
    rw [List.getLast_cons_cons]
    have hsub : ∀ x ∈ l, x ∈ b :: l := fun x hx => List.mem_cons_of_mem _ hx
    rcases List.mem_cons.1 ha with rfl | ha
    · match l, h' with
      | [], _ => exact .refl (by simp)
      | d :: l, h' =>
        have hd := (anc_of_isChain h' d List.mem_cons_self).mono hsub fun _ _ => rfl
        refine hd.trans (.step (by simp) ?_)
        rw [(List.isChain_cons_cons.1 h').1]
        exact .refl (by simp)
    · exact (anc_of_isChain h' a ha).mono hsub fun _ _ => rfl

theorem Related.symm (h : Related up S i x) : Related up S x i := Or.symm h

theorem Related.anc_of_le (hr : ∀ a ∈ S, r (up a) + 1 = r a) (h : Related up S i x)
    (hle : r x ≤ r i) : Anc up S i x := by
  rcases h with h | h
  · exact h
  · have := h.eq_of_rank hr (le_antisymm (h.rank_le hr) hle)
    subst this
    exact .refl h.mem_left

end Rank

/-- The nodes passed on the walk up from `i` until it reaches `x`, nearest first. -/
inductive Way (up : α → α) (S : List α) : α → List α → α → Prop
  | here {i : α} (mem : i ∈ S) : Way up S i [] i
  | pass {i x : α} {l : List α} (mem : i ∈ S) (rest : Way up S (up i) l x) : Way up S i (i :: l) x

section Way

variable {up : α → α} {S : List α} {i x y : α} {l l' : List α}

theorem Way.anc (h : Way up S i l x) : Anc up S i x := by
  induction h with
  | here mem => exact .refl mem
  | pass mem _ ih => exact .step mem ih

theorem Way.append (h : Way up S i l x) (h' : Way up S x l' y) : Way up S i (l ++ l') y := by
  induction h with
  | here _ => exact h'
  | pass mem _ ih => exact .pass mem (ih h')

theorem Way.known (h : Way up S i l x) : ∀ a ∈ l, a ∈ S := by
  induction h with
  | here _ => exact fun _ ha => absurd ha List.not_mem_nil
  | pass mem _ ih => exact List.forall_mem_cons.2 ⟨mem, ih⟩

theorem Way.eq_cons (h : Way up S i l x) (hne : i ≠ x) : ∃ l', l = i :: l' := by
  cases h with
  | here _ => exact absurd rfl hne
  | pass _ _ => exact ⟨_, rfl⟩

theorem Way.rank_lt_of_known {r : α → ℕ} (hr : ∀ a ∈ S, up a ∈ S → r (up a) + 1 = r a)
    (h : Way up S i l x) : ∀ a ∈ l, Anc up S i a ∧ r x < r a := by
  induction h with
  | here _ => exact fun _ ha => absurd ha List.not_mem_nil
  | @pass i x l mem rest ih =>
    have := hr i mem rest.anc.mem_left
    have := rest.anc.rank_le_of_known hr
    refine List.forall_mem_cons.2 ⟨⟨.refl mem, by omega⟩, fun a ha => ?_⟩
    exact ⟨.step mem (ih a ha).1, (ih a ha).2⟩

theorem Way.rank_lt {r : α → ℕ} (hr : ∀ a ∈ S, r (up a) + 1 = r a) (h : Way up S i l x) :
    ∀ a ∈ l, r x < r a := fun a ha => (h.rank_lt_of_known (fun b hb _ => hr b hb) a ha).2

/-- Only the way from a node to itself passes nothing. -/
theorem Way.eq_nil_iff {r : α → ℕ} (hr : ∀ a ∈ S, up a ∈ S → r (up a) + 1 = r a)
    (h : Way up S i l x) : l = [] ↔ i = x := by
  cases h with
  | here _ => simp
  | pass mem rest =>
    have hlt := (Way.pass mem rest).rank_lt_of_known hr i List.mem_cons_self
    refine ⟨fun hnil => absurd hnil (List.cons_ne_nil _ _), fun hix => ?_⟩
    rw [hix] at hlt
    exact absurd hlt.2 (lt_irrefl _)

/-- Two ways to where the walks meet pass nothing in common. -/
theorem Way.disjoint {r : α → ℕ} (hr : ∀ a ∈ S, up a ∈ S → r (up a) + 1 = r a) {j n : α}
    (h : Way up S i l n) (h' : Way up S j l' n) (hmeet : Meet up S i j n) : l.Disjoint l' := by
  intro a ha ha'
  obtain ⟨hia, hlt⟩ := h.rank_lt_of_known hr a ha
  have hja := (h'.rank_lt_of_known hr a ha').1
  have hle := (hmeet.lowest a hia hja).rank_le_of_known hr
  omega

/-- Read the other way round, from `x` down, each node is the parent of the next. -/
theorem Way.isChain_reverse (h : Way up S i l x) : (x :: l.reverse).IsChain fun a b => up b = a := by
  induction h with
  | here _ => exact List.isChain_singleton _
  | @pass i x l mem rest ih =>
    rw [List.reverse_cons, ← List.cons_append]
    refine List.isChain_append.2 ⟨ih, List.isChain_singleton _, fun a ha b hb => ?_⟩
    simp only [List.head?_cons, Option.mem_some_iff] at hb
    subst hb
    cases rest with
    | here _ => simpa [eq_comm] using ha
    | pass _ _ =>
      rw [List.reverse_cons, ← List.cons_append, List.getLast?_concat] at ha
      exact Option.mem_some_iff.1 ha

end Way

section WalkUp

variable [DecidableEq α] (up : α → α) (S : List α)

/-- The known nodes met on the way up, nearest first, in at most `fuel` steps. -/
def walkUp : ℕ → α → List α
  | 0, _ => []
  | fuel + 1, i => if i ∈ S then i :: walkUp fuel (up i) else []

variable {up S}

theorem known_of_mem_walkUp {x : α} : ∀ {fuel : ℕ} {i : α}, x ∈ walkUp up S fuel i → x ∈ S
  | fuel + 1, i, h => by
    unfold walkUp at h
    split_ifs at h with hi
    · rcases List.mem_cons.1 h with rfl | h
      · exact hi
      · exact known_of_mem_walkUp h
    · exact absurd h List.not_mem_nil

theorem mem_walkUp {r : α → ℕ} (hr : ∀ a ∈ S, r (up a) + 1 = r a) {x : α} :
    ∀ {fuel : ℕ} {i : α}, r i < fuel → (x ∈ walkUp up S fuel i ↔ Anc up S i x)
  | fuel + 1, i, h => by
    unfold walkUp
    split_ifs with hi
    · have hup := hr i hi
      rw [List.mem_cons, mem_walkUp hr (by omega)]
      constructor
      · rintro (rfl | h)
        · exact .refl hi
        · exact .step hi h
      · intro h
        cases h with
        | refl _ => exact .inl rfl
        | step _ rest => exact .inr rest
    · simp only [List.not_mem_nil, false_iff]
      exact fun h => hi h.mem_left

theorem anc_of_mem_walkUp {x : α} : ∀ {fuel : ℕ} {i : α}, x ∈ walkUp up S fuel i → Anc up S i x
  | fuel + 1, i, h => by
    unfold walkUp at h
    split_ifs at h with hi
    · rcases List.mem_cons.1 h with rfl | h
      · exact .refl hi
      · exact .step hi (anc_of_mem_walkUp h)
    · exact absurd h List.not_mem_nil

/-- A walk that never comes back meets no node twice. -/
theorem walkUp_nodup (h : ∀ a ∈ S, ¬ Anc up S (up a) a) (fuel : ℕ) (i : α) : (walkUp up S fuel i).Nodup := by
  induction fuel generalizing i with
  | zero => exact .nil
  | succ fuel ih =>
    rw [walkUp]
    split_ifs with hi
    · exact List.nodup_cons.2 ⟨fun hmem => h i hi (anc_of_mem_walkUp hmem), ih (up i)⟩
    · exact .nil

theorem walkUp_length_le (h : ∀ a ∈ S, ¬ Anc up S (up a) a) (fuel : ℕ) (i : α) :
    (walkUp up S fuel i).length ≤ S.length :=
  ((walkUp_nodup h fuel i).subperm fun _ hx => known_of_mem_walkUp hx).length_le

theorem walkUp_succ_of_lt {fuel : ℕ} {i : α} (h : (walkUp up S fuel i).length < fuel) :
    walkUp up S (fuel + 1) i = walkUp up S fuel i := by
  induction fuel generalizing i with
  | zero => exact absurd h (Nat.not_lt_zero _)
  | succ fuel ih =>
    have hstep : ∀ n, walkUp up S (n + 1) i = if i ∈ S then i :: walkUp up S n (up i) else [] := fun _ => rfl
    rw [hstep] at h
    rw [hstep, hstep]
    split_ifs at h ⊢ with hi
    · rw [ih (by simpa using h)]
    · rfl

theorem walkUp_of_le {m n : ℕ} {i : α} (h : (walkUp up S m i).length < m) (hmn : m ≤ n) :
    walkUp up S n i = walkUp up S m i := by
  induction n, hmn using Nat.le_induction with
  | base => rfl
  | succ n hmn ih => rw [walkUp_succ_of_lt (by rw [ih]; omega), ih]

theorem walkUp_length_le_rank {r : α → ℕ} (hr : ∀ a ∈ S, r (up a) + 1 = r a) (fuel : ℕ) (i : α) :
    (walkUp up S fuel i).length ≤ r i := by
  induction fuel generalizing i with
  | zero => exact Nat.zero_le _
  | succ fuel ih =>
    rw [walkUp]
    split_ifs with hi
    · have hup := ih (up i)
      have hrank := hr i hi
      rw [List.length_cons]
      omega
    · exact Nat.zero_le _

/-- Where no walk comes back, a node's rank is how many nodes its walk meets. -/
theorem exists_rank (h : ∀ a ∈ S, ¬ Anc up S (up a) a) :
    ∃ r : α → ℕ, (∀ a ∈ S, r (up a) + 1 = r a) ∧ ∀ a, r a ≤ S.length := by
  refine ⟨fun a => (walkUp up S (S.length + 1) a).length, fun a ha => ?_, fun a => walkUp_length_le h _ a⟩
  have hstep : walkUp up S (S.length + 2) a = a :: walkUp up S (S.length + 1) (up a) := by
    rw [walkUp, if_pos ha]
  rw [walkUp_succ_of_lt (Nat.lt_succ_of_le (walkUp_length_le h _ a))] at hstep
  dsimp only
  rw [hstep, List.length_cons]

end WalkUp

section Below

variable [DecidableEq α] (up : α → α) (S : List α)

def children (i : α) : List α := S.filter (up · = i)

/-- The nodes below those of a queue, level by level. -/
def below : ℕ → List α → List α
  | 0, _ => []
  | _ + 1, [] => []
  | fuel + 1, i :: todo => children up S i ++ below fuel (todo ++ children up S i)

variable {up S}

theorem mem_children {i x : α} : x ∈ children up S i ↔ x ∈ S ∧ up x = i := by
  simp [children]

theorem anc_of_mem_below {x : α} : ∀ {fuel : ℕ} {todo : List α}, (∀ t ∈ todo, t ∈ S) →
    x ∈ below up S fuel todo → x ∈ S ∧ ∃ t ∈ todo, Anc up S (up x) t
  | fuel + 1, i :: todo, htodo, h => by
    have hi := htodo i List.mem_cons_self
    rcases List.mem_append.1 h with h | h
    · obtain ⟨hx, rfl⟩ := mem_children.1 h
      exact ⟨hx, _, List.mem_cons_self, .refl hi⟩
    · obtain ⟨hx, t, ht, hanc⟩ := anc_of_mem_below (fun t ht => by
        rcases List.mem_append.1 ht with ht | ht
        · exact htodo t (List.mem_cons_of_mem _ ht)
        · exact (mem_children.1 ht).1) h
      refine ⟨hx, ?_⟩
      rcases List.mem_append.1 ht with ht | ht
      · exact ⟨t, List.mem_cons_of_mem _ ht, hanc⟩
      · obtain ⟨_, rfl⟩ := mem_children.1 ht
        exact ⟨_, List.mem_cons_self, hanc.trans (.step hanc.mem_right (.refl hi))⟩

/-- The state of the search below `root`: the nodes whose children have been listed and those
still in the queue are distinct, and hold every child of the former. -/
structure Search (up : α → α) (S : List α) (r : α → ℕ) (root : α) (done todo : List α) : Prop where
  nodup : (done ++ todo).Nodup
  known : ∀ a ∈ done ++ todo, a ∈ S
  parent : ∀ a ∈ done ++ todo, a = root ∨ up a ∈ done
  rank : ∀ a ∈ done ++ todo, r root ≤ r a
  closed : ∀ a ∈ S, up a ∈ done → a ∈ done ++ todo

omit [DecidableEq α] in
theorem Search.start {r : α → ℕ} {root : α} (hroot : root ∈ S) : Search up S r root [] [root] :=
  ⟨by simp, by simpa using hroot, by simp, by simp, by simp⟩

omit [DecidableEq α] in
theorem Search.length_le {r : α → ℕ} {root : α} {done todo : List α} (h : Search up S r root done todo) :
    done.length + todo.length ≤ S.length := by
  rw [← List.length_append]
  exact (h.nodup.subperm fun a ha => h.known a ha).length_le

theorem Search.next {r : α → ℕ} (hr : ∀ a ∈ S, r (up a) + 1 = r a) (hS : S.Nodup) {root i : α}
    {done todo : List α} (h : Search up S r root done (i :: todo)) :
    Search up S r root (done ++ [i]) (todo ++ children up S i) := by
  have hmem : ∀ a, a ∈ done ++ [i] ++ (todo ++ children up S i) ↔
      a ∈ done ++ i :: todo ∨ a ∈ children up S i := fun a => by simp [or_assoc]
  have hi : i ∉ done := fun hd =>
    (List.nodup_append.1 h.nodup).2.2 i hd i List.mem_cons_self rfl
  have hfresh : ∀ a ∈ done ++ i :: todo, a ∉ children up S i := by
    intro a ha hc
    obtain ⟨hSa, hup⟩ := mem_children.1 hc
    rcases h.parent a ha with rfl | hd
    · have := h.rank i (by simp)
      have := hr a hSa
      rw [hup] at this
      omega
    · exact hi (hup ▸ hd)
  refine ⟨?_, fun a ha => ?_, fun a ha => ?_, fun a ha => ?_, fun a ha hup => ?_⟩
  · have : done ++ [i] ++ (todo ++ children up S i) = done ++ i :: todo ++ children up S i := by
      simp
    rw [this]
    exact h.nodup.append (hS.filter _) fun a ha hc => hfresh a ha hc
  · rcases (hmem a).1 ha with ha | ha
    · exact h.known a ha
    · exact (mem_children.1 ha).1
  · rcases (hmem a).1 ha with ha | ha
    · exact (h.parent a ha).imp_right fun hd => List.mem_append_left _ hd
    · exact .inr (by simp [(mem_children.1 ha).2])
  · rcases (hmem a).1 ha with ha | ha
    · exact h.rank a ha
    · obtain ⟨hSa, hup⟩ := mem_children.1 ha
      have := h.rank i (by simp)
      have := hr a hSa
      rw [hup] at this
      omega
  · rw [hmem]
    rcases List.mem_append.1 hup with hd | hd
    · exact .inl (h.closed a ha hd)
    · exact .inr (mem_children.2 ⟨ha, List.mem_singleton.1 hd⟩)

/-- With as much fuel as nodes left, the search misses no child. -/
theorem below_closed {r : α → ℕ} (hr : ∀ a ∈ S, r (up a) + 1 = r a) (hS : S.Nodup) {root : α} :
    ∀ (fuel : ℕ) {done todo : List α}, Search up S r root done todo →
      S.length < fuel + done.length → ∀ a ∈ S,
      up a ∈ done ++ todo ++ below up S fuel todo → a ∈ done ++ todo ++ below up S fuel todo
  | 0, done, todo, h, hlen, a, _, _ => by
    have := h.length_le
    omega
  | fuel + 1, done, [], h, hlen, a, ha, hup => by
    simp only [List.append_nil, below] at hup ⊢
    simpa using h.closed a ha hup
  | fuel + 1, done, i :: todo, h, hlen, a, ha, hup => by
    have ih := below_closed hr hS fuel (h.next hr hS) (by simp; omega) a ha
    have hperm : ∀ b, b ∈ done ++ i :: todo ++ below up S (fuel + 1) (i :: todo) ↔
        b ∈ done ++ [i] ++ (todo ++ children up S i)
          ++ below up S fuel (todo ++ children up S i) := by
      intro b
      simp only [below, List.mem_append, List.mem_cons, List.not_mem_nil, or_false]
      tauto
    exact (hperm a).2 (ih ((hperm _).1 hup))

/-- The nodes strictly below a known one. -/
theorem mem_below_of_lt {r : α → ℕ} (hr : ∀ a ∈ S, r (up a) + 1 = r a) (hS : S.Nodup) {root x : α}
    (hroot : root ∈ S) {fuel : ℕ} (hfuel : S.length < fuel) :
    x ∈ below up S fuel [root] ↔ Anc up S x root ∧ x ≠ root := by
  constructor
  · intro h
    obtain ⟨hx, t, ht, hanc⟩ := anc_of_mem_below (by simpa using hroot) h
    rw [List.mem_singleton] at ht
    subst ht
    refine ⟨.step hx hanc, ?_⟩
    rintro rfl
    have := hanc.rank_le hr
    have := hr x hx
    omega
  · rintro ⟨hanc, hne⟩
    have hclosed := below_closed hr hS fuel (.start hroot) (by simpa using hfuel)
    have hall : x ∈ [] ++ [root] ++ below up S fuel [root] := by
      induction hanc with
      | refl _ => simp
      | @step j z mem rest ih =>
        refine hclosed j mem ?_
        by_cases hjz : up j = z
        · simp [hjz]
        · exact ih hroot hjz hclosed
    simpa [hne] using hall

theorem mem_below {r : α → ℕ} (hr : ∀ a ∈ S, r (up a) + 1 = r a) (hS : S.Nodup) {root x : α}
    (hroot : root ∈ S) :
    x ∈ below up S (S.length + 1) [root] ↔ Anc up S x root ∧ x ≠ root :=
  mem_below_of_lt hr hS hroot (Nat.lt_succ_self _)

/-- More fuel than that changes nothing. -/
theorem below_succ_of_lt {r : α → ℕ} (hr : ∀ a ∈ S, r (up a) + 1 = r a) (hS : S.Nodup) {root : α} :
    ∀ (fuel : ℕ) {done todo : List α}, Search up S r root done todo → S.length < fuel + done.length →
      below up S (fuel + 1) todo = below up S fuel todo
  | 0, done, todo, h, hlen => absurd h.length_le (by simp; omega)
  | fuel + 1, done, [], h, hlen => rfl
  | fuel + 1, done, i :: todo, h, hlen => by
    rw [below, below_succ_of_lt hr hS fuel (h.next hr hS) (by simp; omega)]
    rfl

theorem below_of_le {r : α → ℕ} (hr : ∀ a ∈ S, r (up a) + 1 = r a) (hS : S.Nodup) {root : α} (hroot : root ∈ S)
    {fuel : ℕ} (hfuel : S.length < fuel) : below up S fuel [root] = below up S (S.length + 1) [root] := by
  induction fuel, Nat.succ_le_of_lt hfuel using Nat.le_induction with
  | base => rfl
  | succ n hn ih =>
    rw [below_succ_of_lt hr hS n (.start hroot) (by simpa using hn), ih hn]

end Below

end ParentWalk
