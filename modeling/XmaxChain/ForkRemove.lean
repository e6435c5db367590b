import XmaxChain.ForkGrow

/-!
# Removing a chain

`remove_chain` takes out more than the blocks below a bad one: it takes every pack whose parent's
id is not smaller than the bad block's. Ids compare by number first, so that is every pack two or
more above the bad block, on whichever branch, and some of those just above it. What stays is
closed under known parents.
-/

namespace XmaxChain

open ParentWalk

section Order

theorem Summary.ble_iff {a b : Summary} :
    a.ble b = true ↔ a.num < b.num ∨ a.num = b.num ∧ a.rest ≤ b.rest := by
  simp [Summary.ble]

theorem Summary.ble_refl (a : Summary) : a.ble a = true := ble_iff.2 (.inr ⟨rfl, le_rfl⟩)

theorem Summary.ble_trans {a b d : Summary} (h : a.ble b = true) (h' : b.ble d = true) :
    a.ble d = true := by
  rw [ble_iff] at *
  omega

theorem Summary.ble_of_num_lt {a b : Summary} (h : a.num < b.num) : a.ble b = true :=
  ble_iff.2 (.inl h)

theorem Summary.num_le_of_ble {a b : Summary} (h : a.ble b = true) : a.num ≤ b.num := by
  rw [ble_iff] at h
  omega

end Order

namespace ForkContext

variable {c : Crypto} {f f' : ForkContext} {L X start : Summary}

/-- The packs that go with a block besides itself. -/
def doomed (f : ForkContext) (start a : Summary) : Bool := start.ble (f.up a)

/-- The work list with all doomed packs left at its front needs at most the square of their
number in further turns. -/
theorem removeLoop_ok (start : Summary) : ∀ (fuel : ℕ) (front rest : List Summary) {f : ForkContext},
    Container f →
    front.Perm (f.packs.filter (f.doomed start)) →
    (∀ t ∈ front ++ rest, start.ble t = true ∧ f.doomed start t = true) →
    rest.length + front.length * front.length ≤ fuel →
    ∃ f', removeLoop fuel (front ++ rest) f = .ok f' ∧ Container f' ∧ f'.objs = f.objs
      ∧ f'.head = f.head ∧ ∀ a, a ∈ f'.packs ↔ a ∈ f.packs ∧ f.doomed start a = false
  | fuel, [], [], f, hc, hperm, _, _ => by
    have hnone := List.filter_eq_nil_iff.1 (List.nil_perm.1 hperm)
    refine ⟨f, by unfold removeLoop; rfl, hc, rfl, rfl, fun a => ⟨fun ha => ⟨ha, ?_⟩, fun h => h.1⟩⟩
    simpa using hnone a ha
  | fuel + 1, [], t :: rest, f, hc, hperm, htodo, hfuel => by
    have hnone := List.filter_eq_nil_iff.1 (List.nil_perm.1 hperm)
    have ht := htodo t (by simp)
    have hgone : t ∉ f.packs := fun hm => hnone t hm ht.2
    have herase : (f.erase t).packs = f.packs := List.erase_of_not_mem hgone
    have hpush : (f.erase t).packs.filter (fun a => t.ble ((f.erase t).up a)) = [] := by
      refine List.filter_eq_nil_iff.2 fun a ha => ?_
      rw [herase] at ha
      intro hble
      exact hnone a ha (Summary.ble_trans ht.1 hble)
    obtain ⟨f', hf', hc', hobjs, hhead, hmem⟩ :=
      removeLoop_ok start fuel [] rest (f := f.erase t) hc.erase
        (by rw [herase]; exact hperm) (fun s hs => htodo s (by simp at hs ⊢; exact .inr hs))
        (by simp at hfuel ⊢; omega)
    refine ⟨f', ?_, hc', hobjs, hhead, fun a => by rw [hmem a, herase]; rfl⟩
    rw [List.nil_append] at hf'
    rw [List.nil_append, removeLoop, hpush, List.append_nil]
    exact hf'
  | fuel + 1, t :: front, rest, f, hc, hperm, htodo, hfuel => by
    have ht := htodo t (by simp)
    have hmem_t : t ∈ f.packs := List.mem_of_mem_filter (hperm.mem_iff.1 List.mem_cons_self)
    set pushed := (f.erase t).packs.filter (fun a => t.ble ((f.erase t).up a)) with hpushed
    have hfront : front.Perm ((f.erase t).packs.filter (f.doomed start)) := by
      have := hperm.erase t
      rw [List.erase_cons_head] at this
      rw [erase_packs, ← List.erase_filter]
      exact this
    have hsub : pushed.Sublist ((f.erase t).packs.filter (f.doomed start)) := by
      exact List.monotone_filter_right _ fun a ha => Summary.ble_trans ht.1 ha
    have hlen : pushed.length ≤ front.length := by
      rw [hfront.length_eq]
      exact hsub.length_le
    obtain ⟨f', hf', hc', hobjs, hhead, hmem⟩ :=
      removeLoop_ok start fuel front (rest ++ pushed) (f := f.erase t)
        hc.erase hfront (fun s hs => by
          rcases List.mem_append.1 hs with hs | hs
          · exact htodo s (by simp [hs])
          rcases List.mem_append.1 hs with hs | hs
          · exact htodo s (by simp [hs])
          · have := hfront.mem_iff.2 (hsub.subset hs)
            exact htodo s (by simp [this]))
        (by
          simp only [List.length_append, List.length_cons] at hfuel ⊢
          have : (front.length + 1) * (front.length + 1)
            = front.length * front.length + 2 * front.length + 1 := by ring
          omega)
    refine ⟨f', ?_, hc', hobjs, hhead, fun a => ?_⟩
    · rw [List.cons_append, removeLoop, ← hpushed, List.append_assoc]
      exact hf'
    · rw [hmem a, erase_packs, hc.nodup.mem_erase_iff]
      constructor
      · rintro ⟨⟨-, ha⟩, hd⟩
        exact ⟨ha, hd⟩
      · rintro ⟨ha, hd⟩
        refine ⟨⟨?_, ha⟩, hd⟩
        rintro rfl
        exact absurd ht.2 (by simp [hd])

/-- `remove_chain` takes out the block and the doomed packs, and nothing else. -/
theorem removeLoop_eq (start : Summary) (hc : Container f) (hl : Linked c f) :
    ∃ f', removeLoop (f.packs.length * f.packs.length + 1) [start] f = .ok f' ∧ Container f'
      ∧ f'.objs = f.objs ∧ f'.head = f.head
      ∧ ∀ a, a ∈ f'.packs ↔ a ∈ f.packs ∧ a ≠ start ∧ f.doomed start a = false := by
  have hsub : ∀ a, a ∈ (f.erase start).packs → a ∈ f.packs := fun a ha => List.mem_of_mem_erase ha
  obtain ⟨f', hf', hc', hobjs, hhead, hmem⟩ :=
    removeLoop_ok start (f.packs.length * f.packs.length)
      ((f.erase start).packs.filter (f.doomed start)) [] (f := f.erase start) hc.erase (.refl _)
      (fun t ht => by
        rw [List.append_nil, List.mem_filter] at ht
        have hd : f.doomed start t = true := ht.2
        refine ⟨Summary.ble_trans hd (Summary.ble_of_num_lt ?_), hd⟩
        have := hl.upNum t (hsub t ht.1)
        omega)
      (by
        have : ((f.erase start).packs.filter (f.doomed start)).length
            ≤ f.packs.length :=
          (List.length_filter_le _ _).trans List.length_erase_le
        simpa using Nat.mul_le_mul this this)
  refine ⟨f', ?_, hc', hobjs, hhead, fun a => ?_⟩
  · rw [removeLoop, List.nil_append, ← hf', List.append_nil]
    rfl
  · rw [hmem a, erase_packs, hc.nodup.mem_erase_iff]
    exact ⟨fun h => ⟨h.1.2, h.1.1, h.2⟩, fun h => ⟨⟨h.2.1, h.1⟩, h.2.2⟩⟩

/-- A part of the packs that has `X` and the known parents of its packs. -/
theorem Inv.restrict (hi : Inv c f L X) (hc : Container f') (hobjs : f'.objs = f.objs)
    (hsub : ∀ a ∈ f'.packs, a ∈ f.packs)
    (hclosed : ∀ a ∈ f'.packs, f.up a ∈ f.packs → f.up a ∈ f'.packs) (hX : X ∈ f'.packs) :
    Inv c f' L X := by
  have hup : f'.up = f.up := by unfold up; rw [hobjs]
  have hanc : ∀ a b, f'.Anc a b → f.Anc a b := fun a b hab => hab.mono hsub fun x _ => by rw [hup]
  have hanc' : ∀ a b, a ∈ f'.packs → f.Anc a b → f'.Anc a b := fun a b ha hab => by
    unfold ForkContext.Anc
    rw [hup]
    exact hab.restrict hclosed ha
  have hrel : ∀ a ∈ f'.packs, f'.Related a X ↔ f.Related a X := fun a ha =>
    ⟨fun hr => hr.imp (hanc a X) (hanc X a), fun hr => hr.imp (hanc' a X ha) (hanc' X a hX)⟩
  have habove : f'.Anc X L := hanc' X L hX hi.above
  refine ⟨hc, ⟨?_, ?_, ?_, ?_, ?_⟩, habove.mem_right, fun a ha => hi.lowest a (hsub a ha), habove,
    ?_, ?_, ?_, ?_, ?_, ?_⟩ <;> intro a ha <;> simp only [hobjs, hup, DposOk]
  · exact hi.blockId a (hsub a ha)
  · exact hi.id a (hsub a ha)
  · exact hi.num a (hsub a ha)
  · exact hi.previous a (hsub a ha)
  · exact hi.upNum a (hsub a ha)
  · exact hi.confirmedNum a (hsub a ha)
  · exact fun hr => hi.related a (hsub a ha) ((hrel a ha).1 hr)
  · exact fun hr => hi.unrelated a (hsub a ha) fun hr' => hr ((hrel a ha).2 hr')
  · exact (hi.connected a (hsub a ha)).imp_left (hclosed a ha)
  · exact hi.irreversible a (hsub a ha)
  · intro e he
    obtain ⟨h1, h2, h3⟩ := hi.dpos a (hsub a ha) e he
    exact ⟨h1, h2, fun x hx => h3 x (hanc a x hx)⟩

/-- The known parent of a pack that stays stays. -/
theorem Linked.kept_up (hl : Linked c f) {a : Summary} (hup : f.up a ∈ f.packs)
    (hkeep : f.doomed start a = false) : f.up a ≠ start ∧ f.doomed start (f.up a) = false := by
  refine ⟨fun heq => ?_, ?_⟩
  · rw [doomed, heq, Summary.ble_refl] at hkeep
    cases hkeep
  · by_contra hd
    rw [Bool.not_eq_false, doomed] at hd
    have hle := Summary.num_le_of_ble hd
    have := hl.upNum _ hup
    rw [doomed, Summary.ble_of_num_lt (by omega)] at hkeep
    cases hkeep

/-- Removing a chain that begins above everything confirmed. -/
theorem Inv.removeChain (hi : Inv c f L X) (hlow : X.num < start.num) :
    ∃ f', f.removeChain start = .ok f' ∧ Inv c f' L X ∧ HeadFirst f' ∧ f'.objs = f.objs
      ∧ ∀ a, a ∈ f'.packs ↔ a ∈ f.packs ∧ a ≠ start ∧ f.doomed start a = false := by
  obtain ⟨f₁, hf₁, hc, hobjs, -, hmem⟩ := removeLoop_eq start hi.toContainer hi.toLinked
  have hi₁ : Inv c f₁ L X := by
    refine hi.restrict hc hobjs (fun a ha => ((hmem a).1 ha).1) (fun a ha hup => ?_) ?_
    · obtain ⟨haf, -, hkeep⟩ := (hmem a).1 ha
      exact (hmem _).2 ⟨hup, hi.kept_up hup hkeep⟩
    · refine (hmem X).2 ⟨hi.confirmed_mem, fun heq => by subst heq; omega, ?_⟩
      by_contra hd
      rw [Bool.not_eq_false, doomed] at hd
      have := Summary.num_le_of_ble hd
      have := hi.upNum X hi.confirmed_mem
      omega
  obtain ⟨top, hup, hi₂, hfirst⟩ := hi₁.updateHead
  refine ⟨f₁.withHead top, ?_, hi₂, hfirst, hobjs, hmem⟩
  unfold ForkContext.removeChain
  rw [hf₁]
  exact hup

end ForkContext

end XmaxChain
