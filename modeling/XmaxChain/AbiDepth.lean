import XmaxChain.AbiDecode

/-!
# How deep decoding goes

Between two bytes that are read, the decoder goes to bases and to fields before which there is nothing to
read. Where that comes back to a struct, the struct is decoded for ever, and validation knows of cycles of bases
only. Where it does not, the recursion is as deep as the bytes are many, times what the types allow between
two of them.
-/

namespace XmaxChain

open StreamReader Abi Fuel Paths Relation

namespace Decoder

variable {α β ι : Type} {x : Decoder α} {f : α → Decoder β} {g : ι → Decoder α}

/-- As long as it does not return it may go on, and when it does it has read nothing. -/
def Idle (x : Decoder α) : Prop := ∀ bytes, x.Pends bytes ∨ ∃ a, x.Gives bytes a bytes

theorem Idle.pure (a : α) : Idle (Pure.pure a : Decoder α) := fun _ => .inr ⟨a, gives_pure.2 ⟨rfl, rfl⟩⟩

theorem Idle.bind (hx : x.Idle) (hf : ∀ a, (f a).Idle) : Idle (x >>= f) := by
  intro bytes
  rcases hx bytes with hx | ⟨a, ha⟩
  · exact .inl (pends_bind.2 (.inl hx))
  · rcases hf a bytes with hf | ⟨b, hb⟩
    · exact .inl (pends_bind.2 (.inr ⟨a, bytes, ha, hf⟩))
    · exact .inr ⟨b, gives_bind.2 ⟨a, bytes, ha, hb⟩⟩

theorem Idle.fuelCall_bind {o : Option α} (hf : ∀ a, o = some a → (f a).Idle) : Idle (fuelCall o >>= f) := by
  intro bytes
  rcases o with _ | a
  · exact .inl (pends_fuelCall_bind.2 (.inl rfl))
  · rcases hf a rfl bytes with hf | ⟨b, hb⟩
    · exact .inl (pends_fuelCall_bind.2 (.inr ⟨a, rfl, hf⟩))
    · exact .inr ⟨b, gives_fuelCall_bind.2 ⟨a, rfl, hb⟩⟩

theorem Idle.mapM {is : List ι} (h : ∀ i ∈ is, (g i).Idle) : Idle (is.mapM g) := by
  induction is with
  | nil => exact .pure _
  | cons i is ih =>
    rw [List.mapM_cons]
    exact (h i List.mem_cons_self).bind fun _ => (ih fun j hj => h j (List.mem_cons_of_mem i hj)).bind fun _ => .pure _

theorem Idle.bind_pends (hx : x.Idle) (hf : ∀ a bytes, (f a).Pends bytes) (bytes : Bytes) : (x >>= f).Pends bytes := by
  rcases hx bytes with hx | ⟨a, ha⟩
  · exact pends_bind.2 (.inl hx)
  · exact pends_bind.2 (.inr ⟨a, bytes, ha, hf a bytes⟩)

/-- Those before take nothing, and then one goes on for ever. -/
theorem mapM_pends {before after : List ι} {i : ι} (hbefore : ∀ j ∈ before, (g j).Idle)
    (hi : ∀ bytes, (g i).Pends bytes) (bytes : Bytes) :
    Decoder.Pends ((before ++ i :: after).mapM g) bytes := by
  induction before generalizing bytes with
  | nil =>
    rw [List.nil_append, List.mapM_cons]
    exact pends_bind.2 (.inl (hi bytes))
  | cons j before ih =>
    rw [List.cons_append, List.mapM_cons]
    refine (hbefore j List.mem_cons_self).bind_pends (fun a bytes => pends_bind.2 (.inl ?_)) bytes
    exact ih (fun k hk => hbefore k (List.mem_cons_of_mem j hk)) bytes

/-- All return with no more bytes than these, so one after the other returns. -/
theorem mapM_not_pends {n : ℕ} {is : List ι} (hreads : ∀ i ∈ is, ∀ bytes a rest, (g i).Gives bytes a rest →
      rest.length ≤ bytes.length)
    (h : ∀ i ∈ is, ∀ bytes : Bytes, bytes.length ≤ n → ¬ (g i).Pends bytes) {bytes : Bytes}
    (hn : bytes.length ≤ n) : ¬ Decoder.Pends (is.mapM g) bytes := by
  induction is generalizing bytes with
  | nil => exact not_pends_pure _
  | cons i is ih =>
    obtain ⟨hi, his⟩ := List.forall_mem_cons.1 h
    obtain ⟨hread, hreads⟩ := List.forall_mem_cons.1 hreads
    rw [List.mapM_cons, pends_bind, not_or]
    refine ⟨hi bytes hn, ?_⟩
    rintro ⟨a, b, ha, hpends⟩
    rw [pends_bind_pure] at hpends
    exact ih hreads his ((hread bytes a b ha).trans hn) hpends

/-- Until something is read all that came before takes nothing, and from then on there are fewer bytes. -/
theorem mapM_not_pends_left {P : ι → Prop} {n : ℕ} {is : List ι}
    (hreads : ∀ i ∈ is, ∀ bytes a rest, (g i).Gives bytes a rest →
      rest.length ≤ bytes.length ∧ (rest.length = bytes.length → P i))
    (hleft : ∀ before i after, is = before ++ i :: after → (∀ j ∈ before, P j) →
      ∀ bytes : Bytes, bytes.length ≤ n → ¬ (g i).Pends bytes)
    (hless : ∀ i ∈ is, ∀ bytes : Bytes, bytes.length < n → ¬ (g i).Pends bytes) {bytes : Bytes}
    (hn : bytes.length ≤ n) : ¬ Decoder.Pends (is.mapM g) bytes := by
  induction is generalizing bytes with
  | nil => exact not_pends_pure _
  | cons i is ih =>
    obtain ⟨hread, hreads⟩ := List.forall_mem_cons.1 hreads
    obtain ⟨-, hless⟩ := List.forall_mem_cons.1 hless
    rw [List.mapM_cons, pends_bind, not_or]
    refine ⟨hleft [] i is rfl (fun _ hj => by cases hj) bytes hn, ?_⟩
    rintro ⟨a, b, ha, hpends⟩
    rw [pends_bind_pure] at hpends
    obtain ⟨hle, hnothing⟩ := hread bytes a b ha
    by_cases hsame : b.length = bytes.length
    · refine ih hreads (fun before j after hsplit hbefore => ?_) hless (by omega) hpends
      exact hleft (i :: before) j after (by rw [hsplit]; rfl) (List.forall_mem_cons.2 ⟨hnothing hsame, hbefore⟩)
    · exact mapM_not_pends (n := b.length) (fun j hj bytes a rest h => (hreads j hj bytes a rest h).1)
        (fun j hj bytes hb => hless j hj bytes (by omega)) le_rfl hpends

end Decoder

namespace AbiSerializer

variable {s : AbiSerializer} {type rtype : TypeName} {st : StructT} {n : ℕ}

/-! ## Where nothing is read -/

theorem getStructCall_eq_none_or (hst : s.StructOf type st) :
    (s.getStructCall n type).run = none ∨ (s.getStructCall n type).run = some (.ok st) := by
  obtain ⟨m, hm⟩ := hst
  obtain ⟨rtype, hres, hfind⟩ := Option.bind_eq_some_iff.1 hm
  rw [getStructCall, bind_pends, bind_returns, lift_eq_none]
  rcases hres' : s.resolveType n type with _ | rtype'
  · exact .inl (.inl rfl)
  · rw [Resolves.unique ⟨m, hres⟩ ⟨n, hres'⟩]
    refine .inr ⟨rtype, lift_eq_ok.2 rfl, ?_⟩
    rw [hfind]
    rfl

theorem unpackResolvedCall_object (hobject : s.AsObject type rtype) :
    s.unpackResolvedCall n rtype = s.unpackObjectCall n rtype >>= fun obj => pure (.object obj) := by
  rw [unpackResolvedCall, hobject.2.1, hobject.2.2]
  rfl

theorem idle_base (hbase : ∀ base, st.base ≠ TypeName.empty → s.Resolves st.base base →
    (s.unpackObjectCall n base).Idle) : (s.unpackBaseCall n st).Idle := by
  rw [unpackBaseCall]
  split_ifs with hne
  · exact .fuelCall_bind fun base hres => hbase base hne ⟨n, hres⟩
  · exact .pure _

theorem idle_field {field : Field} (hobject : s.AsObject field.type rtype)
    (hidle : ∀ n, (s.unpackObjectCall n rtype).Idle) : (s.unpackFieldCall n field).Idle := by
  refine .fuelCall_bind fun r hres => Decoder.Idle.bind ?_ fun _ => .pure _
  rcases n with _ | n
  · exact fun _ => .inl rfl
  · rw [unpackVariantCall_succ]
    refine .fuelCall_bind fun r' hres' => ?_
    rw [← AsObject.resolved ⟨_, hres⟩] at hobject
    rw [hobject.1.unique ⟨n, hres'⟩, unpackResolvedCall_object hobject]
    exact (hidle n).bind fun _ => .pure _

theorem Nullable.idle (h : s.Nullable type) : ∀ n, (s.unpackObjectCall n type).Idle := by
  induction h with
  | @intro type st hst hbase hfields hnullable ihbase ihfields =>
    intro n
    rcases n with _ | n
    · exact fun _ => .inl rfl
    · intro bytes
      rw [unpackObjectCall_succ, Decoder.pends_liftCall_bind]
      simp only [Decoder.gives_liftCall_bind]
      rcases getStructCall_eq_none_or (n := n) hst with hnone | hok
      · exact .inl (.inl hnone)
      · have hidle : Decoder.Idle (s.unpackBaseCall n st >>= fun base =>
            st.fields.mapM (s.unpackFieldCall n) >>= fun own => pure (base ++ own)) := by
          refine Decoder.Idle.bind (idle_base fun base hne hres => ihbase base hne hres n) fun base =>
            Decoder.Idle.bind (Decoder.Idle.mapM fun field hfield => ?_) fun _ => .pure _
          obtain ⟨rtype, hobject⟩ := hfields field hfield
          exact idle_field hobject (ihfields field hfield rtype hobject)
        rcases hidle bytes with hpends | ⟨obj, hgives⟩
        · exact .inl (.inr ⟨st, hok, hpends⟩)
        · exact .inr ⟨obj, st, hok, hgives⟩

/-! ## Structs that come back to themselves -/

theorem field_pends {field : Field} (hobject : s.AsObject field.type rtype)
    (hpends : ∀ m < n, ∀ bytes, (s.unpackObjectCall m rtype).Pends bytes) (bytes : Bytes) :
    (s.unpackFieldCall n field).Pends bytes := by
  rw [unpackFieldCall, Decoder.pends_fuelCall_bind]
  rcases hres : s.resolveType n field.type with _ | r
  · exact .inl rfl
  · refine .inr ⟨r, rfl, Decoder.pends_bind_pure.2 ?_⟩
    rcases n with _ | n
    · rfl
    · rw [unpackVariantCall_succ, Decoder.pends_fuelCall_bind]
      rcases hres' : s.resolveType n r with _ | r'
      · exact .inl rfl
      · rw [← AsObject.resolved ⟨_, hres⟩] at hobject
        refine .inr ⟨r', rfl, ?_⟩
        rw [hobject.1.unique ⟨n, hres'⟩, unpackResolvedCall_object hobject, Decoder.pends_bind_pure]
        exact hpends n (Nat.lt_succ_self n) bytes

/-- The step to the left costs fuel and no bytes, and so there is no fuel that is enough. -/
theorem object_pends (h : MeetsCycle s.Left type) (n : ℕ) (bytes : Bytes) :
    (s.unpackObjectCall n type).Pends bytes := by
  induction n using Nat.strong_induction_on generalizing type bytes with
  | _ n ih =>
    rcases n with _ | n
    · rfl
    obtain ⟨next, hleft, hnext⟩ := h.next
    rw [unpackObjectCall_succ, Decoder.pends_liftCall_bind]
    cases hleft with
    | @base st hst hbase hres =>
      rcases getStructCall_eq_none_or (n := n) hst with hnone | hok
      · exact .inl hnone
      refine .inr ⟨st, hok, Decoder.pends_bind.2 (.inl ?_)⟩
      rw [unpackBaseCall, if_pos hbase, Decoder.pends_fuelCall_bind]
      rcases hres' : s.resolveType n st.base with _ | base
      · exact .inl rfl
      · rw [hres.unique ⟨n, hres'⟩]
        exact .inr ⟨next, rfl, ih n (Nat.lt_succ_self n) hnext bytes⟩
    | @field st before after field hst hbase hfields hbefore hobject =>
      rcases getStructCall_eq_none_or (n := n) hst with hnone | hok
      · exact .inl hnone
      refine .inr ⟨st, hok, (idle_base fun base hne hres => (hbase base hne hres).idle n).bind_pends ?_ bytes⟩
      intro base bytes
      rw [hfields, Decoder.pends_bind_pure]
      refine Decoder.mapM_pends (fun f hf => ?_) (field_pends hobject fun m hm => ?_) bytes
      · obtain ⟨rtype, hobject', hnullable⟩ := hbefore f hf
        exact idle_field hobject' hnullable.idle
      · exact ih m (by omega) hnext

theorem variant_pends (hobject : s.AsObject type rtype) (h : MeetsCycle s.Left rtype) (n : ℕ) (bytes : Bytes) :
    (s.unpackVariantCall n type).Pends bytes := by
  rcases n with _ | n
  · rfl
  rw [unpackVariantCall_succ, Decoder.pends_fuelCall_bind]
  rcases hres : s.resolveType n type with _ | r
  · exact .inl rfl
  · refine .inr ⟨r, rfl, ?_⟩
    rw [hobject.1.unique ⟨n, hres⟩, unpackResolvedCall_object hobject, Decoder.pends_bind_pure]
    exact object_pends h n bytes

/-! ## How much fuel is enough -/

/-- The names that a base or a field may stand for. -/
def places (s : AbiSerializer) : List TypeName :=
  s.targets ++ s.structs.rows.flatMap fun st => st.2.base :: st.2.fields.map Field.type

/-- For a struct with so many steps to the left before it and so many bytes. -/
def objectBound (s : AbiSerializer) (steps bytes : ℕ) : ℕ :=
  s.targets.length + 3 + 2 * steps + (2 * (s.places.length + 1) + 3) * bytes

def depthBound (s : AbiSerializer) (bytes : ℕ) : ℕ := s.objectBound (s.places.length + 1) bytes + 1

theorem objectBound_succ (steps bytes : ℕ) : s.objectBound (steps + 1) bytes = s.objectBound steps bytes + 2 := by
  rw [objectBound, objectBound]
  omega

theorem targets_lt_objectBound (steps bytes : ℕ) : s.targets.length + 2 < s.objectBound steps bytes := by
  rw [objectBound]
  omega

/-- A byte that is read makes up for all steps to the left. -/
theorem depthBound_lt {m n : ℕ} (hmn : m < n) (steps : ℕ) : s.depthBound m + 2 ≤ s.objectBound steps n := by
  have hbytes : (2 * (s.places.length + 1) + 3) * m + (2 * (s.places.length + 1) + 3) ≤
      (2 * (s.places.length + 1) + 3) * n := Nat.mul_le_mul_left _ hmn
  rw [depthBound, objectBound, objectBound]
  omega

theorem mem_targets_of_resolveType (h : s.resolveType n type = some rtype) : rtype = type ∨ rtype ∈ s.targets := by
  induction n generalizing type with
  | zero => cases h
  | succ n ih =>
    rw [resolveType] at h
    split at h
    · rename_i target hfind
      rcases ih h with rfl | hmem
      · exact .inr (mem_targets_of_find? hfind)
      · exact .inr hmem
    · exact .inl (Option.some.inj h).symm

theorem mem_places_of_resolves {part : TypeName} (hst : s.StructOf type st)
    (hpart : part ∈ st.base :: st.fields.map Field.type) (hres : s.Resolves part rtype) : rtype ∈ s.places := by
  obtain ⟨m, hm⟩ := hst
  obtain ⟨name, -, hfind⟩ := Option.bind_eq_some_iff.1 hm
  obtain ⟨n, hn⟩ := hres
  rcases mem_targets_of_resolveType hn with rfl | htarget
  · exact List.mem_append_right _ (List.mem_flatMap.2 ⟨_, Table.mem_rows_of_find? hfind, hpart⟩)
  · exact List.mem_append_left _ htarget

theorem mem_places_of_left {next : TypeName} (h : s.Left type next) : next ∈ s.places := by
  cases h with
  | base hst hbase hres => exact mem_places_of_resolves hst List.mem_cons_self hres
  | @field st before after field hst hbase hfields hbefore hobject =>
    refine mem_places_of_resolves hst (List.mem_cons_of_mem _ (List.mem_map.2 ⟨field, ?_, rfl⟩)) hobject.1
    rw [hfields]
    exact List.mem_append_right _ List.mem_cons_self

/-- Every name stands for something after as many steps as there are typedefs. -/
def NamesEnd (s : AbiSerializer) : Prop := ∀ type, Within s.Names (s.targets.length + 1) type

theorem NamesEnd.resolveType_ne_none (h : s.NamesEnd) (hn : s.targets.length < n) : s.resolveType n type ≠ none :=
  resolveType_ne_none_iff.2 ((h type).mono hn)

theorem NamesEnd.getStructCall_ne_none (h : s.NamesEnd) (hn : s.targets.length < n) :
    (s.getStructCall n type).run ≠ none := by
  rw [getStructCall, Ne, bind_pends, lift_eq_none, not_or]
  refine ⟨h.resolveType_ne_none hn, ?_⟩
  rintro ⟨rtype, -, hnone⟩
  rcases hfind : s.structs.find? rtype with _ | st <;> rw [hfind] at hnone <;> cases hnone

/-- With the fuel for so many bytes, decoding any type returns or throws. -/
def Returns (s : AbiSerializer) (n : ℕ) : Prop :=
  ∀ type fuel (bytes : Bytes), bytes.length ≤ n → s.depthBound n ≤ fuel → ¬ (s.unpackVariantCall fuel type).Pends bytes

section Returns

variable {fuel : ℕ} {bytes : Bytes}

theorem resolved_not_pends (hcodecs : s.CodecsRead) (hless : ∀ m < n, s.Returns m)
    (hfuel : ∀ m < n, s.depthBound m ≤ fuel) (hres : s.Resolves type rtype) (hbytes : bytes.length ≤ n)
    (hobject : s.AsObject type rtype → ¬ (s.unpackObjectCall fuel rtype).Pends bytes) :
    ¬ (s.unpackResolvedCall fuel rtype).Pends bytes := by
  unfold unpackResolvedCall
  split
  · exact Decoder.not_pends_readerCall _
  · rename_i hbtype
    split_ifs with harray
    · -- the number of elements is read, and so the elements have fewer bytes
      rw [Decoder.pends_bind, not_or]
      refine ⟨Decoder.not_pends_readerCall _, ?_⟩
      rintro ⟨size, rest, hsize, hpends⟩
      rw [Decoder.pends_bind_pure] at hpends
      have hlt := unpackSevenBits_length (Decoder.gives_readerCall.1 hsize)
      refine Decoder.mapM_not_pends (n := rest.length) (fun _ _ b v r hv => ?_) (fun _ _ b hb => ?_) le_rfl hpends
      · exact ((reads hcodecs fuel).variant _ b v r hv).1
      · exact hless rest.length (by omega) _ _ _ hb (hfuel _ (by omega))
    · rw [Decoder.pends_bind_pure]
      exact hobject ⟨hres, hbtype, by simpa using harray⟩

theorem field_not_pends (hcodecs : s.CodecsRead) (hnames : s.NamesEnd) (hless : ∀ m < n, s.Returns m)
    (hfuel : ∀ m < n, s.depthBound m ≤ fuel) (htargets : s.targets.length < fuel) {field : Field}
    (hbytes : bytes.length ≤ n)
    (hobject : ∀ rtype, s.AsObject field.type rtype → ¬ (s.unpackObjectCall fuel rtype).Pends bytes) :
    ¬ (s.unpackFieldCall (fuel + 1) field).Pends bytes := by
  rw [unpackFieldCall, Decoder.pends_fuelCall_bind, not_or]
  refine ⟨hnames.resolveType_ne_none (by omega), ?_⟩
  rintro ⟨r, hres, hpends⟩
  rw [Decoder.pends_bind_pure, unpackVariantCall_succ, Decoder.pends_fuelCall_bind] at hpends
  rcases hpends with hnone | ⟨rtype, hres', hpends⟩
  · exact hnames.resolveType_ne_none htargets hnone
  · refine resolved_not_pends hcodecs hless hfuel ⟨fuel, hres'⟩ hbytes (fun hobj => hobject rtype ?_) hpends
    exact (AsObject.resolved ⟨_, hres⟩).1 hobj

/-- By induction on the steps that are left to the left: the base and a field before which nothing was read
are a step on, and any other field has fewer bytes. -/
theorem object_not_pends (hcodecs : s.CodecsRead) (hnames : s.NamesEnd) (hless : ∀ m < n, s.Returns m)
    {steps : ℕ} (hwithin : Within s.Left steps type) (hbytes : bytes.length ≤ n)
    (hfuel : s.objectBound steps n ≤ fuel) : ¬ (s.unpackObjectCall fuel type).Pends bytes := by
  induction steps generalizing type bytes fuel with
  | zero => exact hwithin.elim
  | succ steps ih =>
    rw [objectBound_succ] at hfuel
    have htargets := targets_lt_objectBound (s := s) steps n
    obtain ⟨fuel, rfl⟩ : ∃ m, fuel = m + 2 := ⟨fuel - 2, by omega⟩
    have hdepth : ∀ m < n, s.depthBound m ≤ fuel := fun m hm => by
      have := depthBound_lt (s := s) hm steps
      omega
    rw [unpackObjectCall_succ, Decoder.pends_liftCall_bind, not_or]
    refine ⟨hnames.getStructCall_ne_none (by omega), ?_⟩
    rintro ⟨st, hrun, hpends⟩
    have hst : s.StructOf type st := ⟨_, getStructCall_eq_ok.1 hrun⟩
    rcases Decoder.pends_bind.1 hpends with hpends | ⟨base, c, hbase, hpends⟩
    · rw [unpackBaseCall] at hpends
      split_ifs at hpends with hne
      · rcases Decoder.pends_fuelCall_bind.1 hpends with hnone | ⟨base, hres, hpends⟩
        · exact hnames.resolveType_ne_none (by omega) hnone
        · exact ih (hwithin base (.base hst hne ⟨_, hres⟩)) hbytes (by omega) hpends
      · exact Decoder.not_pends_pure _ hpends
    · rw [Decoder.pends_bind_pure] at hpends
      have hreads := reads hcodecs (fuel + 1)
      obtain ⟨hle, hnullable⟩ := hreads.base hbase
      have hfewer : ∀ field ∈ st.fields, ∀ b : Bytes, b.length < n →
          ¬ (s.unpackFieldCall (fuel + 1) field).Pends b := by
        intro field _ b hb
        rw [unpackFieldCall, Decoder.pends_fuelCall_bind, not_or]
        refine ⟨hnames.resolveType_ne_none (by omega), ?_⟩
        rintro ⟨r, -, hpends⟩
        rw [Decoder.pends_bind_pure] at hpends
        exact hless b.length hb r _ b le_rfl ((hdepth _ hb).trans (Nat.le_succ _)) hpends
      by_cases hsame : c.length = bytes.length
      · refine Decoder.mapM_not_pends_left (P := fun field => s.TakesNothing field.type)
          (fun field _ b v r hv => hreads.field hv) (fun before field after hsplit hbefore b hb => ?_) hfewer
          (hle.trans hbytes) hpends
        refine field_not_pends hcodecs hnames hless hdepth (by omega) hb fun rtype hobject => ?_
        exact ih (hwithin rtype (.field hst (hnullable hsame) hsplit hbefore hobject)) hb (by omega)
      · refine Decoder.mapM_not_pends (n := c.length) (fun field _ b v r hv => (hreads.field hv).1)
          (fun field hfield b hb => hfewer field hfield b (by omega)) le_rfl hpends

/-- By induction on the number of bytes. -/
theorem returns (hcodecs : s.CodecsRead) (hnames : s.NamesEnd) (hleft : ¬ s.LeftRecursive) (n : ℕ) : s.Returns n := by
  induction n using Nat.strong_induction_on with
  | _ n ih =>
    intro type fuel bytes hbytes hfuel
    have htargets := targets_lt_objectBound (s := s) (s.places.length + 1) n
    rw [depthBound] at hfuel
    obtain ⟨fuel, rfl⟩ : ∃ m, fuel = m + 1 := ⟨fuel - 1, by omega⟩
    rw [unpackVariantCall_succ, Decoder.pends_fuelCall_bind, not_or]
    refine ⟨hnames.resolveType_ne_none (by omega), ?_⟩
    rintro ⟨rtype, hres, hpends⟩
    refine resolved_not_pends hcodecs ih (fun m hm => ?_) ⟨fuel, hres⟩ hbytes (fun hobject => ?_) hpends
    · have := depthBound_lt (s := s) hm (s.places.length + 1)
      omega
    · have hwithin : Within s.Left (s.places.length + 1) rtype :=
        within_of_not_meetsCycle (fun _ _ => mem_places_of_left)
          (fun hcycle => hleft ⟨type, rtype, hobject, hcycle⟩) (Nat.lt_succ_self _)
      exact object_not_pends hcodecs hnames ih hwithin hbytes (by omega)

end Returns

/-- With fuel for the ABI and for the length of the input, or more, the decoder returns or throws. -/
def Terminates (s : AbiSerializer) : Prop :=
  ∀ type (binary : Bytes) fuel, s.depthBound binary.length ≤ fuel →
    ((s.unpackVariantCall fuel type).run binary).run ≠ none

theorem namesEnd_of_loadAbi {codecs : TypeName → BuiltInCodec} {asBytes : Variant → Option Bytes} {abi : Abi}
    (h : (loadAbi codecs asBytes n abi).run = some (.ok s)) : s.NamesEnd := by
  obtain ⟨s', -, h⟩ := bind_returns.1 h
  obtain ⟨_, hvalidate, h⟩ := bind_returns.1 h
  cases h
  obtain ⟨_, htypedefs, -⟩ := bind_returns.1 hvalidate
  intro type
  refine within_names (fun hcycle => ?_) (Nat.lt_succ_self _)
  exact not_within_of_meetsCycle hcycle _ (within_of_typedefs_ok htypedefs type)

@[simp] theorem codecs_entered (tds : List TypeDef) : (s.entered tds).codecs = s.codecs := by
  induction tds generalizing s with
  | nil => rfl
  | cons td tds ih => exact ih

theorem codecs_of_loadAbi {codecs : TypeName → BuiltInCodec} {asBytes : Variant → Option Bytes} {abi : Abi}
    (h : (loadAbi codecs asBytes n abi).run = some (.ok s)) : s.codecs = codecs := by
  obtain ⟨s', hset, h⟩ := bind_returns.1 h
  obtain ⟨_, -, h⟩ := bind_returns.1 h
  cases h
  obtain ⟨-, rfl, -⟩ := setAbiCall_ok hset
  rw [codecs_entered]
  rfl

/-- Decoding with an ABI that was validated terminates just when no struct comes back to itself before a byte
is read, and else there is a type that is decoded for ever whatever the bytes are. -/
theorem decode_terminates_iff {codecs : TypeName → BuiltInCodec} {asBytes : Variant → Option Bytes} {abi : Abi}
    (hcodecs : ∀ type asArray bytes v rest, ((codecs type).unpack asArray).run bytes = some (v, rest) →
      rest.length < bytes.length)
    (hload : (loadAbi codecs asBytes n abi).run = some (.ok s)) :
    (s.Terminates ↔ ¬ s.LeftRecursive) ∧
      (s.LeftRecursive → ∃ type, ∀ fuel binary, ((s.unpackVariantCall fuel type).run binary).run = none) := by
  have hpends : s.LeftRecursive → ∃ type, ∀ fuel binary, ((s.unpackVariantCall fuel type).run binary).run = none := by
    rintro ⟨type, rtype, hobject, hcycle⟩
    exact ⟨type, variant_pends hobject hcycle⟩
  refine ⟨⟨fun hterminates hleft => ?_, fun hleft type binary fuel hfuel => ?_⟩, hpends⟩
  · obtain ⟨type, hnone⟩ := hpends hleft
    exact hterminates type [] _ le_rfl (hnone _ [])
  · refine returns ?_ (namesEnd_of_loadAbi hload) hleft binary.length type fuel binary le_rfl hfuel
    rw [CodecsRead, codecs_of_loadAbi hload]
    exact hcodecs

theorem sampleCodecs_read (type : TypeName) (asArray : Bool) (bytes : Bytes) (v : Variant) (rest : Bytes)
    (h : ((sampleCodecs type).unpack asArray).run bytes = some (v, rest)) : rest.length < bytes.length := by
  have hstring : ∀ {bytes rest str}, unpackString.run bytes = some (str, rest) → rest.length < bytes.length := by
    intro bytes rest str h
    obtain ⟨size, c, hsize, h⟩ := bind_run.1 h
    have hlt := unpackSevenBits_length hsize
    simp only [StateT.run] at h
    split_ifs at h
    cases h
    rw [List.length_drop]
    omega
  have hname : ∀ {b bytes rest v}, (sampleNameCodec.unpack b).run bytes = some (v, rest) →
      rest.length < bytes.length := by
    intro b bytes rest v h
    cases b
    · obtain ⟨str, c, hstr, h⟩ := bind_run.1 h
      cases h
      exact hstring hstr
    · cases h
  rw [sampleCodecs] at h
  split_ifs at h
  · cases asArray
    · obtain ⟨name, c, hn, h⟩ := bind_run.1 h
      obtain ⟨type, d, ht, h⟩ := bind_run.1 h
      cases h
      exact (hname ht).trans (hname hn)
    · cases h
  · exact hname h

/-- A node has a name, and then other nodes. -/
def treeOfNodes : List StructT := [makeStruct "node" "" [("name", "field_name"), ("next", "node[]")]]

theorem decode_tree_terminates :
    ∃ s, (loadAbi sampleCodecs (fun _ => none) 9 (structAbi treeOfNodes)).run = some (.ok s) ∧ s.Terminates := by
  have hload : (loadAbi sampleCodecs (fun _ => none) 9 (structAbi treeOfNodes)).run =
      some (.ok (structSerializer treeOfNodes)) := rfl
  refine ⟨_, hload, (decode_terminates_iff sampleCodecs_read hload).1.2 ?_⟩
  rintro ⟨_, type, -, hcycle⟩
  obtain ⟨next, hleft, -⟩ := hcycle.next
  have hstruct : ∀ {type st}, (structSerializer treeOfNodes).StructOf type st → treeOfNodes = [st] := by
    intro type st hst
    have hmem := Table.mem_rows_of_find? (structOf_structSerializer.1 hst)
    cases hmem with
    | head => rfl
    | tail _ hmem => cases hmem
  cases hleft with
  | base hst hbase =>
    cases hstruct hst
    exact hbase rfl
  | @field st before after field hst _ hfields _ hobject =>
    cases hstruct hst
    have hfield : field ∈ [_, _] := hfields ▸ List.mem_append_right _ List.mem_cons_self
    have hresolved := resolves_structSerializer.1 hobject.1
    simp only [List.mem_cons, List.not_mem_nil, or_false] at hfield
    rcases hfield with rfl | rfl
    · exact findBuiltIn_ne_none hobject.1 (by decide) hobject.2.1
    · refine absurd hobject.2.2 ?_
      rw [hresolved]
      decide

/-- A node has another node. -/
def nodeInItself : List StructT := [makeStruct "node" "" [("next", "node")]]

/-- The ABI is accepted, and a node is decoded for ever, also from no bytes. -/
theorem node_in_itself_decoded_for_ever :
    ∃ s, (loadAbi sampleCodecs (fun _ => none) 9 (structAbi nodeInItself)).run = some (.ok s) ∧
      ∀ fuel binary, ((s.unpackVariantCall fuel (.ofString "node")).run binary).run = none := by
  have hobject : (structSerializer nodeInItself).AsObject (.ofString "node") (.ofString "node") :=
    ⟨⟨1, by decide⟩, by decide, by decide⟩
  refine ⟨structSerializer nodeInItself, rfl, variant_pends hobject ⟨_, .refl, .single ?_⟩⟩
  exact .field ⟨1, rfl⟩ (fun _ h _ => absurd rfl h) (List.nil_append _).symm (fun _ h => by cases h) hobject

end AbiSerializer

end XmaxChain
