import XmaxChain.AbiLoad
import XmaxChain.AbiRoundTrip

/-!
# What decoding reads

The decoder with a throw told from a call that does not return. It goes from a struct to its base and to its
fields without a look at the bytes that are left, and a struct that is decoded without a byte being read has
nothing in it but such structs.
-/

namespace XmaxChain

open StreamReader Abi Fuel Paths Relation

abbrev Decoder (α : Type) := StateT Bytes (Fueled Unit) α

/-- A reader always returns or throws. -/
def readerCall {α : Type} (p : Reader ℕ α) : Decoder α := fun bytes =>
  match p.run bytes with
  | some r => pure r
  | none => throw ()

/-- A call that reads nothing. -/
def liftCall {α : Type} (c : Fueled Unit α) : Decoder α := StateT.lift c

def fuelCall {α : Type} (o : Option α) : Decoder α := liftCall (ExceptT.lift o)

namespace AbiSerializer

variable (s : AbiSerializer)

mutual

def unpackVariantCall : ℕ → TypeName → Decoder Variant
  | 0, _ => liftCall pending
  | fuel + 1, type => do
    let rtype ← fuelCall (s.resolveType fuel type)
    match s.findBuiltIn (arrayType rtype) with
    | some btype => readerCall (btype.unpack (isArray rtype))
    | none =>
      if isArray rtype then do
        let size ← readerCall unpackUnsignedInt
        let vars ← (List.replicate size ()).mapM fun _ => unpackVariantCall fuel (arrayType rtype)
        pure (.array vars)
      else do
        let obj ← unpackObjectCall fuel rtype
        pure (.object obj)

def unpackObjectCall : ℕ → TypeName → Decoder (List (Bytes × Variant))
  | 0, _ => liftCall pending
  | fuel + 1, type => do
    let st ← liftCall (s.getStructCall fuel type)
    let base ← (if st.base ≠ TypeName.empty then do
        unpackObjectCall fuel (← fuelCall (s.resolveType fuel st.base))
      else pure [])
    let own ← st.fields.mapM fun field => do
      let var ← unpackVariantCall fuel (← fuelCall (s.resolveType fuel field.type))
      pure (field.name.toBytes, var)
    pure (base ++ own)

end

/-- The body of `unpackVariantCall`, after the type is resolved. -/
def unpackResolvedCall (fuel : ℕ) (rtype : TypeName) : Decoder Variant :=
  match s.findBuiltIn (arrayType rtype) with
  | some btype => readerCall (btype.unpack (isArray rtype))
  | none =>
    if isArray rtype then do
      let size ← readerCall unpackUnsignedInt
      let vars ← (List.replicate size ()).mapM fun _ => s.unpackVariantCall fuel (arrayType rtype)
      pure (.array vars)
    else do
      let obj ← s.unpackObjectCall fuel rtype
      pure (.object obj)

def unpackBaseCall (fuel : ℕ) (st : StructT) : Decoder (List (Bytes × Variant)) :=
  if st.base ≠ TypeName.empty then fuelCall (s.resolveType fuel st.base) >>= s.unpackObjectCall fuel else pure []

def unpackFieldCall (fuel : ℕ) (field : Field) : Decoder (Bytes × Variant) := do
  let var ← s.unpackVariantCall fuel (← fuelCall (s.resolveType fuel field.type))
  pure (field.name.toBytes, var)

theorem unpackVariantCall_succ (fuel : ℕ) (type : TypeName) :
    s.unpackVariantCall (fuel + 1) type = fuelCall (s.resolveType fuel type) >>= s.unpackResolvedCall fuel := by
  rw [unpackVariantCall]
  rfl

theorem unpackObjectCall_succ (fuel : ℕ) (type : TypeName) :
    s.unpackObjectCall (fuel + 1) type = liftCall (s.getStructCall fuel type) >>= fun st =>
      s.unpackBaseCall fuel st >>= fun base =>
        st.fields.mapM (s.unpackFieldCall fuel) >>= fun own => pure (base ++ own) := by
  rw [unpackObjectCall]
  rfl

end AbiSerializer

/-! ## The same without the throws -/

section Agrees

variable {α β ι : Type}

/-- The reader gives the values that the decoder returns. -/
def Agrees (x : Decoder α) (p : Reader ℕ α) : Prop := ∀ bytes, result (x.run bytes) = p.run bytes

theorem Agrees.pure (a : α) : Agrees (Pure.pure a) (Pure.pure a) := fun _ => rfl

theorem Agrees.bind {x : Decoder α} {p : Reader ℕ α} {f : α → Decoder β} {g : α → Reader ℕ β} (hx : Agrees x p)
    (hf : ∀ a, Agrees (f a) (g a)) : Agrees (x >>= f) (p >>= g) := by
  intro bytes
  rw [StateT.run_bind, StateT.run_bind, result_bind, hx]
  congr 1
  funext r
  exact hf r.1 r.2

theorem Agrees.mapM {f : ι → Decoder α} {g : ι → Reader ℕ α} (h : ∀ i, Agrees (f i) (g i)) (is : List ι) :
    Agrees (is.mapM f) (is.mapM g) := by
  induction is with
  | nil => exact .pure _
  | cons i is ih =>
    rw [List.mapM_cons, List.mapM_cons]
    exact (h i).bind fun _ => ih.bind fun _ => .pure _

theorem Agrees.readerCall (p : Reader ℕ α) : Agrees (readerCall p) p := by
  intro bytes
  rw [StateT.run, XmaxChain.readerCall]
  rcases p.run bytes <;> rfl

theorem Agrees.fuelCall (o : Option α) : Agrees (fuelCall o) (StateT.lift o) := by
  intro bytes
  rcases o <;> rfl

theorem Agrees.liftCall (x : Fueled Unit α) : Agrees (liftCall x) (StateT.lift (result x)) := by
  intro bytes
  change Option (Except Unit α) at x
  rcases x with _ | _ | a <;> rfl

end Agrees

namespace AbiSerializer

variable {s : AbiSerializer}

theorem unpackCall_agrees (fuel : ℕ) :
    (∀ type, Agrees (s.unpackVariantCall fuel type) (s.unpackVariant fuel type)) ∧
      ∀ type, Agrees (s.unpackObjectCall fuel type) (s.unpackObject fuel type) := by
  induction fuel with
  | zero => exact ⟨fun type bytes => rfl, fun type bytes => rfl⟩
  | succ fuel ih =>
    obtain ⟨hvariant, hobject⟩ := ih
    constructor
    · intro type
      rw [unpackVariantCall_succ, unpackVariant_succ]
      refine (Agrees.fuelCall _).bind fun rtype => ?_
      rw [unpackResolvedCall, unpackResolved]
      rcases s.findBuiltIn (arrayType rtype) with _ | btype
      · simp only
        split_ifs
        · exact (Agrees.readerCall _).bind fun _ => (Agrees.mapM (fun _ => hvariant _) _).bind fun _ => .pure _
        · exact (hobject rtype).bind fun _ => .pure _
      · exact .readerCall _
    · intro type
      rw [unpackObjectCall_succ, unpackObject_succ]
      rw [← result_getStructCall]
      refine (Agrees.liftCall _).bind fun st => ?_
      refine Agrees.bind ?_ fun base => (Agrees.mapM (fun field => ?_) _).bind fun _ => .pure _
      · rw [unpackBaseCall]
        split_ifs
        · exact (Agrees.fuelCall _).bind fun _ => hobject _
        · exact .pure _
      · exact (Agrees.fuelCall _).bind fun _ => (hvariant _).bind fun _ => .pure _

end AbiSerializer

/-! ## What a decoder does with bytes -/

namespace Decoder

variable {α β : Type}

/-- It has not returned yet. -/
def Pends (x : Decoder α) (bytes : Bytes) : Prop := (x.run bytes).run = none

def Gives (x : Decoder α) (bytes : Bytes) (a : α) (rest : Bytes) : Prop := (x.run bytes).run = some (.ok (a, rest))

variable {x : Decoder α} {f : α → Decoder β} {bytes rest : Bytes}

theorem pends_bind : (x >>= f).Pends bytes ↔ x.Pends bytes ∨ ∃ a b, x.Gives bytes a b ∧ (f a).Pends b := by
  rw [Pends, StateT.run_bind, bind_pends, Prod.exists]
  rfl

theorem gives_bind {b : β} : (x >>= f).Gives bytes b rest ↔ ∃ a c, x.Gives bytes a c ∧ (f a).Gives c b rest := by
  rw [Gives, StateT.run_bind, bind_returns, Prod.exists]
  rfl

theorem not_pends_pure (a : α) : ¬ (pure a : Decoder α).Pends bytes := nofun

theorem gives_pure {a b : α} : (pure a : Decoder α).Gives bytes b rest ↔ b = a ∧ rest = bytes := by
  change some (Except.ok (a, bytes)) = some (.ok (b, rest)) ↔ _
  simp [eq_comm]

theorem pends_liftCall {c : Fueled Unit α} : (liftCall c).Pends bytes ↔ c.run = none := by
  change Option (Except Unit α) at c
  rcases c with _ | _ | a <;> constructor <;> intro h <;> first | rfl | cases h

theorem gives_liftCall {c : Fueled Unit α} {a : α} :
    (liftCall c).Gives bytes a rest ↔ c.run = some (.ok a) ∧ rest = bytes := by
  change Option (Except Unit α) at c
  rcases c with _ | _ | b
  · exact ⟨fun h => (by cases h), fun h => (by cases h.1)⟩
  · exact ⟨fun h => (by cases h), fun h => (by cases h.1)⟩
  · change some (Except.ok (b, bytes)) = some (.ok (a, rest)) ↔ some (Except.ok b) = some (.ok a) ∧ _
    simp [eq_comm]

/-- What is called reads nothing, so the rest goes on with the same bytes. -/
theorem pends_liftCall_bind {c : Fueled Unit α} :
    (liftCall c >>= f).Pends bytes ↔ c.run = none ∨ ∃ a, c.run = some (.ok a) ∧ (f a).Pends bytes := by
  simp only [pends_bind, pends_liftCall, gives_liftCall, and_assoc, exists_eq_left, exists_and_left]

theorem gives_liftCall_bind {c : Fueled Unit α} {b : β} :
    (liftCall c >>= f).Gives bytes b rest ↔ ∃ a, c.run = some (.ok a) ∧ (f a).Gives bytes b rest := by
  simp only [gives_bind, gives_liftCall, and_assoc, exists_eq_left, exists_and_left]

theorem pends_fuelCall_bind {o : Option α} :
    (fuelCall o >>= f).Pends bytes ↔ o = none ∨ ∃ a, o = some a ∧ (f a).Pends bytes := by
  simp only [fuelCall, pends_liftCall_bind, lift_eq_none, lift_eq_ok]

theorem gives_fuelCall_bind {o : Option α} {b : β} :
    (fuelCall o >>= f).Gives bytes b rest ↔ ∃ a, o = some a ∧ (f a).Gives bytes b rest := by
  simp only [fuelCall, gives_liftCall_bind, lift_eq_ok]

theorem pends_bind_pure {g : α → β} : (x >>= fun a => pure (g a)).Pends bytes ↔ x.Pends bytes := by
  simp only [pends_bind, not_pends_pure, and_false, exists_false, or_false]

theorem gives_bind_pure {g : α → β} {b : β} :
    (x >>= fun a => pure (g a)).Gives bytes b rest ↔ ∃ a, x.Gives bytes a rest ∧ b = g a := by
  simp only [gives_bind, gives_pure]
  exact ⟨fun ⟨a, _, ha, hb, hrest⟩ => ⟨a, hrest ▸ ha, hb⟩, fun ⟨a, ha, hb⟩ => ⟨a, rest, ha, hb, rfl⟩⟩

theorem not_pends_readerCall (p : Reader ℕ α) : ¬ (readerCall p).Pends bytes := by
  rw [Pends, StateT.run, readerCall]
  rcases p.run bytes
  · exact nofun
  · exact nofun

theorem gives_readerCall {p : Reader ℕ α} {a : α} :
    (readerCall p).Gives bytes a rest ↔ p.run bytes = some (a, rest) := by
  rw [Gives, StateT.run, readerCall]
  rcases p.run bytes with _ | r
  · exact ⟨nofun, nofun⟩
  · change some (Except.ok r) = some (.ok (a, rest)) ↔ _
    simp

end Decoder

namespace AbiSerializer

variable (s : AbiSerializer)

/-- Of the structs that are decoded without a byte being read: their bases are so, and so are their fields. -/
inductive Nullable : TypeName → Prop
  | intro {type : TypeName} {st : StructT} (hst : s.StructOf type st)
      (hbase : ∀ base, st.base ≠ TypeName.empty → s.Resolves st.base base → Nullable base)
      (hfields : ∀ field ∈ st.fields, ∃ rtype, s.AsObject field.type rtype)
      (hnullable : ∀ field ∈ st.fields, ∀ rtype, s.AsObject field.type rtype → Nullable rtype) : Nullable type

/-- A value of this type takes no bytes. -/
def TakesNothing (type : TypeName) : Prop := ∃ rtype, s.AsObject type rtype ∧ s.Nullable rtype

/-- What the decoder goes on to from a struct when it has read nothing yet: its base, and a field before
which nothing is read. -/
inductive Left : TypeName → TypeName → Prop
  | base {type base : TypeName} {st : StructT} (hst : s.StructOf type st) (hbase : st.base ≠ TypeName.empty)
      (hres : s.Resolves st.base base) : Left type base
  | field {type rtype : TypeName} {st : StructT} {before after : List Field} {field : Field}
      (hst : s.StructOf type st)
      (hbase : ∀ base, st.base ≠ TypeName.empty → s.Resolves st.base base → s.Nullable base)
      (hfields : st.fields = before ++ field :: after) (hbefore : ∀ f ∈ before, s.TakesNothing f.type)
      (hobject : s.AsObject field.type rtype) : Left type rtype

/-- A struct that can be named comes to itself with nothing read. -/
def LeftRecursive : Prop := ∃ type rtype, s.AsObject type rtype ∧ MeetsCycle s.Left rtype

/-- Every built-in type takes a byte. -/
def CodecsRead : Prop :=
  ∀ type asArray bytes v rest, ((s.codecs type).unpack asArray).run bytes = some (v, rest) →
    rest.length < bytes.length

/-! ## What is read -/

section Reads

variable {s} {n : ℕ} {α ι : Type}

theorem mapM_reads {f : ι → Decoder α} {P : ι → Prop} {is : List ι}
    (h : ∀ i ∈ is, ∀ bytes a rest, (f i).Gives bytes a rest →
      rest.length ≤ bytes.length ∧ (rest.length = bytes.length → P i))
    {bytes rest : Bytes} {as : List α} (hgives : Decoder.Gives (is.mapM f) bytes as rest) :
    rest.length ≤ bytes.length ∧ (rest.length = bytes.length → ∀ i ∈ is, P i) := by
  induction is generalizing bytes as with
  | nil =>
    obtain ⟨-, rfl⟩ := Decoder.gives_pure.1 hgives
    exact ⟨le_rfl, fun _ _ hi => by cases hi⟩
  | cons i is ih =>
    rw [List.mapM_cons] at hgives
    obtain ⟨a, b, ha, hgives⟩ := Decoder.gives_bind.1 hgives
    obtain ⟨as', c, has, hgives⟩ := Decoder.gives_bind.1 hgives
    obtain ⟨-, rfl⟩ := Decoder.gives_pure.1 hgives
    obtain ⟨hle, heq⟩ := h i List.mem_cons_self bytes a b ha
    obtain ⟨hle', heq'⟩ := ih (fun j hj => h j (List.mem_cons_of_mem i hj)) has
    refine ⟨hle'.trans hle, fun hsame => List.forall_mem_cons.2 ⟨heq (by omega), heq' (by omega)⟩⟩

theorem AsObject.unique {type rtype rtype' : TypeName} (h : s.AsObject type rtype) (h' : s.AsObject type rtype') :
    rtype' = rtype := h.1.unique h'.1

/-- A resolved field is decoded as the type that the field has. -/
theorem AsObject.resolved {type r rtype : TypeName} (hres : s.Resolves type r) :
    s.AsObject r rtype ↔ s.AsObject type rtype := by
  have hiff : s.Resolves r rtype ↔ s.Resolves type rtype := by
    constructor
    · intro h
      rwa [hres.again.unique h]
    · intro h
      rw [hres.unique h]
      exact hres.again
  rw [AsObject, AsObject, hiff]

theorem TakesNothing.resolved {type r : TypeName} (hres : s.Resolves type r) :
    s.TakesNothing r ↔ s.TakesNothing type := by
  simp only [TakesNothing, AsObject.resolved hres]

theorem getStructCall_eq_ok {type : TypeName} {st : StructT} :
    (s.getStructCall n type).run = some (.ok st) ↔ s.getStruct n type = some st := by
  rw [← result_getStructCall, result_eq_some]

/-- The base and the fields of a struct in which nothing is read. -/
theorem Nullable.of_parts {type : TypeName} {st : StructT} (hst : s.StructOf type st)
    (hbase : ∀ base, st.base ≠ TypeName.empty → s.Resolves st.base base → s.Nullable base)
    (hfields : ∀ field ∈ st.fields, s.TakesNothing field.type) : s.Nullable type := by
  refine .intro hst hbase (fun field hfield => ?_) fun field hfield rtype hobject => ?_
  · obtain ⟨rtype, hobject, -⟩ := hfields field hfield
    exact ⟨rtype, hobject⟩
  · obtain ⟨rtype', hobject', hnullable⟩ := hfields field hfield
    rwa [hobject'.unique hobject]

/-- What decoding with this fuel leaves of the bytes. -/
structure Reads (s : AbiSerializer) (n : ℕ) : Prop where
  variant : ∀ type bytes v rest, (s.unpackVariantCall n type).Gives bytes v rest →
    rest.length ≤ bytes.length ∧ (rest.length = bytes.length → s.TakesNothing type)
  object : ∀ type bytes obj rest, (s.unpackObjectCall n type).Gives bytes obj rest →
    rest.length ≤ bytes.length ∧ (rest.length = bytes.length → s.Nullable type)

variable {bytes rest : Bytes}

theorem Reads.base (h : s.Reads n) {st : StructT} {base : List (Bytes × Variant)}
    (hgives : (s.unpackBaseCall n st).Gives bytes base rest) :
    rest.length ≤ bytes.length ∧ (rest.length = bytes.length →
      ∀ base, st.base ≠ TypeName.empty → s.Resolves st.base base → s.Nullable base) := by
  rw [unpackBaseCall] at hgives
  split_ifs at hgives with hne
  · obtain ⟨r, hres, hgives⟩ := Decoder.gives_fuelCall_bind.1 hgives
    obtain ⟨hle, hnullable⟩ := h.object _ _ _ _ hgives
    refine ⟨hle, fun hsame base' _ hres' => ?_⟩
    rw [Resolves.unique ⟨n, hres⟩ hres']
    exact hnullable hsame
  · obtain ⟨-, rfl⟩ := Decoder.gives_pure.1 hgives
    exact ⟨le_rfl, fun _ _ hne' => absurd hne' hne⟩

theorem Reads.field (h : s.Reads n) {field : Field} {var : Bytes × Variant}
    (hgives : (s.unpackFieldCall n field).Gives bytes var rest) :
    rest.length ≤ bytes.length ∧ (rest.length = bytes.length → s.TakesNothing field.type) := by
  obtain ⟨r, hres, hgives⟩ := Decoder.gives_fuelCall_bind.1 hgives
  obtain ⟨v, hv, -⟩ := Decoder.gives_bind_pure.1 hgives
  rw [← TakesNothing.resolved ⟨n, hres⟩]
  exact h.variant _ _ _ _ hv

theorem Reads.resolved (h : s.Reads n) (hcodecs : s.CodecsRead) {type rtype : TypeName} {v : Variant}
    (hres : s.Resolves type rtype) (hgives : (s.unpackResolvedCall n rtype).Gives bytes v rest) :
    rest.length ≤ bytes.length ∧ (rest.length = bytes.length → s.TakesNothing type) := by
  unfold unpackResolvedCall at hgives
  split at hgives
  · rename_i btype hbtype
    rw [findBuiltIn] at hbtype
    split_ifs at hbtype
    cases hbtype
    have hlt := hcodecs _ _ _ _ _ (Decoder.gives_readerCall.1 hgives)
    exact ⟨hlt.le, fun hsame => absurd hsame hlt.ne⟩
  · rename_i hbtype
    split_ifs at hgives with harray
    · obtain ⟨size, c, hsize, hgives⟩ := Decoder.gives_bind.1 hgives
      obtain ⟨vars, hvars, -⟩ := Decoder.gives_bind_pure.1 hgives
      have hlt := unpackSevenBits_length (Decoder.gives_readerCall.1 hsize)
      obtain ⟨hle, -⟩ := mapM_reads (P := fun _ => True)
        (fun _ _ b v r hv => ⟨(h.variant _ b v r hv).1, fun _ => trivial⟩) hvars
      exact ⟨by omega, fun _ => by omega⟩
    · obtain ⟨obj, hobj, -⟩ := Decoder.gives_bind_pure.1 hgives
      obtain ⟨hle, hnullable⟩ := h.object rtype bytes obj rest hobj
      exact ⟨hle, fun hsame => ⟨rtype, ⟨hres, hbtype, by simpa using harray⟩, hnullable hsame⟩⟩

/-- Decoding does not put bytes back, and where it takes none there was nothing to read. -/
theorem reads (hcodecs : s.CodecsRead) (n : ℕ) : s.Reads n := by
  induction n with
  | zero => exact ⟨fun _ _ _ _ h => (by cases h), fun _ _ _ _ h => (by cases h)⟩
  | succ n ih =>
    constructor
    · intro type bytes v rest h
      rw [unpackVariantCall_succ] at h
      obtain ⟨rtype, hres, h⟩ := Decoder.gives_fuelCall_bind.1 h
      exact ih.resolved hcodecs ⟨n, hres⟩ h
    · intro type bytes obj rest h
      rw [unpackObjectCall_succ] at h
      obtain ⟨st, hst, h⟩ := Decoder.gives_liftCall_bind.1 h
      obtain ⟨base, c, hbase, h⟩ := Decoder.gives_bind.1 h
      obtain ⟨own, hown, -⟩ := Decoder.gives_bind_pure.1 h
      obtain ⟨hle, hnullable⟩ := ih.base hbase
      obtain ⟨hle', hfields⟩ := mapM_reads (P := fun field => s.TakesNothing field.type)
        (fun field _ b v r hv => ih.field hv) hown
      refine ⟨hle'.trans hle, fun hsame => ?_⟩
      exact .of_parts ⟨n, getStructCall_eq_ok.1 hst⟩ (hnullable (by omega)) (hfields (by omega))

end Reads

end AbiSerializer

end XmaxChain
