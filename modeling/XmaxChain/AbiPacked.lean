import XmaxChain.AbiRoundTrip

/-!
# Unpacking bytes and packing them again

The bytes of a type that packing gives: every number of elements in its shortest form, and every value of a
built-in type as its library packs one. What is unpacked from other bytes is not packed to them again.
-/

namespace XmaxChain

open StreamReader Abi Relation

theorem u32_lt_of_unpackSevenBits {shift v n : ℕ} {bytes rest : Bytes}
    (h : unpackSevenBits shift v bytes = some (n, rest)) : n < 2 ^ 32 := by
  induction bytes generalizing shift v with
  | nil => cases h
  | cons b bytes ih =>
    rw [unpackSevenBits] at h
    split_ifs at h
    · cases h
      exact u32_lt _
    · exact ih h

theorem lookup_eq_some_of_nodup {α : Type} {l : List (Bytes × α)} (hnodup : (l.map Prod.fst).Nodup)
    {key : Bytes} {v : α} (h : (key, v) ∈ l) : l.lookup key = some v := by
  induction l with
  | nil => cases h
  | cons e l ih =>
    obtain ⟨hnotMem, hnodup⟩ := List.nodup_cons.1 hnodup
    rcases List.mem_cons.1 h with rfl | h
    · simp
    · have hne : key ≠ e.1 := fun heq => hnotMem (heq ▸ List.mem_map_of_mem h)
      rw [List.lookup_cons, beq_false_of_ne hne]
      exact ih hnodup h

theorem exists_pairs {α β : Type} {P : α → β → Prop} {xs : List α} (h : ∀ x ∈ xs, ∃ y, P x y) :
    ∃ ps : List (α × β), ps.map Prod.fst = xs ∧ ∀ p ∈ ps, P p.1 p.2 := by
  induction xs with
  | nil => exact ⟨[], rfl, by simp⟩
  | cons x xs ih =>
    obtain ⟨⟨y, hy⟩, hxs⟩ := List.forall_mem_cons.1 h
    obtain ⟨ps, rfl, hps⟩ := ih hxs
    exact ⟨(x, y) :: ps, rfl, List.forall_mem_cons.2 ⟨hy, hps⟩⟩

theorem exists_common_fuel {α : Type} {P : ℕ → α → Prop} (hmono : ∀ {m n x}, m ≤ n → P m x → P n x)
    {xs : List α} (h : ∀ x ∈ xs, ∃ n, P n x) : ∃ n, ∀ x ∈ xs, P n x := by
  induction xs with
  | nil => exact ⟨0, by simp⟩
  | cons x xs ih =>
    obtain ⟨⟨m, hm⟩, hxs⟩ := List.forall_mem_cons.1 h
    obtain ⟨n, hn⟩ := ih hxs
    exact ⟨max m n, List.forall_mem_cons.2 ⟨hmono (le_max_left m n) hm,
      fun x hx => hmono (le_max_right m n) (hn x hx)⟩⟩

theorem mapM_of_pairs {α β : Type} {f : α → Option β} (ps : List (α × β)) (h : ∀ p ∈ ps, f p.1 = some p.2) :
    (ps.map Prod.fst).mapM f = some (ps.map Prod.snd) := by
  induction ps with
  | nil => rfl
  | cons p ps ih =>
    obtain ⟨hp, hps⟩ := List.forall_mem_cons.1 h
    rw [List.map_cons, List.mapM_cons, hp, ih hps]
    rfl

theorem mapM_mono {α β : Type} {f g : α → Option β} (h : ∀ x y, f x = some y → g x = some y) {xs : List α}
    {ys : List β} (hf : xs.mapM f = some ys) : xs.mapM g = some ys := by
  obtain ⟨ps, rfl, rfl, hps⟩ := AbiSerializer.mapM_eq_some hf
  exact mapM_of_pairs _ fun p hp => h _ _ (hps p hp)

namespace AbiSerializer

variable (s : AbiSerializer)

/-- What a type packs to. -/
inductive Packed : TypeName → Bytes → Prop
  | builtIn {type rtype : TypeName} {btype : BuiltInCodec} {var : Variant} {bytes : Bytes} :
      s.Resolves type rtype → s.findBuiltIn (arrayType rtype) = some btype →
      btype.pack var (isArray rtype) = some bytes → Packed type bytes
  | array {type rtype : TypeName} {items : List Bytes} :
      s.AsArray type rtype → items.length < 2 ^ 32 → (∀ item ∈ items, Packed (arrayType rtype) item) →
      Packed type (packUnsignedInt items.length ++ items.flatten)
  | object {type rtype : TypeName} {ps : List (Field × Bytes)} :
      s.AsObject type rtype → s.FieldsOf rtype (ps.map Prod.fst) → (∀ p ∈ ps, Packed p.1.type p.2) →
      Packed type (ps.flatMap Prod.snd)

/-- The types of the elements of an array and of the fields of a struct. -/
inductive Contains : TypeName → TypeName → Prop
  | element {type rtype : TypeName} : s.AsArray type rtype → Contains type (arrayType rtype)
  | field {type rtype : TypeName} {fields : List Field} {field : Field} :
      s.AsObject type rtype → s.FieldsOf rtype fields → field ∈ fields → Contains type field.type

/-- The bases of a struct are structs for the encoder too, and the names of its fields are C strings, no two
of them the same. -/
def PlainType (type : TypeName) : Prop :=
  ∀ rtype, s.AsObject type rtype → (∀ base, TransGen s.HasBase rtype base → s.AsObject base base) ∧
    ∀ fields, s.FieldsOf rtype fields → (∀ field ∈ fields, 0 ∉ field.name.toBytes) ∧
      (fields.map (·.name.toBytes)).Nodup

def PlainWithin (type : TypeName) : Prop := ∀ t, ReflTransGen s.Contains type t → s.PlainType t

/-- What the library of a built-in type packs into the buffer it unpacks, and packs to the same bytes
again. -/
def LosslessCodecs (codecs : TypeName → BuiltInCodec) : Prop :=
  ∀ type var asArray bytes, (codecs type).pack var asArray = some bytes → bytes.length ≤ 1024 * 1024 →
    ∃ w, (codecs type).pack w asArray = some bytes ∧
      ∀ rest, ((codecs type).unpack asArray).run (bytes ++ rest) = some (w, rest)

def Packs (type : TypeName) (var : Variant) (bytes : Bytes) : Prop :=
  ∃ fuel, s.packVariant fuel type var = some bytes

variable {s} {type rtype : TypeName} {var : Variant} {bytes : Bytes}

theorem PlainWithin.of_contains {t : TypeName} (h : s.PlainWithin type) (ht : s.Contains type t) :
    s.PlainWithin t := fun t' ht' => h t' (.head ht ht')

theorem PlainWithin.noBuiltInBase (h : s.PlainWithin type) (hobject : s.AsObject type rtype) :
    s.NoBuiltInBase rtype := fun base hbase => ((h type .refl rtype hobject).1 base hbase).2.1

theorem PlainWithin.fieldNames (h : s.PlainWithin type) (hobject : s.AsObject type rtype) {fields : List Field}
    (hfields : s.FieldsOf rtype fields) :
    (∀ field ∈ fields, cString field.name.toBytes = field.name.toBytes) ∧
      (fields.map (·.name.toBytes)).Nodup := by
  obtain ⟨hzero, hnodup⟩ := (h type .refl rtype hobject).2 fields hfields
  exact ⟨fun field hfield => cString_of_notMem (hzero field hfield), hnodup⟩

/-! ## What packs -/

section Packs

theorem packVariant_mono {m n : ℕ} (hmn : m ≤ n) (h : s.packVariant m type var = some bytes) :
    s.packVariant n type var = some bytes := by
  induction m generalizing n type var bytes with
  | zero => cases h
  | succ m ih =>
    obtain ⟨n, rfl⟩ : ∃ k, n = k + 1 := ⟨n - 1, by omega⟩
    have hle : m ≤ n := by omega
    rw [packVariant] at h ⊢
    obtain ⟨r, hr, h⟩ := Option.bind_eq_some_iff.1 h
    refine Option.bind_eq_some_iff.2 ⟨r, resolveType_mono hle hr, ?_⟩
    rcases hb : s.findBuiltIn (arrayType r) with _ | btype <;> simp only [hb] at h ⊢
    · split_ifs at h ⊢ with harr
      · simp only [Option.bind_eq_bind, Option.bind_eq_some_iff] at h ⊢
        obtain ⟨vars, hvars, items, hitems, hbytes⟩ := h
        exact ⟨vars, hvars, items, mapM_mono (fun _ _ => ih hle) hitems, hbytes⟩
      · simp only [Option.bind_eq_bind, Option.bind_eq_some_iff] at h ⊢
        obtain ⟨st, hst, vo, hvo, base, hbase, items, hitems, hbytes⟩ := h
        refine ⟨st, getStruct_mono hle hst, vo, hvo, base, ?_, items, mapM_mono (fun field y hy => ?_) hitems,
          hbytes⟩
        · split_ifs at hbase ⊢
          · obtain ⟨b, hb, hbase⟩ := Option.bind_eq_some_iff.1 hbase
            exact Option.bind_eq_some_iff.2 ⟨b, resolveType_mono hle hb, ih hle hbase⟩
          · exact hbase
        · obtain ⟨x, hx, hy⟩ := Option.bind_eq_some_iff.1 hy
          exact Option.bind_eq_some_iff.2 ⟨x, hx, ih hle hy⟩
    · exact h

theorem packs_builtIn {btype : BuiltInCodec} (h : s.Resolves type rtype)
    (hb : s.findBuiltIn (arrayType rtype) = some btype) (hpack : btype.pack var (isArray rtype) = some bytes) :
    s.Packs type var bytes := by
  obtain ⟨n, hn⟩ := h
  exact ⟨n + 1, (packVariant_builtIn hn hb).trans hpack⟩

theorem packs_array (h : s.AsArray type rtype) (ps : List (Variant × Bytes))
    (hps : ∀ p ∈ ps, s.Packs (arrayType rtype) p.1 p.2) :
    s.Packs type (.array (ps.map Prod.fst)) (packUnsignedInt ps.length ++ (ps.map Prod.snd).flatten) := by
  obtain ⟨m, hm⟩ := exists_common_fuel (P := fun n (p : Variant × Bytes) =>
    s.packVariant n (arrayType rtype) p.1 = some p.2) (fun hmn => packVariant_mono hmn) hps
  obtain ⟨n, hn⟩ := h.1
  have hitems : (ps.map Prod.fst).mapM (s.packVariant (max m n) (arrayType rtype)) = some (ps.map Prod.snd) :=
    mapM_of_pairs _ fun p hp => packVariant_mono (le_max_left m n) (hm p hp)
  refine ⟨max m n + 1, ?_⟩
  rw [packVariant_array (resolveType_mono (le_max_right m n) hn) h.2.1 h.2.2]
  simp only [Variant.getArray, Option.bind_some, hitems, List.length_map]

/-- The own fields of a struct after its base. -/
theorem packs_struct (h : s.AsObject type rtype) {st : StructT} (hst : s.StructOf rtype st)
    {vo : List (Bytes × Variant)} (base : Bytes)
    (hbase : if st.base = TypeName.empty then base = [] else
      ∃ b, s.Resolves st.base b ∧ s.Packs b (.object vo) base)
    {own : List (Field × Variant × Bytes)} (hown : own.map Prod.fst = st.fields)
    (hps : ∀ p ∈ own, vo.lookup (cString p.1.name.toBytes) = some p.2.1 ∧ s.Packs p.1.type p.2.1 p.2.2) :
    s.Packs type (.object vo) (base ++ own.flatMap (·.2.2)) := by
  obtain ⟨m, hm⟩ := exists_common_fuel (P := fun n (p : Field × Variant × Bytes) =>
    s.packVariant n p.1.type p.2.1 = some p.2.2) (fun hmn => packVariant_mono hmn) fun p hp => (hps p hp).2
  obtain ⟨k, hk⟩ := h.1
  obtain ⟨l, hl⟩ := hst
  have hbase' : ∃ n, ∀ fuel ≥ n, (if st.base ≠ TypeName.empty then do
      s.packVariant fuel (← s.resolveType fuel st.base) (.object vo)
      else pure []) = some base := by
    split_ifs at hbase with hempty
    · exact ⟨0, fun fuel _ => by rw [if_neg (not_not.2 hempty), hbase]; rfl⟩
    · obtain ⟨b, ⟨i, hi⟩, j, hj⟩ := hbase
      refine ⟨max i j, fun fuel hfuel => ?_⟩
      rw [if_pos hempty]
      exact Option.bind_eq_some_iff.2 ⟨b, resolveType_mono (by omega) hi, packVariant_mono (by omega) hj⟩
  obtain ⟨n, hn⟩ := hbase'
  let fuel := max (max m n) (max k l)
  have hitems : st.fields.mapM (fun field : Field => do
      s.packVariant fuel field.type (← vo.lookup (cString field.name.toBytes))) =
        some (own.map (·.2.2)) := by
    have h := mapM_of_pairs (f := fun field : Field => do
      s.packVariant fuel field.type (← vo.lookup (cString field.name.toBytes)))
      (own.map fun p => (p.1, p.2.2)) (List.forall_mem_map.2 fun p hp =>
        Option.bind_eq_some_iff.2 ⟨p.2.1, (hps p hp).1, packVariant_mono (by omega) (hm p hp)⟩)
    rw [List.map_map, List.map_map] at h
    rw [← hown]
    exact h
  refine ⟨fuel + 1, ?_⟩
  rw [packVariant_object (resolveType_mono (by omega) hk) h.2.1 h.2.2]
  refine Option.bind_eq_some_iff.2 ⟨st, getStruct_mono (by omega) hl, ?_⟩
  refine Option.bind_eq_some_iff.2 ⟨vo, rfl, Option.bind_eq_some_iff.2 ⟨base, hn fuel (by omega), ?_⟩⟩
  rw [hitems, List.flatMap_def]
  rfl

theorem packs_object (h : s.AsObject type rtype)
    (hbases : ∀ base, TransGen s.HasBase rtype base → s.AsObject base base) {vo : List (Bytes × Variant)}
    {ps : List (Field × Variant × Bytes)} (hfields : s.FieldsOf rtype (ps.map Prod.fst))
    (hps : ∀ p ∈ ps, vo.lookup (cString p.1.name.toBytes) = some p.2.1 ∧ s.Packs p.1.type p.2.1 p.2.2) :
    s.Packs type (.object vo) (ps.flatMap (·.2.2)) := by
  generalize hall : ps.map Prod.fst = fields at hfields
  induction hfields generalizing type ps with
  | root hst hempty =>
    exact packs_struct h hst [] (by rw [if_pos hempty]) hall hps
  | @derived rtype base st fields hst hempty hres _ ih =>
    obtain ⟨inherited, own, rfl, hinherited, hown⟩ := List.map_eq_append_iff.1 hall
    have hhas : s.HasBase rtype base := ⟨st, hst, hempty, hres⟩
    have hbase := ih (hbases base (.single hhas)) (fun b hb => hbases b (.head hhas hb))
      (fun p hp => hps p (List.mem_append_left _ hp)) hinherited
    rw [List.flatMap_append]
    exact packs_struct h hst _ (by rw [if_neg hempty]; exact ⟨base, hres, hbase⟩) hown
      fun p hp => hps p (List.mem_append_right _ hp)

end Packs

/-! ## Packing again -/

section Again

theorem run_unpacks (parts : List (TypeName × Variant × Bytes))
    (h : ∀ p ∈ parts, ∀ rest, s.Unpacks p.1 (p.2.2 ++ rest) p.2.1 rest) (rest : Bytes) :
    Run s.Unpacks (parts.map Prod.fst) (parts.flatMap (·.2.2) ++ rest) (parts.map (·.2.1)) rest := by
  induction parts with
  | nil => exact .nil _
  | cons p parts ih =>
    obtain ⟨hp, hparts⟩ := List.forall_mem_cons.1 h
    rw [List.flatMap_cons, List.append_assoc]
    exact .cons (hp _) (ih hparts)

/-- What was packed is unpacked to something that packs to the same bytes. -/
theorem Packed.unpacks (h : s.Packed type bytes) (hplain : s.PlainWithin type)
    (hcodecs : LosslessCodecs s.codecs) (hsize : bytes.length ≤ 1024 * 1024) :
    ∃ w, s.Packs type w bytes ∧ ∀ rest, s.Unpacks type (bytes ++ rest) w rest := by
  induction h with
  | @builtIn type rtype btype var bytes hres hb hpack =>
    have hcodec : btype = s.codecs (arrayType rtype) := by
      have hb' := hb
      rw [findBuiltIn] at hb'
      split_ifs at hb'
      exact (Option.some.inj hb').symm
    rw [hcodec] at hpack
    obtain ⟨w, hw, hunpack⟩ := hcodecs _ _ _ _ hpack hsize
    rw [← hcodec] at hw hunpack
    exact ⟨w, packs_builtIn hres hb hw, fun rest => (unpacks_builtIn hres hb).2 (hunpack rest)⟩
  | @array type rtype items harray hlen _ ih =>
    have hitems : ∀ item ∈ items, ∃ w, s.Packs (arrayType rtype) w item ∧
        ∀ rest, s.Unpacks (arrayType rtype) (item ++ rest) w rest := fun item hitem => by
      have hle : item.length ≤ items.flatten.length := by
        rw [List.length_flatten]
        exact List.single_le_sum (by simp) _ (List.mem_map_of_mem hitem)
      rw [List.length_append] at hsize
      exact ih item hitem (hplain.of_contains (.element harray)) (by omega)
    obtain ⟨ps, rfl, hps⟩ := exists_pairs hitems
    have hpacks := packs_array harray (ps.map Prod.swap) (List.forall_mem_map.2 fun p hp => (hps p hp).1)
    have hfst : (ps.map Prod.swap).map Prod.fst = ps.map Prod.snd := by simp
    have hsnd : (ps.map Prod.swap).map Prod.snd = ps.map Prod.fst := by simp
    rw [hfst, hsnd, List.length_map] at hpacks
    rw [List.length_map] at hlen ⊢
    refine ⟨_, hpacks, fun rest => ?_⟩
    rw [List.append_assoc]
    refine (unpacks_array harray).2 ⟨u32 ps.length, _, _, unpackUnsignedInt_pack _ _, ?_, rfl⟩
    have hrun := run_unpacks (ps.map fun p => (arrayType rtype, p.2, p.1))
      (List.forall_mem_map.2 fun p hp => (hps p hp).2) rest
    have htypes : (ps.map fun p => (arrayType rtype, p.2, p.1)).map Prod.fst =
        (List.replicate ps.length ()).map fun _ => arrayType rtype := by simp [Function.comp_def]
    rw [htypes, Run.map_iff, List.flatMap_map, List.map_map] at hrun
    rw [u32_of_lt hlen, ← List.flatMap_def]
    exact hrun
  | @object type rtype ps hobject hfields _ ih =>
    have hparts : ∀ p ∈ ps, ∃ w, s.Packs p.1.type w p.2 ∧
        ∀ rest, s.Unpacks p.1.type (p.2 ++ rest) w rest := fun p hp => by
      have hle : p.2.length ≤ (ps.flatMap Prod.snd).length := by
        rw [List.length_flatMap]
        exact List.single_le_sum (by simp) _ (List.mem_map_of_mem (f := fun p => p.2.length) hp)
      exact ih p hp (hplain.of_contains (.field hobject hfields (List.mem_map_of_mem hp))) (by omega)
    obtain ⟨qs, rfl, hqs⟩ := exists_pairs hparts
    let vo : List (Bytes × Variant) := qs.map fun q => (q.1.1.name.toBytes, q.2)
    obtain ⟨hcstring, hnodup⟩ := hplain.fieldNames hobject hfields
    have hkeys : vo.map Prod.fst = ((qs.map Prod.fst).map Prod.fst).map (·.name.toBytes) := by
      simp [vo]
    have hlookup : ∀ q ∈ qs, vo.lookup (cString q.1.1.name.toBytes) = some q.2 := fun q hq => by
      rw [hcstring q.1.1 (List.mem_map_of_mem (List.mem_map_of_mem hq))]
      exact lookup_eq_some_of_nodup (hkeys ▸ hnodup) (List.mem_map_of_mem hq)
    have hfst : (qs.map fun q => (q.1.1, q.2, q.1.2)).map Prod.fst = (qs.map Prod.fst).map Prod.fst := by simp
    have hbytes : (qs.map fun q => (q.1.1, q.2, q.1.2)).flatMap (·.2.2) =
        (qs.map Prod.fst).flatMap Prod.snd := by
      simp [List.flatMap_map]
    have hpacks : s.Packs type (.object vo) _ := packs_object hobject (hplain type .refl rtype hobject).1
      (hfst.symm ▸ hfields) (List.forall_mem_map.2 fun q hq => ⟨hlookup q hq, (hqs q hq).1⟩)
    rw [hbytes] at hpacks
    refine ⟨.object vo, hpacks, fun rest => ?_⟩
    have hrun := run_unpacks (qs.map fun q => (q.1.1.type, q.2, q.1.2))
      (List.forall_mem_map.2 fun q hq => (hqs q hq).2) rest
    have hvars : (qs.map fun q => (q.1.1.type, q.2, q.1.2)).flatMap (·.2.2) =
        (qs.map Prod.fst).flatMap Prod.snd := by
      simp [List.flatMap_map]
    rw [hvars] at hrun
    refine (unpacks_object hobject).2 ⟨vo, (unpacksObject_iff hfields).2 (run_unpacksField_iff.2
      ⟨qs.map Prod.snd, ?_, ?_⟩), rfl⟩
    · simpa [Function.comp_def] using hrun
    · rw [← hkeys]
      simp [vo, List.zip_map', List.map_map]

/-- What was unpacked packs to nothing else. -/
theorem packed_of_unpacks {n : ℕ} {bytes' rest : Bytes} (hplain : s.PlainWithin type)
    (hpack : s.packVariant n type var = some bytes) (hunpack : s.Unpacks type bytes' var rest) :
    s.Packed type bytes := by
  induction n using Nat.strong_induction_on generalizing type var bytes bytes' rest with
  | _ n ih =>
    obtain ⟨rtype, hres⟩ := resolves_of_pack hpack
    rcases hb : s.findBuiltIn (arrayType rtype) with _ | btype
    · rcases harr : isArray rtype with _ | _
      · have hobject : s.AsObject type rtype := ⟨hres, hb, harr⟩
        obtain ⟨vo, rfl, ps, hfields, rfl, hps⟩ :=
          pack_object hobject (hplain.noBuiltInBase hobject) hpack
        obtain ⟨obj, hobj, heq⟩ := (unpacks_object hobject).1 hunpack
        cases heq
        obtain ⟨vars, hrun, hvo⟩ := run_unpacksField_iff.1 ((unpacksObject_iff hfields).1 hobj)
        obtain ⟨hcstring, hnodup⟩ := hplain.fieldNames hobject hfields
        have hlen : vars.length = (ps.map Prod.fst).length := by simpa using hrun.length_eq
        have hkeys : vo.map Prod.fst = (ps.map Prod.fst).map (·.name.toBytes) := by
          rw [hvo, List.map_fst_zip (by simp [hlen])]
        refine .object hobject hfields fun p hp => ?_
        have hmem : p.1 ∈ ps.map Prod.fst := List.mem_map_of_mem hp
        obtain ⟨x, hx, m, hm, hpx⟩ := hps p hp
        obtain ⟨e, he, b, r, y, hy, rfl⟩ :=
          ((unpacksObject_iff hfields).1 hobj).exists_of_mem hmem
        rw [hcstring p.1 hmem, lookup_eq_some_of_nodup (hkeys ▸ hnodup) he] at hx
        cases hx
        exact ih m hm (hplain.of_contains (.field hobject hfields hmem)) hpx hy
      · have harray : s.AsArray type rtype := ⟨hres, hb, harr⟩
        obtain ⟨m, hm, ps, rfl, rfl, hps⟩ := pack_array harray hpack
        obtain ⟨size, s₁, vars, hsize, hrun, heq⟩ := (unpacks_array harray).1 hunpack
        cases heq
        have hlen : (ps.map Prod.snd).length < 2 ^ 32 := by
          have h := hrun.length_eq
          rw [List.length_map, List.length_replicate] at h
          rw [List.length_map, h]
          exact u32_lt_of_unpackSevenBits hsize
        rw [List.flatMap_def, ← List.length_map (f := Prod.snd)]
        refine .array harray hlen fun item hitem => ?_
        obtain ⟨p, hp, rfl⟩ := List.mem_map.1 hitem
        obtain ⟨_, -, b, r, hvar⟩ := hrun.exists_of_mem_right (List.mem_map_of_mem (f := Prod.fst) hp)
        exact ih m hm (hplain.of_contains (.element harray)) (hps p hp) hvar
    · exact .builtIn hres hb (pack_builtIn hres hb hpack)

/-- What was unpacked from the bytes packs to them again if they are what packing gives, and only then. -/
theorem packs_iff_packed {rest : Bytes} (hplain : s.PlainWithin type) (hcodecs : LosslessCodecs s.codecs)
    (hsize : bytes.length ≤ 1024 * 1024) (hunpack : s.Unpacks type bytes var rest) :
    s.Packs type var bytes ↔ s.Packed type bytes := by
  constructor
  · rintro ⟨n, hn⟩
    exact packed_of_unpacks hplain hn hunpack
  · intro h
    obtain ⟨w, hpacks, hw⟩ := h.unpacks hplain hcodecs hsize
    have hw' := hw []
    rw [List.append_nil] at hw'
    obtain ⟨rfl, -⟩ := hunpack.unique hw'
    exact hpacks

/-- An object that was unpacked is packed to the bytes it was unpacked from if it is of a known type, and the
bytes are what packing gives and fit into the buffer. -/
theorem variantToBinary_iff {rest : Bytes} (hplain : s.PlainWithin type) (hcodecs : LosslessCodecs s.codecs)
    (hcast : s.asBytes var = none) (hunpack : s.Unpacks type bytes var rest) :
    (∃ n, ∀ fuel ≥ n, s.variantToBinary fuel type var = some bytes) ↔
      (∃ n, s.isType n type = some true) ∧ s.Packed type bytes ∧ bytes.length ≤ 1024 * 1024 := by
  have hstep : ∀ fuel, s.variantToBinary fuel type var = some bytes ↔ s.isType fuel type = some true ∧
      s.packVariant fuel type var = some bytes ∧ bytes.length ≤ 1024 * 1024 := fun fuel => by
    rw [variantToBinary]
    rcases s.isType fuel type with _ | _ | _
    · simp
    · simp [hcast]
    · simp only [Option.bind_eq_bind, Option.bind_some, if_true, true_and, Option.bind_eq_some_iff]
      constructor
      · rintro ⟨temp, htemp, _, hsize, hbytes⟩
        cases hbytes
        exact ⟨htemp, by simpa [guard] using hsize⟩
      · rintro ⟨htemp, hsize⟩
        exact ⟨bytes, htemp, ⟨⟩, by simp [guard, hsize], rfl⟩
  simp only [hstep]
  constructor
  · rintro ⟨n, hn⟩
    obtain ⟨htype, hpack, hsize⟩ := hn n le_rfl
    exact ⟨⟨n, htype⟩, packed_of_unpacks hplain hpack hunpack, hsize⟩
  · rintro ⟨⟨m, hm⟩, hpacked, hsize⟩
    obtain ⟨n, hn⟩ := (packs_iff_packed hplain hcodecs hsize hunpack).2 hpacked
    exact ⟨max m n, fun fuel hfuel => ⟨isType_mono (by omega) hm, packVariant_mono (by omega) hn, hsize⟩⟩

end Again

end AbiSerializer

end XmaxChain
