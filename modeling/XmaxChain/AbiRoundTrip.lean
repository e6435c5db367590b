import Mathlib.Logic.Relation
import XmaxChain.Abi

/-!
# Packing and unpacking ABI values
-/

namespace XmaxChain

open StreamReader Abi Relation

/-- What a variant says: of an object, the values that each key holds. -/
inductive Meaning
  | leaf (v : Variant)
  | array (vars : List Meaning)
  | object (values : Bytes → List Meaning)

/-- The values of the entries with this key. -/
def valuesOf {α : Type} (entries : List (Bytes × α)) (key : Bytes) : List α :=
  (entries.filter (·.1 = key)).map Prod.snd

namespace Variant

mutual

def meaning : Variant → Meaning
  | .array vars => .array (meanings vars)
  | .object entries => .object (valuesOf (entryMeanings entries))
  | v => .leaf v

def meanings : List Variant → List Meaning
  | [] => []
  | v :: vars => v.meaning :: meanings vars

def entryMeanings : List (Bytes × Variant) → List (Bytes × Meaning)
  | [] => []
  | (key, v) :: entries => (key, v.meaning) :: entryMeanings entries

end

theorem meanings_eq (vars : List Variant) : meanings vars = vars.map meaning := by
  induction vars with
  | nil => rfl
  | cons v vars ih => simp [meanings, ih]

theorem entryMeanings_eq (entries : List (Bytes × Variant)) :
    entryMeanings entries = entries.map fun e => (e.1, e.2.meaning) := by
  induction entries with
  | nil => rfl
  | cons e entries ih => simp [entryMeanings, ih]

theorem meaning_array_inj {vars vars' : List Variant} :
    (array vars).meaning = (array vars').meaning ↔ vars.map meaning = vars'.map meaning := by
  simp [meaning, meanings_eq]

theorem meaning_object_inj {entries entries' : List (Bytes × Variant)} :
    (object entries).meaning = (object entries').meaning ↔
      ∀ key, (valuesOf entries key).map meaning = (valuesOf entries' key).map meaning := by
  have hvalues : ∀ (entries : List (Bytes × Variant)) key,
      valuesOf (entryMeanings entries) key = (valuesOf entries key).map meaning := by
    intro entries key
    simp only [valuesOf, entryMeanings_eq, List.filter_map, List.map_map, Function.comp_def]
  simp only [meaning, Meaning.object.injEq, funext_iff, hvalues]

end Variant

section Values

variable {α : Type} {entries : List (Bytes × α)} {key : Bytes}

theorem length_valuesOf : (valuesOf entries key).length = (entries.map Prod.fst).count key := by
  rw [valuesOf, List.length_map, List.count, List.countP_map, List.countP_eq_length_filter]
  congr 1
  exact List.filter_congr fun e _ => by simp [Bool.beq_eq_decide_eq]

theorem valuesOf_of_notMem (h : key ∉ entries.map Prod.fst) : valuesOf entries key = [] := by
  rw [← List.length_eq_zero_iff, length_valuesOf, List.count_eq_zero_of_not_mem h]

theorem valuesOf_of_mem {v : α} (hnodup : (entries.map Prod.fst).Nodup) (h : (key, v) ∈ entries) :
    valuesOf entries key = [v] := by
  have hmem : v ∈ valuesOf entries key :=
    List.mem_map.2 ⟨(key, v), List.mem_filter.2 ⟨h, by simp⟩, rfl⟩
  have hone : (valuesOf entries key).length ≤ 1 := by
    rw [length_valuesOf]
    exact List.nodup_iff_count_le_one.1 hnodup key
  match hvalues : valuesOf entries key with
  | [] => simp [hvalues] at hmem
  | [x] =>
    rw [hvalues, List.mem_singleton] at hmem
    rw [hmem]
  | x :: y :: l => simp [hvalues] at hone

end Values

/-- The fields of an object with each key once, each given a value in the place of its own: the whole
says the same when no field is named twice and each value says what the own one says. -/
theorem meaning_object_iff {vo : List (Bytes × Variant)} {ps : List (Bytes × Variant × Variant)}
    (hlookup : ∀ p ∈ ps, vo.lookup p.1 = some p.2.2) (hnodup : (vo.map Prod.fst).Nodup)
    (hkeys : ∀ key, key ∈ vo.map Prod.fst ↔ key ∈ ps.map Prod.fst) :
    (Variant.object (ps.map fun p => (p.1, p.2.1))).meaning = (Variant.object vo).meaning ↔
      (ps.map Prod.fst).Nodup ∧ ∀ p ∈ ps, p.2.1.meaning = p.2.2.meaning := by
  have hown : ∀ p ∈ ps, valuesOf vo p.1 = [p.2.2] := fun p hp =>
    valuesOf_of_mem hnodup (List.lookup_eq_some_iff.1 (hlookup p hp) |>.elim fun l₁ ⟨l₂, hsplit, _⟩ =>
      hsplit ▸ by simp)
  have hfst : (ps.map fun p => (p.1, p.2.1)).map Prod.fst = ps.map Prod.fst := by
    rw [List.map_map]
    rfl
  rw [Variant.meaning_object_inj]
  constructor
  · intro h
    refine ⟨List.nodup_iff_count_le_one.2 fun key => ?_, fun p hp => ?_⟩
    · have hlen := congrArg List.length (h key)
      rw [List.length_map, List.length_map, length_valuesOf, length_valuesOf, hfst] at hlen
      rw [hlen]
      exact List.nodup_iff_count_le_one.1 hnodup key
    · have hmem : p.2.1 ∈ valuesOf (ps.map fun p => (p.1, p.2.1)) p.1 :=
        List.mem_map.2 ⟨(p.1, p.2.1), List.mem_filter.2 ⟨List.mem_map_of_mem hp, by simp⟩, rfl⟩
      have hmap := List.mem_map_of_mem (f := Variant.meaning) hmem
      rw [h, hown p hp] at hmap
      simpa using hmap
  · rintro ⟨hnames, hmeaning⟩ key
    by_cases hkey : key ∈ ps.map Prod.fst
    · obtain ⟨p, hp, rfl⟩ := List.mem_map.1 hkey
      have hentry : (p.1, p.2.1) ∈ ps.map fun p => (p.1, p.2.1) := List.mem_map_of_mem hp
      rw [valuesOf_of_mem (by rwa [hfst]) hentry, hown p hp, List.map_singleton, List.map_singleton,
        hmeaning p hp]
    · rw [valuesOf_of_notMem (by rwa [hfst]), valuesOf_of_notMem (by rwa [hkeys])]

theorem map_eq_map_iff_zip {α β γ : Type} {f : α → γ} {g : β → γ} {as : List α} {bs : List β}
    (hlen : as.length = bs.length) : as.map f = bs.map g ↔ ∀ q ∈ bs.zip as, f q.2 = g q.1 := by
  induction bs generalizing as with
  | nil => simp [List.length_eq_zero_iff.1 hlen]
  | cons b bs ih =>
    obtain ⟨a, as, rfl⟩ : ∃ a as', as = a :: as' := List.exists_cons_of_length_eq_add_one hlen
    simp [ih (by simpa using hlen)]

theorem meaning_zip_iff {vo ps : List (Bytes × Variant)} {ws : List Variant}
    (hlookup : ∀ p ∈ ps, vo.lookup p.1 = some p.2) (hnodup : (vo.map Prod.fst).Nodup)
    (hkeys : ∀ key, key ∈ vo.map Prod.fst ↔ key ∈ ps.map Prod.fst) (hlen : ws.length = ps.length) :
    (Variant.object ((ps.map Prod.fst).zip ws)).meaning = (Variant.object vo).meaning ↔
      (ps.map Prod.fst).Nodup ∧ ws.map Variant.meaning = ps.map (·.2.meaning) := by
  have hfst : ((ps.zip ws).map fun q => (q.1.1, q.2, q.1.2)).map Prod.fst = ps.map Prod.fst := by
    rw [List.map_map, ← List.map_fst_zip hlen.ge, List.map_map, List.map_fst_zip hlen.ge]
    rfl
  have hentries : ((ps.zip ws).map fun q => (q.1.1, q.2, q.1.2)).map (fun q => (q.1, q.2.1)) =
      (ps.map Prod.fst).zip ws := by
    rw [List.map_map, List.zip_map_left]
    rfl
  rw [← hentries, meaning_object_iff _ hnodup (by rwa [hfst]), hfst]
  · rw [map_eq_map_iff_zip hlen, List.forall_mem_map]
  · rintro _ hq
    obtain ⟨⟨p, w⟩, hpw, rfl⟩ := List.mem_map.1 hq
    exact hlookup p (List.of_mem_zip hpw).1

namespace AbiSerializer

variable (s : AbiSerializer)

/-! ## The types on the way -/

/-- The resolved name of the base of a struct. -/
def HasBase (type base : TypeName) : Prop :=
  ∃ st, s.StructOf type st ∧ st.base ≠ TypeName.empty ∧ s.Resolves st.base base

/-- The fields of a struct, those of its bases first. -/
inductive FieldsOf : TypeName → List Field → Prop
  | root {type : TypeName} {st : StructT} :
      s.StructOf type st → st.base = TypeName.empty → FieldsOf type st.fields
  | derived {type base : TypeName} {st : StructT} {fields : List Field} :
      s.StructOf type st → st.base ≠ TypeName.empty → s.Resolves st.base base →
      FieldsOf base fields → FieldsOf type (fields ++ st.fields)

/-- What a type is made of. -/
inductive Mentions : TypeName → TypeName → Prop
  | target {type target : TypeName} :
      s.typedefs.find? type = some target → Mentions type target
  | element {type : TypeName} : isArray type = true → Mentions type (arrayType type)
  | base {type : TypeName} {st : StructT} :
      s.structs.find? type = some st → st.base ≠ TypeName.empty → Mentions type st.base
  | field {type : TypeName} {st : StructT} {field : Field} :
      s.structs.find? type = some st → field ∈ st.fields → Mentions type field.type

/-- No struct contains itself through fields, bases, arrays or typedefs. -/
def NoStructInItself : Prop :=
  ∀ type st, s.structs.find? type = some st → ¬ TransGen s.Mentions type type

/-- A part of a value, with the type it is packed as: an element of an array, or what a field of an
object is looked up as. -/
inductive Part : TypeName × Variant → TypeName × Variant → Prop
  | element {type rtype : TypeName} {vars : List Variant} {var : Variant} :
      s.AsArray type rtype → var ∈ vars → Part (type, .array vars) (arrayType rtype, var)
  | field {type rtype : TypeName} {vo : List (Bytes × Variant)} {fields : List Field} {field : Field}
      {var : Variant} :
      s.AsObject type rtype → s.FieldsOf rtype fields → field ∈ fields →
      vo.lookup (cString field.name.toBytes) = some var → Part (type, .object vo) (field.type, var)

abbrev Reached : TypeName × Variant → TypeName × Variant → Prop := ReflTransGen s.Part

def Unpacks (type : TypeName) (bytes : Bytes) (var : Variant) (rest : Bytes) : Prop :=
  ∃ fuel, (s.unpackVariant fuel type).run bytes = some (var, rest)

def UnpacksObject (type : TypeName) (bytes : Bytes) (obj : List (Bytes × Variant)) (rest : Bytes) :
    Prop :=
  ∃ fuel, (s.unpackObject fuel type).run bytes = some (obj, rest)

/-- The body of `unpackVariant`, after the type is resolved. -/
def unpackResolved (fuel : ℕ) (rtype : TypeName) : Reader ℕ Variant :=
  match s.findBuiltIn (arrayType rtype) with
  | some btype => btype.unpack (isArray rtype)
  | none =>
    if isArray rtype then do
      let size ← unpackUnsignedInt
      let vars ← (List.replicate size ()).mapM fun _ => s.unpackVariant fuel (arrayType rtype)
      pure (.array vars)
    else do
      let obj ← s.unpackObject fuel rtype
      pure (.object obj)

theorem unpackVariant_succ (fuel : ℕ) (type : TypeName) :
    s.unpackVariant (fuel + 1) type =
      StateT.lift (s.resolveType fuel type) >>= s.unpackResolved fuel := by rfl

section Resolved

variable {s} {fuel : ℕ} {rtype : TypeName}

theorem unpackResolved_builtIn {btype : BuiltInCodec} (hb : s.findBuiltIn (arrayType rtype) = some btype) :
    s.unpackResolved fuel rtype = btype.unpack (isArray rtype) := by
  delta unpackResolved
  rw [hb]

theorem unpackResolved_array (hb : s.findBuiltIn (arrayType rtype) = none) (harray : isArray rtype = true) :
    s.unpackResolved fuel rtype = unpackUnsignedInt >>= fun size =>
      (List.replicate size ()).mapM (fun _ => s.unpackVariant fuel (arrayType rtype)) >>= fun vars =>
        pure (.array vars) := by
  delta unpackResolved
  rw [hb]
  exact if_pos harray

theorem unpackResolved_object (hb : s.findBuiltIn (arrayType rtype) = none) (harray : isArray rtype = false) :
    s.unpackResolved fuel rtype = s.unpackObject fuel rtype >>= fun obj => pure (.object obj) := by
  delta unpackResolved
  rw [hb]
  exact if_neg (by simp [harray])

end Resolved

def unpackField (fuel : ℕ) (field : Field) : Reader ℕ (Bytes × Variant) := do
  let var ← s.unpackVariant fuel (← StateT.lift (s.resolveType fuel field.type))
  pure (field.name.toBytes, var)

theorem unpackObject_succ (fuel : ℕ) (type : TypeName) :
    s.unpackObject (fuel + 1) type =
      StateT.lift (s.getStruct fuel type) >>= fun st =>
        (if st.base ≠ TypeName.empty then
          StateT.lift (s.resolveType fuel st.base) >>= s.unpackObject fuel
        else pure []) >>= fun base =>
          st.fields.mapM (s.unpackField fuel) >>= fun own => pure (base ++ own) := by rfl

section Fuel

variable {s} {type rtype : TypeName} {m n : ℕ}

theorem FieldsOf.unique {fields fields' : List Field} (h : s.FieldsOf type fields)
    (h' : s.FieldsOf type fields') : fields' = fields := by
  induction h generalizing fields' with
  | root hst hbase =>
    cases h' with
    | root hst' => rw [hst.unique hst']
    | derived hst' hbase' =>
      rw [hst.unique hst'] at hbase'
      exact absurd hbase hbase'
  | derived hst hbase hres _ ih =>
    cases h' with
    | root hst' hbase' =>
      rw [hst.unique hst'] at hbase'
      exact absurd hbase' hbase
    | derived hst' _ hres' hfields =>
      obtain rfl := hst.unique hst'
      obtain rfl := hres.unique hres'
      rw [ih hfields]

theorem unpackResolved_mono
    (hvariant : ∀ type, Extends (s.unpackVariant m type) (s.unpackVariant n type))
    (hobject : ∀ type, Extends (s.unpackObject m type) (s.unpackObject n type)) :
    Extends (s.unpackResolved m rtype) (s.unpackResolved n rtype) := by
  cases hb : s.findBuiltIn (arrayType rtype) with
  | some btype =>
    rw [unpackResolved_builtIn hb, unpackResolved_builtIn hb]
    exact .refl _
  | none =>
    cases harray : isArray rtype with
    | true =>
      rw [unpackResolved_array hb harray, unpackResolved_array hb harray]
      exact .bind (.refl _) fun size => .bind (.mapM (fun _ => hvariant _) _) fun _ => .refl _
    | false =>
      rw [unpackResolved_object hb harray, unpackResolved_object hb harray]
      exact .bind (hobject rtype) fun _ => .refl _

theorem unpack_mono (hmn : m ≤ n) :
    (∀ type, Extends (s.unpackVariant m type) (s.unpackVariant n type)) ∧
      ∀ type, Extends (s.unpackObject m type) (s.unpackObject n type) := by
  induction m generalizing n with
  | zero =>
    constructor <;> intro type bytes r h <;> cases h
  | succ m ih =>
    obtain ⟨n, rfl⟩ : ∃ k, n = k + 1 := ⟨n - 1, by omega⟩
    have hle : m ≤ n := by omega
    obtain ⟨hvariant, hobject⟩ := ih hle
    have hresolve : ∀ type, Extends (StateT.lift (s.resolveType m type) : Reader ℕ TypeName)
        (StateT.lift (s.resolveType n type)) := fun type =>
      .lift fun _ => resolveType_mono hle
    constructor
    · intro type
      rw [unpackVariant_succ, unpackVariant_succ]
      exact .bind (hresolve type) fun rtype => unpackResolved_mono hvariant hobject
    · intro type
      rw [unpackObject_succ, unpackObject_succ]
      refine .bind (.lift fun _ => getStruct_mono hle) fun st => .bind ?_ fun base =>
        .bind (.mapM (fun field => ?_) _) fun _ => .refl _
      · split_ifs
        · exact .bind (hresolve st.base) fun b => hobject b
        · exact .refl _
      · exact .bind (hresolve field.type) fun t => .bind (hvariant t) fun _ => .refl _

end Fuel

/-! ## What unpacking gives -/

section Unpack

variable {s} {type rtype : TypeName} {bytes rest : Bytes} {var : Variant}

theorem unpacks_iff (h : s.Resolves type rtype) :
    s.Unpacks type bytes var rest ↔
      ∃ fuel, (s.unpackResolved fuel rtype).run bytes = some (var, rest) := by
  constructor
  · rintro ⟨_ | fuel, hrun⟩
    · cases hrun
    · simp only [unpackVariant_succ, bind_run, liftOption_run] at hrun
      obtain ⟨r, s₁, ⟨hr, rfl⟩, hrun⟩ := hrun
      obtain rfl := h.unique ⟨fuel, hr⟩
      exact ⟨fuel, hrun⟩
  · rintro ⟨m, hrun⟩
    obtain ⟨n, hr⟩ := h
    have hmono := unpack_mono (s := s) (le_max_left m n)
    refine ⟨max m n + 1, ?_⟩
    rw [unpackVariant_succ]
    exact bind_run.2 ⟨rtype, bytes, liftOption_run.2 ⟨resolveType_mono (le_max_right m n) hr, rfl⟩,
      unpackResolved_mono hmono.1 hmono.2 _ _ hrun⟩

/-- It makes no difference whether a type is resolved before. -/
theorem Unpacks.of_resolves (h : s.Resolves type rtype) :
    s.Unpacks rtype bytes var rest ↔ s.Unpacks type bytes var rest := by
  rw [unpacks_iff h, unpacks_iff h.again]

theorem unpacks_builtIn {btype : BuiltInCodec} (h : s.Resolves type rtype)
    (hb : s.findBuiltIn (arrayType rtype) = some btype) :
    s.Unpacks type bytes var rest ↔ (btype.unpack (isArray rtype)).run bytes = some (var, rest) := by
  rw [unpacks_iff h]
  simp only [unpackResolved_builtIn hb, exists_const]

theorem unpacks_array (h : s.AsArray type rtype) :
    s.Unpacks type bytes var rest ↔ ∃ size s₁ vars, unpackUnsignedInt.run bytes = some (size, s₁) ∧
      Run (fun _ => s.Unpacks (arrayType rtype)) (List.replicate size ()) s₁ vars rest ∧
      var = .array vars := by
  rw [unpacks_iff h.1]
  simp only [unpackResolved_array h.2.1 h.2.2, bind_run, pure_run, mapM_run]
  have hfuel : ∀ size s₁ vars r,
      Run (fun _ => s.Unpacks (arrayType rtype)) (List.replicate size ()) s₁ vars r ↔ ∃ fuel,
        Run (fun _ b v r => (s.unpackVariant fuel (arrayType rtype)).run b = some (v, r))
          (List.replicate size ()) s₁ vars r := fun size s₁ vars r =>
    Run.exists_fuel fun hmn _ b v r h => (unpack_mono hmn).1 _ _ _ h
  simp only [hfuel]
  constructor
  · rintro ⟨fuel, size, s₁, hsize, vars, s₂, hvars, rfl, rfl⟩
    exact ⟨size, s₁, vars, hsize, ⟨fuel, hvars⟩, rfl⟩
  · rintro ⟨size, s₁, vars, hsize, ⟨fuel, hvars⟩, rfl⟩
    exact ⟨fuel, size, s₁, hsize, vars, rest, hvars, rfl, rfl⟩

theorem unpacks_object (h : s.AsObject type rtype) :
    s.Unpacks type bytes var rest ↔
      ∃ obj, s.UnpacksObject rtype bytes obj rest ∧ var = .object obj := by
  rw [unpacks_iff h.1]
  simp only [unpackResolved_object h.2.1 h.2.2, bind_run, pure_run, UnpacksObject]
  constructor
  · rintro ⟨fuel, obj, s₁, hobj, rfl, rfl⟩
    exact ⟨obj, ⟨fuel, hobj⟩, rfl⟩
  · rintro ⟨obj, ⟨fuel, hobj⟩, rfl⟩
    exact ⟨fuel, obj, rest, hobj, rfl, rfl⟩

/-- The entry that a field appends. -/
def UnpacksField (s : AbiSerializer) (field : Field) (bytes : Bytes) (entry : Bytes × Variant)
    (rest : Bytes) : Prop :=
  ∃ var, s.Unpacks field.type bytes var rest ∧ entry = (field.name.toBytes, var)

theorem unpackField_iff {field : Field} {entry : Bytes × Variant} :
    (∃ fuel, (s.unpackField fuel field).run bytes = some (entry, rest)) ↔
      s.UnpacksField field bytes entry rest := by
  simp only [unpackField, bind_run, liftOption_run, pure_run]
  constructor
  · rintro ⟨fuel, r, _, ⟨hr, rfl⟩, var, _, hvar, rfl, rfl⟩
    exact ⟨var, (Unpacks.of_resolves ⟨fuel, hr⟩).1 ⟨fuel, hvar⟩, rfl⟩
  · rintro ⟨var, hvar, rfl⟩
    obtain ⟨_ | m, hm⟩ := hvar
    · cases hm
    · have hm' := hm
      simp only [unpackVariant_succ, bind_run, liftOption_run] at hm'
      obtain ⟨r, _, ⟨hr, rfl⟩, -⟩ := hm'
      have hres : s.Resolves field.type r := ⟨m, hr⟩
      obtain ⟨n, hn⟩ := (Unpacks.of_resolves hres).2 ⟨m + 1, hm⟩
      exact ⟨max m n, r, _, ⟨resolveType_mono (le_max_left m n) hr, rfl⟩, var, rest,
        (unpack_mono (le_max_right m n)).1 _ _ _ hn, rfl, rfl⟩

theorem unpackField_mono {m n : ℕ} (hmn : m ≤ n) (field : Field) :
    Extends (s.unpackField m field) (s.unpackField n field) :=
  .bind (.lift fun _ => resolveType_mono hmn) fun t => .bind ((unpack_mono hmn).1 t) fun _ => .refl _

theorem unpackFields_iff {fields : List Field} {obj : List (Bytes × Variant)} :
    (∃ fuel, (fields.mapM (s.unpackField fuel)).run bytes = some (obj, rest)) ↔
      Run s.UnpacksField fields bytes obj rest := by
  simp only [mapM_run]
  refine (Run.exists_fuel fun hmn field b entry r => unpackField_mono hmn field b (entry, r)).symm.trans
    ⟨Run.mono fun _ _ _ _ => unpackField_iff.1, Run.mono fun _ _ _ _ => unpackField_iff.2⟩

/-- A struct is unpacked as its base and then its own fields. -/
theorem unpacksObject_struct {st : StructT} {obj : List (Bytes × Variant)}
    (h : s.StructOf type st) :
    s.UnpacksObject type bytes obj rest ↔ ∃ base s₁ own,
      (∃ fuel, (if st.base ≠ TypeName.empty then
          StateT.lift (s.resolveType fuel st.base) >>= s.unpackObject fuel
        else pure []).run bytes = some (base, s₁)) ∧
      Run s.UnpacksField st.fields s₁ own rest ∧ obj = base ++ own := by
  simp only [← unpackFields_iff]
  constructor
  · rintro ⟨_ | fuel, hrun⟩
    · cases hrun
    · simp only [unpackObject_succ, bind_run, liftOption_run, pure_run] at hrun
      obtain ⟨st', _, ⟨hst, rfl⟩, base, s₁, hbase, own, _, hown, rfl, rfl⟩ := hrun
      obtain rfl := h.unique ⟨fuel, hst⟩
      exact ⟨base, s₁, own, ⟨fuel, hbase⟩, ⟨fuel, hown⟩, rfl⟩
  · rintro ⟨base, s₁, own, ⟨m, hbase⟩, ⟨n, hown⟩, rfl⟩
    obtain ⟨k, hst⟩ := h
    have hk : k ≤ max k (max m n) := le_max_left _ _
    have hm : m ≤ max k (max m n) := (le_max_left _ _).trans (le_max_right _ _)
    have hn : n ≤ max k (max m n) := (le_max_right _ _).trans (le_max_right _ _)
    refine ⟨max k (max m n) + 1, ?_⟩
    simp only [unpackObject_succ, bind_run, liftOption_run, pure_run]
    refine ⟨st, bytes, ⟨getStruct_mono hk hst, rfl⟩, base, s₁, ?_, own, rest,
      Extends.mapM (unpackField_mono hn) _ _ _ hown, rfl, rfl⟩
    split_ifs at hbase ⊢
    · exact Extends.bind (.lift fun _ => resolveType_mono hm) (unpack_mono hm).2 _ _ hbase
    · exact hbase

theorem unpacksObject_iff {fields : List Field} {obj : List (Bytes × Variant)}
    (h : s.FieldsOf type fields) :
    s.UnpacksObject type bytes obj rest ↔ Run s.UnpacksField fields bytes obj rest := by
  induction h generalizing bytes obj rest with
  | root hst hbase =>
    rw [unpacksObject_struct hst]
    simp [hbase, eq_comm]
  | @derived type base st fields hst hbase hres hfields ih =>
    rw [unpacksObject_struct hst, Run.append_iff]
    have hinner : ∀ b o r, (∃ fuel, (StateT.lift (s.resolveType fuel st.base) >>=
        s.unpackObject fuel).run b = some (o, r)) ↔ Run s.UnpacksField fields b o r := by
      intro b o r
      rw [← ih]
      simp only [bind_run, liftOption_run]
      constructor
      · rintro ⟨fuel, t, _, ⟨ht, rfl⟩, hobj⟩
        obtain rfl := hres.unique ⟨fuel, ht⟩
        exact ⟨fuel, hobj⟩
      · rintro ⟨m, hobj⟩
        obtain ⟨n, ht⟩ := hres
        exact ⟨max m n, base, b, ⟨resolveType_mono (le_max_right m n) ht, rfl⟩,
          (unpack_mono (le_max_left m n)).2 _ _ _ hobj⟩
    simp only [hbase, ne_eq, not_false_eq_true, if_true, hinner]
    constructor
    · rintro ⟨o, s₁, own, ho, hown, rfl⟩
      exact ⟨o, own, s₁, rfl, ho, hown⟩
    · rintro ⟨o, own, s₁, rfl, ho, hown⟩
      exact ⟨o, s₁, own, ho, hown, rfl⟩

theorem Unpacks.unique {var' : Variant} {rest' : Bytes} (h : s.Unpacks type bytes var rest)
    (h' : s.Unpacks type bytes var' rest') : var' = var ∧ rest' = rest := by
  obtain ⟨m, hm⟩ := h
  obtain ⟨n, hn⟩ := h'
  have hm' := (unpack_mono (le_max_left m n)).1 _ _ _ hm
  rw [(unpack_mono (le_max_right m n)).1 _ _ _ hn] at hm'
  simpa using hm'

theorem run_unpacksField_iff {fields : List Field} {obj : List (Bytes × Variant)} :
    Run s.UnpacksField fields bytes obj rest ↔ ∃ vars,
      Run s.Unpacks (fields.map Field.type) bytes vars rest ∧
        obj = (fields.map (·.name.toBytes)).zip vars := by
  induction fields generalizing bytes obj with
  | nil => simp [and_comm]
  | cons field fields ih =>
    simp only [List.map_cons, Run.cons_iff, ih]
    constructor
    · rintro ⟨_, _, s₁, rfl, ⟨var, hvar, rfl⟩, vars, hvars, rfl⟩
      exact ⟨var :: vars, ⟨var, vars, s₁, rfl, hvar, hvars⟩, rfl⟩
    · rintro ⟨_, ⟨var, vars, s₁, rfl, hvar, hvars⟩, rfl⟩
      exact ⟨_, _, s₁, rfl, ⟨var, hvar, rfl⟩, vars, hvars, rfl⟩

end Unpack

/-! ## What packing takes -/

theorem mapM_eq_some {α β : Type} {f : α → Option β} {xs : List α} {ys : List β}
    (h : xs.mapM f = some ys) :
    ∃ ps : List (α × β), ps.map Prod.fst = xs ∧ ps.map Prod.snd = ys ∧ ∀ p ∈ ps, f p.1 = some p.2 := by
  induction xs generalizing ys with
  | nil =>
    obtain rfl : ys = [] := by simpa [eq_comm] using h
    exact ⟨[], rfl, rfl, by simp⟩
  | cons x xs ih =>
    simp only [List.mapM_cons, Option.bind_eq_bind, Option.bind_eq_some_iff] at h
    obtain ⟨y, hy, ys', hys, hcons⟩ := h
    cases hcons
    obtain ⟨ps, rfl, rfl, hps⟩ := ih hys
    exact ⟨(x, y) :: ps, rfl, rfl, by simpa using ⟨hy, fun a b hab => hps (a, b) hab⟩⟩

section Pack

variable {s} {type rtype : TypeName} {var : Variant} {bytes : Bytes} {n : ℕ}

theorem resolves_of_pack (hpack : s.packVariant n type var = some bytes) : ∃ rtype, s.Resolves type rtype := by
  cases n with
  | zero => cases hpack
  | succ n =>
    obtain ⟨rtype, hr, -⟩ := Option.bind_eq_some_iff.1 hpack
    exact ⟨rtype, n, hr⟩

theorem resolveType_of_pack (h : s.Resolves type rtype) (hpack : s.packVariant (n + 1) type var = some bytes) :
    s.resolveType n type = some rtype := by
  obtain ⟨r, hr, -⟩ := Option.bind_eq_some_iff.1 hpack
  obtain rfl := h.unique ⟨n, hr⟩
  exact hr

section Resolved

variable (hr : s.resolveType n type = some rtype)
include hr

theorem packVariant_resolved : s.packVariant (n + 1) type var =
    match s.findBuiltIn (arrayType rtype) with
    | some btype => btype.pack var (isArray rtype)
    | none =>
      if isArray rtype then var.getArray.bind fun vars =>
        (vars.mapM (s.packVariant n (arrayType rtype))).bind fun items =>
          some (packUnsignedInt vars.length ++ items.flatten)
      else (s.getStruct n rtype).bind fun st => var.getObject.bind fun vo =>
        (if st.base ≠ TypeName.empty then do
            s.packVariant n (← s.resolveType n st.base) var
          else pure []).bind fun base =>
            (st.fields.mapM fun field : Field => do
              s.packVariant n field.type (← vo.lookup (cString field.name.toBytes))).bind fun items =>
                some (base ++ items.flatten) := by
  rw [packVariant, hr]
  rfl

theorem packVariant_builtIn {btype : BuiltInCodec} (hb : s.findBuiltIn (arrayType rtype) = some btype) :
    s.packVariant (n + 1) type var = btype.pack var (isArray rtype) := by
  rw [packVariant_resolved hr, hb]

theorem packVariant_array (hb : s.findBuiltIn (arrayType rtype) = none) (harray : isArray rtype = true) :
    s.packVariant (n + 1) type var = var.getArray.bind fun vars =>
      (vars.mapM (s.packVariant n (arrayType rtype))).bind fun items =>
        some (packUnsignedInt vars.length ++ items.flatten) := by
  rw [packVariant_resolved hr, hb]
  exact if_pos harray

theorem packVariant_object (hb : s.findBuiltIn (arrayType rtype) = none) (harray : isArray rtype = false) :
    s.packVariant (n + 1) type var = (s.getStruct n rtype).bind fun st => var.getObject.bind fun vo =>
      (if st.base ≠ TypeName.empty then do
          s.packVariant n (← s.resolveType n st.base) var
        else pure []).bind fun base =>
          (st.fields.mapM fun field : Field => do
            s.packVariant n field.type (← vo.lookup (cString field.name.toBytes))).bind fun items =>
              some (base ++ items.flatten) := by
  rw [packVariant_resolved hr, hb]
  exact if_neg (by simp [harray])

end Resolved

theorem pack_builtIn {btype : BuiltInCodec} (h : s.Resolves type rtype)
    (hb : s.findBuiltIn (arrayType rtype) = some btype) (hpack : s.packVariant n type var = some bytes) :
    btype.pack var (isArray rtype) = some bytes := by
  cases n with
  | zero => cases hpack
  | succ n =>
    rwa [packVariant_builtIn (resolveType_of_pack h hpack) hb] at hpack

theorem pack_array (h : s.AsArray type rtype) (hpack : s.packVariant n type var = some bytes) :
    ∃ m < n, ∃ ps : List (Variant × Bytes), var = .array (ps.map Prod.fst) ∧
      bytes = packUnsignedInt ps.length ++ ps.flatMap Prod.snd ∧
      ∀ p ∈ ps, s.packVariant m (arrayType rtype) p.1 = some p.2 := by
  cases n with
  | zero => cases hpack
  | succ n =>
    rw [packVariant_array (resolveType_of_pack h.1 hpack) h.2.1 h.2.2] at hpack
    simp only [Option.bind_eq_some_iff] at hpack
    obtain ⟨vars, hvars, items, hitems, hbytes⟩ := hpack
    cases hbytes
    obtain ⟨ps, rfl, rfl, hps⟩ := mapM_eq_some hitems
    refine ⟨n, Nat.lt_succ_self n, ps, ?_, ?_, hps⟩
    · cases var <;> cases hvars
      rfl
    · rw [List.length_map, List.flatMap_def]

/-- No base of the struct goes by the name of a built-in type. -/
def NoBuiltInBase (s : AbiSerializer) (rtype : TypeName) : Prop :=
  ∀ base, TransGen s.HasBase rtype base → s.findBuiltIn (arrayType base) = none

/-- One struct: the bytes of its base, and those of its own fields. -/
theorem pack_struct (h : s.AsObject type rtype) (hpack : s.packVariant (n + 1) type var = some bytes) :
    ∃ vo st base, ∃ ps : List (Field × Bytes), var = .object vo ∧ s.StructOf rtype st ∧
      (if st.base ≠ TypeName.empty then do
        s.packVariant n (← s.resolveType n st.base) var
      else pure []) = some base ∧ bytes = base ++ ps.flatMap Prod.snd ∧ ps.map Prod.fst = st.fields ∧
      ∀ p ∈ ps, ∃ x, vo.lookup (cString p.1.name.toBytes) = some x ∧
        s.packVariant n p.1.type x = some p.2 := by
  rw [packVariant_object (resolveType_of_pack h.1 hpack) h.2.1 h.2.2] at hpack
  simp only [Option.bind_eq_some_iff] at hpack
  obtain ⟨st, hst, vo, hvo, base, hbase, items, hitems, hbytes⟩ := hpack
  cases hbytes
  obtain ⟨ps, hfields, rfl, hps⟩ := mapM_eq_some hitems
  refine ⟨vo, st, base, ps, ?_, ⟨n, hst⟩, hbase, by rw [List.flatMap_def], hfields, fun p hp => ?_⟩
  · cases var <;> cases hvo
    rfl
  · exact Option.bind_eq_some_iff.1 (hps p hp)

theorem pack_object (h : s.AsObject type rtype) (hbases : s.NoBuiltInBase rtype)
    (hpack : s.packVariant n type var = some bytes) :
    ∃ vo, var = .object vo ∧ ∃ ps : List (Field × Bytes), s.FieldsOf rtype (ps.map Prod.fst) ∧
      bytes = ps.flatMap Prod.snd ∧
      ∀ p ∈ ps, ∃ x, vo.lookup (cString p.1.name.toBytes) = some x ∧
        ∃ m < n, s.packVariant m p.1.type x = some p.2 := by
  induction n generalizing type rtype bytes with
  | zero => cases hpack
  | succ n ih =>
    obtain ⟨vo, st, base, own, rfl, hst, hbase, rfl, hown, hps⟩ := pack_struct h hpack
    refine ⟨vo, rfl, ?_⟩
    split_ifs at hbase with hempty
    · obtain ⟨b, hb, hbase⟩ := Option.bind_eq_some_iff.1 hbase
      have hres : s.Resolves st.base b := ⟨n, hb⟩
      have hhas : s.HasBase rtype b := ⟨st, hst, hempty, hres⟩
      have hnone := hbases b (.single hhas)
      -- an object is no array
      have harray : isArray b = false := by
        by_contra harr
        obtain ⟨_, _, _, hvar, _⟩ := pack_array ⟨hres.again, hnone, by simpa using harr⟩ hbase
        cases hvar
      obtain ⟨vo', hvo, ps, hfields, rfl, hbaseparts⟩ := ih ⟨hres.again, hnone, harray⟩
        (fun b' hb' => hbases b' (.head hhas hb')) hbase
      obtain rfl : vo = vo' := by simpa using hvo
      refine ⟨ps ++ own, ?_, by simp, fun p hp => ?_⟩
      · rw [List.map_append, hown]
        exact .derived hst hempty hres hfields
      · rcases List.mem_append.1 hp with hp | hp
        · obtain ⟨x, hx, m, hm, hpx⟩ := hbaseparts p hp
          exact ⟨x, hx, m, by omega, hpx⟩
        · obtain ⟨x, hx, hpx⟩ := hps p hp
          exact ⟨x, hx, n, by omega, hpx⟩
    · cases hbase
      refine ⟨own, ?_, by simp, fun p hp => ?_⟩
      · rw [hown]
        exact .root hst (by simpa using hempty)
      · obtain ⟨x, hx, hpx⟩ := hps p hp
        exact ⟨x, hx, n, by omega, hpx⟩

end Pack

/-! ## The round trip -/

/-- The library of a built-in type gives back what it packed. -/
def CodecRoundTrips (q : TypeName × Variant) : Prop :=
  ∀ rtype btype bytes, s.Resolves q.1 rtype → s.findBuiltIn (arrayType rtype) = some btype →
    btype.pack q.2 (isArray rtype) = some bytes →
      ∃ w, w.meaning = q.2.meaning ∧
        ∀ rest, (btype.unpack (isArray rtype)).run (bytes ++ rest) = some (w, rest)

/-- An object has exactly the fields of its struct and the bases, each once. -/
def ExactFields (q : TypeName × Variant) : Prop :=
  ∀ rtype fields vo, q.2 = .object vo → s.AsObject q.1 rtype → s.FieldsOf rtype fields →
    (vo.map Prod.fst).Nodup ∧
      ∀ key, key ∈ vo.map Prod.fst ↔ key ∈ fields.map fun field => field.name.toBytes

/-- The bases are structs by name also for the encoder, and the names of the fields are C strings. -/
def PlainNames (q : TypeName × Variant) : Prop :=
  ∀ rtype, s.AsObject q.1 rtype → s.NoBuiltInBase rtype ∧
    ∀ fields, s.FieldsOf rtype fields → ∀ field ∈ fields, 0 ∉ field.name.toBytes

/-- No field is declared twice in a struct and its bases, and the size of an array fits into 32 bits. -/
def Representable (q : TypeName × Variant) : Prop :=
  (∀ rtype fields vo, q.2 = .object vo → s.AsObject q.1 rtype → s.FieldsOf rtype fields →
    (fields.map fun field => field.name.toBytes).Nodup) ∧
  ∀ rtype vars, q.2 = .array vars → s.AsArray q.1 rtype → vars.length < 2 ^ 32

/-- What is assumed of every part of a value. -/
structure Sound (q : TypeName × Variant) : Prop where
  codec : s.CodecRoundTrips q
  fields : s.ExactFields q
  names : s.PlainNames q

/-- The bytes unpack to what the variant says, if all parts are representable and only then. -/
structure RoundTrips (type : TypeName) (var : Variant) (bytes : Bytes) : Prop where
  unpacks : (∀ q, s.Reached (type, var) q → s.Representable q) →
    ∃ w, w.meaning = var.meaning ∧ ∀ rest, s.Unpacks type (bytes ++ rest) w rest
  representable : ∀ {rest w rest'}, s.Unpacks type (bytes ++ rest) w rest' →
    w.meaning = var.meaning → ∀ q, s.Reached (type, var) q → s.Representable q

section Parts

variable {s} {parts : List (TypeName × Variant × Bytes)}

/-- The condition is on the value itself and on its parts. -/
theorem forall_reached_iff {q : TypeName × Variant} {P : TypeName × Variant → Prop} :
    (∀ q', s.Reached q q' → P q') ↔ P q ∧ ∀ p, s.Part q p → ∀ q', s.Reached p q' → P q' := by
  constructor
  · exact fun h => ⟨h q .refl, fun p hp q' hq' => h q' (.head hp hq')⟩
  · rintro ⟨hq, hparts⟩ q' hq'
    rcases hq'.cases_head with rfl | ⟨p, hp, hq'⟩
    · exact hq
    · exact hparts p hp q' hq'

theorem unpacks_parts (h : ∀ p ∈ parts, s.RoundTrips p.1 p.2.1 p.2.2)
    (hrep : ∀ p ∈ parts, ∀ q, s.Reached (p.1, p.2.1) q → s.Representable q) :
    ∃ ws, ws.map Variant.meaning = parts.map (·.2.1.meaning) ∧
      ∀ rest, Run s.Unpacks (parts.map Prod.fst) (parts.flatMap (·.2.2) ++ rest) ws rest := by
  induction parts with
  | nil => exact ⟨[], rfl, fun rest => by simp⟩
  | cons p parts ih =>
    obtain ⟨w, hw, hrun⟩ := (h p List.mem_cons_self).unpacks (hrep p List.mem_cons_self)
    obtain ⟨ws, hws, hruns⟩ := ih (fun p hp => h p (List.mem_cons_of_mem _ hp))
      fun p hp => hrep p (List.mem_cons_of_mem _ hp)
    refine ⟨w :: ws, by simp [hw, hws], fun rest => ?_⟩
    rw [List.flatMap_cons, List.append_assoc]
    exact .cons (hrun _) (hruns rest)

theorem representable_parts (h : ∀ p ∈ parts, s.RoundTrips p.1 p.2.1 p.2.2) {rest rest' : Bytes}
    {ws : List Variant}
    (hrun : Run s.Unpacks (parts.map Prod.fst) (parts.flatMap (·.2.2) ++ rest) ws rest')
    (hws : ws.map Variant.meaning = parts.map (·.2.1.meaning)) :
    ∀ p ∈ parts, ∀ q, s.Reached (p.1, p.2.1) q → s.Representable q := by
  induction parts generalizing ws with
  | nil => simp
  | cons p parts ih =>
    rw [List.map_cons, Run.cons_iff, List.flatMap_cons, List.append_assoc] at hrun
    obtain ⟨w, ws, s₁, rfl, hw, hrun⟩ := hrun
    simp only [List.map_cons, List.cons.injEq] at hws
    have hp := (h p List.mem_cons_self).representable hw hws.1
    -- the first part took its own bytes and no others, so the next begins where it should
    obtain ⟨w', -, hw'⟩ := (h p List.mem_cons_self).unpacks hp
    obtain ⟨-, rfl⟩ := (hw' _).unique hw
    have hparts := ih (fun p hp => h p (List.mem_cons_of_mem _ hp)) hrun hws.2
    rintro p' (_ | ⟨_, hp'⟩)
    · exact hp
    · exact hparts p' hp'

end Parts

section Main

variable {s} {type rtype : TypeName} {var : Variant} {bytes : Bytes} {n : ℕ}

theorem roundTrips_builtIn {btype : BuiltInCodec} (h : s.Resolves type rtype)
    (hb : s.findBuiltIn (arrayType rtype) = some btype) (hcodec : s.CodecRoundTrips (type, var))
    (hpack : s.packVariant n type var = some bytes) : s.RoundTrips type var bytes := by
  obtain ⟨w, hw, hrun⟩ := hcodec rtype btype bytes h hb (pack_builtIn h hb hpack)
  have hnone : ∀ r, s.Resolves type r → s.findBuiltIn (arrayType r) ≠ none := by
    intro r hr
    rw [h.unique hr, hb]
    simp
  refine ⟨fun _ => ⟨w, hw, fun rest => (unpacks_builtIn h hb).2 (hrun rest)⟩, fun _ _ => ?_⟩
  refine forall_reached_iff.2 ⟨⟨fun r _ _ _ hr => absurd hr.2.1 (hnone r hr.1),
    fun r _ _ hr => absurd hr.2.1 (hnone r hr.1)⟩, fun p hp => ?_⟩
  cases hp with
  | element hr _ => exact absurd hr.2.1 (hnone _ hr.1)
  | field hr _ _ _ => exact absurd hr.2.1 (hnone _ hr.1)

theorem roundTrips_array {ps : List (Variant × Bytes)} (h : s.AsArray type rtype)
    (hps : ∀ p ∈ ps, s.RoundTrips (arrayType rtype) p.1 p.2) :
    s.RoundTrips type (.array (ps.map Prod.fst))
      (packUnsignedInt ps.length ++ ps.flatMap Prod.snd) := by
  let parts : List (TypeName × Variant × Bytes) := ps.map fun p => (arrayType rtype, p.1, p.2)
  have hparts : ∀ p ∈ parts, s.RoundTrips p.1 p.2.1 p.2.2 :=
    List.forall_mem_map.2 hps
  have htypes : parts.map Prod.fst = (List.replicate ps.length ()).map fun _ => arrayType rtype := by
    simp [parts, Function.comp_def]
  have hbytes : parts.flatMap (·.2.2) = ps.flatMap Prod.snd := by
    simp [parts, List.flatMap_map]
  have hmeaning : parts.map (·.2.1.meaning) = (ps.map Prod.fst).map Variant.meaning := by
    simp [parts]
  have hreached : (∀ q, s.Reached (type, .array (ps.map Prod.fst)) q → s.Representable q) ↔
      ps.length < 2 ^ 32 ∧
        ∀ p ∈ parts, ∀ q, s.Reached (p.1, p.2.1) q → s.Representable q := by
    rw [forall_reached_iff]
    refine and_congr ?_ ⟨fun hall p hp => ?_, fun hall p hp => ?_⟩
    · constructor
      · intro hrep
        simpa using hrep.2 rtype _ rfl h
      · intro hlen
        refine ⟨fun _ _ _ hvar => Variant.noConfusion hvar, fun _ vars hvar _ => ?_⟩
        cases hvar
        simpa using hlen
    · obtain ⟨e, he, rfl⟩ := List.mem_map.1 hp
      exact hall _ (.element h (List.mem_map_of_mem he))
    · cases hp with
      | element hr hmem =>
        obtain rfl := h.1.unique hr.1
        obtain ⟨p, hp, rfl⟩ := List.mem_map.1 hmem
        exact hall (arrayType _, p.1, p.2) (List.mem_map_of_mem hp)
  constructor
  · rw [hreached]
    rintro ⟨hlen, hrep⟩
    obtain ⟨ws, hws, hrun⟩ := unpacks_parts hparts hrep
    refine ⟨.array ws, Variant.meaning_array_inj.2 (hws.trans hmeaning), fun rest => ?_⟩
    rw [List.append_assoc]
    refine (unpacks_array h).2 ⟨u32 ps.length, _, ws, unpackUnsignedInt_pack _ _, ?_, rfl⟩
    rw [u32_of_lt hlen, ← Run.map_iff (R := s.Unpacks) (f := fun _ => arrayType rtype), ← htypes, ← hbytes]
    exact hrun rest
  · intro rest w rest' hunpack hw
    rw [List.append_assoc, unpacks_array h] at hunpack
    obtain ⟨size, s₁, ws, hsize, hrun, rfl⟩ := hunpack
    rw [unpackUnsignedInt_pack] at hsize
    cases hsize
    rw [Variant.meaning_array_inj] at hw
    have hlen : ps.length = u32 ps.length := by
      have := congrArg List.length hw
      rw [List.length_map, hrun.length_eq] at this
      simpa using this.symm
    rw [← hlen] at hrun
    have hrun' : Run s.Unpacks (parts.map Prod.fst) (parts.flatMap (·.2.2) ++ rest) ws rest' := by
      rw [htypes, Run.map_iff, hbytes]
      exact hrun
    exact hreached.2 ⟨hlen ▸ u32_lt _, representable_parts hparts hrun' (hw.trans hmeaning.symm)⟩

theorem roundTrips_object {vo : List (Bytes × Variant)} {ps : List (Field × Variant × Bytes)}
    (h : s.AsObject type rtype) (hfields : s.FieldsOf rtype (ps.map Prod.fst))
    (hexact : s.ExactFields (type, .object vo)) (hnames : s.PlainNames (type, .object vo))
    (hlookup : ∀ p ∈ ps, vo.lookup (cString p.1.name.toBytes) = some p.2.1)
    (hps : ∀ p ∈ ps, s.RoundTrips p.1.type p.2.1 p.2.2) :
    s.RoundTrips type (.object vo) (ps.flatMap (·.2.2)) := by
  obtain ⟨hnodup, hkeys⟩ := hexact rtype _ vo rfl h hfields
  have hcstring : ∀ p ∈ ps, cString p.1.name.toBytes = p.1.name.toBytes := fun p hp =>
    cString_of_notMem ((hnames rtype h).2 _ hfields p.1 (List.mem_map_of_mem hp))
  let parts : List (TypeName × Variant × Bytes) := ps.map fun p => (p.1.type, p.2)
  let values : List (Bytes × Variant) := ps.map fun p => (p.1.name.toBytes, p.2.1)
  have hparts : ∀ p ∈ parts, s.RoundTrips p.1 p.2.1 p.2.2 := List.forall_mem_map.2 hps
  have htypes : parts.map Prod.fst = (ps.map Prod.fst).map Field.type := by
    simp [parts]
  have hbytes : parts.flatMap (·.2.2) = ps.flatMap (·.2.2) := by
    simp [parts, List.flatMap_map]
  have hnamelist : values.map Prod.fst = (ps.map Prod.fst).map (·.name.toBytes) := by
    simp [values]
  have hmeaning : parts.map (·.2.1.meaning) = values.map (·.2.meaning) := by
    simp [parts, values]
  have hvalues : ∀ p ∈ values, vo.lookup p.1 = some p.2 := by
    refine List.forall_mem_map.2 fun p hp => ?_
    rw [← hlookup p hp, hcstring p hp]
  have hzip : ∀ ws : List Variant, ws.length = values.length →
      ((Variant.object ((values.map Prod.fst).zip ws)).meaning = (Variant.object vo).meaning ↔
        (values.map Prod.fst).Nodup ∧ ws.map Variant.meaning = values.map (·.2.meaning)) :=
    fun ws hlen => meaning_zip_iff hvalues hnodup (by rwa [hnamelist]) hlen
  have hreached : (∀ q, s.Reached (type, .object vo) q → s.Representable q) ↔
      (values.map Prod.fst).Nodup ∧
        ∀ p ∈ parts, ∀ q, s.Reached (p.1, p.2.1) q → s.Representable q := by
    rw [forall_reached_iff]
    refine and_congr ?_ ⟨fun hall p hp => ?_, fun hall p hp => ?_⟩
    · rw [hnamelist]
      constructor
      · exact fun hrep => hrep.1 rtype _ vo rfl h hfields
      · intro hdistinct
        refine ⟨fun r fields _ _ hr hfs => ?_, fun _ _ hvar => Variant.noConfusion hvar⟩
        obtain rfl := h.1.unique hr.1
        rwa [hfields.unique hfs]
    · obtain ⟨f, hf, rfl⟩ := List.mem_map.1 hp
      exact hall _ (.field h hfields (List.mem_map_of_mem hf) (hlookup f hf))
    · cases hp with
      | @field _ r _ fields field var hr hfs hmem hvar =>
        obtain rfl := h.1.unique hr.1
        rw [hfields.unique hfs] at hmem
        obtain ⟨f, hf, rfl⟩ := List.mem_map.1 hmem
        rw [hlookup f hf] at hvar
        cases hvar
        exact hall (f.1.type, f.2) (List.mem_map_of_mem hf)
  constructor
  · rw [hreached]
    rintro ⟨hdistinct, hrep⟩
    obtain ⟨ws, hws, hrun⟩ := unpacks_parts hparts hrep
    have hlen : ws.length = values.length := by
      simpa [parts, values] using congrArg List.length hws
    refine ⟨_, (hzip ws hlen).2 ⟨hdistinct, hws.trans hmeaning⟩, fun rest => ?_⟩
    rw [unpacks_object h, hnamelist]
    refine ⟨_, (unpacksObject_iff hfields).2 (run_unpacksField_iff.2 ⟨ws, ?_, rfl⟩), rfl⟩
    rw [← htypes, ← hbytes]
    exact hrun rest
  · intro rest w rest' hunpack hw
    rw [unpacks_object h] at hunpack
    obtain ⟨obj, hobj, rfl⟩ := hunpack
    rw [unpacksObject_iff hfields, run_unpacksField_iff] at hobj
    obtain ⟨ws, hrun, rfl⟩ := hobj
    have hlen : ws.length = values.length := by
      simpa [values] using hrun.length_eq
    rw [← hnamelist, hzip ws hlen] at hw
    have hrun' : Run s.Unpacks (parts.map Prod.fst) (parts.flatMap (·.2.2) ++ rest) ws rest' := by
      rw [htypes, hbytes]
      exact hrun
    exact hreached.2 ⟨hw.1, representable_parts hparts hrun' (hw.2.trans hmeaning.symm)⟩

theorem roundTrips_of_pack (hpack : s.packVariant n type var = some bytes)
    (h : ∀ q, s.Reached (type, var) q → s.Sound q) : s.RoundTrips type var bytes := by
  induction n using Nat.strong_induction_on generalizing type var bytes with
  | _ n ih =>
    have hself := h _ .refl
    obtain ⟨rtype, hres⟩ := resolves_of_pack hpack
    rcases hb : s.findBuiltIn (arrayType rtype) with _ | btype
    · rcases harr : isArray rtype with _ | _
      · have hobject : s.AsObject type rtype := ⟨hres, hb, harr⟩
        obtain ⟨vo, rfl, ps, hfields, rfl, hps⟩ := pack_object hobject (hself.names rtype hobject).1 hpack
        let value (p : Field × Bytes) : Variant := (vo.lookup (cString p.1.name.toBytes)).getD .null
        have hfst : (ps.map fun p => (p.1, value p, p.2)).map Prod.fst = ps.map Prod.fst := by simp
        have hsnd : (ps.map fun p => (p.1, value p, p.2)).flatMap (·.2.2) = ps.flatMap Prod.snd := by
          rw [List.flatMap_map]
        have hvalue : ∀ p ∈ ps, vo.lookup (cString p.1.name.toBytes) = some (value p) ∧
            ∃ m < n, s.packVariant m p.1.type (value p) = some p.2 := by
          intro p hp
          obtain ⟨x, hx, hpx⟩ := hps p hp
          have hval : value p = x := by simp only [value, hx, Option.getD_some]
          rw [hval]
          exact ⟨hx, hpx⟩
        rw [← hsnd]
        refine roundTrips_object hobject (hfst.symm ▸ hfields) hself.fields hself.names
          (List.forall_mem_map.2 fun p hp => (hvalue p hp).1) (List.forall_mem_map.2 fun p hp => ?_)
        obtain ⟨hlookup, m, hm, hpx⟩ := hvalue p hp
        exact ih m hm hpx fun q hq =>
          h q (.head (.field hobject hfields (List.mem_map_of_mem hp) hlookup) hq)
      · obtain ⟨m, hm, ps, rfl, rfl, hps⟩ := pack_array ⟨hres, hb, harr⟩ hpack
        exact roundTrips_array ⟨hres, hb, harr⟩ fun p hp => ih m hm (hps p hp) fun q hq =>
          h q (.head (.element ⟨hres, hb, harr⟩ (List.mem_map_of_mem hp)) hq)
    · exact roundTrips_builtIn hres hb hself.codec hpack

theorem pack_of_variantToBinary {fuel : ℕ} (htype : s.isType fuel type = some true)
    (hpack : s.variantToBinary fuel type var = some bytes) :
    s.packVariant fuel type var = some bytes := by
  simp only [variantToBinary, htype, Option.bind_eq_bind, Option.bind_some, if_true,
    Option.bind_eq_some_iff] at hpack
  obtain ⟨temp, htemp, -, -, hbytes⟩ := hpack
  cases hbytes
  exact htemp

/-- Where no base goes by the name of a built-in type and the names of the fields have no zeros in them,
what was packed unpacks to the variant, with no byte left, exactly if no object reached is of a struct
that declares a field twice, its bases included, and no array reached has 2^32 elements. -/
theorem unpack_pack_iff {fuel : ℕ} (htype : s.isType fuel type = some true)
    (hpack : s.variantToBinary fuel type var = some bytes)
    (hcodecs : ∀ q, s.Reached (type, var) q → s.CodecRoundTrips q)
    (hfields : ∀ q, s.Reached (type, var) q → s.ExactFields q)
    (hnames : ∀ q, s.Reached (type, var) q → s.PlainNames q) :
    (∃ fuel' w, s.binaryToVariant fuel' type bytes = some (w, []) ∧ w.meaning = var.meaning) ↔
      ∀ q, s.Reached (type, var) q → s.Representable q := by
  have hround := roundTrips_of_pack (pack_of_variantToBinary htype hpack) fun q hq =>
    ⟨hcodecs q hq, hfields q hq, hnames q hq⟩
  constructor
  · rintro ⟨fuel', w, hw, hmeaning⟩
    have hunpacks : s.Unpacks type (bytes ++ []) w [] := ⟨fuel', by rwa [List.append_nil]⟩
    exact hround.representable hunpacks hmeaning
  · intro hrep
    obtain ⟨w, hmeaning, hunpacks⟩ := hround.unpacks hrep
    obtain ⟨fuel', hw⟩ := hunpacks []
    rw [List.append_nil] at hw
    exact ⟨fuel', w, hw, hmeaning⟩

end Main

end AbiSerializer

/-! ## An ABI that takes the name of a built-in type -/

section Example

open AbiSerializer

def packString (bytes : Bytes) : Bytes := packUnsignedInt bytes.length ++ bytes

def unpackString : Reader ℕ Bytes := do
  let size ← unpackUnsignedInt
  fun s => if size ≤ s.length then some (s.take size, s.drop size) else none

/-- Names of types and fields, up to the length that both hold. -/
def sampleNameCodec : BuiltInCodec where
  pack
    | .string bytes, false => if bytes.length ≤ 16 then some (packString bytes) else none
    | _, _ => none
  unpack
    | false => do pure (.string (← unpackString))
    | true => StateT.lift none

def nameKey : Bytes := (FieldName.ofString "name").toBytes

def typeKey : Bytes := (FieldName.ofString "type").toBytes

/-- A field is packed as its name and its type, in whatever order the object has them. -/
def sampleFieldCodec : BuiltInCodec where
  pack
    | .object [(k, v), (k', v')], false => do
      let (name, type) ← (if k = nameKey ∧ k' = typeKey then some (v, v')
        else if k = typeKey ∧ k' = nameKey then some (v', v) else none)
      pure ((← sampleNameCodec.pack name false) ++ (← sampleNameCodec.pack type false))
    | _, _ => none
  unpack
    | false => do
      let name ← sampleNameCodec.unpack false
      let type ← sampleNameCodec.unpack false
      pure (.object [(nameKey, name), (typeKey, type)])
    | true => StateT.lift none

def sampleCodecs (type : TypeName) : BuiltInCodec :=
  if type = TypeName.ofString "field" then sampleFieldCodec else sampleNameCodec

def makeStruct (name base : String) (fields : List (String × String)) : StructT :=
  ⟨TypeName.ofString name, TypeName.ofString base,
    fields.map fun f => ⟨FieldName.ofString f.1, TypeName.ofString f.2⟩⟩

def columnType : TypeName := TypeName.ofString "column"

def columnVar : Variant := .object [(typeKey, .string [98]), (nameKey, .string [97])]

/-- An ABI of structs, and its serializer. -/
def structAbi (structs : List StructT) : Abi := ⟨[], structs, [], []⟩

def structSerializer (structs : List StructT) : AbiSerializer :=
  ⟨.empty, .ofList (structs.map fun st => (st.name, st)), .empty, .empty, sampleCodecs, fun _ => none⟩

/-- A column is a field, and this ABI has fields of its own. -/
def ownFields : List StructT :=
  [makeStruct "field" "" [("type", "type_name"), ("name", "field_name")], makeStruct "column" "field" []]

def namedColumns : List StructT :=
  [makeStruct "named" "" [("name", "field_name")], makeStruct "column" "named" [("type", "type_name")]]

theorem unpackString_pack {bytes : Bytes} (h : bytes.length < 2 ^ 32) (rest : Bytes) :
    unpackString.run (packString bytes ++ rest) = some (bytes, rest) := by
  have hlen : u32 bytes.length = bytes.length := u32_of_lt h
  refine bind_run.2 ⟨bytes.length, bytes ++ rest, ?_, ?_⟩
  · rw [packString, List.append_assoc, unpackUnsignedInt_pack, hlen]
  · simp [StateT.run]

theorem sampleNameCodec_pack {v : Variant} {bytes : Bytes} {b : Bool} (h : sampleNameCodec.pack v b = some bytes) :
    b = false ∧ ∀ rest, (sampleNameCodec.unpack b).run (bytes ++ rest) = some (v, rest) := by
  cases v <;> cases b <;> simp only [sampleNameCodec, reduceCtorEq] at h
  case string.false name =>
    split_ifs at h with hlen
    cases h
    exact ⟨rfl, fun rest => bind_run.2 ⟨name, rest, unpackString_pack (by omega) rest, rfl⟩⟩

theorem nameKey_ne_typeKey : nameKey ≠ typeKey := by decide

theorem sampleFieldCodec_pack {v : Variant} {bytes : Bytes} {b : Bool} (h : sampleFieldCodec.pack v b = some bytes) :
    ∃ w, w.meaning = v.meaning ∧ ∀ rest, (sampleFieldCodec.unpack b).run (bytes ++ rest) = some (w, rest) := by
  simp only [sampleFieldCodec] at h
  split at h
  · rename_i k v k' v'
    simp only [Option.bind_eq_bind, Option.bind_eq_some_iff] at h
    obtain ⟨⟨name, type⟩, horder, namebytes, hname, typebytes, htype, hbytes⟩ := h
    cases hbytes
    refine ⟨.object [(nameKey, name), (typeKey, type)], ?_, fun rest => ?_⟩
    · rw [Variant.meaning_object_inj]
      split_ifs at horder with hdirect hcrossed
      · cases horder
        rw [hdirect.1, hdirect.2]
        exact fun _ => rfl
      · cases horder
        rw [hcrossed.1, hcrossed.2]
        intro key
        by_cases hname : nameKey = key <;> by_cases htype : typeKey = key <;>
          simp [valuesOf, hname, htype]
        exact absurd (hname.trans htype.symm) nameKey_ne_typeKey
    · have hn := (sampleNameCodec_pack hname).2 (typebytes ++ rest)
      have ht := (sampleNameCodec_pack htype).2 rest
      rw [← List.append_assoc] at hn
      exact bind_run.2 ⟨name, _, hn, bind_run.2 ⟨type, _, ht, rfl⟩⟩
  · cases h

theorem sampleCodecs_roundTrip {s : AbiSerializer} (h : s.codecs = sampleCodecs)
    (q : TypeName × Variant) : s.CodecRoundTrips q := by
  intro rtype btype bytes _ hb hpack
  rw [findBuiltIn, h] at hb
  split_ifs at hb
  cases hb
  rw [sampleCodecs] at hpack ⊢
  split_ifs at hpack ⊢
  · exact sampleFieldCodec_pack hpack
  · exact ⟨q.2, rfl, (sampleNameCodec_pack hpack).2⟩

theorem resolves_of_noTypedefs {s : AbiSerializer} (h : ∀ type, s.typedefs.find? type = none)
    {type rtype : TypeName} : s.Resolves type rtype ↔ rtype = type := by
  constructor
  · rintro ⟨_ | fuel, hres⟩
    · cases hres
    · rw [resolveType, h] at hres
      exact (Option.some.inj hres).symm
  · rintro rfl
    exact ⟨1, by rw [resolveType, h]⟩

section StructSerializer

variable {structs : List StructT} {type rtype : TypeName} {fields : List Field}

theorem resolves_structSerializer : (structSerializer structs).Resolves type rtype ↔ rtype = type :=
  resolves_of_noTypedefs fun _ => rfl

theorem structOf_structSerializer {st : StructT} :
    (structSerializer structs).StructOf type st ↔
      (structSerializer structs).structs.find? type = some st := by
  constructor
  · rintro ⟨fuel, h⟩
    obtain ⟨r, hr, hst⟩ := Option.bind_eq_some_iff.1 h
    rwa [← resolves_structSerializer.1 ⟨fuel, hr⟩]
  · exact fun h => ⟨1, h⟩

theorem findBuiltIn_ne_none (h : (structSerializer structs).Resolves type rtype)
    (hb : isBuiltinType (arrayType type) = true) :
    (structSerializer structs).findBuiltIn (arrayType rtype) ≠ none := by
  rw [resolves_structSerializer.1 h, findBuiltIn, if_pos hb]
  simp

theorem exactFields_leaf (q : TypeName × Variant) (hb : isBuiltinType (arrayType q.1) = true) :
    (structSerializer structs).ExactFields q := fun _ _ _ _ h =>
  absurd h.2.1 (findBuiltIn_ne_none h.1 hb)

theorem plainNames_leaf (q : TypeName × Variant) (hb : isBuiltinType (arrayType q.1) = true) :
    (structSerializer structs).PlainNames q := fun _ h =>
  absurd h.2.1 (findBuiltIn_ne_none h.1 hb)

theorem representable_leaf (q : TypeName × Variant) (hb : isBuiltinType (arrayType q.1) = true) :
    (structSerializer structs).Representable q :=
  ⟨fun _ _ _ _ h => absurd h.2.1 (findBuiltIn_ne_none h.1 hb),
    fun _ _ _ h => absurd h.2.1 (findBuiltIn_ne_none h.1 hb)⟩

/-- A column whose fields are of built-in types has no parts but those. -/
theorem forall_reached_column {P : TypeName × Variant → Prop} {vo : List (Bytes × Variant)}
    (hfields : (structSerializer structs).FieldsOf columnType fields)
    (hbuiltIn : ∀ field ∈ fields, isBuiltinType (arrayType field.type) = true)
    (hroot : P (columnType, .object vo))
    (hleaf : ∀ q : TypeName × Variant, isBuiltinType (arrayType q.1) = true → P q) :
    ∀ q, (structSerializer structs).Reached (columnType, .object vo) q → P q := by
  have hnoPart : ∀ q p, isBuiltinType (arrayType q.1) = true → ¬ (structSerializer structs).Part q p := by
    intro q p hq hp
    cases hp with
    | element h _ => exact findBuiltIn_ne_none h.1 hq h.2.1
    | field h _ _ _ => exact findBuiltIn_ne_none h.1 hq h.2.1
  refine forall_reached_iff.2 ⟨hroot, fun p hp => ?_⟩
  have hp' : isBuiltinType (arrayType p.1) = true := by
    cases hp with
    | field h hfs hmem _ =>
      rw [resolves_structSerializer.1 h.1] at hfs
      rw [hfields.unique hfs] at hmem
      exact hbuiltIn _ hmem
  exact forall_reached_iff.2 ⟨hleaf p hp', fun p' hpart => absurd hpart (hnoPart p p' hp')⟩

theorem exactFields_column {vo : List (Bytes × Variant)}
    (hfields : (structSerializer structs).FieldsOf columnType fields)
    (hnodup : (vo.map Prod.fst).Nodup)
    (hperm : (vo.map Prod.fst).Perm (fields.map (·.name.toBytes))) :
    (structSerializer structs).ExactFields (columnType, .object vo) := by
  intro rtype fields' vo' hvo h hfs
  cases hvo
  rw [resolves_structSerializer.1 h.1] at hfs
  rw [hfields.unique hfs]
  exact ⟨hnodup, fun key => hperm.mem_iff⟩

end StructSerializer

/-- The types of the ABI, and the number of steps in which each can lead on. -/
def ownFieldsTypes : List (TypeName × ℕ) :=
  [(columnType, 2), (TypeName.ofString "field", 1), (TypeName.ofString "type_name", 0),
    (TypeName.ofString "field_name", 0)]

theorem ownFields_structs :
    (structSerializer ownFields).structs.find? (TypeName.ofString "field") =
      some (makeStruct "field" "" [("type", "type_name"), ("name", "field_name")]) ∧
    (makeStruct "field" "" [("type", "type_name"), ("name", "field_name")]).base = TypeName.empty ∧
    (structSerializer ownFields).structs.find? columnType = some (makeStruct "column" "field" []) ∧
    (makeStruct "column" "field" []).base ≠ TypeName.empty ∧
    (∀ t ∈ ownFieldsTypes, isArray t.1 = false) ∧
    (∀ t ∈ ownFieldsTypes, ∀ st ∈ (structSerializer ownFields).structs.find? t.1,
      (st.base = TypeName.empty ∨ ∃ m < t.2, (st.base, m) ∈ ownFieldsTypes) ∧
        ∀ field ∈ st.fields, ∃ m < t.2, (field.type, m) ∈ ownFieldsTypes) ∧
    (∀ r ∈ (structSerializer ownFields).structs.rows, ∃ n < 3, (r.1, n) ∈ ownFieldsTypes) ∧
    ∀ t ∈ ownFieldsTypes, ∀ t' ∈ ownFieldsTypes, t.1 = t'.1 → t.2 = t'.2 := by
  decide

theorem fieldsOf_ownFields : (structSerializer ownFields).FieldsOf columnType
    (makeStruct "field" "" [("type", "type_name"), ("name", "field_name")]).fields := by
  obtain ⟨hfield, hroot, hcolumn, hbase, -⟩ := ownFields_structs
  have h := FieldsOf.derived (structOf_structSerializer.2 hcolumn) hbase (resolves_structSerializer.2 rfl)
    (.root (structOf_structSerializer.2 hfield) hroot)
  simpa [makeStruct] using h

theorem mentions_ownFields {type type' : TypeName} {n : ℕ} (h : (type, n) ∈ ownFieldsTypes)
    (hm : (structSerializer ownFields).Mentions type type') :
    ∃ m < n, (type', m) ∈ ownFieldsTypes := by
  obtain ⟨-, -, -, -, harrays, hstructs, -⟩ := ownFields_structs
  cases hm with
  | target htarget => cases htarget
  | element harray =>
    rw [harrays _ h] at harray
    cases harray
  | base hst hbase => exact (hstructs _ h _ hst).1.resolve_left hbase
  | field hst hfield => exact (hstructs _ h _ hst).2 _ hfield

theorem noStructInItself_ownFields : (structSerializer ownFields).NoStructInItself := by
  have hrank : ∀ {type type' : TypeName} {n : ℕ}, (type, n) ∈ ownFieldsTypes →
      TransGen (structSerializer ownFields).Mentions type type' → ∃ m < n, (type', m) ∈ ownFieldsTypes := by
    intro type type' n hn h
    induction h with
    | single h => exact mentions_ownFields hn h
    | tail _ h ih =>
      obtain ⟨m, hm, hmem⟩ := ih
      obtain ⟨k, hk, hmem'⟩ := mentions_ownFields hmem h
      exact ⟨k, hk.trans hm, hmem'⟩
  obtain ⟨-, -, -, -, -, -, hrows, hone⟩ := ownFields_structs
  intro type st hst hcycle
  obtain ⟨n, -, hn⟩ := hrows _ (Table.mem_rows_of_find? hst)
  obtain ⟨m, hm, hm'⟩ := hrank hn hcycle
  exact hm.ne (hone _ hm' _ hn rfl)

theorem namedColumns_structs :
    (structSerializer namedColumns).structs.find? (TypeName.ofString "named") =
      some (makeStruct "named" "" [("name", "field_name")]) ∧
    (makeStruct "named" "" [("name", "field_name")]).base = TypeName.empty ∧
    (structSerializer namedColumns).structs.find? columnType =
      some (makeStruct "column" "named" [("type", "type_name")]) ∧
    (makeStruct "column" "named" [("type", "type_name")]).base ≠ TypeName.empty ∧
    isBuiltinType (arrayType (TypeName.ofString "named")) = false ∧
    (∀ field ∈ namedColumns.flatMap StructT.fields, isBuiltinType (arrayType field.type) = true ∧
      0 ∉ field.name.toBytes) ∧
    (namedColumns.flatMap StructT.fields).map (·.name.toBytes) = [nameKey, typeKey] ∧
    (structSerializer namedColumns).isType 9 columnType = some true ∧
    (structSerializer namedColumns).variantToBinary 9 columnType columnVar = some [1, 97, 1, 98] := by
  decide

theorem fieldsOf_namedColumns :
    (structSerializer namedColumns).FieldsOf columnType (namedColumns.flatMap StructT.fields) := by
  obtain ⟨hnamed, hroot, hcolumn, hbase, -⟩ := namedColumns_structs
  have h := FieldsOf.derived (structOf_structSerializer.2 hcolumn) hbase (resolves_structSerializer.2 rfl)
    (.root (structOf_structSerializer.2 hnamed) hroot)
  simpa [namedColumns] using h

theorem noBuiltInBase_namedColumns {base : TypeName}
    (h : TransGen (structSerializer namedColumns).HasBase columnType base) :
    base = TypeName.ofString "named" := by
  obtain ⟨hnamed, hroot, hcolumn, -⟩ := namedColumns_structs
  induction h with
  | single h =>
    obtain ⟨st, hst, -, hres⟩ := h
    rw [structOf_structSerializer, hcolumn] at hst
    cases hst
    exact resolves_structSerializer.1 hres
  | tail _ h ih =>
    obtain ⟨st, hst, hbase, -⟩ := h
    rw [structOf_structSerializer, ih, hnamed] at hst
    cases hst
    exact absurd hroot hbase

/-- What `unpack_pack_iff` says of an inherited struct. -/
theorem named_column_round_trips : ∃ fuel w,
    (structSerializer namedColumns).binaryToVariant fuel columnType [1, 97, 1, 98] = some (w, []) ∧
      w.meaning = columnVar.meaning := by
  obtain ⟨-, -, -, -, hnamed, hplain, hkeys, htype, hpack⟩ := namedColumns_structs
  have hfields := fieldsOf_namedColumns
  have hnodup : [nameKey, typeKey].Nodup := by simpa using nameKey_ne_typeKey
  have hperm : [typeKey, nameKey].Perm [nameKey, typeKey] := .swap _ _ _
  refine (unpack_pack_iff htype hpack (fun q _ => sampleCodecs_roundTrip rfl q)
    (forall_reached_column hfields (fun field hmem => (hplain field hmem).1)
      (exactFields_column hfields (hperm.nodup_iff.2 hnodup) (hkeys ▸ hperm)) exactFields_leaf)
    (forall_reached_column hfields (fun field hmem => (hplain field hmem).1) ?_ plainNames_leaf)).2
    (forall_reached_column hfields (fun field hmem => (hplain field hmem).1)
      ⟨?_, fun _ _ hvar => Variant.noConfusion hvar⟩ representable_leaf)
  · intro rtype h
    rw [resolves_structSerializer.1 h.1]
    refine ⟨fun base hbase => ?_, fun fields hfs => ?_⟩
    · rw [noBuiltInBase_namedColumns hbase, findBuiltIn, hnamed]
      rfl
    · rw [hfields.unique hfs]
      exact fun field hmem => (hplain field hmem).2
  · intro rtype fields _ _ h hfs
    rw [resolves_structSerializer.1 h.1] at hfs
    rw [hfields.unique hfs, hkeys]
    exact hnodup

/-- The base of a column is packed as a built-in type and unpacked as the struct of that name, which has
the same fields in another order. -/
theorem base_unpacked_as_another_struct :
    ∃ s, setAbi sampleCodecs (fun _ => none) 9 (structAbi ownFields) = some s ∧
      s.validate 9 = some () ∧ s.NoStructInItself ∧ s.isType 9 columnType = some true ∧
      (∀ q, s.CodecRoundTrips q) ∧
      (∀ q, s.Reached (columnType, columnVar) q → s.ExactFields q) ∧
      s.variantToBinary 9 columnType columnVar = some [1, 97, 1, 98] ∧
      ¬ ∃ fuel w rest, s.binaryToVariant fuel columnType [1, 97, 1, 98] = some (w, rest) ∧
        w.meaning = columnVar.meaning := by
  have hfields := fieldsOf_ownFields
  refine ⟨structSerializer ownFields, rfl, by decide, noStructInItself_ownFields,
    by decide, sampleCodecs_roundTrip rfl, ?_, by decide, ?_⟩
  · exact forall_reached_column hfields (by decide)
      (exactFields_column hfields (by decide) (by decide)) exactFields_leaf
  · rintro ⟨fuel, w, rest, hw, hmeaning⟩
    have hunpacks : (structSerializer ownFields).Unpacks columnType [1, 97, 1, 98]
        (.object [(typeKey, .string [97]), (nameKey, .string [98])]) [] := ⟨9, rfl⟩
    obtain ⟨rfl, -⟩ := hunpacks.unique ⟨fuel, hw⟩
    have htype := Variant.meaning_object_inj.1 hmeaning typeKey
    simp [valuesOf, nameKey_ne_typeKey, Variant.meaning] at htype

end Example

end XmaxChain
