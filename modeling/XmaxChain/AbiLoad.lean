import XmaxChain.Abi
import XmaxChain.Lib.Fuel
import XmaxChain.Lib.Paths

/-!
# Loading an ABI

What the serializer does with an ABI before it is used, with a throw told from a call that does not
return. A typedef may take the name of a struct that was there before it, and with a `[]` that `is_type`
takes off it may then come back to itself, which only the search along exact names is kept from.
-/

namespace XmaxChain

open Abi Fuel Paths Relation

instance : LawfulBEq TypeName := inferInstance

namespace AbiSerializer

variable (s : AbiSerializer)

/-- `abi_serializer(abi)`, and then `validate()`. -/
def loadAbi (codecs : TypeName → BuiltInCodec) (asBytes : Variant → Option Bytes) (fuel : ℕ) (abi : Abi) :
    Fueled Unit AbiSerializer := do
  let s ← setAbiCall codecs asBytes fuel abi
  s.validateCall fuel
  pure s

theorem result_getStructCall {fuel : ℕ} (type : TypeName) :
    result (s.getStructCall fuel type) = s.getStruct fuel type := by
  rw [getStructCall, getStruct, result_bind, result_lift]
  congr 1
  funext rtype
  rcases s.structs.find? rtype <;> rfl

/-! ## Along the typedefs -/

/-- `is_type` goes on with this name. -/
def Leads (x y : TypeName) : Prop :=
  isBuiltinType (arrayType x) = false ∧ s.typedefs.find? (arrayType x) = some y

/-- `resolve_type` goes on with this name. -/
def Names (x y : TypeName) : Prop := s.typedefs.find? x = some y

def targets : List TypeName := s.typedefs.rows.map Prod.snd

def Known (type : TypeName) : Prop := ∃ fuel, s.isType fuel type = some true

section Walk

variable {s} {type target : TypeName} {n : ℕ}

theorem isType_ne_none_iff : s.isType n type ≠ none ↔ Within s.Leads n type := by
  induction n generalizing type with
  | zero => simp [isType, Within]
  | succ n ih =>
    rw [isType]
    rcases hbuiltin : isBuiltinType (arrayType type)
    · rcases hfind : s.typedefs.find? (arrayType type) with _ | target
      · simp [Within, Leads, hfind]
      · simp [Within, Leads, hfind, hbuiltin, ← ih]
    · simp [Within, Leads, hbuiltin]

theorem resolveType_ne_none_iff : s.resolveType n type ≠ none ↔ Within s.Names n type := by
  induction n generalizing type with
  | zero => simp [resolveType, Within]
  | succ n ih =>
    rw [resolveType]
    rcases hfind : s.typedefs.find? type with _ | target
    · simp [Within, Names, hfind]
    · simp [Within, Names, hfind, ← ih]

theorem mem_targets_of_find? (h : s.typedefs.find? type = some target) : target ∈ s.targets :=
  List.mem_map.2 ⟨_, Table.mem_rows_of_find? h, rfl⟩

theorem within_leads (hcycle : ¬ MeetsCycle s.Leads type) (hn : s.targets.length < n) : Within s.Leads n type :=
  within_of_not_meetsCycle (fun _ _ h => mem_targets_of_find? h.2) hcycle hn

theorem within_names (hcycle : ¬ MeetsCycle s.Names type) (hn : s.targets.length < n) : Within s.Names n type :=
  within_of_not_meetsCycle (fun _ _ h => mem_targets_of_find? h) hcycle hn

end Walk

/-! ## Entering the typedefs -/

/-- The serializer with these typedefs entered. -/
def entered (s : AbiSerializer) (tds : List TypeDef) : AbiSerializer :=
  tds.foldl (fun s td => { s with typedefs := s.typedefs.assign td.newTypeName td.type }) s

/-- Each type is known when it is entered. -/
def AllKnown (s : AbiSerializer) : List TypeDef → Prop
  | [] => True
  | td :: tds => s.Known td.type ∧ AllKnown (s.entered [td]) tds

/-- No type that is come to, all before it being known, leads to a cycle. -/
def EnterEnds (s : AbiSerializer) : List TypeDef → Prop
  | [] => True
  | td :: tds => ¬ MeetsCycle s.Leads td.type ∧ (s.Known td.type → EnterEnds (s.entered [td]) tds)

section Enter

variable {s} {tds : List TypeDef} {n : ℕ}

theorem addTypesCall_ok {s' : AbiSerializer} (h : (addTypesCall n s tds).run = some (.ok s')) :
    s.AllKnown tds ∧ s' = s.entered tds := by
  induction tds generalizing s with
  | nil =>
    cases h
    exact ⟨trivial, rfl⟩
  | cons td tds ih =>
    rw [addTypesCall, bind_returns] at h
    obtain ⟨known, hknown, h⟩ := h
    rw [bind_returns] at h
    obtain ⟨_, hrequire, h⟩ := h
    rw [lift_eq_ok] at hknown
    obtain ⟨hrest, hs'⟩ := ih h
    exact ⟨⟨⟨n, hknown.trans (congrArg some (require_eq_ok.1 hrequire))⟩, hrest⟩, hs'⟩

theorem length_targets_entered (td : TypeDef) : (s.entered [td]).targets.length ≤ s.targets.length + 1 := by
  simp only [entered, List.foldl_cons, List.foldl_nil, targets, Table.assign, Table.remove, List.length_map,
    List.length_cons]
  exact Nat.add_le_add_right (List.length_filter_le _ _) 1

/-- With fuel for as many typedefs as there are, entering them ends. -/
theorem addTypesCall_ne_none (h : s.EnterEnds tds) (hn : s.targets.length + tds.length < n) :
    (addTypesCall n s tds).run ≠ none := by
  induction tds generalizing s with
  | nil => exact nofun
  | cons td tds ih =>
    obtain ⟨hcycle, hrest⟩ := h
    rw [List.length_cons] at hn
    rw [addTypesCall, Ne, bind_pends, lift_eq_none, not_or]
    refine ⟨isType_ne_none_iff.2 (within_leads hcycle (by omega)), ?_⟩
    rintro ⟨known, hknown, hnone⟩
    rw [lift_eq_ok] at hknown
    rw [bind_pends] at hnone
    rcases hnone with hnone | ⟨_, hrequire, hnone⟩
    · exact require_ne_none hnone
    · rw [require_eq_ok] at hrequire
      have hlength := length_targets_entered (s := s) td
      exact ih (hrest ⟨n, hrequire ▸ hknown⟩) (by omega) hnone

/-- On the way to a cycle it does not return. -/
theorem addTypesCall_eq_none (h : ¬ s.EnterEnds tds) : (addTypesCall n s tds).run = none := by
  induction tds generalizing s with
  | nil => exact absurd trivial h
  | cons td tds ih =>
    rw [addTypesCall, bind_pends, lift_eq_none]
    by_contra hsome
    obtain ⟨hsome, hrest⟩ := not_or.1 hsome
    have hcycle : ¬ MeetsCycle s.Leads td.type := fun hcycle =>
      not_within_of_meetsCycle hcycle n (isType_ne_none_iff.1 hsome)
    rw [EnterEnds, not_and, Classical.not_imp] at h
    obtain ⟨⟨m, hm⟩, hends⟩ := h hcycle
    obtain ⟨known, hknown⟩ := Option.ne_none_iff_exists'.1 hsome
    have htrue : known = true := by
      have hm' := isType_mono (le_max_left m n) hm
      rw [isType_mono (le_max_right m n) hknown] at hm'
      exact Option.some.inj hm'
    exact hrest ⟨known, lift_eq_ok.2 hknown, bind_pends.2 (.inr ⟨⟨⟩, require_eq_ok.2 htrue, ih hends⟩)⟩

end Enter

/-! ## Validating -/

/-- No typedef is of an unknown type. -/
def TargetsKnown (s : AbiSerializer) : Prop :=
  ∀ name target, s.typedefs.find? name = some target → ∀ fuel, s.isType fuel target ≠ some false

section Validate

variable {s} {n : ℕ}

/-- What is known stays known when a typedef of a known type is entered, also one that takes the name of
a struct. -/
theorem isType_entered {td : TypeDef} {m : ℕ} {type : TypeName} (hnew : ∀ fuel, s.isType fuel td.type ≠ some false)
    (htype : ∀ fuel, s.isType fuel type ≠ some false) : (s.entered [td]).isType m type ≠ some false := by
  induction m generalizing type with
  | zero => simp [isType]
  | succ m ih =>
    have hfind : (s.entered [td]).typedefs.find? (arrayType type) =
        if arrayType type = td.newTypeName then some td.type else s.typedefs.find? (arrayType type) :=
      Table.find?_assign ..
    rw [isType, hfind]
    split_ifs with hbuiltin hname
    · simp
    · exact ih hnew
    · rcases hold : s.typedefs.find? (arrayType type) with _ | target
      · have hone := htype 1
        rwa [isType, if_neg hbuiltin, hold] at hone
      · refine ih fun fuel hfalse => htype (fuel + 1) ?_
        rw [isType, if_neg hbuiltin, hold]
        exact hfalse

theorem TargetsKnown.entered {tds : List TypeDef} (h : s.TargetsKnown) (hall : s.AllKnown tds) :
    (s.entered tds).TargetsKnown := by
  induction tds generalizing s with
  | nil => exact h
  | cons td tds ih =>
    obtain ⟨⟨m, hm⟩, hrest⟩ := hall
    have hnew : ∀ fuel, s.isType fuel td.type ≠ some false := fun fuel hfalse => by
      have hm' := isType_mono (le_max_left m fuel) hm
      rw [isType_mono (le_max_right m fuel) hfalse] at hm'
      cases hm'
    refine ih (fun name target hfind fuel => ?_) hrest
    have hfind' : (if name = td.newTypeName then some td.type else s.typedefs.find? name) = some target :=
      (Table.find?_assign ..).symm.trans hfind
    split_ifs at hfind' with hname
    · cases hfind'
      exact isType_entered hnew hnew
    · exact isType_entered hnew (h name target hfind')

/-- The search along the typedefs comes to an end, since no type is come to twice. -/
theorem validateTypedefCall_ne_none {typesSeen : List TypeName} {type : TypeName}
    (hn : (s.targets.filter (· ∉ typesSeen)).length < n) : (s.validateTypedefCall n typesSeen type).run ≠ none := by
  induction n generalizing typesSeen type with
  | zero => omega
  | succ n ih =>
    rw [validateTypedefCall]
    rcases hfind : s.typedefs.find? type with _ | target
    · exact nofun
    · simp only
      rw [Ne, bind_pends, not_or]
      refine ⟨require_ne_none, ?_⟩
      rintro ⟨_, hseen, hnone⟩
      rw [require_eq_ok] at hseen
      have hlt := length_unseen_lt (mem_targets_of_find? hfind) hseen
      exact ih (by omega) hnone

/-- When it passes, the typedefs come to an end. -/
theorem within_of_validateTypedefCall {typesSeen : List TypeName} {type : TypeName}
    (h : (s.validateTypedefCall n typesSeen type).run = some (.ok ⟨⟩)) : Within s.Names n type := by
  induction n generalizing typesSeen type with
  | zero => cases h
  | succ n ih =>
    rw [validateTypedefCall] at h
    rcases hfind : s.typedefs.find? type with _ | target <;> simp only [hfind] at h
    · exact Within.of_end (fun y hy => by rw [Names, hfind] at hy; cases hy) (Nat.succ_pos n)
    · obtain ⟨_, -, h⟩ := bind_returns.1 h
      intro y hy
      rw [Names, hfind] at hy
      cases hy
      exact ih h

/-- It throws on a cycle only. -/
theorem validateTypedefCall_cases {typesSeen : List TypeName} {type : TypeName} (hcycle : ∀ x, ¬ TransGen s.Names x x)
    (hseen : ∀ z ∈ typesSeen, ReflTransGen s.Names z type) :
    (s.validateTypedefCall n typesSeen type).run = none ∨
      (s.validateTypedefCall n typesSeen type).run = some (.ok ⟨⟩) := by
  induction n generalizing typesSeen type with
  | zero => exact .inl rfl
  | succ n ih =>
    rw [validateTypedefCall]
    rcases hfind : s.typedefs.find? type with _ | target
    · exact .inr rfl
    · simp only
      have hnew : target ∉ typesSeen := fun hmem => hcycle target (.tail' (hseen target hmem) hfind)
      have hseen' : ∀ z ∈ typesSeen ++ [target], ReflTransGen s.Names z target := by
        intro z hz
        rcases List.mem_append.1 hz with hz | hz
        · exact (hseen z hz).tail hfind
        · rw [List.mem_singleton.1 hz]
      rw [bind_pends, bind_returns]
      rcases ih hseen' with hnone | hok
      · exact .inl (.inr ⟨⟨⟩, require_eq_ok.2 hnew, hnone⟩)
      · exact .inr ⟨⟨⟩, require_eq_ok.2 hnew, hok⟩

theorem getStructCall_ne_none {type : TypeName} (hcycle : ¬ MeetsCycle s.Names type) (hn : s.targets.length < n) :
    (s.getStructCall n type).run ≠ none := by
  rw [getStructCall, Ne, bind_pends, lift_eq_none, not_or]
  refine ⟨resolveType_ne_none_iff.2 (within_names hcycle hn), ?_⟩
  rintro ⟨rtype, -, hnone⟩
  rcases hfind : s.structs.find? rtype with _ | st <;> simp only [hfind] at hnone <;> cases hnone

theorem mem_structs_of_getStructCall {type : TypeName} {st : StructT}
    (h : (s.getStructCall n type).run = some (.ok st)) : st.name ∈ s.structs.rows.map (·.2.name) := by
  obtain ⟨rtype, -, h⟩ := bind_returns.1 h
  rcases hfind : s.structs.find? rtype with _ | st' <;> simp only [hfind] at h <;> cases h
  exact List.mem_map.2 ⟨_, Table.mem_rows_of_find? hfind, rfl⟩

theorem validateBaseCall_ne_none {typesSeen : List TypeName} {current : StructT}
    (hcycle : ∀ x, ¬ MeetsCycle s.Names x)
    (hn : ((s.structs.rows.map (·.2.name)).filter (· ∉ typesSeen)).length + s.targets.length + 1 < n) :
    (s.validateBaseCall n typesSeen current).run ≠ none := by
  induction n generalizing typesSeen current with
  | zero => omega
  | succ n ih =>
    rw [validateBaseCall]
    split_ifs with hbase
    · rw [Ne, bind_pends, not_or]
      refine ⟨getStructCall_ne_none (hcycle current.base) (by omega), ?_⟩
      rintro ⟨base, hst, hnone⟩
      rcases bind_pends.1 hnone with hnone | ⟨_, hseen, hnone⟩
      · exact require_ne_none hnone
      · rw [require_eq_ok] at hseen
        have hlt := length_unseen_lt (mem_structs_of_getStructCall hst) hseen
        exact ih (by omega) hnone
    · exact nofun

theorem requireType_ne_none {type : TypeName} (hcycle : ¬ MeetsCycle s.Leads type) (hn : s.targets.length < n) :
    (s.requireType n type).run ≠ none := by
  rw [requireType, Ne, bind_pends, lift_eq_none, not_or]
  refine ⟨isType_ne_none_iff.2 (within_leads hcycle hn), ?_⟩
  rintro ⟨_, -, hnone⟩
  exact require_ne_none hnone

theorem validateStructCall_ne_none (hnames : ∀ x, ¬ MeetsCycle s.Names x) (hleads : ∀ x, ¬ MeetsCycle s.Leads x)
    (hn : s.structs.rows.length + s.targets.length + 1 < n) (st : StructT) :
    (s.validateStructCall n st).run ≠ none := by
  have hfields : (forM st.fields fun field => s.requireType n field.type).run ≠ none :=
    forM_ne_none fun field _ => requireType_ne_none (hleads field.type) (by omega)
  rw [validateStructCall]
  split_ifs
  · rw [Ne, bind_pends, not_or]
    refine ⟨validateBaseCall_ne_none hnames ?_, fun ⟨_, _, hnone⟩ => hfields hnone⟩
    have hle := List.length_filter_le (· ∉ [st.name]) (s.structs.rows.map (·.2.name))
    rw [List.length_map] at hle
    omega
  · exact hfields

theorem not_meetsCycle {R : TypeName → TypeName → Prop} (h : ∀ x, ¬ TransGen R x x) (x : TypeName) :
    ¬ MeetsCycle R x := fun ⟨y, _, hy⟩ => h y hy

/-- What the first search leaves, when it passes: `resolve_type` ends. -/
theorem within_of_typedefs_ok
    (h : (forM s.typedefs.rows fun t => s.validateTypedefCall n [t.1, t.2] t.2).run = some (.ok ⟨⟩))
    (type : TypeName) : Within s.Names (n + 1) type := by
  intro target htarget
  exact within_of_validateTypedefCall (forM_eq_ok.1 h _ (Table.mem_rows_of_find? htarget))

/-- And the second: `is_type` ends. -/
theorem within_of_targets_ok (h : (forM s.typedefs.rows fun t => s.requireType n t.2).run = some (.ok ⟨⟩))
    (type : TypeName) : Within s.Leads (n + 1) type := by
  intro target htarget
  obtain ⟨known, hknown, -⟩ := bind_returns.1 (forM_eq_ok.1 h _ (Table.mem_rows_of_find? htarget.2))
  rw [lift_eq_ok] at hknown
  exact isType_ne_none_iff.1 (by rw [hknown]; exact nofun)

theorem validateCall_ne_none (hleads : (∀ x, ¬ TransGen s.Names x x) → ∀ x, ¬ TransGen s.Leads x x)
    (hn : s.structs.rows.length + s.targets.length + 1 < n) : (s.validateCall n).run ≠ none := by
  rw [validateCall, Ne, bind_pends, not_or]
  refine ⟨forM_ne_none fun t _ => validateTypedefCall_ne_none ?_, ?_⟩
  · have hle := List.length_filter_le (· ∉ [t.1, t.2]) s.targets
    omega
  rintro ⟨_, htypedefs, hnone⟩
  have hnames : ∀ x, ¬ MeetsCycle s.Names x := fun x hcycle =>
    not_within_of_meetsCycle hcycle _ (within_of_typedefs_ok htypedefs x)
  have hleads := not_meetsCycle (hleads fun x hx => hnames x ⟨x, .refl, hx⟩)
  have htypes : ∀ {ι : Type} (is : List ι) (type : ι → TypeName),
      (forM is fun i => s.requireType n (type i)).run ≠ none := fun is type =>
    forM_ne_none fun i _ => requireType_ne_none (hleads (type i)) (by omega)
  rcases bind_pends.1 hnone with hnone | ⟨_, -, hnone⟩
  · exact htypes _ _ hnone
  rcases bind_pends.1 hnone with hnone | ⟨_, -, hnone⟩
  · exact forM_ne_none (fun st _ => validateStructCall_ne_none hnames hleads hn st.2) hnone
  rcases bind_pends.1 hnone with hnone | ⟨_, -, hnone⟩
  · exact htypes _ _ hnone
  · exact htypes _ _ hnone

/-- A cycle that goes through a `[]` is run around by `is_type`. -/
theorem validateCall_eq_none (hknown : s.TargetsKnown) (hnames : ∀ x, ¬ TransGen s.Names x x) {x : TypeName}
    (hleads : TransGen s.Leads x x) : (s.validateCall n).run = none := by
  have htypedefs : (forM s.typedefs.rows fun t => s.validateTypedefCall n [t.1, t.2] t.2).run = none ∨
      (forM s.typedefs.rows fun t => s.validateTypedefCall n [t.1, t.2] t.2).run = some (.ok ⟨⟩) := by
    have hcases : ∀ t ∈ s.typedefs.rows, (s.validateTypedefCall n [t.1, t.2] t.2).run = none ∨
        (s.validateTypedefCall n [t.1, t.2] t.2).run = some (.ok ⟨⟩) := by
      intro t ht
      refine validateTypedefCall_cases hnames fun z hz => ?_
      rcases List.mem_cons.1 hz with rfl | hz
      · exact .single (Table.find?_of_mem_rows ht)
      · rw [List.mem_singleton.1 hz]
    by_cases hsome : ∃ t ∈ s.typedefs.rows, (s.validateTypedefCall n [t.1, t.2] t.2).run = none
    · exact .inl (forM_eq_none hcases hsome)
    · exact .inr (forM_eq_ok.2 fun t ht => (hcases t ht).resolve_left fun hnone => hsome ⟨t, ht, hnone⟩)
  rw [validateCall, bind_pends]
  rcases htypedefs with hnone | hok
  · exact .inl hnone
  refine .inr ⟨⟨⟩, hok, bind_pends.2 (.inl (forM_eq_none (fun t ht => ?_) ?_))⟩
  · rcases hsome : s.isType n t.2 with _ | _ | _
    · exact .inl (bind_pends.2 (.inl (lift_eq_none.2 hsome)))
    · exact absurd hsome (hknown t.1 t.2 (Table.find?_of_mem_rows ht) n)
    · exact .inr (bind_returns.2 ⟨true, lift_eq_ok.2 hsome, require_eq_ok.2 rfl⟩)
  · obtain ⟨y, hxy, hyx⟩ := TransGen.head'_iff.1 hleads
    refine ⟨_, Table.mem_rows_of_find? hxy.2, bind_pends.2 (.inl (lift_eq_none.2 ?_))⟩
    by_contra hsome
    exact not_within_of_meetsCycle ⟨x, hyx, hleads⟩ n (isType_ne_none_iff.1 hsome)

end Validate

/-! ## More fuel -/

section Mono

variable {s} {m n : ℕ}

theorem requireType_below (hmn : m ≤ n) (type : TypeName) : Below (s.requireType m type) (s.requireType n type) :=
  (Below.lift fun _ => isType_mono hmn).bind fun _ => .refl _

theorem getStructCall_below (hmn : m ≤ n) (type : TypeName) : Below (s.getStructCall m type) (s.getStructCall n type) :=
  (Below.lift fun _ => resolveType_mono hmn).bind fun _ => .refl _

theorem addTypesCall_below (hmn : m ≤ n) (tds : List TypeDef) :
    Below (addTypesCall m s tds) (addTypesCall n s tds) := by
  induction tds generalizing s with
  | nil => exact .refl _
  | cons td tds ih => exact (Below.lift fun _ => isType_mono hmn).bind fun _ => (Below.refl _).bind fun _ => ih

theorem validateTypedefCall_below (hmn : m ≤ n) (typesSeen : List TypeName) (type : TypeName) :
    Below (s.validateTypedefCall m typesSeen type) (s.validateTypedefCall n typesSeen type) := by
  induction m generalizing n typesSeen type with
  | zero => exact fun _ h => by cases h
  | succ m ih =>
    obtain ⟨n, rfl⟩ : ∃ k, n = k + 1 := ⟨n - 1, by omega⟩
    rw [validateTypedefCall, validateTypedefCall]
    rcases s.typedefs.find? type with _ | target
    · exact .refl _
    · exact (Below.refl _).bind fun _ => ih (by omega) _ _

theorem validateBaseCall_below (hmn : m ≤ n) (typesSeen : List TypeName) (current : StructT) :
    Below (s.validateBaseCall m typesSeen current) (s.validateBaseCall n typesSeen current) := by
  induction m generalizing n typesSeen current with
  | zero => exact fun _ h => by cases h
  | succ m ih =>
    obtain ⟨n, rfl⟩ : ∃ k, n = k + 1 := ⟨n - 1, by omega⟩
    rw [validateBaseCall, validateBaseCall]
    split_ifs
    · exact (getStructCall_below (by omega) _).bind fun base => (Below.refl _).bind fun _ => ih (by omega) _ _
    · exact .refl _

theorem validateStructCall_below (hmn : m ≤ n) (st : StructT) :
    Below (s.validateStructCall m st) (s.validateStructCall n st) := by
  rw [validateStructCall, validateStructCall]
  have hfields : Below (forM st.fields fun field => s.requireType m field.type)
      (forM st.fields fun field => s.requireType n field.type) :=
    .forM_list fun field _ => requireType_below hmn field.type
  split_ifs
  · exact (validateBaseCall_below hmn _ _).bind fun _ => hfields
  · exact hfields

theorem validateCall_below (hmn : m ≤ n) : Below (s.validateCall m) (s.validateCall n) :=
  (Below.forM_list fun _ _ => validateTypedefCall_below hmn _ _).bind fun _ =>
    (Below.forM_list fun _ _ => requireType_below hmn _).bind fun _ =>
      (Below.forM_list fun _ _ => validateStructCall_below hmn _).bind fun _ =>
        (Below.forM_list fun _ _ => requireType_below hmn _).bind fun _ =>
          Below.forM_list fun _ _ => requireType_below hmn _

theorem setAbiCall_below (codecs : TypeName → BuiltInCodec) (asBytes : Variant → Option Bytes) (abi : Abi)
    (hmn : m ≤ n) : Below (setAbiCall codecs asBytes m abi) (setAbiCall codecs asBytes n abi) :=
  (addTypesCall_below hmn _).bind fun _ => .refl _

theorem setAbi_mono {codecs : TypeName → BuiltInCodec} {asBytes : Variant → Option Bytes} {abi : Abi}
    {s : AbiSerializer} (hmn : m ≤ n) (h : setAbi codecs asBytes m abi = some s) :
    setAbi codecs asBytes n abi = some s :=
  result_eq_some.2 (setAbiCall_below codecs asBytes abi hmn _ (result_eq_some.1 h))

theorem loadAbi_below (codecs : TypeName → BuiltInCodec) (asBytes : Variant → Option Bytes) (abi : Abi)
    (hmn : m ≤ n) : Below (loadAbi codecs asBytes m abi) (loadAbi codecs asBytes n abi) :=
  (setAbiCall_below codecs asBytes abi hmn).bind fun _ => (validateCall_below hmn).bind fun _ => .refl _

end Mono

/-! ## Which ABIs are loaded -/

/-- No two entries of one list have the same name. -/
structure SizesMatch (abi : Abi) : Prop where
  types : s.typedefs.rows.length = abi.types.length
  structs : s.structs.rows.length = abi.structs.length
  actions : s.actions.rows.length = abi.actions.length
  tables : s.tables.rows.length = abi.tables.length

/-- Along the typedefs, a `[]` taken off before each, `is_type` comes to a cycle neither while these are
entered nor, when the names are in order, in all of them together. -/
structure LoadEnds (s : AbiSerializer) (abi : Abi) : Prop where
  entering : s.EnterEnds abi.types
  checking : s.AllKnown abi.types → (s.entered abi.types).SizesMatch abi →
    (∀ x, ¬ TransGen (s.entered abi.types).Names x x) → ∀ x, ¬ TransGen (s.entered abi.types).Leads x x

section Load

variable {codecs : TypeName → BuiltInCodec} {asBytes : Variant → Option Bytes} {abi : Abi} {n : ℕ}

theorem setAbiCall_ok {s : AbiSerializer} (h : (setAbiCall codecs asBytes n abi).run = some (.ok s)) :
    (tablesOf codecs asBytes abi).AllKnown abi.types ∧ s = (tablesOf codecs asBytes abi).entered abi.types ∧
      s.SizesMatch abi := by
  obtain ⟨s', hadd, h⟩ := bind_returns.1 h
  obtain ⟨hall, rfl⟩ := addTypesCall_ok hadd
  obtain ⟨_, htypes, h⟩ := bind_returns.1 h
  obtain ⟨_, hstructs, h⟩ := bind_returns.1 h
  obtain ⟨_, hactions, h⟩ := bind_returns.1 h
  obtain ⟨_, htables, h⟩ := bind_returns.1 h
  cases h
  exact ⟨hall, rfl, require_eq_ok.1 htypes, require_eq_ok.1 hstructs, require_eq_ok.1 hactions, require_eq_ok.1 htables⟩

/-- The serializer keeps the library functions that it was made with. -/
theorem setAbi_libraries {s : AbiSerializer} (h : setAbi codecs asBytes n abi = some s) :
    s.codecs = codecs ∧ s.asBytes = asBytes := by
  have hentered : ∀ (tds : List TypeDef) (s : AbiSerializer),
      (s.entered tds).codecs = s.codecs ∧ (s.entered tds).asBytes = s.asBytes := by
    intro tds
    induction tds with
    | nil => exact fun s => ⟨rfl, rfl⟩
    | cons td tds ih => exact fun s => ih _
  obtain ⟨-, rfl, -⟩ := setAbiCall_ok (result_eq_some.1 h)
  exact hentered abi.types _

theorem targetsKnown_tablesOf : (tablesOf codecs asBytes abi).TargetsKnown := fun _ _ h => by cases h

theorem loadAbi_ne_none (h : (tablesOf codecs asBytes abi).LoadEnds abi) :
    ∃ n, (loadAbi codecs asBytes n abi).run ≠ none := by
  obtain ⟨n, hn⟩ : ∃ n, n = abi.types.length + ((tablesOf codecs asBytes abi).entered abi.types).structs.rows.length +
      ((tablesOf codecs asBytes abi).entered abi.types).targets.length + 2 := ⟨_, rfl⟩
  refine ⟨n, ?_⟩
  have hempty : (tablesOf codecs asBytes abi).targets.length = 0 := rfl
  have hadd := addTypesCall_ne_none (n := n) h.entering (by omega)
  rw [loadAbi, Ne, bind_pends, not_or, setAbiCall, bind_pends, not_or]
  refine ⟨⟨hadd, ?_⟩, ?_⟩
  · rintro ⟨s', -, hnone⟩
    rcases bind_pends.1 hnone with hnone | ⟨_, -, hnone⟩
    · exact require_ne_none hnone
    rcases bind_pends.1 hnone with hnone | ⟨_, -, hnone⟩
    · exact require_ne_none hnone
    rcases bind_pends.1 hnone with hnone | ⟨_, -, hnone⟩
    · exact require_ne_none hnone
    rcases bind_pends.1 hnone with hnone | ⟨_, -, hnone⟩
    · exact require_ne_none hnone
    · cases hnone
  · rintro ⟨s', hset, hnone⟩
    obtain ⟨hall, rfl, hsizes⟩ := setAbiCall_ok hset
    rcases bind_pends.1 hnone with hnone | ⟨_, -, hnone⟩
    · exact validateCall_ne_none (h.checking hall hsizes) (by omega) hnone
    · cases hnone

theorem addTypesCall_cases {s : AbiSerializer} {tds : List TypeDef} (h : s.AllKnown tds) :
    (addTypesCall n s tds).run = none ∨ (addTypesCall n s tds).run = some (.ok (s.entered tds)) := by
  induction tds generalizing s with
  | nil => exact .inr rfl
  | cons td tds ih =>
    obtain ⟨⟨m, hm⟩, hrest⟩ := h
    rw [addTypesCall, bind_pends, bind_returns, lift_eq_none]
    rcases hknown : s.isType n td.type with _ | known
    · exact .inl (.inl rfl)
    · have htrue : known = true := by
        have hm' := isType_mono (le_max_left m n) hm
        rw [isType_mono (le_max_right m n) hknown] at hm'
        exact Option.some.inj hm'
      rcases ih hrest with hnone | hok
      · exact .inl (.inr ⟨known, lift_eq_ok.2 rfl, bind_pends.2 (.inr ⟨⟨⟩, require_eq_ok.2 htrue, hnone⟩)⟩)
      · exact .inr ⟨known, lift_eq_ok.2 rfl, bind_returns.2 ⟨⟨⟩, require_eq_ok.2 htrue, hok⟩⟩

theorem loadAbi_eq_none (h : ¬ (tablesOf codecs asBytes abi).LoadEnds abi) (n : ℕ) :
    (loadAbi codecs asBytes n abi).run = none := by
  rw [loadAbi, bind_pends]
  by_cases hentering : (tablesOf codecs asBytes abi).EnterEnds abi.types
  · obtain ⟨hall, hsizes, hnames, x, hx⟩ : (tablesOf codecs asBytes abi).AllKnown abi.types ∧
        ((tablesOf codecs asBytes abi).entered abi.types).SizesMatch abi ∧
        (∀ x, ¬ TransGen ((tablesOf codecs asBytes abi).entered abi.types).Names x x) ∧
        ∃ x, TransGen ((tablesOf codecs asBytes abi).entered abi.types).Leads x x := by
      by_contra hnot
      exact h ⟨hentering, fun hall hsizes hnames x hx => hnot ⟨hall, hsizes, hnames, x, hx⟩⟩
    rcases addTypesCall_cases (n := n) hall with hnone | hok
    · exact .inl (bind_pends.2 (.inl hnone))
    · refine .inr ⟨(tablesOf codecs asBytes abi).entered abi.types, bind_returns.2 ⟨_, hok, ?_⟩, ?_⟩
      · exact bind_returns.2 ⟨⟨⟩, require_eq_ok.2 hsizes.types, bind_returns.2 ⟨⟨⟩, require_eq_ok.2 hsizes.structs,
          bind_returns.2 ⟨⟨⟩, require_eq_ok.2 hsizes.actions, bind_returns.2 ⟨⟨⟩, require_eq_ok.2 hsizes.tables, rfl⟩⟩⟩⟩
      · exact bind_pends.2 (.inl (validateCall_eq_none (targetsKnown_tablesOf.entered hall) hnames hx))
  · exact .inl (bind_pends.2 (.inl (addTypesCall_eq_none hentering)))

/-- The call returns or throws, with as much fuel as it takes. -/
def Ends {α : Type} (call : ℕ → Option α) : Prop := ∃ r n, ∀ fuel ≥ n, call fuel = some r

/-- Loading an ABI ends just when `is_type` comes to no cycle, and what was loaded has none. -/
theorem load_terminates_iff (codecs : TypeName → BuiltInCodec) (asBytes : Variant → Option Bytes) (abi : Abi) :
    (Ends (fun fuel => (loadAbi codecs asBytes fuel abi).run) ∧
      ∀ fuel s, (loadAbi codecs asBytes fuel abi).run = some (.ok s) →
        ∀ type, Ends (s.resolveType · type) ∧ Ends (s.isType · type)) ↔
    (tablesOf codecs asBytes abi).LoadEnds abi := by
  constructor
  · rintro ⟨⟨r, n, hn⟩, -⟩
    by_contra h
    exact absurd ((loadAbi_eq_none h n).symm.trans (hn n le_rfl)) nofun
  · intro h
    constructor
    · obtain ⟨n, hn⟩ := loadAbi_ne_none h
      obtain ⟨r, hr⟩ := Option.ne_none_iff_exists'.1 hn
      exact ⟨r, n, fun fuel hfuel => loadAbi_below codecs asBytes abi hfuel r hr⟩
    · intro fuel s hload type
      obtain ⟨s', -, hload⟩ := bind_returns.1 hload
      obtain ⟨_, hvalidate, hload⟩ := bind_returns.1 hload
      cases hload
      obtain ⟨_, htypedefs, hvalidate⟩ := bind_returns.1 hvalidate
      obtain ⟨_, htargets, -⟩ := bind_returns.1 hvalidate
      obtain ⟨rtype, hresolve⟩ := Option.ne_none_iff_exists'.1
        (resolveType_ne_none_iff.2 (within_of_typedefs_ok htypedefs type))
      obtain ⟨known, hknown⟩ := Option.ne_none_iff_exists'.1
        (isType_ne_none_iff.2 (within_of_targets_ok htargets type))
      exact ⟨⟨rtype, fuel + 1, fun _ hfuel => resolveType_mono hfuel hresolve⟩,
        ⟨known, fuel + 1, fun _ hfuel => isType_mono hfuel hknown⟩⟩

end Load

/-- Built-in types that nothing is packed or unpacked as. -/
def noCodecs : TypeName → BuiltInCodec := fun _ => ⟨fun _ _ => none, fun _ => StateT.lift none⟩

/-- A struct, and a typedef of its name as an array of itself. -/
def arrayOfItself : Abi where
  types := [⟨.ofString "node", .ofString "node[]"⟩]
  structs := [⟨.ofString "node", .empty, []⟩]
  actions := []
  tables := []

/-- The typedef is entered while its name is still the struct's, and then `validate` runs around it. -/
theorem array_of_itself_never_loads : ¬ Ends fun fuel => (loadAbi noCodecs (fun _ => none) fuel arrayOfItself).run := by
  rintro ⟨r, n, hn⟩
  refine absurd ((loadAbi_eq_none (fun h => ?_) n).symm.trans (hn n le_rfl)) nofun
  have hrow : ∀ x y, ((tablesOf noCodecs (fun _ => none) arrayOfItself).entered arrayOfItself.types).Names x y →
      x = .ofString "node" ∧ y = .ofString "node[]" := by
    intro x y hxy
    have hfind : (if x = .ofString "node" then some (.ofString "node[]") else none) = some y :=
      (Table.find?_assign ..).symm.trans hxy
    split_ifs at hfind with hx
    exact ⟨hx, (Option.some.inj hfind).symm⟩
  refine h.checking ⟨⟨1, by decide⟩, trivial⟩ ⟨by decide, by decide, rfl, rfl⟩ (fun x hx => ?_) (.ofString "node[]")
    (.single ⟨by decide, by decide⟩)
  obtain ⟨_, hnext, -⟩ := TransGen.head'_iff.1 hx
  obtain ⟨_, -, hlast⟩ := TransGen.tail'_iff.1 hx
  exact absurd ((hrow _ _ hnext).1.symm.trans (hrow _ _ hlast).2) (by decide)

end AbiSerializer

end XmaxChain
