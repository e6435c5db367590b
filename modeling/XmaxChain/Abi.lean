import XmaxChain.Lib.Fuel
import XmaxChain.Lib.Table
import XmaxChain.Raw

/-!
# The serializer of ABI values

An ABI names types: typedefs, structs with a base, and arrays by the suffix `[]`. The serializer packs a
variant as a type and unpacks it again. The built-in types, and bytes in a variant, are packed by the library
of each, which is a parameter. A function that may call itself for ever takes fuel, and `none` is an exception or
no fuel left; it returns what it returns with any fuel that is enough.
-/

namespace XmaxChain

open Fuel StreamReader

/-- A string in `size` bytes, filled up with zeros. -/
structure FixedString (size : ℕ) where
  data : List.Vector ℕ size
deriving DecidableEq

namespace FixedString

variable {size : ℕ}

/-- A longer string is cut off. -/
def ofBytes (s : Bytes) : FixedString size :=
  ⟨⟨s.takeD size 0, List.takeD_length _ _ _⟩⟩

/-- Up to the first zero, or all bytes when the last one is not zero. -/
def toBytes (s : FixedString size) : Bytes :=
  if s.data.toList.getLastD 0 ≠ 0 then s.data.toList else cString s.data.toList

end FixedString

abbrev TypeName := FixedString 32

abbrev FieldName := FixedString 16

def TypeName.ofString (s : String) : TypeName := .ofBytes (s.toList.map Char.toNat)

def FieldName.ofString (s : String) : FieldName := .ofBytes (s.toList.map Char.toNat)

/-- `type_name()`. -/
def TypeName.empty : TypeName := .ofBytes []

def isArray (type : TypeName) : Bool := [91, 93] <:+ type.toBytes

def arrayType (type : TypeName) : TypeName :=
  if isArray type then .ofBytes (type.toBytes.take (type.toBytes.length - 2)) else type

/-- An object keeps its entries in the order they were inserted, and looking a key up finds the first
entry that has it. -/
inductive Variant
  | null
  | int64 (n : ℤ)
  | uint64 (n : ℕ)
  | double (bits : ℕ)
  | bool (b : Bool)
  | string (s : Bytes)
  | array (vars : List Variant)
  | object (entries : List (Bytes × Variant))
  | blob (data : Bytes)

namespace Variant

def getArray : Variant → Option (List Variant)
  | .array vars => some vars
  | _ => none

def getObject : Variant → Option (List (Bytes × Variant))
  | .object entries => some entries
  | _ => none

end Variant

/-- The functions that pack and unpack a built-in type, or with `true` a vector of it. -/
structure BuiltInCodec where
  pack : Variant → Bool → Option Bytes
  unpack : Bool → Reader ℕ Variant

def builtInNames : List TypeName :=
  ["public_key", "asset_symbol", "asset", "price", "string", "time", "signature", "checksum",
    "field_name", "fixed_string32", "fixed_string16", "type_name", "bytes", "uint8", "uint16", "uint32",
    "uint64", "uint128", "uint256", "int8", "int16", "int32", "int64", "name", "field", "struct_t",
    "fields", "address", "account_name", "authority_name", "func_name", "message_name",
    "account_permission", "message", "account_permission_weight", "transaction", "signed_transaction",
    "key_permission_weight", "authority", "blockchain_configuration", "type_def", "action", "table",
    "abi"].map TypeName.ofString

namespace Abi

structure Field where
  name : FieldName
  type : TypeName
deriving DecidableEq

structure StructT where
  name : TypeName
  base : TypeName
  fields : List Field
deriving DecidableEq

structure TypeDef where
  newTypeName : TypeName
  type : TypeName

structure Action where
  actionName : AccountName
  type : TypeName

structure AbiTable where
  tableName : AccountName
  type : TypeName

end Abi

open Abi

/-- Of a table only its name and the type of its rows are used. -/
structure Abi where
  types : List TypeDef
  structs : List StructT
  actions : List Action
  tables : List AbiTable

structure AbiSerializer where
  typedefs : Table TypeName TypeName
  structs : Table TypeName StructT
  actions : Table AccountName TypeName
  tables : Table AccountName TypeName
  codecs : TypeName → BuiltInCodec
  asBytes : Variant → Option Bytes

namespace AbiSerializer

variable (s : AbiSerializer)

def isBuiltinType (type : TypeName) : Bool := type ∈ builtInNames

/-- `built_in_types.find`. -/
def findBuiltIn (type : TypeName) : Option BuiltInCodec :=
  if isBuiltinType type then some (s.codecs type) else none

def resolveType : ℕ → TypeName → Option TypeName
  | 0, _ => none
  | fuel + 1, type =>
    match s.typedefs.find? type with
    | some target => resolveType fuel target
    | none => some type

def isType : ℕ → TypeName → Option Bool
  | 0, _ => none
  | fuel + 1, rtype =>
    let type := arrayType rtype
    if isBuiltinType type then some true
    else
      match s.typedefs.find? type with
      | some target => isType fuel target
      | none => some (s.structs.find? type).isSome

def getStruct (fuel : ℕ) (type : TypeName) : Option StructT := do
  s.structs.find? (← s.resolveType fuel type)

/-- `getStruct`, with a throw told from a call that does not return. -/
def getStructCall (fuel : ℕ) (type : TypeName) : Fueled Unit StructT := do
  match s.structs.find? (← ExceptT.lift (s.resolveType fuel type)) with
  | some st => pure st
  | none => throw ()

/-- The types are entered one by one, and one that is not known yet is refused. -/
def addTypesCall (fuel : ℕ) : AbiSerializer → List TypeDef → Fueled Unit AbiSerializer
  | s, [] => pure s
  | s, td :: tds => do
    require ((← ExceptT.lift (s.isType fuel td.type)) = true)
    addTypesCall fuel { s with typedefs := s.typedefs.assign td.newTypeName td.type } tds

/-- The tables of an ABI, and no typedefs yet. -/
def tablesOf (codecs : TypeName → BuiltInCodec) (asBytes : Variant → Option Bytes) (abi : Abi) :
    AbiSerializer where
  typedefs := .empty
  structs := .ofList (abi.structs.map fun st => (st.name, st))
  actions := .ofList (abi.actions.map fun a => (a.actionName, a.type))
  tables := .ofList (abi.tables.map fun t => (t.tableName, t.type))
  codecs := codecs
  asBytes := asBytes

def setAbiCall (codecs : TypeName → BuiltInCodec) (asBytes : Variant → Option Bytes) (fuel : ℕ) (abi : Abi) :
    Fueled Unit AbiSerializer := do
  let s ← addTypesCall fuel (tablesOf codecs asBytes abi) abi.types
  require (s.typedefs.rows.length = abi.types.length)
  require (s.structs.rows.length = abi.structs.length)
  require (s.actions.rows.length = abi.actions.length)
  require (s.tables.rows.length = abi.tables.length)
  pure s

def setAbi (codecs : TypeName → BuiltInCodec) (asBytes : Variant → Option Bytes) (fuel : ℕ) (abi : Abi) :
    Option AbiSerializer := result (setAbiCall codecs asBytes fuel abi)

/-- Along the typedefs, where no type may come twice. -/
def validateTypedefCall : ℕ → List TypeName → TypeName → Fueled Unit PUnit
  | 0, _, _ => pending
  | fuel + 1, typesSeen, type =>
    match s.typedefs.find? type with
    | some target => do
      require (target ∉ typesSeen)
      validateTypedefCall fuel (typesSeen ++ [target]) target
    | none => pure ⟨⟩

/-- Along the bases, which must be structs, and of which none may come twice. -/
def validateBaseCall : ℕ → List TypeName → StructT → Fueled Unit PUnit
  | 0, _, _ => pending
  | fuel + 1, typesSeen, current =>
    if current.base ≠ TypeName.empty then do
      let base ← s.getStructCall fuel current.base
      require (base.name ∉ typesSeen)
      validateBaseCall fuel (typesSeen ++ [base.name]) base
    else pure ⟨⟩

def requireType (fuel : ℕ) (type : TypeName) : Fueled Unit PUnit := do
  require ((← ExceptT.lift (s.isType fuel type)) = true)

def validateStructCall (fuel : ℕ) (st : StructT) : Fueled Unit PUnit := do
  if st.base ≠ TypeName.empty then s.validateBaseCall fuel [st.name] st
  forM st.fields fun field => s.requireType fuel field.type

def validateCall (fuel : ℕ) : Fueled Unit PUnit := do
  forM s.typedefs.rows fun t => s.validateTypedefCall fuel [t.1, t.2] t.2
  forM s.typedefs.rows fun t => s.requireType fuel t.2
  forM s.structs.rows fun st => s.validateStructCall fuel st.2
  forM s.actions.rows fun a => s.requireType fuel a.2
  forM s.tables.rows fun t => s.requireType fuel t.2

def validate (fuel : ℕ) : Option PUnit := result (s.validateCall fuel)

/-- The number of elements is cast to 32 bits. An object is looked up with the name of the field as a C
string. -/
def packVariant : ℕ → TypeName → Variant → Option Bytes
  | 0, _, _ => none
  | fuel + 1, type, var => do
    let rtype ← s.resolveType fuel type
    match s.findBuiltIn (arrayType rtype) with
    | some btype => btype.pack var (isArray rtype)
    | none =>
      if isArray rtype then do
        let vars ← var.getArray
        let items ← vars.mapM (packVariant fuel (arrayType rtype))
        pure (packUnsignedInt vars.length ++ items.flatten)
      else do
        let st ← s.getStruct fuel rtype
        let vo ← var.getObject
        let base ← (if st.base ≠ TypeName.empty then do
            packVariant fuel (← s.resolveType fuel st.base) var
          else pure [])
        let items ← st.fields.mapM fun field => do
          packVariant fuel field.type (← vo.lookup (cString field.name.toBytes))
        pure (base ++ items.flatten)

/-- What is packed must fit into a buffer of one MiB. A type that is not known is taken for
bytes. -/
def variantToBinary (fuel : ℕ) (type : TypeName) (var : Variant) : Option Bytes := do
  if (← s.isType fuel type) = true then
    let temp ← s.packVariant fuel type var
    guard (temp.length ≤ 1024 * 1024)
    pure temp
  else s.asBytes var

mutual

def unpackVariant : ℕ → TypeName → Reader ℕ Variant
  | 0, _ => StateT.lift none
  | fuel + 1, type => do
    let rtype ← StateT.lift (s.resolveType fuel type)
    match s.findBuiltIn (arrayType rtype) with
    | some btype => btype.unpack (isArray rtype)
    | none =>
      if isArray rtype then do
        let size ← unpackUnsignedInt
        let vars ← (List.replicate size ()).mapM fun _ => unpackVariant fuel (arrayType rtype)
        pure (.array vars)
      else do
        let obj ← unpackObject fuel rtype
        pure (.object obj)

/-- The entries that are appended to the object: those of the base and then the own ones, and no key is
looked for before it is appended. -/
def unpackObject : ℕ → TypeName → Reader ℕ (List (Bytes × Variant))
  | 0, _ => StateT.lift none
  | fuel + 1, type => do
    let st ← StateT.lift (s.getStruct fuel type)
    let base ← (if st.base ≠ TypeName.empty then do
        unpackObject fuel (← StateT.lift (s.resolveType fuel st.base))
      else pure [])
    let own ← st.fields.mapM fun field => do
      let var ← unpackVariant fuel (← StateT.lift (s.resolveType fuel field.type))
      pure (field.name.toBytes, var)
    pure (base ++ own)

end

/-- The variant, and the bytes that are left. -/
def binaryToVariant (fuel : ℕ) (type : TypeName) (binary : Bytes) : Option (Variant × Bytes) :=
  (s.unpackVariant fuel type).run binary

/-! ## What names stand for -/

def Resolves (type rtype : TypeName) : Prop := ∃ fuel, s.resolveType fuel type = some rtype

def StructOf (type : TypeName) (st : StructT) : Prop := ∃ fuel, s.getStruct fuel type = some st

/-- Values of the type are packed as arrays of another type. -/
def AsArray (type rtype : TypeName) : Prop :=
  s.Resolves type rtype ∧ s.findBuiltIn (arrayType rtype) = none ∧ isArray rtype = true

def AsObject (type rtype : TypeName) : Prop :=
  s.Resolves type rtype ∧ s.findBuiltIn (arrayType rtype) = none ∧ isArray rtype = false

section Fuel

variable {s} {type rtype : TypeName} {m n : ℕ}

theorem resolveType_mono (hmn : m ≤ n) (h : s.resolveType m type = some rtype) :
    s.resolveType n type = some rtype := by
  induction m generalizing n type with
  | zero => cases h
  | succ m ih =>
    obtain ⟨n, rfl⟩ : ∃ k, n = k + 1 := ⟨n - 1, by omega⟩
    rw [resolveType] at h ⊢
    split at h
    · exact ih (by omega) h
    · exact h

theorem getStruct_mono {st : StructT} (hmn : m ≤ n) (h : s.getStruct m type = some st) :
    s.getStruct n type = some st := by
  obtain ⟨rtype, hr, hst⟩ := Option.bind_eq_some_iff.1 h
  exact Option.bind_eq_some_iff.2 ⟨rtype, resolveType_mono hmn hr, hst⟩

/-- A resolved type is no typedef. -/
theorem find?_of_resolveType (h : s.resolveType n type = some rtype) :
    s.typedefs.find? rtype = none := by
  induction n generalizing type with
  | zero => cases h
  | succ n ih =>
    rw [resolveType] at h
    split at h
    · exact ih h
    · rename_i hnone
      cases h
      exact hnone

theorem Resolves.unique {rtype' : TypeName} (h : s.Resolves type rtype)
    (h' : s.Resolves type rtype') : rtype' = rtype := by
  obtain ⟨m, hm⟩ := h
  obtain ⟨n, hn⟩ := h'
  have hm' := resolveType_mono (le_max_left m n) hm
  rw [resolveType_mono (le_max_right m n) hn] at hm'
  exact Option.some.inj hm'

theorem Resolves.again (h : s.Resolves type rtype) : s.Resolves rtype rtype := by
  obtain ⟨n, hn⟩ := h
  exact ⟨1, by rw [resolveType, find?_of_resolveType hn]⟩

theorem StructOf.unique {st st' : StructT} (h : s.StructOf type st) (h' : s.StructOf type st') :
    st' = st := by
  obtain ⟨m, hm⟩ := h
  obtain ⟨n, hn⟩ := h'
  have hm' := getStruct_mono (le_max_left m n) hm
  rw [getStruct_mono (le_max_right m n) hn] at hm'
  exact Option.some.inj hm'

theorem isType_mono {known : Bool} (hmn : m ≤ n) (h : s.isType m type = some known) :
    s.isType n type = some known := by
  induction m generalizing n type with
  | zero => cases h
  | succ m ih =>
    obtain ⟨n, rfl⟩ : ∃ k, n = k + 1 := ⟨n - 1, by omega⟩
    simp only [isType] at h ⊢
    split_ifs at h ⊢ with hbuiltin
    · exact h
    · rcases hfind : s.typedefs.find? (arrayType type) with _ | target <;> simp only [hfind] at h ⊢
      · exact h
      · exact ih (by omega) h

end Fuel

end AbiSerializer

end XmaxChain
