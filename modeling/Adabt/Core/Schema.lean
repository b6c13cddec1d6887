import Adabt.Core.Error
import Adabt.Core.Record
import Adabt.Library.Fallible

/-! # Schema definitions and the schema-mode spectrum

`Schema` carries the proof that its mode's validation accepted it, so every
schema below is one `Schema::new` returned. -/

set_option autoImplicit false

namespace Adabt.Core
open Adabt.Library

def SchemaMode.allowsExtraFields : SchemaMode → Bool
  | .dynamic | .declared => true
  | .strict | .fixed => false

inductive FieldType where
  | bool
  | i64
  | u64
  | f64
  | char (width : UInt32)
  | fixedBytes (len : UInt32)
  | decimal (scale : UInt8)
  | timestamp
  | str (maxLen : Option UInt32)
  | bytes (maxLen : Option UInt32)
  | list (inner : FieldType)
  | map
  | any
  deriving DecidableEq, Repr

namespace FieldType

def fixedWidth : FieldType → Option UInt32
  | bool => some 1
  | i64 | u64 | f64 | timestamp => some 8
  | decimal _ => some 16
  | char n | fixedBytes n => some n
  | str _ | bytes _ | list _ | map | any => none

def lengthPrefixBytes (width : UInt32) : UInt32 :=
  if width ≤ 256 then 1 else if width ≤ 65536 then 2 else 4

def contentCapacity : FieldType → Option UInt32
  | char n | fixedBytes n =>
    if lengthPrefixBytes n ≤ n then some (n - lengthPrefixBytes n) else none
  | other => other.fixedWidth

def name : FieldType → String
  | bool => "bool"
  | i64 => "i64"
  | u64 => "u64"
  | f64 => "f64"
  | decimal scale => "decimal[" ++ toString scale.toNat ++ "]"
  | timestamp => "timestamp"
  | char n => "char[" ++ toString n.toNat ++ "]"
  | fixedBytes n => "bytes[" ++ toString n.toNat ++ "]"
  | str _ => "str"
  | bytes _ => "bytes"
  | list t => "list<" ++ t.name ++ ">"
  | map => "map"
  | any => "any"

/-- Whether a value inhabits a type; widths are checked separately. -/
def accepts : FieldType → Value → Bool
  | _, .null => true
  | any, _ => true
  | bool, .bool _ => true
  | i64, .i64 _ => true
  | i64, .u64 _ => true
  | u64, .u64 _ => true
  | u64, .i64 n => 0 ≤ n.toInt
  | f64, .f64 _ => true
  | f64, .i64 _ => true
  | f64, .u64 _ => true
  | decimal scale, .decimal units s => (rescale units s scale).isSome
  | decimal scale, .i64 n => (rescale (BitVec.ofInt 128 n.toInt) 0 scale).isSome
  | decimal scale, .u64 n => (rescale (BitVec.ofInt 128 n.toNat) 0 scale).isSome
  | timestamp, .timestamp _ => true
  | char _, .str _ => true
  | str _, .str _ => true
  | fixedBytes _, .bytes _ => true
  | bytes _, .bytes _ => true
  | list inner, .list items => items.all inner.accepts
  | map, .map _ => true
  | _, _ => false

def encodedLen : Value → Option ℕ
  | .str s => some s.utf8ByteSize
  | .bytes b => some b.length
  | _ => none

def maxLen : FieldType → Option UInt32
  | str m | bytes m => m
  | _ => none

/-- `Char` and `FixedBytes` slots, which spend part of their width on a length. -/
def IsText : FieldType → Bool
  | char _ | fixedBytes _ => true
  | _ => false

end FieldType

structure FieldDef where
  name : String
  ty : FieldType
  nullable : Bool
  deriving DecidableEq, Repr

def validateFields (mode : SchemaMode) : List String → List FieldDef → Except SchemaError Unit
  | _, [] => .ok ()
  | seen, f :: rest =>
    if f.name ∈ seen then .error (.duplicateField f.name)
    else if mode = .fixed ∧ f.ty.fixedWidth = none then .error (.notFixedWidth f.name)
    else if f.ty.IsText ∧ f.ty.contentCapacity.getD 0 = 0 then
      .error (.zeroCapacity f.name (f.ty.fixedWidth.getD 0))
    else validateFields mode (f.name :: seen) rest

def validate (mode : SchemaMode) (fields : List FieldDef) : Except SchemaError Unit :=
  if mode ≠ .dynamic ∧ fields = [] then .error .empty else validateFields mode [] fields

/-- What validation establishes about each field of a schema. -/
structure FieldValid (mode : SchemaMode) (f : FieldDef) : Prop where
  width : mode = .fixed → f.ty.fixedWidth ≠ none
  capacity : f.ty.IsText → f.ty.contentCapacity.getD 0 ≠ 0

theorem validateFields_ok {mode : SchemaMode} {seen : List String} {fields : List FieldDef}
    {u : Unit} (h : validateFields mode seen fields = .ok u) :
    (∀ f ∈ fields, f.name ∉ seen) ∧ (fields.map (·.name)).Nodup ∧
      ∀ f ∈ fields, FieldValid mode f := by
  induction fields generalizing seen with
  | nil => simp
  | cons f rest ih =>
    rw [validateFields] at h
    split_ifs at h with h1 h2 h3
    obtain ⟨hseen, hnodup, hvalid⟩ := ih h
    refine ⟨List.forall_mem_cons.mpr ⟨h1, fun g hg hs => hseen g hg (List.mem_cons_of_mem _ hs)⟩,
      ?_, List.forall_mem_cons.mpr ⟨⟨fun hm hw => h2 ⟨hm, hw⟩, fun ht hc => h3 ⟨ht, hc⟩⟩, hvalid⟩⟩
    rw [List.map_cons, List.nodup_cons]
    refine ⟨fun hmem => ?_, hnodup⟩
    obtain ⟨g, hg, hname⟩ := List.mem_map.mp hmem
    exact hseen g hg (hname ▸ List.mem_cons_self)

structure Schema where
  mode : SchemaMode
  fields : List FieldDef
  valid : validate mode fields = .ok ()
  deriving DecidableEq

namespace Schema

@[ext] theorem ext {s t : Schema} (hm : s.mode = t.mode) (hf : s.fields = t.fields) : s = t := by
  cases s; cases t; cases hm; cases hf; rfl

def new (mode : SchemaMode) (fields : List FieldDef) : Except SchemaError Schema :=
  match h : validate mode fields with
  | .ok () => .ok ⟨mode, fields, h⟩
  | .error e => .error e

/-- A schemaless collection: the freedom endpoint. -/
def dynamic : Schema := ⟨.dynamic, [], rfl⟩

theorem fieldsValid (s : Schema) :
    (s.fields.map (·.name)).Nodup ∧ ∀ f ∈ s.fields, FieldValid s.mode f := by
  have h := s.valid
  rw [validate] at h
  split_ifs at h
  exact (validateFields_ok h).2

theorem names_nodup (s : Schema) : (s.fields.map (·.name)).Nodup := s.fieldsValid.1

theorem fields_ne_nil (s : Schema) (h : s.mode ≠ .dynamic) : s.fields ≠ [] := by
  have hv := s.valid
  rw [validate] at hv
  split_ifs at hv with hnil
  exact fun he => hnil ⟨h, he⟩

def field (s : Schema) (name : String) : Option FieldDef := s.fields.find? (·.name = name)

theorem find_of_mem {fields : List FieldDef} (hn : (fields.map (·.name)).Nodup) {f : FieldDef}
    (hf : f ∈ fields) : fields.find? (·.name = f.name) = some f := by
  induction fields with
  | nil => cases hf
  | cons g rest ih =>
    obtain ⟨hnot, hnodup⟩ := List.nodup_cons.mp hn
    rcases List.mem_cons.mp hf with rfl | hf
    · exact List.find?_cons_of_pos (by simp)
    · have hne : g.name ≠ f.name := fun he => hnot (List.mem_map.mpr ⟨f, hf, he.symm⟩)
      rw [List.find?_cons_of_neg (by simpa using hne), ih hnodup hf]

theorem field_of_mem (s : Schema) {f : FieldDef} (hf : f ∈ s.fields) :
    s.field f.name = some f :=
  find_of_mem s.names_nodup hf

def checkWidth (field : String) (len : Option ℕ) (limit : Option UInt32) :
    Except SchemaError Unit :=
  match limit, len with
  | some cap, some len => ensure (len ≤ cap.toNat) (.tooWide field len cap)
  | _, _ => .ok ()

def checkField (rec : Record) (d : FieldDef) : Except SchemaError Unit :=
  match rec.get d.name with
  | none => ensure d.nullable (.missingField d.name)
  | some v =>
    if v.1.isNull then ensure d.nullable (.missingField d.name)
    else do
      ensure (d.ty.accepts v.1) (.typeMismatch d.name d.ty.name v.1.typeName)
      checkWidth d.name (FieldType.encodedLen v.1) d.ty.contentCapacity
      checkWidth d.name (FieldType.encodedLen v.1) d.ty.maxLen

/-- The single authority on what is storable. -/
def validateRecord (s : Schema) (rec : Record) : Except SchemaError Unit := do
  if s.mode.allowsExtraFields then .ok ()
  else checkAll (fun name => ensure (s.field name).isSome (.unknownField name s.mode)) rec.keys
  checkAll (checkField rec) s.fields

end Schema

end Adabt.Core
