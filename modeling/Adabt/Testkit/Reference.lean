import Adabt.Storage.HeapStore

/-! # The reference store

The logical calls every store answers, and a store that answers them with ordered
maps all the way down: no pages, no codecs, no log. -/

set_option autoImplicit false

namespace Adabt.Testkit
open Adabt.Core Adabt.Library Adabt.Storage

/-- What every store answers. Reads are functions of the state. -/
structure LogicalStore (σ : Type) where
  createCollection : String → Schema → EStateM Error σ Unit
  dropCollection : String → EStateM Error σ Unit
  collectionNames : σ → List String
  schemaOf : σ → String → Except Error Schema
  insert : String → RecordId → Record → EStateM Error σ Unit
  /-- A store without a placement policy ignores the key. -/
  insertKeyed : String → RecordId → Record → Int64 → EStateM Error σ Unit :=
    fun collection id rec _ => insert collection id rec
  get : σ → String → RecordId → Except Error (Option Record)
  update : String → RecordId → Record → EStateM Error σ Bool
  delete : String → RecordId → EStateM Error σ Bool
  scan : σ → String → Except Error (List (RecordId × Record))
  count : σ → String → Except Error ℕ
  ids : σ → String → Except Error (List RecordId) :=
    fun s collection => (scan s collection).map (·.map Prod.fst)

namespace ReferenceStore

structure Collection where
  schema : Schema
  records : OrdMap RecordId Record

end ReferenceStore

structure ReferenceStore where
  collections : OrdMap String ReferenceStore.Collection

namespace ReferenceStore

abbrev ReferenceM := EStateM Error ReferenceStore

def new : ReferenceStore := ⟨∅⟩

def coll (r : ReferenceStore) (name : String) : Except Error Collection :=
  match r.collections.get name with
  | some c => .ok c
  | none => .error (.noSuchCollection name)

def put (name : String) (c : Collection) (r : ReferenceStore) : ReferenceStore :=
  ⟨r.collections.insert name c⟩

def createCollection (name : String) (schema : Schema) : ReferenceM Unit := do
  if (← get).collections.contains name then throw (.collectionExists name)
  else modify (put name ⟨schema, ∅⟩)

def dropCollection (name : String) : ReferenceM Unit := do
  let _ ← attempt ((← get).coll name)
  modify fun r => ⟨r.collections.erase name⟩

def validate (c : Collection) (rec : Record) : Except Error Unit :=
  (c.schema.validateRecord rec).mapError .schema

/-- A record that breaks the schema is reported as such even if its id is taken. -/
def insert (collection : String) (id : RecordId) (rec : Record) : ReferenceM Unit := do
  let row := normalizeForStorage rec
  let c ← attempt ((← get).coll collection)
  attempt (validate c row)
  if c.records.contains id then throw (.recordExists id)
  else modify (put collection { c with records := c.records.insert id row })

def update (collection : String) (id : RecordId) (rec : Record) : ReferenceM Bool := do
  let row := normalizeForStorage rec
  let c ← attempt ((← get).coll collection)
  attempt (validate c row)
  modify (put collection { c with records := c.records.insert id row })
  return c.records.contains id

def delete (collection : String) (id : RecordId) : ReferenceM Bool := do
  let c ← attempt ((← get).coll collection)
  modify (put collection { c with records := c.records.erase id })
  return c.records.contains id

def store : LogicalStore ReferenceStore where
  createCollection := createCollection
  dropCollection := dropCollection
  collectionNames r := r.collections.keys
  schemaOf r collection := (r.coll collection).map (·.schema)
  insert := insert
  get r collection id := (r.coll collection).map (·.records.get id)
  update := update
  delete := delete
  scan r collection := (r.coll collection).map (·.records.entries)
  count r collection := (r.coll collection).map (·.records.size)

/-! ## What a call does -/

theorem coll_some {r : ReferenceStore} {name : String} {c : Collection}
    (hc : r.collections.get name = some c) : r.coll name = .ok c := by rw [coll, hc]

theorem coll_none {r : ReferenceStore} {name : String} (hc : r.collections.get name = none) :
    r.coll name = .error (.noSuchCollection name) := by rw [coll, hc]

theorem put_self {r : ReferenceStore} {name : String} {c : Collection}
    (hc : r.collections.get name = some c) : r.put name c = r := by
  have hsame : r.collections.insert name c = r.collections := by
    ext n : 1
    rw [OrdMap.get_insert]
    split_ifs with hn
    · rw [hn, hc]
    · rfl
  rw [put, hsame]

section Calls

variable (r : ReferenceStore) (name : String) {Q : Unit → ReferenceStore → Prop}
  {Q' : Bool → ReferenceStore → Prop} {R : Error → ReferenceStore → Prop}

theorem post_createCollection (schema : Schema) :
    Post (createCollection name schema) r Q R ↔
      match r.collections.get name with
      | some _ => R (.collectionExists name) r
      | none => Q () (put name ⟨schema, ∅⟩ r) := by
  unfold createCollection OrdMap.contains
  rw [post_bind, post_get]
  cases r.collections.get name with
  | none => rfl
  | some c => rfl

theorem post_dropCollection :
    Post (dropCollection name) r Q R ↔
      match r.collections.get name with
      | some _ => Q () ⟨r.collections.erase name⟩
      | none => R (.noSuchCollection name) r := by
  unfold dropCollection coll
  rw [post_bind, post_get, post_bind]
  cases r.collections.get name with
  | none => rfl
  | some c => rfl

variable (id : RecordId)

theorem post_insert (rec : Record) :
    Post (insert name id rec) r Q R ↔
      match r.collections.get name with
      | none => R (.noSuchCollection name) r
      | some c =>
        match c.schema.validateRecord (normalizeForStorage rec) with
        | .error e => R (.schema e) r
        | .ok _ =>
          match c.records.get id with
          | some _ => R (.recordExists id) r
          | none => Q ()
            (put name { c with records := c.records.insert id (normalizeForStorage rec) } r) := by
  unfold insert coll
  simp only [post_bind, post_get]
  cases r.collections.get name with
  | none => rfl
  | some c =>
    dsimp only
    rw [post_attempt_ok, validate, OrdMap.contains]
    cases c.schema.validateRecord (normalizeForStorage rec) with
    | error e => rfl
    | ok u =>
      dsimp only [Except.mapError]
      rw [post_attempt_ok]
      cases c.records.get id with
      | none => rfl
      | some _ => rfl

theorem post_update (rec : Record) :
    Post (update name id rec) r Q' R ↔
      match r.collections.get name with
      | none => R (.noSuchCollection name) r
      | some c =>
        match c.schema.validateRecord (normalizeForStorage rec) with
        | .error e => R (.schema e) r
        | .ok _ => Q' (c.records.get id).isSome
          (put name { c with records := c.records.insert id (normalizeForStorage rec) } r) := by
  unfold update coll
  simp only [post_bind, post_get]
  cases r.collections.get name with
  | none => rfl
  | some c =>
    dsimp only
    rw [post_attempt_ok, validate]
    cases c.schema.validateRecord (normalizeForStorage rec) with
    | error e => rfl
    | ok u => rfl

theorem post_delete :
    Post (delete name id) r Q' R ↔
      match r.collections.get name with
      | none => R (.noSuchCollection name) r
      | some c => Q' (c.records.get id).isSome
        (put name { c with records := c.records.erase id } r) := by
  unfold delete coll
  simp only [post_bind, post_get]
  cases r.collections.get name with
  | none => rfl
  | some c => rfl

end Calls

end ReferenceStore

end Adabt.Testkit
