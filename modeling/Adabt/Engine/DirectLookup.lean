import Adabt.Engine.DirectArray
import Adabt.Engine.Indexes
import Adabt.Storage.Recompress

/-! # Direct lookup

While direct lookup is enabled, the records of every collection of a fixed schema stand
in a direct array as well, and a read by id goes there. Every write tells the array, and
what the array answers is what the store would. -/

set_option autoImplicit false

namespace Adabt.Engine
open Adabt.Core Adabt.Indexing Adabt.Library Adabt.Storage

/-! ## The arrays -/

/-- An array of the rows that a scan returns. -/
def DirectArray.rebuild (b : Build) (schema : Schema) (rows : List (RecordId × Record)) :
    Except Fault (Option DirectArray) :=
  match new schema with
  | none => .ok none
  | some a => (a.run b (rows.map fun r => .put r.1 r.2)).map some

structure DirectLookup where
  arrays : OrdMap String DirectArray
  /-- Whether the configuration enables `direct_lookup` anywhere. -/
  enabled : Bool
  /-- What a write or a build panicked with. -/
  panicked : Option String

namespace DirectLookup

def off : DirectLookup := ⟨∅, false, none⟩

variable (b : Build)

def setArray (name : String) (a : DirectArray) (d : DirectLookup) : DirectLookup :=
  { d with arrays := d.arrays.insert name a }

def dropArray (name : String) (d : DirectLookup) : DirectLookup :=
  { d with arrays := d.arrays.erase name }

def panic (message : String) (d : DirectLookup) : DirectLookup :=
  { d with panicked := some message }

/-- A collection created while direct lookup is enabled gets an array too. -/
def created (name : String) (schema : Schema) (d : DirectLookup) : DirectLookup :=
  if schema.mode = .fixed ∧ d.enabled then
    match DirectArray.new schema with
    | some a => d.setArray name a
    | none => d
  else d

def putRecord (collection : String) (id : RecordId) (rec : Record) (d : DirectLookup) :
    DirectLookup :=
  match d.arrays.get collection with
  | none => d
  | some a => match a.put b id rec with
    | .ok a => d.setArray collection a
    -- A record that does not fit the stride: the array no longer matches the schema.
    | .error (.error _) => d.dropArray collection
    | .error (.panicked message) => d.panic message

def removeRecord (collection : String) (id : RecordId) (d : DirectLookup) : DirectLookup :=
  match d.arrays.get collection with
  | none => d
  | some a => d.setArray collection (a.remove id)

def upkeep : Upkeep DirectLookup where
  created := created
  inserted := putRecord b
  removed := fun collection id _ => removeRecord collection id
  forgotten := removeRecord
  watches := fun _ _ => false

end DirectLookup

/-- Two kinds of structures that follow the writes. -/
def Upkeep.beside {δ ε : Type} (U : Upkeep δ) (V : Upkeep ε) : Upkeep (δ × ε) where
  created := fun name schema d => (U.created name schema d.1, V.created name schema d.2)
  inserted := fun c id rec d => (U.inserted c id rec d.1, V.inserted c id rec d.2)
  removed := fun c id rec d => (U.removed c id rec d.1, V.removed c id rec d.2)
  forgotten := fun c id d => (U.forgotten c id d.1, V.forgotten c id d.2)
  watches := fun c d => U.watches c d.1 || V.watches c d.2

namespace Database

variable {ε : Type} (E : Env) (b : Build)

def mapLookup (f : DirectLookup → DirectLookup) (db : Database (DirectLookup × ε)) :
    Database (DirectLookup × ε) :=
  { db with derived := (f db.derived.1, db.derived.2) }

/-- Build the array of one collection, if its schema allows one. -/
def buildArray (name : String) : DatabaseM (DirectLookup × ε) Unit := do
  let db ← get
  let schema ← attempt (Heap.schemaOf db.store name)
  if schema.mode ≠ .fixed then return ()
  else
    let rows ← attempt (Heap.scan E db.store name)
    match DirectArray.rebuild b schema rows with
    | .ok (some a) => modify (mapLookup (·.setArray name a))
    | .ok none => return ()
    | .error (.error e) => throw e
    | .error (.panicked message) =>
      modify (mapLookup (·.panic message))
      throw (.corruption message)

def enableDirectLookup : DatabaseM (DirectLookup × ε) Unit := do
  forEach (buildArray E b) (← get).store.collectionNames

def disableDirectLookup : DatabaseM (DirectLookup × ε) Unit :=
  modify (mapLookup fun d => { d with arrays := ∅ })

/-- The structures over a collection that is gone go with it. -/
def dropCollection (name : String) : DatabaseM (DirectLookup × ε) Unit := do
  onStore (Heap.dropCollection E name)
  modify fun db => { mapLookup (·.dropArray name) db with indexes := db.indexes.erase name }

def declareClusterField (collection field : String) : DatabaseM (DirectLookup × ε) Unit := do
  let _ ← attempt (Heap.schemaOf (← get).store collection)
  onStore (Heap.setClusterField E collection (some field))
  modify fun db => { db with clusterFields := db.clusterFields.insert collection field }

def clearClusterField (collection : String) : DatabaseM (DirectLookup × ε) Unit := do
  onStore (Heap.setClusterField E collection none)
  modify fun db => { db with clusterFields := db.clusterFields.erase collection }

end Database

/-! ## What the arrays show -/

namespace DirectArray

variable {s : Schema} {a : DirectArray} {m : RecordId → Option Record} {id : RecordId}
  {rec : Record}

/-- A record put as it reads back is put as it is. -/
theorem put_asStored (b : Build) (hcodec : a.codec = .new s) (hnull : ¬ rec.HasNull) :
    a.put b id (asStored s rec) = a.put b id rec := by
  rw [put, put, hcodec, encode_asStored hnull]

theorem update_get (rows : OrdMap RecordId Record) (id : RecordId) (rec : Record) :
    Function.update rows.get id (some rec) = (rows.insert id rec).get := by
  funext x
  rw [OrdMap.get_insert, Function.update_apply]

theorem update_get_none (rows : OrdMap RecordId Record) (id : RecordId) :
    Function.update rows.get id none = (rows.erase id).get := by
  funext x
  rw [OrdMap.get_erase, Function.update_apply]

/-- The rows of a scan, put in turn, are the records they were stored for. -/
theorem Mirrors.putRows {held : OrdMap RecordId Record} (h : a.Mirrors s held.get) (b : Build)
    (hfixed : s.mode = .fixed) (rows : List (RecordId × Record))
    (hrows : ∀ r ∈ rows, Kept s r.2 ∧ (r.1.val + 1) * strideOf s < 2 ^ 63) :
    ∃ a', a.run b (rows.map fun r => .put r.1 (asStored s r.2)) = .ok a' ∧
      a'.Mirrors s (held.insertAll rows).get := by
  induction rows generalizing a held with
  | nil => exact ⟨a, rfl, h⟩
  | cons r rows ih =>
    obtain ⟨⟨hk, haddr⟩, hrest⟩ := List.forall_mem_cons.mp hrows
    obtain ⟨a₁, hput, h₁⟩ := h.put b hfixed (writable_of_valid hk.valid) haddr
    rw [update_get] at h₁
    obtain ⟨a₂, hrun, h₂⟩ := ih h₁ hrest
    refine ⟨a₂, ?_, h₂⟩
    rw [List.map_cons, DirectArray.run]
    change (a.put b r.1 (asStored s r.2) >>= _) = _
    rw [put_asStored b h.codec hk.noNull, hput]
    exact hrun

theorem rebuild_mirrors (b : Build) {records : OrdMap RecordId Record} (hfixed : s.mode = .fixed)
    (hstride : strideOf s < 2 ^ 32) (hkept : ∀ id row, records.get id = some row → Kept s row)
    (haddr : ∀ id ∈ records.keys, (id.val + 1) * strideOf s < 2 ^ 63) :
    ∃ a, rebuild b s (records.mapVal fun _ => asStored s).entries = .ok (some a) ∧
      a.Mirrors s records.get := by
  obtain ⟨a₀, hnew, h₀⟩ := mirrors_new hfixed hstride
  obtain ⟨a, hrun, h⟩ := @Mirrors.putRows _ _ ∅ h₀ b hfixed records.entries fun r hr => by
    have hget := (records.mem_entries r.1 r.2).mp hr
    exact ⟨hkept r.1 r.2 hget, haddr r.1 ((records.mem_keys r.1).mpr (by rw [hget]; rfl))⟩
  rw [OrdMap.insertAll_entries] at h
  refine ⟨a, ?_, h⟩
  rw [rebuild, hnew]
  dsimp only [OrdMap.mapVal]
  rw [List.map_map]
  exact congrArg (Except.map some) hrun

end DirectArray

namespace DirectLookup

variable {d : DirectLookup} {tables : String → Option (Schema × OrdMap RecordId Record)}
  {name : String} {t : Schema × OrdMap RecordId Record}

/-- An array that holds the records of its table, and can be addressed. -/
structure Shown (a : DirectArray) (t : Schema × OrdMap RecordId Record) : Prop where
  fixed : t.1.mode = .fixed
  stride : strideOf t.1 < 2 ^ 32
  mirrors : a.Mirrors t.1 t.2.get

/-- A record of a fixed schema has a width. -/
def Narrow (s : Schema) : Prop := s.mode = .fixed → strideOf s < 2 ^ 32

instance (s : Schema) : Decidable (Narrow s) := inferInstanceAs (Decidable (_ → _))

structure Shows (d : DirectLookup) (tables : String → Option (Schema × OrdMap RecordId Record)) :
    Prop where
  narrow : ∀ name, ∀ t ∈ tables name, Narrow t.1
  arrays : ∀ name a, d.arrays.get name = some a → ∃ t, tables name = some t ∧ Shown a t

/-- The buffer up to the end of the record is no longer than a buffer can be. -/
def Reaches (d : DirectLookup) (name : String) (id : RecordId) : Prop :=
  ∀ a ∈ d.arrays.get name, (id.val + 1) * a.stride < 2 ^ 63

instance (d : DirectLookup) (name : String) (id : RecordId) : Decidable (d.Reaches name id) :=
  inferInstanceAs (Decidable (∀ a ∈ d.arrays.get name, _))

theorem narrow_update {u : Option (Schema × OrdMap RecordId Record)}
    (h : ∀ name, ∀ t ∈ tables name, Narrow t.1) (hu : ∀ t ∈ u, Narrow t.1) (m : String) :
    ∀ t ∈ Function.update tables name u m, Narrow t.1 := by
  rw [Function.update_apply]
  split_ifs
  · exact hu
  · exact h m

theorem Shows.setArray (h : d.Shows tables) (name : String) {a : DirectArray} (ha : Shown a t) :
    (d.setArray name a).Shows (Function.update tables name (some t)) := by
  refine ⟨narrow_update h.narrow fun u hu _ => Option.some.inj hu ▸ ha.stride, fun m a' hm => ?_⟩
  change (d.arrays.insert name a).get m = some a' at hm
  rw [OrdMap.get_insert] at hm
  split_ifs at hm with heq
  · obtain rfl := Option.some.inj hm
    exact ⟨t, by rw [heq, Function.update_self], ha⟩
  · rw [Function.update_of_ne heq]
    exact h.arrays m a' hm

theorem Shows.dropArray (h : d.Shows tables) :
    (d.dropArray name).Shows (Function.update tables name none) := by
  refine ⟨narrow_update h.narrow fun u hu => ?_, fun m a hm => ?_⟩
  · cases hu
  · change (d.arrays.erase name).get m = some a at hm
    rw [OrdMap.get_erase] at hm
    split_ifs at hm with heq
    rw [Function.update_of_ne heq]
    exact h.arrays m a hm

/-- Where there is no array, the records may be any. -/
theorem Shows.elsewhere (h : d.Shows tables) (hnone : d.arrays.get name = none)
    (ht : Narrow t.1) : d.Shows (Function.update tables name (some t)) := by
  refine ⟨narrow_update h.narrow fun u hu => Option.some.inj hu ▸ ht, fun m a hm => ?_⟩
  have hne : m ≠ name := fun heq => by
    rw [heq, hnone] at hm
    cases hm
  rw [Function.update_of_ne hne]
  exact h.arrays m a hm

theorem Shows.created (h : d.Shows tables) (hnone : tables name = none) {schema : Schema}
    (hnarrow : Narrow schema) :
    (d.created name schema).Shows (Function.update tables name (some (schema, ∅))) ∧
      (d.created name schema).panicked = d.panicked := by
  have habsent : d.arrays.get name = none := by
    cases ha : d.arrays.get name with
    | none => rfl
    | some a =>
      obtain ⟨t, ht, -⟩ := h.arrays name a ha
      rw [hnone] at ht
      cases ht
  unfold DirectLookup.created
  split_ifs with hon
  · obtain ⟨a, hnew, ha⟩ := DirectArray.mirrors_new hon.1 (hnarrow hon.1)
    rw [hnew]
    exact ⟨h.setArray name ⟨hon.1, hnarrow hon.1, ha⟩, rfl⟩
  · exact ⟨h.elsewhere habsent hnarrow, rfl⟩

section Records

variable {s : Schema} {records : OrdMap RecordId Record} {id : RecordId} {rec : Record}

theorem Shows.putRecord (h : d.Shows tables) (b : Build) (ht : tables name = some (s, records))
    (hok : Writable s rec) (haddr : d.Reaches name id) :
    (d.putRecord b name id rec).Shows
        (Function.update tables name (some (s, records.insert id rec))) ∧
      (d.putRecord b name id rec).panicked = d.panicked := by
  have hs : Narrow s := h.narrow name (s, records) ht
  unfold DirectLookup.putRecord
  cases ha : d.arrays.get name with
  | none => exact ⟨h.elsewhere ha hs, rfl⟩
  | some a =>
    obtain ⟨t, ht', hfixed, hstride, hm⟩ := h.arrays name a ha
    obtain rfl := Option.some.inj (ht.symm.trans ht')
    have hreach := haddr a ha
    rw [hm.stride] at hreach
    obtain ⟨a', hput, hm'⟩ := hm.put b hfixed hok hreach
    dsimp only
    rw [hput]
    rw [DirectArray.update_get] at hm'
    exact ⟨h.setArray name ⟨hfixed, hstride, hm'⟩, rfl⟩

theorem Shows.removeRecord (h : d.Shows tables) (ht : tables name = some (s, records))
    (id : RecordId) :
    (d.removeRecord name id).Shows
        (Function.update tables name (some (s, records.erase id))) ∧
      (d.removeRecord name id).panicked = d.panicked := by
  have hs : Narrow s := h.narrow name (s, records) ht
  unfold DirectLookup.removeRecord
  cases ha : d.arrays.get name with
  | none => exact ⟨h.elsewhere ha hs, rfl⟩
  | some a =>
    obtain ⟨t, ht', hfixed, hstride, hm⟩ := h.arrays name a ha
    obtain rfl := Option.some.inj (ht.symm.trans ht')
    have hm' : (a.remove id).Mirrors s _ := hm.remove
    rw [DirectArray.update_get_none] at hm'
    exact ⟨h.setArray name ⟨hfixed, hstride, hm'⟩, rfl⟩

/-- A removal moves no record. -/
theorem Reaches.removeRecord (h : d.Reaches name id) :
    (d.removeRecord name id).Reaches name id := by
  unfold DirectLookup.removeRecord
  cases ha : d.arrays.get name with
  | none => exact h
  | some a =>
    intro a' ha'
    change (d.arrays.insert name (a.remove id)).get name = some a' at ha'
    rw [OrdMap.get_insert_self] at ha'
    obtain rfl := Option.some.inj ha'
    have hstride : (a.remove id).stride = a.stride := by
      unfold DirectArray.remove
      split_ifs
      · rfl
      · rfl
    rw [hstride]
    exact h a ha

/-- What is read by id from an array is what the record was stored as. -/
theorem Shown.get {a : DirectArray} (h : Shown a (s, records)) (b : Build) :
    (records.get id = none → a.get b id = .ok none) ∧
      ∀ rec, records.get id = some rec → a.get b id = .ok (some (readAs s rec)) :=
  ⟨fun hnone => (h.mirrors.absent b hnone).2.1,
    fun _ hsome => h.mirrors.get b h.fixed h.stride hsome⟩

end Records

end DirectLookup

end Adabt.Engine
