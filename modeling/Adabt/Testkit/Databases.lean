import Adabt.Engine.DirectLookup
import Adabt.Testkit.Agreement

/-! # The database against the reference

A database without unique constraints answers as the reference store does, whatever
indexes, clustering hints and direct arrays come and go while it is in use. -/

set_option autoImplicit false

namespace Adabt.Testkit
open Adabt.Core Adabt.Engine Adabt.Indexing Adabt.Ir Adabt.Library Adabt.Storage

variable {ε α : Type}

/-! ## The calls -/

/-- A write that panicked gives no answer, and what it gives here the reference never does. -/
def surviving (x : DatabaseM (DirectLookup × ε) α) : DatabaseM (DirectLookup × ε) α := do
  let a ← x
  match (← get).derived.1.panicked with
  | some message => throw (.corruption message)
  | none => return a

def answered : Except Fault α → Except Error α
  | .ok a => .ok a
  | .error (.error e) => .error e
  | .error (.panicked message) => .error (.corruption message)

section Calls

variable (E : Env) (b : Build) (V : Engine.Upkeep ε)

/-- The database behind the logical API. -/
def databaseStore : LogicalStore (Database (DirectLookup × ε)) where
  createCollection name schema :=
    surviving (Database.createCollection E ((DirectLookup.upkeep b).beside V) name schema)
  dropCollection name := Database.dropCollection E name
  collectionNames db := Heap.collectionNames db.store
  schemaOf db := Heap.schemaOf db.store
  insert c id rec := surviving (Database.insert E ((DirectLookup.upkeep b).beside V) c id rec)
  get db c id :=
    match db.derived.1.arrays.get c with
    | some a => answered (a.get b id)
    | none => Heap.getRecord E db.store c id
  update c id rec := surviving (Database.update E ((DirectLookup.upkeep b).beside V) c id rec)
  delete c id := surviving (Database.delete E ((DirectLookup.upkeep b).beside V) c id)
  scan db := Heap.scan E db.store
  count db := Heap.count db.store
  ids db := Heap.ids db.store

end Calls

/-! ## Agreement -/

def tablesOf (r : ReferenceStore) (name : String) : Option (Schema × OrdMap RecordId Record) :=
  (r.collections.get name).map fun t => (t.schema, t.records)

structure Backs (E : Env) (db : Database (DirectLookup × ε)) (r : ReferenceStore) : Prop where
  store : Agrees E db.store r
  free : db.uniqueConstraints = []
  shows : db.derived.1.Shows (tablesOf r)
  calm : db.derived.1.panicked = none

variable {E : Env} {db : Database (DirectLookup × ε)} {r : ReferenceStore} {name : String}
  {t : ReferenceStore.Collection}

theorem tablesOf_some (hr : r.collections.get name = some t) :
    tablesOf r name = some (t.schema, t.records) := by rw [tablesOf, hr, Option.map_some]

theorem tablesOf_none (hr : r.collections.get name = none) : tablesOf r name = none := by
  rw [tablesOf, hr, Option.map_none]

theorem tablesOf_put (r : ReferenceStore) (name : String) (t : ReferenceStore.Collection) :
    tablesOf (r.put name t) = Function.update (tablesOf r) name (some (t.schema, t.records)) := by
  funext m
  unfold tablesOf ReferenceStore.put
  dsimp only
  rw [OrdMap.get_insert, Function.update_apply]
  split_ifs
  · rfl
  · rfl

theorem tablesOf_erase (r : ReferenceStore) (name : String) :
    tablesOf ⟨r.collections.erase name⟩ = Function.update (tablesOf r) name none := by
  funext m
  unfold tablesOf
  dsimp only
  rw [OrdMap.get_erase, Function.update_apply]
  split_ifs
  · rfl
  · rfl

/-! ## Writes -/

/-- What a write leaves as it is, and what it does to the arrays. -/
structure Tells (k : DirectLookup → DirectLookup)
    (f : Database (DirectLookup × ε) → Database (DirectLookup × ε)) : Prop where
  store : ∀ db, (f db).store = db.store
  free : ∀ db, (f db).uniqueConstraints = db.uniqueConstraints
  derived : ∀ db, (f db).derived.1 = k db.derived.1

/-- A write that the store answers as the reference does, and that the arrays are told of. -/
theorem told {x : HeapM α} {y : ReferenceStore.ReferenceM α} {k : DirectLookup → DirectLookup}
    {f : Database (DirectLookup × ε) → Database (DirectLookup × ε)} (hb : Backs E db r)
    (hf : Tells k f) (hx : Follows E x db.store y r)
    (hy : Post y r (fun _ r' => (k db.derived.1).Shows (tablesOf r') ∧
      (k db.derived.1).panicked = db.derived.1.panicked) fun _ r' => r' = r) :
    Alike (Backs E) (do
      let a ← onStore x
      modify f
      return a) db y r := by
  unfold Follows Alike Matched at hx
  unfold Alike Matched
  rw [post_bind, post_onStore]
  refine hx.mono (fun a h' ha => ?_) fun e h' he => ?_
  · rw [post_bind, post_modify, post_pure]
    refine (ha.and hy).mono (fun a' r' h => ⟨h.1.1, ?_⟩) fun _ _ h => h.1
    refine ⟨?_, (hf.free _).trans hb.free, ?_, ?_⟩
    · rw [hf.store]
      exact h.1.2
    · rw [hf.derived]
      exact h.2.1
    · rw [hf.derived]
      exact h.2.2.trans hb.calm
  · refine (he.and hy).mono (fun _ _ h => h.1) fun f r' h => ⟨h.1.1, ?_⟩
    obtain rfl : r' = r := h.2
    exact ⟨h.1.2, hb.free, hb.shows, hb.calm⟩

/-- Where no write has panicked, one that survives is one that is done. -/
theorem Alike.surviving {x : DatabaseM (DirectLookup × ε) α} {y : ReferenceStore.ReferenceM α}
    (h : Alike (Backs E) x db y r) : Alike (Backs E) (surviving x) db y r := by
  unfold Alike Matched at h ⊢
  unfold Testkit.surviving
  rw [post_bind]
  refine h.mono (fun a db' ha => ?_) fun _ _ he => he
  rw [post_bind, post_get]
  obtain ⟨b, r', -, -, hb⟩ := Returns.exists ha
  rw [hb.calm]
  exact ha

/-- A program that does on this state what another does. -/
theorem Alike.congr {σ τ : Type} {R : σ → τ → Prop} {x : EStateM Error σ α}
    (x' : EStateM Error σ α) {s : σ} {y : EStateM Error τ α} {t : τ} (hx : x s = x' s)
    (h : Alike R x' s y t) : Alike R x s y t := by
  unfold Alike Matched Post at h ⊢
  rw [hx]
  exact h

theorem unconstrained (hb : Backs E db r) (collection : String) (exclude : Option RecordId)
    (rec : Record) : db.checkUniqueConstraints collection exclude rec = .ok () := by
  rw [Database.checkUniqueConstraints, Database.uniqueOn, hb.free]
  rfl

section Writes

variable {b : Build} {V : Engine.Upkeep ε} {id : RecordId} {rec : Record}

theorem insert_alike (hb : Backs E db r) (hadm : Admits E db.store name id rec)
    (hreach : db.derived.1.Reaches name id) :
    Alike (Backs E) (surviving (Database.insert E ((DirectLookup.upkeep b).beside V) name id rec))
      db (ReferenceStore.insert name id rec) r := by
  have hstored : ∃ placing : String → RecordId → Bytes → Bytes → HeapM RecordLocation,
      (∀ n i c, Heap.Places (placing n i c)) ∧
      Database.insert E ((DirectLookup.upkeep b).beside V) name id rec db = (do
        let a ← onStore (Heap.insertBy E
          (fun n i c => Heap.applyPutBy E (placing n i c) n i c) name id rec)
        modify (Database.reindexInsert ((DirectLookup.upkeep b).beside V) name id
          (normalizeForStorage rec))
        return a : DatabaseM (DirectLookup × ε) Unit) db := by
    unfold Database.insert
    rw [bind_apply]
    change ∃ placing, _ ∧ (attempt (db.checkUniqueConstraints name none _) >>= _) db = _
    rw [unconstrained hb]
    cases (db.clusterFields.get name).bind fun f => Database.clusterKey f rec with
    | none => exact ⟨_, fun _ _ _ => Heap.places_place, rfl⟩
    | some key => exact ⟨_, fun n _ _ => Heap.places_placeKeyed n key, rfl⟩
  obtain ⟨placing, hp, hstored⟩ := hstored
  refine Alike.surviving (Alike.congr _ hstored
    (told (k := DirectLookup.putRecord b name id (normalizeForStorage rec)) hb
      ⟨fun _ => rfl, fun _ => rfl, fun _ => rfl⟩ (insertBy_follows hp hb.store hadm) ?_))
  rw [ReferenceStore.post_insert]
  cases hr : r.collections.get name with
  | none => rfl
  | some t =>
    dsimp only
    cases hv : t.schema.validateRecord (normalizeForStorage rec) with
    | error e => rfl
    | ok u =>
      cases hg : t.records.get id with
      | some row => rfl
      | none =>
        dsimp only
        rw [tablesOf_put]
        exact hb.shows.putRecord b (tablesOf_some hr) (writable_of_valid hv) hreach

theorem oldRecord_spec (hb : Backs E db r) (U : Engine.Upkeep (DirectLookup × ε)) (name : String)
    (id : RecordId) : Post (Database.oldRecord E U name id) db (fun _ db' => db' = db)
      fun e db' => (e = .noSuchCollection name ∧ r.collections.get name = none) ∧ db' = db := by
  unfold Database.oldRecord
  rw [post_bind, post_get]
  split_ifs
  · refine post_attempt (fun _ _ => rfl) fun e he => ⟨?_, rfl⟩
    cases hr : r.collections.get name with
    | none =>
      unfold Heap.getRecord Heap.getBy at he
      rw [hb.store.absent name hr] at he
      exact ⟨(Except.error.inj he).symm, rfl⟩
    | some t =>
      have st := hb.store.there name t hr
      rw [st.reads.get hb.store.isOpen.sound] at he
      cases he
  · rfl

/-- A program that first reads the old record, and fails where there is no collection. -/
theorem Alike.oldRecord {f : Option Record → DatabaseM (DirectLookup × ε) α}
    {y : ReferenceStore.ReferenceM α} (hb : Backs E db r) (U : Engine.Upkeep (DirectLookup × ε))
    (name : String) (id : RecordId)
    (hf : ∀ old, Alike (Backs E) (f old) db y r)
    (hy : r.collections.get name = none →
      Post y r (fun _ _ => False) fun e r' => e = .noSuchCollection name ∧ r' = r) :
    Alike (Backs E) (Database.oldRecord E U name id >>= f) db y r := by
  unfold Alike Matched
  rw [post_bind]
  refine (oldRecord_spec hb U name id).mono (fun old db' hdb => hdb ▸ hf old) fun e db' he => ?_
  obtain ⟨⟨rfl, hnone⟩, rfl⟩ := he
  refine (hy hnone).mono (fun _ _ h => h) fun e r' h => ?_
  obtain ⟨rfl, rfl⟩ := h
  exact ⟨rfl, hb⟩

theorem update_alike (hb : Backs E db r) (hadm : Admits E db.store name id rec)
    (hreach : db.derived.1.Reaches name id) :
    Alike (Backs E) (surviving (Database.update E ((DirectLookup.upkeep b).beside V) name id rec))
      db (ReferenceStore.update name id rec) r := by
  refine Alike.surviving (Alike.oldRecord hb _ name id (fun old => ?_) fun hr => ?_)
  · refine Alike.congr (do
        let existed ← onStore (Heap.update E name id rec)
        modify (Database.reindexUpdate ((DirectLookup.upkeep b).beside V) name id old
          (normalizeForStorage rec))
        return existed) ?_ ?_
    · rw [bind_apply]
      change (attempt (db.checkUniqueConstraints name (some id) _) >>= _) db = _
      rw [unconstrained hb]
      rfl
    · refine told (k := fun d => (old.elim d fun _ => d.removeRecord name id).putRecord b name id
        (normalizeForStorage rec)) hb ?_ (update_follows hb.store hadm) ?_
      · cases old with
        | none => exact ⟨fun _ => rfl, fun _ => rfl, fun _ => rfl⟩
        | some _ => exact ⟨fun _ => rfl, fun _ => rfl, fun _ => rfl⟩
      · rw [ReferenceStore.post_update]
        cases hr : r.collections.get name with
        | none => rfl
        | some t =>
          dsimp only
          cases hv : t.schema.validateRecord (normalizeForStorage rec) with
          | error e => rfl
          | ok u =>
            dsimp only
            rw [tablesOf_put]
            cases old with
            | none => exact hb.shows.putRecord b (tablesOf_some hr) (writable_of_valid hv) hreach
            | some _ =>
              obtain ⟨hshows, hcalm⟩ := hb.shows.removeRecord (tablesOf_some hr) id
              have hput := hshows.putRecord b (Function.update_self _ _ _)
                (writable_of_valid hv) (hreach.removeRecord)
              rw [Function.update_idem, OrdMap.insert_erase] at hput
              exact ⟨hput.1, hput.2.trans hcalm⟩
  · rw [ReferenceStore.post_update, hr]
    exact ⟨rfl, rfl⟩

theorem delete_alike (hb : Backs E db r) (hlog : Heap.Loggable (.delete name id)) :
    Alike (Backs E) (surviving (Database.delete E ((DirectLookup.upkeep b).beside V) name id))
      db (ReferenceStore.delete name id) r := by
  refine Alike.surviving (Alike.oldRecord hb _ name id (fun old => ?_) fun hr => ?_)
  · refine told (k := DirectLookup.removeRecord name id) hb ?_ (delete_follows hb.store hlog) ?_
    · cases old with
      | none => exact ⟨fun _ => rfl, fun _ => rfl, fun _ => rfl⟩
      | some _ => exact ⟨fun _ => rfl, fun _ => rfl, fun _ => rfl⟩
    · rw [ReferenceStore.post_delete]
      cases hr : r.collections.get name with
      | none => rfl
      | some t =>
        dsimp only
        rw [tablesOf_put]
        exact hb.shows.removeRecord (tablesOf_some hr) id
  · rw [ReferenceStore.post_delete, hr]
    exact ⟨rfl, rfl⟩

theorem createCollection_alike (hb : Backs E db r) {schema : Schema}
    (hname : isMigrationName name = false)
    (hlog : Heap.Loggable (.createCollection name (encodeSchema schema)))
    (hnarrow : DirectLookup.Narrow schema) :
    Alike (Backs E)
      (surviving (Database.createCollection E ((DirectLookup.upkeep b).beside V) name schema))
      db (ReferenceStore.createCollection name schema) r := by
  refine Alike.surviving (told (k := DirectLookup.created name schema) hb
    ⟨fun _ => rfl, fun _ => rfl, fun _ => rfl⟩ (createCollection_follows hb.store hname hlog) ?_)
  rw [ReferenceStore.post_createCollection]
  cases hr : r.collections.get name with
  | some t => rfl
  | none =>
    dsimp only
    rw [tablesOf_put]
    exact hb.shows.created (tablesOf_none hr) hnarrow

theorem dropCollection_alike (hb : Backs E db r) (hlog : Heap.Loggable (.dropCollection name)) :
    Alike (Backs E) (Database.dropCollection (ε := ε) E name) db
      (ReferenceStore.dropCollection name) r := by
  refine told (k := DirectLookup.dropArray name) hb ⟨fun _ => rfl, fun _ => rfl, fun _ => rfl⟩
    (dropCollection_follows hb.store hlog) ?_
  rw [ReferenceStore.post_dropCollection]
  cases hr : r.collections.get name with
  | none => rfl
  | some t =>
    dsimp only
    rw [tablesOf_erase]
    exact ⟨hb.shows.dropArray, rfl⟩

end Writes

/-! ## Reads -/

/-- An array answers a read by id as the records do that it was told of. -/
theorem array_get_agrees {a : DirectArray} (st : SameTable E db.store name t)
    (ha : DirectLookup.Shown a (t.schema, t.records)) (b : Build) (id : RecordId) :
    (OpOutcome.wrap (answered (a.get b id)) .fetched).Eqv (.fetched (t.records.get id)) := by
  cases hg : t.records.get id with
  | none =>
    rw [(ha.get b).1 hg]
    exact trivial
  | some row =>
    rw [(ha.get b).2 row hg]
    have hk := st.kept id row hg
    have hread := readAs_fixed ha.fixed hk.valid hk.unsigned
    rwa [normalize_self hk.noNull] at hread

theorem databaseGet_agrees (hb : Backs E db r) (b : Build) (V : Engine.Upkeep ε) (name : String)
    (id : RecordId) :
    (OpOutcome.wrap ((databaseStore E b V).get db name id) .fetched).Eqv
      (.wrap ((r.coll name).map (·.records.get id)) .fetched) := by
  unfold databaseStore
  dsimp only
  cases ha : db.derived.1.arrays.get name with
  | none => exact get_agrees hb.store name id
  | some a =>
    obtain ⟨u, hu, hshown⟩ := hb.shows.arrays name a ha
    obtain ⟨t, hr, rfl⟩ := Option.map_eq_some_iff.mp hu
    rw [ReferenceStore.coll_some hr]
    exact array_get_agrees (hb.store.there name t hr) hshown b id

/-! ## Upkeep -/

/-- What a program that only tends to the structures leaves as it is. -/
def Tends (E : Env) (r : ReferenceStore) (x : DatabaseM (DirectLookup × ε) α) : Prop :=
  ∀ db, Backs E db r → Post x db (fun _ db' => Backs E db' r) fun _ db' => Backs E db' r

theorem Tends.bind {β : Type} {x : DatabaseM (DirectLookup × ε) α}
    {f : α → DatabaseM (DirectLookup × ε) β} (hx : Tends E r x) (hf : ∀ a, Tends E r (f a)) :
    Tends E r (x >>= f) := by
  intro db hb
  rw [post_bind]
  exact (hx db hb).mono (fun a db' hb' => hf a db' hb') fun _ _ hb' => hb'

theorem Tends.get {f : Database (DirectLookup × ε) → DatabaseM (DirectLookup × ε) α}
    (hf : ∀ db, Tends E r (f db)) : Tends E r (get >>= f) := fun db hb => hf db db hb

theorem tends_attempt (e : Except Error α) :
    Tends E r (attempt e : DatabaseM (DirectLookup × ε) α) :=
  fun _ hb => post_attempt (fun _ _ => hb) fun _ _ => hb

theorem tends_pure (a : α) : Tends E r (pure a : DatabaseM (DirectLookup × ε) α) :=
  fun _ hb => hb

theorem tends_onStore {x : HeapM α} (hx : ∀ h, Agrees E h r →
    Post x h (fun _ h' => Agrees E h' r) fun _ h' => Agrees E h' r) :
    Tends E r (onStore x : DatabaseM (DirectLookup × ε) α) := by
  intro db hb
  rw [post_onStore]
  exact (hx db.store hb.store).mono (fun _ _ ha => ⟨ha, hb.free, hb.shows, hb.calm⟩)
    fun _ _ ha => ⟨ha, hb.free, hb.shows, hb.calm⟩

theorem tends_modify {f : Database (DirectLookup × ε) → Database (DirectLookup × ε)}
    (hf : Tells id f) : Tends E r (modify f) := by
  intro db hb
  rw [post_modify]
  refine ⟨?_, (hf.free db).trans hb.free, ?_, ?_⟩
  · rw [hf.store]
    exact hb.store
  · rw [hf.derived]
    exact hb.shows
  · rw [hf.derived]
    exact hb.calm

theorem tends_requireCollection (name : String) :
    Tends E r (Database.requireCollection name : DatabaseM (DirectLookup × ε) Unit) :=
  .get fun _ => tends_attempt _

theorem tends_createIndexAs (collection name : String) (kind : IndexKind)
    (shape : Except Error IndexShape) : Tends E r (Database.createIndexAs E collection name kind
      shape : DatabaseM (DirectLookup × ε) Unit) := by
  refine (tends_requireCollection _).bind fun _ => .get fun db => ?_
  split_ifs
  · exact tends_pure ()
  · refine (tends_attempt _).bind fun built => (tends_attempt _).bind fun rows => ?_
    refine (tends_modify (f := Database.pushIndex collection _)
      ⟨fun _ => rfl, fun _ => rfl, fun _ => rfl⟩).bind fun _ => tends_onStore ?_
    exact fun h ha => (Heap.recordIndex_spec E ha.isOpen.sound _).mono (fun _ _ k => ha.keeps k)
      fun _ _ k => ha.keeps k

theorem tends_setClusterField (name : String) (field : Option String) :
    Tends E r (onStore (Heap.setClusterField E name field) :
      DatabaseM (DirectLookup × ε) Unit) :=
  tends_onStore fun h ha => (Heap.beside_setClusterField E name field h).mono
    (fun _ _ k => ha.beside k) fun _ _ k => ha.beside k

theorem dropIndex_backs (hb : Backs E db r) (collection name : String) (kind : IndexKind) :
    Backs E (exec (Database.dropIndex E collection name kind) db) r := by
  unfold exec Database.dropIndex
  split_ifs
  · have hremoved : (Database.removeIndexes collection name kind db).store = db.store ∧
        (Database.removeIndexes collection name kind db).uniqueConstraints =
          db.uniqueConstraints ∧
        (Database.removeIndexes collection name kind db).derived = db.derived := by
      unfold Database.removeIndexes
      cases db.indexes.get collection with
      | none => exact ⟨rfl, rfl, rfl⟩
      | some list => exact ⟨rfl, rfl, rfl⟩
    obtain ⟨hstore, hfree, hderived⟩ := hremoved
    refine ⟨?_, hfree.trans hb.free, hderived ▸ hb.shows, hderived ▸ hb.calm⟩
    dsimp only
    rw [hstore]
    exact hb.store.keeps (Heap.forgetIndex_spec E hb.store.isOpen.sound _).exec
  · exact hb

/-! ## Building the arrays -/

/-- Records of this stride end where a buffer can reach. -/
def Spanned (stride : ℕ) (ids : List RecordId) : Prop := ∀ id ∈ ids, (id.val + 1) * stride < 2 ^ 63

-- over the ids there are, not over all that there could be
instance (stride : ℕ) (ids : List RecordId) : Decidable (Spanned stride ids) :=
  List.decidableBAll _ _

/-- Every record of a fixed schema ends where a buffer can reach. -/
def Addressable (h : Heap) (name : String) : Prop :=
  ∀ c ∈ h.collections.get name, c.codec.schema.mode = .fixed →
    ∀ ids ∈ (Heap.ids h name).toOption, Spanned (strideOf c.codec.schema) ids

instance (h : Heap) (name : String) : Decidable (Addressable h name) := by
  unfold Addressable
  infer_instance

theorem buildArray_backs (hb : Backs E db r) (b : Build) (name : String)
    (haddr : Addressable db.store name) :
    Post (Database.buildArray E b name) db (fun _ db' => Backs E db' r ∧ db'.store = db.store)
      fun _ db' => Backs E db' r := by
  unfold Database.buildArray
  rw [post_bind, post_get, post_bind]
  cases hr : r.collections.get name with
  | none =>
    refine post_attempt (fun schema hs => ?_) fun _ _ => hb
    unfold Heap.schemaOf at hs
    rw [hb.store.absent name hr] at hs
    cases hs
  | some t =>
    have st := hb.store.there name t hr
    obtain ⟨c, hc, hcodec⟩ := st.collection
    have hschema : Heap.schemaOf db.store name = .ok t.schema := by
      unfold Heap.schemaOf
      rw [hc]
      exact congrArg (fun codec : RecordCodec => Except.ok codec.schema) hcodec
    rw [hschema, post_attempt_ok]
    split_ifs with hmode
    · exact ⟨hb, rfl⟩
    · rw [not_not] at hmode
      have hs := hb.shows.narrow name _ (tablesOf_some hr) hmode
      have hids : ∀ id ∈ t.records.keys, (id.val + 1) * strideOf t.schema < 2 ^ 63 := by
        have hsame : c.codec.schema = t.schema := by rw [hcodec]; rfl
        have hspan := haddr c hc (by rwa [hsame]) t.records.keys
        rw [Heap.ids_eq hb.store.isOpen.sound st.reads, OrdMap.keys_mapVal, hsame] at hspan
        exact hspan rfl
      obtain ⟨a, hbuilt, hm⟩ := DirectArray.rebuild_mirrors b hmode hs st.kept hids
      rw [post_bind, st.reads.scan hb.store.isOpen.sound, post_attempt_ok, hbuilt]
      rw [post_modify]
      refine ⟨⟨hb.store, hb.free, ?_, hb.calm⟩, rfl⟩
      have hshown : DirectLookup.Shown a (t.schema, t.records) := ⟨hmode, hs, hm⟩
      have hset := hb.shows.setArray name hshown
      rwa [← tablesOf_some hr, Function.update_eq_self] at hset

/-! ## Runs -/

/-- What runs beside the logical calls. -/
inductive Tending (ε : Type) where
  | store (u : Upkeep)
  | declareClusterField (collection field : String)
  | clearClusterField (collection : String)
  | createIndex (collection field : String) (kind : IndexKind)
  | createCompositeIndex (collection : String) (fields : List String)
  | createCoveringIndex (collection field : String) (covers : List String) (kind : IndexKind)
  | createPartialIndex (collection field : String) (condition : Expr) (kind : IndexKind)
  | dropIndex (collection name : String) (kind : IndexKind)
  | configureDirectLookup (on : Bool)
  | enableDirectLookup
  | disableDirectLookup
  /-- What the databases that share its clock have done to it. -/
  | share (clock : VersionTracker)
  /-- Whatever becomes of the structures that only queries read. -/
  | others (f : ε → ε)

namespace Tending

def step (E : Env) (b : Build) :
    Tending ε → Database (DirectLookup × ε) → Database (DirectLookup × ε)
  | store u, db => { db with store := u.call.step E db.store }
  | declareClusterField c field, db => exec (Database.declareClusterField E c field) db
  | clearClusterField c, db => exec (Database.clearClusterField E c) db
  | createIndex c field kind, db => exec (Database.createIndex E c field kind) db
  | createCompositeIndex c fields, db => exec (Database.createCompositeIndex E c fields) db
  | createCoveringIndex c field covers kind, db =>
    exec (Database.createCoveringIndex E c field covers kind) db
  | createPartialIndex c field p kind, db => exec (Database.createPartialIndex E c field p kind) db
  | dropIndex c name kind, db => exec (Database.dropIndex E c name kind) db
  | configureDirectLookup on, db => Database.mapLookup (fun d => { d with enabled := on }) db
  | enableDirectLookup, db => exec (Database.enableDirectLookup E b) db
  | disableDirectLookup, db => exec Database.disableDirectLookup db
  | share clock, db => { db with store := { db.store with versions := clock } }
  | others f, db => { db with derived := (db.derived.1, f db.derived.2) }

/-- A vacuum cuts off no page with a version on it, arrays are built where they reach, and the
clock is never set back. -/
def Allowed (E : Env) : Tending ε → Database (DirectLookup × ε) → Prop
  | store u, db => u.Sparing E db.store
  | enableDirectLookup, db => ∀ name ∈ db.store.collectionNames, Addressable db.store name
  | share clock, db =>
    db.store.versions.next ≤ clock.next ∧ ∀ stamp ∈ clock.opened, stamp < clock.next
  | _, _ => True

instance (u : Tending ε) (db : Database (DirectLookup × ε)) : Decidable (u.Allowed E db) := by
  unfold Allowed
  split <;> infer_instance

end Tending

theorem enableDirectLookup_backs (hb : Backs E db r) (b : Build)
    (haddr : ∀ name ∈ db.store.collectionNames, Addressable db.store name) :
    Backs E (exec (Database.enableDirectLookup E b) db) r := by
  suffices h : ∀ names : List String, (∀ name ∈ names, Addressable db.store name) →
      ∀ db', Backs E db' r ∧ db'.store = db.store →
        Post (forEach (Database.buildArray E b) names) db' (fun _ db'' => Backs E db'' r)
          fun _ db'' => Backs E db'' r from
    (h _ haddr db ⟨hb, rfl⟩).exec
  intro names
  induction names with
  | nil => exact fun _ db' hb' => hb'.1
  | cons name names ih =>
    intro hnames db' hb'
    obtain ⟨hname, hrest⟩ := List.forall_mem_cons.mp hnames
    rw [forEach, post_bind]
    refine (buildArray_backs hb'.1 b name (hb'.2 ▸ hname)).mono (fun _ db'' h => ?_) fun _ _ h => h
    exact ih hrest db'' ⟨h.1, h.2.trans hb'.2⟩

theorem share_agrees {h : Heap} (ha : Agrees E h r) {clock : VersionTracker}
    (hle : h.versions.next ≤ clock.next) (hopened : ∀ stamp ∈ clock.opened, stamp < clock.next) :
    Agrees E { h with versions := clock } r := by
  have hs := ha.isOpen.sound
  have hstore : Heap.store { h with versions := clock } =
      { h.store with next := clock.next, opened := clock.opened } := rfl
  refine ha.same ⟨⟨?_, hs.fsm, hs.next.trans_le hle⟩, ha.isOpen.live⟩ rfl rfl
  rw [hstore]
  exact ⟨hs.store.live, hs.store.unique, hs.store.sorted,
    fun hv => (hs.store.stamps hv).trans_le hle, hopened⟩

theorem tending_backs (b : Build) (u : Tending ε) (hb : Backs E db r) (hu : u.Allowed E db) :
    Backs E (u.step E b db) r := by
  have hrun : ∀ {x : DatabaseM (DirectLookup × ε) Unit}, Tends E r x → Backs E (exec x db) r :=
    fun hx => (hx db hb).exec
  cases u with
  | store u => exact ⟨upkeep_agrees hb.store u hu, hb.free, hb.shows, hb.calm⟩
  | declareClusterField c field =>
    refine hrun (.get fun _ => (tends_attempt _).bind fun _ =>
      (tends_setClusterField c (some field)).bind fun _ => ?_)
    exact tends_modify ⟨fun _ => rfl, fun _ => rfl, fun _ => rfl⟩
  | clearClusterField c =>
    refine hrun ((tends_setClusterField c none).bind fun _ => ?_)
    exact tends_modify ⟨fun _ => rfl, fun _ => rfl, fun _ => rfl⟩
  | createIndex c field kind => exact hrun (tends_createIndexAs c field kind _)
  | createCompositeIndex c fields =>
    exact hrun ((tends_requireCollection c).bind fun _ => (tends_attempt _).bind fun _ =>
      tends_createIndexAs c _ _ _)
  | createCoveringIndex c field covers kind =>
    exact hrun ((tends_requireCollection c).bind fun _ => (tends_attempt _).bind fun _ =>
      tends_createIndexAs c _ _ _)
  | createPartialIndex c field p kind =>
    exact hrun ((tends_requireCollection c).bind fun _ => (tends_attempt _).bind fun _ =>
      tends_createIndexAs c _ _ _)
  | dropIndex c name kind => exact dropIndex_backs hb c name kind
  | configureDirectLookup on =>
    exact ⟨hb.store, hb.free, ⟨hb.shows.narrow, hb.shows.arrays⟩, hb.calm⟩
  | enableDirectLookup => exact enableDirectLookup_backs hb b hu
  | disableDirectLookup =>
    exact ⟨hb.store, hb.free, ⟨hb.shows.narrow, fun _ _ h => by cases h⟩, hb.calm⟩
  | share clock => exact ⟨share_agrees hb.store hu.1 hu.2, hb.free, hb.shows, hb.calm⟩
  | others f => exact ⟨hb.store, hb.free, hb.shows, hb.calm⟩

/-- The record that a call puts. -/
def Logical.puts : Logical → Option (String × RecordId)
  | .op (.insert name id _) | .op (.update name id _) | .insertKeyed name id _ _ => some (name, id)
  | _ => none

/-- The schema that a call brings. -/
def Logical.declares : Logical → Option Schema
  | .createCollection _ schema => some schema
  | _ => none

/-- What the store asks of a call, and that the arrays reach the record. -/
def DatabaseAdmitted (E : Env) (c : Logical) (db : Database (DirectLookup × ε)) : Prop :=
  Admitted E c db.store ∧ (∀ w ∈ c.puts, db.derived.1.Reaches w.1 w.2) ∧
    ∀ schema ∈ c.declares, DirectLookup.Narrow schema

instance (c : Logical) (db : Database (DirectLookup × ε)) :
    Decidable (DatabaseAdmitted E c db) := by
  unfold DatabaseAdmitted
  infer_instance

theorem database_simulates (E : Env) (b : Build) (V : Engine.Upkeep ε) :
    Simulates (databaseStore E b V) ReferenceStore.store (Backs E) (DatabaseAdmitted E) := by
  intro c db r hb hc
  cases c with
  | op o =>
    cases o with
    | insert name id rec => exact (insert_alike hb hc.1 (hc.2.1 _ rfl)).outcome _ fun _ => trivial
    | get name id => exact ⟨databaseGet_agrees hb b V name id, hb⟩
    | update name id rec => exact (update_alike hb hc.1 (hc.2.1 _ rfl)).outcome _ fun _ => rfl
    | delete name id => exact (delete_alike hb hc.1).outcome _ fun _ => rfl
    | scan name => exact ⟨scan_agrees hb.store name, hb⟩
    | count name => exact ⟨count_agrees hb.store name, hb⟩
  | createCollection name schema =>
    exact (createCollection_alike hb hc.1.1 hc.1.2 (hc.2.2 _ rfl)).outcome _ fun _ => trivial
  | dropCollection name => exact (dropCollection_alike hb hc.1).outcome _ fun _ => trivial
  | collectionNames => exact ⟨collectionNames_agree hb.store, hb⟩
  | schemaOf name => exact ⟨schemaOf_agrees hb.store name, hb⟩
  | insertKeyed name id rec key =>
    exact (insert_alike hb hc.1 (hc.2.1 _ rfl)).outcome _ fun _ => trivial
  | ids name => exact ⟨ids_agree hb.store name, hb⟩

/-- A database that was just made. -/
def emptyDatabase (strict : Bool) (others : ε) : Database (DirectLookup × ε) :=
  ⟨Heap.fresh, ∅, [], ∅, (.off, others), strict⟩

theorem backs_empty (E : Env) (strict : Bool) (others : ε) :
    Backs E (emptyDatabase strict others) .new :=
  ⟨agrees_fresh E, rfl, ⟨fun _ _ h => (by cases h), fun _ _ h => (by cases h)⟩, rfl⟩

def database (E : Env) (b : Build) (V : Engine.Upkeep ε) :
    Maintained (Database (DirectLookup × ε)) (Tending ε) :=
  { databaseStore E b V with upkeep := fun u => u.step E b }

/-- A collection that direct lookup serves. -/
def readings : Schema := ⟨.fixed, [⟨"s", .i64, true⟩, ⟨"u", .u64, true⟩], rfl⟩

def wrote : List Logical :=
  [.op (.insert "g" 2 (gauge ⟨.u64 7, trivial⟩ "s")), .op (.insert "g" 2 ∅),
    .op (.insert "g" 3 (gauge ⟨.bool true, trivial⟩ "s")), .op (.insert "g" 0 ∅),
    .op (.update "g" 5 (gauge ⟨.i64 9, trivial⟩ "u")), .op (.delete "g" 0), .op (.get "g" 2),
    .op (.get "g" 0), .op (.get "g" 5), .op (.scan "g"), .op (.get "h" 1)]

/-- The collection is written to before and while it has an index, a hint and an array, and
again after it was dropped and created anew. -/
def looked : List (Call (Tending Unit)) :=
  .logical (.createCollection "g" readings) :: wrote.map .logical ++
    [.upkeep (.createIndex "g" "s" .hash), .upkeep (.declareClusterField "g" "u"),
      .upkeep (.share ⟨40, [7]⟩), .upkeep (.configureDirectLookup true),
      .upkeep .enableDirectLookup] ++
    wrote.map .logical ++ [.upkeep (.store .reclaim), .upkeep (.dropIndex "g" "s" .hash),
      .logical (.dropCollection "g"), .logical (.createCollection "g" readings)] ++
    wrote.map .logical

theorem looked_admitted : Guarded (Call.step (database .plain .checked .none))
    (Call.Admitted (DatabaseAdmitted .plain) (Tending.Allowed .plain)) (emptyDatabase true ())
    looked := by
  decide +kernel

end Adabt.Testkit
