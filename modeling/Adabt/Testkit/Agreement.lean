import Adabt.Storage.Recompress
import Adabt.Storage.Snapshots
import Adabt.Storage.ValueCodec
import Adabt.Testkit.Differential

/-! # The heap store against the reference store

Pages, codecs, versions and the log are invisible: whatever calls are made and
whatever upkeep runs in between, the heap store answers as the reference store does. -/

set_option autoImplicit false

namespace Adabt.Storage.Heap
open Adabt.Core Adabt.Library

variable {E : Env} {h : Heap}

/-! ## Counting -/

def count (h : Heap) (collection : String) : Except Error ℕ :=
  match h.collections.get collection with
  | none => .error (.noSuchCollection collection)
  | some c => .ok (c.directory.values.filter fun chain => !chain.isAbsent).length

/-- Straight off the directory: no pages, no decodes. -/
def ids (h : Heap) (collection : String) : Except Error (List RecordId) :=
  match h.collections.get collection with
  | none => .error (.noSuchCollection collection)
  | some c => .ok (c.directory.entries.filterMap fun e => e.2.newest.map fun _ => e.1)

/-- The directory's live records are those a scan answers with. -/
theorem live_keys {name : String} {c : Collection} {records : OrdMap RecordId Record}
    (hs : h.Sound) (hc : h.collections.get name = some c) (hr : Reads E h name records) :
    (c.directory.filterMapVal fun _ chain => chain.newest).keys = records.keys := by
  have hunit : (c.directory.filterMapVal fun _ chain => chain.newest).mapVal (fun _ _ => ()) =
      records.mapVal fun _ _ => () := by
    ext id : 1
    have hlive := isLive_iff hs hc id
    rw [Ne, hr.absent_iff, isLive] at hlive
    rw [OrdMap.get_mapVal, OrdMap.get_mapVal, OrdMap.get_filterMapVal]
    cases hd : c.directory.get id with
    | none =>
      rw [hd] at hlive
      have hnone : records.get id = none := by simpa using hlive
      rw [hnone]
      rfl
    | some chain =>
      rw [hd, Option.map_some, Option.getD_some, VersionChain.isAbsent, Bool.not_eq_true'] at hlive
      rw [Option.bind_some]
      cases hn : chain.newest with
      | none =>
        rw [hn] at hlive
        have hnone : records.get id = none := by simpa using hlive
        rw [hnone]
        rfl
      | some loc =>
        rw [hn] at hlive
        obtain ⟨rec, hrec⟩ := Option.ne_none_iff_exists'.mp (hlive.mp rfl)
        rw [hrec]
        rfl
  rw [← OrdMap.keys_mapVal (fun _ _ => ()), hunit, OrdMap.keys_mapVal]

theorem ids_eq {name : String} {records : OrdMap RecordId Record} (hs : h.Sound)
    (hr : Reads E h name records) : ids h name = .ok records.keys := by
  obtain ⟨c, hc, -⟩ := hr.codec
  rw [ids, hc, ← live_keys hs hc hr, OrdMap.keys, OrdMap.filterMapVal, List.map_filterMap]
  refine congrArg Except.ok (List.filterMap_congr fun e _ => ?_)
  rw [Option.map_map]
  rfl

theorem count_eq {name : String} {records : OrdMap RecordId Record} (hs : h.Sound)
    (hr : Reads E h name records) : count h name = .ok records.size := by
  obtain ⟨c, hc, -⟩ := hr.codec
  have hsize : records.size = records.keys.length := (List.length_map _).symm
  unfold count
  rw [hc, hsize, ← live_keys hs hc hr]
  dsimp only
  rw [OrdMap.keys, OrdMap.filterMapVal, List.length_map, List.length_filterMap_eq_countP,
    ← List.countP_eq_length_filter, OrdMap.values, List.countP_map]
  refine congrArg Except.ok (List.countP_congr fun e _ => ?_)
  rw [Option.isSome_map, Function.comp_apply, VersionChain.isAbsent, Option.not_isNone]

/-! ## Calls that are refused -/

/-- The call fails with this error and changes nothing. -/
def Rejects {α : Type} (x : HeapM α) (h : Heap) (e : Error) : Prop := x h = .error e h

section Refused

variable {α β : Type} {name : String} {c : Collection} {e : Error}

theorem rejects_of_post {x : HeapM α}
    (hx : Post x h (fun _ _ => False) fun e' h' => e' = e ∧ h' = h) : Rejects x h e := by
  unfold Post at hx
  unfold Rejects
  cases hxs : x h with
  | ok a h' => simp [hxs] at hx
  | error e' h' =>
    rw [hxs] at hx
    rw [hx.1, hx.2]

theorem Rejects.bind {x : HeapM α} (hx : Rejects x h e) (f : α → HeapM β) :
    Rejects (x >>= f) h e := by
  unfold Rejects at hx ⊢
  rw [bind_apply, hx]

theorem rejects_attempt {r : Except Error α} (hr : r = .error e) : Rejects (attempt r) h e := by
  rw [hr]
  rfl

theorem coll_missing (hc : h.collections.get name = none) :
    Rejects (coll name) h (.noSuchCollection name) := by
  refine rejects_of_post ((coll_spec name h).mono (fun c _ hcoll => ?_) fun _ _ hnone => ?_)
  · rw [hc] at hcoll
    cases hcoll.1
  · exact ⟨hnone.2.2, hnone.2.1⟩

theorem coll_bind (hc : h.collections.get name = some c) (f : Collection → HeapM α) :
    (coll name >>= f) h = f c h := by
  have hspec := coll_spec name h
  unfold Post at hspec
  rw [bind_apply]
  cases hx : coll name h with
  | ok d h' =>
    rw [hx, hc] at hspec
    obtain ⟨hd, rfl⟩ := hspec
    rw [Option.some.inj hd]
  | error e h' =>
    rw [hx, hc] at hspec
    cases hspec.1

theorem insertBy_missing (put : String → RecordId → Bytes → HeapM Unit)
    (hc : h.collections.get name = none) (id : RecordId) (rec : Record) :
    Rejects (insertBy E put name id rec) h (.noSuchCollection name) := (coll_missing hc).bind _

theorem insertBy_refused (put : String → RecordId → Bytes → HeapM Unit)
    (hc : h.collections.get name = some c) {id : RecordId} {rec : Record}
    (he : prepareInsert c id (normalizeForStorage rec) = .error e) :
    Rejects (insertBy E put name id rec) h e := by
  unfold Rejects insertBy
  rw [coll_bind hc]
  exact (rejects_attempt he).bind _

theorem prepareInsert_invalid {id : RecordId} {row : Record} {e : SchemaError}
    (hv : c.codec.schema.validateRecord row = .error e) :
    prepareInsert c id row = .error (.schema e) := by
  rw [prepareInsert, validate, hv]
  rfl

theorem prepareInsert_taken {id : RecordId} {row : Record} {u : Unit}
    (hv : c.codec.schema.validateRecord row = .ok u) (hl : isLive c id = true) :
    prepareInsert c id row = .error (.recordExists id) := by
  rw [prepareInsert, validate, hv, hl]
  rfl

theorem update_missing (hc : h.collections.get name = none) (id : RecordId) (rec : Record) :
    Rejects (update E name id rec) h (.noSuchCollection name) := (coll_missing hc).bind _

theorem update_invalid (hc : h.collections.get name = some c) {id : RecordId} {rec : Record}
    {e : SchemaError} (hv : c.codec.schema.validateRecord (normalizeForStorage rec) = .error e) :
    Rejects (update E name id rec) h (.schema e) := by
  unfold Rejects update
  rw [coll_bind hc]
  refine (rejects_attempt ?_).bind _
  rw [validate, hv]

theorem delete_missing (hc : h.collections.get name = none) (id : RecordId) :
    Rejects (delete E name id) h (.noSuchCollection name) := (coll_missing hc).bind _

theorem createCollection_taken (hc : h.collections.get name = some c) (schema : Schema) :
    Rejects (createCollection E name schema) h (.collectionExists name) := by
  have hin : h.collections.contains name = true := by rw [OrdMap.contains, hc]; rfl
  refine rejects_of_post ?_
  unfold createCollection
  rw [post_bind, post_get, if_pos hin]
  exact ⟨rfl, rfl⟩

theorem dropCollection_missing (hc : h.collections.get name = none) :
    Rejects (dropCollection E name) h (.noSuchCollection name) := by
  refine rejects_of_post ?_
  unfold dropCollection
  rw [post_bind, post_get, hc]
  exact ⟨rfl, rfl⟩

end Refused

/-! ## Calls that return -/

theorem loggable_insert {name : String} {id : RecordId} {bytes : Bytes} :
    Loggable (.insert name id bytes) ↔ Loggable (.update name id bytes) := by
  unfold Loggable
  simp [WalOp.encode]

theorem insertBy_returns {placing : String → RecordId → Bytes → Bytes → HeapM RecordLocation}
    (hp : ∀ n i b, Places (placing n i b)) (hs : h.Sound) {name : String} {id : RecordId}
    {rec : Record} (hst : Storable E h name id rec) (hfree : h.stored (name, id) = none) :
    Returns (insertBy E (fun n i b => applyPutBy E (placing n i b) n i b) name id rec) h
      fun _ _ => True := by
  obtain ⟨bytes, payload, ⟨cid, codec, z, hf, hv, hb, rfl⟩, hop, hfit⟩ := hst
  obtain ⟨c, hc, heq⟩ := Option.map_eq_some_iff.mp hf
  cases heq
  have hdead : isLive c id = false := by
    rw [← Bool.not_eq_true, isLive_iff hs hc]
    exact not_not.mpr hfree
  have hprep : prepareInsert c id (normalizeForStorage rec) = .ok bytes := by
    rw [prepareInsert, validate, hv, hdead, hb]
    rfl
  unfold insertBy
  rw [Returns, post_bind]
  refine (coll_spec name h).mono (fun c' h1 hc' => ?_) fun _ h1 hc' => ?_
  · obtain ⟨hc', rfl⟩ := hc'
    obtain rfl : c = c' := Option.some.inj (hc.symm.trans hc')
    rw [post_bind, hprep, post_attempt_ok]
    exact logged_put_returns E (hp name id bytes) (loggable_insert.mpr hop) hs hc hfit
  · rw [hc] at hc'
    cases hc'.1

/-- A collection that is created is registered. -/
theorem createCollection_returns {name : String}
    (hnone : h.formatOf name = none) {schema : Schema}
    (hop : Loggable (.createCollection name (encodeSchema schema))) :
    Returns (createCollection E name schema) h fun _ h' =>
      ∃ wal, h' = register name schema { h with wal := wal } := by
  have hin : ¬ h.collections.contains name = true := by
    rw [OrdMap.contains, Option.map_eq_none_iff.mp hnone]
    exact Bool.false_ne_true
  unfold createCollection
  rw [Returns, post_bind, post_get, if_neg hin, post_bind]
  refine ((log_returns E h hop).of_post (log_spec E _ h)).mono fun _ h1 w => ?_
  obtain ⟨wal, rfl⟩ := w
  exact ⟨wal, rfl⟩

theorem dropCollection_returns (hs : h.Sound) (hopen : h.replaying = false) {name : String}
    (hthere : (h.formatOf name).isSome) (hop : Loggable (.dropCollection name)) :
    Returns (dropCollection E name) h fun _ h' => Dropped name h h' := by
  have hspec := dropCollection_spec E hs hopen name
  unfold Returns Post at hspec ⊢
  cases hx : dropCollection E name h with
  | ok u h' =>
    rw [hx] at hspec
    exact hspec.2
  | error e h' =>
    rw [hx] at hspec
    exact hspec.1 ⟨hthere, hop⟩

end Adabt.Storage.Heap

namespace Adabt.Testkit
open Adabt.Core Adabt.Library Adabt.Storage

/-! ## The calls -/

/-- The heap store behind the logical API. -/
def heapStore (E : Env) : LogicalStore Heap where
  createCollection := Heap.createCollection E
  dropCollection := Heap.dropCollection E
  collectionNames := Heap.collectionNames
  schemaOf := Heap.schemaOf
  insert := Heap.insert E
  insertKeyed := Heap.insertKeyed E
  get := Heap.getRecord E
  update := Heap.update E
  delete := Heap.delete E
  scan := Heap.scan E
  count := Heap.count
  ids := Heap.ids

/-- What runs beside the logical calls. -/
inductive Upkeep where
  | reclaim
  | vacuum (rounds : ℕ)
  | checkpoint
  | setCompression (on : Bool)
  | recompressAll
  | setClusterField (name : String) (field : Option String)
  | recordIndex (d : IndexDef)
  | forgetIndex (d : IndexDef)
  | openSnapshot
  | closeSnapshot (stamp : ℕ)

def Upkeep.call : Upkeep → StoreCall
  | reclaim => .write (.record .reclaim)
  | vacuum rounds => .vacuum rounds
  | checkpoint => .checkpoint
  | setCompression on => .setCompression on
  | recompressAll => .recompressAll
  | setClusterField name field => .setClusterField name field
  | recordIndex d => .recordIndex d
  | forgetIndex d => .forgetIndex d
  | openSnapshot => .openSnapshot
  | closeSnapshot stamp => .closeSnapshot stamp

/-! ## What the calls stay clear of -/

variable (E : Env)

/-- The encoded row fits a page, and its entry the log. -/
def Room (h : Heap) (name : String) (c : Collection) (id : RecordId) (row : Record) : Prop :=
  match c.codec.encode row with
  | .ok bytes => Heap.Loggable (.update name id bytes) ∧
    (Heap.buildPayload E c.id id bytes h.compress).length ≤ maxPayload
  | .error _ => False

/-- A record that its schema takes has room, is nested no deeper than is read back, and holds
no unsigned value that its field does not. -/
def Admits (h : Heap) (name : String) (id : RecordId) (rec : Record) : Prop :=
  match h.collections.get name with
  | none => True
  | some c => c.codec.schema.validateRecord (normalizeForStorage rec) = .ok () →
    (normalizeForStorage rec).NestedAtMost maxDepth ∧
      NoWideUnsigned c.codec.schema (normalizeForStorage rec) ∧
      Room E h name c id (normalizeForStorage rec)

/-- The log takes the entries of the calls, and no name is one that migrations keep to
themselves. -/
def Admitted : Logical → Heap → Prop
  | .op (.insert name id rec), h => Admits E h name id rec
  | .op (.update name id rec), h => Admits E h name id rec
  | .op (.delete name id), _ => Heap.Loggable (.delete name id)
  | .insertKeyed name id rec _, h => Admits E h name id rec
  | .createCollection name schema, _ => isMigrationName name = false ∧
    Heap.Loggable (.createCollection name (encodeSchema schema))
  | .dropCollection name, _ => Heap.Loggable (.dropCollection name)
  | _, _ => True

instance (h : Heap) (name : String) (c : Collection) (id : RecordId) (row : Record) :
    Decidable (Room E h name c id row) := by
  unfold Room
  split <;> infer_instance

instance (h : Heap) (name : String) (id : RecordId) (rec : Record) :
    Decidable (Admits E h name id rec) := by
  unfold Admits
  split <;> infer_instance

instance (c : Logical) (h : Heap) : Decidable (Admitted E c h) := by
  unfold Admitted
  split <;> infer_instance

/-- A vacuum cuts off no page with a version on it. -/
def Upkeep.Sparing (u : Upkeep) (h : Heap) : Prop := u.call.Sparing E h

instance (u : Upkeep) (h : Heap) : Decidable (u.Sparing E h) :=
  inferInstanceAs (Decidable (u.call.Sparing E h))

/-! ## Agreement -/

variable {E} {h h' : Heap} {r : ReferenceStore} {name : String} {t : ReferenceStore.Collection}

/-- A collection of the heap whose records are those of the reference, as its schema stores
them. -/
structure SameTable (E : Env) (h : Heap) (name : String) (t : ReferenceStore.Collection) :
    Prop where
  codec : h.codecOf name = some (.new t.schema)
  reads : Heap.Reads E h name (t.records.mapVal fun _ => asStored t.schema)
  kept : ∀ id row, t.records.get id = some row → Kept t.schema row

structure Agrees (E : Env) (h : Heap) (r : ReferenceStore) : Prop where
  isOpen : h.Open
  absent : ∀ name, r.collections.get name = none → h.collections.get name = none
  there : ∀ name t, r.collections.get name = some t → SameTable E h name t
  named : ∀ name, isMigrationName name = true → r.collections.get name = none

theorem normalize_noNull (rec : Record) : ¬ (normalizeForStorage rec).HasNull := by
  rintro ⟨e, he, hnull⟩
  have hkeep := (List.mem_filter.mp he).2
  simp [hnull] at hkeep

/-! ## What keeps the agreement -/

theorem reads_iff {records : OrdMap RecordId Record} : Heap.Reads E h name records ↔
    ∃ codec, h.codecOf name = some codec ∧ ∀ id, (h.stored (name, id)).map
      (Heap.decodePayload E codec) = (records.get id).map Except.ok := by
  unfold Heap.Reads Heap.formatOf Heap.codecOf
  cases h.collections.get name with
  | none => simp
  | some c => simp

theorem SameTable.congr (st : SameTable E h name t) (hcodec : h'.codecOf name = h.codecOf name)
    (hstored : ∀ id, h'.stored (name, id) = h.stored (name, id)) : SameTable E h' name t := by
  obtain ⟨codec, hc, hr⟩ := reads_iff.mp st.reads
  refine ⟨hcodec.trans st.codec, reads_iff.mpr ⟨codec, hcodec.trans hc, fun id => ?_⟩, st.kept⟩
  rw [hstored, hr]

theorem codecOf_none_iff : h.codecOf name = none ↔ h.collections.get name = none := by
  unfold Heap.codecOf
  rw [Option.map_eq_none_iff]

/-- What leaves codecs and payloads alone. -/
theorem Agrees.same (ha : Agrees E h r) (ho : h'.Open) (hcodec : h'.codecOf = h.codecOf)
    (hstored : h'.stored = h.stored) : Agrees E h' r := by
  refine ⟨ho, fun name hr => ?_, fun name t hr => ?_, ha.named⟩
  · rw [← codecOf_none_iff, hcodec, codecOf_none_iff]
    exact ha.absent name hr
  · exact (ha.there name t hr).congr (congrFun hcodec name) fun id => congrFun hstored _

theorem Agrees.keeps (ha : Agrees E h r) (hk : Heap.Keeps h h') : Agrees E h' r :=
  ha.same (hk.isOpen ha.isOpen) hk.evolves.codecs hk.stored

theorem Agrees.beside (ha : Agrees E h r) (hb : Heap.Beside h h') : Agrees E h' r :=
  ha.same (hb.isOpen ha.isOpen) hb.codecs (congrArg VersionStore.now hb.store)

/-- One collection is replaced on both sides. -/
theorem Agrees.put (ha : Agrees E h r) (ho : h'.Open) (hname : isMigrationName name = false)
    (st : SameTable E h' name t) (hcodecs : ∀ m, m ≠ name → h'.codecOf m = h.codecOf m)
    (hstored : ∀ m, m ≠ name → ∀ id, h'.stored (m, id) = h.stored (m, id)) :
    Agrees E h' (r.put name t) := by
  have hget : ∀ m, (r.put name t).collections.get m =
      if m = name then some t else r.collections.get m := fun m => OrdMap.get_insert _ _ _ _
  refine ⟨ho, fun m hm => ?_, fun m u hm => ?_, fun m hm => ?_⟩
  · rw [hget] at hm
    split_ifs at hm with hne
    rw [← codecOf_none_iff, hcodecs m hne, codecOf_none_iff]
    exact ha.absent m hm
  · rw [hget] at hm
    split_ifs at hm with heq
    · obtain rfl := Option.some.inj hm
      exact heq ▸ st
    · exact (ha.there m u hm).congr (hcodecs m heq) (hstored m heq)
  · rw [hget, if_neg fun heq => ?_, ha.named m hm]
    rw [heq, hname] at hm
    cases hm

theorem mapVal_insert_row (s : Schema) (rows : OrdMap RecordId Record) (id : RecordId)
    (row : Record) : (rows.insert id row).mapVal (fun _ => asStored s) =
      (rows.mapVal fun _ => asStored s).insert id (asStored s row) := by
  ext x : 1
  rw [OrdMap.get_mapVal, OrdMap.get_insert, OrdMap.get_insert, OrdMap.get_mapVal]
  split_ifs
  · rfl
  · rfl

theorem mapVal_erase_row (s : Schema) (rows : OrdMap RecordId Record) (id : RecordId) :
    (rows.erase id).mapVal (fun _ => asStored s) = (rows.mapVal fun _ => asStored s).erase id := by
  ext x : 1
  rw [OrdMap.get_mapVal, OrdMap.get_erase, OrdMap.get_erase, OrdMap.get_mapVal]
  split_ifs
  · rfl
  · rfl

theorem rewrites_elsewhere {id : RecordId} {p : Option Bytes}
    (hw : Heap.Rewrites (name, id) p h h') (m : String) (hm : m ≠ name) (x : RecordId) :
    h'.stored (m, x) = h.stored (m, x) := by
  rw [hw.stored, Function.update_of_ne fun he => hm (Prod.ext_iff.mp he).1]

theorem Agrees.name_free (ha : Agrees E h r) (hr : r.collections.get name = some t) :
    isMigrationName name = false := by
  cases hm : isMigrationName name with
  | false => rfl
  | true => exact absurd ((ha.named name hm).symm.trans hr) nofun

/-- A record is stored on both sides. -/
theorem Agrees.store (ha : Agrees E h r) (hr : r.collections.get name = some t) {id : RecordId}
    {rec : Record} {bytes payload : Bytes} (hst : Heap.StoredAs E h name id rec bytes payload)
    (hk : Kept t.schema (normalizeForStorage rec)) (hlen : bytes.length ≤ maxEntry)
    (hw : Heap.Rewrites (name, id) (some payload) h h') : Agrees E h'
      (r.put name { t with records := t.records.insert id (normalizeForStorage rec) }) := by
  have st := ha.there name t hr
  obtain ⟨cid, codec, z, hf, -, henc, rfl⟩ := hst.ofFormat
  have hcodec : codec = .new t.schema := by
    have hc := st.codec
    unfold Heap.codecOf at hc
    unfold Heap.formatOf at hf
    cases hg : h.collections.get name with
    | none => simp [hg] at hf
    | some c =>
      simp only [hg, Option.map_some, Option.some.injEq, Prod.mk.injEq] at hf hc
      rw [← hf.2.1, hc]
  subst hcodec
  refine ha.put (hw.evolves.isOpen ha.isOpen) (ha.name_free hr) ⟨?_, ?_, fun x row hx => ?_⟩
    (fun m _ => congrFun hw.evolves.codecs m) (rewrites_elsewhere hw)
  · rw [hw.evolves.codecs, st.codec]
  · dsimp only
    rw [mapVal_insert_row]
    refine st.reads.put hw fun f hf' => ?_
    obtain rfl := Option.some.inj (hf'.symm.trans hf)
    rw [Heap.decode_buildPayload]
    exact decode_kept hk henc hlen
  · rw [OrdMap.get_insert] at hx
    split_ifs at hx
    · exact Option.some.inj hx ▸ hk
    · exact st.kept x row hx

/-- A record is removed on both sides. -/
theorem Agrees.remove (ha : Agrees E h r) (hr : r.collections.get name = some t) {id : RecordId}
    (hw : Heap.Rewrites (name, id) none h h') :
    Agrees E h' (r.put name { t with records := t.records.erase id }) := by
  have st := ha.there name t hr
  refine ha.put (hw.evolves.isOpen ha.isOpen) (ha.name_free hr) ⟨?_, ?_, fun x row hx => ?_⟩
    (fun m _ => congrFun hw.evolves.codecs m) (rewrites_elsewhere hw)
  · rw [hw.evolves.codecs, st.codec]
  · dsimp only
    rw [mapVal_erase_row]
    exact st.reads.remove hw
  · rw [OrdMap.get_erase] at hx
    split_ifs at hx
    exact st.kept x row hx

/-! ## One call on both sides -/

section Calls

variable {α : Type} {x : HeapM α} {y : ReferenceStore.ReferenceM α}

def Follows (E : Env) (x : HeapM α) (h : Heap) (y : ReferenceStore.ReferenceM α)
    (r : ReferenceStore) : Prop := Alike (Agrees E) x h y r

theorem follows_rejects (ha : Agrees E h r) {e : Error} (hx : Heap.Rejects x h e)
    (hy : Post y r (fun _ _ => False) fun f r' => f = e ∧ r' = r) : Follows E x h y r := by
  unfold Heap.Rejects at hx
  unfold Follows Alike Matched Post
  rw [hx]
  refine hy.mono (fun _ _ hF => hF) fun f r' hf => ?_
  rw [hf.1, hf.2]
  exact ⟨rfl, ha⟩

theorem follows_returns {P : α → Heap → Prop} {b : α} {q : ReferenceStore}
    (hx : Returns x h P) (hy : Returns y r fun b' s => b' = b ∧ s = q)
    (hagree : ∀ a h', P a h' → a = b ∧ Agrees E h' q) : Follows E x h y r := by
  refine hx.mono fun a h' hp => hy.mono fun b' s hb => ?_
  obtain ⟨rfl, rfl⟩ := hb
  exact hagree a h' hp

theorem SameTable.collection (st : SameTable E h name t) :
    ∃ c, h.collections.get name = some c ∧ c.codec = .new t.schema :=
  Option.map_eq_some_iff.mp st.codec

theorem SameTable.stored_iff (st : SameTable E h name t) (id : RecordId) :
    h.stored (name, id) = none ↔ t.records.get id = none := by
  rw [st.reads.absent_iff, OrdMap.get_mapVal, Option.map_eq_none_iff]

/-- A record that the calls do not stay clear of can be stored, and is read back. -/
theorem admitted {c : Collection} {id : RecordId} {rec : Record}
    (hadm : Admits E h name id rec) (hc : h.collections.get name = some c)
    (hcodec : c.codec = .new t.schema)
    (hv : t.schema.validateRecord (normalizeForStorage rec) = .ok ()) :
    Heap.Storable E h name id rec ∧ Kept t.schema (normalizeForStorage rec) := by
  have hschema : c.codec.schema = t.schema := by rw [hcodec]; rfl
  unfold Admits at hadm
  rw [hc] at hadm
  obtain ⟨hnest, hunsigned, hroom⟩ := hadm (hschema ▸ hv)
  rw [hschema] at hunsigned
  refine ⟨?_, hv, normalize_noNull rec, hnest, hunsigned⟩
  unfold Room at hroom
  cases henc : c.codec.encode (normalizeForStorage rec) with
  | error e => simp [henc] at hroom
  | ok bytes =>
    rw [henc] at hroom
    exact ⟨bytes, _, ⟨_, _, _, Heap.formatOf_eq hc, hschema ▸ hv, henc, rfl⟩, hroom⟩

theorem stored_length {id : RecordId} {rec : Record} {bytes payload : Bytes}
    (hst : Heap.StoredAs E h name id rec bytes payload) (h' : Heap.Storable E h name id rec) :
    bytes.length ≤ maxEntry := by
  obtain ⟨_, _, _, hf, -, henc, -⟩ := hst.ofFormat
  obtain ⟨bytes', _, ⟨_, _, _, hf', -, henc', -⟩, hlog, -⟩ := h'
  cases hf.symm.trans hf'
  obtain rfl := Except.ok.inj (henc.symm.trans henc')
  exact Heap.length_of_loggable (Heap.loggable_insert.mpr hlog)

theorem insertBy_follows {placing : String → RecordId → Bytes → Bytes → HeapM RecordLocation}
    (hp : ∀ n i b, Heap.Places (placing n i b)) (ha : Agrees E h r) {id : RecordId} {rec : Record}
    (hadm : Admits E h name id rec) :
    Follows E (Heap.insertBy E (fun n i b => Heap.applyPutBy E (placing n i b) n i b) name id rec) h
      (ReferenceStore.insert name id rec) r := by
  cases hr : r.collections.get name with
  | none =>
    refine follows_rejects ha (Heap.insertBy_missing _ (ha.absent name hr) id rec) ?_
    rw [ReferenceStore.post_insert, hr]
    exact ⟨rfl, rfl⟩
  | some t =>
    have st := ha.there name t hr
    obtain ⟨c, hc, hcodec⟩ := st.collection
    have hs := ha.isOpen.sound
    have hlive := Heap.isLive_iff hs hc id
    rw [Ne, st.stored_iff] at hlive
    cases hv : t.schema.validateRecord (normalizeForStorage rec) with
    | error e =>
      have hv' : c.codec.schema.validateRecord (normalizeForStorage rec) = .error e := hcodec ▸ hv
      refine follows_rejects ha
        (Heap.insertBy_refused _ hc (Heap.prepareInsert_invalid hv')) ?_
      rw [ReferenceStore.post_insert, hr]
      dsimp only
      rw [hv]
      exact ⟨rfl, rfl⟩
    | ok u =>
      cases hg : t.records.get id with
      | some row =>
        rw [hg] at hlive
        have hv' : c.codec.schema.validateRecord (normalizeForStorage rec) = .ok u := hcodec ▸ hv
        refine follows_rejects ha
          (Heap.insertBy_refused _ hc (Heap.prepareInsert_taken hv' (hlive.mpr nofun))) ?_
        rw [ReferenceStore.post_insert, hr]
        dsimp only
        rw [hv, hg]
        exact ⟨rfl, rfl⟩
      | none =>
        obtain ⟨hst, hk⟩ := admitted hadm hc hcodec hv
        have hfree := (st.stored_iff id).mpr hg
        refine follows_returns (b := ())
          ((Heap.insertBy_returns hp hs hst hfree).of_post (Heap.insertBy_spec E hp hs name id rec))
          (q := r.put name { t with records := t.records.insert id (normalizeForStorage rec) }) ?_
          fun _ h' hspec => ?_
        · rw [Returns, ReferenceStore.post_insert, hr]
          dsimp only
          rw [hv, hg]
          exact ⟨rfl, rfl⟩
        · obtain ⟨-, bytes, payload, hstored, hw⟩ := hspec
          exact ⟨rfl, ha.store hr hstored hk (stored_length hstored hst) hw⟩

theorem update_follows (ha : Agrees E h r) {id : RecordId} {rec : Record}
    (hadm : Admits E h name id rec) :
    Follows E (Heap.update E name id rec) h (ReferenceStore.update name id rec) r := by
  cases hr : r.collections.get name with
  | none =>
    refine follows_rejects ha (Heap.update_missing (ha.absent name hr) id rec) ?_
    rw [ReferenceStore.post_update, hr]
    exact ⟨rfl, rfl⟩
  | some t =>
    have st := ha.there name t hr
    obtain ⟨c, hc, hcodec⟩ := st.collection
    have hs := ha.isOpen.sound
    cases hv : t.schema.validateRecord (normalizeForStorage rec) with
    | error e =>
      have hv' : c.codec.schema.validateRecord (normalizeForStorage rec) = .error e := hcodec ▸ hv
      refine follows_rejects ha (Heap.update_invalid hc hv') ?_
      rw [ReferenceStore.post_update, hr]
      dsimp only
      rw [hv]
      exact ⟨rfl, rfl⟩
    | ok u =>
      obtain ⟨hst, hk⟩ := admitted hadm hc hcodec hv
      refine follows_returns (b := (t.records.get id).isSome)
        ((Heap.update_returns E hs hst).of_post (Heap.update_spec E hs name id rec))
        (q := r.put name { t with records := t.records.insert id (normalizeForStorage rec) }) ?_
        fun existed h' hspec => ?_
      · rw [Returns, ReferenceStore.post_update, hr]
        dsimp only
        rw [hv]
        exact ⟨rfl, rfl⟩
      · obtain ⟨hexisted, bytes, payload, hstored, hw⟩ := hspec
        refine ⟨Bool.eq_iff_iff.mpr ?_, ha.store hr hstored hk (stored_length hstored hst) hw⟩
        rw [hexisted, Ne, st.stored_iff, Option.isSome_iff_ne_none]

theorem delete_follows (ha : Agrees E h r) {id : RecordId}
    (hlog : Heap.Loggable (.delete name id)) :
    Follows E (Heap.delete E name id) h (ReferenceStore.delete name id) r := by
  cases hr : r.collections.get name with
  | none =>
    refine follows_rejects ha (Heap.delete_missing (ha.absent name hr) id) ?_
    rw [ReferenceStore.post_delete, hr]
    exact ⟨rfl, rfl⟩
  | some t =>
    have st := ha.there name t hr
    obtain ⟨c, hc, -⟩ := st.collection
    have hs := ha.isOpen.sound
    have hthere : (h.formatOf name).isSome := by rw [Heap.formatOf_eq hc]; rfl
    refine follows_returns (b := (t.records.get id).isSome)
      ((Heap.delete_returns E hs hthere (.inr hlog)).of_post (Heap.delete_spec E hs name id))
      (q := r.put name { t with records := t.records.erase id }) ?_ fun existed h' hspec => ?_
    · rw [Returns, ReferenceStore.post_delete, hr]
      exact ⟨rfl, rfl⟩
    · rcases hspec with ⟨rfl, hlive, hw⟩ | ⟨rfl, hdead, hk⟩
      · rw [Ne, st.stored_iff, ← Ne, ← Option.isSome_iff_ne_none] at hlive
        exact ⟨hlive.symm, ha.remove hr hw⟩
      · have hnone := (st.stored_iff id).mp hdead
        rw [hnone, OrdMap.erase_of_none _ hnone, ReferenceStore.put_self hr]
        exact ⟨rfl, ha.keeps hk⟩

theorem createCollection_follows (ha : Agrees E h r) {schema : Schema}
    (hname : isMigrationName name = false)
    (hlog : Heap.Loggable (.createCollection name (encodeSchema schema))) :
    Follows E (Heap.createCollection E name schema) h
      (ReferenceStore.createCollection name schema) r := by
  cases hr : r.collections.get name with
  | some t =>
    obtain ⟨c, hc, -⟩ := (ha.there name t hr).collection
    refine follows_rejects ha (Heap.createCollection_taken hc schema) ?_
    rw [ReferenceStore.post_createCollection, hr]
    exact ⟨rfl, rfl⟩
  | none =>
    have hnone : h.formatOf name = none := by
      rw [Heap.formatOf, ha.absent name hr]
      rfl
    refine follows_returns (b := ()) (q := r.put name ⟨schema, ∅⟩)
      (Heap.createCollection_returns hnone hlog) ?_ fun _ h' hreg => ⟨rfl, ?_⟩
    · rw [Returns, ReferenceStore.post_createCollection, hr]
      exact ⟨rfl, rfl⟩
    · obtain ⟨wal, rfl⟩ := hreg
      have hb : Agrees E { h with wal := wal } r := ha.beside (Heap.WalOnly.beside ⟨wal, rfl⟩)
      have hreads := @Heap.register_reads E _ hb.isOpen.sound name hnone schema
      have hstored := (Heap.register_registers hb.isOpen.sound (Option.map_eq_none_iff.mp hnone)
        schema).stored
      have hcodec : ∀ m, (Heap.register name schema { h with wal := wal }).codecOf m =
          if m = name then some (.new schema) else h.codecOf m := by
        intro m
        unfold Heap.codecOf Heap.register Heap.registerWithId
        rw [OrdMap.get_insert]
        split_ifs
        · rfl
        · rfl
      refine hb.put (hb.isOpen.register name schema) hname ⟨?_, ?_, fun _ _ h => ?_⟩
        (fun m hm => ?_) fun m _ id => congrFun hstored _
      · rw [hcodec, if_pos rfl]
      · exact hreads
      · cases h
      · rw [hcodec, if_neg hm]
        rfl

theorem dropCollection_follows (ha : Agrees E h r) (hlog : Heap.Loggable (.dropCollection name)) :
    Follows E (Heap.dropCollection E name) h (ReferenceStore.dropCollection name) r := by
  cases hr : r.collections.get name with
  | none =>
    refine follows_rejects ha (Heap.dropCollection_missing (ha.absent name hr)) ?_
    rw [ReferenceStore.post_dropCollection, hr]
    exact ⟨rfl, rfl⟩
  | some t =>
    obtain ⟨c, hc, -⟩ := (ha.there name t hr).collection
    have hthere : (h.formatOf name).isSome := by rw [Heap.formatOf_eq hc]; rfl
    refine follows_returns (b := ()) (q := ⟨r.collections.erase name⟩)
      (Heap.dropCollection_returns ha.isOpen.sound ha.isOpen.live hthere hlog) ?_
      fun _ h' d => ⟨rfl, ?_⟩
    · rw [Returns, ReferenceStore.post_dropCollection, hr]
      exact ⟨rfl, rfl⟩
    · have hcodec : ∀ m, h'.codecOf m = if m = name then none else h.codecOf m := by
        intro m
        have hf := congrFun d.format m
        have hcodecs : ∀ u : Heap, u.codecOf m = (u.formatOf m).map (·.2.1) := fun u => by
          unfold Heap.codecOf Heap.formatOf
          rw [Option.map_map]
          rfl
        rw [hcodecs, hcodecs, hf, Function.update_apply]
        split_ifs
        · rfl
        · rfl
      have hget : ∀ m, (r.collections.erase name).get m =
          if m = name then none else r.collections.get m := fun m => OrdMap.get_erase _ _ _
      refine ⟨⟨d.rekeyed.sound, d.rekeyed.mode.trans ha.isOpen.live⟩, fun m hm => ?_,
        fun m u hm => ?_, fun m hm => ?_⟩
      · rw [← codecOf_none_iff, hcodec]
        split_ifs with heq
        · rfl
        · rw [hget, if_neg heq] at hm
          rw [codecOf_none_iff]
          exact ha.absent m hm
      · rw [hget] at hm
        split_ifs at hm with heq
        refine (ha.there m u hm).congr (by rw [hcodec, if_neg heq]) fun id => ?_
        rw [d.rekeyed.stored, if_neg heq]
        rfl
      · rw [hget, ha.named m hm, ite_self]

end Calls

/-! ## Re-encoding -/

theorem normalize_self {row : Record} (hnull : ¬ row.HasNull) : normalizeForStorage row = row := by
  ext name : 1
  rw [normalizeForStorage, OrdMap.get_filter]
  cases hv : row.get name with
  | none => rfl
  | some v =>
    rw [Option.filter_some, Record.not_null_of_get hnull hv]
    rfl

theorem insert_self {rows : OrdMap RecordId Record} {id : RecordId} {row : Record}
    (hg : rows.get id = some row) : rows.insert id row = rows := by
  ext x : 1
  rw [OrdMap.get_insert]
  split_ifs with hx
  · rw [hx, hg]
  · rfl

/-- A row that is stored again is the row it was, and where it cannot be stored nothing
changes. -/
theorem recompressRow_agrees (ha : Agrees E h r) (hr : r.collections.get name = some t)
    {id : RecordId} {row : Record} (hg : t.records.get id = some row) :
    Post (Heap.recompressRow E name (id, asStored t.schema row)) h (fun _ h' => Agrees E h' r)
      fun _ h' => Agrees E h' r := by
  have st := ha.there name t hr
  have hk := st.kept id row hg
  obtain ⟨c, hc, hcodec⟩ := st.collection
  unfold Heap.recompressRow
  rw [post_bind]
  refine (Heap.coll_spec name h).mono (fun d h1 hcoll => ?_) fun _ h1 hnone => ?_
  · obtain ⟨hd, rfl⟩ := hcoll
    obtain rfl : c = d := Option.some.inj (hc.symm.trans hd)
    rw [post_bind]
    refine post_attempt (fun bytes henc => ?_) fun _ _ => ha
    rw [hcodec, encode_asStored hk.noNull] at henc
    rw [post_bind]
    refine (Heap.log_decides E _ h1 ha.isOpen.live).mono (fun _ h2 w => ?_) fun _ _ w =>
      ha.beside w.2.beside
    obtain ⟨hlog, w⟩ := w
    have ha2 := ha.beside w.beside
    obtain ⟨wal, rfl⟩ := w
    refine (Heap.applyPutBy_spec E Heap.places_place ha2.isOpen.sound (c := c) hc id bytes).mono
      (fun _ h3 hw => ?_) fun _ h3 hno => ?_
    · have hlen := Heap.length_of_loggable (Heap.loggable_insert.mpr hlog)
      have hrow := normalize_self hk.noNull
      have hstored : Heap.StoredAs E { h1 with wal := wal } name id row bytes _ :=
        ⟨_, _, _, Heap.formatOf_eq hc, by rw [hcodec, hrow]; exact hk.valid,
          by rw [hcodec, hrow]; exact henc, rfl⟩
      have hsame := ha2.store hr hstored (hrow.symm ▸ hk) hlen hw
      rw [hrow, insert_self hg, ReferenceStore.put_self hr] at hsame
      exact hsame
    · rw [hno.2.1]
      exact ha2
  · rw [hnone.2.1]
    exact ha

theorem recompressCollection_agrees (ha : Agrees E h r) (name : String) :
    Post (Heap.recompressCollection E name) h (fun _ h' => Agrees E h' r)
      fun _ h' => Agrees E h' r := by
  unfold Heap.recompressCollection
  rw [post_bind, post_get]
  cases hr : r.collections.get name with
  | none =>
    unfold Heap.scan Heap.scanBy
    rw [ha.absent name hr]
    exact ha
  | some t =>
    rw [(ha.there name t hr).reads.scan ha.isOpen.sound, post_bind, post_attempt_ok]
    refine post_forEach (I := fun rows h' => Agrees E h' r ∧ ∀ e ∈ rows, ∃ row,
      t.records.get e.1 = some row ∧ e.2 = asStored t.schema row) (fun e rows h' hi => ?_) _ _
      ⟨ha, fun e he => ?_⟩ |>.mono (fun _ _ hi => hi.1) fun _ _ hi => hi
    · obtain ⟨row, hg, heq⟩ := hi.2 e List.mem_cons_self
      have hrow := recompressRow_agrees hi.1 hr hg
      rw [← heq] at hrow
      exact hrow.mono (fun _ _ ha' => ⟨ha', fun x hx => hi.2 x (List.mem_cons_of_mem _ hx)⟩)
        fun _ _ ha' => ha'
    · obtain ⟨e', he', rfl⟩ := List.mem_map.mp he
      exact ⟨e'.2, (OrdMap.mem_entries _ _ _).mp he', rfl⟩

/-- Re-encoding everything changes no record, even where it stops half way. -/
theorem recompressAll_agrees (ha : Agrees E h r) :
    Post (Heap.recompressAll E) h (fun _ h' => Agrees E h' r) fun _ h' => Agrees E h' r := by
  unfold Heap.recompressAll
  rw [post_bind, post_get, post_bind]
  refine post_attempt (fun before _ => ?_) fun _ _ => ha
  rw [post_bind, post_get, post_bind]
  refine (post_forEach (I := fun _ h' => Agrees E h' r) (fun n _ h' ha' =>
    recompressCollection_agrees ha' n) _ _ ha).mono (fun _ h' ha' => ?_) fun _ _ ha' => ha'
  rw [post_bind, post_get, post_bind]
  exact post_attempt (fun _ _ => ha') fun _ _ => ha'

/-! ## Reads -/

theorem asStored_rows {records : OrdMap RecordId Record} {s : Schema}
    (hk : ∀ id row, records.get id = some row → Kept s row) :
    List.Forall₂ (fun p q => p.1 = q.1 ∧ p.2.Eqv q.2)
      (records.mapVal fun _ => asStored s).entries records.entries := by
  rw [OrdMap.mapVal, List.forall₂_map_left_iff, List.forall₂_same]
  intro e he
  have hkept := hk e.1 e.2 ((OrdMap.mem_entries _ _ _).mp he)
  exact ⟨rfl, (asStored_eqv_iff hkept.valid hkept.noNull).mpr hkept.unsigned⟩

section Reads

variable (ha : Agrees E h r)

include ha

theorem get_agrees (name : String) (id : RecordId) :
    (OpOutcome.wrap (Heap.getRecord E h name id) .fetched).Eqv
      (.wrap ((r.coll name).map (·.records.get id)) .fetched) := by
  cases hr : r.collections.get name with
  | none =>
    unfold Heap.getRecord Heap.getBy
    rw [ha.absent name hr, ReferenceStore.coll_none hr]
    rfl
  | some t =>
    have st := ha.there name t hr
    rw [st.reads.get ha.isOpen.sound, OrdMap.get_mapVal, ReferenceStore.coll_some hr]
    dsimp only [Except.map]
    cases hg : t.records.get id with
    | none => exact trivial
    | some row =>
      have hk := st.kept id row hg
      exact (asStored_eqv_iff hk.valid hk.noNull).mpr hk.unsigned

theorem scan_agrees (name : String) :
    (OpOutcome.wrap (Heap.scan E h name) .rows).Eqv
      (.wrap ((r.coll name).map (·.records.entries)) .rows) := by
  cases hr : r.collections.get name with
  | none =>
    unfold Heap.scan Heap.scanBy
    rw [ha.absent name hr, ReferenceStore.coll_none hr]
    rfl
  | some t =>
    have st := ha.there name t hr
    rw [st.reads.scan ha.isOpen.sound, ReferenceStore.coll_some hr]
    exact asStored_rows st.kept

theorem count_agrees (name : String) :
    (OpOutcome.wrap (Heap.count h name) .count).Eqv
      (.wrap ((r.coll name).map (·.records.size)) .count) := by
  cases hr : r.collections.get name with
  | none =>
    unfold Heap.count
    rw [ha.absent name hr, ReferenceStore.coll_none hr]
    rfl
  | some t =>
    have st := ha.there name t hr
    rw [Heap.count_eq ha.isOpen.sound st.reads, ReferenceStore.coll_some hr]
    exact List.length_map (fun e : RecordId × Record => (e.1, asStored t.schema e.2))

theorem ids_agree (name : String) : (Heap.ids h name).mapError ErrKind.of =
    (((r.coll name).map (·.records.entries)).map (·.map Prod.fst)).mapError ErrKind.of := by
  cases hr : r.collections.get name with
  | none =>
    unfold Heap.ids
    rw [ha.absent name hr, ReferenceStore.coll_none hr]
    rfl
  | some t =>
    have st := ha.there name t hr
    rw [Heap.ids_eq ha.isOpen.sound st.reads, OrdMap.keys_mapVal, ReferenceStore.coll_some hr]
    rfl

theorem schemaOf_agrees (name : String) : (Heap.schemaOf h name).mapError ErrKind.of =
    ((r.coll name).map (·.schema)).mapError ErrKind.of := by
  unfold Heap.schemaOf
  cases hr : r.collections.get name with
  | none =>
    rw [ha.absent name hr, ReferenceStore.coll_none hr]
    rfl
  | some t =>
    obtain ⟨c, hc, hcodec⟩ := (ha.there name t hr).collection
    rw [hc, ReferenceStore.coll_some hr]
    dsimp only
    rw [hcodec]
    rfl

theorem collectionNames_agree :
    Heap.collectionNames h = r.collections.keys := by
  have hunit : h.collections.mapVal (fun _ _ => ()) = r.collections.mapVal fun _ _ => () := by
    ext name : 1
    rw [OrdMap.get_mapVal, OrdMap.get_mapVal]
    cases hr : r.collections.get name with
    | none =>
      rw [ha.absent name hr]
      rfl
    | some t =>
      obtain ⟨c, hc, -⟩ := (ha.there name t hr).collection
      rw [hc]
      rfl
  have hkeys : h.collections.keys = r.collections.keys := by
    rw [← OrdMap.keys_mapVal (fun _ _ => ()), hunit, OrdMap.keys_mapVal]
  unfold Heap.collectionNames
  rw [hkeys]
  refine List.filter_eq_self.mpr fun name hname => ?_
  cases hm : isMigrationName name with
  | false => rfl
  | true =>
    rw [OrdMap.mem_keys, ha.named name hm] at hname
    cases hname

end Reads

/-! ## Runs -/

theorem upkeep_agrees (ha : Agrees E h r) (u : Upkeep) (hu : u.Sparing E h) :
    Agrees E (u.call.step E h) r := by
  have ho := ha.isOpen
  cases u with
  | reclaim =>
    refine ha.keeps (Post.exec ?_)
    rw [RecordCall.program, post_bind]
    exact (Heap.keeps_reclaim E ho.sound).mono fun _ _ k => k
  | vacuum rounds => exact ha.keeps (Heap.vacuum_keeps ho.sound hu)
  | checkpoint => exact ha.beside ((Heap.beside_checkpoint E).exec h)
  | setCompression on => exact ha.beside (Heap.beside_setCompression on h)
  | recompressAll => exact (recompressAll_agrees ha).exec
  | setClusterField name field =>
    exact ha.beside ((Heap.beside_setClusterField E name field).exec h)
  | recordIndex d => exact ha.keeps (Heap.recordIndex_spec E ho.sound d).exec
  | forgetIndex d => exact ha.keeps (Heap.forgetIndex_spec E ho.sound d).exec
  | openSnapshot => exact ha.same ho.openSnapshot rfl rfl
  | closeSnapshot stamp => exact ha.same (ho.closeSnapshot stamp) rfl rfl

theorem heap_simulates (E : Env) :
    Simulates (heapStore E) ReferenceStore.store (Agrees E) (Admitted E) := by
  intro c h r ha hc
  cases c with
  | op o =>
    cases o with
    | insert name id rec =>
      exact (insertBy_follows (fun _ _ _ => Heap.places_place) ha hc).outcome _ fun _ => trivial
    | get name id => exact ⟨get_agrees ha name id, ha⟩
    | update name id rec => exact (update_follows ha hc).outcome _ fun _ => rfl
    | delete name id => exact (delete_follows ha hc).outcome _ fun _ => rfl
    | scan name => exact ⟨scan_agrees ha name, ha⟩
    | count name => exact ⟨count_agrees ha name, ha⟩
  | createCollection name schema =>
    exact (createCollection_follows ha hc.1 hc.2).outcome _ fun _ => trivial
  | dropCollection name => exact (dropCollection_follows ha hc).outcome _ fun _ => trivial
  | collectionNames => exact ⟨collectionNames_agree ha, ha⟩
  | schemaOf name => exact ⟨schemaOf_agrees ha name, ha⟩
  | insertKeyed name id rec key =>
    exact (insertBy_follows (fun n _ _ => Heap.places_placeKeyed n key) ha hc).outcome _
      fun _ => trivial
  | ids name => exact ⟨ids_agree ha name, ha⟩

theorem agrees_fresh (E : Env) : Agrees E Heap.fresh .new :=
  ⟨Heap.fresh_open, fun _ _ => rfl, nofun, fun _ _ => rfl⟩

def heap (E : Env) : Maintained Heap Upkeep :=
  { heapStore E with upkeep := fun u => u.call.step E }

theorem heap_run (E : Env) (cs : List (Call Upkeep))
    (hcs : Guarded (Call.step (heap E)) (Call.Admitted (Admitted E) (Upkeep.Sparing E))
      Heap.fresh cs) :
    List.Forall₂ Reply.Eqv (replies (heap E) Heap.fresh cs)
        (replies ReferenceStore.store.idle .new cs) ∧
      Agrees E (run (Call.step (heap E)) Heap.fresh cs)
        (run (Call.step ReferenceStore.store.idle) .new cs) :=
  Simulates.run (S := heap E) (heap_simulates E) (fun u _ _ ha hu => upkeep_agrees ha u hu)
    (agrees_fresh E) cs hcs

/-- A collection whose signed, unsigned and floating fields take integers of either kind. -/
def gauges : Schema :=
  ⟨.declared, [⟨"s", .i64, true⟩, ⟨"u", .u64, true⟩, ⟨"f", .f64, true⟩], rfl⟩

def gauge (v : OrdValue) (name : String) : Record := (∅ : Record).set name v

/-- Writes of every kind, some of them refused, and the reads. -/
def measured : List Logical :=
  [.createCollection "g" gauges, .createCollection "g" gauges,
    .op (.insert "g" 2 (gauge ⟨.u64 7, trivial⟩ "s")),
    .op (.insert "g" 2 (gauge ⟨.u64 7, trivial⟩ "s")),
    .op (.insert "g" 3 (gauge ⟨.bool true, trivial⟩ "s")),
    .insertKeyed "g" 1 (gauge ⟨.null, trivial⟩ "u") 5,
    .op (.update "g" 1 (gauge ⟨.i64 9, trivial⟩ "u")), .op (.delete "g" 2), .op (.delete "g" 2),
    .op (.get "g" 1), .op (.get "g" 2), .op (.scan "g"), .op (.count "g"), .ids "g", .schemaOf "g",
    .collectionNames, .op (.get "h" 1)]

/-- With upkeep in between, and the collection dropped in the end. -/
def session : List (Call Upkeep) :=
  measured.map .logical ++ [.upkeep .openSnapshot, .upkeep (.setCompression true),
    .upkeep .recompressAll, .upkeep .checkpoint, .upkeep .reclaim] ++ measured.map .logical ++
    [.logical (.dropCollection "g"), .logical (.op (.scan "g"))]

theorem session_admitted : Guarded (Call.step (heap .plain))
    (Call.Admitted (Admitted .plain) (Upkeep.Sparing .plain)) Heap.fresh session := by
  decide +kernel

/-- After any calls, the runner finds no divergence. -/
theorem compare_heap_reference (E : Env) (cs : List (Call Upkeep)) (ops : List Op)
    (hcs : Guarded (Call.step (heap E)) (Call.Admitted (Admitted E) (Upkeep.Sparing E))
      Heap.fresh cs)
    (hops : Guarded (advance (apply (heapStore E))) (fun op => Admitted E (.op op))
      (run (Call.step (heap E)) Heap.fresh cs) ops) :
    result (compare (heapStore E) ReferenceStore.store ops)
      (run (Call.step (heap E)) Heap.fresh cs, run (Call.step ReferenceStore.store.idle) .new cs) =
      .ok ops.length := by
  have hagree := (heap_simulates E).agree (heap_run E cs hcs).2 ops hops
  have hspec := compare_spec (heapStore E) ReferenceStore.store ops
    (run (Call.step (heap E)) Heap.fresh cs) (run (Call.step ReferenceStore.store.idle) .new cs)
  unfold Post at hspec
  unfold result
  split at hspec
  · rw [hspec.1]
  · exact absurd hagree hspec.disagree

end Adabt.Testkit
