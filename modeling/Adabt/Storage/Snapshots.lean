import Adabt.Storage.Clustering
import Adabt.Storage.SchemaChange
import Adabt.Storage.Vacuum

/-! # Snapshots

A reader that holds a snapshot finds what was stored when it was opened, whatever
is written, reclaimed or moved since. A reclaim frees each location once, and none
that a chain still names. A vacuum is no exception as long as it cuts off no page
with a version on it. -/

set_option autoImplicit false

namespace Adabt.Storage
open Adabt.Core Adabt.Library

namespace Heap

variable (E : Env) {h : Heap}

/-! ## What a reclaim frees -/

theorem mem_reclaimTo {chain : VersionChain} {horizon : ℕ} {loc : RecordLocation}
    (hl : loc ∈ (chain.reclaimTo horizon).2) : ∃ t, (t, some loc) ∈ chain.versions := by
  rw [VersionChain.reclaimTo_freed, List.mem_filterMap] at hl
  obtain ⟨⟨t, l⟩, hv, rfl⟩ := hl
  exact ⟨t, (chain.reclaimTo_trim horizon).mem_gone hv⟩

/-- A chain frees no location twice. -/
theorem reclaimTo_nodup (hs : h.store.Sound) {k : Key} {chain : VersionChain}
    (hk : h.chainAt k = some chain) (horizon : ℕ) : (chain.reclaimTo horizon).2.Nodup := by
  have htrim := chain.reclaimTo_trim horizon
  have hchain : h.store.chain k = chain.versions := by
    change h.chainOf k = _
    rw [chainOf_def, hk]
    rfl
  have hsorted := hs.sorted k
  rw [hchain, htrim.split] at hsorted
  rw [VersionChain.reclaimTo_freed, List.Nodup, List.pairwise_filterMap]
  refine (List.pairwise_append.mp hsorted).1.imp_of_mem fun {v w} hv hw hlt a ha b hb hab => ?_
  subst hab
  have hva : h.store.Owns a k v.1 := by
    rw [VersionStore.Owns, ← ha]
    exact chainAt_mem hk (htrim.mem_gone hv)
  have hwa : h.store.Owns a k w.1 := by
    rw [VersionStore.Owns, ← hb]
    exact chainAt_mem hk (htrim.mem_gone hw)
  exact absurd (hs.unique hva hwa).2 (Nat.ne_of_lt hlt)

/-- Nor do the records of one collection. -/
theorem freedLocations_nodup (hs : h.store.Sound) {name : String} {c : Collection}
    (hc : h.collections.get name = some c) (horizon : ℕ) :
    (freedLocations horizon c.directory).Nodup := by
  have hat : ∀ e ∈ c.directory.entries, h.chainAt (name, e.1) = some e.2 := by
    intro e he
    rw [chainAt, hc, Option.bind_some, (OrdMap.mem_entries _ _ _).mp he]
  rw [freedLocations, OrdMap.values, List.flatMap_map, List.nodup_flatMap]
  refine ⟨fun e he => reclaimTo_nodup hs (hat e he) horizon, ?_⟩
  refine c.directory.sorted.imp_of_mem fun {e f} he hf hlt loc hl hl' => ?_
  obtain ⟨t, ht⟩ := mem_reclaimTo hl
  obtain ⟨u, hu⟩ := mem_reclaimTo hl'
  have hsame := (hs.unique (chainAt_mem (hat e he) ht) (chainAt_mem (hat f hf) hu)).1
  exact absurd (congrArg Prod.snd hsame) hlt.ne

/-- Nor does a reclaim. -/
theorem freedBy_nodup (hs : h.store.Sound) : (freedBy E h).Nodup := by
  have hnames : (E.names h.wal.nextLsn h.collections.keys).Nodup :=
    (E.names_perm _ _).nodup_iff.mpr h.collections.keys_nodup
  have howner : ∀ {name : String} {loc : RecordLocation},
      loc ∈ ((h.collections.get name).map fun c =>
        freedLocations h.versions.reclaimHorizon c.directory).getD [] →
      ∃ id t, h.store.Owns loc (name, id) t := by
    intro name loc hl
    cases hc : h.collections.get name with
    | none =>
      rw [hc] at hl
      cases hl
    | some c =>
      rw [hc, Option.map_some, Option.getD_some] at hl
      obtain ⟨id, chain, hd, t, ht⟩ := mem_freedLocations.mp hl
      exact ⟨id, t, owns_of_mem hc hd ((chain.reclaimTo_trim _).mem_gone ht)⟩
  rw [freedBy, List.nodup_flatMap]
  constructor
  · intro name _
    cases hc : h.collections.get name with
    | none => exact List.nodup_nil
    | some c => exact freedLocations_nodup hs hc _
  · refine hnames.imp fun {m n} hne loc hm hn => ?_
    obtain ⟨i, t, hi⟩ := howner hm
    obtain ⟨j, u, hj⟩ := howner hn
    exact hne (congrArg Prod.fst (hs.unique hi hj).1)

/-- A location that a reclaim frees is named by no chain afterwards. -/
theorem freedBy_unowned (hs : h.store.Sound) {loc : RecordLocation} (hl : loc ∈ freedBy E h)
    (k : Key) (t : ℕ) : ¬ (exec (reclaim E) h).store.Owns loc k t := by
  have hr : Reclaimed E h (exec (reclaim E) h) :=
    ((reclaim_spec E hs).mono fun _ _ r => r.2).exec
  intro ho
  rw [VersionStore.Owns] at ho
  change (t, some loc) ∈ (exec (reclaim E) h).chainOf k at ho
  rw [hr.chainOf, chainOf_trimAll] at ho
  obtain ⟨j, u, hg⟩ := (mem_freedBy_iff E).mp hl
  exact hs.gone_not_kept h.trim_keptOf hg (Chain.mem_settle ho)

/-! ## Calls on the tables -/

/-- The heap is sound, and its calls are logged. -/
structure Open (h : Heap) : Prop where
  sound : h.Sound
  live : h.replaying = false

theorem Evolves.isOpen {h' : Heap} (ho : h.Open) (e : Evolves h h') : h'.Open :=
  ⟨e.sound, e.mode.trans ho.live⟩

theorem within_writing {α : Type} {x : HeapM α} (hx : Writing x) : Within (Preserves Open) x :=
  within_preserves fun _ ho => (hx ho.sound).mono (fun _ _ => Evolves.isOpen ho) fun _ _ =>
    Evolves.isOpen ho

theorem fresh_open : fresh.Open := ⟨fresh_sound, rfl⟩

/-- Records, pages, codecs and stamps are as they were. -/
structure Beside (h h' : Heap) : Prop where
  store : h'.store = h.store
  codecs : h'.codecOf = h.codecOf
  fsm : h'.fsm = h.fsm
  pages : h'.pool.pageCount = h.pool.pageCount
  mode : h'.replaying = h.replaying

instance : Std.Refl Beside := ⟨fun _ => ⟨rfl, rfl, rfl, rfl, rfl⟩⟩

instance : IsTrans Heap Beside := ⟨fun _ _ _ a b => ⟨b.store.trans a.store,
  b.codecs.trans a.codecs, b.fsm.trans a.fsm, b.pages.trans a.pages, b.mode.trans a.mode⟩⟩

theorem Beside.isOpen {h' : Heap} (ho : h.Open) (u : Beside h h') : h'.Open := by
  have hversions : h'.versions.next = h.versions.next := congrArg VersionStore.next u.store
  refine ⟨⟨u.store ▸ ho.sound.store, ?_, hversions ▸ ho.sound.next⟩, u.mode.trans ho.live⟩
  unfold FsmInRange
  rw [u.fsm, u.pages]
  exact ho.sound.fsm

theorem WalOnly.beside {h' : Heap} (w : WalOnly h h') : Beside h h' := by
  obtain ⟨wal, rfl⟩ := w
  exact ⟨rfl, rfl, rfl, rfl, rfl⟩

theorem beside_log (op : WalOp) : Within Beside (log E op) := fun h =>
  (log_spec E op h).mono (fun _ _ w => w.beside) fun _ _ w => w.beside

/-- A table entry that is overwritten takes its records with it. -/
theorem Open.register (ho : h.Open) (name : String) (schema : Schema) :
    (register name schema h).Open := by
  have hrekeyed : h.store.Rekeyed (fun k => if k.1 = name then none else some k)
      (Heap.register name schema h).store := by
    refine ⟨fun {k k' j} hk hk' => ?_, fun k => ?_, fun _ _ => rfl, rfl, rfl⟩
    · split_ifs at hk hk'
      exact (Option.some.inj hk).trans (Option.some.inj hk').symm
    · change (Heap.register name schema h).chainOf k = _
      unfold chainOf Heap.register registerWithId
      rw [OrdMap.get_insert]
      split_ifs
      · rfl
      · rfl
  exact ⟨⟨hrekeyed.sound ho.sound.store, ho.sound.fsm, ho.sound.next⟩, ho.live⟩

theorem open_createCollection (name : String) (schema : Schema) :
    Within (Preserves Open) (createCollection E name schema) := by
  refine within_get.bind fun h => ?_
  by_cases hin : h.collections.contains name
  · rw [if_pos hin]
    exact within_throw _
  · rw [if_neg hin]
    exact (within_writing (writing_log E _)).bind fun _ =>
      within_modify fun h ho => Open.register ho name schema

theorem open_dropCollection (name : String) :
    Within (Preserves Open) (dropCollection E name) :=
  within_preserves fun _ ho => (dropCollection_spec E ho.sound ho.live name).mono
    (fun _ _ d => ⟨d.2.rekeyed.sound, d.2.rekeyed.mode.trans ho.live⟩)
    fun _ _ k => k.2.evolves.isOpen ho

theorem open_adopt {target source : String} (hne : target ≠ source) :
    Within (Preserves Open) (adopt target source) := by
  refine within_preserves fun h ho => ?_
  cases hs : h.collections.get source with
  | none =>
    unfold adopt
    rw [post_bind, post_get, hs]
    exact ho
  | some staged =>
    cases ht : h.collections.get target with
    | some old =>
      exact (adopt_spec ho.sound hne hs ht).mono fun _ _ a =>
        ⟨a.rekeyed.sound, a.rekeyed.mode.trans ho.live⟩
    | none =>
      have ht' : (unregister source staged h).collections.get target = none := by
        unfold unregister
        rw [OrdMap.get_erase, if_neg hne, ht]
      unfold adopt
      rw [post_bind, post_get, hs]
      dsimp only
      rw [post_bind, post_modify, post_bind, post_get, ht']
      dsimp only
      rw [post_modify]
      have hsound : ∀ h' : Heap, h'.store = { h.store with chain := h'.chainOf } →
          (∀ k, h'.chainOf k = ((adoptedFrom target source k).map h.chainOf).getD []) →
          h'.store.Sound := by
        intro h' hstore hchain
        have hr : h.store.Rekeyed (adoptedFrom target source) h'.store := by
          rw [hstore]
          exact ⟨adoptedFrom_once, hchain, fun _ _ => rfl, rfl, rfl⟩
        exact hr.sound ho.sound.store
      refine ⟨⟨hsound _ rfl fun k => ?_, ho.sound.fsm, ho.sound.next⟩, ho.live⟩
      unfold chainOf adoptedFrom unregister
      simp only [OrdMap.get_insert, OrdMap.get_erase]
      by_cases h1 : k.1 = source
      · simp only [h1, hne.symm, if_true, if_false]
        rfl
      · by_cases h2 : k.1 = target
        · simp only [h2, hne, if_true, if_false, Option.map_some, Option.getD_some, hs]
        · simp only [h1, h2, if_false]
          rfl

theorem writing_copyRow (staging : String) (row : RecordId × Record) :
    Writing (copyRow E staging row) :=
  (writing_coll staging).bind fun _ => (Writing.attempt _).bind fun _ =>
    (writing_log E _).bind fun _ => writing_applyPutBy E places_place _ _ _

theorem open_migrate (name : String) (schema : Schema) :
    Within (Preserves Open) (migrate E name schema) := by
  have hrest : ∀ rows projected : List (RecordId × Record), Within (Preserves Open) (do
      log E (.createCollection (migrationName name) (encodeSchema schema))
      modify (register (migrationName name) schema)
      forEach (copyRow E (migrationName name)) projected
      log E (.adoptMigration name (migrationName name))
      adopt name (migrationName name)
      return rows.length) := fun rows projected =>
    (within_writing (writing_log E _)).bind fun _ =>
      (within_modify fun h ho => Open.register ho (migrationName name) schema).bind fun _ =>
        (within_writing (Writing.forEach (writing_copyRow E _) projected)).bind fun _ =>
          (within_writing (writing_log E _)).bind fun _ =>
            (open_adopt (ne_migrationName name)).bind fun _ => within_pure _
  refine within_get.bind fun h => (within_attempt _).bind fun rows => (within_attempt _).bind
    fun _ => within_get.bind fun h1 => ?_
  dsimp only
  by_cases hin : h1.collections.contains (migrationName name)
  · rw [if_pos hin]
    exact (open_dropCollection E _).bind fun _ => hrest rows _
  · rw [if_neg hin]
    exact hrest rows _

theorem open_setSchema (name : String) (schema : Schema) :
    Within (Preserves Open) (setSchema name schema) := by
  refine within_preserves fun h ho => ?_
  unfold setSchema
  rw [post_bind]
  refine (coll_spec name h).mono (fun c h1 hcoll => ?_) fun _ h1 hnone => ?_
  · obtain ⟨hc, rfl⟩ := hcoll
    exact ⟨(recoded ho.sound hc schema).1, ho.live⟩
  · rw [hnone.2.1]
    exact ho

theorem open_alterSchema (name : String) (schema : Schema) :
    Within (Preserves Open) (alterSchema E name schema) := by
  unfold alterSchema
  by_cases hm : isMigrationName name
  · rw [if_pos hm]
    exact within_throw _
  · rw [if_neg hm]
    refine (within_writing (writing_coll name)).bind fun c => ?_
    by_cases hin : schemaEditableInPlace c.codec.schema schema
    · rw [if_pos hin]
      exact (within_writing (writing_log E _)).bind fun _ =>
        (open_setSchema name schema).bind fun _ => within_pure 0
    · rw [if_neg hin]
      exact open_migrate E name schema

/-! ## Declarations and checkpoints -/

theorem Keeps.isOpen {h' : Heap} (ho : h.Open) (k : Keeps h h') : h'.Open := k.evolves.isOpen ho

theorem beside_setClusterField (name : String) (field : Option String) :
    Within Beside (setClusterField E name field) := by
  refine Within.bind (fun h => (coll_spec name h).mono (fun _ _ hc => ?_) fun _ _ hc => ?_) fun _ =>
    (beside_log E _).bind fun _ => within_modify fun h => ?_
  · exact hc.2 ▸ refl_of Beside h
  · exact hc.2.1 ▸ refl_of Beside h
  · unfold setCluster
    cases hc : h.collections.get name with
    | none => exact refl_of Beside h
    | some c =>
      have hchain : (setCollection name { c with clusterName := field } h).chainOf = h.chainOf := by
        funext k
        unfold chainOf setCollection
        rw [OrdMap.get_insert]
        split_ifs with hk
        · rw [hk, hc]
          rfl
        · rfl
      have hcodec := codecOf_setCollection (d := { c with clusterName := field }) hc rfl
      refine ⟨?_, hcodec, rfl, rfl, rfl⟩
      unfold store
      rw [hchain]
      rfl

theorem beside_logCheckpoint (flushed : ℕ) : Within Beside (logCheckpoint E flushed) := by
  refine within_get.bind fun h => ?_
  dsimp only
  refine (within_modify ?_).bind fun _ => within_attempt _
  exact fun h => ⟨rfl, rfl, rfl, rfl, rfl⟩

theorem beside_checkpoint : Within Beside (checkpoint E) := by
  have hflush : Within Beside
      (modify fun h => { h with pool := h.pool.flush } : HeapM PUnit) := by
    refine within_modify fun h => ⟨?_, rfl, rfl, Pool.pageCount_flush h.pool, rfl⟩
    have hread : h.pool.flush.read = h.pool.read := funext (Pool.read_flush h.pool)
    unfold store
    rw [hread]
    rfl
  refine hflush.bind fun _ => within_get.bind fun h => (beside_logCheckpoint E _).bind fun _ =>
    (within_modify ?_).bind fun _ => (within_modify ?_).bind fun _ =>
      (within_modify ?_).bind fun _ => within_modify ?_
  · exact fun h => ⟨rfl, rfl, rfl, rfl, rfl⟩
  · exact fun h => ⟨rfl, rfl, rfl, rfl, rfl⟩
  · exact fun h => ⟨rfl, rfl, rfl, rfl, rfl⟩
  · exact fun h => ⟨rfl, rfl, rfl, rfl, rfl⟩

end Heap

/-! ## Calls -/

/-- The calls that write records or reclaim versions. -/
inductive WriteCall where
  | record (c : RecordCall)
  | insertBatch (name : String) (records : List (RecordId × Record))

def WriteCall.step (E : Env) : WriteCall → Heap → Heap
  | record c => c.step E
  | insertBatch name records => exec (Heap.insertBatch E name records)

/-- The calls that may have come before. -/
inductive StoreCall where
  | write (c : WriteCall)
  | createCollection (name : String) (schema : Schema)
  | dropCollection (name : String)
  | alterSchema (name : String) (schema : Schema)
  | setCompression (on : Bool)
  | recompressAll
  | setClusterField (name : String) (field : Option String)
  | recordIndex (d : IndexDef)
  | forgetIndex (d : IndexDef)
  | checkpoint
  | vacuum (rounds : ℕ)
  | openSnapshot
  | closeSnapshot (stamp : ℕ)

def StoreCall.step (E : Env) : StoreCall → Heap → Heap
  | write c => c.step E
  | createCollection name schema => exec (Heap.createCollection E name schema)
  | dropCollection name => exec (Heap.dropCollection E name)
  | alterSchema name schema => exec (Heap.alterSchema E name schema)
  | setCompression on => Heap.setCompression on
  | recompressAll => exec (Heap.recompressAll E)
  | setClusterField name field => exec (Heap.setClusterField E name field)
  | recordIndex d => exec (Heap.recordIndex E d)
  | forgetIndex d => exec (Heap.forgetIndex E d)
  | checkpoint => exec (Heap.checkpoint E)
  | vacuum rounds => exec (Heap.vacuum E rounds)
  | openSnapshot => exec Heap.openSnapshot
  | closeSnapshot stamp => Heap.closeSnapshot stamp

/-- A vacuum cuts off no page with a version on it. -/
def StoreCall.Sparing (E : Env) : StoreCall → Heap → Prop
  | vacuum rounds, h => Heap.Spares E rounds (exec (Heap.reclaim E) h)
  | _, _ => True

instance (E : Env) (c : StoreCall) (h : Heap) : Decidable (c.Sparing E h) :=
  match c with
  | .vacuum rounds => inferInstanceAs (Decidable (Heap.Spares E rounds _))
  | .write _ | .createCollection _ _ | .dropCollection _ | .alterSchema _ _ | .setCompression _
  | .recompressAll | .setClusterField _ _ | .recordIndex _ | .forgetIndex _ | .checkpoint
  | .openSnapshot | .closeSnapshot _ => isTrue trivial

/-- What may happen while a snapshot is open, besides. -/
def StoreCall.Later (E : Env) (stamp : ℕ) : StoreCall → Heap → Prop
  | createCollection _ _, _ => False
  | dropCollection _, _ => False
  | alterSchema _ _, _ => False
  | closeSnapshot s, _ => s ≠ stamp
  | c, h => c.Sparing E h

instance (E : Env) (stamp : ℕ) (c : StoreCall) (h : Heap) : Decidable (c.Later E stamp h) :=
  match c with
  | .createCollection _ _ | .dropCollection _ | .alterSchema _ _ => isFalse id
  | .closeSnapshot s => inferInstanceAs (Decidable (s ≠ stamp))
  | .vacuum rounds => inferInstanceAs (Decidable (StoreCall.Sparing E (.vacuum rounds) h))
  | .write _ | .setCompression _ | .recompressAll | .setClusterField _ _ | .recordIndex _
  | .forgetIndex _ | .checkpoint | .openSnapshot => isTrue trivial

/-- A call, or a part of one after which a reclaim may come up: a logged entry, a version
just written, a tombstone just pushed. -/
inductive Stage where
  | call (c : StoreCall)
  | log (op : WalOp)
  | put (name : String) (id : RecordId) (bytes : Bytes) (key : Option Int64)
  | remove (name : String) (id : RecordId)

namespace Heap

/-- Where a put places its payload. -/
def placingOf (name : String) : Option Int64 → Bytes → HeapM RecordLocation
  | none => place
  | some key => placeKeyed name key

variable (E : Env)

/-- A put without the reclaim at its end. -/
def putOnly (name : String) (id : RecordId) (bytes : Bytes) (key : Option Int64) : HeapM Unit := do
  match (← get).collections.get name with
  | none => return ()
  | some c => writeVersion E (placingOf name key) name c id bytes

/-- A delete without the reclaim at its end; whether it pushed a tombstone. -/
def removeOnly (name : String) (id : RecordId) : HeapM Bool := do
  let txn ← beginWrite
  match (← get).collections.get name with
  | none => return false
  | some c =>
    match c.directory.get id with
    | none => return false
    | some chain =>
      if chain.isAbsent then return false
      else
        modify (pushTombstone name id txn c chain)
        return true

end Heap

def Stage.step (E : Env) : Stage → Heap → Heap
  | call c => c.step E
  | log op => exec (Heap.log E op)
  | put name id bytes key => exec (Heap.putOnly E name id bytes key)
  | remove name id => exec (Heap.removeOnly name id)

def Stage.Sparing (E : Env) : Stage → Heap → Prop
  | call c, h => c.Sparing E h
  | _, _ => True

instance (E : Env) (stage : Stage) (h : Heap) : Decidable (stage.Sparing E h) :=
  match stage with
  | .call c => inferInstanceAs (Decidable (c.Sparing E h))
  | .log _ | .put _ _ _ _ | .remove _ _ => isTrue trivial

namespace Heap

variable {E : Env} {h : Heap}

theorem writing_program (c : RecordCall) : Writing (c.program E) := by
  cases c with
  | insertKeyed name id rec key => exact writing_insertKeyed E name id rec key
  | insert name id rec => exact writing_insert E name id rec
  | update name id rec => exact (writing_update E name id rec).bind fun _ => .pure ()
  | delete name id => exact (writing_delete E name id).bind fun _ => .pure ()
  | reclaim => exact (writing_reclaim E).bind fun _ => .pure ()

theorem write_evolves (hs : h.Sound) (c : WriteCall) : Evolves h (c.step E h) := by
  cases c with
  | record c => exact (writing_program c hs).exec
  | insertBatch name records => exact (writing_insertBatch E name records hs).exec

theorem Open.openSnapshot (ho : h.Open) : (exec Heap.openSnapshot h).Open :=
  ⟨⟨ho.sound.store.openSnapshot ho.sound.next, ho.sound.fsm, ho.sound.next⟩, ho.live⟩

theorem Open.closeSnapshot (ho : h.Open) (stamp : ℕ) : (Heap.closeSnapshot stamp h).Open := by
  refine ⟨⟨ho.sound.store.closeSnapshot fun t ht => ?_, ho.sound.fsm, ho.sound.next⟩, ho.live⟩
  exact mem_of_mem_swapRemoveFirst ht

theorem beside_setCompression (on : Bool) (h : Heap) : Beside h (setCompression on h) :=
  ⟨rfl, rfl, rfl, rfl, rfl⟩

theorem vacuum_keeps (hs : h.Sound) {rounds : ℕ}
    (hspare : Spares E rounds (exec (reclaim E) h)) : Keeps h (exec (vacuum E rounds) h) :=
  (keeps_vacuum E hs hspare).exec

theorem call_open (ho : h.Open) (c : StoreCall) (hc : c.Sparing E h) : (c.step E h).Open := by
  cases c with
  | write c => exact (write_evolves ho.sound c).isOpen ho
  | createCollection name schema => exact (open_createCollection E name schema).exec h ho
  | dropCollection name => exact (open_dropCollection E name).exec h ho
  | alterSchema name schema => exact (open_alterSchema E name schema).exec h ho
  | setCompression on => exact (beside_setCompression on h).isOpen ho
  | recompressAll => exact (within_writing (writing_recompressAll E)).exec h ho
  | setClusterField name field => exact ((beside_setClusterField E name field).exec h).isOpen ho
  | recordIndex d => exact ((recordIndex_spec E ho.sound d).exec).isOpen ho
  | forgetIndex d => exact ((forgetIndex_spec E ho.sound d).exec).isOpen ho
  | checkpoint => exact ((beside_checkpoint E).exec h).isOpen ho
  | vacuum rounds => exact (vacuum_keeps ho.sound hc).isOpen ho
  | openSnapshot => exact ho.openSnapshot
  | closeSnapshot stamp => exact ho.closeSnapshot stamp

/-- A history in which every vacuum spares the versions keeps the store in order. -/
theorem history_open {cs : List StoreCall}
    (hcs : Guarded (StoreCall.step E) (StoreCall.Sparing E) fresh cs) :
    (run (StoreCall.step E) fresh cs).Open :=
  run_invariant (I := Open) (fun c _ ho hc => call_open ho c hc) fresh_open hcs

/-! ## While a snapshot is open -/

/-- The snapshot is still open, and under it every key and every codec is as it was. -/
structure Watched (stamp : ℕ) (h h' : Heap) : Prop where
  isOpen : h'.Open
  held : stamp ∈ h'.store.opened
  codecs : h'.codecOf = h.codecOf
  see : ∀ k, h'.store.see stamp k = h.store.see stamp k

theorem Watched.trans {stamp : ℕ} {h1 h2 : Heap} (a : Watched stamp h h1)
    (b : Watched stamp h1 h2) : Watched stamp h h2 :=
  ⟨b.isOpen, b.held, b.codecs.trans a.codecs, fun k => (b.see k).trans (a.see k)⟩

theorem Evolves.watched {stamp : ℕ} {h' : Heap} (e : Evolves h h') (ho : h.Open)
    (hheld : stamp ∈ h.store.opened) : Watched stamp h h' where
  isOpen := e.isOpen ho
  held := (VersionStore.Writes.opened_eq e.writes).symm ▸ hheld
  codecs := e.codecs
  see := VersionStore.Writes.see_eq e.writes ho.sound.store hheld

theorem Beside.watched {stamp : ℕ} {h' : Heap} (u : Beside h h') (ho : h.Open)
    (hheld : stamp ∈ h.store.opened) : Watched stamp h h' where
  isOpen := u.isOpen ho
  held := u.store.symm ▸ hheld
  codecs := u.codecs
  see k := by rw [u.store]

theorem call_watched {stamp : ℕ} (ho : h.Open) (hheld : stamp ∈ h.store.opened) (c : StoreCall)
    (hc : c.Later E stamp h) : Watched stamp h (c.step E h) := by
  cases c with
  | write c => exact (write_evolves ho.sound c).watched ho hheld
  | createCollection name schema => exact hc.elim
  | dropCollection name => exact hc.elim
  | alterSchema name schema => exact hc.elim
  | setCompression on => exact (beside_setCompression on h).watched ho hheld
  | recompressAll => exact ((writing_recompressAll E ho.sound).exec).watched ho hheld
  | setClusterField name field =>
    exact ((beside_setClusterField E name field).exec h).watched ho hheld
  | recordIndex d => exact ((recordIndex_spec E ho.sound d).exec).evolves.watched ho hheld
  | forgetIndex d => exact ((forgetIndex_spec E ho.sound d).exec).evolves.watched ho hheld
  | checkpoint => exact ((beside_checkpoint E).exec h).watched ho hheld
  | vacuum rounds => exact (vacuum_keeps ho.sound hc).evolves.watched ho hheld
  | openSnapshot => exact ⟨ho.openSnapshot, List.mem_append_left _ hheld, rfl, fun _ => rfl⟩
  | closeSnapshot s =>
    refine ⟨ho.closeSnapshot s, ?_, rfl, fun _ => rfl⟩
    have hmem : stamp ∈ h.versions.opened.erase s := (List.mem_erase_of_ne (Ne.symm hc)).mpr hheld
    exact (swapRemoveFirst_perm s h.versions.opened).mem_iff.mpr hmem

theorem later_watched {stamp : ℕ} (ho : h.Open) (hheld : stamp ∈ h.store.opened)
    {cs : List StoreCall}
    (hcs : Guarded (StoreCall.step E) (StoreCall.Later E stamp) h cs) :
    Watched stamp h (run (StoreCall.step E) h cs) := by
  induction cs generalizing h with
  | nil => exact ⟨ho, hheld, rfl, fun _ => rfl⟩
  | cons c cs ih =>
    have hc := call_watched ho hheld c hcs.1
    exact hc.trans (ih hc.isOpen hc.held hcs.2)

/-! ## Stages -/

theorem places_placingOf (name : String) (key : Option Int64) : Places (placingOf name key) := by
  cases key with
  | none => exact places_place
  | some key => exact places_placeKeyed name key

theorem applyPut_eq (name : String) (id : RecordId) (bytes : Bytes) (key : Option Int64) :
    applyPutBy E (placingOf name key) name id bytes = get >>= fun h =>
      putOnly E name id bytes key >>= fun _ =>
        if h.collections.contains name then maybeReclaim E else pure () := by
  funext h
  refine eq_of_post fun Q R => ?_
  unfold applyPutBy putOnly
  rw [post_bind, post_bind, post_get, post_get, post_bind, post_bind, post_get]
  by_cases hin : h.collections.contains name
  · obtain ⟨c, hc⟩ := Option.isSome_iff_exists.mp hin
    rw [if_pos hin, hc]
    exact post_bind ..
  · have hc : h.collections.get name = none := Option.not_isSome_iff_eq_none.mp hin
    rw [if_neg hin, hc]
    rfl

theorem applyDelete_eq (name : String) (id : RecordId) :
    applyDelete E name id = removeOnly name id >>= fun removed =>
      (if removed then maybeReclaim E else pure ()) >>= fun _ => pure removed := by
  funext h
  refine eq_of_post fun Q R => ?_
  unfold applyDelete removeOnly
  rw [post_bind, post_bind, post_bind]
  change Post _ (began h) Q R ↔ Post _ (began h) _ R
  simp only [post_bind, post_get]
  cases (began h).collections.get name with
  | none => rfl
  | some c =>
    dsimp only
    cases c.directory.get id with
    | none => rfl
    | some chain =>
      dsimp only
      by_cases ha : chain.isAbsent
      · rw [if_pos ha, if_pos ha]
        rfl
      · rw [if_neg ha, if_neg ha]
        simp only [post_bind, post_modify, post_pure, if_true]

theorem writing_putOnly (name : String) (id : RecordId) (bytes : Bytes) (key : Option Int64) :
    Writing (putOnly E name id bytes key) := by
  intro h hs
  unfold putOnly
  rw [post_bind, post_get]
  cases hc : h.collections.get name with
  | none => exact Evolves.refl hs
  | some c =>
    refine (writeVersion_spec E (places_placingOf name key) hs.fsm name c id bytes).mono
      (fun _ _ w => w.evolves E hs hc) fun _ _ w => ?_
    rw [w.2.1]
    exact Evolves.refl hs

theorem writing_removeOnly (name : String) (id : RecordId) : Writing (removeOnly name id) := by
  intro h hs
  have hb := began_evolves hs
  unfold removeOnly
  rw [post_bind]
  change Post _ (began h) _ _
  rw [post_bind, post_get]
  cases hc : (began h).collections.get name with
  | none => exact hb
  | some c =>
    dsimp only
    cases hd : c.directory.get id with
    | none => exact hb
    | some chain =>
      dsimp only
      by_cases ha : chain.isAbsent
      · rw [if_pos ha]
        exact hb
      · rw [if_neg ha, post_bind, post_modify]
        exact tombstone_evolves hs hc hd fun hn => ha (VersionChain.isAbsent_iff.mpr hn)

theorem stage_open (ho : h.Open) (stage : Stage) (hstage : stage.Sparing E h) :
    (stage.step E h).Open := by
  cases stage with
  | call c => exact call_open ho c hstage
  | log op => exact ((beside_log E op).exec h).isOpen ho
  | put name id bytes key => exact (within_writing (writing_putOnly name id bytes key)).exec h ho
  | remove name id => exact (within_writing (writing_removeOnly name id)).exec h ho

/-! ## The results -/

/-- A collection with one record. -/
def oneRecord : List StoreCall :=
  [.createCollection "t" Schema.dynamic, .write (.record (.insert "t" 1 ∅))]

/-- The record is deleted, another comes, and a vacuum runs. -/
def meanwhile : List StoreCall :=
  [.write (.record (.delete "t" 1)), .write (.record (.insert "t" 2 ∅)), .vacuum 2]

theorem oneRecord_sparing :
    Guarded (StoreCall.step .plain) (StoreCall.Sparing .plain) fresh oneRecord := by
  decide +kernel

theorem meanwhile_later : Guarded (StoreCall.step .plain)
    (StoreCall.Later .plain (run (StoreCall.step .plain) fresh oneRecord).versions.current)
    (exec Heap.openSnapshot (run (StoreCall.step .plain) fresh oneRecord)) meanwhile := by
  decide +kernel

/-- The moment after a tombstone was pushed. -/
def removing : List Stage := oneRecord.map .call ++ [.remove "t" 1]

theorem removing_sparing : Guarded (Stage.step .plain) (Stage.Sparing .plain) fresh removing := by
  decide +kernel

/-- The record was deleted before the snapshot was opened. -/
def emptied : List StoreCall :=
  oneRecord ++ [.write (.record (.delete "t" 1)), .openSnapshot]

theorem emptied_sparing :
    Guarded (StoreCall.step .plain) (StoreCall.Sparing .plain) fresh emptied := by
  decide +kernel

theorem emptied_spares :
    Spares .plain 2 (exec (reclaim .plain) (run (StoreCall.step .plain) fresh emptied)) := by
  decide +kernel

-- Only newest versions are asked for, so an older one that a snapshot still reads can go too.
example : (getAt .plain (exec (vacuum .plain 2) (run (StoreCall.step .plain) fresh
    (oneRecord ++ [.openSnapshot, .write (.record (.delete "t" 1))]))) "t" 1 1).toOption =
      none := by
  decide +kernel

end Heap

end Adabt.Storage
