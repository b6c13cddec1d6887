import Adabt.Storage.Batches
import Adabt.Storage.Contents

/-! # Changing the tables

A collection that is dropped takes its records with it, and one that is adopted
brings its records under another name. A migration copies every record before it
is adopted. -/

set_option autoImplicit false

namespace Adabt.Storage
open Adabt.Core Adabt.Library

namespace Heap

variable (E : Env)

instance loggableDecidable (op : WalOp) : Decidable (Loggable op) := inferInstanceAs (Decidable (_ ≤ _))

/-! ## Records under other names -/

/-- The records stand under other keys, and some may have gone. -/
structure Rekeyed (source : Key → Option Key) (h h' : Heap) : Prop where
  sound : h'.Sound
  mode : h'.replaying = h.replaying
  stored : ∀ k, h'.stored k = (source k).bind h.stored

variable {h h' : Heap}

/-- Locations that were freed belong to none of the records that stay. -/
theorem rekeyed_of_freed (hs : h.Sound) {source : Key → Option Key}
    (honce : ∀ {k k' j}, source k = some j → source k' = some j → k = k')
    (hchain : ∀ k, h'.chainOf k = ((source k).map h.chainOf).getD [])
    {locs : List RecordLocation}
    (hlocs : ∀ l ∈ locs, ∃ k t, h.store.Owns l k t ∧ ∀ j, source j ≠ some k)
    (hread : ∀ l, h'.pool.read l = if l ∈ locs then none else h.pool.read l)
    (hversions : h'.versions = h.versions) (hfsm : h'.FsmInRange)
    (hmode : h'.replaying = h.replaying) : Rekeyed source h h' := by
  have hstore : h.store.Rekeyed source h'.store := by
    refine ⟨honce, hchain, ?_, ?_, ?_⟩
    · intro k j loc t hk ho
      refine (hread loc).trans (if_neg fun hl => ?_)
      obtain ⟨i, u, hi, haway⟩ := hlocs loc hl
      obtain ⟨rfl, -⟩ := hs.store.unique ho hi
      exact haway k hk
    · exact congrArg VersionTracker.next hversions
    · exact congrArg VersionTracker.opened hversions
  exact ⟨⟨hstore.sound hs.store, hfsm, hversions ▸ hs.next⟩, hmode, hstore.now⟩

/-- Where the records of a collection lie. -/
theorem mem_locations {name : String} {c : Collection} (hc : h.collections.get name = some c)
    {loc : RecordLocation} (hl : loc ∈ c.directory.values.flatMap (·.locations)) :
    ∃ id t, h.store.Owns loc (name, id) t := by
  obtain ⟨chain, hchain, hloc⟩ := List.mem_flatMap.mp hl
  obtain ⟨id, hid⟩ := (OrdMap.mem_values _ _).mp hchain
  obtain ⟨v, hv, hvl⟩ := List.mem_filterMap.mp hloc
  refine ⟨id, v.1, ?_⟩
  have hchainOf : h.chainOf (name, id) = chain.versions := by
    rw [chainOf, hc, Option.bind_some, hid]
    rfl
  change (v.1, some loc) ∈ h.chainOf (name, id)
  rw [hchainOf, ← hvl]
  exact hv

/-- Freeing a collection's pages empties its slots, whatever became of the tables. -/
theorem freePagesOf_spec (hs : h.Sound) {name : String} {c : Collection}
    (hc : h.collections.get name = some c) (h1 : Heap) (hp : h1.pool = h.pool) :
    Returns (freePagesOf c) h1 fun _ h' =>
      Released h1 (c.directory.values.flatMap (·.locations)) h' := by
  refine release_spec _ fun l hl => ?_
  obtain ⟨id, t, ho⟩ := mem_locations hc hl
  rw [hp]
  exact owned_lt hs.store ho

/-! ## Dropping -/

/-- The collection is gone with its records, and the others are as they were. -/
structure Dropped (name : String) (h h' : Heap) : Prop where
  rekeyed : Rekeyed (fun k => if k.1 = name then none else some k) h h'
  format : h'.formatOf = Function.update h.formatOf name none
  nextId : h'.nextCollectionId = h.nextCollectionId
  compress : h'.compress = h.compress

theorem formatOf_unregister (name : String) (c : Collection) (h : Heap) :
    (unregister name c h).formatOf = Function.update h.formatOf name none := by
  funext m
  unfold formatOf unregister
  rw [OrdMap.get_erase, Function.update_apply]
  split_ifs
  · rfl
  · rfl

theorem chainOf_unregister (name : String) (c : Collection) (h : Heap) (k : Key) :
    (unregister name c h).chainOf k = if k.1 = name then [] else h.chainOf k := by
  unfold chainOf unregister
  rw [OrdMap.get_erase]
  split_ifs
  · rfl
  · rfl

theorem unregister_spec (hs : h.Sound) {name : String} {c : Collection}
    (hc : h.collections.get name = some c) :
    Returns (modify (unregister name c) >>= fun _ => freePagesOf c) h fun _ => Dropped name h := by
  rw [Returns, post_bind, post_modify]
  refine (freePagesOf_spec hs hc (unregister name c h) rfl).mono fun _ h' a => ?_
  have honly := a.only
  refine ⟨rekeyed_of_freed hs ?_ ?_ ?_ a.read ?_ (a.fsm hs.fsm) ?_, ?_, ?_, ?_⟩
  · intro k k' j hk hk'
    split_ifs at hk hk'
    exact (Option.some.inj hk).trans (Option.some.inj hk').symm
  · intro k
    have hchain : h'.chainOf k = (unregister name c h).chainOf k := by rw [honly]; rfl
    rw [hchain, chainOf_unregister]
    split_ifs
    · rfl
    · rfl
  · intro l hl
    obtain ⟨id, t, ho⟩ := mem_locations hc hl
    refine ⟨(name, id), t, ho, fun j hj => ?_⟩
    split_ifs at hj with hn
    exact hn (congrArg Prod.fst (Option.some.inj hj))
  · rw [honly]
    rfl
  · rw [honly]
    rfl
  · rw [honly]
    exact formatOf_unregister name c h
  · rw [honly]
    rfl
  · rw [honly]
    rfl

/-- Whether an entry is taken depends on its length alone. -/
theorem log_decides (op : WalOp) (h : Heap) (hopen : h.replaying = false) :
    Post (log E op) h (fun _ h' => Loggable op ∧ WalOnly h h')
      fun _ h' => ¬ Loggable op ∧ WalOnly h h' := by
  by_cases hop : Loggable op
  · exact ((log_returns E h hop).of_post (log_spec E op h)).mono fun _ _ w => ⟨hop, w⟩
  · exact (log_refuses E hopen hop).mono (fun _ _ => False.elim) fun _ _ w => ⟨hop, w⟩

theorem WalOnly.sound {h1 : Heap} (w : WalOnly h h1) (hs : h.Sound) : h1.Sound :=
  (w.keeps hs).evolves.sound

/-- The collection is dropped, unless there is none or the log does not take the entry. -/
theorem dropCollection_spec (hs : h.Sound) (hopen : h.replaying = false) (name : String) :
    Post (dropCollection E name) h
      (fun _ h' => ((h.formatOf name).isSome ∧ Loggable (.dropCollection name)) ∧ Dropped name h h')
      fun _ h' => ¬((h.formatOf name).isSome ∧ Loggable (.dropCollection name)) ∧ Keeps h h' := by
  unfold dropCollection
  rw [post_bind, post_get]
  cases hc : h.collections.get name with
  | none =>
    refine ⟨fun hf => ?_, Keeps.refl hs⟩
    rw [formatOf, hc] at hf
    cases hf.1
  | some c =>
    dsimp only
    have hf : (h.formatOf name).isSome := by rw [formatOf, hc]; rfl
    rw [post_bind]
    refine (log_decides E _ h hopen).mono (fun _ h1 w => ?_) fun _ h1 w => ?_
    · obtain ⟨hop, wal, rfl⟩ := w
      have hs1 : ({ h with wal := wal } : Heap).Sound := WalOnly.sound ⟨wal, rfl⟩ hs
      exact (unregister_spec hs1 hc).mono fun _ h' d =>
        ⟨⟨hf, hop⟩, ⟨d.rekeyed.sound, d.rekeyed.mode, d.rekeyed.stored⟩, d.format, d.nextId, d.compress⟩
    · exact ⟨fun hboth => w.1 hboth.2, w.2.keeps hs⟩

/-! ## Adopting -/

/-- Where the records come from when one collection is adopted as another. -/
def adoptedFrom (target source : String) (k : Key) : Option Key :=
  if k.1 = source then none else if k.1 = target then some (source, k.2) else some k

theorem adoptedFrom_once {target source : String} {k k' j : Key}
    (hk : adoptedFrom target source k = some j) (hk' : adoptedFrom target source k' = some j) :
    k = k' := by
  unfold adoptedFrom at hk hk'
  split_ifs at hk with h1 h2
  · obtain rfl := Option.some.inj hk
    split_ifs at hk' with h1' h2'
    · exact Prod.ext (h2.trans h2'.symm) (congrArg Prod.snd (Option.some.inj hk')).symm
    · exact absurd (congrArg Prod.fst (Option.some.inj hk')) h1'
  · obtain rfl := Option.some.inj hk
    split_ifs at hk' with h1' h2'
    · exact absurd (congrArg Prod.fst (Option.some.inj hk')).symm h1
    · exact (Option.some.inj hk').symm

structure Adopted (target source : String) (h h' : Heap) : Prop where
  rekeyed : Rekeyed (adoptedFrom target source) h h'
  format : h'.formatOf =
    Function.update (Function.update h.formatOf target (h.formatOf source)) source none

theorem adopt_spec (hs : h.Sound) {target source : String} (hne : target ≠ source)
    {staged old : Collection} (hstaged : h.collections.get source = some staged)
    (hold : h.collections.get target = some old) :
    Returns (adopt target source) h fun _ => Adopted target source h := by
  unfold adopt
  rw [Returns, post_bind, post_get, hstaged]
  dsimp only
  have hold' : (unregister source staged h).collections.get target = some old := by
    unfold unregister
    rw [OrdMap.get_erase, if_neg hne, hold]
  rw [post_bind, post_modify, post_bind, post_get, hold']
  dsimp only
  rw [post_bind, post_modify, post_bind]
  refine (freePagesOf_spec hs hold (unregister target old (unregister source staged h))
    rfl).mono fun _ h1 a => ?_
  rw [post_modify]
  have honly := a.only
  refine ⟨rekeyed_of_freed hs ?_ ?_ ?_ a.read ?_ (a.fsm hs.fsm) ?_, ?_⟩
  · exact adoptedFrom_once
  · intro k
    rw [honly]
    unfold chainOf adoptedFrom unregister
    simp only [OrdMap.get_insert, OrdMap.get_erase]
    by_cases h1 : k.1 = source
    · simp only [h1, hne.symm, if_true, if_false]
      rfl
    · by_cases h2 : k.1 = target
      · simp only [h2, hne, if_true, if_false, Option.map_some, Option.getD_some, hstaged]
      · simp only [h1, h2, if_false]
        rfl
  · intro l hl
    obtain ⟨id, t, ho⟩ := mem_locations hold hl
    refine ⟨(target, id), t, ho, fun j hj => ?_⟩
    unfold adoptedFrom at hj
    split_ifs at hj with h1 h2
    · exact hne (congrArg Prod.fst (Option.some.inj hj)).symm
    · exact h2 (congrArg Prod.fst (Option.some.inj hj))
  · rw [honly]
    rfl
  · rw [honly]
    rfl
  · rw [honly]
    funext m
    unfold formatOf unregister
    simp only [OrdMap.get_insert, OrdMap.get_erase, Function.update_apply]
    by_cases h1 : m = source
    · simp only [h1, hne.symm, if_true, if_false]
      rfl
    · by_cases h2 : m = target
      · simp only [h2, hne, if_true, if_false, hstaged]
      · simp only [h1, h2, if_false]

/-! ## Migrating -/

/-- Rows with their encodings, each in an entry that the log takes and a payload that fits
a page. -/
structure Copyable (staging : String) (f : CollectionId × RecordCodec × Bool)
    (rows : List (RecordId × Record)) (ps : List (RecordId × Bytes)) : Prop where
  encoded : List.Forall₂ (fun row p => p.1 = row.1 ∧ f.2.1.encode row.2 = .ok p.2) rows ps
  taken : ∀ p ∈ ps, Loggable (.insert staging p.1 p.2) ∧ Fits E f p

theorem copyRow_spec (hs : h.Sound) (hopen : h.replaying = false) {staging : String}
    {f : CollectionId × RecordCodec × Bool} (hf : h.formatOf staging = some f)
    (row : RecordId × Record) :
    Post (copyRow E staging row) h
      (fun _ h' => ∃ p, Copyable E staging f [row] [p] ∧ Fills E staging f [p] h h')
      fun _ _ => ∀ p, ¬ Copyable E staging f [row] [p] := by
  obtain ⟨c, hc, rfl⟩ := Option.map_eq_some_iff.mp hf
  have hencoded : ∀ {p}, Copyable E staging (c.id, c.codec, h.compress) [row] [p] →
      p.1 = row.1 ∧ c.codec.encode row.2 = .ok p.2 := fun hp => (List.forall₂_cons.mp hp.encoded).1
  unfold copyRow
  rw [post_bind]
  refine (coll_spec staging h).mono (fun c' h1 hcoll => ?_) fun _ _ hnone => ?_
  · obtain ⟨hc', rfl⟩ := hcoll
    obtain rfl := Option.some.inj (hc.symm.trans hc')
    rw [post_bind]
    refine post_attempt (fun bytes hbytes => ?_) fun e he p hp => ?_
    · rw [post_bind]
      refine (log_decides E _ h1 hopen).mono (fun _ h2 w => ?_) fun _ _ w p hp => ?_
      · obtain ⟨hop, w⟩ := w
        have hk := w.keeps hs
        obtain ⟨wal, rfl⟩ := w
        by_cases hfit : Fits E (c.id, c.codec, h1.compress) (row.1, bytes)
        · refine (applyPutBy_spec E places_place hk.evolves.sound (c := c) hc row.1 bytes).mono
            (fun _ h3 hr => ?_) fun _ _ hr => absurd hfit (Nat.not_le.mpr hr.2.2)
          refine ⟨(row.1, bytes), ⟨.cons ⟨rfl, hbytes⟩ .nil, fun p hp => ?_⟩,
            hk.fills (Rewrites.fills hr (Fills.nil hr.evolves.sound))⟩
          rw [List.mem_singleton.mp hp]
          exact ⟨hop, hfit⟩
        · refine (applyPutBy_refuses E place (h := { h1 with wal := wal }) (c := c) hc
            (Nat.not_le.mp hfit)).mono (fun _ _ hF => hF.elim) fun _ _ _ p hp => ?_
          obtain ⟨hid, henc⟩ := hencoded hp
          obtain rfl : p = (row.1, bytes) := Prod.ext hid (Except.ok.inj (henc.symm.trans hbytes))
          exact hfit (hp.taken _ List.mem_cons_self).2
      · obtain ⟨hid, henc⟩ := hencoded hp
        obtain rfl : p = (row.1, bytes) := Prod.ext hid (Except.ok.inj (henc.symm.trans hbytes))
        exact w.1 (hp.taken _ List.mem_cons_self).1
    · obtain ⟨-, henc⟩ := hencoded hp
      rw [he] at henc
      cases henc
  · rw [hc] at hnone
    cases hnone.1

theorem copyRows_spec {staging : String} {f : CollectionId × RecordCodec × Bool}
    (rows : List (RecordId × Record)) (hs : h.Sound) (hopen : h.replaying = false)
    (hf : h.formatOf staging = some f) :
    Post (forEach (copyRow E staging) rows) h
      (fun _ h' => ∃ ps, Copyable E staging f rows ps ∧ Fills E staging f ps h h')
      fun _ _ => ∀ ps, ¬ Copyable E staging f rows ps := by
  induction rows generalizing h with
  | nil => exact ⟨[], ⟨.nil, List.forall_mem_nil _⟩, Fills.nil hs⟩
  | cons row rows ih =>
    rw [forEach, post_bind]
    refine (copyRow_spec E hs hopen hf row).mono (fun _ h1 hone => ?_) fun _ _ hno ps hps => ?_
    · obtain ⟨p, hp, hfill⟩ := hone
      have hmode := hfill.evolves.mode.trans hopen
      refine (ih hfill.evolves.sound hmode (hfill.format ▸ hf)).mono (fun _ h2 hrest => ?_)
        fun _ _ hno ps hps => ?_
      · obtain ⟨ps, hps, hfills⟩ := hrest
        refine ⟨p :: ps, ⟨.cons (List.forall₂_cons.mp hp.encoded).1 hps.encoded, ?_⟩, ?_⟩
        · exact List.forall_mem_cons.mpr ⟨hp.taken p List.mem_cons_self, hps.taken⟩
        · refine ⟨hfill.evolves.trans hfills.evolves, hfills.format.trans hfill.format, ?_⟩
          rw [hfills.stored, hfill.stored]
          rfl
      · cases hps.encoded with
        | cons _ hrest => exact hno _ ⟨hrest, fun q hq => hps.taken q (List.mem_cons_of_mem _ hq)⟩
    · cases hps.encoded with
      | cons hone _ =>
        refine hno _ ⟨.cons hone .nil, fun q hq => ?_⟩
        rw [List.mem_singleton.mp hq]
        exact hps.taken _ List.mem_cons_self

/-- The rows as the schema keeps them. -/
def projected (schema : Schema) (rows : List (RecordId × Record)) : List (RecordId × Record) :=
  rows.map fun row => (row.1, projectOntoSchema schema row.2)

/-- The rows cannot be read, or one of them is in the way of the schema. -/
def Unfit (h : Heap) (name : String) (schema : Schema) : Prop :=
  ∀ rows, scan E h name = .ok rows → checkFits schema (projected schema rows) ≠ .ok ()

/-- How a migration writes what it copies. -/
def stagedFormat (h : Heap) (schema : Schema) : CollectionId × RecordCodec × Bool :=
  (h.nextCollectionId, .new schema, h.compress)

/-- Every row fits the schema, and everything that is written for it is taken. -/
structure Fit (h : Heap) (name : String) (schema : Schema) : Prop where
  created : Loggable (.createCollection (migrationName name) (encodeSchema schema))
  adopted : Loggable (.adoptMigration name (migrationName name))
  dropped : (h.formatOf (migrationName name)).isSome → Loggable (.dropCollection (migrationName name))
  copied : ∃ rows ps, scan E h name = .ok rows ∧ checkFits schema (projected schema rows) = .ok () ∧
    Copyable E (migrationName name) (stagedFormat h schema) (projected schema rows) ps

/-- Whatever an earlier migration left behind is gone. -/
structure Cleared (staging : String) (h h' : Heap) : Prop where
  sound : h'.Sound
  mode : h'.replaying = h.replaying
  format : h'.formatOf = Function.update h.formatOf staging none
  nextId : h'.nextCollectionId = h.nextCollectionId
  compress : h'.compress = h.compress
  stored : ∀ k, k.1 ≠ staging → h'.stored k = h.stored k

theorem formatOf_isSome (h : Heap) (name : String) :
    (h.formatOf name).isSome = h.collections.contains name := by
  rw [formatOf, Option.isSome_map, OrdMap.contains]

theorem Dropped.cleared {staging : String} (d : Dropped staging h h') : Cleared staging h h' where
  sound := d.rekeyed.sound
  mode := d.rekeyed.mode
  format := d.format
  nextId := d.nextId
  compress := d.compress
  stored k hk := by
    rw [d.rekeyed.stored, if_neg hk]
    rfl

theorem cleared_absent (hs : h.Sound) {staging : String} (hnone : h.formatOf staging = none) :
    Cleared staging h h := by
  refine ⟨hs, rfl, ?_, rfl, rfl, fun _ _ => rfl⟩
  rw [← hnone, Function.update_eq_self]

theorem formatOf_register (name : String) (schema : Schema) (h : Heap) :
    (register name schema h).formatOf =
      Function.update h.formatOf name (some (stagedFormat h schema)) := by
  funext m
  unfold formatOf register registerWithId
  rw [OrdMap.get_insert, Function.update_apply]
  split_ifs
  · rfl
  · rfl

/-- The collection has the new schema and holds what was copied, and no other changed. -/
structure Migrated (name : String) (schema : Schema) (ps : List (RecordId × Bytes)) (h h' : Heap) :
    Prop where
  sound : h'.Sound
  mode : h'.replaying = h.replaying
  format : h'.formatOf = Function.update
    (Function.update h.formatOf name (some (stagedFormat h schema))) (migrationName name) none
  others : ∀ k, k.1 ≠ name → k.1 ≠ migrationName name → h'.stored k = h.stored k
  reads : ∀ es, List.Forall₂ (fun p e => p.1 = e.1 ∧ (RecordCodec.new schema).decode p.2 = .ok e.2)
    ps es → Reads E h' name ((∅ : OrdMap RecordId Record).insertAll es)

/-- The part of a migration that writes, once nothing is staged. -/
def stageAndAdopt (name : String) (schema : Schema) (rows : List (RecordId × Record)) :
    HeapM Unit := do
  log E (.createCollection (migrationName name) (encodeSchema schema))
  modify (register (migrationName name) schema)
  forEach (copyRow E (migrationName name)) rows
  log E (.adoptMigration name (migrationName name))
  adopt name (migrationName name)

/-- What that part needs to be taken. -/
structure Stageable (name : String) (schema : Schema) (f : CollectionId × RecordCodec × Bool)
    (rows : List (RecordId × Record)) (ps : List (RecordId × Bytes)) : Prop where
  created : Loggable (.createCollection (migrationName name) (encodeSchema schema))
  copied : Copyable E (migrationName name) f rows ps
  adopted : Loggable (.adoptMigration name (migrationName name))

theorem register_reads (hs : h.Sound) {name : String} (hnone : h.formatOf name = none)
    (schema : Schema) : Reads E (register name schema h) name ∅ := by
  have hr := register_registers hs (Option.map_eq_none_iff.mp hnone) schema
  refine ⟨_, by rw [formatOf_register, Function.update_self], fun id => ?_⟩
  rw [hr.empty id]
  rfl

theorem stageAndAdopt_spec (hs : h.Sound) (hopen : h.replaying = false) {name : String}
    (hne : name ≠ migrationName name) (hname : (h.formatOf name).isSome)
    (hnone : h.formatOf (migrationName name) = none) (schema : Schema)
    (rows : List (RecordId × Record)) :
    Post (stageAndAdopt E name schema rows) h
      (fun _ h' => ∃ ps, Stageable E name schema (stagedFormat h schema) rows ps ∧
        Migrated E name schema ps h h')
      fun _ _ => ∀ ps, ¬ Stageable E name schema (stagedFormat h schema) rows ps := by
  unfold stageAndAdopt
  rw [post_bind]
  refine (log_decides E _ h hopen).mono (fun _ h1 w => ?_) fun _ _ w ps hps => w.1 hps.created
  obtain ⟨hcreated, wal, rfl⟩ := w
  have hs1 : ({ h with wal := wal } : Heap).Sound := WalOnly.sound ⟨wal, rfl⟩ hs
  have hreg := register_registers (h := { h with wal := wal }) hs1 (Option.map_eq_none_iff.mp hnone)
    schema
  have hformat := formatOf_register (migrationName name) schema { h with wal := wal }
  have hempty := register_reads E (h := { h with wal := wal }) hs1 hnone schema
  rw [post_bind, post_modify, post_bind]
  refine (copyRows_spec E rows hreg.sound hopen (hformat ▸ Function.update_self ..)).mono
    (fun _ h2 hcopied => ?_) fun _ _ hno ps hps => hno ps hps.copied
  obtain ⟨ps, hps, hfills⟩ := hcopied
  rw [post_bind]
  refine (log_decides E _ h2 (hfills.evolves.mode.trans hopen)).mono (fun _ h3 w => ?_)
    fun _ _ w ps hps => w.1 hps.adopted
  obtain ⟨hadopted, w⟩ := w
  have hk := w.keeps hfills.evolves.sound
  -- Both collections are there, so the adoption goes through.
  have hformat3 : h3.formatOf =
      Function.update h.formatOf (migrationName name) (some (stagedFormat h schema)) := by
    rw [hk.format, hfills.format, hformat]
    rfl
  obtain ⟨staged, hstaged, -⟩ := Option.map_eq_some_iff.mp
    (show h3.formatOf (migrationName name) = some (stagedFormat h schema) by
      rw [hformat3, Function.update_self])
  obtain ⟨f, hf⟩ := Option.isSome_iff_exists.mp hname
  obtain ⟨old, hold, -⟩ := Option.map_eq_some_iff.mp
    (show h3.formatOf name = some f by rw [hformat3, Function.update_of_ne hne, hf])
  refine (adopt_spec hk.evolves.sound hne hstaged hold).mono fun _ h' a =>
    ⟨ps, ⟨hcreated, hps, hadopted⟩, a.rekeyed.sound, ?_, ?_, ?_, ?_⟩
  · rw [a.rekeyed.mode, hk.evolves.mode, hfills.evolves.mode]
    rfl
  · rw [a.format, hformat3, Function.update_self]
    funext m
    simp only [Function.update_apply]
    split_ifs
    · rfl
    · rfl
    · rfl
  · intro k hk1 hk2
    rw [a.rekeyed.stored, adoptedFrom, if_neg hk2, if_neg hk1, Option.bind_some, hk.stored,
      hfills.other hk2, hreg.stored]
    rfl
  · intro es hes
    have hread := (hempty.fills (hformat ▸ Function.update_self ..) hfills hes).keeps hk
    obtain ⟨g, hg, hread⟩ := hread
    refine ⟨g, ?_, fun id => ?_⟩
    · rw [a.format, Function.update_of_ne hne, Function.update_self, hg]
    · rw [a.rekeyed.stored, adoptedFrom, if_neg hne, if_pos rfl]
      exact hread id

theorem ne_migrationName (name : String) : name ≠ migrationName name := by
  intro heq
  have hlen := congrArg (fun s : String => s.toList.length) heq
  simp only [migrationName, String.toList_append, List.length_append] at hlen
  have hpos : 0 < migrationPrefix.toList.length := by decide
  omega

theorem Cleared.fit {name : String} {h1 : Heap} (c : Cleared (migrationName name) h h1)
    (schema : Schema) : h1.stagedFormat schema = h.stagedFormat schema := by
  unfold stagedFormat
  rw [c.nextId, c.compress]

theorem Migrated.cleared {E : Env} {name : String} {schema : Schema} {ps : List (RecordId × Bytes)}
    {h1 : Heap} (c : Cleared (migrationName name) h h1) (m : Migrated E name schema ps h1 h') :
    Migrated E name schema ps h h' where
  sound := m.sound
  mode := m.mode.trans c.mode
  format := by
    rw [m.format, c.fit, c.format]
    funext k
    simp only [Function.update_apply]
    split_ifs
    · rfl
    · rfl
    · rfl
  others k hk1 hk2 := (m.others k hk1 hk2).trans (c.stored k hk2)
  reads := m.reads

/-- A migration succeeds when every row fits, and before it has written anything it stops for
a row that does not. -/
theorem migrate_spec (hs : h.Sound) (hopen : h.replaying = false) {name : String}
    (hname : (h.formatOf name).isSome) (schema : Schema) :
    Post (migrate E name schema) h
      (fun n h' => ∃ rows ps, scan E h name = .ok rows ∧
        checkFits schema (projected schema rows) = .ok () ∧ n = rows.length ∧
        Copyable E (migrationName name) (stagedFormat h schema) (projected schema rows) ps ∧
        Migrated E name schema ps h h')
      fun _ h' => ¬ Fit E h name schema ∧ (Unfit E h name schema → h' = h) := by
  unfold migrate
  rw [post_bind, post_get, post_bind]
  refine post_attempt (fun rows hrows => ?_) fun e he => ⟨fun hfit => ?_, fun _ => rfl⟩
  · rw [post_bind]
    refine post_attempt (fun _ hcheck => ?_) fun e he => ⟨fun hfit => ?_, fun _ => rfl⟩
    · have hgood : ¬ Unfit E h name schema := fun hunfit => hunfit rows hrows hcheck
      rw [post_bind, post_get]
      have hrest : ∀ h1, Cleared (migrationName name) h h1 →
          Post (stageAndAdopt E name schema (projected schema rows) >>= fun _ => pure rows.length) h1
            (fun n h' => ∃ rows ps, scan E h name = .ok rows ∧
              checkFits schema (projected schema rows) = .ok () ∧ n = rows.length ∧
              Copyable E (migrationName name) (stagedFormat h schema) (projected schema rows) ps ∧
              Migrated E name schema ps h h')
            fun _ h' => ¬ Fit E h name schema ∧ (Unfit E h name schema → h' = h) := by
        intro h1 c
        have hstage := stageAndAdopt_spec E c.sound (c.mode.trans hopen) (ne_migrationName name)
          (by rw [c.format, Function.update_of_ne (ne_migrationName name)]; exact hname)
          (by rw [c.format, Function.update_self]) schema (projected schema rows)
        rw [c.fit] at hstage
        rw [post_bind]
        refine hstage.mono (fun _ h2 hdone => ?_) fun _ _ hno => ⟨fun hfit => ?_, fun hunfit =>
          (hgood hunfit).elim⟩
        · obtain ⟨ps, hps, hm⟩ := hdone
          exact ⟨rows, ps, hrows, hcheck, rfl, hps.copied, hm.cleared c⟩
        · obtain ⟨rows', ps, hrows', -, hps⟩ := hfit.copied
          obtain rfl := Except.ok.inj (hrows.symm.trans hrows')
          exact hno ps ⟨hfit.created, hps, hfit.adopted⟩
      unfold stageAndAdopt at hrest
      simp only [bind_assoc] at hrest
      split_ifs with hin
      · rw [post_bind]
        refine (dropCollection_spec E hs hopen (migrationName name)).mono
          (fun _ h1 d => hrest h1 d.2.cleared) fun _ _ hno => ⟨fun hfit => ?_, fun hunfit =>
            (hgood hunfit).elim⟩
        have hf : (h.formatOf (migrationName name)).isSome := by rw [formatOf_isSome, hin]
        exact hno.1 ⟨hf, hfit.dropped hf⟩
      · refine hrest h (cleared_absent hs ?_)
        rw [← Option.not_isSome_iff_eq_none, formatOf_isSome]
        exact hin
    · obtain ⟨rows', _, hrows', hcheck', -⟩ := hfit.copied
      obtain rfl := Except.ok.inj (hrows.symm.trans hrows')
      rw [projected] at hcheck'
      rw [hcheck'] at he
      cases he
  · obtain ⟨rows', _, hrows', -⟩ := hfit.copied
    rw [hrows'] at he
    cases he

/-! ## Altering -/

/-- The declared schema of every collection, staging areas included. -/
def schemas (h : Heap) (name : String) : Option Schema := (h.formatOf name).map (·.2.1.schema)

/-- The change moves no stored byte. -/
def EditsInPlace (h : Heap) (name : String) (schema : Schema) : Prop :=
  ∃ old ∈ h.schemas name, schemaEditableInPlace old schema

instance editsInPlaceDecidable (h : Heap) (name : String) (schema : Schema) : Decidable (h.EditsInPlace name schema) :=
  inferInstanceAs (Decidable (∃ old ∈ h.schemas name, schemaEditableInPlace old schema))

/-- The collection has the new schema, and no other changed but for a staging area. -/
structure Altered (name : String) (schema : Schema) (h h' : Heap) : Prop where
  sound : h'.Sound
  mode : h'.replaying = h.replaying
  inPlace : h.EditsInPlace name schema → h'.schemas = Function.update h.schemas name (some schema)
  moved : ¬ h.EditsInPlace name schema → h'.schemas =
    Function.update (Function.update h.schemas name (some schema)) (migrationName name) none

/-- Only a codec differs. -/
theorem recoded (hs : h.Sound) {name : String} {c : Collection}
    (hc : h.collections.get name = some c) (schema : Schema) :
    let h' := setCollection name { c with codec := .new schema } h
    h'.Sound ∧ h'.stored = h.stored ∧
      h'.schemas = Function.update h.schemas name (some schema) := by
  intro h'
  have hchain : h'.chainOf = h.chainOf := by
    funext k
    unfold h' chainOf setCollection
    rw [OrdMap.get_insert]
    split_ifs with hk
    · rw [hk, hc]
      rfl
    · rfl
  have hstore : h'.store = h.store := by
    unfold store
    rw [hchain]
    rfl
  refine ⟨⟨hstore ▸ hs.store, hs.fsm, hs.next⟩, congrArg VersionStore.now hstore, ?_⟩
  funext m
  unfold h' schemas formatOf setCollection
  rw [OrdMap.get_insert, Function.update_apply]
  split_ifs
  · rfl
  · rfl

theorem alterInPlace_spec (hs : h.Sound) (hopen : h.replaying = false) {name : String}
    {c : Collection} (hc : h.collections.get name = some c) (schema : Schema) :
    Post (alterInPlace E name schema) h
      (fun _ h' => Loggable (.alterSchemaInPlace name (encodeSchema schema)) ∧ h'.Sound ∧
        h'.replaying = h.replaying ∧ h'.stored = h.stored ∧
        h'.schemas = Function.update h.schemas name (some schema))
      fun _ h' => ¬ Loggable (.alterSchemaInPlace name (encodeSchema schema)) ∧ Keeps h h' := by
  unfold alterInPlace applyAlterSchemaInPlace setSchema
  rw [post_bind]
  refine (log_decides E _ h hopen).mono (fun _ h1 w => ?_) fun _ _ w => ⟨w.1, w.2.keeps hs⟩
  obtain ⟨hop, wal, rfl⟩ := w
  rw [post_bind, post_bind]
  refine (coll_spec name _).mono (fun c' h2 hcoll => ?_) fun _ _ hnone => ?_
  · obtain ⟨hc', rfl⟩ := hcoll
    obtain rfl := Option.some.inj (hc.symm.trans hc')
    obtain ⟨hsound, hstored, hschemas⟩ := recoded (h := { h with wal := wal })
      (WalOnly.sound ⟨wal, rfl⟩ hs) hc schema
    exact ⟨hop, hsound, rfl, hstored, hschemas⟩
  · rw [hc] at hnone
    cases hnone.1

/-- What an alteration refuses before it writes anything. -/
def Refuses (h : Heap) (name : String) (schema : Schema) : Prop :=
  isMigrationName name ∨ h.schemas name = none ∨
    if h.EditsInPlace name schema then ¬ Loggable (.alterSchemaInPlace name (encodeSchema schema))
    else Unfit E h name schema

/-- What it carries out. -/
def Accepts (h : Heap) (name : String) (schema : Schema) : Prop :=
  isMigrationName name = false ∧ h.schemas name ≠ none ∧
    if h.EditsInPlace name schema then Loggable (.alterSchemaInPlace name (encodeSchema schema))
    else Fit E h name schema

/-- An alteration is carried out where nothing speaks against it, and a refusal leaves all that
is stored alone. -/
theorem alterSchema_spec (hs : h.Sound) (hopen : h.replaying = false) (name : String)
    (schema : Schema) :
    Post (alterSchema E name schema) h
      (fun _ h' => ¬ Refuses E h name schema ∧ Altered name schema h h')
      fun _ h' => ¬ Accepts E h name schema ∧ (Refuses E h name schema → Keeps h h') := by
  unfold alterSchema
  split_ifs with hname
  · refine ⟨fun ha => ?_, fun _ => Keeps.refl hs⟩
    rw [ha.1] at hname
    cases hname
  rw [post_bind]
  refine (coll_spec name h).mono (fun c h1 hcoll => ?_) fun _ h1 hnone => ?_
  · obtain ⟨hc, rfl⟩ := hcoll
    have hsome : h1.schemas name = some c.codec.schema := by rw [schemas, formatOf_eq hc]; rfl
    have hedits : h1.EditsInPlace name schema ↔ schemaEditableInPlace c.codec.schema schema = true := by
      unfold EditsInPlace
      rw [hsome]
      simp
    have hstays : Refuses E h1 name schema ↔
        if h1.EditsInPlace name schema then ¬ Loggable (.alterSchemaInPlace name (encodeSchema schema))
        else Unfit E h1 name schema := by
      unfold Refuses
      simp [hname, hsome]
    by_cases hin : schemaEditableInPlace c.codec.schema schema
    · have hedit := hedits.mpr hin
      rw [if_pos hin, hstays, if_pos hedit]
      refine (alterInPlace_spec E hs hopen hc schema).mono (fun _ h' a => ?_) fun _ _ a => ?_
      · exact ⟨not_not.mpr a.1, a.2.1, a.2.2.1, fun _ => a.2.2.2.2, fun hno => (hno hedit).elim⟩
      · refine ⟨fun ha => a.1 ?_, fun _ => a.2⟩
        have hlogs := ha.2.2
        rwa [if_pos hedit] at hlogs
    · have hmoves := hedits.not.mpr hin
      rw [if_neg hin, hstays, if_neg hmoves]
      have hthere : (h1.formatOf name).isSome := by rw [formatOf_eq hc]; rfl
      refine (migrate_spec E hs hopen hthere schema).mono (fun _ h' m => ?_) fun _ _ m => ?_
      · obtain ⟨rows, ps, hrows, hcheck, -, -, hm⟩ := m
        refine ⟨fun hunfit => hunfit rows hrows hcheck, hm.sound, hm.mode,
          fun hedit => (hmoves hedit).elim, fun _ => ?_⟩
        funext k
        unfold schemas
        rw [hm.format]
        simp only [Function.update_apply]
        split_ifs
        · rfl
        · rfl
        · rfl
      · refine ⟨fun ha => m.1 ?_, fun hunfit => by rw [m.2 hunfit]; exact Keeps.refl hs⟩
        have hfits := ha.2.2
        rwa [if_neg hmoves] at hfits
  · obtain ⟨hnone, rfl, -⟩ := hnone
    refine ⟨fun ha => ha.2.1 ?_, fun _ => Keeps.refl hs⟩
    rw [schemas, formatOf, hnone]
    rfl

/-- A collection is created unless there is one, or the log does not take the entry. -/
theorem createCollection_decides (hs : h.Sound) (hopen : h.replaying = false) (name : String)
    (schema : Schema) :
    Post (createCollection E name schema) h
      (fun _ h' => (h.schemas name = none ∧ Loggable (.createCollection name (encodeSchema schema))) ∧
        h'.Sound ∧ h'.replaying = h.replaying ∧
        h'.schemas = Function.update h.schemas name (some schema))
      fun _ h' => ¬(h.schemas name = none ∧
        Loggable (.createCollection name (encodeSchema schema))) ∧ Keeps h h' := by
  unfold createCollection
  rw [post_bind, post_get]
  by_cases hin : h.collections.contains name
  · rw [if_pos hin]
    refine ⟨fun hnone => ?_, Keeps.refl hs⟩
    rw [schemas, Option.map_eq_none_iff, ← Option.not_isSome_iff_eq_none, formatOf_isSome] at hnone
    exact hnone.1 hin
  · rw [if_neg hin, post_bind]
    have hnone : h.collections.get name = none := Option.not_isSome_iff_eq_none.mp hin
    refine (log_decides E _ h hopen).mono (fun _ h1 w => ?_) fun _ _ w => ⟨fun hboth => w.1 hboth.2,
      w.2.keeps hs⟩
    obtain ⟨hop, wal, rfl⟩ := w
    have hr := register_registers (h := { h with wal := wal }) (WalOnly.sound ⟨wal, rfl⟩ hs) hnone schema
    rw [post_modify]
    refine ⟨⟨?_, hop⟩, hr.sound, rfl, ?_⟩
    · rw [schemas, formatOf, hnone]
      rfl
    · funext m
      unfold schemas
      rw [formatOf_register]
      simp only [Function.update_apply]
      split_ifs
      · rfl
      · rfl

/-- Writes leave every schema alone. -/
theorem Evolves.schemas_eq (e : Evolves h h') : h'.schemas = h.schemas := by
  have hcodec : ∀ h : Heap, h.schemas = fun name => (h.codecOf name).map (·.schema) := by
    intro h
    funext name
    unfold schemas formatOf codecOf
    rw [Option.map_map, Option.map_map]
    rfl
  rw [hcodec, hcodec, e.codecs]

end Heap

end Adabt.Storage
