import Adabt.Engine.Matching
import Adabt.Storage.CodecRoundTrip
import Adabt.Storage.Contents

/-! # Runs of writes and index changes

Creating a collection, an index of any shape, dropping one, and every write keep
a database in step, so after any run of them the indexes hold what a scan would
put into them and `verify` has nothing to report about them. -/

set_option autoImplicit false

namespace Adabt.Engine
open Adabt.Core Adabt.Indexing Adabt.Ir Adabt.Library Adabt.Storage Adabt.Storage.Heap

variable {δ : Type} {E : Env} {U : Upkeep δ} {K : Value → Prop}

namespace Database

/-! ## Declarations -/

theorem createCollection_inStep {db : Database δ} (h : InStep E K db) (name : String)
    (schema : Schema) : Post (createCollection E U name schema) db (fun _ => InStep E K)
      fun _ => InStep E K := by
  unfold createCollection
  rw [post_bind, post_onStore]
  refine (createCollection_spec E h.sound name schema).mono (fun _ h' hr => ?_)
    fun _ _ hk => (h.keeps hk _).inStep
  obtain ⟨hnone, hr⟩ := hr
  obtain ⟨f, hf⟩ := hr.format
  rw [post_modify]
  have hlist : db.indexList name = [] := by
    unfold indexList
    rw [h.homes name hnone]
    rfl
  refine ⟨hr.sound, fun m hm => ?_, fun m hm => ?_, h.legible⟩
  · by_cases hmn : m = name
    · subst hmn
      refine ⟨∅, ⟨f, by rw [hf, Function.update_self], fun id => ?_⟩, fun i hi => ?_⟩
      · rw [hr.empty]
        rfl
      · change i ∈ db.indexList m at hi
        rw [hlist] at hi
        cases hi
    · change (h'.formatOf m).isSome at hm
      rw [hf, Function.update_of_ne hmn] at hm
      obtain ⟨records, ⟨g, hg, hread⟩, hi⟩ := h.reads m hm
      refine ⟨records, ⟨g, ?_, fun id => ?_⟩, hi⟩
      · rw [hf, Function.update_of_ne hmn, hg]
      · rw [hr.stored]
        exact hread id
  · refine h.homes m ?_
    change h'.formatOf m = none at hm
    rw [hf, Function.update_apply] at hm
    split_ifs at hm
    exact hm

/-- Over the records there are, the index keeps to keys in `K`, and its name says what it is. -/
def Buildable (E : Env) (K : Value → Prop) (db : Database δ) (c : String) (shape : IndexShape) : Prop :=
  Legible shape ∧ ∀ rows, Heap.scan E db.store c = .ok rows → ∀ r ∈ rows, ∀ k ∈ shape.key r.2, K k

theorem requireCollection_spec (c : String) (db : Database δ) :
    Post (requireCollection c) db (fun _ db' => db' = db ∧ (db.store.formatOf c).isSome)
      fun _ db' => db' = db := by
  unfold requireCollection
  rw [post_bind, post_get]
  refine post_attempt (fun _ hc => ⟨rfl, ?_⟩) fun _ _ => rfl
  rw [ensure_eq_ok] at hc
  rw [formatOf, Option.isSome_map]
  exact hc

theorem InStep.push {db : Database δ} (h : InStep E K db) (ho : Orderly K) {c : String}
    {shape : IndexShape} {kind : IndexKind} (hb : Buildable E K db c shape)
    (hc : (db.store.formatOf c).isSome) {rows : List (RecordId × Record)}
    (hrows : Heap.scan E db.store c = .ok rows) :
    InStep E K (pushIndex c (.ofRows shape kind rows) db) := by
  obtain ⟨records, hr, hi⟩ := h.reads c hc
  have heq : rows = records.entries := by
    rw [hr.scan h.sound] at hrows
    exact (Except.ok.inj hrows).symm
  subst heq
  have hnew := @Index.build_inStep _ records ho shape kind (hb.2 _ hrows)
  have hlist : ∀ m, indexList (pushIndex c (.ofRows shape kind records.entries) db) m =
      if m = c then db.indexList c ++ [.ofRows shape kind records.entries] else db.indexList m := by
    intro m
    unfold indexList pushIndex
    rw [OrdMap.get_insert]
    split_ifs <;> rfl
  refine ⟨h.sound, fun m hm => ?_, fun m hm => ?_, fun m s hs => ?_⟩
  · rw [hlist]
    by_cases hmc : m = c
    · subst hmc
      rw [if_pos rfl]
      refine ⟨records, hr, fun i him => ?_⟩
      rcases List.mem_append.mp him with him | him
      · exact hi i him
      · rw [List.mem_singleton.mp him]
        exact hnew
    · rw [if_neg hmc]
      exact h.reads m hm
  · have hmc : m ≠ c := by
      rintro rfl
      rw [show db.store.formatOf m = none from hm] at hc
      cases hc
    unfold pushIndex
    rw [OrdMap.get_insert, if_neg hmc]
    exact h.homes m hm
  · obtain ⟨i, him, rfl⟩ := List.mem_map.mp hs
    rw [hlist] at him
    split_ifs at him
    · rcases List.mem_append.mp him with him | him
      · exact h.legible c _ (List.mem_map_of_mem him)
      · rw [List.mem_singleton.mp him]
        exact (Index.shape_build shape kind records).symm ▸ hb.1
    · exact h.legible m _ (List.mem_map_of_mem him)

theorem createIndexAs_inStep {db : Database δ} (h : InStep E K db) (ho : Orderly K) (c name : String)
    (kind : IndexKind) {shape : Except Error IndexShape}
    (hb : ∀ s, shape = .ok s → Buildable E K db c s) :
    Post (createIndexAs E c name kind shape) db (fun _ => InStep E K) fun _ => InStep E K := by
  unfold createIndexAs
  rw [post_bind]
  refine (requireCollection_spec c db).mono (fun _ db1 hreq => ?_) fun _ db1 heq => ?_
  · obtain ⟨rfl, hc⟩ := hreq
    simp only [post_bind, post_get]
    by_cases hex : db1.indexExists c name kind
    · rw [if_pos hex]
      exact h
    · rw [if_neg hex, post_bind]
      refine post_attempt (fun s hs => ?_) fun _ _ => h
      rw [post_bind]
      refine post_attempt (fun rows hrows => ?_) fun _ _ => h
      rw [post_bind, post_modify, post_onStore]
      have hpush := @InStep.push _ _ _ _ h ho c s (s.kindFor kind) (hb s hs) hc _ hrows
      exact (recordIndex_spec E h.sound _).mono (fun _ _ hk => (hpush.keeps hk _).inStep)
        fun _ _ hk => (hpush.keeps hk _).inStep
  · rw [heq]
    exact h

theorem dropIndex_inStep {db : Database δ} (h : InStep E K db) (c name : String)
    (kind : IndexKind) :
    Post (dropIndex E c name kind) db (fun _ => InStep E K) fun _ => InStep E K := by
  have hlist : ∀ m i, i ∈ indexList (removeIndexes c name kind db) m → i ∈ db.indexList m := by
    intro m i hi
    unfold removeIndexes at hi
    cases hm : db.indexes.get c with
    | none =>
      rw [hm] at hi
      exact hi
    | some list =>
      rw [hm] at hi
      unfold indexList at hi ⊢
      rw [OrdMap.get_insert] at hi
      split_ifs at hi with hmc
      · rw [hmc, hm]
        exact (List.mem_filter.mp hi).1
      · exact hi
  have hstore : (removeIndexes c name kind db).store = db.store := by
    unfold removeIndexes
    cases db.indexes.get c <;> rfl
  have hremoved : InStep E K (removeIndexes c name kind db) := by
    refine ⟨hstore ▸ h.sound, fun m hm => ?_, fun m hm => ?_, fun m s hs => ?_⟩
    · rw [hstore] at hm ⊢
      obtain ⟨records, hr, hi⟩ := h.reads m hm
      exact ⟨records, hr, fun i him => hi i (hlist m i him)⟩
    · rw [hstore] at hm
      have hnone := h.homes m hm
      unfold removeIndexes
      cases hc : db.indexes.get c with
      | none => exact hnone
      | some list =>
        have hmc : m ≠ c := by
          rintro rfl
          rw [hc] at hnone
          cases hnone
        dsimp only
        rw [OrdMap.get_insert, if_neg hmc]
        exact hnone
    · obtain ⟨i, him, rfl⟩ := List.mem_map.mp hs
      exact h.legible m _ (List.mem_map_of_mem (hlist m i him))
  unfold Post dropIndex
  by_cases hex : db.indexExists c name kind
  · simp only [if_pos hex]
    have hk : Keeps db.store (exec (forgetIndex E ⟨c, name, kind.asStr⟩) db.store) :=
      (forgetIndex_spec E h.sound _).exec
    rw [hstore]
    rw [← hstore] at hk
    exact (hremoved.keeps (hstore ▸ hk) _).inStep
  · simp only [if_neg hex]
    exact h

end Database

/-! ## Runs -/

/-- The writes, and what creates and drops indexes. -/
inductive IndexCommand where
  | createCollection (name : String) (schema : Schema)
  | createIndex (collection field : String) (kind : IndexKind)
  | createCompositeIndex (collection : String) (fields : List String)
  | createCoveringIndex (collection field : String) (covers : List String) (kind : IndexKind)
  | createPartialIndex (collection field : String) (condition : Expr) (kind : IndexKind)
  | dropIndex (collection name : String) (kind : IndexKind)
  | insert (collection : String) (id : RecordId) (rec : Record)
  | insertBatch (collection : String) (records : List (RecordId × Record))
  | update (collection : String) (id : RecordId) (rec : Record)
  | delete (collection : String) (id : RecordId)
  | commit (txn : Transaction)

namespace IndexCommand

def step (E : Env) (U : Upkeep δ) : IndexCommand → Database δ → Database δ
  | createCollection name schema => exec (Database.createCollection E U name schema)
  | createIndex c field kind => exec (Database.createIndex E c field kind)
  | createCompositeIndex c fields => exec (Database.createCompositeIndex E c fields)
  | createCoveringIndex c field covers kind => exec (Database.createCoveringIndex E c field covers kind)
  | createPartialIndex c field p kind => exec (Database.createPartialIndex E c field p kind)
  | dropIndex c name kind => exec (Database.dropIndex E c name kind)
  | insert c id rec => exec (Database.insert E U c id rec)
  | insertBatch c records => exec (Database.insertBatch E U c records)
  | update c id rec => exec (Database.update E U c id rec)
  | delete c id => exec (Database.delete E U c id)
  | commit txn => exec (Database.commit E U txn)

/-- Every record reads back as the indexes are told of it, no batch over a collection with
indexes is cut short, and every index created has a legible name. -/
def Keeping (E : Env) (K : Value → Prop) : IndexCommand → Database δ → Prop
  | createIndex c field _, db => ∀ s, shapeOfName field = .ok s → db.Buildable E K c s
  | createCompositeIndex c fields, db => db.Buildable E K c (.composite fields)
  | createCoveringIndex c field covers _, db =>
    db.Buildable E K c (.covering field (Database.carried field covers))
  | createPartialIndex c field p _, db =>
    ∀ encoded, encodeExprHex p = .ok encoded → db.Buildable E K c (.partialIndex field p encoded)
  | insert c _ rec, db | update c _ rec, db => Database.Faithful K db c rec
  | insertBatch c records, db =>
    (∀ r ∈ records, Database.Faithful K db c r.2) ∧
      (db.shapes c = [] ∨ WholeBatch E db.store c records)
  | commit txn, db => ∀ w ∈ txn.writes.entries, ∀ rec, w.2 = .put rec →
    Database.Faithful K db w.1.key.1 rec
  | _, _ => True

theorem step_inStep (ho : Orderly K) (c : IndexCommand) (db : Database δ) (h : db.InStep E K)
    (hc : c.Keeping E K db) : (c.step E U db).InStep E K := by
  have hrequire : ∀ {c : String} {x : DatabaseM δ Unit},
      Post x db (fun _ => Database.InStep E K) (fun _ => Database.InStep E K) →
      Post (Database.requireCollection c >>= fun _ => x) db (fun _ => Database.InStep E K)
        fun _ => Database.InStep E K := by
    intro c x hx
    rw [post_bind]
    refine (Database.requireCollection_spec c db).mono (fun _ db1 heq => ?_) fun _ db1 heq => ?_
    · rw [heq.1]
      exact hx
    · rw [heq]
      exact h
  cases c with
  | createCollection name schema => exact (Database.createCollection_inStep h name schema).exec
  | createIndex c field kind => exact (Database.createIndexAs_inStep h ho c field kind hc).exec
  | createCompositeIndex c fields =>
    refine (hrequire ?_).exec
    rw [post_bind]
    refine post_attempt (fun _ _ => ?_) fun _ _ => h
    exact Database.createIndexAs_inStep h ho c _ _ fun s hs => Except.ok.inj hs ▸ hc
  | createCoveringIndex c field covers kind =>
    refine (hrequire ?_).exec
    rw [post_bind]
    refine post_attempt (fun _ _ => ?_) fun _ _ => h
    exact Database.createIndexAs_inStep h ho c _ _ fun s hs => Except.ok.inj hs ▸ hc
  | createPartialIndex c field p kind =>
    refine (hrequire ?_).exec
    rw [post_bind]
    refine post_attempt (fun encoded he => ?_) fun _ _ => h
    exact Database.createIndexAs_inStep h ho c _ _ fun s hs => Except.ok.inj hs ▸ hc encoded he
  | dropIndex c name kind => exact (Database.dropIndex_inStep h c name kind).exec
  | insert c id rec =>
    exact ((Database.insert_follows (U := U) h ho id hc).mono (fun _ _ hf => hf.inStep)
      fun _ _ hf => hf.inStep).exec
  | insertBatch c records =>
    exact ((Database.insertBatch_follows (U := U) h ho hc.1 hc.2).mono (fun _ _ hf => hf.inStep)
      fun _ _ hf => hf.inStep).exec
  | update c id rec =>
    exact ((Database.update_follows (U := U) h ho id hc).mono (fun _ _ hf => hf.inStep)
      fun _ _ hf => hf.inStep).exec
  | delete c id =>
    exact ((Database.delete_follows (U := U) h ho c id).mono (fun _ _ hf => hf.inStep)
      fun _ _ hf => hf.inStep).exec
  | commit txn =>
    exact ((Database.commit_follows (U := U) h ho hc).mono (fun _ _ hf => hf.inStep)
      fun _ _ hf => hf.inStep).exec

end IndexCommand

namespace Database

/-- Each index holds exactly what an index of its definition built over a scan would hold. -/
def IndexesMatch (E : Env) (db : Database δ) : Prop :=
  ∀ c, (db.store.formatOf c).isSome → ∃ rows, Heap.scan E db.store c = .ok rows ∧
    ∀ i ∈ db.indexList c, i.Same (.ofRows i.shape i.kind rows)

theorem InStep.indexesMatch {db : Database δ} (h : InStep E K db) (ho : Orderly K) :
    db.IndexesMatch E := by
  intro c hc
  obtain ⟨records, hr, hi⟩ := h.reads c hc
  refine ⟨records.entries, hr.scan h.sound, fun i him => ?_⟩
  have hin := hi i him
  have hbuilt : (Index.ofRows i.shape i.kind records.entries).InStep K records := by
    refine Index.build_inStep ho i.shape i.kind fun r hr k hk => hin.wanted r.1 k ?_
    rw [Index.wants, (OrdMap.mem_entries records r.1 r.2).mp hr]
    exact hk
  exact hin.same hbuilt ho (Index.shape_build i.shape i.kind records).symm
    (Index.kind_build i.shape i.kind records).symm

theorem danglingIn_nil {i : Index} {records : OrdMap RecordId Record} (h : i.InStep K records) :
    danglingIn records.entries i = [] := by
  refine List.flatMap_eq_nil_iff.mpr fun e he => ?_
  rw [List.map_eq_nil_iff, List.filter_eq_nil_iff]
  intro id hid
  obtain ⟨k, hk, -⟩ := h.filed.sound e he id hid
  obtain ⟨r, hr, -⟩ := Index.InStep.get_of_wanted hk
  have hmem : (id, r) ∈ records.entries := (OrdMap.mem_entries records id r).mpr hr
  have hin : id ∈ records.entries.map (·.1) := List.mem_map.mpr ⟨_, hmem, rfl⟩
  simp [hin]

theorem unlistedIn_nil {i : Index} {records : OrdMap RecordId Record} (h : i.InStep K records)
    (ho : Orderly K) (hl : Legible i.shape) : unlistedIn records.entries i = [] := by
  obtain ⟨key, hkey, heq⟩ := hl
  unfold unlistedIn
  rw [Index.field, hkey]
  refine List.filterMap_eq_nil_iff.mpr fun r hr => ?_
  rw [heq]
  cases hk : i.shape.key r.2 with
  | none => rfl
  | some k =>
    rw [Option.bind_some, if_pos (h.listed ho hr hk)]

/-- `verify` has nothing to report about the indexes. -/
theorem InStep.indexProblems {db : Database δ} (h : InStep E K db) (ho : Orderly K) :
    db.indexProblems E = .ok [] := by
  have hall : ∀ c ∈ db.store.collectionNames, db.collectionProblems E c = .ok [] := by
    intro c hc
    have hsome : (db.store.formatOf c).isSome := by
      rw [formatOf, Option.isSome_map, ← OrdMap.mem_keys]
      exact (List.mem_filter.mp hc).1
    obtain ⟨records, hr, hi⟩ := h.reads c hsome
    unfold collectionProblems
    rw [hr.scan h.sound, ok_bind]
    have hnil : ((db.indexList c).flatMap fun i =>
        danglingIn records.entries i ++ unlistedIn records.entries i) = [] := by
      refine List.flatMap_eq_nil_iff.mpr fun i him => ?_
      have hlegible := h.legible c i.shape (List.mem_map_of_mem him)
      rw [danglingIn_nil (hi i him), unlistedIn_nil (hi i him) ho hlegible]
      rfl
    rw [hnil]
    rfl
  have hmap : db.store.collectionNames.mapM (db.collectionProblems E) =
      .ok (db.store.collectionNames.map fun _ => []) := by
    refine mapM_ok (List.forall₂_map_right_iff.mpr (List.forall₂_same.mpr hall))
  unfold Database.indexProblems
  rw [hmap, ok_bind]
  have hflat : (db.store.collectionNames.map fun _ => ([] : List Problem)).flatten = [] :=
    List.flatten_eq_nil_iff.mpr fun l hl => by
      obtain ⟨_, -, rfl⟩ := List.mem_map.mp hl
      rfl
  rw [hflat]
  rfl

theorem inStep_fresh {db : Database δ} (hstore : db.store = Heap.fresh) (hindexes : db.indexes = ∅) :
    db.InStep E K := by
  have hnone : ∀ c, db.store.formatOf c = none := fun c => by rw [hstore]; rfl
  have hlist : ∀ c, db.indexList c = [] := fun c => by rw [indexList, hindexes]; rfl
  refine ⟨hstore ▸ fresh_sound, fun c hc => ?_, fun c _ => by rw [hindexes]; rfl, fun c s hs => ?_⟩
  · rw [hnone] at hc
    cases hc
  · rw [shapes, hlist] at hs
    cases hs

/-- After every such run each index holds what one built over a scan would hold, and
`verify` lists no problem with any. -/
theorem indexes_match (E : Env) (U : Upkeep δ) (ho : Orderly K) {db : Database δ}
    (hstore : db.store = Heap.fresh) (hindexes : db.indexes = ∅) {cs : List IndexCommand}
    (hcs : Guarded (IndexCommand.step E U) (IndexCommand.Keeping E K) db cs) :
    (run (IndexCommand.step E U) db cs).IndexesMatch E ∧
      (run (IndexCommand.step E U) db cs).indexProblems E = .ok [] := by
  have h := run_invariant (IndexCommand.step_inStep ho) (inStep_fresh hstore hindexes) hcs
  exact ⟨h.indexesMatch ho, h.indexProblems ho⟩

/-- A database over an empty directory, with no structure but indexes. -/
def fresh : Database Unit := ⟨Heap.fresh, ∅, [], ∅, (), false⟩

def sevenRecord : Record := (∅ : Record).set "n" ⟨.i64 7, trivial⟩

def sevenRun : List IndexCommand := [.createCollection "c" signedSchema, .createIndex "c" "n" .hash,
  .insert "c" 1 sevenRecord, .update "c" 1 sevenRecord, .delete "c" 1]

theorem orderly_seven : Orderly (· = .i64 7) where
  linked := by
    rintro a b c rfl rfl rfl
    rw [Value.cmp_self]
    exact fun _ _ => rfl
  hashed := by
    rintro a b rfl rfl _
    rfl

theorem faithful_seven {db : Database Unit} (hf : db.store.formatOf "c" = some (0, .new signedSchema, false))
    (hs : db.shapes "c" = [.single "n"]) : Faithful (· = .i64 7) db "c" sevenRecord := by
  intro f hf' _ bytes hb
  obtain rfl := Option.some.inj (hf.symm.trans hf')
  have henc : (RecordCodec.new signedSchema).encode (normalizeForStorage sevenRecord) =
      .ok [1, 0, 0, 0, 0, 0, 0, 0, 0, 0, 1, 7, 0, 0, 0, 0, 0, 0, 0, 27, 0, 0, 0, 27, 0, 0, 0] := by
    decide +kernel
  obtain rfl := Except.ok.inj (henc.symm.trans hb)
  refine ⟨sevenRecord, rfl, fun s hmem => ?_⟩
  rw [hs, List.mem_singleton] at hmem
  subst hmem
  exact ⟨⟨rfl, rfl⟩, fun k hk => (Option.some.inj hk).symm⟩

theorem buildable_seven {db : Database Unit} (hempty : Heap.scan Env.plain db.store "c" = .ok [])
    {s : IndexShape} (hs : shapeOfName "n" = .ok s) : Buildable Env.plain (· = .i64 7) db "c" s := by
  have hname : shapeOfName "n" = .ok (.single "n") := rfl
  obtain rfl := Except.ok.inj (hname.symm.trans hs)
  refine ⟨legible_single (by decide), fun rows hrows r hr => ?_⟩
  rw [← Except.ok.inj (hempty.symm.trans hrows)] at hr
  cases hr

theorem indexes_match_seven :
    (run (IndexCommand.step Env.plain Upkeep.none) fresh sevenRun).IndexesMatch Env.plain ∧
      (run (IndexCommand.step Env.plain Upkeep.none) fresh sevenRun).indexProblems Env.plain = .ok [] :=
  indexes_match Env.plain Upkeep.none orderly_seven rfl rfl
    ⟨trivial, fun _ hs => buildable_seven rfl hs, faithful_seven rfl rfl, faithful_seven rfl rfl,
      trivial, trivial⟩

def wideRun : List IndexCommand := [.createCollection "c" signedSchema, .createIndex "c" "n" .hash,
  .insert "c" 1 wideRecord]

/-- A value that the store narrows is filed as it was given, and not as it reads back. -/
theorem wide_key_unlisted :
    ¬ ((run (IndexCommand.step Env.plain Upkeep.none) fresh wideRun).IndexesMatch Env.plain ∧
      (run (IndexCommand.step Env.plain Upkeep.none) fresh wideRun).indexProblems Env.plain = .ok []) := by
  rintro ⟨-, hproblems⟩
  have hone : ((run (IndexCommand.step Env.plain Upkeep.none) fresh wideRun).indexProblems
      Env.plain).toOption.map List.length = some 1 := by decide +kernel
  rw [hproblems] at hone
  cases hone

end Database

end Adabt.Engine
