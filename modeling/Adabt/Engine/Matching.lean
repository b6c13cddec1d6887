import Adabt.Engine.Indexes
import Adabt.Indexing.InStep
import Adabt.Storage.Batches

/-! # Indexes follow the heap

Every write goes to the store and to the indexes. As long as each record reads
back as the indexes were told of it, and no batch is cut short, each index stays
in step with the records that a scan returns. -/

set_option autoImplicit false

namespace Adabt.Engine
open Adabt.Core Adabt.Indexing Adabt.Ir Adabt.Library Adabt.Storage Adabt.Storage.Heap

/-- `verify` makes out from the name what the index lists a record under. -/
def Legible (shape : IndexShape) : Prop :=
  ∃ key, expectedKey shape.field = some key ∧ ∀ rec, key rec = shape.key rec

theorem probe_single (field : String) (rec : Record) : probe [field] rec = filedValue rec field := by
  unfold probe filedValues
  cases filedValue rec field <;> rfl

theorem probe_composite {fields : List String} (h : 2 ≤ fields.length) (rec : Record) :
    probe fields rec = (filedValues rec fields).map Value.list := by
  have hlen : ∀ (fields : List String) (vs : List Value), filedValues rec fields = some vs →
      vs.length = fields.length := by
    intro fields
    induction fields with
    | nil =>
      rintro vs ⟨⟩
      rfl
    | cons f fields ih =>
      intro vs hvs
      obtain ⟨v, -, hvs⟩ := Option.bind_eq_some_iff.mp hvs
      obtain ⟨rest, hrest, hvs⟩ := Option.bind_eq_some_iff.mp hvs
      cases hvs
      rw [List.length_cons, List.length_cons, ih rest hrest]
  unfold probe
  cases hvs : filedValues rec fields with
  | none => rfl
  | some vs =>
    have := hlen fields vs hvs
    match vs, this with
    | [], h' => simp [← h'] at h
    | [_], h' => simp [← h'] at h
    | _ :: _ :: _, _ => rfl

theorem toList_join (sep : Char) (names : List String) :
    (join sep names).toList = [sep].intercalate (names.map String.toList) := by
  induction names with
  | nil => rfl
  | cons x names ih =>
    cases names with
    | nil => simp [join, List.intercalate]
    | cons y names =>
      rw [join_cons_cons, String.toList_append, String.toList_append, ih]
      simp [List.intercalate, List.intersperse]

theorem splitAll_join {sep : Char} {names : List String} (h : ∀ n ∈ names, sep ∉ n.toList)
    (hne : names ≠ []) : splitAll sep (join sep names) = names := by
  unfold splitAll
  rw [toList_join, List.splitOn_intercalate]
  · rw [List.map_map]
    exact List.map_id'' (fun n => String.ofList_toList) names
  · rintro l hl
    obtain ⟨n, hn, rfl⟩ := List.mem_map.mp hl
    exact h n hn
  · simpa using hne

theorem not_mem_join {sep c : Char} (hc : c ≠ sep) {names : List String}
    (h : ∀ n ∈ names, c ∉ n.toList) : c ∉ (join sep names).toList := by
  induction names with
  | nil => simp [join]
  | cons x names ih =>
    cases names with
    | nil => exact h x List.mem_cons_self
    | cons y names =>
      rw [join_cons_cons]
      simp [hc, h x, ih fun n hn => h n (List.mem_cons_of_mem _ hn)]

theorem legible_single {field : String} (h : Plain field) : Legible (.single field) := by
  refine ⟨probe [field], ?_, fun rec => (probe_single field rec).trans ?_⟩
  · unfold expectedKey IndexShape.field
    rw [if_neg h.2.1, splitOnce_of_not_mem h.2.2]
    simp only [if_neg h.1]
  · rfl

theorem legible_covering {field : String} (h : Plain field) {covers : List String}
    (hc : covers ≠ []) : Legible (.covering field covers) := by
  refine ⟨probe [field], ?_, fun rec => (probe_single field rec).trans ?_⟩
  · unfold expectedKey IndexShape.field
    dsimp only
    rw [coveringBase_coveringName h, if_pos]
    unfold coveringName
    rw [if_neg (by simpa using hc)]
    exact sep_mem_joined _ _ _
  · rfl

theorem legible_composite {fields : List String} (h : ∀ f ∈ fields, Plain f)
    (hlen : 2 ≤ fields.length) : Legible (.composite fields) := by
  have hne : fields ≠ [] := List.ne_nil_of_length_pos (Nat.lt_of_lt_of_le Nat.two_pos hlen)
  have hsep : compositeSep ∈ (join compositeSep fields).toList := by
    match fields, hlen with
    | x :: y :: rest, _ =>
      rw [join_cons_cons]
      exact sep_mem_joined _ _ _
  refine ⟨probe fields, ?_, fun rec => (probe_composite hlen rec).trans ?_⟩
  · unfold expectedKey IndexShape.field compositeName
    dsimp only
    rw [if_neg (not_mem_join (by decide) fun f hf => (h f hf).2.1),
      splitOnce_of_not_mem (not_mem_join (by decide) fun f hf => (h f hf).2.2)]
    dsimp only
    rw [if_pos hsep, splitAll_join (fun f hf => (h f hf).1) hne]
  · rfl

theorem legible_partial {field condition : String} {predicate : Expr} (h : Plain field)
    (hc : coverSep ∉ condition.toList) (hd : decodeExprHex condition = .ok predicate) :
    Legible (.partialIndex field predicate condition) := by
  have hcover : coverSep ∉ (partialName field condition).toList := by
    unfold partialName
    simp [h.2.1, hc, show coverSep ≠ partialSep by decide]
  refine ⟨fun rec => if predicate.matches' rec then probe [field] rec else none, ?_, fun rec => ?_⟩
  · unfold expectedKey IndexShape.field
    dsimp only
    have hsplit : splitOnce partialSep (partialName field condition) = some (field, condition) :=
      splitOnce_joined h.2.2 condition
    rw [if_neg hcover, hsplit]
    dsimp only
    rw [hd]
    rfl
  · dsimp only
    rw [probe_single]
    rfl

variable {δ : Type} (E : Env) (U : Upkeep δ) {K : Value → Prop}

namespace Database

def shapes (db : Database δ) (collection : String) : List IndexShape :=
  (db.indexList collection).map (·.shape)

/-- Every collection reads back, and the indexes over it are in step with its records. -/
structure InStep (K : Value → Prop) (db : Database δ) : Prop where
  sound : db.store.Sound
  reads : ∀ name, (db.store.formatOf name).isSome → ∃ records, Reads E db.store name records ∧
    ∀ i ∈ db.indexList name, i.InStep K records
  homes : ∀ name, db.store.formatOf name = none → db.indexes.get name = none
  legible : ∀ name, ∀ s ∈ db.shapes name, Legible s

/-- Still in step, with the same formats and the same indexes declared. -/
structure Follows (K : Value → Prop) (db db' : Database δ) : Prop where
  inStep : InStep E K db'
  format : db'.store.formatOf = db.store.formatOf
  shapes : db'.shapes = db.shapes
  constraints : db'.uniqueConstraints = db.uniqueConstraints

variable {E U}

theorem Follows.refl {db : Database δ} (h : InStep E K db) : Follows E K db db := ⟨h, rfl, rfl, rfl⟩

theorem Follows.trans {db db1 db2 : Database δ} (a : Follows E K db db1) (b : Follows E K db1 db2) :
    Follows E K db db2 :=
  ⟨b.inStep, b.format.trans a.format, b.shapes.trans a.shapes,
    b.constraints.trans a.constraints⟩

/-! ## Editing the indexes of a collection -/

theorem get_editIndexes (c name : String) (f : Index → Index) (m : OrdMap String (List Index)) :
    (editIndexes c f m).get name = if name = c then (m.get c).map (List.map f) else m.get name := by
  unfold editIndexes
  cases hm : m.get c with
  | none =>
    split_ifs with hn
    · rw [hn, hm]
      rfl
    · rfl
  | some list =>
    rw [OrdMap.get_insert]
    rfl

theorem editIndexes_id (c : String) (m : OrdMap String (List Index)) :
    editIndexes c (fun i => i) m = m := by
  ext name : 1
  rw [get_editIndexes]
  split_ifs with hn
  · rw [hn]
    simp
  · rfl

theorem editIndexes_comp (c : String) (f g : Index → Index) (m : OrdMap String (List Index)) :
    editIndexes c g (editIndexes c f m) = editIndexes c (fun i => g (f i)) m := by
  ext name : 1
  simp only [get_editIndexes, if_true]
  split_ifs
  · rw [Option.map_map]
    congr 1
    funext list
    exact List.map_map
  · rfl

theorem indexList_edited (db : Database δ) (c name : String) (f : Index → Index) (h' : Heap) (d : δ) :
    indexList { db with store := h', indexes := editIndexes c f db.indexes, derived := d } name =
      if name = c then (db.indexList c).map f else db.indexList name := by
  unfold indexList
  rw [get_editIndexes]
  split_ifs
  · cases db.indexes.get c <;> rfl
  · rfl

/-- What keeps a database in step: the records of one collection change, and every
index over it follows. -/
theorem InStep.write {db : Database δ} (h : InStep E K db) {c : String} {h' : Heap} (d : δ)
    {f : Index → Index} (hs : h'.Sound) (hf : h'.formatOf = db.store.formatOf)
    (hshape : ∀ i, (f i).shape = i.shape)
    (hother : ∀ name, name ≠ c → ∀ records, Reads E db.store name records → Reads E h' name records)
    (hhere : ∀ records, Reads E db.store c records → (∀ i ∈ db.indexList c, i.InStep K records) →
      ∃ records', Reads E h' c records' ∧ ∀ i ∈ db.indexList c, (f i).InStep K records') :
    Follows E K db { db with store := h', indexes := editIndexes c f db.indexes, derived := d } := by
  have hlist := fun name => indexList_edited db c name f h' d
  have hshapes : shapes { db with store := h', indexes := editIndexes c f db.indexes, derived := d } =
      db.shapes := by
    funext name
    unfold shapes
    rw [hlist]
    split_ifs with hn
    · rw [hn, List.map_map]
      exact List.map_congr_left fun i _ => hshape i
    · rfl
  refine ⟨⟨hs, fun name hname => ?_, fun name hname => ?_, fun name s hmem => ?_⟩, hf, hshapes, rfl⟩
  · rw [hf] at hname
    obtain ⟨records, hr, hi⟩ := h.reads name hname
    rw [hlist]
    by_cases hn : name = c
    · subst hn
      rw [if_pos rfl]
      obtain ⟨records', hr', hi'⟩ := hhere records hr hi
      exact ⟨records', hr', List.forall_mem_map.mpr hi'⟩
    · rw [if_neg hn]
      exact ⟨records, hother name hn records hr, hi⟩
  · rw [hf] at hname
    have hnone := h.homes name hname
    change (editIndexes c f db.indexes).get name = none
    rw [get_editIndexes]
    split_ifs with hn
    · rw [← hn, hnone]
      rfl
    · exact hnone
  · rw [hshapes] at hmem
    exact h.legible name s hmem

/-- A store that kept everything stored. -/
theorem InStep.keeps {db : Database δ} (h : InStep E K db) {h' : Heap} (hk : Keeps db.store h')
    (d : δ) : Follows E K db { db with store := h', derived := d } := by
  have hw := h.write (c := "") (f := fun i => i) d hk.evolves.sound hk.format (fun _ => rfl)
    (fun _ _ _ hr => hr.keeps hk) fun records hr hi => ⟨records, hr.keeps hk, hi⟩
  rwa [editIndexes_id] at hw

/-! ## Writes -/

/-- A record that is taken reads back as one that every index makes the same of, and
is filed under keys in `K`. -/
def Faithful (K : Value → Prop) (db : Database δ) (c : String) (rec : Record) : Prop :=
  ∀ f, db.store.formatOf c = some f →
    f.2.1.schema.validateRecord (normalizeForStorage rec) = .ok () →
    ∀ bytes, f.2.1.encode (normalizeForStorage rec) = .ok bytes →
      ∃ rec', f.2.1.decode bytes = .ok rec' ∧ ∀ s ∈ db.shapes c,
        s.Alike (normalizeForStorage rec) rec' ∧ ∀ k ∈ s.key (normalizeForStorage rec), K k

theorem Faithful.follows {db db' : Database δ} {c : String} {rec : Record} (h : Faithful K db c rec)
    (hf : Follows E K db db') : Faithful K db' c rec := by
  unfold Faithful
  rw [hf.format, hf.shapes]
  exact h

/-- Take the old record out of an index, if it was read, and put the new one in. -/
def replaced (id : RecordId) (old : Option Record) (rec : Record) (i : Index) : Index :=
  (match old with
    | some old => i.unindexRecord id old
    | none => i).indexRecord id rec

theorem replaced_inStep {i : Index} {records : OrdMap RecordId Record} {id : RecordId}
    {rec rec' : Record} (ho : Orderly K) (h : i.InStep K records) (halike : i.shape.Alike rec rec')
    (hK : ∀ k ∈ i.shape.key rec, K k) :
    (replaced id (records.get id) rec i).InStep K (records.insert id rec') := by
  unfold replaced
  cases hold : records.get id with
  | none => exact h.index ho hold halike hK
  | some old =>
    have hgone := h.unindex ho hold
    have hback : (records.erase id).insert id rec' = records.insert id rec' := by
      ext x : 1
      simp only [OrdMap.get_insert, OrdMap.get_erase]
      split_ifs <;> rfl
    rw [← hback]
    apply hgone.index ho (OrdMap.get_erase_self _ _)
    · rwa [Index.shape_unindexRecord]
    · rwa [Index.shape_unindexRecord]

theorem shape_replaced (id : RecordId) (old : Option Record) (rec : Record) (i : Index) :
    (replaced id old rec i).shape = i.shape := by
  unfold replaced
  cases old with
  | none => exact Index.shape_indexRecord _ _ _
  | some old => exact (Index.shape_indexRecord _ _ _).trans (Index.shape_unindexRecord _ _ _)

/-- A record was stored, and the indexes were told of it and of the one it replaced. -/
theorem InStep.put {db : Database δ} (h : InStep E K db) (ho : Orderly K) {c : String}
    {id : RecordId} {rec : Record} (hfaith : Faithful K db c rec) {bytes payload : Bytes}
    (hst : StoredAs E db.store c id rec bytes payload) {h' : Heap}
    (hw : Rewrites (c, id) (some payload) db.store h') (old : Option Record)
    (hold : ∀ records, Reads E db.store c records → db.indexList c = [] ∨ old = records.get id)
    (d : δ) : Follows E K db { db with
      store := h'
      indexes := editIndexes c (replaced id old (normalizeForStorage rec)) db.indexes
      derived := d } := by
  obtain ⟨cid, codec, z, hf, hv, henc, rfl⟩ := hst
  obtain ⟨rec', hdec, hsame⟩ := hfaith _ hf hv bytes henc
  refine h.write d hw.evolves.sound hw.format (shape_replaced _ _ _)
    (fun name hn _ hr => hr.other hw hn.symm) fun records hr hi => ?_
  refine ⟨records.insert id rec', hr.put hw fun f hf' => ?_, fun i him => ?_⟩
  · cases hf.symm.trans hf'
    rwa [decode_buildPayload]
  · rcases hold records hr with hempty | rfl
    · rw [hempty] at him
      cases him
    · have hmem : i.shape ∈ db.shapes c := List.mem_map_of_mem him
      exact replaced_inStep ho (hi i him) (hsame _ hmem).1 (hsame _ hmem).2

theorem insert_follows {db : Database δ} (h : InStep E K db) (ho : Orderly K) {c : String}
    (id : RecordId) {rec : Record} (hfaith : Faithful K db c rec) :
    Post (insert E U c id rec) db (fun _ => Follows E K db) fun _ => Follows E K db := by
  have hspec : ∀ x : HeapM Unit, Post x db.store
      (fun _ h' => db.store.stored (c, id) = none ∧
        ∃ bytes payload, StoredAs E db.store c id rec bytes payload ∧
          Rewrites (c, id) (some payload) db.store h') (fun _ => Keeps db.store) →
      Post (onStore x >>= fun _ => modify (reindexInsert U c id (normalizeForStorage rec)) :
        DatabaseM δ Unit) db (fun _ => Follows E K db) fun _ => Follows E K db := by
    intro x hx
    rw [post_bind, post_onStore]
    refine hx.mono (fun _ h' ⟨hnone, bytes, payload, hst, hw⟩ => ?_) fun _ _ hk => h.keeps hk _
    refine h.put ho hfaith hst hw none (fun records hr => .inr ?_) _
    exact (hr.absent_iff.mp hnone).symm
  unfold insert
  simp only [post_bind, post_get]
  refine post_attempt (fun _ _ => ?_) fun _ _ => .refl h
  cases (db.clusterFields.get c).bind fun f => clusterKey f rec with
  | none => exact hspec _ (insertBy_spec E (fun _ _ _ => places_place) h.sound c id rec)
  | some key =>
    have hkeyed : ∀ n (_ : RecordId) (_ : Bytes), Places (placeKeyed n key) := fun n _ _ =>
      places_placeKeyed n key
    exact hspec _ (insertBy_spec E hkeyed h.sound c id rec)

/-- What was read before an overwrite: the record, unless no index asks for it. -/
theorem oldRecord_spec {db : Database δ} (h : InStep E K db) (c : String) (id : RecordId) :
    Post (oldRecord E U c id) db
      (fun old db' => db' = db ∧ ∀ records, Reads E db.store c records →
        db.indexList c = [] ∨ old = records.get id)
      fun _ db' => db' = db := by
  unfold oldRecord
  simp only [post_bind, post_get]
  by_cases hn : db.needsOldRecord U c
  · rw [if_pos hn]
    refine post_attempt (fun old hget => ⟨rfl, fun records hr => .inr ?_⟩) fun _ _ => rfl
    rw [hr.get h.sound] at hget
    exact (Except.ok.inj hget).symm
  · rw [if_neg hn]
    refine ⟨rfl, fun records hr => .inl ?_⟩
    unfold needsOldRecord at hn
    simp only [Bool.or_eq_true, Bool.not_eq_true', not_or, Bool.not_eq_false] at hn
    exact List.isEmpty_iff.mp hn.1

theorem reindexUpdate_eq (c : String) (id : RecordId) (old : Option Record) (stored : Record)
    (db : Database δ) : ∃ d, reindexUpdate U c id old stored db =
      { db with indexes := editIndexes c (replaced id old stored) db.indexes, derived := d } := by
  unfold reindexUpdate reindexInsert
  cases old with
  | none => exact ⟨_, rfl⟩
  | some old =>
    unfold reindexRemove
    dsimp only
    rw [editIndexes_comp]
    exact ⟨_, rfl⟩

theorem update_follows {db : Database δ} (h : InStep E K db) (ho : Orderly K) {c : String}
    (id : RecordId) {rec : Record} (hfaith : Faithful K db c rec) :
    Post (update E U c id rec) db (fun _ => Follows E K db) fun _ => Follows E K db := by
  unfold update
  simp only [post_bind, post_get]
  refine (oldRecord_spec h c id).mono (fun old db1 hold => ?_) fun _ db1 heq => ?_
  · obtain ⟨rfl, hold⟩ := hold
    refine post_attempt (fun _ _ => ?_) fun _ _ => .refl h
    rw [post_onStore]
    refine (update_spec E h.sound c id rec).mono (fun existed h' hw => ?_) fun _ _ hk => h.keeps hk _
    obtain ⟨-, bytes, payload, hst, hw⟩ := hw
    rw [post_modify, post_pure]
    obtain ⟨d, heq⟩ := reindexUpdate_eq (U := U) c id old (normalizeForStorage rec)
      { db1 with store := h' }
    rw [heq]
    exact h.put ho hfaith hst hw old hold d
  · rw [heq]
    exact .refl h

/-- Take the old record out of an index, if it was read. -/
def withdrawn (id : RecordId) (old : Option Record) (i : Index) : Index :=
  match old with
  | some old => i.unindexRecord id old
  | none => i

theorem withdrawn_inStep {i : Index} {records : OrdMap RecordId Record} (ho : Orderly K)
    (h : i.InStep K records) (id : RecordId) :
    (withdrawn id (records.get id) i).InStep K (records.erase id) := by
  unfold withdrawn
  cases hold : records.get id with
  | none =>
    rwa [records.erase_of_none hold]
  | some old => exact h.unindex ho hold

theorem shape_withdrawn (id : RecordId) (old : Option Record) (i : Index) :
    (withdrawn id old i).shape = i.shape := by
  unfold withdrawn
  cases old with
  | none => rfl
  | some old => exact Index.shape_unindexRecord _ _ _

theorem reindexDelete_eq (c : String) (id : RecordId) (old : Option Record) (db : Database δ) :
    ∃ d, reindexDelete U c id old db =
      { db with indexes := editIndexes c (withdrawn id old) db.indexes, derived := d } := by
  unfold reindexDelete
  cases old with
  | none =>
    have hid : editIndexes c (withdrawn id none) db.indexes = db.indexes := editIndexes_id c _
    rw [hid]
    exact ⟨_, rfl⟩
  | some old => exact ⟨_, rfl⟩

theorem delete_follows {db : Database δ} (h : InStep E K db) (ho : Orderly K) (c : String)
    (id : RecordId) :
    Post (delete E U c id) db (fun _ => Follows E K db) fun _ => Follows E K db := by
  unfold delete
  simp only [post_bind]
  refine (oldRecord_spec h c id).mono (fun old db1 hold => ?_) fun _ db1 heq => ?_
  · obtain ⟨rfl, hold⟩ := hold
    rw [post_onStore]
    refine (delete_spec E h.sound c id).mono (fun existed h' hd => ?_) fun _ _ hk => h.keeps hk _
    rw [post_modify, post_pure]
    obtain ⟨d, heq⟩ := reindexDelete_eq (U := U) c id old { db1 with store := h' }
    have hindexes : ∀ records, Reads E db1.store c records →
        (∀ i ∈ db1.indexList c, i.InStep K records) →
        ∀ i ∈ db1.indexList c, (withdrawn id old i).InStep K (records.erase id) := by
      intro records hr hi i him
      rcases hold records hr with hempty | rfl
      · rw [hempty] at him
        cases him
      · exact withdrawn_inStep ho (hi i him) id
    rw [heq]
    rcases hd with ⟨-, -, hw⟩ | ⟨-, hnone, hk⟩
    · exact h.write d hw.evolves.sound hw.format (shape_withdrawn id old)
        (fun name hn _ hr => hr.other hw hn.symm) fun records hr hi =>
          ⟨_, hr.remove hw, hindexes records hr hi⟩
    · refine h.write d hk.evolves.sound hk.format (shape_withdrawn id old)
        (fun name hn _ hr => hr.keeps hk) fun records hr hi => ⟨records.erase id, ?_, hindexes records hr hi⟩
      rw [records.erase_of_none (hr.absent_iff.mp hnone)]
      exact hr.keeps hk
  · rw [heq]
    exact .refl h

/-! ## Batches -/

/-- An index is told of the rows of a batch in turn. -/
def told (rows : List (RecordId × Record)) (i : Index) : Index :=
  rows.foldl (fun i r => i.indexRecord r.1 r.2) i

theorem shape_told (rows : List (RecordId × Record)) (i : Index) : (told rows i).shape = i.shape := by
  induction rows generalizing i with
  | nil => rfl
  | cons r rows ih => exact (ih _).trans (Index.shape_indexRecord i r.1 r.2)

theorem reindexBatch_eq (c : String) (rows : List (RecordId × Record)) (db : Database δ) :
    ∃ d, rows.foldl (fun db r => reindexInsert U c r.1 r.2 db) db =
      { db with indexes := editIndexes c (told rows) db.indexes, derived := d } := by
  induction rows generalizing db with
  | nil =>
    have hid : editIndexes c (told []) db.indexes = db.indexes := editIndexes_id c _
    rw [hid]
    exact ⟨db.derived, rfl⟩
  | cons r rows ih =>
    rw [List.foldl_cons]
    obtain ⟨d, hd⟩ := ih (reindexInsert U c r.1 r.2 db)
    refine ⟨d, hd.trans ?_⟩
    unfold reindexInsert
    dsimp only
    rw [editIndexes_comp]
    rfl

/-- Rows that were prepared read back as rows that every index makes the same of. -/
theorem Faithful.decoded {db : Database δ} {c : String} {f : CollectionId × RecordCodec × Bool}
    {records : List (RecordId × Record)} {rows : List (RecordId × Bytes)}
    (hf : db.store.formatOf c = some f) (hfaith : ∀ r ∈ records, Faithful K db c r.2)
    (hp : List.Forall₂ (fun r p => r.1 = p.1 ∧
      f.2.1.schema.validateRecord (normalizeForStorage r.2) = .ok () ∧
      f.2.1.encode (normalizeForStorage r.2) = .ok p.2) records rows) :
    ∃ es : List (RecordId × Record),
      List.Forall₂ (fun p e => p.1 = e.1 ∧ f.2.1.decode p.2 = .ok e.2) rows es ∧
      ∀ s ∈ db.shapes c, List.Forall₂ (fun a b => a.1 = b.1 ∧ s.Alike a.2 b.2)
          (records.map fun r => (r.1, normalizeForStorage r.2)) es ∧
        ∀ r ∈ records, ∀ k ∈ s.key (normalizeForStorage r.2), K k := by
  induction hp with
  | nil => exact ⟨[], .nil, fun _ _ => ⟨.nil, nofun⟩⟩
  | @cons r p records rows hrp _ ih =>
    obtain ⟨es, hes, halike⟩ := ih fun d hd => hfaith d (List.mem_cons_of_mem _ hd)
    obtain ⟨rec', hdec, hsame⟩ := hfaith r List.mem_cons_self f hf hrp.2.1 p.2 hrp.2.2
    refine ⟨(p.1, rec') :: es, .cons ⟨rfl, hdec⟩ hes, fun s hs => ⟨?_, ?_⟩⟩
    · exact .cons ⟨hrp.1, (hsame s hs).1⟩ (halike s hs).1
    · exact List.forall_mem_cons.mpr ⟨(hsame s hs).2, (halike s hs).2⟩

/-- Where no index is declared, a batch may be cut. -/
theorem InStep.cut {db : Database δ} (h : InStep E K db) {c : String}
    {records : List (RecordId × Record)} (hfaith : ∀ r ∈ records, Faithful K db c r.2)
    (hbare : db.shapes c = []) {f : CollectionId × RecordCodec × Bool}
    {rows : List (RecordId × Bytes)} (hf : db.store.formatOf c = some f)
    (hp : Prepared db.store c f records rows) {h' : Heap} (hcut : Cut E c f rows db.store h') :
    Follows E K db { db with store := h' } := by
  obtain ⟨done, p, rest, rfl, -, -, hfill⟩ := hcut
  obtain ⟨es, hes, -⟩ := Faithful.decoded hf hfaith hp.encoded
  have hdone := List.forall₂_take done.length hes
  rw [List.take_left] at hdone
  have hlist : db.indexList c = [] := List.map_eq_nil_iff.mp hbare
  have hw := h.write (f := fun i => i) db.derived hfill.evolves.sound hfill.format (fun _ => rfl)
    (fun name hn _ hr => hr.fills_other hfill hn) fun records hr _ =>
      ⟨_, hr.fills hf hfill hdone, fun i him => by
        rw [hlist] at him
        cases him⟩
  rwa [editIndexes_id] at hw

theorem insertBatch_follows {db : Database δ} (h : InStep E K db) (ho : Orderly K) {c : String}
    {records : List (RecordId × Record)} (hfaith : ∀ r ∈ records, Faithful K db c r.2)
    (hwhole : db.shapes c = [] ∨ WholeBatch E db.store c records) :
    Post (insertBatch E U c records) db (fun _ => Follows E K db) fun _ => Follows E K db := by
  have hbatch : Post (onStore (Heap.insertBatch E c records) >>= fun n =>
      forEach (fun r => modify (reindexInsert U c r.1 r.2))
        (records.map fun r => (r.1, normalizeForStorage r.2)) >>= fun _ => pure n : DatabaseM δ ℕ)
      db (fun _ => Follows E K db) fun _ => Follows E K db := by
    simp only [post_bind, post_onStore, post_forEach_modify, post_pure]
    refine (insertBatch_spec E h.sound c records).mono (fun n h' hw => ?_) fun _ h' hfail => ?_
    swap
    · rcases hfail with hk | ⟨f, rows, hf, hprep, hp, hcut⟩
      · exact h.keeps hk _
      · rcases hwhole with hbare | hwhole
        · exact h.cut hfaith hbare hf hp hcut
        · exact h.keeps (hwhole.keeps hf hprep hcut) _
    obtain ⟨d, heq⟩ := reindexBatch_eq (U := U) c
      (records.map fun r => (r.1, normalizeForStorage r.2)) { db with store := h' }
    rw [heq]
    cases hf : db.store.formatOf c with
    | none =>
      have hedit : editIndexes c (told (records.map fun r => (r.1, normalizeForStorage r.2)))
          db.indexes = db.indexes := by
        unfold editIndexes
        rw [h.homes c hf]
      rw [hedit]
      exact h.keeps (hw.2 hf) d
    | some f =>
      obtain ⟨rows, hp, hfill⟩ := hw.1 f hf
      obtain ⟨es, hes, halike⟩ := Faithful.decoded hf hfaith hp.encoded
      refine h.write d hfill.evolves.sound hfill.format (shape_told _)
        (fun name hn _ hr => hr.fills_other hfill hn) fun stored hr hi =>
          ⟨_, hr.fills hf hfill hes, fun i him => ?_⟩
      have hmem : i.shape ∈ db.shapes c := List.mem_map_of_mem him
      refine Index.InStep.indexAll ho (halike _ hmem).1 rfl (hi i him) ?_ ?_ ?_
      · intro e he
        obtain ⟨r, hrm, rfl⟩ := List.mem_map.mp he
        exact hr.absent_iff.mp (hp.absent r hrm)
      · rw [List.map_map]
        exact hp.nodup
      · intro e he k hk
        obtain ⟨r, hrm, rfl⟩ := List.mem_map.mp he
        exact (halike _ hmem).2 r hrm k hk
  unfold insertBatch
  simp only [post_bind, post_get] at hbatch ⊢
  by_cases hu : db.uniqueConstraints.isEmpty
  · rw [if_pos hu]
    simp only [post_bind]
    exact hbatch
  · rw [if_neg hu, post_bind]
    refine post_attempt (fun _ _ => ?_) fun _ _ => Follows.refl h
    simp only [post_bind]
    exact hbatch

/-! ## Commits -/

theorem applyWrite_follows {db : Database δ} (h : InStep E K db) (ho : Orderly K)
    (w : WriteKey × Write) (hfaith : ∀ rec, w.2 = .put rec → Faithful K db w.1.key.1 rec) :
    Post (applyWrite E U w) db (fun _ => Follows E K db) fun _ => Follows E K db := by
  unfold applyWrite
  cases hw : w.2 with
  | put rec =>
    dsimp only
    rw [post_bind]
    exact (update_follows h ho w.1.key.2 (hfaith rec hw)).mono (fun _ _ hf => hf) fun _ _ hf => hf
  | delete =>
    dsimp only
    rw [post_bind]
    exact (delete_follows h ho w.1.key.1 w.1.key.2).mono (fun _ _ hf => hf) fun _ _ hf => hf

theorem commit_follows {db : Database δ} (h : InStep E K db) (ho : Orderly K) {txn : Transaction}
    (hfaith : ∀ w ∈ txn.writes.entries, ∀ rec, w.2 = .put rec → Faithful K db w.1.key.1 rec) :
    Post (commit E U txn) db (fun _ => Follows E K db) fun _ => Follows E K db := by
  have happly := post_forEach (f := applyWrite E U) (R := fun _ => Follows E K db)
    (I := fun ws s => Follows E K db s ∧ ∀ w ∈ ws, ∀ rec, w.2 = .put rec →
      Faithful K db w.1.key.1 rec) (fun w ws s hs => by
      refine (applyWrite_follows hs.1.inStep ho w fun rec hrec =>
        (hs.2 w List.mem_cons_self rec hrec).follows hs.1).mono (fun _ s' hf => ?_) fun _ _ hf => ?_
      · exact ⟨hs.1.trans hf, fun v hv => hs.2 v (List.mem_cons_of_mem _ hv)⟩
      · exact hs.1.trans hf) txn.writes.entries db ⟨.refl h, hfaith⟩
  unfold commit
  by_cases hempty : txn.isEmpty
  · rw [if_pos hempty]
    exact .refl h
  · rw [if_neg hempty]
    simp only [post_bind, post_get]
    exact post_attempt (fun _ _ => happly.mono (fun _ _ hs => hs.1) fun _ _ hf => hf)
      fun _ _ => .refl h

end Database

end Adabt.Engine
