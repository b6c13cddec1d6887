import Adabt.Engine.Commits
import Adabt.Engine.Session

/-! # Snapshot isolation

While a transaction is open its snapshot sees the store as it was, whatever is
written and reclaimed. A version newer than the snapshot stays in its chain, so
a commit that succeeds finds none under the keys it writes. -/

set_option autoImplicit false

namespace Adabt.Engine
open Adabt.Core Adabt.Indexing Adabt.Library Adabt.Storage Adabt.Storage.Heap

variable {δ α β : Type} {E : Env} {U : Upkeep δ}

/-! ## Every call is a run of writes of the store -/

namespace Database

/-- The store went through writes, under the same policy. -/
structure Moves (db db' : Database δ) : Prop where
  evolves : Evolves db.store db'.store
  strict : db'.strict = db.strict

theorem Moves.refl {db : Database δ} (hs : db.store.Sound) : Moves db db := ⟨.refl hs, rfl⟩

theorem Moves.trans {db db1 db2 : Database δ} (a : Moves db db1) (b : Moves db1 db2) : Moves db db2 :=
  ⟨a.evolves.trans b.evolves, b.strict.trans a.strict⟩

/-- However it ends, the program only writes to the store. -/
def Evolving (x : DatabaseM δ α) : Prop :=
  ∀ ⦃db : Database δ⦄, db.store.Sound → Post x db (fun _ => Moves db) fun _ => Moves db

theorem Evolving.bind {x : DatabaseM δ α} {f : α → DatabaseM δ β} (hx : Evolving x)
    (hf : ∀ a, Evolving (f a)) : Evolving (x >>= f) := by
  intro db hs
  rw [post_bind]
  refine (hx hs).mono (fun a db1 h1 => ?_) fun _ _ h => h
  exact (hf a h1.evolves.sound).mono (fun _ _ h2 => h1.trans h2) fun _ _ h2 => h1.trans h2

theorem Evolving.pure (a : α) : Evolving (pure a : DatabaseM δ α) := fun _ hs => .refl hs

theorem Evolving.get : Evolving (get : DatabaseM δ (Database δ)) := fun _ hs => Moves.refl hs

theorem Evolving.attempt (r : Except Error α) : Evolving (attempt r : DatabaseM δ α) :=
  fun _ hs => post_attempt (fun _ _ => .refl hs) fun _ _ => .refl hs

theorem Evolving.modify {f : Database δ → Database δ} (hf : ∀ db, (f db).store = db.store)
    (hp : ∀ db, (f db).strict = db.strict) : Evolving (modify f : DatabaseM δ PUnit) := by
  intro db hs
  rw [post_modify]
  refine ⟨?_, hp db⟩
  rw [hf]
  exact .refl hs

theorem Evolving.onStore {x : HeapM α} (hx : Writing x) : Evolving (onStore x : DatabaseM δ α) := by
  intro db hs
  rw [post_onStore]
  exact (hx hs).mono (fun _ _ e => ⟨e, rfl⟩) fun _ _ e => ⟨e, rfl⟩

theorem Evolving.forEach {f : α → DatabaseM δ Unit} (hf : ∀ a, Evolving (f a)) (xs : List α) :
    Evolving (forEach f xs) := by
  induction xs with
  | nil => exact .pure ()
  | cons x xs ih => exact (hf x).bind fun _ => ih

theorem evolving_oldRecord (c : String) (id : RecordId) : Evolving (oldRecord E U c id) := by
  refine Evolving.get.bind fun db => ?_
  split_ifs
  · exact .attempt _
  · exact .pure _

theorem store_reindexUpdate (c : String) (id : RecordId) (old : Option Record) (rec : Record)
    (db : Database δ) : (reindexUpdate U c id old rec db).store = db.store := by
  cases old <;> rfl

theorem store_reindexDelete (c : String) (id : RecordId) (old : Option Record) (db : Database δ) :
    (reindexDelete U c id old db).store = db.store := by
  cases old <;> rfl

theorem evolving_insert (c : String) (id : RecordId) (rec : Record) :
    Evolving (insert E U c id rec) := by
  refine Evolving.get.bind fun db => (Evolving.attempt _).bind fun _ => ?_
  cases (db.clusterFields.get c).bind fun f => clusterKey f rec with
  | none => exact (Evolving.onStore (writing_insert E c id rec)).bind fun _ => .modify (fun _ => rfl) fun _ => rfl
  | some key =>
    exact (Evolving.onStore (writing_insertKeyed E c id rec key)).bind fun _ => .modify (fun _ => rfl) fun _ => rfl

theorem evolving_insertBatch (c : String) (records : List (RecordId × Record)) :
    Evolving (insertBatch E U c records) := by
  have hstore : Evolving (Engine.onStore (Heap.insertBatch E c records) : DatabaseM δ ℕ) :=
    .onStore (writing_insertBatch E c records)
  have hindex : ∀ r : RecordId × Record, Evolving (modify (reindexInsert U c r.1 r.2) : DatabaseM δ Unit) :=
    fun _ => .modify (fun _ => rfl) fun _ => rfl
  unfold insertBatch
  refine Evolving.get.bind fun db => ?_
  by_cases hu : db.uniqueConstraints.isEmpty
  · simp only [if_pos hu]
    exact hstore.bind fun n => (Evolving.forEach hindex _).bind fun _ => .pure n
  · simp only [if_neg hu]
    exact (Evolving.attempt _).bind fun _ => hstore.bind fun n =>
      (Evolving.forEach hindex _).bind fun _ => .pure n

theorem evolving_update (c : String) (id : RecordId) (rec : Record) : Evolving (update E U c id rec) :=
  (evolving_oldRecord c id).bind fun old => Evolving.get.bind fun _ => (Evolving.attempt _).bind fun _ =>
    (Evolving.onStore (writing_update E c id rec)).bind fun _ =>
      (Evolving.modify (store_reindexUpdate _ _ _ _) fun _ => by cases old <;> rfl).bind fun _ => .pure _

theorem evolving_delete (c : String) (id : RecordId) : Evolving (delete E U c id) :=
  (evolving_oldRecord c id).bind fun old => (Evolving.onStore (writing_delete E c id)).bind fun _ =>
    (Evolving.modify (store_reindexDelete _ _ _) fun _ => by cases old <;> rfl).bind fun _ => .pure _

theorem evolving_commit (txn : Transaction) : Evolving (commit E U txn) := by
  unfold commit
  split_ifs
  · exact .pure _
  · refine Evolving.get.bind fun _ => (Evolving.attempt _).bind fun _ => Evolving.forEach (fun w => ?_) _
    unfold applyWrite
    cases w.2 with
    | put rec => exact (evolving_update _ _ _).bind fun _ => .pure _
    | delete => exact (evolving_delete _ _).bind fun _ => .pure _

theorem evolving_call (c : Call) : Evolving (c.perform E U) := by
  cases c with
  | insert c id rec => exact evolving_insert c id rec
  | insertBatch c records => exact (evolving_insertBatch c records).bind fun _ => .pure _
  | update c id rec => exact (evolving_update c id rec).bind fun _ => .pure _
  | delete c id => exact (evolving_delete c id).bind fun _ => .pure _
  | reclaim => exact (Evolving.onStore (writing_reclaim E)).bind fun _ => .pure _

end Database

/-! ## What a statement answers -/

/-- A read of one row under what the transaction has written itself. -/
def look (read : String → RecordId → Except Error (Option Record)) (own : OrdMap WriteKey Write)
    (c : String) (id : RecordId) : Except Error (Option Record) :=
  match own.get (toLex (c, id)) with
  | some w => .ok w.seen
  | none => read c id

/-- The answer to a statement, from reads of a fixed state under its own earlier writes. -/
def Statement.Answers (read : String → RecordId → Except Error (Option Record))
    (rows : String → Except Error (List (RecordId × Record))) (own : OrdMap WriteKey Write) :
    Statement → Answer → Prop
  | get c id, a => a = (look read own c id).map .record
  | scan c, a =>
    match rows c with
    | .error e => a = .error e
    | .ok found => ∃ seen : OrdMap RecordId Record, a = .ok (.rows seen.entries) ∧ ∀ id, seen.get id =
        match own.get (toLex (c, id)) with
        | some w => w.seen
        | none => ((∅ : OrdMap RecordId Record).insertAll found).get id
  | insert c id _, a => a = (look read own c id).bind fun found =>
      if found.isSome then .error (.recordExists id) else .ok .done
  | update c id _, a => a = (look read own c id).map fun found => .existed found.isSome
  | delete c id, a => a = (look read own c id).map fun found => .existed found.isSome

namespace Transaction

theorem get_overlayWrite (c : String) (rows : OrdMap RecordId Record) (w : WriteKey × Write)
    (id : RecordId) : (overlayWrite c rows w).get id =
      if toLex (c, id) = w.1 then w.2.seen else rows.get id := by
  unfold overlayWrite
  by_cases hc : w.1.key.1 = c
  · subst hc
    have hkey : toLex (w.1.key.1, id) = w.1 ↔ id = w.1.key.2 := by
      rw [← ofLex_inj]
      exact ⟨fun h => (Prod.ext_iff.mp h).2, fun h => Prod.ext_iff.mpr ⟨rfl, h⟩⟩
    rw [if_neg (fun h => h rfl)]
    simp only [hkey]
    cases w.2 with
    | put rec => rw [OrdMap.get_insert]; rfl
    | delete => rw [OrdMap.get_erase]; rfl
  · have hkey : toLex (c, id) ≠ w.1 := fun h => hc (congrArg (fun k : WriteKey => k.key.1) h).symm
    rw [if_pos hc, if_neg hkey]

/-- The overlay shows each own write, and elsewhere the row that was read. -/
theorem get_overlay (txn : Transaction) (c : String) (rows : OrdMap RecordId Record) (id : RecordId) :
    (txn.overlay c rows).get id = match txn.writes.get (toLex (c, id)) with
      | some w => w.seen
      | none => rows.get id := by
  obtain ⟨snapshot, ⟨es, hs⟩, reads⟩ := txn
  unfold overlay OrdMap.get
  dsimp only
  change (es.foldl (overlayWrite c) rows).get id = match OrdMap.find (toLex (c, id)) es with
    | some w => w.seen
    | none => rows.get id
  induction es generalizing rows with
  | nil => rfl
  | cons e es ih =>
    obtain ⟨hlt, hs⟩ := List.pairwise_cons.mp hs
    rw [List.foldl_cons, ih _ hs, get_overlayWrite, OrdMap.find]
    by_cases hk : toLex (c, id) = e.1
    · rw [if_pos hk, if_pos hk, OrdMap.find_none_of_lt (hk ▸ hlt)]
    · rw [if_neg hk, if_neg hk]

/-- The rows that a statement with this answer adds to those read before. -/
def noted (own : OrdMap WriteKey Write) : Statement → Answer → List Key
  | .get c id, _ | .insert c id _, _ | .update c id _, _ | .delete c id, _ =>
    if (own.get (toLex (c, id))).isSome then [] else [(c, id)]
  | .scan c, .ok (.rows rows) => rows.map fun r => (c, r.1)
  | .scan _, _ => []

/-- What a statement leaves of its transaction. -/
structure Kept (txn txn' : Transaction) (writes : OrdMap WriteKey Write) (read : List Key) : Prop where
  snapshot : txn'.snapshot = txn.snapshot
  writes : txn'.writes = writes
  reads : txn'.reads = txn.reads ++ read

theorem get_spec (store : Heap) (c : String) (id : RecordId) (txn : Transaction) :
    Post (get E store c id) txn
      (fun found txn' => look (getAt E store · · txn.snapshot) txn.writes c id = .ok found ∧
        Kept txn txn' txn.writes (if (txn.writes.get (toLex (c, id))).isSome then [] else [(c, id)]))
      fun e txn' => look (getAt E store · · txn.snapshot) txn.writes c id = .error e ∧
        Kept txn txn' txn.writes
          (if (txn.writes.get (toLex (c, id))).isSome then [] else [(c, id)]) := by
  unfold get look
  rw [post_bind, post_get, written]
  cases txn.writes.get (toLex (c, id)) with
  | some w => exact ⟨rfl, rfl, rfl, (List.append_nil _).symm⟩
  | none =>
    simp only [post_bind, post_modify]
    exact post_attempt (fun _ h => ⟨h, rfl, rfl, rfl⟩) fun _ h => ⟨h, rfl, rfl, rfl⟩

end Transaction

theorem perform_spec (store : Heap) (st : Statement) (txn : Transaction) :
    Post (st.perform E store) txn
      (fun r txn' => st.Answers (getAt E store · · txn.snapshot) (scanAt E store · txn.snapshot)
        txn.writes (.ok r) ∧ txn.Kept txn' (noteWrite txn.writes (st, .ok r))
          (Transaction.noted txn.writes st (.ok r)))
      fun e txn' => st.Answers (getAt E store · · txn.snapshot) (scanAt E store · txn.snapshot)
        txn.writes (.error e) ∧ txn.Kept txn' (noteWrite txn.writes (st, .error e))
          (Transaction.noted txn.writes st (.error e)) := by
  cases st with
  | get c id =>
    unfold Statement.perform
    rw [post_bind]
    exact (Transaction.get_spec store c id txn).mono
      (fun _ _ h => ⟨(congrArg (Except.map Reply.record) h.1).symm, h.2⟩)
      fun _ _ h => ⟨(congrArg (Except.map Reply.record) h.1).symm, h.2⟩
  | scan c =>
    unfold Statement.perform Transaction.scan Statement.Answers
    simp only [post_bind, post_get]
    refine post_attempt (fun rows h => ?_) fun _ h => ?_
    · simp only [h]
      refine ⟨⟨_, rfl, Transaction.get_overlay txn c _⟩, rfl, rfl, congrArg (txn.reads ++ ·) ?_⟩
      exact List.map_map
    · simp only [h]
      exact ⟨trivial, rfl, rfl, (List.append_nil _).symm⟩
  | insert c id rec =>
    unfold Statement.perform Transaction.insert
    simp only [post_bind]
    let refuse : Option Record → Answer := fun found =>
      if found.isSome then .error (.recordExists id) else .ok .done
    refine (Transaction.get_spec store c id txn).mono (fun found txn' h => ?_)
      fun _ _ h => ⟨(congrArg (Except.bind · refuse) h.1).symm, h.2⟩
    have hanswer := congrArg (Except.bind · refuse) h.1
    by_cases hf : found.isSome
    · rw [if_pos hf]
      exact ⟨(hanswer.trans (if_pos hf)).symm, h.2⟩
    · rw [if_neg hf]
      refine ⟨(hanswer.trans (if_neg hf)).symm, h.2.snapshot, ?_, h.2.reads⟩
      exact congrArg (OrdMap.insert · (toLex (c, id)) (Write.put rec)) h.2.writes
  | update c id rec =>
    unfold Statement.perform Transaction.update
    simp only [post_bind]
    let existed : Option Record → Reply := fun found => .existed found.isSome
    refine (Transaction.get_spec store c id txn).mono (fun found txn' h => ⟨?_, h.2.snapshot, ?_, h.2.reads⟩)
      fun _ _ h => ⟨(congrArg (Except.map existed) h.1).symm, h.2⟩
    · exact (congrArg (Except.map existed) h.1).symm
    · exact congrArg (OrdMap.insert · (toLex (c, id)) (Write.put rec)) h.2.writes
  | delete c id =>
    unfold Statement.perform Transaction.delete
    simp only [post_bind]
    let existed : Option Record → Reply := fun found => .existed found.isSome
    refine (Transaction.get_spec store c id txn).mono (fun found txn' h => ⟨?_, h.2.snapshot, ?_, h.2.reads⟩)
      fun _ _ h => ⟨(congrArg (Except.map existed) h.1).symm, h.2⟩
    · exact (congrArg (Except.map existed) h.1).symm
    · exact congrArg (OrdMap.insert · (toLex (c, id)) Write.delete) h.2.writes

/-- One more statement in the transcript, with its answer. -/
theorem say_spec (store : Heap) (st : Statement) (o : OpenTransaction) :
    ∃ a, (o.say E store st).past = o.past ++ [(st, a)] ∧
      st.Answers (getAt E store · · o.txn.snapshot) (scanAt E store · o.txn.snapshot) o.txn.writes a ∧
      o.txn.Kept (o.say E store st).txn (noteWrite o.txn.writes (st, a))
        (Transaction.noted o.txn.writes st a) := by
  have hpost := perform_spec (E := E) store st o.txn
  unfold OpenTransaction.say
  unfold Post at hpost
  cases hx : st.perform E store o.txn with
  | ok r txn =>
    rw [hx] at hpost
    exact ⟨.ok r, rfl, hpost⟩
  | error e txn =>
    rw [hx] at hpost
    exact ⟨.error e, rfl, hpost⟩

/-! ## What an open snapshot relies on -/

/-- A reader at `t` notices nothing, and a key written since `t` stays so. -/
structure Carries (t : ℕ) (h h' : Heap) : Prop where
  sound : h'.Sound
  codecs : h'.codecOf = h.codecOf
  see : ∀ k, h'.store.see t k = h.store.see t k
  anchored : h.store.Anchored t → h'.store.Anchored t
  since : h.store.Anchored t → ∀ k, h.store.Since t k → h'.store.Since t k
  next : h.versions.next ≤ h'.versions.next

theorem Carries.refl {t : ℕ} {h : Heap} (hs : h.Sound) : Carries t h h :=
  ⟨hs, rfl, fun _ => rfl, fun ha => ha, fun _ _ hk => hk, Nat.le_refl _⟩

theorem Carries.trans {t : ℕ} {h h1 h2 : Heap} (a : Carries t h h1) (b : Carries t h1 h2) :
    Carries t h h2 :=
  ⟨b.sound, b.codecs.trans a.codecs, fun k => (b.see k).trans (a.see k),
    fun ha => b.anchored (a.anchored ha),
    fun ha k hk => b.since (a.anchored ha) k (a.since ha k hk), Nat.le_trans a.next b.next⟩

/-- Writes carry every open snapshot. -/
theorem carries_of_evolves {t : ℕ} {h h' : Heap} (hs : h.Sound) (ht : t ∈ h.versions.opened)
    (e : Evolves h h') : Carries t h h' :=
  ⟨e.sound, e.codecs, VersionStore.Writes.see_eq e.writes hs.store ht,
    fun ha => (VersionStore.Writes.since e.writes hs.store ht ha).1,
    fun ha => (VersionStore.Writes.since e.writes hs.store ht ha).2,
    VersionStore.Writes.next_le e.writes⟩

/-- So does opening another snapshot, or closing one. -/
theorem carries_of_opened {t : ℕ} {h : Heap} {opened : List ℕ}
    (hs : Heap.Sound { h with versions := { h.versions with opened := opened } }) :
    Carries t h { h with versions := { h.versions with opened := opened } } :=
  ⟨hs, rfl, fun _ => rfl, fun ha => ha, fun _ _ hk => hk, Nat.le_refl _⟩

theorem sound_opened {h : Heap} (hs : h.Sound) {opened : List ℕ}
    (ho : ∀ t ∈ opened, t ∈ h.versions.opened ∨ t = h.versions.current) :
    Heap.Sound { h with versions := { h.versions with opened := opened } } := by
  refine ⟨⟨hs.store.live, hs.store.unique, hs.store.sorted, hs.store.stamps, fun t ht => ?_⟩,
    hs.fsm, hs.next⟩
  rcases ho t ht with hin | rfl
  · exact hs.store.opened t hin
  · exact Nat.sub_lt hs.next Nat.one_pos

namespace Session

/-- The snapshots of the open transactions are open. -/
structure Consistent (s : Session δ) : Prop where
  sound : s.db.store.Sound
  opened : (s.opened.values.map (·.txn.snapshot)).Subperm s.db.store.versions.opened
  fresh : ∀ i, s.next ≤ i → s.opened.get i = none

theorem Consistent.snapshot_open {s : Session δ} (h : s.Consistent) {i : ℕ} {o : OpenTransaction}
    (ho : s.opened.get i = some o) : o.txn.snapshot ∈ s.db.store.versions.opened := by
  apply h.opened.subset
  exact List.mem_map_of_mem ((OrdMap.mem_values _ _).mpr ⟨i, ho⟩)

theorem Consistent.lt_next {s : Session δ} (h : s.Consistent) {i : ℕ} {o : OpenTransaction}
    (ho : s.opened.get i = some o) : i < s.next := by
  by_contra hle
  rw [h.fresh i (Nat.not_lt.mp hle)] at ho
  cases ho

theorem start_consistent {db : Database δ} (hs : db.store.Sound) : (start db).Consistent :=
  ⟨hs, List.nil_subperm, fun _ _ => rfl⟩

theorem snapshots_erase {opened : OrdMap ℕ OpenTransaction} {i : ℕ} {o : OpenTransaction}
    (ho : opened.get i = some o) : (opened.values.map (·.txn.snapshot)).Perm
      (o.txn.snapshot :: (opened.erase i).values.map (·.txn.snapshot)) :=
  ((opened.erase_perm ho).map Prod.snd).map fun o => o.txn.snapshot

theorem snapshots_insert {opened : OrdMap ℕ OpenTransaction} {i : ℕ} {o : OpenTransaction}
    (hi : opened.get i = none) : ((opened.insert i o).values.map (·.txn.snapshot)).Perm
      (o.txn.snapshot :: opened.values.map (·.txn.snapshot)) :=
  ((opened.insert_perm hi).map Prod.snd).map fun o => o.txn.snapshot

theorem snapshots_replace {opened : OrdMap ℕ OpenTransaction} {i : ℕ} {o o' : OpenTransaction}
    (ho : opened.get i = some o) (h : o'.txn.snapshot = o.txn.snapshot) :
    ((opened.insert i o').values.map (·.txn.snapshot)).Perm (opened.values.map (·.txn.snapshot)) := by
  have hsame : opened.insert i o' = (opened.erase i).insert i o' := by
    ext j : 1
    simp only [OrdMap.get_insert, OrdMap.get_erase]
    split_ifs <;> rfl
  rw [hsame]
  refine (snapshots_insert (OrdMap.get_erase_self opened i)).trans ?_
  rw [h]
  exact (snapshots_erase ho).symm

theorem begin_eq (s : Session δ) : s.begin = ⟨{ s.db with store := { s.db.store with
    versions := s.db.store.versions.openSnapshot } },
      s.opened.insert s.next ⟨.new s.db.store.versions.current, []⟩, s.next + 1, s.done⟩ := rfl

section Steps

variable {s : Session δ} {i : ℕ} {o : OpenTransaction}

/-- Where there is no such transaction nothing happens. -/
theorem step_absent (h : s.opened.get i = none) : (∀ st, step E U (.within i st) s = s) ∧
    step E U (.commit i) s = s ∧ step E U (.abort i) s = s := by
  simp [step, h]

theorem step_within (h : s.opened.get i = some o) (st : Statement) : step E U (.within i st) s =
    { s with opened := s.opened.insert i (o.say E s.db.store st) } := by
  simp only [step, h]

theorem step_commit (h : s.opened.get i = some o) : step E U (.commit i) s = finish E U i o s := by
  simp only [step, h]

theorem step_abort (h : s.opened.get i = some o) : step E U (.abort i) s =
    { s with db := Database.abort o.txn s.db, opened := s.opened.erase i } := by
  simp only [step, h]

/-- A transaction that ends is dropped, and its commit has only written to the store. -/
theorem finish_spec (h : s.db.store.Sound) (i : ℕ) (o : OpenTransaction) :
    ∃ db done, Database.Moves s.db db ∧
      finish E U i o s = ⟨Database.abort o.txn db, s.opened.erase i, s.next, done⟩ := by
  have hpost := Database.evolving_commit (E := E) (U := U) o.txn h
  unfold finish
  cases hx : Database.commit E U o.txn s.db with
  | ok _ db => exact ⟨db, _, hpost.of_ok hx, rfl⟩
  | error _ db => exact ⟨db, _, hpost.of_error hx, rfl⟩

end Steps

/-- A transaction is dropped, after writes of the store. -/
theorem Consistent.drop {s : Session δ} (h : s.Consistent) {i : ℕ} {o : OpenTransaction}
    (ho : s.opened.get i = some o) {db : Database δ} (e : Evolves s.db.store db.store)
    (done : List Job) :
    Consistent ⟨Database.abort o.txn db, s.opened.erase i, s.next, done⟩ := by
  have hopened : db.store.versions.opened = s.db.store.versions.opened :=
    VersionStore.Writes.opened_eq e.writes
  refine ⟨sound_opened e.sound fun t ht => .inl (mem_of_mem_swapRemoveFirst ht), ?_, fun j hj => ?_⟩
  · have hsub : (o.txn.snapshot :: (s.opened.erase i).values.map (·.txn.snapshot)).Subperm
        db.store.versions.opened := by
      rw [hopened]
      exact (snapshots_erase ho).symm.subperm.trans h.opened
    have herase := hsub.erase o.txn.snapshot
    rw [List.erase_cons_head] at herase
    exact herase.trans (swapRemoveFirst_perm _ _).symm.subperm
  · dsimp only
    rw [OrdMap.get_erase]
    split_ifs
    · rfl
    · exact h.fresh j hj

theorem step_consistent (c : Command) (s : Session δ) (h : s.Consistent) :
    (step E U c s).Consistent := by
  cases c with
  | begin =>
    rw [step, begin_eq]
    refine ⟨sound_opened h.sound fun t ht => ?_, ?_, fun j hj => ?_⟩
    · exact (List.mem_append.mp ht).imp_right List.mem_singleton.mp
    · refine ((snapshots_insert (h.fresh _ (Nat.le_refl _))).subperm).trans ?_
      exact ((List.subperm_cons _).mpr h.opened).trans (List.perm_append_singleton _ _).symm.subperm
    · dsimp only at hj ⊢
      rw [OrdMap.get_insert_ne _ _ (by omega)]
      exact h.fresh j (by omega)
  | within i st =>
    cases ho : s.opened.get i with
    | none =>
      rw [(step_absent ho).1]
      exact h
    | some o =>
      rw [step_within ho]
      obtain ⟨a, -, -, hkept⟩ := say_spec (E := E) s.db.store st o
      refine ⟨h.sound, (snapshots_replace ho hkept.snapshot).subperm.trans h.opened, fun j hj => ?_⟩
      have hne : j ≠ i := (Nat.lt_of_lt_of_le (h.lt_next ho) hj).ne'
      dsimp only
      rw [OrdMap.get_insert_ne _ _ hne]
      exact h.fresh j hj
  | commit i =>
    cases ho : s.opened.get i with
    | none =>
      rw [(step_absent ho).2.1]
      exact h
    | some o =>
      obtain ⟨db, done, e, heq⟩ := finish_spec (E := E) (U := U) h.sound i o
      rw [step_commit ho, heq]
      exact h.drop ho e.evolves done
  | abort i =>
    cases ho : s.opened.get i with
    | none =>
      rw [(step_absent ho).2.2]
      exact h
    | some o =>
      rw [step_abort ho]
      exact h.drop ho (.refl h.sound) s.done
  | call c =>
    have e := (Database.evolving_call (E := E) (U := U) c h.sound).exec.evolves
    refine ⟨e.sound, ?_, h.fresh⟩
    rw [show (step E U (.call c) s).db.store.versions.opened = s.db.store.versions.opened from
      VersionStore.Writes.opened_eq e.writes]
    exact h.opened

/-- A transaction still open after a step was open before it, and its snapshot is carried. -/
theorem step_carries {s : Session δ} (h : s.Consistent) (c : Command) {i : ℕ} (hi : i < s.next)
    {o' : OpenTransaction} (ho' : (step E U c s).opened.get i = some o') :
    ∃ o, s.opened.get i = some o ∧ (o' = o ∨ ∃ st, o' = o.say E s.db.store st) ∧
      Carries o.txn.snapshot s.db.store (step E U c s).db.store := by
  have hsame : step E U c s = s → ∃ o, s.opened.get i = some o ∧
      (o' = o ∨ ∃ st, o' = o.say E s.db.store st) ∧
      Carries o.txn.snapshot s.db.store (step E U c s).db.store := by
    intro heq
    rw [heq] at ho' ⊢
    exact ⟨o', ho', .inl rfl, .refl h.sound⟩
  have hdrop : ∀ {j : ℕ} {d : OpenTransaction} {db : Database δ} (done : List Job),
      s.opened.get j = some d → Evolves s.db.store db.store →
      (s.opened.erase j).get i = some o' → ∃ o, s.opened.get i = some o ∧
        (o' = o ∨ ∃ st, o' = o.say E s.db.store st) ∧
        Carries o.txn.snapshot s.db.store (Database.abort d.txn db).store := by
    intro j d db done hd e hget
    rw [OrdMap.get_erase] at hget
    split_ifs at hget
    refine ⟨o', hget, .inl rfl, (carries_of_evolves h.sound (h.snapshot_open hget) e).trans ?_⟩
    exact carries_of_opened (h.drop hd e done).sound
  have hsound := (step_consistent (E := E) (U := U) c s h).sound
  cases c with
  | begin =>
    rw [step, begin_eq] at ho' hsound ⊢
    dsimp only at ho' hsound ⊢
    rw [OrdMap.get_insert_ne _ _ (by omega)] at ho'
    exact ⟨o', ho', .inl rfl, carries_of_opened hsound⟩
  | within j st =>
    cases hj : s.opened.get j with
    | none => exact hsame ((step_absent hj).1 st)
    | some d =>
      rw [step_within hj] at ho' ⊢
      dsimp only at ho' ⊢
      rw [OrdMap.get_insert] at ho'
      split_ifs at ho' with hij
      · cases ho'
        exact ⟨d, hij ▸ hj, .inr ⟨st, rfl⟩, .refl h.sound⟩
      · exact ⟨o', ho', .inl rfl, .refl h.sound⟩
  | commit j =>
    cases hj : s.opened.get j with
    | none => exact hsame (step_absent hj).2.1
    | some d =>
      obtain ⟨db, done, e, heq⟩ := finish_spec (E := E) (U := U) h.sound j d
      rw [step_commit hj, heq] at ho' ⊢
      exact hdrop done hj e.evolves ho'
  | abort j =>
    cases hj : s.opened.get j with
    | none => exact hsame (step_absent hj).2.2
    | some d =>
      rw [step_abort hj] at ho' ⊢
      exact hdrop [] hj (.refl h.sound) ho'
  | call c =>
    have e := (Database.evolving_call (E := E) (U := U) c h.sound).exec.evolves
    exact ⟨o', ho', .inl rfl, carries_of_evolves h.sound (h.snapshot_open ho') e⟩

end Session

/-! ## What a commit checks -/

namespace Database

theorem newestStamp_le_iff {h : Heap} (hs : h.Sound) {key : Key} {c : Collection}
    (hc : h.collections.get key.1 = some c) (t : ℕ) :
    (((c.directory.get key.2).bind (·.newestStamp)).all (· ≤ t)) = true ↔ ¬ h.store.Since t key := by
  have hchain : h.store.chain key = (((c.directory.get key.2)).map (·.versions)).getD [] := by
    change h.chainOf key = _
    rw [chainOf, hc]
    rfl
  have hsorted := hs.store.sorted key
  unfold VersionStore.Since
  rw [hchain] at hsorted ⊢
  cases hd : c.directory.get key.2 with
  | none => simp
  | some chain =>
    rw [hd] at hsorted
    rw [Option.map_some, Option.getD_some] at hsorted ⊢
    rw [Option.bind_some, VersionChain.newestStamp]
    rcases List.eq_nil_or_concat chain.versions with hnil | ⟨init, last, hlast⟩
    · simp [hnil]
    · rw [List.concat_eq_append] at hlast
      rw [hlast] at hsorted ⊢
      have hle := (List.pairwise_append.mp hsorted).2.2
      simp only [List.getLast?_append, List.getLast?_singleton, Option.some_or, Option.map_some,
        Option.all_some, decide_eq_true_eq]
      constructor
      · rintro hlt ⟨v, hv, hvt⟩
        rcases List.mem_append.mp hv with hin | hin
        · have := hle v hin last (List.mem_singleton_self _)
          omega
        · rw [List.mem_singleton.mp hin] at hvt
          omega
      · intro hnone
        by_contra hgt
        exact hnone ⟨last, List.mem_append_right _ (List.mem_singleton_self _), Nat.not_le.mp hgt⟩

/-- The check of one key: its collection is there, and nothing newer stands under it. -/
theorem checkUnwritten_iff {h : Heap} (hs : h.Sound) {t : ℕ} {key : Key} :
    checkUnwritten h t key = .ok () ↔ (h.formatOf key.1).isSome ∧ ¬ h.store.Since t key := by
  unfold checkUnwritten latestWriteTs formatOf
  cases hc : h.collections.get key.1 with
  | none => simp
  | some c =>
    rw [ok_bind, ensure_eq_ok, newestStamp_le_iff hs hc]
    simp

theorem checkCommit_of_ok {db db' : Database δ} {txn : Transaction} (hne : txn.isEmpty = false)
    (hok : commit E U txn db = .ok () db') : db.checkCommit txn = .ok () := by
  by_contra hfail
  have hpost : Post (commit E U txn) db (fun _ _ => False) fun _ _ => True := by
    unfold commit
    rw [hne]
    simp only [Bool.false_eq_true, if_false, post_bind, post_get]
    exact post_attempt (fun _ h => absurd h hfail) fun _ _ => trivial
  exact hpost.of_ok hok

/-- A commit that succeeds finds nothing newer than its snapshot under what it writes. -/
theorem commit_unwritten {db db' : Database δ} (hs : db.store.Sound) {txn : Transaction}
    (hok : commit E U txn db = .ok () db') {w : WriteKey × Write}
    (hw : w ∈ txn.writes.entries) : ¬ db.store.store.Since txn.snapshot w.1.key := by
  have hne : txn.isEmpty = false := by
    unfold Transaction.isEmpty
    cases hl : txn.writes.entries with
    | nil => rw [hl] at hw; cases hw
    | cons _ _ => rfl
  obtain ⟨⟨⟩, hwrites, -⟩ := bind_eq_ok.mp (checkCommit_of_ok hne hok)
  obtain ⟨⟨⟩, hunwritten, -⟩ := bind_eq_ok.mp (checkAll_eq_ok.mp hwrites w hw)
  exact ((checkUnwritten_iff hs).mp hunwritten).2

end Database

/-! ## Transcripts -/

/-- Every answer was read from the base, under the writes that came before it. -/
def Transcript.Told (E : Env) (base : Heap) (past : Transcript) : Prop :=
  ∀ (before : Transcript) st a (after : Transcript), past = before ++ (st, a) :: after →
    st.Answers (getRecord E base) (Heap.scan E base) before.written a

theorem Transcript.told_nil (base : Heap) : Transcript.Told E base [] := by
  intro before st a after h
  have := congrArg List.length h
  simp at this

theorem Transcript.Told.concat {base : Heap} {past : Transcript} (h : past.Told E base)
    {st : Statement} {a : Answer}
    (ha : st.Answers (getRecord E base) (Heap.scan E base) past.written a) :
    Transcript.Told E base (past ++ [(st, a)]) := by
  intro before st' a' after heq
  rcases List.eq_nil_or_concat after with rfl | ⟨rest, last, rfl⟩
  · obtain ⟨rfl, hlast⟩ := List.append_inj' heq rfl
    cases hlast
    exact ha
  · rw [List.concat_eq_append, ← List.cons_append, ← List.append_assoc] at heq
    exact h before st' a' rest (List.append_inj' heq rfl).1

theorem Transcript.written_concat (past : Transcript) (p : Statement × Answer) :
    Transcript.written (past ++ [p]) = noteWrite past.written p := by
  unfold Transcript.written
  rw [List.foldl_append]
  rfl

/-- The transaction as its transcript has it. -/
def noteStatement (txn : Transaction) (p : Statement × Answer) : Transaction :=
  ⟨txn.snapshot, noteWrite txn.writes p, txn.reads ++ Transaction.noted txn.writes p.1 p.2⟩

def Transcript.replay (snapshot : ℕ) (past : Transcript) : Transaction :=
  past.foldl noteStatement (.new snapshot)

theorem Transcript.replay_concat (snapshot : ℕ) (past : Transcript) (p : Statement × Answer) :
    Transcript.replay snapshot (past ++ [p]) = noteStatement (past.replay snapshot) p := by
  unfold Transcript.replay
  rw [List.foldl_append]
  rfl

theorem Transcript.replay_eq (snapshot : ℕ) (past : Transcript) :
    (past.replay snapshot).snapshot = snapshot ∧ (past.replay snapshot).writes = past.written := by
  induction past using List.reverseRecOn with
  | nil => exact ⟨rfl, rfl⟩
  | append_singleton past p ih =>
    rw [Transcript.replay_concat]
    refine ⟨ih.1, ?_⟩
    change noteWrite (Transcript.replay snapshot past).writes p = _
    rw [ih.2]
    exact (Transcript.written_concat past p).symm

theorem say_replays {store : Heap} {st : Statement} {o : OpenTransaction} {a : Answer}
    (hpast : (o.say E store st).past = o.past ++ [(st, a)])
    (hkept : o.txn.Kept (o.say E store st).txn (noteWrite o.txn.writes (st, a))
      (Transaction.noted o.txn.writes st a)) (h : o.txn = o.past.replay o.txn.snapshot) :
    (o.say E store st).txn = (o.say E store st).past.replay (o.say E store st).txn.snapshot := by
  rw [hpast, hkept.snapshot, Transcript.replay_concat, ← h]
  obtain ⟨hs, hw, hr⟩ := hkept
  unfold noteStatement
  rw [← hs, ← hw, ← hr]

/-- An open transaction reads the store that it began on. -/
structure Begun (E : Env) (base store : Heap) (o : OpenTransaction) : Prop where
  snapshot : o.txn.snapshot = base.versions.current
  codecs : store.codecOf = base.codecOf
  sees : ∀ k, store.store.see o.txn.snapshot k = base.stored k
  anchored : store.store.Anchored o.txn.snapshot
  next : base.versions.next ≤ store.versions.next
  replays : o.txn = o.past.replay o.txn.snapshot
  told : o.past.Told E base

theorem Begun.written {base store : Heap} {o : OpenTransaction} (h : Begun E base store o) :
    o.past.written = o.txn.writes := by
  rw [h.replays]
  exact (Transcript.replay_eq _ _).2.symm

/-- A transaction that begins reads the store as it is. -/
theorem begun_begin {base : Heap} (hs : base.Sound) :
    Begun E base { base with versions := base.versions.openSnapshot }
      ⟨.new base.versions.current, []⟩ :=
  ⟨rfl, rfl, hs.store.see_current, hs.store.anchored, Nat.le_refl _, rfl, Transcript.told_nil base⟩

/-- Reads at its snapshot answer as reads of that store did. -/
theorem Begun.reads {base store : Heap} {o : OpenTransaction} (h : Begun E base store o)
    (hb : base.Sound) (hs : store.Sound) :
    (getAt E store · · o.txn.snapshot) = getRecord E base ∧
      (scanAt E store · o.txn.snapshot) = Heap.scan E base := by
  have hcongr := fun c => answers_congr E (readable_newest hb.store)
    (readable_visibleAt hs.store o.txn.snapshot) (congrFun h.codecs c) fun id => by
      rw [content_visibleAt, content_newest, h.sees]
  exact ⟨funext fun c => funext fun id => (hcongr c).1 id, funext fun c => (hcongr c).2⟩

theorem Begun.carries {base store store' : Heap} {o : OpenTransaction} (h : Begun E base store o)
    (hc : Carries o.txn.snapshot store store') : Begun E base store' o :=
  ⟨h.snapshot, hc.codecs.trans h.codecs, fun k => (hc.see k).trans (h.sees k),
    hc.anchored h.anchored, Nat.le_trans h.next hc.next, h.replays, h.told⟩

theorem Begun.say {base store : Heap} {o : OpenTransaction} (h : Begun E base store o)
    (hb : base.Sound) (hs : store.Sound) (st : Statement) :
    Begun E base store (o.say E store st) := by
  obtain ⟨a, hpast, hanswers, hkept⟩ := say_spec (E := E) store st o
  rw [(h.reads hb hs).1, (h.reads hb hs).2, ← h.written] at hanswers
  refine ⟨hkept.snapshot.trans h.snapshot, h.codecs, ?_, ?_, h.next, ?_, ?_⟩
  · rw [hkept.snapshot]
    exact h.sees
  · rw [hkept.snapshot]
    exact h.anchored
  · exact say_replays hpast hkept h.replays
  · rw [hpast]
    exact h.told.concat hanswers

namespace Session

/-- A transaction that is open began on the given store. -/
structure OpenSince (E : Env) (base : Heap) (i : ℕ) (s : Session δ) : Prop where
  consistent : s.Consistent
  given : i < s.next
  begun : ∀ o, s.opened.get i = some o → Begun E base s.db.store o

theorem begin_openSince {base : Session δ} (h : base.Consistent) :
    (step E U .begin base).OpenSince E base.db.store base.next := by
  refine ⟨step_consistent (E := E) (U := U) .begin base h, Nat.lt_succ_self _, fun o ho => ?_⟩
  rw [step, begin_eq] at ho ⊢
  rw [OrdMap.get_insert_self] at ho
  cases ho
  exact begun_begin h.sound

/-- A transaction that is still open has begun where it had begun before the step. -/
theorem step_begun {base : Heap} (hb : base.Sound) {s : Session δ} (h : s.Consistent) (c : Command)
    {i : ℕ} (hi : i < s.next) (hbegun : ∀ o, s.opened.get i = some o → Begun E base s.db.store o)
    {o' : OpenTransaction} (ho' : (step E U c s).opened.get i = some o') :
    Begun E base (step E U c s).db.store o' := by
  obtain ⟨o, ho, hsay, hcarries⟩ := step_carries h c hi ho'
  rcases hsay with rfl | ⟨st, rfl⟩
  · exact (hbegun _ ho).carries hcarries
  · refine ((hbegun o ho).say hb h.sound st).carries ?_
    obtain ⟨a, -, -, hkept⟩ := say_spec (E := E) s.db.store st o
    rwa [hkept.snapshot]

theorem step_openSince {base : Heap} (hb : base.Sound) {i : ℕ} (c : Command) (s : Session δ)
    (h : s.OpenSince E base i) : (step E U c s).OpenSince E base i := by
  have hnext : s.next ≤ (step E U c s).next := by
    cases c with
    | begin => exact Nat.le_succ _
    | within j st =>
      cases hj : s.opened.get j with
      | none => rw [(step_absent hj).1]
      | some o => rw [step_within hj]
    | commit j =>
      cases hj : s.opened.get j with
      | none => rw [(step_absent hj).2.1]
      | some o =>
        obtain ⟨db, done, -, heq⟩ := finish_spec (E := E) (U := U) h.consistent.sound j o
        rw [step_commit hj, heq]
    | abort j =>
      cases hj : s.opened.get j with
      | none => rw [(step_absent hj).2.2]
      | some o => rw [step_abort hj]
    | call c => exact Nat.le_refl _
  exact ⟨step_consistent c s h.consistent, Nat.lt_of_lt_of_le h.given hnext, fun _ ho' =>
    step_begun hb h.consistent c h.given h.begun ho'⟩

/-- A key that was written since a transaction began stays so as long as it is open. -/
theorem since_stays {base : Heap} (hb : base.Sound) {i : ℕ} {k : Key} (cs : List Command)
    {s : Session δ} (h : s.OpenSince E base i)
    (hk : s.db.store.store.Since base.versions.current k) {o : OpenTransaction}
    (ho : (run (step E U) s cs).opened.get i = some o) :
    (run (step E U) s cs).db.store.store.Since base.versions.current k := by
  have hkeeps := @run_keeps _ _ (step E U) (fun s => s.OpenSince E base i ∧
    ∀ o, s.opened.get i = some o → s.db.store.store.Since base.versions.current k)
    (fun c s hs => by
      refine ⟨step_openSince hb c s hs.1, fun o' ho' => ?_⟩
      obtain ⟨o, ho, -, hcarries⟩ := step_carries hs.1.consistent c hs.1.given ho'
      have hbegun := hs.1.begun o ho
      rw [hbegun.snapshot] at hcarries
      exact hcarries.since (hbegun.snapshot ▸ hbegun.anchored) k (hs.2 o ho)) _ cs ⟨h, fun _ _ => hk⟩
  exact hkeeps.2 o ho

/-- What is stored under the key changed in a step, or was written anew. -/
def Wrote (k : Key) (s s' : Session δ) : Prop :=
  s'.db.store.stored k ≠ s.db.store.stored k ∨
    ∃ v ∈ s'.db.store.store.chain k, s.db.store.versions.next ≤ v.1

/-- A transaction open after a run was open before it. -/
theorem open_before {base : Heap} (hb : base.Sound) {i : ℕ} (cs : List Command) {s : Session δ}
    (h : s.OpenSince E base i) {o : OpenTransaction}
    (ho : (run (step E U) s cs).opened.get i = some o) : ∃ o, s.opened.get i = some o := by
  induction cs generalizing s with
  | nil => exact ⟨o, ho⟩
  | cons c cs ih =>
    obtain ⟨o1, ho1⟩ := ih (step_openSince hb c s h) ho
    obtain ⟨o0, ho0, -⟩ := step_carries h.consistent c h.given ho1
    exact ⟨o0, ho0⟩

/-- While a transaction is open, a step that writes a key leaves it written since. -/
theorem since_of_wrote {base : Heap} {i : ℕ} {k : Key} {c : Command} (hb : base.Sound)
    {s : Session δ} (h : s.OpenSince E base i) {o' : OpenTransaction}
    (ho' : (step E U c s).opened.get i = some o') (hw : Wrote k s (step E U c s)) :
    (step E U c s).db.store.store.Since base.versions.current k := by
  obtain ⟨o, ho, -, hcarries⟩ := step_carries h.consistent c h.given ho'
  have hbegun := h.begun o ho
  have hbegun' := (step_openSince hb c s h).begun o' ho'
  rw [hbegun.snapshot] at hcarries
  rcases hw with hne | ⟨v, hv, hlt⟩
  · by_contra hsince
    have hbefore : ¬ s.db.store.store.Since base.versions.current k := fun hs =>
      hsince (hcarries.since (hbegun.snapshot ▸ hbegun.anchored) k hs)
    have hsees := hbegun.sees k
    have hsees' := hbegun'.sees k
    rw [hbegun.snapshot, VersionStore.see_eq_now hbefore] at hsees
    rw [hbegun'.snapshot, VersionStore.see_eq_now hsince] at hsees'
    exact hne (hsees'.trans hsees.symm)
  · refine ⟨v, hv, ?_⟩
    have hnext := hbegun.next
    have hpos := hb.next
    unfold VersionTracker.current
    omega

/-- What a transaction was told is the state it began on under its own earlier writes, and
when it commits, nothing else has written under its keys since. -/
theorem snapshot_isolation (E : Env) (U : Upkeep δ) {db : Database δ} (hs : db.store.Sound)
    {before after : List Command} {base s : Session δ}
    (hbase : run (step E U) (start db) before = base)
    (hrun : run (step E U) (step E U .begin base) after = s) {o : OpenTransaction}
    (ho : s.opened.get base.next = some o) :
    o.past.Told E base.db.store ∧
      ∀ db', Database.commit E U o.txn s.db = .ok () db' → ∀ w ∈ o.past.written.entries,
        ∀ early c late, after = early ++ c :: late →
          ¬ Wrote w.1.key (run (step E U) (step E U .begin base) early)
            (run (step E U) (step E U .begin base) (early ++ [c])) := by
  have hconsistent : base.Consistent :=
    hbase ▸ run_keeps step_consistent before (start_consistent hs)
  have hb := hconsistent.sound
  have hopen := fun cs => @run_keeps _ _ (step E U) _ (step_openSince hb) _ cs
    (begin_openSince (E := E) (U := U) hconsistent)
  subst hrun
  have hbegun := (hopen after).begun o ho
  refine ⟨hbegun.told, fun db' hok w hw early c late hsplit hwrote => ?_⟩
  rw [hbegun.written] at hw
  refine Database.commit_unwritten (hopen after).consistent.sound hok hw ?_
  rw [hbegun.snapshot]
  rw [hsplit, run_append, run_cons] at ho ⊢
  rw [run_append] at hwrote
  have hthen := step_openSince (U := U) hb c _ (hopen early)
  obtain ⟨o', ho'⟩ := open_before hb late hthen ho
  exact since_stays hb late hthen (since_of_wrote hb (hopen early) ho' hwrote) ho

/-- A row is there, and one transaction reads it, while another writes beside it. -/
def sevenBefore : List Command := [.call (.insert "c" 1 Database.sevenRecord)]

def sevenAfter : List Command := [.within 0 (.get "c" 1), .begin, .within 1 (.update "c" 2 ∅),
  .commit 1, .call (.delete "c" 2), .call .reclaim, .within 0 (.scan "c"), .within 0 (.delete "c" 1)]

def sevenBase : Session Unit :=
  run (step Env.plain Upkeep.none) (start Database.declared) sevenBefore

def sevenSession : Session Unit :=
  run (step Env.plain Upkeep.none) (step Env.plain Upkeep.none .begin sevenBase) sevenAfter

theorem snapshot_isolation_seven : ∃ o db', sevenSession.opened.get 0 = some o ∧
    Database.commit Env.plain Upkeep.none o.txn sevenSession.db = .ok () db' ∧
    o.past.Told Env.plain sevenBase.db.store ∧ ∀ w ∈ o.past.written.entries,
      ∀ early c late, sevenAfter = early ++ c :: late → ¬ Wrote w.1.key
        (run (step Env.plain Upkeep.none) (step Env.plain Upkeep.none .begin sevenBase) early)
        (run (step Env.plain Upkeep.none) (step Env.plain Upkeep.none .begin sevenBase)
          (early ++ [c])) := by
  have hcommits : ((sevenSession.opened.get 0).map fun o =>
      match Database.commit Env.plain Upkeep.none o.txn sevenSession.db with
      | .ok _ _ => true
      | .error _ _ => false) = some true := by decide +kernel
  obtain ⟨o, ho, hok⟩ := Option.map_eq_some_iff.mp hcommits
  cases hc : Database.commit Env.plain Upkeep.none o.txn sevenSession.db with
  | error e db' =>
    rw [hc] at hok
    cases hok
  | ok u db' =>
    have hbase : sevenBase = _ := rfl
    have hsession : sevenSession = _ := rfl
    have h := snapshot_isolation Env.plain Upkeep.none Database.inStep_declared.sound hbase hsession ho
    exact ⟨o, db', ho, hc, h.1, h.2 db' hc⟩

end Session

end Adabt.Engine
