import Adabt.Engine.Isolation
import Adabt.Storage.Lockstep

/-! # Replaying writes

On databases that differ in nothing but pages, versions and logs, every call ends
the same way and leaves such databases again. What was written in one can be
replayed in the other. -/

set_option autoImplicit false

namespace Adabt.Engine
open Adabt.Core Adabt.Indexing Adabt.Library Adabt.Storage Adabt.Storage.Heap

variable {δ α β : Type} {E : Env} {U : Upkeep δ}

namespace Database

/-- Two open databases hold the same, and agree in everything but the store. -/
def Alike (db db' : Database δ) : Prop :=
  ∃ h', Heap.Alike db.store h' ∧ db' = { db with store := h' }

theorem Alike.refl {db : Database δ} (hs : db.store.Sound) (hm : db.store.replaying = false) :
    Alike db db := ⟨db.store, .refl hs hm, rfl⟩

theorem Alike.symm {db db' : Database δ} (a : Alike db db') : Alike db' db := by
  obtain ⟨h', hs, rfl⟩ := a
  exact ⟨db.store, hs.symm, rfl⟩

theorem Alike.trans {db db1 db2 : Database δ} (a : Alike db db1) (b : Alike db1 db2) :
    Alike db db2 := by
  obtain ⟨h1, hs1, rfl⟩ := a
  obtain ⟨h2, hs2, rfl⟩ := b
  exact ⟨h2, hs1.trans hs2, rfl⟩

theorem Alike.store {db db' : Database δ} (a : Alike db db') : Heap.Alike db.store db'.store := by
  obtain ⟨h', hs, rfl⟩ := a
  exact hs

/-- A store that holds the same. -/
theorem Alike.withStore {db db' : Database δ} (a : Alike db db') {h : Heap}
    (hh : Heap.Alike db'.store h) : Alike db { db' with store := h } := by
  obtain ⟨h', hs, rfl⟩ := a
  exact ⟨h, hs.trans hh, rfl⟩

theorem Alike.onStore {db db' : Database δ} (a : Alike db db') {x y : HeapM α}
    (h : Paired Heap.Alike x db.store y db'.store) :
    Paired Alike (onStore x) db (Engine.onStore y) db' := by
  obtain ⟨h', hs, rfl⟩ := a
  unfold Paired Engine.onStore
  cases hx : x db.store with
  | ok r h1 =>
    obtain ⟨h2, hy, hr⟩ := h.of_ok hx
    rw [hy]
    exact ⟨rfl, h2, hr, rfl⟩
  | error e h1 =>
    obtain ⟨e', h2, hy, hr⟩ := h.of_error hx
    rw [hy]
    exact ⟨h2, hr, rfl⟩

/-- A change of everything but the store. -/
theorem Alike.edit {db db' : Database δ} (a : Alike db db') {f : Database δ → Database δ}
    (hf : ∀ (db : Database δ) h, f { db with store := h } = { f db with store := h })
    (hstore : ∀ db, (f db).store = db.store) :
    Paired Alike (modify f : DatabaseM δ PUnit) db (modify f : DatabaseM δ PUnit) db' := by
  refine .modify ?_
  obtain ⟨h', hs, rfl⟩ := a
  refine ⟨h', ?_, hf db h'⟩
  rw [hstore]
  exact hs

theorem Alike.unique {db db' : Database δ} (a : Alike db db') :
    db'.checkUniqueConstraints = db.checkUniqueConstraints := by
  obtain ⟨h', hs, rfl⟩ := a
  rfl

theorem Alike.oldRecord {db db' : Database δ} (a : Alike db db') (c : String) (id : RecordId) :
    Paired Alike (oldRecord E U c id) db (Database.oldRecord E U c id) db' := by
  refine Paired.get ?_
  have hneeds : needsOldRecord U db' c = needsOldRecord U db c := by
    obtain ⟨h', -, rfl⟩ := a
    rfl
  rw [hneeds]
  by_cases hn : db.needsOldRecord U c
  · rw [if_pos hn, if_pos hn, a.store.reads.1]
    exact .attempt rfl a
  · rw [if_neg hn, if_neg hn]
    exact .pure _ a

theorem Alike.insert {db db' : Database δ} (a : Alike db db') (c : String) (id : RecordId)
    (rec : Record) : Paired Alike (insert E U c id rec) db (Database.insert E U c id rec) db' := by
  refine Paired.get ?_
  have hcluster : db'.clusterFields = db.clusterFields := by
    obtain ⟨h', -, rfl⟩ := a
    rfl
  rw [a.unique, hcluster]
  refine (Paired.attempt rfl a).bind fun _ _ _ a1 => ?_
  cases (db.clusterFields.get c).bind fun f => clusterKey f rec with
  | none =>
    have hplace : ∀ (_ : String) (_ : RecordId) (_ : Bytes), Places place := fun _ _ _ =>
      places_place
    refine (a1.onStore (a1.store.insertBy hplace hplace c id rec)).bind fun _ _ _ a2 => ?_
    exact a2.edit (fun _ _ => rfl) fun _ => rfl
  | some key =>
    have hkeyed : ∀ n (_ : RecordId) (_ : Bytes), Places (placeKeyed n key) := fun n _ _ =>
      places_placeKeyed n key
    refine (a1.onStore (a1.store.insertBy hkeyed hkeyed c id rec)).bind fun _ _ _ a2 => ?_
    exact a2.edit (fun _ _ => rfl) fun _ => rfl

theorem Alike.update {db db' : Database δ} (a : Alike db db') (c : String) (id : RecordId)
    (rec : Record) : Paired Alike (update E U c id rec) db (Database.update E U c id rec) db' := by
  refine (a.oldRecord c id).bind fun old _ _ a1 => Paired.get ?_
  rw [a1.unique]
  refine (Paired.attempt rfl a1).bind fun _ _ _ a2 => ?_
  refine (a2.onStore (a2.store.update c id rec)).bind fun _ _ _ a3 => ?_
  refine (a3.edit (fun db h => ?_) (store_reindexUpdate c id old _)).bind fun _ _ _ a4 => .pure _ a4
  cases old <;> rfl

theorem Alike.delete {db db' : Database δ} (a : Alike db db') (c : String) (id : RecordId) :
    Paired Alike (delete E U c id) db (Database.delete E U c id) db' := by
  refine (a.oldRecord c id).bind fun old _ _ a1 => ?_
  refine (a1.onStore (a1.store.delete c id)).bind fun _ _ _ a2 => ?_
  refine (a2.edit (fun db h => ?_) (store_reindexDelete c id old)).bind fun _ _ _ a3 => .pure _ a3
  cases old <;> rfl

theorem Alike.checkBatch {db db' : Database δ} (a : Alike db db') (c : String) :
    db'.checkBatch c = db.checkBatch c := by
  obtain ⟨h', -, rfl⟩ := a
  funext seen rows
  induction rows generalizing seen with
  | nil => rfl
  | cons rec rows ih =>
    rw [Database.checkBatch, Database.checkBatch]
    simp only [ih]
    rfl

theorem Alike.insertBatch {db db' : Database δ} (a : Alike db db') (c : String)
    (records : List (RecordId × Record)) :
    Paired Alike (insertBatch E U c records) db (Database.insertBatch E U c records) db' := by
  have hindex : ∀ (r : RecordId × Record) (db db' : Database δ), Alike db db' →
      Paired Alike (modify (reindexInsert U c r.1 r.2) : DatabaseM δ Unit) db
        (modify (reindexInsert U c r.1 r.2) : DatabaseM δ Unit) db' :=
    fun _ _ _ a => a.edit (fun _ _ => rfl) fun _ => rfl
  have hconstraints : db'.uniqueConstraints = db.uniqueConstraints := by
    obtain ⟨h', -, rfl⟩ := a
    rfl
  unfold Database.insertBatch
  refine Paired.get ?_
  rw [hconstraints, a.checkBatch c]
  by_cases hu : db.uniqueConstraints.isEmpty
  · simp only [if_pos hu]
    exact (a.onStore (a.store.insertBatch c records)).bind fun n _ _ a1 =>
      (Paired.forEach hindex _ a1).bind fun _ _ _ a2 => .pure n a2
  · simp only [if_neg hu]
    exact (Paired.attempt rfl a).bind fun _ _ _ a1 =>
      (a1.onStore (a1.store.insertBatch c records)).bind fun n _ _ a2 =>
        (Paired.forEach hindex _ a2).bind fun _ _ _ a3 => .pure n a3

theorem Alike.applyWrite {db db' : Database δ} (a : Alike db db') (w : WriteKey × Write) :
    Paired Alike (applyWrite E U w) db (Database.applyWrite E U w) db' := by
  unfold Database.applyWrite
  cases w.2 with
  | put rec => exact (a.update _ _ rec).bind fun _ _ _ a1 => .pure _ a1
  | delete => exact (a.delete _ _).bind fun _ _ _ a1 => .pure _ a1

/-- A reclaim changes nothing that a call could notice. -/
theorem alike_reclaim {db : Database δ} (hs : db.store.Sound) (hm : db.store.replaying = false) :
    Returns (reclaimVersions E : DatabaseM δ ℕ) db fun _ => Alike db := by
  unfold reclaimVersions
  rw [Returns, post_onStore]
  exact (keeps_reclaim E hs).mono fun _ _ k => (Alike.refl hs hm).withStore
    ((Heap.Alike.refl hs hm).keeps (.refl hs) k)

theorem Alike.call {db db' : Database δ} (a : Alike db db') (c : Call) :
    Alike (exec (c.perform E U) db) (exec (c.perform E U) db') := by
  cases c with
  | insert c id rec => exact (a.insert c id rec).exec
  | insertBatch c records => exact ((a.insertBatch c records).bind fun _ _ _ a1 => .pure () a1).exec
  | update c id rec => exact ((a.update c id rec).bind fun _ _ _ a1 => .pure () a1).exec
  | delete c id => exact ((a.delete c id).bind fun _ _ _ a1 => .pure () a1).exec
  | reclaim =>
    have hexec : ∀ {db : Database δ}, db.store.Sound → db.store.replaying = false →
        Alike db (exec (Call.reclaim.perform E U) db) := by
      intro db hs hm
      refine Post.exec (I := Alike db) ?_
      unfold Call.perform
      rw [post_bind]
      exact (alike_reclaim hs hm).mono fun _ _ h => h
    exact ((hexec a.store.sound a.store.mode).symm.trans a).trans (hexec a.store.sound' a.store.mode')

end Database

end Adabt.Engine
