import Adabt.Storage.Versioning

/-! # Calls as writes

Inserts, updates, deletes and reclaims evolve the versioned store by writes and
leave the codecs alone, whether they end normally or with an error. The calls
that change the tables keep the heap sound. -/

set_option autoImplicit false

namespace Adabt.Storage
open Adabt.Core Adabt.Library

namespace Heap

variable (E : Env)

theorem Reclaimed.mode {h h' : Heap} (r : Reclaimed E h h') : h'.replaying = h.replaying := by
  obtain ⟨h1, a, rfl⟩ := r
  have hm : h1.replaying = (trimAll h).replaying := by rw [a.only]
  exact hm

theorem Wrote.mode {name : String} {c : Collection} {id : RecordId} {bytes : Bytes} {h h' : Heap}
    (w : Wrote E name c id bytes h h') : h'.replaying = h.replaying := by
  obtain ⟨loc, h1, p, rfl⟩ := w
  have hm : h1.unclustered.replaying = h.replaying := by rw [p.only]; rfl
  unfold pushVersion
  cases h1.collections.get name with
  | none => exact hm
  | some d => exact hm

/-- The heap went through writes, and ended sound. -/
structure Evolves (h h' : Heap) : Prop where
  writes : VersionStore.Writes h.store h'.store
  codecs : h'.codecOf = h.codecOf
  mode : h'.replaying = h.replaying
  sound : h'.Sound

theorem Evolves.refl {h : Heap} (hs : h.Sound) : Evolves h h := ⟨.refl, rfl, rfl, hs⟩

theorem Evolves.trans {h h1 h2 : Heap} (a : Evolves h h1) (b : Evolves h1 h2) : Evolves h h2 :=
  ⟨a.writes.trans b.writes, b.codecs.trans a.codecs, b.mode.trans a.mode, b.sound⟩

theorem evolves_of_writes {h h' : Heap} (hs : h.Sound)
    (hw : VersionStore.Writes h.store h'.store) (hc : h'.codecOf = h.codecOf)
    (hm : h'.replaying = h.replaying) (hf : h'.FsmInRange) : Evolves h h' :=
  ⟨hw, hc, hm, VersionStore.Writes.sound hw hs.store, hf,
    hs.next.trans_le (VersionStore.Writes.next_le hw)⟩

/-- Only the log, the settings or the files beside it differ. -/
theorem Evolves.of_same {h h' : Heap} (hs : h.Sound) (hc : h'.collections = h.collections)
    (hp : h'.pool = h.pool) (hf : h'.fsm = h.fsm) (hv : h'.versions = h.versions)
    (hm : h'.replaying = h.replaying) : Evolves h h' := by
  have hstore : h'.store = h.store := by
    unfold store chainOf
    rw [hc, hp, hv]
  refine evolves_of_writes hs (hstore ▸ .refl) (by unfold codecOf; rw [hc]) hm ?_
  unfold FsmInRange
  rw [hf, hp]
  exact hs.fsm

/-- The program keeps going through writes, however it ends. -/
def Writing {α : Type} (x : HeapM α) : Prop :=
  ∀ ⦃h : Heap⦄, h.Sound → Post x h (fun _ => Evolves h) fun _ => Evolves h

theorem Writing.post {α : Type} {x : HeapM α} (hx : Writing x) {h h1 : Heap} (a : Evolves h h1) :
    Post x h1 (fun _ => Evolves h) fun _ => Evolves h :=
  (hx a.sound).mono (fun _ _ b => a.trans b) fun _ _ b => a.trans b

theorem Writing.bind {α β : Type} {x : HeapM α} {f : α → HeapM β} (hx : Writing x)
    (hf : ∀ a, Writing (f a)) : Writing (x >>= f) := by
  intro h hs
  rw [post_bind]
  exact (hx hs).mono (fun a _ b => (hf a).post b) fun _ _ => id

theorem Writing.pure {α : Type} (a : α) : Writing (pure a : HeapM α) := fun _ hs => Evolves.refl hs

theorem Writing.throw {α : Type} (e : Error) : Writing (throw e : HeapM α) :=
  fun _ hs => Evolves.refl hs

theorem Writing.get : Writing (get : HeapM Heap) := fun _ hs => Evolves.refl hs

theorem Writing.attempt {α : Type} (r : Except Error α) : Writing (attempt r : HeapM α) :=
  fun _ hs => post_attempt (fun _ _ => Evolves.refl hs) fun _ _ => Evolves.refl hs

theorem Writing.forEach {α : Type} {f : α → HeapM Unit} (hf : ∀ a, Writing (f a)) (xs : List α) :
    Writing (forEach f xs) := by
  induction xs with
  | nil => exact .pure ()
  | cons x xs ih => exact (hf x).bind fun _ => ih

theorem writing_coll (name : String) : Writing (coll name) := by
  refine Writing.get.bind fun h => ?_
  cases h.collections.get name with
  | none => exact .throw _
  | some c => exact .pure c

theorem writing_log (op : WalOp) : Writing (log E op) := by
  intro h hs
  unfold log
  simp only [post_bind, post_get]
  by_cases hr : h.replaying
  · rw [if_pos hr]
    exact Evolves.refl hs
  · rw [if_neg hr]
    simp only [post_bind, post_modify]
    exact (Writing.attempt _).post (Evolves.of_same hs rfl rfl rfl rfl rfl)

theorem writing_reclaim : Writing (reclaim E) := by
  intro h hs
  refine (reclaim_spec E hs.store).mono fun _ h' r => ?_
  have ht := r.2.trimmed
  exact evolves_of_writes hs (.single (.trim _ _ _ (fun t => VersionTracker.reclaimHorizon_le) ht))
    r.2.codecOf (r.2.mode E) (r.2.fsm E hs.fsm)

theorem writing_maybeReclaim : Writing (maybeReclaim E) := by
  refine Writing.get.bind fun h => ?_
  by_cases hr : retentionLimit ≤ h.retained
  · rw [if_pos hr]
    exact (writing_reclaim E).bind fun _ => .pure _
  · rw [if_neg hr]
    exact .pure _

theorem Wrote.evolves {name : String} {c : Collection} {id : RecordId} {bytes : Bytes}
    {h h' : Heap} (hs : h.Sound) (hc : h.collections.get name = some c)
    (w : Wrote E name c id bytes h h') : Evolves h h' := by
  obtain ⟨loc, hfresh, hstore⟩ := w.store E hc
  refine evolves_of_writes hs ?_ (w.codecOf E) (w.mode E) (w.fsm E)
  rw [hstore]
  exact .single (.put _ _ loc _ hfresh)

theorem writing_applyPutBy {placing : Bytes → HeapM RecordLocation} (hp : Places placing)
    (name : String) (id : RecordId) (bytes : Bytes) :
    Writing (applyPutBy E placing name id bytes) := by
  intro h hs
  unfold applyPutBy
  simp only [post_bind, post_get]
  cases hc : h.collections.get name with
  | none => exact Evolves.refl hs
  | some c =>
    simp only [post_bind]
    refine (writeVersion_spec E hp hs.fsm name c id bytes).mono (fun _ h1 w => ?_) fun _ h1 w => ?_
    · exact (writing_maybeReclaim E).post (w.evolves E hs hc)
    · rw [w.2.1]
      exact Evolves.refl hs

theorem began_evolves {h : Heap} (hs : h.Sound) : Evolves h (began h) :=
  evolves_of_writes hs (.single (.tick _)) rfl rfl hs.fsm

theorem tombstone_evolves {h : Heap} {name : String} {c : Collection} {id : RecordId}
    {chain : VersionChain} (hs : h.Sound) (hc : h.collections.get name = some c)
    (hd : c.directory.get id = some chain) (hl : chain.newest ≠ none) :
    Evolves h (pushTombstone name id h.versions.next c chain (began h)) := by
  refine evolves_of_writes hs ?_ ?_ rfl hs.fsm
  · rw [store_pushTombstone hc hd]
    refine .single (.remove _ _ ?_)
    change Chain.newest (h.chainOf (name, id)) ≠ none
    rwa [chainOf_eq hc hd]
  · exact codecOf_setCollection (h := began h) (d := { c with
      directory := c.directory.insert id (chain.push h.versions.next none) }) hc rfl

theorem writing_applyDelete (name : String) (id : RecordId) : Writing (applyDelete E name id) := by
  intro h hs
  have hb := began_evolves hs
  unfold applyDelete
  simp only [post_bind]
  change Post _ (began h) _ _
  cases hc : h.collections.get name with
  | none => exact hb
  | some c =>
    dsimp only
    cases hd : c.directory.get id with
    | none => exact hb
    | some chain =>
      dsimp only
      by_cases ha : chain.isAbsent
      · rw [if_pos ha]
        exact hb
      · rw [if_neg ha]
        simp only [post_bind, post_modify]
        have hl : chain.newest ≠ none := fun hn => ha (VersionChain.isAbsent_iff.mpr hn)
        refine ((writing_maybeReclaim E).post (tombstone_evolves hs hc hd hl)).mono (fun _ _ b => b)
          fun _ _ b => b

theorem writing_insertBy {put : String → RecordId → Bytes → HeapM Unit}
    (hput : ∀ n i b, Writing (put n i b)) (name : String) (id : RecordId) (rec : Record) :
    Writing (insertBy E put name id rec) :=
  (writing_coll name).bind fun _ => (Writing.attempt _).bind fun _ =>
    (writing_log E _).bind fun _ => hput _ _ _

theorem writing_insert (name : String) (id : RecordId) (rec : Record) :
    Writing (insert E name id rec) :=
  writing_insertBy E (fun _ _ _ => writing_applyPutBy E places_place _ _ _) name id rec

theorem writing_insertKeyed (name : String) (id : RecordId) (rec : Record) (key : Int64) :
    Writing (insertKeyed E name id rec key) :=
  writing_insertBy E (fun n _ _ => writing_applyPutBy E (places_placeKeyed n key) _ _ _) name id rec

theorem writing_insertBatch (name : String) (records : List (RecordId × Record)) :
    Writing (insertBatch E name records) :=
  Writing.get.bind fun _ => (Writing.attempt _).bind fun _ =>
    (Writing.forEach (fun _ => writing_log E _) _).bind fun _ =>
      (Writing.forEach (fun _ => writing_applyPutBy E places_place _ _ _) _).bind fun _ => .pure _

theorem writing_update (name : String) (id : RecordId) (rec : Record) :
    Writing (update E name id rec) :=
  (writing_coll name).bind fun _ => (Writing.attempt _).bind fun _ =>
    (Writing.attempt _).bind fun _ => (writing_log E _).bind fun _ =>
      (writing_applyPutBy E places_place _ _ _).bind fun _ => .pure _

theorem writing_delete (name : String) (id : RecordId) : Writing (delete E name id) := by
  refine (writing_coll name).bind fun c => ?_
  by_cases hl : isLive c id
  · rw [if_pos hl]
    exact (writing_log E _).bind fun _ => writing_applyDelete E name id
  · rw [if_neg hl]
    exact writing_applyDelete E name id

theorem writing_recompressRow (name : String) (row : RecordId × Record) :
    Writing (recompressRow E name row) :=
  (writing_coll name).bind fun _ => (Writing.attempt _).bind fun _ =>
    (writing_log E _).bind fun _ => writing_applyPutBy E places_place _ _ _

theorem writing_recompressAll : Writing (recompressAll E) :=
  Writing.get.bind fun _ => (Writing.attempt _).bind fun _ => Writing.get.bind fun _ =>
    (Writing.forEach (fun name => Writing.get.bind fun _ => (Writing.attempt _).bind fun _ =>
      Writing.forEach (writing_recompressRow E name) _) _).bind fun _ =>
        Writing.get.bind fun _ => (Writing.attempt _).bind fun _ => .pure _

theorem fresh_sound : fresh.Sound := by
  have hchain : ∀ k, fresh.store.chain k = [] := fun _ => rfl
  have howns : ∀ {loc k t}, ¬ fresh.store.Owns loc k t := by
    intro loc k t ho
    rw [VersionStore.Owns, hchain] at ho
    cases ho
  refine ⟨⟨fun ho => absurd ho howns, fun ho => absurd ho howns, fun k => ?_, fun {k v} hv => ?_,
    (fun t ht => by cases ht)⟩, (fun p free hp => by cases hp), Nat.one_pos⟩
  · rw [hchain]
    exact List.Pairwise.nil
  · rw [hchain] at hv
    cases hv

end Heap

end Adabt.Storage
